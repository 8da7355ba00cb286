import Mathlib

/-! # In-order work streams with events

A device owns streams, each an in-order queue of items, and events.  Work is
appended to a stream and performed later, in the order of its stream; streams
progress independently of one another.  Recording an event on a stream marks
the stream's current end, and an event is complete once everything before its
mark has been performed; a stream can be made to wait for an event, which
captures the event's mark at that moment.

Logs are kept whole: `log s` is everything ever appended to `s` and `done s`
the length of the part performed, so that an item is named by its stream and
position and "already performed" is a comparison.

The two facts used everywhere are `Valid.done_of_precedes` — an item ordered
before a performed item has been performed — and `done_of_marked` — an item
below a complete event's mark has been performed.
-/
namespace WorkStreams

variable {σ ε α : Type*}

/-- A queue entry: some work, or a wait for the first `n` items of stream `s`. -/
inductive Item (σ α : Type*)
  | work (a : α)
  | wait (s : σ) (n : Nat)

/-- The work of an item, if it is work. -/
def Item.work? : Item σ α → Option α
  | .work a => some a
  | .wait _ _ => none

/-- Streams, how far each has been performed, and the mark of each event. -/
structure Device (σ ε α : Type*) where
  log : σ → List (Item σ α)
  done : σ → Nat
  mark : ε → Option (σ × Nat)

namespace Device

/-- Nothing submitted, no event recorded. -/
def empty : Device σ ε α := ⟨fun _ => [], fun _ => 0, fun _ => none⟩

/-- The next item of a stream. -/
def next (d : Device σ ε α) (s : σ) : Option (Item σ α) := (d.log s)[d.done s]?

/-- Whether everything below the event's mark has been performed.  An event
that was never recorded is complete. -/
def complete (d : Device σ ε α) (e : ε) : Bool :=
  match d.mark e with
  | none => true
  | some (s, n) => decide (n ≤ d.done s)

/-- Whether the next item of a stream can be performed now. -/
def runnable (d : Device σ ε α) (s : σ) : Bool :=
  match d.next s with
  | none => false
  | some (.work _) => true
  | some (.wait t n) => decide (n ≤ d.done t)

section Operations
variable [DecidableEq σ]

/-- Append an item to a stream. -/
def push (d : Device σ ε α) (s : σ) (x : Item σ α) : Device σ ε α :=
  { d with log := Function.update d.log s (d.log s ++ [x]) }

/-- Append work to a stream. -/
def submit (d : Device σ ε α) (s : σ) (a : α) : Device σ ε α := d.push s (.work a)

/-- Make stream `t` wait for the latest mark of event `e`. -/
def waitEvent (d : Device σ ε α) (t : σ) (e : ε) : Device σ ε α :=
  match d.mark e with
  | none => d
  | some (s, n) => d.push t (.wait s n)

/-- Perform the next item of stream `s`. -/
def advance (d : Device σ ε α) (s : σ) : Device σ ε α :=
  { d with done := Function.update d.done s (d.done s + 1) }

end Operations

/-- Mark the current end of stream `s` with event `e`. -/
def record [DecidableEq ε] (d : Device σ ε α) (e : ε) (s : σ) : Device σ ε α :=
  { d with mark := Function.update d.mark e (some (s, (d.log s).length)) }

/-- Only items that exist have been performed, and a performed wait was over. -/
structure Valid (d : Device σ ε α) : Prop where
  done_le : ∀ s, d.done s ≤ (d.log s).length
  waited : ∀ s p t n, p < d.done s → (d.log s)[p]? = some (.wait t n) → n ≤ d.done t

/-- Item `i` of stream `s` comes before item `j` of stream `t`: on the same
stream, or through a wait queued before `j`. -/
def Precedes (d : Device σ ε α) (s : σ) (i : Nat) (t : σ) (j : Nat) : Prop :=
  (s = t ∧ i < j) ∨ ∃ p n, p < j ∧ (d.log t)[p]? = some (.wait s n) ∧ i < n

/-- Item `i` of stream `s` lies below the mark of event `e`. -/
def Marked (d : Device σ ε α) (e : ε) (s : σ) (i : Nat) : Prop :=
  ∃ n, d.mark e = some (s, n) ∧ i < n

/-- Item `i` of stream `s` is the work `a`. -/
def WorkAt (d : Device σ ε α) (s : σ) (i : Nat) (a : α) : Prop := (d.log s)[i]? = some (.work a)

theorem workAt_of_bind {d : Device σ ε α} {s : σ} {i : Nat} {a : α}
    (h : (d.log s)[i]?.bind Item.work? = some a) : d.WorkAt s i a := by
  obtain ⟨x, hx, hwork⟩ := Option.bind_eq_some_iff.mp h
  cases x with
  | work c =>
    cases hwork
    exact hx
  | wait => cases hwork

/-- Everything submitted has been performed. -/
def Settled (d : Device σ ε α) : Prop := ∀ s, d.done s = (d.log s).length

/-- What precedes a performed item has been performed. -/
theorem Valid.done_of_precedes {d : Device σ ε α} (hv : d.Valid) {s t : σ} {i j : Nat}
    (h : d.Precedes s i t j) (hj : j < d.done t) : i < d.done s := by
  rcases h with ⟨rfl, hij⟩ | ⟨p, n, hp, hw, hi⟩
  · exact Nat.lt_trans hij hj
  · exact Nat.lt_of_lt_of_le hi (hv.waited t p s n (Nat.lt_trans hp hj) hw)

/-- What an event marks has been performed when the event is complete. -/
theorem done_of_marked {d : Device σ ε α} {e : ε} {s : σ} {i : Nat} (h : d.Marked e s i)
    (hc : d.complete e = true) : i < d.done s := by
  obtain ⟨n, hm, hi⟩ := h
  simp only [complete, hm, decide_eq_true_eq] at hc
  exact Nat.lt_of_lt_of_le hi hc

theorem valid_empty : (empty : Device σ ε α).Valid :=
  ⟨fun _ => Nat.le_refl _, fun _ _ _ _ h => absurd h (Nat.not_lt_zero _)⟩

/-- A stream that can go on has a next item. -/
theorem runnable_next {d : Device σ ε α} {s : σ} (h : d.runnable s = true) : ∃ x, d.next s = some x := by
  unfold runnable at h
  split at h
  · cases h
  · exact ⟨_, by assumption⟩
  · exact ⟨_, by assumption⟩

theorem next_lt {d : Device σ ε α} {s : σ} {x : Item σ α} (h : d.next s = some x) : d.done s < (d.log s).length :=
  (List.getElem?_eq_some_iff.mp h).1

/-! ## How the logs grow -/

/-- Every log of `d` is a prefix of the log of `d'`. -/
def Grows (d d' : Device σ ε α) : Prop := ∀ s, d.log s <+: d'.log s

@[refl] theorem Grows.refl (d : Device σ ε α) : d.Grows d := fun _ => List.prefix_refl _

theorem Grows.trans {d d' d'' : Device σ ε α} (h : d.Grows d') (h' : d'.Grows d'') :
    d.Grows d'' := fun s => (h s).trans (h' s)

theorem getElem?_of_prefix {β : Type*} {l l' : List β} (h : l <+: l') {i : Nat} {x : β}
    (hx : l[i]? = some x) : l'[i]? = some x := by
  obtain ⟨r, rfl⟩ := h
  rw [List.getElem?_append_left (List.getElem?_eq_some_iff.mp hx).1, hx]

/-- Submitting more changes no order between the items there are. -/
theorem Precedes.grows {d d' : Device σ ε α} (h : d.Grows d') {s t : σ} {i j : Nat}
    (hp : d.Precedes s i t j) : d'.Precedes s i t j := by
  rcases hp with h' | ⟨p, n, hpj, hw, hi⟩
  · exact .inl h'
  · exact .inr ⟨p, n, hpj, getElem?_of_prefix (h t) hw, hi⟩

/-- What precedes an item precedes the later ones of its stream. -/
theorem Precedes.mono {d : Device σ ε α} {s t : σ} {i j k : Nat} (hp : d.Precedes s i t j)
    (hjk : j ≤ k) : d.Precedes s i t k := by
  rcases hp with ⟨hst, h⟩ | ⟨p, n, hpj, hw, hi⟩
  · exact .inl ⟨hst, Nat.lt_of_lt_of_le h hjk⟩
  · exact .inr ⟨p, n, Nat.lt_of_lt_of_le hpj hjk, hw, hi⟩

/-- An item keeps its place when more is submitted. -/
theorem WorkAt.grows {d d' : Device σ ε α} (h : d.Grows d') {s : σ} {i : Nat} {a : α}
    (hw : d.WorkAt s i a) : d'.WorkAt s i a := getElem?_of_prefix (h s) hw

theorem WorkAt.lt {d : Device σ ε α} {s : σ} {i : Nat} {a : α} (hw : d.WorkAt s i a) :
    i < (d.log s).length := (List.getElem?_eq_some_iff.mp hw).1

section Record
variable [DecidableEq ε] (d : Device σ ε α)

@[simp] theorem record_log (e : ε) (s : σ) : (d.record e s).log = d.log := rfl
@[simp] theorem record_done (e : ε) (s : σ) : (d.record e s).done = d.done := rfl
@[simp] theorem record_mark_self (e : ε) (s : σ) :
    (d.record e s).mark e = some (s, (d.log s).length) := by simp [record]
/-- The other events keep their marks. -/
theorem record_mark_of_ne {e f : ε} (h : f ≠ e) (s : σ) : (d.record e s).mark f = d.mark f := by
  simp [record, h]

variable {d}

/-- Recording an event changes neither logs nor what has been performed. -/
theorem Valid.record (hv : d.Valid) (e : ε) (s : σ) : (d.record e s).Valid :=
  ⟨hv.done_le, hv.waited⟩

/-- A recorded event marks all that its stream has been given. -/
theorem marked_record {e : ε} {s : σ} {i : Nat} (h : i < (d.log s).length) :
    (d.record e s).Marked e s i := ⟨_, by simp, h⟩

end Record

section Operations
variable [DecidableEq σ] (d : Device σ ε α)

@[simp] theorem push_done (s : σ) (x : Item σ α) : (d.push s x).done = d.done := rfl
@[simp] theorem push_mark (s : σ) (x : Item σ α) : (d.push s x).mark = d.mark := rfl
@[simp] theorem push_log_self (s : σ) (x : Item σ α) : (d.push s x).log s = d.log s ++ [x] := by
  simp [push]
theorem push_log_of_ne {s t : σ} (h : t ≠ s) (x : Item σ α) : (d.push s x).log t = d.log t := by
  simp [push, h]

@[simp] theorem submit_done (s : σ) (a : α) : (d.submit s a).done = d.done := rfl
@[simp] theorem submit_mark (s : σ) (a : α) : (d.submit s a).mark = d.mark := rfl
@[simp] theorem submit_log_self (s : σ) (a : α) :
    (d.submit s a).log s = d.log s ++ [.work a] := by simp [submit]
theorem submit_log_of_ne {s t : σ} (h : t ≠ s) (a : α) : (d.submit s a).log t = d.log t :=
  d.push_log_of_ne h _

@[simp] theorem waitEvent_done (t : σ) (e : ε) : (d.waitEvent t e).done = d.done := by
  unfold waitEvent; split <;> rfl
@[simp] theorem waitEvent_mark (t : σ) (e : ε) : (d.waitEvent t e).mark = d.mark := by
  unfold waitEvent; split <;> rfl
theorem waitEvent_log_of_ne {s t : σ} (h : s ≠ t) (e : ε) : (d.waitEvent t e).log s = d.log s := by
  unfold waitEvent
  split
  · rfl
  · exact d.push_log_of_ne h _

@[simp] theorem advance_log (s : σ) : (d.advance s).log = d.log := rfl
@[simp] theorem advance_mark (s : σ) : (d.advance s).mark = d.mark := rfl
@[simp] theorem advance_done_self (s : σ) : (d.advance s).done s = d.done s + 1 := by simp [advance]
theorem advance_done_of_ne {s t : σ} (h : t ≠ s) : (d.advance s).done t = d.done t := by
  simp [advance, h]

/-- A log only grows at its end. -/
theorem grows_push (s : σ) (x : Item σ α) : d.Grows (d.push s x) := by
  intro t
  by_cases h : t = s
  · subst h; simpa only [push_log_self] using List.prefix_append (d.log t) [x]
  · exact (d.push_log_of_ne h x).symm ▸ List.prefix_refl _

/-- Appending adds one item, at the end of its stream. -/
theorem workAt_push {s t : σ} {x : Item σ α} {i : Nat} {a : α} (h : (d.push s x).WorkAt t i a) :
    d.WorkAt t i a ∨ t = s ∧ i = (d.log s).length ∧ x = .work a := by
  unfold WorkAt at *
  by_cases hts : t = s
  · subst hts
    rw [push_log_self] at h
    rcases Nat.lt_or_ge i (d.log t).length with hi | hi
    · rw [List.getElem?_append_left hi] at h
      exact .inl h
    · rw [List.getElem?_append_right hi, List.getElem?_singleton] at h
      split at h
      · exact .inr ⟨rfl, by omega, Option.some.inj h⟩
      · cases h
  · rw [push_log_of_ne d hts] at h
    exact .inl h

/-- What is submitted is the last item of its stream. -/
theorem workAt_submit_self (s : σ) (a : α) : (d.submit s a).WorkAt s (d.log s).length a := by
  simp [WorkAt]

/-- A wait is no work. -/
theorem workAt_waitEvent {s t : σ} {e : ε} {i : Nat} {a : α} (h : (d.waitEvent s e).WorkAt t i a) :
    d.WorkAt t i a := by
  unfold waitEvent at h
  split at h
  · exact h
  · exact (d.workAt_push h).resolve_right fun ⟨_, _, hx⟩ => by cases hx

theorem grows_submit (s : σ) (a : α) : d.Grows (d.submit s a) := d.grows_push s _

theorem grows_waitEvent (t : σ) (e : ε) : d.Grows (d.waitEvent t e) := by
  unfold waitEvent
  split
  · exact Grows.refl d
  · exact d.grows_push _ _

/-- What has been performed stays performed. -/
theorem le_advance_done (s t : σ) : d.done t ≤ (d.advance s).done t := by
  by_cases h : t = s
  · subst h; simp
  · rw [advance_done_of_ne d h]

variable {d}

/-- An item that is pushed is not performed yet. -/
theorem Valid.push (hv : d.Valid) (s : σ) (x : Item σ α) : (d.push s x).Valid where
  done_le t := Nat.le_trans (hv.done_le t) (d.grows_push s x t).length_le
  waited t p u n hp hw := by
    have hlt : p < (d.log t).length := Nat.lt_of_lt_of_le hp (hv.done_le t)
    refine hv.waited t p u n hp ?_
    obtain ⟨r, hr⟩ := d.grows_push s x t
    rwa [← hr, List.getElem?_append_left hlt] at hw

theorem Valid.submit (hv : d.Valid) (s : σ) (a : α) : (d.submit s a).Valid := hv.push s _

theorem Valid.waitEvent (hv : d.Valid) (t : σ) (e : ε) : (d.waitEvent t e).Valid := by
  unfold Device.waitEvent
  split
  · exact hv
  · exact hv.push _ _

/-- A stream performs its next item when what that waits for has been performed. -/
theorem Valid.advance (hv : d.Valid) {s : σ} (hr : d.runnable s = true) : (d.advance s).Valid where
  done_le t := by
    by_cases h : t = s
    · subst h
      obtain ⟨x, hx⟩ := runnable_next hr
      rw [advance_done_self]
      exact next_lt hx
    · rw [advance_done_of_ne d h]; exact hv.done_le t
  waited t p u n hp hw := by
    refine Nat.le_trans ?_ (d.le_advance_done s u)
    by_cases h : t = s
    · subst h
      rw [advance_done_self] at hp
      rcases Nat.lt_succ_iff_lt_or_eq.mp hp with hp | rfl
      · exact hv.waited t p u n hp hw
      · have hn : d.next t = some (.wait u n) := hw
        simpa [runnable, hn] using hr
    · rw [advance_done_of_ne d h] at hp
      exact hv.waited t p u n hp hw

/-- A stream that waits for an event waits for every item below its mark. -/
theorem Marked.precedes_wait {e : ε} {s t : σ} {i j : Nat} (h : d.Marked e s i)
    (hj : (d.log t).length < j) : (d.waitEvent t e).Precedes s i t j := by
  obtain ⟨n, hm, hi⟩ := h
  refine .inr ⟨(d.log t).length, n, hj, ?_, hi⟩
  unfold waitEvent
  rw [hm]
  simp

end Operations

/-! ## Where no stream can go on -/

/-- The streams are of two kinds: events are recorded on the sources, and only other streams wait,
for items of sources that exist. -/
structure Layered (source : σ → Prop) (d : Device σ ε α) : Prop where
  wait : ∀ s t n, Item.wait t n ∈ d.log s → ¬ source s ∧ source t ∧ n ≤ (d.log t).length
  mark : ∀ e s n, d.mark e = some (s, n) → source s ∧ n ≤ (d.log s).length

section Layered
variable {source : σ → Prop} {d : Device σ ε α}

theorem layered_empty : (empty : Device σ ε α).Layered source :=
  ⟨fun _ _ _ h => absurd h List.not_mem_nil, nofun⟩

/-- A source whose work is not all performed can go on. -/
theorem Layered.source_done (hl : d.Layered source) (hv : d.Valid)
    (h : ∀ s, d.runnable s = false) {s : σ} (hs : source s) : d.done s = (d.log s).length := by
  refine Nat.le_antisymm (hv.done_le s) (Nat.le_of_not_lt fun hlt => ?_)
  have hnext : d.next s = some ((d.log s)[d.done s]) := List.getElem?_eq_getElem hlt
  have hrun := h s
  unfold runnable at hrun
  rw [hnext] at hrun
  cases hx : (d.log s)[d.done s] with
  | work a =>
    rw [hx] at hrun
    cases hrun
  | wait t n => exact (hl.wait s t n (hx ▸ List.getElem_mem hlt)).1 hs

/-- **Streams do not block each other.**  If none can go on, everything has been performed. -/
theorem Layered.settled (hl : d.Layered source) (hv : d.Valid) (h : ∀ s, d.runnable s = false) :
    d.Settled := by
  intro s
  refine Nat.le_antisymm (hv.done_le s) (Nat.le_of_not_lt fun hlt => ?_)
  have hnext : d.next s = some ((d.log s)[d.done s]) := List.getElem?_eq_getElem hlt
  have hrun := h s
  unfold runnable at hrun
  rw [hnext] at hrun
  cases hx : (d.log s)[d.done s] with
  | work a =>
    rw [hx] at hrun
    cases hrun
  | wait t n =>
    obtain ⟨-, ht, hn⟩ := hl.wait s t n (hx ▸ List.getElem_mem hlt)
    rw [hx] at hrun
    have hlate : ¬ n ≤ d.done t := of_decide_eq_false hrun
    rw [hl.source_done hv h ht] at hlate
    exact absurd hn hlate

/-- With everything performed every event is complete. -/
theorem Layered.complete (hl : d.Layered source) (hs : d.Settled) (e : ε) : d.complete e = true := by
  unfold Device.complete
  split
  · rfl
  · rename_i s n hm
    rw [hs s]
    exact decide_eq_true (hl.mark e s n hm).2

theorem Layered.advance [DecidableEq σ] (hl : d.Layered source) (s : σ) :
    (d.advance s).Layered source := ⟨hl.wait, hl.mark⟩

/-- An event is recorded on a source. -/
theorem Layered.record [DecidableEq ε] (hl : d.Layered source) (e : ε) {s : σ} (hs : source s) :
    (d.record e s).Layered source := by
  refine ⟨hl.wait, fun f t n hm => ?_⟩
  by_cases hf : f = e
  · subst hf
    rw [record_mark_self] at hm
    cases hm
    exact ⟨hs, Nat.le_refl _⟩
  · rw [record_mark_of_ne d hf] at hm
    exact hl.mark f t n hm

variable [DecidableEq σ]

/-- A wait is pushed to a stream that is no source, for an item of one. -/
theorem Layered.push (hl : d.Layered source) {s : σ} {x : Item σ α}
    (hx : ∀ t n, x = .wait t n → ¬ source s ∧ source t ∧ n ≤ (d.log t).length) :
    (d.push s x).Layered source := by
  have hgrow : ∀ t, (d.log t).length ≤ ((d.push s x).log t).length := fun t =>
    (d.grows_push s x t).length_le
  refine ⟨fun u t n hm => ?_, fun e t n hm => ?_⟩
  · have hold : ¬ source u ∧ source t ∧ n ≤ (d.log t).length := by
      by_cases hu : u = s
      · subst hu
        rw [push_log_self] at hm
        rcases List.mem_append.mp hm with hm | hm
        · exact hl.wait u t n hm
        · exact hx t n (List.mem_singleton.mp hm).symm
      · rw [push_log_of_ne d hu] at hm
        exact hl.wait u t n hm
    exact ⟨hold.1, hold.2.1, Nat.le_trans hold.2.2 (hgrow t)⟩
  · obtain ⟨ht, hn⟩ := hl.mark e t n hm
    exact ⟨ht, Nat.le_trans hn (hgrow t)⟩

theorem Layered.submit (hl : d.Layered source) (s : σ) (a : α) : (d.submit s a).Layered source :=
  hl.push nofun

/-- A stream that is no source waits. -/
theorem Layered.waitEvent (hl : d.Layered source) {t : σ} (ht : ¬ source t) (e : ε) :
    (d.waitEvent t e).Layered source := by
  unfold Device.waitEvent
  split
  · exact hl
  · rename_i s n hm
    refine hl.push fun u m hx => ?_
    cases hx
    exact ⟨ht, hl.mark e s n hm⟩

end Layered

end Device
end WorkStreams
