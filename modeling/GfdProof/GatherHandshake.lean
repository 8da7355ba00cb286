import Mathlib
import GfdProof.Transition

/-! # The gather workers' handshake

`gather_worker_loop` and `parallel_gather`, one load or store of `has_work` or
`done` at a time.  A call cuts its entries into one chunk for the dispatcher and
one for each worker, hands every worker whose chunk is not empty its task, copies
its own chunk, and waits for the workers' `done` flags.

A worker that has finished stores `done` first and `has_work = false` after it,
so a call can return, and the next call can dispatch to the worker, between the
two stores.  If the dispatcher's `has_work = true` comes first, the worker's
late store erases it.  `Clear` is the condition under which that does not
happen; with it every entry of every call is copied exactly once, and a worker
the dispatcher waits for gets to `done` by its own steps.

The entries of a call are named by the call's number and their index.  Ranges are
numbers here.  The code computes them in `int`, to the same values as long as
`count + workers` is one (`InInt`; `ParallelGather` has the arithmetic, and what
becomes of a larger call).
-/
namespace Gfd.Gather

open Transition

/-- `gather_tasks_[w]`; `call` stands for the entries, the staging buffer and
`min_dst` of the call that dispatched it. -/
structure GatherTask where
  call : Nat
  start : Nat
  stop : Nat
  deriving DecidableEq, Repr

/-- Where a worker is. -/
inductive Worker
  /-- About to load `has_work`. -/
  | poll
  | copy (i : Nat)
  /-- About to store `done = true`. -/
  | setDone
  /-- About to store `has_work = false`. -/
  | clearWork
  deriving DecidableEq, Repr

/-- Where the dispatcher is. -/
inductive Dispatcher
  /-- Between two calls. -/
  | idle
  | assign (w : Nat)
  /-- About to store `done = false`. -/
  | clearDone (w : Nat)
  /-- About to store `has_work = true`. -/
  | setWork (w : Nat)
  | gather (i : Nat)
  | wait (w : Nat)
  deriving DecidableEq, Repr

/-- `counts` are the entry counts of the calls made so far, and `log` the
entries copied so far, each as its call and its index. -/
structure State where
  counts : List Nat
  dispatcher : Dispatcher
  task : Nat → GatherTask
  hasWork : Nat → Bool
  done : Nat → Bool
  worker : Nat → Worker
  log : List (Nat × Nat)

def init : State where
  counts := []
  dispatcher := .idle
  task _ := ⟨0, 0, 0⟩
  hasWork _ := false
  done _ := false
  worker _ := .poll
  log := []

/-- `chunk`, for `workers` workers and the dispatcher itself.  The numerator is an `int`. -/
def chunk (workers count : Nat) : Nat := (count + (workers + 1) - 1) / (workers + 1)

def start (workers count w : Nat) : Nat := (w + 1) * chunk workers count

def stop (workers count w : Nat) : Nat := min (start workers count w + chunk workers count) count

/-- `main_end` -/
def mainEnd (workers count : Nat) : Nat := min (chunk workers count) count

namespace State

/-- The number of the call being made. -/
def call (s : State) : Nat := s.counts.length - 1

/-- Its number of entries. -/
def count (s : State) : Nat := s.counts.getLastD 0

/-- The task the call hands to worker `w`. -/
def taskOf (workers : Nat) (s : State) (w : Nat) : GatherTask :=
  ⟨s.call, start workers s.count w, stop workers s.count w⟩

/-- The dispatcher's next step. -/
def dispatch (workers : Nat) (s : State) : Option State :=
  match s.dispatcher with
  | .idle => none
  | .assign w =>
    if w < workers then
      if start workers s.count w < s.count then
        some { s with
          task := Function.update s.task w (s.taskOf workers w)
          dispatcher := .clearDone w }
      else some { s with dispatcher := .assign (w + 1) }
    else some { s with dispatcher := .gather 0 }
  | .clearDone w =>
    some { s with done := Function.update s.done w false, dispatcher := .setWork w }
  | .setWork w =>
    some { s with hasWork := Function.update s.hasWork w true, dispatcher := .assign (w + 1) }
  | .gather i =>
    if i < mainEnd workers s.count then
      some { s with log := s.log ++ [(s.call, i)], dispatcher := .gather (i + 1) }
    else some { s with dispatcher := .wait 0 }
  | .wait w =>
    if w < workers then
      if start workers s.count w < s.count ∧ s.done w = false then none
      else some { s with dispatcher := .wait (w + 1) }
    else some { s with dispatcher := .idle }

def setWorker (s : State) (w : Nat) (x : Worker) : State :=
  { s with worker := Function.update s.worker w x }

@[simp] theorem setWorker_self (s : State) (w : Nat) (x : Worker) :
    (s.setWorker w x).worker w = x := Function.update_self ..

/-- The next step of worker `w`; a worker without work does not move. -/
def work (s : State) (w : Nat) : Option State :=
  match s.worker w with
  | .poll => if s.hasWork w then some (s.setWorker w (.copy (s.task w).start)) else none
  | .copy i =>
    if i < (s.task w).stop then
      some { s.setWorker w (.copy (i + 1)) with log := s.log ++ [((s.task w).call, i)] }
    else some (s.setWorker w .setDone)
  | .setDone =>
    some { s.setWorker w .clearWork with done := Function.update s.done w true }
  | .clearWork =>
    some { s.setWorker w .poll with hasWork := Function.update s.hasWork w false }

end State

inductive Act
  /-- `parallel_gather` is called with `count` entries. -/
  | call (count : Nat)
  | dispatch
  | work (w : Nat)

def step (workers : Nat) (s : State) : Act → Option State
  | .call count =>
    match s.dispatcher with
    | .idle => some { s with counts := s.counts ++ [count], dispatcher := .assign 0 }
    | _ => none
  | .dispatch => s.dispatch workers
  | .work w => if w < workers then s.work w else none

/-- A step that does not store `has_work = true` over a `has_work` the worker has
still to clear. -/
def Clear (s : State) : Act → Prop
  | .dispatch =>
    match s.dispatcher with
    | .setWork w => s.hasWork w = false
    | _ => True
  | _ => True

instance (s : State) (a : Act) : Decidable (Clear s a) :=
  match a with
  | .dispatch => by
    unfold Clear
    exact match s.dispatcher with
      | .setWork _ => inferInstance
      | .idle | .assign _ | .clearDone _ | .gather _ | .wait _ => isTrue trivial
  | .call _ | .work _ => isTrue trivial

/-- The sums a call computes are `int`s. -/
def InInt (workers : Nat) : Act → Prop
  | .call count => count + workers < 2 ^ 31
  | _ => True

instance (workers : Nat) (a : Act) : Decidable (InInt workers a) :=
  match a with
  | .call count => inferInstanceAs (Decidable (count + workers < 2 ^ 31))
  | .dispatch | .work _ => isTrue trivial

/-- What the code relies on. -/
def Sound (workers : Nat) (s : State) (a : Act) : Prop := Clear s a ∧ InInt workers a

instance (workers : Nat) (s : State) (a : Act) : Decidable (Sound workers s a) := instDecidableAnd

/-! ## The chunks of a call -/

section Chunks
variable {workers count : Nat}

theorem count_le (workers count : Nat) : count ≤ chunk workers count * (workers + 1) := by
  have h := Nat.div_add_mod (count + (workers + 1) - 1) (workers + 1)
  have hlt := Nat.mod_lt (count + (workers + 1) - 1) (show 0 < workers + 1 by omega)
  rw [Nat.mul_comm] at h
  unfold chunk
  omega

/-- Every entry lies in the dispatcher's chunk or in that of a worker. -/
theorem div_chunk_le {i : Nat} (h : i < count) : i / chunk workers count ≤ workers := by
  have hc := count_le workers count
  exact Nat.le_of_lt_succ (Nat.div_lt_of_lt_mul (Nat.lt_of_lt_of_le h hc))

theorem chunk_pos (h : 0 < count) : 0 < chunk workers count := by
  by_contra hc
  have := count_le workers count
  rw [Nat.eq_zero_of_not_pos hc, Nat.zero_mul] at this
  omega

theorem div_chunk_eq_zero {i : Nat} (h : i < count) :
    i / chunk workers count = 0 ↔ i < mainEnd workers count := by
  have hpos : 0 < chunk workers count := chunk_pos (Nat.zero_lt_of_lt h)
  rw [Nat.div_eq_zero_iff, mainEnd, Nat.lt_min]
  omega

theorem div_chunk_eq_succ {i w : Nat} (h : i < count) :
    i / chunk workers count = w + 1 ↔ start workers count w ≤ i ∧ i < stop workers count w := by
  have hpos : 0 < chunk workers count := chunk_pos (Nat.zero_lt_of_lt h)
  rw [Nat.div_eq_iff hpos, start, stop, start, Nat.lt_min]
  omega

end Chunks

/-! ## The invariant -/

/-- The dispatcher has not handed worker `w` its task yet. -/
def Dispatcher.before : Dispatcher → Nat → Prop
  | .assign v, w | .clearDone v, w | .setWork v, w => v ≤ w
  | _, _ => False

/-- The dispatcher is no longer waiting for worker `w`. -/
def Dispatcher.after : Dispatcher → Nat → Prop
  | .wait v, w => w < v
  | .idle, _ => True
  | _, _ => False

instance (d : Dispatcher) (w : Nat) : Decidable (d.before w) :=
  match d with
  | .assign v | .clearDone v | .setWork v => inferInstanceAs (Decidable (v ≤ w))
  | .idle | .gather _ | .wait _ => isFalse id

instance (d : Dispatcher) (w : Nat) : Decidable (d.after w) :=
  match d with
  | .wait v => inferInstanceAs (Decidable (w < v))
  | .idle => isTrue trivial
  | .assign _ | .clearDone _ | .setWork _ | .gather _ => isFalse id

/-- While it has a task, `has_work` and `done` tell how far a worker is with it. -/
def PhaseOk (workers count w : Nat) (hasWork done : Bool) : Worker → Prop
  | .poll => hasWork = !done
  | .copy i => hasWork = true ∧ done = false ∧ start workers count w ≤ i ∧ i ≤ stop workers count w
  | .setDone => hasWork = true ∧ done = false
  | .clearWork => hasWork = true ∧ done = true

/-- The entries of its chunk below this one have been copied. -/
def phaseProgress (workers count w : Nat) (done : Bool) : Worker → Nat
  | .poll => if done then stop workers count w else start workers count w
  | .copy i => i
  | .setDone | .clearWork => stop workers count w

namespace State

/-- The call has entries for worker `w`. -/
def Busy (workers : Nat) (s : State) (w : Nat) : Prop := start workers s.count w < s.count

/-- Worker `w` owes the dispatcher a `done`. -/
def Owes (workers : Nat) (s : State) (w : Nat) : Prop :=
  s.Busy workers w ∧ ¬ s.dispatcher.before w ∧ ¬ s.dispatcher.after w

/-- A worker that owes nothing polls, or has still to clear `has_work`. -/
def Resting (s : State) (w : Nat) : Prop :=
  s.worker w = .poll ∧ s.hasWork w = false ∨ s.worker w = .clearWork ∧ s.hasWork w = true

/-- A worker that owes a `done` has the call's task. -/
def Serving (workers : Nat) (s : State) (w : Nat) : Prop :=
  s.task w = s.taskOf workers w ∧
    PhaseOk workers s.count w (s.hasWork w) (s.done w) (s.worker w)

/-- The entries of the dispatcher's chunk below this one have been copied. -/
def mainProgress (workers : Nat) (s : State) : Nat :=
  match s.dispatcher with
  | .gather i => i
  | .wait _ | .idle => mainEnd workers s.count
  | _ => 0

/-- The entries of worker `w`'s chunk below this one have been copied. -/
def progress (workers : Nat) (s : State) (w : Nat) : Nat :=
  if s.dispatcher.before w then start workers s.count w
  else if s.dispatcher.after w then stop workers s.count w
  else phaseProgress workers s.count w (s.done w) (s.worker w)

/-- Entry `i` of the call being made has been copied. -/
def Reached (workers : Nat) (s : State) (i : Nat) : Prop :=
  match i / chunk workers s.count with
  | 0 => i < s.mainProgress workers
  | w + 1 => i < s.progress workers w

/-- Entry `i` of call `k` has been copied. -/
def Copied (workers : Nat) (s : State) (k i : Nat) : Prop :=
  ∃ n, s.counts[k]? = some n ∧ i < n ∧
    (k + 1 = s.counts.length → s.dispatcher ≠ .idle → s.Reached workers i)

structure Valid (workers : Nat) (s : State) : Prop where
  counts : s.dispatcher ≠ .idle → s.counts ≠ []
  resting : ∀ w < workers, ¬ s.Owes workers w → s.Resting w
  serving : ∀ w < workers, s.Owes workers w → s.Serving workers w
  assigned : ∀ w, s.dispatcher = .clearDone w ∨ s.dispatcher = .setWork w →
    w < workers ∧ s.Busy workers w ∧ s.task w = s.taskOf workers w
  cleared : ∀ w, s.dispatcher = .setWork w → s.done w = false
  log : ∀ k i, (k, i) ∈ s.log ↔ s.Copied workers k i
  log_nodup : s.log.Nodup

theorem valid_init (workers : Nat) : Valid workers Gather.init where
  counts h := absurd rfl h
  resting w _ _ := .inl ⟨rfl, rfl⟩
  serving w _ h := absurd trivial h.2.2
  assigned w h := by simp [Gather.init] at h
  cleared w h := by cases h
  log k i := by simp [Gather.init, Copied]
  log_nodup := List.nodup_nil

variable {workers : Nat} {s : State}

/-- The call being made is the last one, with `count` entries. -/
theorem getElem?_call (h : s.counts ≠ []) {k : Nat} (hk : k + 1 = s.counts.length) :
    s.counts[k]? = some s.count := by
  obtain rfl : k = s.counts.length - 1 := by omega
  rw [← List.getLast?_eq_getElem?, count, List.getLastD_eq_getLast?]
  cases hl : s.counts.getLast? with
  | none => exact absurd (List.getLast?_eq_none_iff.mp hl) h
  | some n => rfl

/-- For a worker with a chunk, an entry of the chunk is copied when the worker's
progress has passed it. -/
theorem reached_iff {i w : Nat} (h : i < s.count)
    (hw : start workers s.count w ≤ i ∧ i < stop workers s.count w) :
    s.Reached workers i ↔ i < s.progress workers w := by
  unfold Reached
  rw [(div_chunk_eq_succ h).mpr hw]

theorem reached_iff_main {i : Nat} (h : i < s.count) (hm : i < mainEnd workers s.count) :
    s.Reached workers i ↔ i < s.mainProgress workers := by
  unfold Reached
  rw [(div_chunk_eq_zero h).mpr hm]

/-- What has been copied does not change when no progress does. -/
theorem reached_congr {t : State} (hc : t.counts = s.counts)
    (hm : ∀ i < mainEnd workers s.count, i < t.mainProgress workers ↔ i < s.mainProgress workers)
    (hp : ∀ w < workers, s.Busy workers w → t.progress workers w = s.progress workers w) {i : Nat}
    (h : i < s.count) : t.Reached workers i ↔ s.Reached workers i := by
  have hcount : t.count = s.count := by unfold count; rw [hc]
  rcases hj : i / chunk workers s.count with - | w
  · have hlt := (div_chunk_eq_zero h).mp hj
    rw [reached_iff_main h hlt, reached_iff_main (hcount ▸ h) (hcount ▸ hlt), hm i hlt]
  · have hw := (div_chunk_eq_succ h).mp hj
    have hle : i / chunk workers s.count ≤ workers := div_chunk_le h
    rw [reached_iff h hw, reached_iff (hcount ▸ h) (hcount ▸ hw),
      hp w (by omega) (Nat.lt_of_le_of_lt hw.1 h)]

theorem progress_congr {t : State} {v : Nat} (hc : t.counts = s.counts)
    (hbefore : t.dispatcher.before v ↔ s.dispatcher.before v)
    (hafter : t.dispatcher.after v ↔ s.dispatcher.after v)
    (hw : t.worker v = s.worker v) (hdone : t.done v = s.done v) :
    t.progress workers v = s.progress workers v := by
  have hcount : t.count = s.count := by unfold count; rw [hc]
  simp only [progress, hbefore, hafter, hw, hdone, hcount]

theorem copied_congr {t : State} (hne : s.dispatcher ≠ .idle → s.counts ≠ [])
    (hc : t.counts = s.counts) (hd : t.dispatcher = .idle ↔ s.dispatcher = .idle)
    (hr : ∀ i < s.count, t.Reached workers i ↔ s.Reached workers i) (k i : Nat) :
    t.Copied workers k i ↔ s.Copied workers k i := by
  unfold Copied
  rw [hc]
  refine exists_congr fun n => and_congr_right fun hn => and_congr_right fun hi => ?_
  refine forall_congr' fun hk => imp_congr_ctx (not_congr hd) fun hidle => hr i ?_
  rw [getElem?_call (hne hidle) hk] at hn
  exact Option.some.inj hn ▸ hi

/-! ## The dispatcher -/

/-- A step of the dispatcher inside a call that copies nothing. -/
theorem Valid.advance (hv : s.Valid workers) {t : State} (hs : s.dispatcher ≠ .idle)
    (ht : t.dispatcher ≠ .idle) (hc : t.counts = s.counts) (hl : t.log = s.log)
    (hrest : ∀ w < workers, ¬ t.Owes workers w → t.Resting w)
    (hserve : ∀ w < workers, t.Owes workers w → t.Serving workers w)
    (hassigned : ∀ w, t.dispatcher = .clearDone w ∨ t.dispatcher = .setWork w →
      w < workers ∧ s.Busy workers w ∧ t.task w = s.taskOf workers w)
    (hcleared : ∀ w, t.dispatcher = .setWork w → t.done w = false)
    (hm : ∀ i < mainEnd workers s.count, i < t.mainProgress workers ↔ i < s.mainProgress workers)
    (hp : ∀ w < workers, s.Busy workers w → t.progress workers w = s.progress workers w) :
    t.Valid workers := by
  have hcount : t.count = s.count := by unfold count; rw [hc]
  refine ⟨fun h => hc ▸ hv.counts hs, hrest, hserve, fun w h => ?_, hcleared, fun k i => ?_,
    hl ▸ hv.log_nodup⟩
  · obtain ⟨h1, h2, h3⟩ := hassigned w h
    refine ⟨h1, by unfold Busy at *; rwa [hcount], ?_⟩
    rw [h3]
    unfold taskOf call
    rw [hc, hcount]
  · rw [hl, hv.log]
    exact (copied_congr hv.counts hc (iff_of_false ht hs)
      (fun i hi => reached_congr hc hm hp hi) k i).symm

theorem valid_assign (hv : s.Valid workers) {w : Nat} (hd : s.dispatcher = .assign w)
    (hw : w < workers) (hb : start workers s.count w < s.count) :
    Valid workers { s with
      task := Function.update s.task w (s.taskOf workers w)
      dispatcher := .clearDone w } := by
  have howes : ∀ v, Owes workers { s with
      task := Function.update s.task w (s.taskOf workers w)
      dispatcher := .clearDone w } v ↔ s.Owes workers v := fun v => by
    simp only [Owes, hd, Dispatcher.before, Dispatcher.after]
    rfl
  refine hv.advance (by simp [hd]) (by simp) rfl rfl
    (fun v hvw h => hv.resting v hvw (by rwa [← howes])) (fun v hvw h => ?_) (fun v h => ?_)
    (fun v h => by cases h) (fun i _ => by simp [mainProgress, hd])
    (fun v _ _ => progress_congr rfl (by rw [hd]; rfl) (by rw [hd]; rfl) rfl rfl)
  · have hne : v ≠ w := by
      rintro rfl
      exact h.2.1 (Nat.le_refl v)
    have := hv.serving v hvw ((howes v).mp h)
    unfold Serving at this ⊢
    dsimp only at this ⊢
    rw [Function.update_of_ne hne]
    exact this
  · obtain rfl : w = v := by simpa using h
    exact ⟨hw, hb, Function.update_self ..⟩

/-- The dispatcher skips a worker it has no entries for. -/
theorem valid_skip (hv : s.Valid workers) {w : Nat} (hd : s.dispatcher = .assign w)
    (hb : ¬ start workers s.count w < s.count) :
    Valid workers { s with dispatcher := .assign (w + 1) } := by
  have hbefore : ∀ v, s.Busy workers v →
      ((Dispatcher.assign (w + 1)).before v ↔ s.dispatcher.before v) := fun v hv => by
    have hne : v ≠ w := fun h => hb (h ▸ hv)
    simp only [hd, Dispatcher.before]
    omega
  have howes : ∀ v, Owes workers { s with dispatcher := .assign (w + 1) } v ↔ s.Owes workers v :=
    fun v => and_congr_right fun hbusy => by
      rw [hbefore v hbusy, hd]
      rfl
  refine hv.advance (by simp [hd]) (by simp) rfl rfl
    (fun v hvw h => hv.resting v hvw (by rwa [← howes]))
    (fun v hvw h => hv.serving v hvw ((howes v).mp h)) (fun v h => by simp at h)
    (fun v h => by cases h) (fun i _ => by simp [mainProgress, hd])
    (fun v _ hbusy => progress_congr rfl (hbefore v hbusy) (by rw [hd]; rfl) rfl rfl)

/-- All workers with entries have their task. -/
theorem valid_assigned (hv : s.Valid workers) {w : Nat} (hd : s.dispatcher = .assign w)
    (hw : ¬ w < workers) : Valid workers { s with dispatcher := .gather 0 } := by
  have hbefore : ∀ v < workers, ¬ s.dispatcher.before v := fun v hvw => by
    simp only [hd, Dispatcher.before]
    omega
  have howes : ∀ v < workers, (Owes workers { s with dispatcher := .gather 0 } v ↔
      s.Owes workers v) := fun v hvw => by
    refine and_congr_right fun _ => and_congr (not_congr (iff_of_false id (hbefore v hvw))) ?_
    rw [hd]
    rfl
  refine hv.advance (by simp [hd]) (by simp) rfl rfl
    (fun v hvw h => hv.resting v hvw (by rwa [← howes v hvw]))
    (fun v hvw h => hv.serving v hvw ((howes v hvw).mp h)) (fun v h => by simp at h)
    (fun v h => by cases h) (fun i _ => by simp [mainProgress, hd])
    (fun v hvw _ => progress_congr rfl (iff_of_false id (hbefore v hvw)) (by rw [hd]; rfl) rfl rfl)

theorem valid_clearDone (hv : s.Valid workers) {w : Nat} (hd : s.dispatcher = .clearDone w) :
    Valid workers { s with done := Function.update s.done w false, dispatcher := .setWork w } := by
  have howes : ∀ v, Owes workers { s with
      done := Function.update s.done w false, dispatcher := .setWork w } v ↔ s.Owes workers v :=
    fun v => by
      simp only [Owes, hd, Dispatcher.before, Dispatcher.after]
      rfl
  refine hv.advance (by simp [hd]) (by simp) rfl rfl
    (fun v hvw h => hv.resting v hvw (by rwa [← howes])) (fun v hvw h => ?_) (fun v h => ?_)
    (fun v h => ?_) (fun i _ => by simp [mainProgress, hd]) (fun v _ _ => ?_)
  · have hne : v ≠ w := by
      rintro rfl
      exact h.2.1 (Nat.le_refl v)
    have := hv.serving v hvw ((howes v).mp h)
    unfold Serving at this ⊢
    dsimp only at this ⊢
    rw [Function.update_of_ne hne]
    exact this
  · obtain rfl : w = v := by simpa using h
    exact hv.assigned w (.inl hd)
  · obtain rfl : w = v := by simpa using h
    exact Function.update_self ..
  · by_cases hvw : v = w
    · subst hvw
      simp only [progress, hd, Dispatcher.before, Nat.le_refl, if_true]
      rfl
    · exact progress_congr rfl (by rw [hd]; rfl) (by rw [hd]; rfl) rfl (Function.update_of_ne hvw ..)

/-- Storing `has_work = true` for a worker at rest. -/
theorem valid_setWork (hv : s.Valid workers) {w : Nat} (hd : s.dispatcher = .setWork w)
    (hclear : s.hasWork w = false) :
    Valid workers { s with
      hasWork := Function.update s.hasWork w true
      dispatcher := .assign (w + 1) } := by
  obtain ⟨hw, hb, htask⟩ := hv.assigned w (.inr hd)
  have hdone := hv.cleared w hd
  have hpoll : s.worker w = .poll := by
    have hno : ¬ s.Owes workers w := fun h => h.2.1 (by simp [hd, Dispatcher.before])
    rcases hv.resting w hw hno with h | ⟨-, h⟩
    · exact h.1
    · rw [hclear] at h
      cases h
  have howes : ∀ v, v ≠ w → (Owes workers { s with
      hasWork := Function.update s.hasWork w true
      dispatcher := .assign (w + 1) } v ↔ s.Owes workers v) := fun v hne => by
    simp only [Owes, hd, Dispatcher.before, Dispatcher.after]
    refine and_congr_right fun _ => and_congr_left fun _ => not_congr ?_
    omega
  refine hv.advance (by simp [hd]) (by simp) rfl rfl (fun v hvw h => ?_) (fun v hvw h => ?_)
    (fun v h => by simp at h) (fun v h => by cases h) (fun i _ => by simp [mainProgress, hd])
    (fun v _ _ => ?_)
  · have hne : v ≠ w := by
      rintro rfl
      exact h ⟨hb, by simp [Dispatcher.before], by simp [Dispatcher.after]⟩
    have := hv.resting v hvw (by rwa [← howes v hne])
    simpa only [Resting, Function.update_of_ne hne] using this
  · by_cases hne : v = w
    · subst hne
      refine ⟨htask, ?_⟩
      simp only [PhaseOk, hpoll, hdone, Function.update_self, Bool.not_false]
    · have := hv.serving v hvw ((howes v hne).mp h)
      unfold Serving at this ⊢
      dsimp only at this ⊢
      rw [Function.update_of_ne hne]
      exact this
  · by_cases hne : v = w
    · subst hne
      simp [progress, phaseProgress, hd, Dispatcher.before, Dispatcher.after, hpoll, hdone]
      rfl
    · refine progress_congr rfl ?_ (by rw [hd]; rfl) rfl rfl
      simp only [hd, Dispatcher.before]
      omega

/-- The dispatcher has copied its chunk. -/
theorem valid_gathered (hv : s.Valid workers) {i : Nat} (hd : s.dispatcher = .gather i)
    (hi : ¬ i < mainEnd workers s.count) : Valid workers { s with dispatcher := .wait 0 } := by
  have hafter : ∀ v, (Dispatcher.wait 0).after v ↔ s.dispatcher.after v := fun v => by
    rw [hd]
    exact iff_of_false (Nat.not_lt_zero v) id
  have howes : ∀ v, Owes workers { s with dispatcher := .wait 0 } v ↔ s.Owes workers v :=
    fun v => and_congr_right fun _ => and_congr (by rw [hd]; rfl) (not_congr (hafter v))
  refine hv.advance (by simp [hd]) (by simp) rfl rfl
    (fun v hvw h => hv.resting v hvw (by rwa [← howes]))
    (fun v hvw h => hv.serving v hvw ((howes v).mp h)) (fun v h => by simp at h)
    (fun v h => by cases h) (fun j hj => ?_)
    (fun v _ _ => progress_congr rfl (by rw [hd]; rfl) (hafter v) rfl rfl)
  simp only [mainProgress, hd]
  exact iff_of_true hj (by omega)

/-- The dispatcher goes past a worker it need not wait for, or that is done. -/
theorem valid_waited (hv : s.Valid workers) {w : Nat} (hd : s.dispatcher = .wait w)
    (hw : w < workers) (hdone : ¬ (start workers s.count w < s.count ∧ s.done w = false)) :
    Valid workers { s with dispatcher := .wait (w + 1) } := by
  have howes : ∀ v, v ≠ w → (Owes workers { s with dispatcher := .wait (w + 1) } v ↔
      s.Owes workers v) := fun v hne => by
    refine and_congr_right fun _ => and_congr (by rw [hd]; rfl) (not_congr ?_)
    rw [hd]
    simp only [Dispatcher.after]
    omega
  have hserving : s.Busy workers w → s.done w = true ∧ s.Serving workers w := fun hb =>
    ⟨by simpa using fun h => hdone ⟨hb, h⟩,
      hv.serving w hw ⟨hb, by simp [hd, Dispatcher.before], by simp [hd, Dispatcher.after]⟩⟩
  have hno : ¬ Owes workers { s with dispatcher := .wait (w + 1) } w :=
    fun h => h.2.2 (Nat.lt_succ_self w)
  refine hv.advance (by simp [hd]) (by simp) rfl rfl (fun v hvw h => ?_) (fun v hvw h => ?_)
    (fun v h => by simp at h) (fun v h => by cases h) (fun i _ => by simp only [mainProgress, hd]; rfl)
    (fun v _ hbusy => ?_)
  · by_cases hne : v = w
    · subst hne
      show s.Resting v
      by_cases hb : s.Busy workers v
      · obtain ⟨hdn, -, hs⟩ := hserving hb
        unfold Resting
        cases hwk : s.worker v <;> simp_all [PhaseOk]
      · exact hv.resting v hvw fun h => hb h.1
    · exact hv.resting v hvw (by rwa [← howes v hne])
  · exact hv.serving v hvw ((howes v fun he => hno (he ▸ h)).mp h)
  · by_cases hne : v = w
    · subst hne
      obtain ⟨hdn, -, hs⟩ := hserving hbusy
      have h1 : ¬ (Dispatcher.wait v).after v := Nat.lt_irrefl v
      have h2 : (Dispatcher.wait (v + 1)).after v := Nat.lt_succ_self v
      have h3 : ∀ u, ¬ (Dispatcher.wait u).before v := fun u => id
      simp only [progress, hd, h1, h2, h3, if_false, if_true]
      cases hwk : s.worker v <;> simp_all [count, PhaseOk, phaseProgress]
    · refine progress_congr rfl (by rw [hd]; rfl) ?_ rfl rfl
      rw [hd]
      simp only [Dispatcher.after]
      omega

/-- When the call returns, all its entries have been copied. -/
theorem reached_all {w : Nat} (hd : s.dispatcher = .wait w)
    (hw : ¬ w < workers) {i : Nat} (hi : i < s.count) : s.Reached workers i := by
  rcases hj : i / chunk workers s.count with - | v
  · have hlt := (div_chunk_eq_zero hi).mp hj
    rw [reached_iff_main hi hlt]
    simpa only [mainProgress, hd] using hlt
  · have hlt := (div_chunk_eq_succ hi).mp hj
    have hle : i / chunk workers s.count ≤ workers := div_chunk_le hi
    rw [reached_iff hi hlt]
    have h1 : ¬ s.dispatcher.before v := by rw [hd]; exact id
    have h2 : s.dispatcher.after v := by rw [hd]; show v < w; omega
    simpa only [progress, h1, h2, if_false, if_true] using hlt.2

theorem valid_return (hv : s.Valid workers) {w : Nat} (hd : s.dispatcher = .wait w)
    (hw : ¬ w < workers) : Valid workers { s with dispatcher := .idle } := by
  have hno : ∀ v < workers, ¬ s.Owes workers v := fun v hvw h =>
    h.2.2 (by rw [hd]; show v < w; omega)
  refine ⟨fun h => absurd rfl h, fun v hvw _ => hv.resting v hvw (hno v hvw),
    fun v _ h => absurd trivial h.2.2, fun v h => (by simp at h), fun v h => (by cases h),
    fun k i => ?_, hv.log_nodup⟩
  rw [hv.log]
  refine exists_congr fun n => and_congr_right fun hn => and_congr_right fun hi => ?_
  refine forall_congr' fun hk => iff_of_true (fun hidle => ?_) fun h => absurd rfl h
  rw [getElem?_call (hv.counts (by simp [hd])) hk] at hn
  exact reached_all hd hw (Option.some.inj hn ▸ hi)

theorem valid_call (hv : s.Valid workers) (hd : s.dispatcher = .idle) (n : Nat) :
    Valid workers { s with counts := s.counts ++ [n], dispatcher := .assign 0 } := by
  have hno : ∀ v, ¬ s.Owes workers v := fun v h => h.2.2 (by rw [hd]; trivial)
  have hcount : count { s with counts := s.counts ++ [n], dispatcher := .assign 0 } = n := by
    simp [count]
  refine ⟨fun _ => by simp, fun v hvw _ => hv.resting v hvw (hno v),
    fun v _ h => absurd (Nat.zero_le v) h.2.1, fun v h => (by simp at h), fun v h => (by cases h),
    fun k i => ?_, hv.log_nodup⟩
  rw [hv.log]
  by_cases hk : k < s.counts.length
  · -- an earlier call, which has returned
    simp only [Copied, List.getElem?_append_left hk, List.length_append, List.length_singleton, hd,
      ne_eq, not_true, false_imp_iff, imp_true_iff, and_true]
    refine exists_congr fun m => and_congr_right fun _ => ⟨fun h => ⟨h, fun h => ?_⟩, fun h => h.1⟩
    omega
  · refine iff_of_false (fun ⟨m, hm, _⟩ => hk (List.getElem?_eq_some_iff.mp hm).1) ?_
    rintro ⟨m, hm, hi, hr⟩
    have hk' : k = s.counts.length := by
      have := (List.getElem?_eq_some_iff.mp hm).1
      rw [List.length_append, List.length_singleton] at this
      omega
    have hm' : m = n := by
      rw [hk'] at hm
      simpa using hm.symm
    -- of the new call nothing has been copied
    have hreached := hr (by simp [hk']) (by simp)
    have hi' : i < count { s with counts := s.counts ++ [n], dispatcher := .assign 0 } := by
      rw [hcount, ← hm']
      exact hi
    rcases hj : i / chunk workers (count { s with
      counts := s.counts ++ [n], dispatcher := .assign 0 }) with - | v
    · rw [reached_iff_main hi' ((div_chunk_eq_zero hi').mp hj)] at hreached
      exact Nat.not_lt_zero i hreached
    · have hlt := (div_chunk_eq_succ hi').mp hj
      rw [reached_iff hi' hlt] at hreached
      have hb : (Dispatcher.assign 0).before v := Nat.zero_le v
      simp only [progress, hb, if_true] at hreached
      omega

/-- Copying one more entry of the call being made. -/
theorem Valid.log_append (hv : s.Valid workers) {t : State} {i : Nat} (hs : s.dispatcher ≠ .idle)
    (ht : t.dispatcher ≠ .idle) (hc : t.counts = s.counts) (hi : i < s.count)
    (hnot : ¬ s.Reached workers i)
    (hr : ∀ j < s.count, t.Reached workers j ↔ s.Reached workers j ∨ j = i) :
    (∀ k j, (k, j) ∈ s.log ++ [(s.call, i)] ↔ t.Copied workers k j) ∧
      (s.log ++ [(s.call, i)]).Nodup := by
  have hne := hv.counts hs
  have hcall : s.call + 1 = s.counts.length := by
    have := List.length_pos_iff.mpr hne
    unfold call
    omega
  have hnew : (s.call, i) ∉ s.log := fun h => by
    obtain ⟨n, hn, -, hreach⟩ := (hv.log _ _).mp h
    exact hnot (hreach hcall hs)
  refine ⟨fun k j => ?_, List.nodup_append'.mpr ⟨hv.log_nodup, List.nodup_singleton _,
    List.disjoint_singleton.mpr hnew⟩⟩
  rw [List.mem_append, List.mem_singleton, hv.log]
  unfold Copied
  rw [hc]
  constructor
  · rintro (⟨n, hn, hj, hreach⟩ | heq)
    · refine ⟨n, hn, hj, fun hk _ => (hr j ?_).mpr (.inl (hreach hk hs))⟩
      rw [getElem?_call hne hk] at hn
      exact Option.some.inj hn ▸ hj
    · obtain ⟨rfl, rfl⟩ := Prod.mk.inj heq
      exact ⟨s.count, getElem?_call hne hcall, hi, fun _ _ => (hr j hi).mpr (.inr rfl)⟩
  · rintro ⟨n, hn, hj, hreach⟩
    by_cases hk : k + 1 = s.counts.length
    · obtain rfl : k = s.call := by omega
      have hj' := hn
      rw [getElem?_call hne hk] at hj'
      rcases (hr j (Option.some.inj hj' ▸ hj)).mp (hreach hk ht) with h | rfl
      · exact .inl ⟨n, hn, hj, fun _ _ => h⟩
      · exact .inr rfl
    · exact .inl ⟨n, hn, hj, fun h => absurd h hk⟩

/-- The dispatcher copies an entry of its own chunk. -/
theorem valid_gather (hv : s.Valid workers) {i : Nat} (hd : s.dispatcher = .gather i)
    (hi : i < mainEnd workers s.count) {t : State}
    (ht : t = { s with log := s.log ++ [(s.call, i)], dispatcher := .gather (i + 1) }) :
    t.Valid workers := by
  have hi' : i < s.count := Nat.lt_of_lt_of_le hi (Nat.min_le_right _ _)
  have hd' : t.dispatcher = .gather (i + 1) := by rw [ht]
  have hc : t.counts = s.counts := by rw [ht]
  have hcount : t.count = s.count := by rw [ht]; rfl
  have howes : ∀ v, t.Owes workers v ↔ s.Owes workers v := fun v => by
    rw [ht]
    exact and_congr_right fun _ => and_congr (by rw [hd]; rfl) (by rw [hd]; rfl)
  obtain ⟨hlog, hnodup⟩ := hv.log_append (t := t) (i := i) (by simp [hd]) (by simp [hd']) hc hi'
    (by simp [reached_iff_main hi' hi, mainProgress, hd]) fun j hj => by
      rcases hq : j / chunk workers s.count with - | v
      · have hlt := (div_chunk_eq_zero hj).mp hq
        rw [reached_iff_main hj hlt, reached_iff_main (hcount ▸ hj) (hcount ▸ hlt)]
        simp only [mainProgress, hd, hd']
        omega
      · have hlt := (div_chunk_eq_succ hj).mp hq
        have hne : j ≠ i := by
          rintro rfl
          rw [(div_chunk_eq_zero hi').mpr hi] at hq
          cases hq
        rw [reached_iff hj hlt, reached_iff (hcount ▸ hj) (hcount ▸ hlt),
          progress_congr hc (by rw [hd, hd']; rfl) (by rw [hd, hd']; rfl) (by rw [ht]) (by rw [ht])]
        exact ⟨.inl, fun h => h.resolve_right hne⟩
  subst ht
  exact ⟨fun _ => hv.counts (by simp [hd]),
    fun v hvw h => hv.resting v hvw (by rwa [← howes]),
    fun v hvw h => hv.serving v hvw ((howes v).mp h), fun v h => (by simp at h),
    fun v h => (by cases h), hlog, hnodup⟩

/-! ## The workers -/

/-- A step of worker `w`. -/
theorem Valid.work (hv : s.Valid workers) {t : State} {w : Nat}
    (hd : t.dispatcher = s.dispatcher) (hc : t.counts = s.counts) (htask : t.task = s.task)
    (hother : ∀ v, v ≠ w → t.worker v = s.worker v ∧ t.done v = s.done v ∧
      t.hasWork v = s.hasWork v)
    (hrest : ¬ s.Owes workers w → t.Resting w) (hserve : s.Owes workers w → t.Serving workers w)
    (hcleared : s.dispatcher = .setWork w → t.done w = false)
    (hlog : ∀ k i, (k, i) ∈ t.log ↔ t.Copied workers k i) (hnodup : t.log.Nodup) :
    t.Valid workers := by
  have hcount : t.count = s.count := by unfold count; rw [hc]
  have howes : ∀ v, t.Owes workers v ↔ s.Owes workers v := fun v => by
    unfold Owes Busy
    rw [hd, hcount]
  refine ⟨fun h => hc ▸ hv.counts (hd ▸ h), fun v hvw h => ?_, fun v hvw h => ?_, fun v h => ?_,
    fun v h => ?_, hlog, hnodup⟩
  · rw [howes] at h
    by_cases hne : v = w
    · exact hne ▸ hrest (hne ▸ h)
    · obtain ⟨h1, -, h3⟩ := hother v hne
      unfold Resting
      rw [h1, h3]
      exact hv.resting v hvw h
  · rw [howes] at h
    by_cases hne : v = w
    · exact hne ▸ hserve (hne ▸ h)
    · obtain ⟨h1, h2, h3⟩ := hother v hne
      have := hv.serving v hvw h
      unfold Serving taskOf call at this ⊢
      rw [h1, h2, h3, htask, hc, hcount]
      exact this
  · rw [hd] at h
    unfold Busy taskOf call
    rw [htask, hc, hcount]
    exact hv.assigned v h
  · rw [hd] at h
    by_cases hne : v = w
    · subst hne
      exact hcleared h
    · rw [(hother v hne).2.1]
      exact hv.cleared v h

/-- A worker's step that copies nothing leaves what has been copied as it is. -/
theorem Valid.log_work (hv : s.Valid workers) {t : State} {w : Nat}
    (hd : t.dispatcher = s.dispatcher) (hc : t.counts = s.counts)
    (hother : ∀ v, v ≠ w → t.worker v = s.worker v ∧ t.done v = s.done v ∧
      t.hasWork v = s.hasWork v)
    (hl : t.log = s.log)
    (hp : s.Owes workers w → t.progress workers w = s.progress workers w) (k i : Nat) :
    (k, i) ∈ t.log ↔ t.Copied workers k i := by
  rw [hl, hv.log]
  refine (copied_congr hv.counts hc (by rw [hd]) (fun j hj => reached_congr hc (fun _ _ => ?_)
    (fun v hvw hb => ?_) hj) k i).symm
  · have hcount : t.count = s.count := by unfold count; rw [hc]
    simp only [mainProgress, hd, hcount]
  · by_cases hne : v = w
    · subst hne
      by_cases ho : s.Owes workers v
      · exact hp ho
      · -- before its task or after its `done`, a worker's progress is known
        have hcount : t.count = s.count := by unfold count; rw [hc]
        unfold progress
        rw [hd, hcount]
        by_cases hbefore : s.dispatcher.before v
        · simp only [hbefore, if_true]
        · have hafter : s.dispatcher.after v := by
            by_contra h
            exact ho ⟨hb, hbefore, h⟩
          simp only [hbefore, hafter, if_false, if_true]
    · obtain ⟨h1, h2, -⟩ := hother v hne
      exact progress_congr hc (by rw [hd]) (by rw [hd]) h1 h2

theorem progress_of_owes {w : Nat} (h : s.Owes workers w) : s.progress workers w =
    phaseProgress workers s.count w (s.done w) (s.worker w) := by
  unfold progress
  rw [if_neg h.2.1, if_neg h.2.2]

/-- A step of worker `w` that copies nothing. -/
theorem Valid.move (hv : s.Valid workers) {w : Nat} {x : Worker} {hasWork done : Nat → Bool}
    (hwork : ∀ v, v ≠ w → hasWork v = s.hasWork v) (hdone : ∀ v, v ≠ w → done v = s.done v)
    (hrest : ¬ s.Owes workers w →
      x = .poll ∧ hasWork w = false ∨ x = .clearWork ∧ hasWork w = true)
    (hserve : s.Owes workers w → PhaseOk workers s.count w (hasWork w) (done w) x)
    (htask : s.Owes workers w → s.task w = s.taskOf workers w)
    (hcleared : s.dispatcher = .setWork w → done w = false)
    (hp : s.Owes workers w → phaseProgress workers s.count w (done w) x =
      phaseProgress workers s.count w (s.done w) (s.worker w)) :
    Valid workers { s.setWorker w x with hasWork := hasWork, done := done } := by
  have hother : ∀ v, v ≠ w → (s.setWorker w x).worker v = s.worker v ∧ done v = s.done v ∧
      hasWork v = s.hasWork v :=
    fun v hne => ⟨Function.update_of_ne hne .., hdone v hne, hwork v hne⟩
  have hself : (s.setWorker w x).worker w = x := Function.update_self ..
  refine hv.work rfl rfl rfl hother (fun h => ?_) (fun h => ⟨htask h, ?_⟩) hcleared
    (hv.log_work rfl rfl hother rfl fun h => ?_) hv.log_nodup
  · show (s.setWorker w x).worker w = .poll ∧ _ ∨ (s.setWorker w x).worker w = .clearWork ∧ _
    rw [hself]
    exact hrest h
  · show PhaseOk workers s.count w (hasWork w) (done w) ((s.setWorker w x).worker w)
    rw [hself]
    exact hserve h
  · rw [progress_of_owes h]
    refine (progress_of_owes (s := { s.setWorker w x with hasWork := hasWork, done := done })
      ⟨h.1, h.2.1, h.2.2⟩).trans ?_
    show phaseProgress workers s.count w (done w) ((s.setWorker w x).worker w) = _
    rw [hself]
    exact hp h

/-- A worker that is copying, or about to store `done`, has a task. -/
theorem Valid.owes_of_copy (hv : s.Valid workers) {w : Nat} (hw : w < workers)
    (h : s.worker w ≠ .poll) (h' : s.worker w ≠ .clearWork) : s.Owes workers w := by
  by_contra ho
  rcases hv.resting w hw ho with ⟨h1, -⟩ | ⟨h1, -⟩
  · exact h h1
  · exact h' h1

/-- The dispatcher is past `has_work = true` for a worker that has a task. -/
theorem Owes.not_setWork {w : Nat} (h : s.Owes workers w) : s.dispatcher ≠ .setWork w :=
  fun hd => h.2.1 (by rw [hd]; exact Nat.le_refl w)

theorem valid_poll (hv : s.Valid workers) {w : Nat} (hw : w < workers) (hpc : s.worker w = .poll)
    (hwork : s.hasWork w = true) : Valid workers (s.setWorker w (.copy (s.task w).start)) := by
  have ho : s.Owes workers w := by
    by_contra ho
    rcases hv.resting w hw ho with ⟨-, h⟩ | ⟨h, -⟩
    · rw [hwork] at h; cases h
    · rw [hpc] at h; cases h
  obtain ⟨htask, hs⟩ := hv.serving w hw ho
  have hdone : s.done w = false := by
    rw [hpc, hwork] at hs
    simpa [PhaseOk] using hs
  have hle : start workers s.count w ≤ stop workers s.count w :=
    Nat.le_min.mpr ⟨Nat.le_add_right _ _, Nat.le_of_lt ho.1⟩
  refine hv.move (fun _ _ => rfl) (fun _ _ => rfl) (fun h => absurd ho h) (fun _ => ?_)
    (fun _ => htask) (fun h => absurd h ho.not_setWork) (fun _ => ?_)
  · rw [htask]
    exact ⟨hwork, hdone, Nat.le_refl _, hle⟩
  · rw [htask, hpc, hdone]
    rfl

theorem valid_copied (hv : s.Valid workers) {w i : Nat} (hw : w < workers)
    (hpc : s.worker w = .copy i) (hi : ¬ i < (s.task w).stop) :
    Valid workers (s.setWorker w .setDone) := by
  have ho : s.Owes workers w := hv.owes_of_copy hw (by simp [hpc]) (by simp [hpc])
  obtain ⟨htask, hs⟩ := hv.serving w hw ho
  rw [hpc] at hs
  obtain ⟨hwork, hdone, -, hle⟩ := hs
  rw [htask] at hi
  refine hv.move (fun _ _ => rfl) (fun _ _ => rfl) (fun h => absurd ho h)
    (fun _ => ⟨hwork, hdone⟩) (fun _ => htask) (fun h => absurd h ho.not_setWork) (fun _ => ?_)
  rw [hpc]
  exact Nat.le_antisymm (Nat.le_of_not_lt hi) hle

theorem valid_setDone (hv : s.Valid workers) {w : Nat} (hw : w < workers)
    (hpc : s.worker w = .setDone) :
    Valid workers { s.setWorker w .clearWork with done := Function.update s.done w true } := by
  have ho : s.Owes workers w := hv.owes_of_copy hw (by simp [hpc]) (by simp [hpc])
  obtain ⟨htask, hs⟩ := hv.serving w hw ho
  rw [hpc] at hs
  refine hv.move (fun _ _ => rfl) (fun v hne => Function.update_of_ne hne ..)
    (fun h => absurd ho h) (fun _ => ⟨hs.1, Function.update_self ..⟩) (fun _ => htask)
    (fun h => absurd h ho.not_setWork) (fun _ => ?_)
  rw [hpc]
  rfl

theorem valid_clearWork (hv : s.Valid workers) {w : Nat} (hw : w < workers)
    (hpc : s.worker w = .clearWork) :
    Valid workers { s.setWorker w .poll with hasWork := Function.update s.hasWork w false } := by
  refine hv.move (fun v hne => Function.update_of_ne hne ..) (fun _ _ => rfl)
    (fun _ => .inl ⟨rfl, Function.update_self ..⟩) (fun ho => ?_)
    (fun ho => (hv.serving w hw ho).1) (hv.cleared w) (fun ho => ?_)
  · have hs := (hv.serving w hw ho).2
    rw [hpc] at hs
    rw [Function.update_self]
    show false = !s.done w
    rw [hs.2]
    rfl
  · have hs := (hv.serving w hw ho).2
    rw [hpc] at hs
    show phaseProgress workers s.count w (s.done w) .poll = _
    rw [hpc, hs.2]
    rfl

/-- A worker copies one more entry of its chunk. -/
theorem valid_copy (hv : s.Valid workers) {w i : Nat} (hw : w < workers)
    (hpc : s.worker w = .copy i) (hi : i < (s.task w).stop) {t : State}
    (ht : t = { s.setWorker w (.copy (i + 1)) with log := s.log ++ [((s.task w).call, i)] }) :
    t.Valid workers := by
  have ho : s.Owes workers w := hv.owes_of_copy hw (by simp [hpc]) (by simp [hpc])
  obtain ⟨htask, hs⟩ := hv.serving w hw ho
  rw [hpc] at hs
  obtain ⟨hwork, hdone, hge, -⟩ := hs
  rw [htask] at hi ht
  have hd : t.dispatcher = s.dispatcher := by rw [ht]; rfl
  have hc : t.counts = s.counts := by rw [ht]; rfl
  have hcount : t.count = s.count := by unfold count; rw [hc]
  have hself : t.worker w = .copy (i + 1) := by rw [ht]; exact Function.update_self ..
  have hother : ∀ v, v ≠ w → t.worker v = s.worker v ∧ t.done v = s.done v ∧
      t.hasWork v = s.hasWork v := fun v hne => by
    rw [ht]
    exact ⟨Function.update_of_ne hne .., rfl, rfl⟩
  have ho' : t.Owes workers w := by
    unfold Owes Busy
    rw [hd, hcount]
    exact ho
  have hi' : i < s.count := Nat.lt_of_lt_of_le hi (Nat.min_le_right _ _)
  have hidle : s.dispatcher ≠ .idle := fun h => ho.2.2 (by rw [h]; trivial)
  have hprog : s.progress workers w = i ∧ t.progress workers w = i + 1 := by
    rw [progress_of_owes ho, progress_of_owes ho', hpc, hself]
    exact ⟨rfl, rfl⟩
  obtain ⟨hlog, hnodup⟩ := hv.log_append (t := t) (i := i) hidle (hd ▸ hidle) hc hi'
    (by rw [reached_iff hi' ⟨hge, hi⟩, hprog.1]; exact Nat.lt_irrefl i) fun j hj => by
      rcases hq : j / chunk workers s.count with - | v
      · have hlt := (div_chunk_eq_zero hj).mp hq
        have hne : j ≠ i := by
          rintro rfl
          rw [(div_chunk_eq_succ hj).mpr ⟨hge, hi⟩] at hq
          cases hq
        rw [reached_iff_main hj hlt, reached_iff_main (hcount ▸ hj) (hcount ▸ hlt)]
        simp only [mainProgress, hd, hcount]
        exact ⟨.inl, fun h => h.resolve_right hne⟩
      · have hlt := (div_chunk_eq_succ hj).mp hq
        rw [reached_iff hj hlt, reached_iff (hcount ▸ hj) (hcount ▸ hlt)]
        by_cases hne : v = w
        · subst hne
          rw [hprog.1, hprog.2]
          omega
        · have hji : j ≠ i := by
            rintro rfl
            rw [(div_chunk_eq_succ hj).mpr ⟨hge, hi⟩] at hq
            exact hne (Nat.succ.inj hq).symm
          obtain ⟨h1, h2, -⟩ := hother v hne
          rw [progress_congr hc (by rw [hd]) (by rw [hd]) h1 h2]
          exact ⟨.inl, fun h => h.resolve_right hji⟩
  refine hv.work hd hc (by rw [ht]; rfl) hother (fun h => absurd ho h) (fun _ => ?_)
    (fun h => absurd h ho.not_setWork) ?_ ?_
  · refine ⟨?_, ?_⟩
    · rw [show t.task = s.task by rw [ht]; rfl, htask]
      unfold taskOf call
      rw [hc, hcount]
    · rw [hself, hcount]
      subst ht
      exact ⟨hwork, hdone, Nat.le_succ_of_le hge, hi⟩
  · rw [show t.log = s.log ++ [(s.call, i)] by rw [ht]; rfl]
    exact hlog
  · rw [show t.log = s.log ++ [(s.call, i)] by rw [ht]; rfl]
    exact hnodup

theorem valid_dispatch (hv : s.Valid workers) (hclear : Clear s .dispatch) {t : State}
    (h : s.dispatch workers = some t) : t.Valid workers := by
  unfold dispatch at h
  split at h
  · cases h
  · split at h
    · split at h
      · cases h; exact valid_assign hv ‹_› ‹_› ‹_›
      · cases h; exact valid_skip hv ‹_› ‹_›
    · cases h; exact valid_assigned hv ‹_› ‹_›
  · cases h; exact valid_clearDone hv ‹_›
  · rename_i hd
    cases h
    unfold Clear at hclear
    rw [hd] at hclear
    exact valid_setWork hv hd hclear
  · split at h
    · cases h; exact valid_gather hv ‹_› ‹_› rfl
    · cases h; exact valid_gathered hv ‹_› ‹_›
  · split at h
    · split at h
      · cases h
      · cases h; exact valid_waited hv ‹_› ‹_› ‹_›
    · cases h; exact valid_return hv ‹_› ‹_›

theorem valid_work (hv : s.Valid workers) {w : Nat} (hw : w < workers) {t : State}
    (h : s.work w = some t) : t.Valid workers := by
  unfold work at h
  split at h
  · split at h
    · cases h; exact valid_poll hv hw ‹_› ‹_›
    · cases h
  · split at h
    · cases h; exact valid_copy hv hw ‹_› ‹_› rfl
    · cases h; exact valid_copied hv hw ‹_› ‹_›
  · cases h; exact valid_setDone hv hw ‹_›
  · cases h; exact valid_clearWork hv hw ‹_›

end State

/-! ## Every run -/

open State

variable {workers : Nat} {s : State}

theorem valid_step {t : State} {a : Act} (hv : s.Valid workers) (hc : Clear s a)
    (h : step workers s a = some t) : t.Valid workers := by
  cases a with
  | call n =>
    simp only [step] at h
    split at h
    · cases h; exact valid_call hv ‹_› n
    · cases h
  | dispatch => exact valid_dispatch hv hc h
  | work w =>
    simp only [step] at h
    split at h
    · exact valid_work hv ‹_› h
    · cases h

theorem valid_of_reachable (h : Reachable (step workers) Clear (· = init) s) : s.Valid workers :=
  h.invariant (by rintro _ rfl; exact valid_init workers) fun _ _ _ hv hc hs => valid_step hv hc hs

/-- The dispatcher makes no call by itself. -/
theorem frame_dispatch {t : State} (h : s.dispatch workers = some t) :
    t.counts = s.counts ∧ s.dispatcher ≠ .idle := by
  unfold dispatch at h
  split at h <;> rename_i hd
  · cases h
  · split at h
    · split at h <;> cases h <;> exact ⟨rfl, by rw [hd]; nofun⟩
    · cases h; exact ⟨rfl, by rw [hd]; nofun⟩
  · cases h; exact ⟨rfl, by rw [hd]; nofun⟩
  · cases h; exact ⟨rfl, by rw [hd]; nofun⟩
  · split at h <;> cases h <;> exact ⟨rfl, by rw [hd]; nofun⟩
  · split at h
    · split at h <;> cases h
      exact ⟨rfl, by rw [hd]; nofun⟩
    · cases h; exact ⟨rfl, by rw [hd]; nofun⟩

/-- A worker leaves the dispatcher alone. -/
theorem frame_work {t : State} {w : Nat} (h : s.work w = some t) :
    t.counts = s.counts ∧ t.dispatcher = s.dispatcher := by
  unfold work at h
  split at h
  · split at h <;> cases h
    exact ⟨rfl, rfl⟩
  · split at h <;> cases h <;> exact ⟨rfl, rfl⟩
  · cases h; exact ⟨rfl, rfl⟩
  · cases h; exact ⟨rfl, rfl⟩

/-- The calls made so far, after a step. -/
theorem counts_step {t : State} {a : Act} (h : step workers s a = some t) :
    t.counts = s.counts ++ (match a with | .call n => [n] | _ => []) := by
  cases a with
  | call n =>
    simp only [step] at h
    split at h <;> cases h
    rfl
  | dispatch => exact (frame_dispatch h).1.trans (List.append_nil _).symm
  | work w =>
    simp only [step] at h
    split at h
    · exact (frame_work h).1.trans (List.append_nil _).symm
    · cases h

/-- The ranges of every call made are those the code computes. -/
theorem counts_of_reachable (h : Reachable (step workers) (Sound workers) (· = init) s) :
    ∀ n ∈ s.counts, n + workers < 2 ^ 31 := by
  refine h.invariant (I := fun s => ∀ n ∈ s.counts, n + workers < 2 ^ 31) ?_ ?_
  · rintro _ rfl
    exact List.forall_mem_nil _
  · intro s a t hs hc ht
    rw [counts_step ht]
    cases a with
    | call m => exact List.forall_mem_append.mpr ⟨hs, List.forall_mem_singleton.mpr hc.2⟩
    | dispatch | work => simpa using hs

/-- The worker is executing the task the call being made handed it. -/
def Executing (workers : Nat) (s : State) (w : Nat) : Prop :=
  s.task w = s.taskOf workers w ∧ ∃ i, s.worker w = .copy i

/-- The dispatcher waits for the `done` of worker `w`. -/
def Awaits (workers : Nat) (s : State) (w : Nat) : Prop :=
  s.dispatcher = .wait w ∧ w < workers ∧ s.Busy workers w

theorem Awaits.owes {w : Nat} (h : Awaits workers s w) : s.Owes workers w :=
  ⟨h.2.2, by rw [h.1]; exact id, by rw [h.1]; exact Nat.lt_irrefl w⟩

/-- A worker with a task copies the rest of its chunk and stores `done`. -/
theorem exists_run_copy {w : Nat} (hw : w < workers) : ∀ (n : Nat) (s : State) (i : Nat),
    s.worker w = .copy i → (s.task w).stop - i = n →
      ∃ m t, run (step workers) s (List.replicate m (.work w)) = some t ∧ t.done w = true
  | 0, s, i, hpc, hn => by
    refine ⟨2, { (s.setWorker w .setDone).setWorker w .clearWork with
      done := Function.update s.done w true }, ?_, Function.update_self ..⟩
    have hi : ¬ i < (s.task w).stop := by omega
    simp only [List.replicate, run_cons, run_nil, step, hw, if_true, work, hpc, hi, if_false,
      Option.bind_some, setWorker_self]
    rfl
  | n + 1, s, i, hpc, hn => by
    have hi : i < (s.task w).stop := by omega
    obtain ⟨m, t, hrun, hdone⟩ := exists_run_copy hw n
      { s.setWorker w (.copy (i + 1)) with log := s.log ++ [((s.task w).call, i)] } (i + 1)
      (setWorker_self ..) (by show (s.task w).stop - (i + 1) = n; omega)
    refine ⟨m + 1, t, ?_, hdone⟩
    rw [List.replicate_succ, run_cons]
    simp only [step, hw, if_true, work, hpc, hi, Option.bind_some]
    exact hrun

/-- **No lost wake-up**: the worker the dispatcher waits for stores `done` by its
own steps. -/
theorem State.Valid.exists_run_done (hv : s.Valid workers) {w : Nat} (h : Awaits workers s w) :
    ∃ m t, run (step workers) s (List.replicate m (.work w)) = some t ∧ t.done w = true := by
  obtain ⟨htask, hs⟩ := hv.serving w h.2.1 h.owes
  cases hpc : s.worker w with
  | poll =>
    rw [hpc] at hs
    cases hdone : s.done w with
    | true => exact ⟨0, s, rfl, hdone⟩
    | false =>
      rw [hdone] at hs
      have hwork : s.hasWork w = true := hs
      obtain ⟨m, t, hrun, ht⟩ := exists_run_copy h.2.1 _ (s.setWorker w (.copy (s.task w).start))
        (s.task w).start (setWorker_self ..) rfl
      refine ⟨m + 1, t, ?_, ht⟩
      rw [List.replicate_succ, run_cons]
      simp only [step, h.2.1, if_true, State.work, hpc, hwork, Option.bind_some]
      exact hrun
  | copy i => exact exists_run_copy h.2.1 _ s i hpc rfl
  | setDone =>
    refine ⟨1, { s.setWorker w .clearWork with done := Function.update s.done w true }, ?_,
      Function.update_self ..⟩
    simp only [List.replicate, run_cons, run_nil, step, h.2.1, if_true, State.work, hpc,
      Option.bind_some]
  | clearWork =>
    rw [hpc] at hs
    exact ⟨0, s, rfl, hs.2⟩

/-- No gather task is lost: a worker that is waited for is done, has work, or is
executing the call's task, and gets to `done` by its own steps; some step is
always possible; an entry is copied at most once, and all entries of a call are
copied when it has returned. -/
structure NoneLost (workers : Nat) (s : State) : Prop where
  /-- The ranges of the calls made are those the code computes. -/
  ranges : ∀ n ∈ s.counts, n + workers < 2 ^ 31
  waiting : ∀ w, Awaits workers s w →
    s.done w = true ∨ s.hasWork w = true ∨ Executing workers s w
  progress : ∀ w, Awaits workers s w →
    ∃ m t, run (step workers) s (List.replicate m (.work w)) = some t ∧ t.done w = true
  notStuck : ∃ a t, step workers s a = some t
  valid : ∀ k i, (k, i) ∈ s.log → ∃ n, s.counts[k]? = some n ∧ i < n
  at_most : ∀ k i, s.log.count (k, i) ≤ 1
  exactly : s.dispatcher = .idle → ∀ k n, s.counts[k]? = some n → ∀ i < n, s.log.count (k, i) = 1

theorem exists_step_of_run {s t : State} {m : Nat} {a : Act}
    (h : run (step workers) s (List.replicate m a) = some t) (hne : t ≠ s) :
    ∃ u, step workers s a = some u := by
  cases m with
  | zero => cases h; exact absurd rfl hne
  | succ m =>
    rw [List.replicate_succ, run_cons] at h
    obtain ⟨u, hu, -⟩ := Option.bind_eq_some_iff.mp h
    exact ⟨u, hu⟩

theorem State.Valid.noneLost (hv : s.Valid workers) (hc : ∀ n ∈ s.counts, n + workers < 2 ^ 31) :
    NoneLost workers s := by
  refine ⟨hc, fun w h => ?_, fun w h => hv.exists_run_done h, ?_, fun k i h => ?_,
    fun k i => List.nodup_iff_count_le_one.mp hv.log_nodup (k, i), fun hd k n hn i hi => ?_⟩
  · obtain ⟨htask, hs⟩ := hv.serving w h.2.1 h.owes
    cases hpc : s.worker w with
    | poll =>
      rw [hpc] at hs
      cases hdone : s.done w with
      | true => exact .inl rfl
      | false =>
        rw [hdone] at hs
        exact .inr (.inl hs)
    | copy i => exact .inr (.inr ⟨htask, i, hpc⟩)
    | setDone =>
      rw [hpc] at hs
      exact .inr (.inl hs.1)
    | clearWork =>
      rw [hpc] at hs
      exact .inl hs.2
  · cases hd : s.dispatcher with
    | idle => exact ⟨.call 0, _, by simp only [step, hd]; rfl⟩
    | assign w =>
      by_cases hw : w < workers
      · by_cases hb : start workers s.count w < s.count
        · exact ⟨.dispatch, _, by simp only [step, dispatch, hd, hw, hb, if_true]; rfl⟩
        · exact ⟨.dispatch, _, by simp only [step, dispatch, hd, hw, hb, if_true, if_false]; rfl⟩
      · exact ⟨.dispatch, _, by simp only [step, dispatch, hd, hw, if_false]; rfl⟩
    | clearDone w => exact ⟨.dispatch, _, by simp only [step, dispatch, hd]; rfl⟩
    | setWork w => exact ⟨.dispatch, _, by simp only [step, dispatch, hd]; rfl⟩
    | gather i =>
      by_cases hi : i < mainEnd workers s.count
      · exact ⟨.dispatch, _, by simp only [step, dispatch, hd, hi, if_true]; rfl⟩
      · exact ⟨.dispatch, _, by simp only [step, dispatch, hd, hi, if_false]; rfl⟩
    | wait w =>
      by_cases hw : w < workers
      · by_cases hb : start workers s.count w < s.count ∧ s.done w = false
        · obtain ⟨m, t, hrun, ht⟩ := hv.exists_run_done (w := w) ⟨hd, hw, hb.1⟩
          obtain ⟨u, hu⟩ := exists_step_of_run hrun fun he => by
            rw [he, hb.2] at ht
            cases ht
          exact ⟨_, u, hu⟩
        · exact ⟨.dispatch, _, by simp only [step, dispatch, hd, hw, hb, if_true, if_false]; rfl⟩
      · exact ⟨.dispatch, _, by simp only [step, dispatch, hd, hw, if_false]; rfl⟩
  · obtain ⟨n, hn, hi, -⟩ := (hv.log k i).mp h
    exact ⟨n, hn, hi⟩
  · exact List.count_eq_one_of_mem hv.log_nodup
      ((hv.log k i).mpr ⟨n, hn, hi, fun _ h => absurd hd h⟩)

/-- **No gather task is lost**, in every run of calls whose sums are `int`s in which `has_work` is
clear when the dispatcher stores it. -/
theorem noneLost_of_reachable (h : Reachable (step workers) (Sound workers) (· = init) s) :
    NoneLost workers s :=
  (valid_of_reachable (h.mono fun _ _ hc => hc.1)).noneLost (counts_of_reachable h)

section Example

def dispatches (k : Nat) : List Act := List.replicate k .dispatch

def works (k : Nat) : List Act := List.replicate k (.work 0)

/-- One worker and two calls of two entries.  The second call dispatches between
the worker's stores of `done` and of `has_work`. -/
def overlapping : List Act :=
  .call 2 :: dispatches 4 ++ works 4 ++ dispatches 4 ++ .call 2 :: dispatches 3 ++ works 1 ++
    dispatches 3

/-- The same, but the worker has cleared `has_work`. -/
def separate : List Act :=
  .call 2 :: dispatches 4 ++ works 5 ++ dispatches 4 ++ .call 2 :: dispatches 6 ++ works 4 ++
    dispatches 2

def summary (s : State) : List Nat × Dispatcher × Bool × Bool × Worker :=
  (s.counts, s.dispatcher, s.hasWork 0, s.done 0, s.worker 0)

/-- A task is lost: the dispatcher waits for the worker, the worker waits for
work, and no step is possible. -/
theorem exists_lost : ∃ s, ReachableFrom (step 1) init s ∧ Awaits 1 s 0 ∧
    ¬ (s.done 0 = true ∨ s.hasWork 0 = true ∨ Executing 1 s 0) ∧
    ¬ ∃ a t, step 1 s a = some t := by
  have h : (run (step 1) init overlapping).map summary =
      some ([2, 2], .wait 0, false, false, .poll) := by decide
  obtain ⟨s, hs, hsum⟩ := Option.map_eq_some_iff.mp h
  simp only [summary, Prod.mk.injEq] at hsum
  obtain ⟨h1, h2, h3, h4, h5⟩ := hsum
  have hb : start 1 s.count 0 < s.count := by rw [count, h1]; decide
  refine ⟨s, (Reachable.self _).run_always hs, ⟨h2, by decide, hb⟩, ?_, ?_⟩
  · rintro (h | h | ⟨-, i, h⟩)
    · rw [h4] at h; cases h
    · rw [h3] at h; cases h
    · rw [h5] at h; cases h
  · rintro ⟨a, t, hstep⟩
    cases a with
    | call n => simp only [step, h2] at hstep; cases hstep
    | dispatch => simp [step, dispatch, h2, hb, h4] at hstep
    | work w =>
      simp only [step] at hstep
      split at hstep
      · obtain rfl : w = 0 := by omega
        simp [work, h5, h3] at hstep
      · cases hstep

/-- A run through two calls, and what the theorem says of its end. -/
theorem noneLost_of_reachable_two : ∃ s, s.dispatcher = .idle ∧ s.counts = [2, 2] ∧
    NoneLost 1 s := by
  have h : (runWhile (step 1) (Sound 1) init separate).map summary =
      some ([2, 2], .idle, true, true, .clearWork) := by decide
  obtain ⟨s, hs, hsum⟩ := Option.map_eq_some_iff.mp h
  simp only [summary, Prod.mk.injEq] at hsum
  obtain ⟨h1, h2, -⟩ := hsum
  exact ⟨s, h2, h1, noneLost_of_reachable ((Reachable.self _).runWhile hs)⟩

end Example

end Gfd.Gather
