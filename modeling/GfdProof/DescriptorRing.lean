import Mathlib
import GfdProof.PollingLoop

/-! # The descriptor ring

Any number of producer warps and the one polling thread over the ring of
`descriptor_queue.h`.  A producer reserves `count` slots by an `atomicAdd` on
`write_idx`, waits until its range fits behind `read_idx`
(`base + count - read_idx <= QUEUE_SIZE`, in 64-bit words), stores the fields of
its slots, and then stores `sequence = slot + 1` in each.  The lanes of a warp
store in any order; the fence between the two phases is the step `fence`.

The ring is reused every `QUEUE_SIZE` slots, so what has to be shown is that a
store for one lap never lands in a cell whose descriptor of an earlier lap is
still to be popped.  The invariant `Valid` is about slots, not cells: a slot not
yet popped is either held by one producer or committed with its fields in
place, and all slots being stored to or committed lie in one window of
`QUEUE_SIZE` slots above `read_idx`, where different slots have different cells
(`cell_inj`).
-/
namespace Gfd

open Transition

/-- A producer warp.  `todo` are the stores its lanes have still to make. -/
inductive Producer
  | idle
  /-- Slots `base, …, base + count - 1` are reserved; waiting for `read_idx`. -/
  | waiting (base count : Nat)
  /-- Storing the fields of its descriptors. -/
  | writing (base count : Nat) (todo : Finset (Nat × Field))
  /-- Storing the sequences. -/
  | committing (base count : Nat) (todo : Finset Nat)

/-- The slots a producer has reserved and not yet committed. -/
def Producer.Holds : Producer → Nat → Prop
  | .idle, _ => False
  | .waiting base count, x => base ≤ x ∧ x < base + count
  | .writing base count _, x => base ≤ x ∧ x < base + count
  | .committing base _ todo, x => ∃ i ∈ todo, x = base + i

/-- Past the backpressure test: the producer stores to its cells. -/
def Producer.admitted : Producer → Bool
  | .writing .. | .committing .. => true
  | _ => false

/-- The ring with its producers and the polling thread.  `plan x` is the
descriptor the owner of slot `x` set out to write and `committed x` says that it
stored `x`'s sequence; both are for stating what was handed over. -/
structure Ring (P : Type) (B : Backend) where
  loop : Loop B
  writeIdx : Nat
  producer : P → Producer
  plan : Nat → Field → Nat
  committed : Nat → Bool

namespace Ring

variable {P : Type} {B : Backend}

/-- Empty, with every producer idle. -/
def init (b : B.State) : Ring P B where
  loop := Loop.init b
  writeIdx := 0
  producer _ := .idle
  plan _ _ := 0
  committed _ := false

inductive Act (P : Type) (B : Backend)
  /-- `atomicAdd(&write_idx, count)` by a warp about to write `vals`. -/
  | reserve (p : P) (count : Nat) (vals : Nat → Field → Nat)
  /-- A load of `read_idx` that passes the backpressure test. -/
  | wait (p : P)
  /-- Store field `f` of the `i`-th descriptor. -/
  | write (p : P) (i : Nat) (f : Field)
  | fence (p : P)
  /-- Store the sequence of the `i`-th slot. -/
  | commit (p : P) (i : Nat)
  | release (p : P)
  | loop (a : Loop.Act B)

/-- One step; a warp that fails the backpressure test does not move. -/
def step [DecidableEq P] (s : Ring P B) : Act P B → Option (Ring P B)
  | .reserve p count vals =>
    match s.producer p with
    | .idle => some { s with
        writeIdx := s.writeIdx + count
        producer := Function.update s.producer p (.waiting s.writeIdx count)
        plan := fun x =>
          if s.writeIdx ≤ x ∧ x < s.writeIdx + count then vals (x - s.writeIdx) else s.plan x }
    | _ => none
  | .wait p =>
    match s.producer p with
    | .waiting base count =>
      if subWord (base + count) s.loop.readIdx ≤ queueSize then
        some { s with producer :=
          Function.update s.producer p (.writing base count (Finset.range count ×ˢ Finset.univ)) }
      else none
    | _ => none
  | .write p i f =>
    match s.producer p with
    | .writing base count todo =>
      if (i, f) ∈ todo then
        some { s with
          loop := s.loop.storeField (word (base + i) % queueSize) f (s.plan (base + i) f)
          producer := Function.update s.producer p (.writing base count (todo.erase (i, f))) }
      else none
    | _ => none
  | .fence p =>
    match s.producer p with
    | .writing base count todo =>
      if todo = ∅ then
        some { s with producer :=
          Function.update s.producer p (.committing base count (Finset.range count)) }
      else none
    | _ => none
  | .commit p i =>
    match s.producer p with
    | .committing base count todo =>
      if i ∈ todo then
        some { s with
          loop := s.loop.storeSequence (word (base + i) % queueSize) (word (base + i + 1))
          producer := Function.update s.producer p (.committing base count (todo.erase i))
          committed := Function.update s.committed (base + i) true }
      else none
    | _ => none
  | .release p =>
    match s.producer p with
    | .committing _ _ todo =>
      if todo = ∅ then some { s with producer := Function.update s.producer p .idle } else none
    | _ => none
  | .loop a => (s.loop.step a).map fun l => { s with loop := l }

/-- Fewer than `2 ^ 64` slots have been reserved and fewer than `2 ^ 64 - 1`
popped: no index, and no sequence the polling thread expects, has wrapped. -/
def InWords (s : Ring P B) : Prop := s.writeIdx < wordSize ∧ s.loop.readIdx + 1 < wordSize

/-- The descriptor written to slot `x`. -/
def descriptor (s : Ring P B) (x : Nat) : Descriptor := Descriptor.ofFields x (s.plan x)

/-! ## The invariant -/

/-- What the polling thread knows of the entry it is popping. -/
def Reader (s : Ring P B) : Prop :=
  match s.loop.pc with
  | .copy _ todo got => s.committed s.loop.readIdx = true ∧
      ∀ f, f ∉ todo → got f = s.plan s.loop.readIdx f
  | .mergeFlags got | .clear _ got => s.committed s.loop.readIdx = true ∧
      got = s.plan s.loop.readIdx
  | .publish _ got => s.committed s.loop.readIdx = true ∧ got = s.plan s.loop.readIdx ∧
      s.loop.entry.sequence = 0
  | _ => True

/-- The invariant of the ring while the indices have not wrapped. -/
structure Valid (s : Ring P B) : Prop where
  batchOk : s.loop.BatchOk
  read_le : s.loop.readIdx ≤ s.writeIdx
  held : ∀ p x, (s.producer p).Holds x →
    s.loop.readIdx ≤ x ∧ x < s.writeIdx ∧ s.committed x = false
  unique : ∀ p q x, (s.producer p).Holds x → (s.producer q).Holds x → p = q
  window : ∀ p x, (s.producer p).admitted = true → (s.producer p).Holds x →
    x < s.loop.readIdx + queueSize
  bounded : ∀ p base count todo, s.producer p = .writing base count todo →
    ∀ y ∈ todo, y.1 < count
  committed_lt : ∀ x, s.committed x = true →
    x < s.writeIdx ∧ x < s.loop.readIdx + queueSize
  below_read : ∀ x, x < s.loop.readIdx → s.committed x = true
  marker : ∀ c, (s.loop.entries c).sequence ≠ 0 → ∃ x, s.loop.readIdx ≤ x ∧
    s.committed x = true ∧ x % queueSize = c ∧ (s.loop.entries c).sequence = x + 1
  pending : ∀ x, s.loop.readIdx ≤ x → s.committed x = true →
    (s.loop.entries (x % queueSize)).field = s.plan x
  written : ∀ p base count todo, s.producer p = .writing base count todo → ∀ i, i < count →
    ∀ f, (i, f) ∉ todo → (s.loop.entries ((base + i) % queueSize)).field f = s.plan (base + i) f
  filled : ∀ p base count todo, s.producer p = .committing base count todo → ∀ i ∈ todo,
    (s.loop.entries ((base + i) % queueSize)).field = s.plan (base + i)
  reader : s.Reader
  popped_eq : s.loop.popped = (List.range s.loop.readIdx).map s.descriptor

theorem valid_init (b : B.State) : (init b : Ring P B).Valid where
  batchOk := Loop.batchOk_init b
  read_le := Nat.le_refl _
  held _ _ h := h.elim
  unique _ _ _ h := h.elim
  window _ _ _ h := h.elim
  bounded _ _ _ _ h := by cases h
  committed_lt _ h := by cases h
  below_read _ h := absurd h (Nat.not_lt_zero _)
  marker _ h := absurd rfl h
  pending _ _ h := by cases h
  written _ _ _ _ h := by cases h
  filled _ _ _ _ h := by cases h
  reader := trivial
  popped_eq := rfl

/-- In a window of one ring length, different slots have different cells. -/
theorem cell_inj {r x y : Nat} (hx : r ≤ x) (hx' : x < r + queueSize) (hy : r ≤ y)
    (hy' : y < r + queueSize) (h : x % queueSize = y % queueSize) : x = y := by
  unfold queueSize at *
  omega

theorem Reader.congr {s t : Ring P B} (h : s.Reader) (hpc : t.loop.pc = s.loop.pc)
    (hr : t.loop.readIdx = s.loop.readIdx)
    (hc : s.committed s.loop.readIdx = true → t.committed s.loop.readIdx = true)
    (hp : s.committed s.loop.readIdx = true → t.plan s.loop.readIdx = s.plan s.loop.readIdx)
    (he : s.committed s.loop.readIdx = true → s.loop.entry.sequence = 0 →
      t.loop.entry.sequence = 0) : t.Reader := by
  unfold Reader at *
  rw [hpc, hr]
  split at h
  · exact ⟨hc h.1, fun f hf => by rw [hp h.1]; exact h.2 f hf⟩
  · exact ⟨hc h.1, by rw [hp h.1]; exact h.2⟩
  · exact ⟨hc h.1, by rw [hp h.1]; exact h.2⟩
  · exact ⟨hc h.1, by rw [hp h.1]; exact h.2.1, he h.1 h.2.2⟩
  · trivial

/-- The flags that are merged are those of the entry at hand. -/
theorem Valid.flags_merged {s : Ring P B} (hv : s.Valid) {got : Field → Nat} (hpc : s.loop.pc = .mergeFlags got) :
    s.loop.entry.field .flags = got .flags := by
  have hreader := hv.reader
  simp only [Reader, hpc] at hreader
  obtain ⟨hc, rfl⟩ := hreader
  exact congrFun (hv.pending _ (Nat.le_refl _) hc) .flags

/-! ## Stores to a cell -/

/-- Storing a planned field to the cell of a slot held past the backpressure
test disturbs no other slot. -/
theorem valid_store {s : Ring P B} (hv : s.Valid) {p : P} {x : Nat} (f : Field)
    (ha : (s.producer p).admitted = true) (hh : (s.producer p).Holds x) :
    Valid { s with loop := s.loop.storeField (x % queueSize) f (s.plan x f) } := by
  obtain ⟨hx, -, hxc⟩ := hv.held p x hh
  have hxw := hv.window p x ha hh
  have hseq : ∀ c, ((s.loop.storeField (x % queueSize) f (s.plan x f)).entries c).sequence =
      (s.loop.entries c).sequence := by
    intro c
    simp only [Loop.storeField, Function.update_apply]
    split <;> simp [*]
  -- the store leaves the fields of a slot of the window as they are, or as planned
  have hfield : ∀ y g, s.loop.readIdx ≤ y → y < s.loop.readIdx + queueSize →
      ((s.loop.entries (y % queueSize)).field g = s.plan y g ∨ (y = x ∧ g = f)) →
      ((s.loop.storeField (x % queueSize) f (s.plan x f)).entries (y % queueSize)).field g =
        s.plan y g := by
    intro y g hy hyw h
    simp only [Loop.storeField, Function.update_apply]
    by_cases hc : y % queueSize = x % queueSize
    · have hxy := cell_inj hy hyw hx hxw hc
      subst hxy
      by_cases hg : g = f
      · simp [hg]
      · simpa [hg] using h
    · simp only [hc, if_false]
      rcases h with h | ⟨rfl, -⟩
      · exact h
      · exact absurd rfl hc
  refine ⟨hv.batchOk, hv.read_le, hv.held, hv.unique, hv.window, hv.bounded, hv.committed_lt,
    hv.below_read, fun c h => ?_, fun y hy hc => ?_, fun r base count todo h i hi g hg => ?_,
    fun r base count todo h i hi => ?_, ?_, ?_⟩
  · have h' := h
    rw [hseq] at h'
    obtain ⟨y, h1, h2, h3, h4⟩ := hv.marker c h'
    exact ⟨y, h1, h2, h3, (hseq c).trans h4⟩
  · exact funext fun g => hfield y g hy (hv.committed_lt y hc).2
      (.inl (congrFun (hv.pending y hy hc) g))
  · have hr : (s.producer r).Holds (base + i) := by rw [h]; exact ⟨by omega, by omega⟩
    exact hfield _ g (hv.held r _ hr).1 (hv.window r _ (by rw [h]; rfl) hr)
      (.inl (hv.written r base count todo h i hi g hg))
  · have hr : (s.producer r).Holds (base + i) := by rw [h]; exact ⟨i, hi, rfl⟩
    exact funext fun g => hfield _ g (hv.held r _ hr).1 (hv.window r _ (by rw [h]; rfl) hr)
      (.inl (congrFun (hv.filled r base count todo h i hi) g))
  · exact hv.reader.congr rfl rfl id (fun _ => rfl) fun _ h => (hseq _).trans h
  · exact hv.popped_eq

/-- Storing the sequence of a filled slot that nobody holds any more commits it. -/
theorem valid_mark {s : Ring P B} (hv : s.Valid) (hb : s.InWords) {x : Nat}
    (hx : s.loop.readIdx ≤ x) (hxW : x < s.writeIdx) (hxw : x < s.loop.readIdx + queueSize)
    (hfree : ∀ p, ¬ (s.producer p).Holds x) (hxc : s.committed x = false)
    (hf : (s.loop.entries (x % queueSize)).field = s.plan x) :
    Valid { s with
      loop := s.loop.storeSequence (x % queueSize) (word (x + 1))
      committed := Function.update s.committed x true } := by
  have hw : word (x + 1) = x + 1 := word_of_lt (Nat.lt_of_le_of_lt hxW hb.1)
  have hfield : ∀ c, ((s.loop.storeSequence (x % queueSize) (word (x + 1))).entries c).field =
      (s.loop.entries c).field := by
    intro c
    simp only [Loop.storeSequence, Function.update_apply]
    split <;> simp [*]
  have hcomm : ∀ y, Function.update s.committed x true y = true → y = x ∨ s.committed y = true := by
    intro y h
    by_cases hy : y = x
    · exact .inl hy
    · rw [Function.update_of_ne hy] at h; exact .inr h
  have hmono : ∀ y, s.committed y = true → Function.update s.committed x true y = true := by
    intro y h
    by_cases hy : y = x
    · subst hy; simp
    · rw [Function.update_of_ne hy]; exact h
  refine ⟨hv.batchOk, hv.read_le, fun r y h => ?_, hv.unique, hv.window, hv.bounded, fun y h => ?_,
    fun y h => hmono y (hv.below_read y h), fun c h => ?_, fun y hy hc => ?_,
    fun r base count todo h i hi g hg => ?_, fun r base count todo h i hi => ?_, ?_, ?_⟩
  · obtain ⟨h1, h2, h3⟩ := hv.held r y h
    refine ⟨h1, h2, ?_⟩
    have hy : y ≠ x := fun he => hfree r (he ▸ h)
    show Function.update s.committed x true y = false
    rw [Function.update_of_ne hy, h3]
  · rcases hcomm y h with rfl | h
    · exact ⟨hxW, hxw⟩
    · exact hv.committed_lt y h
  · by_cases hc : c = x % queueSize
    · subst hc
      refine ⟨x, hx, by simp, rfl, ?_⟩
      simp [Loop.storeSequence, hw]
    · have hs : ((s.loop.storeSequence (x % queueSize) (word (x + 1))).entries c).sequence =
          (s.loop.entries c).sequence := by simp [Loop.storeSequence, hc]
      change ((s.loop.storeSequence (x % queueSize) (word (x + 1))).entries c).sequence ≠ 0 at h
      rw [hs] at h
      obtain ⟨y, h1, h2, h3, h4⟩ := hv.marker c h
      exact ⟨y, h1, hmono y h2, h3, hs.trans h4⟩
  · refine (hfield _).trans ?_
    rcases hcomm y hc with rfl | hc
    · exact hf
    · exact hv.pending y hy hc
  · exact (congrFun (hfield _) g).trans (hv.written r base count todo h i hi g hg)
  · exact (hfield _).trans (hv.filled r base count todo h i hi)
  · refine hv.reader.congr rfl rfl (hmono _) (fun _ => rfl) fun hc h => ?_
    -- the entry being popped is another slot of the window, so another cell
    have hne : s.loop.readIdx % queueSize ≠ x % queueSize := by
      intro he
      have := cell_inj (Nat.le_refl _) (Nat.lt_add_of_pos_right (by decide)) hx hxw he
      rw [this, hxc] at hc
      cases hc
    simpa [Loop.entry, Loop.storeSequence, hne] using h
  · exact hv.popped_eq

/-! ## The producers' steps -/

section Producers
variable [DecidableEq P]

/-- A producer that gives up slots, or enters a phase it is ready for. -/
theorem Valid.move {s : Ring P B} (hv : s.Valid) (p : P) (q : Producer)
    (hsub : ∀ x, q.Holds x → (s.producer p).Holds x)
    (hwin : q.admitted = true → ∀ x, q.Holds x → x < s.loop.readIdx + queueSize)
    (hb : ∀ base count todo, q = .writing base count todo → ∀ y ∈ todo, y.1 < count)
    (hw : ∀ base count todo, q = .writing base count todo → ∀ i, i < count → ∀ f, (i, f) ∉ todo →
      (s.loop.entries ((base + i) % queueSize)).field f = s.plan (base + i) f)
    (hf : ∀ base count todo, q = .committing base count todo → ∀ i ∈ todo,
      (s.loop.entries ((base + i) % queueSize)).field = s.plan (base + i)) :
    Valid { s with producer := Function.update s.producer p q } := by
  have hold : ∀ {r x}, (Function.update s.producer p q r).Holds x → (s.producer r).Holds x := by
    intro r x h
    by_cases hr : r = p
    · subst hr; rw [Function.update_self] at h; exact hsub x h
    · rwa [Function.update_of_ne hr] at h
  have split : ∀ {Q : Producer → Prop} (r : P), Q (Function.update s.producer p q r) →
      (r = p ∧ Q q) ∨ Q (s.producer r) := by
    intro Q r h
    by_cases hr : r = p
    · subst hr; rw [Function.update_self] at h; exact .inl ⟨rfl, h⟩
    · rw [Function.update_of_ne hr] at h; exact .inr h
  refine ⟨hv.batchOk, hv.read_le, fun r x h => hv.held r x (hold h),
    fun r r' x h h' => hv.unique r r' x (hold h) (hold h'), fun r x ha hh => ?_,
    fun r base count todo h => ?_, hv.committed_lt, hv.below_read, hv.marker, hv.pending,
    fun r base count todo h => ?_, fun r base count todo h => ?_, hv.reader, hv.popped_eq⟩
  · rcases split (Q := fun q => q.admitted = true ∧ q.Holds x) r ⟨ha, hh⟩ with ⟨-, ha, hh⟩ | ⟨ha, hh⟩
    · exact hwin ha x hh
    · exact hv.window r x ha hh
  · rcases split (Q := (· = .writing base count todo)) r h with ⟨-, h⟩ | h
    · exact hb base count todo h
    · exact hv.bounded r base count todo h
  · rcases split (Q := (· = .writing base count todo)) r h with ⟨-, h⟩ | h
    · exact hw base count todo h
    · exact hv.written r base count todo h
  · rcases split (Q := (· = .committing base count todo)) r h with ⟨-, h⟩ | h
    · exact hf base count todo h
    · exact hv.filled r base count todo h

/-- Reserving takes slots above all slots reserved so far. -/
theorem valid_reserve {s : Ring P B} (hv : s.Valid) {p : P} {count : Nat}
    {vals : Nat → Field → Nat} (hidle : s.producer p = .idle) :
    Valid { s with
      writeIdx := s.writeIdx + count
      producer := Function.update s.producer p (.waiting s.writeIdx count)
      plan := fun x =>
        if s.writeIdx ≤ x ∧ x < s.writeIdx + count then vals (x - s.writeIdx) else s.plan x } := by
  have hplan : ∀ x, x < s.writeIdx → (if s.writeIdx ≤ x ∧ x < s.writeIdx + count
      then vals (x - s.writeIdx) else s.plan x) = s.plan x := by
    intro x hx
    rw [if_neg (by omega)]
  have hlow := hv.read_le
  have hold : ∀ {r x}, (Function.update s.producer p (.waiting s.writeIdx count) r).Holds x →
      (r = p ∧ s.writeIdx ≤ x ∧ x < s.writeIdx + count) ∨ (r ≠ p ∧ (s.producer r).Holds x) := by
    intro r x h
    by_cases hr : r = p
    · subst hr; rw [Function.update_self] at h; exact .inl ⟨rfl, h⟩
    · rw [Function.update_of_ne hr] at h; exact .inr ⟨hr, h⟩
  have old : ∀ {r : P} {q : Producer}, (q ≠ .waiting s.writeIdx count) →
      Function.update s.producer p (.waiting s.writeIdx count) r = q → s.producer r = q := by
    intro r q hq h
    by_cases hr : r = p
    · subst hr; rw [Function.update_self] at h; exact absurd h.symm hq
    · rwa [Function.update_of_ne hr] at h
  refine ⟨hv.batchOk, Nat.le_trans hlow (Nat.le_add_right _ _), fun r x h => ?_,
    fun r r' x h h' => ?_, fun r x ha hh => ?_, fun r base c todo h => ?_, fun x h => ?_,
    hv.below_read, hv.marker, fun x hx hc => ?_, fun r base c todo h i hi f hf => ?_,
    fun r base c todo h i hi => ?_, ?_, ?_⟩
  · rcases hold h with ⟨-, h1, h2⟩ | ⟨-, h⟩
    · refine ⟨Nat.le_trans hlow h1, h2, ?_⟩
      by_contra hc
      have := (hv.committed_lt x (by simpa using hc)).1
      omega
    · obtain ⟨h1, h2, h3⟩ := hv.held r x h
      exact ⟨h1, Nat.lt_of_lt_of_le h2 (Nat.le_add_right _ _), h3⟩
  · rcases hold h with ⟨hr, h1, -⟩ | ⟨-, g⟩ <;> rcases hold h' with ⟨hr', h1', -⟩ | ⟨-, g'⟩
    · exact hr.trans hr'.symm
    · have := (hv.held r' x g').2.1; omega
    · have := (hv.held r x g).2.1; omega
    · exact hv.unique r r' x g g'
  · rcases hold hh with ⟨rfl, -, -⟩ | ⟨hr, h⟩
    · change (Function.update s.producer r _ r).admitted = true at ha
      rw [Function.update_self] at ha
      cases ha
    · change (Function.update s.producer p _ r).admitted = true at ha
      rw [Function.update_of_ne hr] at ha
      exact hv.window r x ha h
  · exact hv.bounded r base c todo (old (by simp) h)
  · obtain ⟨h1, h2⟩ := hv.committed_lt x h
    exact ⟨Nat.lt_of_lt_of_le h1 (Nat.le_add_right _ _), h2⟩
  · refine (hv.pending x hx hc).trans (hplan x (hv.committed_lt x hc).1).symm
  · have h := old (by simp) h
    have hheld := hv.held r (base + i) (by rw [h]; exact ⟨by omega, by omega⟩)
    exact (hv.written r base c todo h i hi f hf).trans (congrFun (hplan _ hheld.2.1) f).symm
  · have h := old (by simp) h
    have hheld := hv.held r (base + i) (by rw [h]; exact ⟨i, hi, rfl⟩)
    exact (hv.filled r base c todo h i hi).trans (hplan _ hheld.2.1).symm
  · exact hv.reader.congr rfl rfl id (fun hc => hplan _ (hv.committed_lt _ hc).1) fun _ h => h
  · refine hv.popped_eq.trans (List.map_congr_left fun x hx => ?_)
    have hx := List.mem_range.mp hx
    exact congrArg (Descriptor.ofFields x) (hplan x (Nat.lt_of_lt_of_le hx hlow)).symm

theorem valid_wait {s : Ring P B} (hv : s.Valid) (hb : s.InWords) {p : P} {base count : Nat}
    (hp : s.producer p = .waiting base count)
    (hw : subWord (base + count) s.loop.readIdx ≤ queueSize) :
    Valid { s with producer :=
      Function.update s.producer p (.writing base count (Finset.range count ×ˢ Finset.univ)) } := by
  refine hv.move p _ (fun x hx => by rw [hp]; exact hx) (fun _ x hx => ?_) ?_ ?_ ?_
  · obtain ⟨h1, h2⟩ : base ≤ x ∧ x < base + count := hx
    -- the last reserved slot is above `read_idx`, so the subtraction does not wrap
    obtain ⟨hlo, -, -⟩ := hv.held p (base + count - 1) (by rw [hp]; exact ⟨by omega, by omega⟩)
    obtain ⟨-, hhi, -⟩ := hv.held p (base + count - 1) (by rw [hp]; exact ⟨by omega, by omega⟩)
    rw [subWord_of_le (Nat.lt_of_le_of_lt (by omega) hb.1) (by omega)] at hw
    omega
  · rintro _ _ _ h y hy
    cases h
    exact Finset.mem_range.mp (Finset.mem_product.mp hy).1
  · rintro _ _ _ h i hi f hf
    cases h
    exact absurd (Finset.mem_product.mpr ⟨Finset.mem_range.mpr hi, Finset.mem_univ f⟩) hf
  · rintro _ _ _ h
    cases h

theorem valid_write {s : Ring P B} (hv : s.Valid) {p : P} {base count : Nat}
    {todo : Finset (Nat × Field)} (hp : s.producer p = .writing base count todo) {i : Nat}
    {f : Field} (hi : (i, f) ∈ todo) :
    Valid { s with
      loop := s.loop.storeField (word (base + i) % queueSize) f (s.plan (base + i) f)
      producer := Function.update s.producer p (.writing base count (todo.erase (i, f))) } := by
  have hlt := hv.bounded p base count todo hp _ hi
  have ha : (s.producer p).admitted = true := by rw [hp]; rfl
  have hh : (s.producer p).Holds (base + i) := by rw [hp]; exact ⟨by omega, by simpa using hlt⟩
  rw [word_mod_queueSize]
  have hv' := valid_store hv f ha hh
  refine hv'.move p _ (fun x hx => by rw [hp]; exact hx) (fun _ x hx => ?_) ?_ ?_ ?_
  · exact hv.window p x ha (by rw [hp]; exact hx)
  · rintro _ _ _ h y hy
    cases h
    exact hv.bounded p base count todo hp y (Finset.mem_of_mem_erase hy)
  · rintro _ _ _ h j hj g hg
    cases h
    by_cases he : (j, g) = (i, f)
    · cases he
      simp [Loop.storeField]
    · exact hv'.written p base count todo hp j hj g fun hm =>
        hg (Finset.mem_erase.mpr ⟨he, hm⟩)
  · rintro _ _ _ h
    cases h

theorem valid_fence {s : Ring P B} (hv : s.Valid) {p : P} {base count : Nat}
    (hp : s.producer p = .writing base count ∅) :
    Valid { s with producer :=
      Function.update s.producer p (.committing base count (Finset.range count)) } := by
  have ha : (s.producer p).admitted = true := by rw [hp]; rfl
  have hsub : ∀ x, (Producer.committing base count (Finset.range count)).Holds x →
      (s.producer p).Holds x := by
    rintro x ⟨i, hi, rfl⟩
    rw [hp]
    exact ⟨by omega, Nat.add_lt_add_left (Finset.mem_range.mp hi) _⟩
  refine hv.move p _ hsub (fun _ x hx => hv.window p x ha (hsub x hx)) ?_ ?_ ?_
  · rintro _ _ _ h
    cases h
  · rintro _ _ _ h
    cases h
  · rintro _ _ _ h i hi
    cases h
    exact funext fun f =>
      hv.written p base count ∅ hp i (Finset.mem_range.mp hi) f (Finset.notMem_empty _)

theorem valid_commit {s : Ring P B} (hv : s.Valid) (hb : s.InWords) {p : P} {base count : Nat}
    {todo : Finset Nat} (hp : s.producer p = .committing base count todo) {i : Nat}
    (hi : i ∈ todo) :
    Valid { s with
      loop := s.loop.storeSequence (word (base + i) % queueSize) (word (base + i + 1))
      producer := Function.update s.producer p (.committing base count (todo.erase i))
      committed := Function.update s.committed (base + i) true } := by
  have ha : (s.producer p).admitted = true := by rw [hp]; rfl
  have hh : (s.producer p).Holds (base + i) := by rw [hp]; exact ⟨i, hi, rfl⟩
  have hsub : ∀ x, (Producer.committing base count (todo.erase i)).Holds x →
      (s.producer p).Holds x := by
    rintro x ⟨j, hj, rfl⟩
    rw [hp]
    exact ⟨j, Finset.mem_of_mem_erase hj, rfl⟩
  have hmoved := hv.move p (.committing base count (todo.erase i)) hsub
    (fun _ x hx => hv.window p x ha (hsub x hx)) (by rintro _ _ _ h; cases h)
    (by rintro _ _ _ h; cases h) (by
      rintro _ _ _ h j hj
      cases h
      exact hv.filled p base count todo hp j (Finset.mem_of_mem_erase hj))
  obtain ⟨h1, h2, h3⟩ := hv.held p _ hh
  rw [word_mod_queueSize]
  refine valid_mark hmoved hb h1 h2 (hv.window p _ ha hh) (fun q hq => ?_) h3
    (hv.filled p base count todo hp i hi)
  -- whoever still holds the slot is `p`, and `p` has just given it up
  change (Function.update s.producer p _ q).Holds (base + i) at hq
  by_cases hqp : q = p
  · subst hqp
    rw [Function.update_self] at hq
    obtain ⟨j, hj, he⟩ := hq
    exact Finset.ne_of_mem_erase hj (by omega)
  · rw [Function.update_of_ne hqp] at hq
    exact hqp (hv.unique q p _ hq hh)

theorem valid_release {s : Ring P B} (hv : s.Valid) (p : P) :
    Valid { s with producer := Function.update s.producer p .idle } :=
  hv.move p .idle (fun _ h => h.elim) (fun h => by cases h) (by rintro _ _ _ h; cases h)
    (by rintro _ _ _ h; cases h) (by rintro _ _ _ h; cases h)

end Producers

/-! ## The polling thread's steps -/

/-- A step of the polling thread that does not publish: the entries keep their
fields, and a sequence is kept or cleared. -/
theorem Valid.loop {s : Ring P B} (hv : s.Valid) {l : Loop B} (hb : l.BatchOk)
    (hr : l.readIdx = s.loop.readIdx) (hp : l.popped = s.loop.popped)
    (hfield : ∀ c, (l.entries c).field = (s.loop.entries c).field)
    (hseq : ∀ c, (l.entries c).sequence ≠ 0 → (l.entries c).sequence = (s.loop.entries c).sequence)
    (hreader : Reader { s with loop := l }) : Valid { s with loop := l } := by
  refine ⟨hb, hr ▸ hv.read_le, hr ▸ hv.held, hv.unique, hr ▸ hv.window, hv.bounded,
    hr ▸ hv.committed_lt, hr ▸ hv.below_read, fun c h => ?_, fun x hx hc => ?_,
    fun p base count todo h i hi f hf => ?_, fun p base count todo h i hi => ?_, hreader, ?_⟩
  · obtain ⟨x, h1, h2, h3, h4⟩ := hv.marker c (hseq c h ▸ h)
    exact ⟨x, hr.trans_le h1, h2, h3, (hseq c h).trans h4⟩
  · exact (hfield _).trans (hv.pending x (hr ▸ hx) hc)
  · exact (congrFun (hfield _) f).trans (hv.written p base count todo h i hi f hf)
  · exact (hfield _).trans (hv.filled p base count todo h i hi)
  · show l.popped = (List.range l.readIdx).map s.descriptor
    rw [hp, hr]
    exact hv.popped_eq

/-- The entry the polling thread finds ready is the committed one of its slot. -/
theorem Valid.committed_of_ready {s : Ring P B} (hv : s.Valid) (hb : s.InWords)
    (h : s.loop.ready = true) : s.committed s.loop.readIdx = true := by
  have hw : s.loop.entry.sequence = s.loop.readIdx + 1 := by
    have := beq_iff_eq.mp h
    rwa [word_of_lt hb.2] at this
  obtain ⟨x, -, hc, -, hx⟩ := hv.marker (s.loop.readIdx % queueSize) (hw ▸ Nat.succ_ne_zero _)
  obtain rfl : x = s.loop.readIdx := Nat.succ.inj (hx.symm.trans hw)
  exact hc

/-- Publishing `read_idx` gives the popped slot up. -/
theorem Valid.publish {s : Ring P B} (hv : s.Valid) {l : Loop B} (hb : l.BatchOk) {drain : Bool}
    {got : Field → Nat} (hpc : s.loop.pc = .publish drain got) (he : l.entries = s.loop.entries)
    (hr : l.readIdx = s.loop.readIdx + 1)
    (hp : l.popped = s.loop.popped ++ [Descriptor.ofFields s.loop.readIdx got])
    (hpop : l.pc.popping = false) : Valid { s with loop := l } := by
  have hreader := hv.reader
  unfold Reader at hreader
  rw [hpc] at hreader
  obtain ⟨hc, hgot, hzero⟩ := hreader
  have habove : ∀ x, s.loop.readIdx ≤ x → x ≠ s.loop.readIdx → l.readIdx ≤ x := by
    intro x hx hne
    omega
  refine ⟨hb, ?_, fun p x h => ?_, hv.unique, fun p x ha h => ?_, hv.bounded, fun x h => ?_,
    fun x h => ?_, fun c h => ?_, fun x hx hc => ?_, ?_, ?_, ?_, ?_⟩
  · exact hr ▸ (hv.committed_lt _ hc).1
  · obtain ⟨h1, h2, h3⟩ := hv.held p x h
    refine ⟨habove x h1 fun hx => ?_, h2, h3⟩
    rw [hx, hc] at h3
    cases h3
  · have := hv.window p x ha h
    show x < l.readIdx + queueSize
    omega
  · obtain ⟨h1, h2⟩ := hv.committed_lt x h
    exact ⟨h1, show x < l.readIdx + queueSize by omega⟩
  · rcases Nat.lt_succ_iff_lt_or_eq.mp (show x < s.loop.readIdx + 1 from hr ▸ h) with h | rfl
    · exact hv.below_read x h
    · exact hc
  · change (l.entries c).sequence ≠ 0 at h
    rw [he] at h
    obtain ⟨x, h1, h2, h3, h4⟩ := hv.marker c h
    refine ⟨x, habove x h1 fun hx => h ?_, h2, h3, ?_⟩
    · rw [← h3, hx]
      exact hzero
    · show (l.entries c).sequence = x + 1
      rw [he, h4]
  · show (l.entries _).field = _
    rw [he]
    exact hv.pending x (by have : l.readIdx ≤ x := hx; omega) hc
  · show ∀ p base count todo, s.producer p = .writing base count todo → ∀ i, i < count → ∀ f,
      (i, f) ∉ todo → (l.entries ((base + i) % queueSize)).field f = s.plan (base + i) f
    rw [he]
    exact hv.written
  · show ∀ p base count todo, s.producer p = .committing base count todo → ∀ i ∈ todo,
      (l.entries ((base + i) % queueSize)).field = s.plan (base + i)
    rw [he]
    exact hv.filled
  · unfold Reader
    dsimp only
    split <;> simp_all [Pc.popping]
  · show l.popped = (List.range l.readIdx).map s.descriptor
    rw [hp, hr, List.range_succ, List.map_append, hv.popped_eq, hgot]
    rfl

theorem valid_loop {s : Ring P B} (hv : s.Valid) (hb : s.InWords) {l : Loop B} {a : Loop.Act B}
    (h : s.loop.step a = some l) : Valid { s with loop := l } := by
  have hok := Loop.batchOk_step hv.batchOk h
  have hreader := hv.reader
  have same : ∀ {l : Loop B}, l.entries = s.loop.entries →
      (∀ c, (l.entries c).field = (s.loop.entries c).field) ∧
      ∀ c, (l.entries c).sequence ≠ 0 → (l.entries c).sequence = (s.loop.entries c).sequence :=
    fun he => ⟨fun c => by rw [he], fun c _ => by rw [he]⟩
  cases Loop.step_effect hv.batchOk h with
  | stay he hr hp hpc =>
    refine hv.loop hok hr hp (same he).1 (same he).2 ?_
    exact hreader.congr hpc hr id (fun _ => rfl) fun _ h => by
      simpa [Loop.entry, he, hr] using h
  | plain he hr hp hs ht =>
    refine hv.loop hok hr hp (same he).1 (same he).2 ?_
    unfold Reader
    dsimp only
    split <;> simp_all [Pc.popping]
  | begin drain he hr hp hready hs ht =>
    refine hv.loop hok hr hp (same he).1 (same he).2 ?_
    have hc := hv.committed_of_ready hb hready
    unfold Reader
    simp only [ht, hr]
    exact ⟨hc, fun f hf => absurd (Finset.mem_univ f) hf⟩
  | load drain todo got f he hr hp hs ht =>
    refine hv.loop hok hr hp (same he).1 (same he).2 ?_
    unfold Reader at hreader ⊢
    simp only [hs] at hreader
    simp only [ht, hr]
    refine ⟨hreader.1, fun g hg => ?_⟩
    by_cases hgf : g = f
    · subst hgf
      rw [Function.update_self]
      exact congrFun (hv.pending _ (Nat.le_refl _) hreader.1) g
    · rw [Function.update_of_ne hgf]
      exact hreader.2 g fun hm => hg (Finset.mem_erase.mpr ⟨hgf, hm⟩)
  | copied drain got he hr hp hs ht =>
    refine hv.loop hok hr hp (same he).1 (same he).2 ?_
    unfold Reader at hreader ⊢
    simp only [hs] at hreader
    have hgot : got = s.plan s.loop.readIdx :=
      funext fun f => hreader.2 f (Finset.notMem_empty f)
    cases drain <;> simp only [ht, hr, Bool.false_eq_true, if_true, if_false] <;>
      exact ⟨hreader.1, hgot⟩
  | merged got he hr hp hs ht =>
    refine hv.loop hok hr hp (same he).1 (same he).2 ?_
    unfold Reader at hreader ⊢
    simp only [hs] at hreader
    simpa only [ht, hr] using hreader
  | cleared drain got he hr hp hs ht =>
    have hentry : ∀ c, l.entries c = (s.loop.storeSequence (s.loop.readIdx % queueSize) 0).entries c :=
      fun c => by rw [he]
    refine hv.loop hok hr hp (fun c => ?_) (fun c hc => ?_) ?_
    · rw [hentry]
      simp only [Loop.storeSequence, Function.update_apply]
      split <;> simp [*]
    · rw [hentry] at hc ⊢
      simp only [Loop.storeSequence, Function.update_apply] at hc ⊢
      split
      · simp_all
      · rfl
    · unfold Reader at hreader ⊢
      simp only [hs] at hreader
      simp only [ht, hr]
      refine ⟨hreader.1, hreader.2, ?_⟩
      simp [Loop.entry, he, hr, Loop.storeSequence]
  | published drain got he hr hp hs ht => exact hv.publish hok hs he hr hp ht

/-! ## Every run -/

variable [DecidableEq P]

theorem valid_step {s t : Ring P B} (hv : s.Valid) (hb : s.InWords) {a : Act P B}
    (h : s.step a = some t) : t.Valid := by
  cases a with
  | reserve p count vals =>
    simp only [step] at h
    split at h
    · cases h; exact valid_reserve hv ‹_›
    · cases h
  | wait p =>
    simp only [step] at h
    split at h
    · split at h
      · cases h; exact valid_wait hv hb ‹_› ‹_›
      · cases h
    · cases h
  | write p i f =>
    simp only [step] at h
    split at h
    · split at h
      · cases h; exact valid_write hv ‹_› ‹_›
      · cases h
    · cases h
  | fence p =>
    simp only [step] at h
    split at h
    · split at h
      · subst_vars; cases h; exact valid_fence hv ‹_›
      · cases h
    · cases h
  | commit p i =>
    simp only [step] at h
    split at h
    · split at h
      · cases h; exact valid_commit hv hb ‹_› ‹_›
      · cases h
    · cases h
  | release p =>
    simp only [step] at h
    split at h
    · split at h
      · cases h; exact valid_release hv p
      · cases h
    · cases h
  | loop a =>
    obtain ⟨l, hl, rfl⟩ := Option.map_eq_some_iff.mp h
    exact valid_loop hv hb hl

theorem writeIdx_le {s t : Ring P B} {a : Act P B} (h : s.step a = some t) :
    s.writeIdx ≤ t.writeIdx := by
  cases a <;> simp only [step] at h
  case reserve =>
    split at h
    · cases h; exact Nat.le_add_right _ _
    · cases h
  case loop => obtain ⟨l, -, rfl⟩ := Option.map_eq_some_iff.mp h; exact Nat.le_refl _
  all_goals
    split at h
    · split at h <;> cases h
      exact Nat.le_refl _
    · cases h

theorem readIdx_le {s t : Ring P B} {a : Act P B} (h : s.step a = some t) :
    s.loop.readIdx ≤ t.loop.readIdx := by
  cases a <;> simp only [step] at h
  case reserve =>
    split at h
    · cases h; exact Nat.le_refl _
    · cases h
  case loop => obtain ⟨l, hl, rfl⟩ := Option.map_eq_some_iff.mp h; exact Loop.readIdx_le hl
  all_goals
    split at h
    · split at h <;> cases h
      exact Nat.le_refl _
    · cases h

theorem InWords.back {s t : Ring P B} {a : Act P B} (h : s.step a = some t) (hb : t.InWords) :
    s.InWords :=
  ⟨Nat.lt_of_le_of_lt (writeIdx_le h) hb.1,
    Nat.lt_of_le_of_lt (Nat.succ_le_succ (readIdx_le h)) hb.2⟩

/-- The invariant holds in every run, as long as the indices fit their words. -/
theorem valid_of_reachable {b : B.State} {s : Ring P B}
    (h : ReachableFrom step (init b) s) (hb : s.InWords) : s.Valid :=
  h.invariant_while (by rintro _ rfl; exact valid_init b) (fun _ _ _ hs ht => InWords.back hs ht)
    (fun _ _ _ hv _ hs ht => valid_step hv (InWords.back hs ht) hs) hb

/-- The slot whose cell a producer's step stores to. -/
def stores (s : Ring P B) : Act P B → Option Nat
  | .write p i _ =>
    match s.producer p with
    | .writing base _ _ => some (base + i)
    | _ => none
  | .commit p i =>
    match s.producer p with
    | .committing base _ _ => some (base + i)
    | _ => none
  | _ => none

/-- A slot stored to is held past the backpressure test. -/
theorem Valid.holds_of_stores {s t : Ring P B} (hv : s.Valid) {a : Act P B} {x : Nat}
    (h : s.step a = some t) (hx : s.stores a = some x) :
    ∃ p, (s.producer p).admitted = true ∧ (s.producer p).Holds x := by
  cases a with
  | write p i f =>
    simp only [stores] at hx
    split at hx
    · rename_i base count todo hp
      cases hx
      simp only [step, hp] at h
      split at h
      · rename_i hi
        have := hv.bounded p base count todo hp _ hi
        exact ⟨p, by rw [hp]; rfl, by rw [hp]; exact ⟨by omega, by simpa using this⟩⟩
      · cases h
    · cases hx
  | commit p i =>
    simp only [stores] at hx
    split at hx
    · rename_i base count todo hp
      cases hx
      simp only [step, hp] at h
      split at h
      · exact ⟨p, by rw [hp]; rfl, by rw [hp]; exact ⟨i, ‹_›, rfl⟩⟩
      · cases h
    · cases hx
  | _ => cases hx

/-- The hand-over is exactly once and in order: every slot below `read_idx` was
committed, and what has been popped is the descriptors of those slots as their
producers wrote them. -/
structure HandOver (s : Ring P B) : Prop where
  committed : ∀ x, x < s.loop.readIdx → s.committed x = true
  popped : s.loop.popped = (List.range s.loop.readIdx).map s.descriptor
  /-- No producer stores to a cell whose descriptor of an earlier lap has not
  been popped. -/
  preserved : ∀ a t x, s.step a = some t → s.stores a = some x →
    ∀ y, y < x → y % queueSize = x % queueSize → y < s.loop.readIdx
  /-- `base + count - read_idx` does not underflow. -/
  subtraction : ∀ p base count, s.producer p = .waiting base count → 0 < count →
    word s.loop.readIdx ≤ word (base + count)
  batchCount : s.loop.batch.length ≤ maxBatchSize

theorem handOver_of_valid {s : Ring P B} (hv : s.Valid) (hb : s.InWords) : s.HandOver := by
  have hlow := hv.read_le
  obtain ⟨hW, hR⟩ := hb
  refine ⟨hv.below_read, hv.popped_eq, fun a t x h hx y hy hc => ?_, fun p base count hp hpos => ?_,
    hv.batchOk.length_le⟩
  · obtain ⟨p, ha, hh⟩ := hv.holds_of_stores h hx
    have hlo := (hv.held p x hh).1
    have hw := hv.window p x ha hh
    by_contra hle
    have := cell_inj (Nat.le_of_not_lt hle) (by omega) hlo hw hc
    omega
  · obtain ⟨h1, h2, -⟩ := hv.held p (base + count - 1) (by rw [hp]; exact ⟨by omega, by omega⟩)
    rw [word_of_lt (by omega), word_of_lt (by omega)]
    omega

/-- **The descriptor ring hands over exactly once, in slot order**, in every run
whose indices have not wrapped. -/
theorem handOver_of_reachable {b : B.State} {s : Ring P B}
    (h : ReachableFrom step (init b) s) (hb : s.InWords) : s.HandOver :=
  handOver_of_valid (valid_of_reachable h hb) hb

/-! ## Progress of a lone producer and of the polling thread -/

section Progress
variable {b : B.State} {s : Ring P B} {p : P} {x n : Nat}

theorem step_reserve (hp : s.producer p = .idle) (vals : Nat → Field → Nat) :
    s.step (.reserve p n vals) = some { s with
      writeIdx := s.writeIdx + n
      producer := Function.update s.producer p (.waiting s.writeIdx n)
      plan := fun k =>
        if s.writeIdx ≤ k ∧ k < s.writeIdx + n then vals (k - s.writeIdx) else s.plan k } := by
  simp only [step, hp]

theorem step_wait (hp : s.producer p = .waiting x n)
    (hw : subWord (x + n) s.loop.readIdx ≤ queueSize) :
    s.step (.wait p) = some { s with
      producer := Function.update s.producer p
        (.writing x n (Finset.range n ×ˢ Finset.univ)) } := by
  simp only [step, hp, hw, if_true]

theorem step_write {todo : Finset (Nat × Field)} (hp : s.producer p = .writing x n todo)
    {i : Nat} {f : Field} (hi : (i, f) ∈ todo) :
    s.step (.write p i f) = some { s with
      loop := s.loop.storeField (word (x + i) % queueSize) f (s.plan (x + i) f)
      producer := Function.update s.producer p (.writing x n (todo.erase (i, f))) } := by
  simp only [step, hp, hi, if_true]

theorem step_fence (hp : s.producer p = .writing x n ∅) :
    s.step (.fence p) = some { s with
      producer := Function.update s.producer p (.committing x n (Finset.range n)) } := by
  simp only [step, hp, if_true]

theorem step_commit {r : Finset Nat} (hp : s.producer p = .committing x n r)
    {i : Nat} (hi : i ∈ r) :
    s.step (.commit p i) = some { s with
      loop := s.loop.storeSequence (word (x + i) % queueSize) (word (x + i + 1))
      producer := Function.update s.producer p (.committing x n (r.erase i))
      committed := Function.update s.committed (x + i) true } := by
  simp only [step, hp, hi, if_true]

theorem step_release (hp : s.producer p = .committing x n ∅) :
    s.step (.release p) = some { s with producer := Function.update s.producer p .idle } := by
  simp only [step, hp, if_true]

/-- A producer can store what it has left. -/
theorem exists_written (h : ReachableFrom step (init b) s) (todo : Finset (Nat × Field))
    (hp : s.producer p = .writing x n todo) :
    ∃ t, ReachableFrom step (init b) t ∧ t.producer p = .writing x n ∅ ∧
      t = { s with loop := { s.loop with entries := t.loop.entries }, producer := t.producer } ∧
      ∀ c, (t.loop.entries c).sequence = (s.loop.entries c).sequence := by
  induction todo using Finset.induction_on generalizing s with
  | empty => exact ⟨s, h, hp, rfl, fun _ => rfl⟩
  | insert a todo ha ih =>
    obtain ⟨i, f⟩ := a
    have hs := step_write hp (Finset.mem_insert_self (i, f) todo)
    rw [Finset.erase_insert ha] at hs
    obtain ⟨t, ht, h1, h2, h3⟩ := ih (h.step _ trivial hs) (by simp)
    refine ⟨t, ht, h1, h2, fun c => (h3 c).trans ?_⟩
    simp only [Loop.storeField, Function.update_apply]
    split <;> simp [*]

/-- A producer for whose slot there is room can produce it. -/
theorem exists_produced (h : ReachableFrom step (init b) s) (hp : s.producer p = .idle)
    (hw : subWord (s.writeIdx + 1) s.loop.readIdx ≤ queueSize) (vals : Field → Nat) :
    ∃ t, ReachableFrom step (init b) t ∧ t.writeIdx = s.writeIdx + 1 ∧ t.producer p = .idle ∧
      t.loop = { s.loop with entries := t.loop.entries } ∧
      (∀ c, (t.loop.entries c).sequence =
        if c = s.writeIdx % queueSize then word (s.writeIdx + 1)
        else (s.loop.entries c).sequence) ∧
      t.committed = Function.update s.committed s.writeIdx true ∧ t.plan s.writeIdx = vals := by
  have h1 := h.step _ trivial (step_reserve (n := 1) hp fun _ => vals)
  have h2 := h1.step _ trivial
    (step_wait (p := p) (x := s.writeIdx) (n := 1) (by exact Function.update_self ..) hw)
  obtain ⟨t, h3, hp, ht, hseq⟩ := exists_written (p := p) (x := s.writeIdx) (n := 1) h2 _
    (by exact Function.update_self ..)
  have h4 := h3.step _ trivial (step_fence hp)
  have h5 := h4.step _ trivial (step_commit (p := p) (x := s.writeIdx) (n := 1)
    (r := Finset.range 1) (i := 0) (by exact Function.update_self ..) (by decide))
  have h6 := h5.step _ trivial (step_release (p := p) (x := s.writeIdx) (n := 1)
    (by exact Function.update_self ..))
  refine ⟨_, h6, ?_, Function.update_self .., ?_, fun c => ?_, ?_, ?_⟩
  · rw [ht]
  · rw [ht]; rfl
  · simp only [Loop.storeSequence, Function.update_apply, Nat.add_zero, word_mod_queueSize]
    split
    · rfl
    · exact hseq c
  · rw [ht]; rfl
  · rw [ht]; simp

theorem step_loop {a : Loop.Act B} {l : Loop B} (h : s.loop.step a = some l) :
    s.step (.loop a) = some { s with loop := l } := by simp only [step, h, Option.map_some]

/-- The polling thread can finish copying an entry. -/
theorem exists_copied {drain : Bool} (todo : Finset Field) (got : Field → Nat)
    (h : ReachableFrom step (init b) s) (hpc : s.loop.pc = .copy drain todo got) :
    ∃ got', ReachableFrom step (init b) { s with loop := { s.loop with pc := .copy drain ∅ got' } } := by
  induction todo using Finset.induction_on generalizing s got with
  | empty => exact ⟨got, hpc ▸ h⟩
  | insert f todo hf ih =>
    have hl : s.loop.step (.load f) = some { s.loop with
        pc := .copy drain todo (Function.update got f (s.loop.entry.field f)) } := by
      simp [Loop.step, hpc, hf]
    obtain ⟨got', h'⟩ := ih _ (h.step _ trivial (step_loop hl)) rfl
    exact ⟨got', h'⟩

/-- The polling thread takes an entry it finds ready and clears its sequence. -/
theorem exists_cleared (h : ReachableFrom step (init b) s) (hpc : s.loop.pc = .top)
    (hrun : s.loop.running = true) (hready : s.loop.ready = true) :
    ∃ got, ReachableFrom step (init b) { s with
      loop := { s.loop.storeSequence (s.loop.readIdx % queueSize) 0 with
        orFlags := s.loop.orFlags ||| s.loop.entry.field .flags
        pc := .publish false got } } := by
  have h1 := h.step (.loop .poll) trivial
    (step_loop (l := { s.loop with pc := .peek false }) (by simp [Loop.step, Loop.poll, hpc, hrun]))
  have h2 := h1.step (.loop .poll) trivial
    (step_loop (l := { s.loop with pc := .copy false Finset.univ fun _ => 0 }) (by
      have : ({ s.loop with pc := .peek false } : Loop B).ready = true := hready
      simp [Loop.step, Loop.poll, this]))
  obtain ⟨got, h3⟩ := exists_copied _ _ h2 rfl
  have h4 := h3.step (.loop .poll) trivial (step_loop (l := { s.loop with pc := .mergeFlags got }) rfl)
  have h5 := h4.step (.loop .poll) trivial (step_loop (l := { s.loop with
    orFlags := s.loop.orFlags ||| s.loop.entry.field .flags
    pc := .clear false got }) rfl)
  exact ⟨got, h5.step (.loop .poll) trivial (step_loop rfl)⟩

end Progress

/-! ## Up to the last word, and past it -/

/-- Between two tiles of one producer: `n` slots have been reserved, committed
and popped. -/
structure Rest (n : Nat) (s : Ring Unit Backend.noop) : Prop where
  reachable : ReachableFrom step (init ()) s
  writeIdx : s.writeIdx = n
  readIdx : s.loop.readIdx = n
  producer : s.producer () = .idle
  running : s.loop.running = true
  pc : s.loop.pc = .top
  batch : s.loop.batch = []
  sequence : ∀ c, (s.loop.entries c).sequence = 0
  committed : ∀ x, s.committed x = true → x < n

theorem rest_zero : Rest 0 (init ()) :=
  ⟨.initial rfl, rfl, rfl, rfl, rfl, rfl, rfl, fun _ => rfl, fun _ h => by cases h⟩

/-- The fields of a one-descriptor tile. -/
def tile : Field → Nat
  | .flags => flagLastInTile
  | _ => 0

theorem Rest.succ {n : Nat} {s : Ring Unit Backend.noop} (hs : Rest n s) (hn : n + 1 < wordSize) :
    ∃ t, Rest (n + 1) t := by
  have hw : subWord (s.writeIdx + 1) s.loop.readIdx ≤ queueSize := by
    rw [hs.writeIdx, hs.readIdx, subWord_add_left (by decide)]
    decide
  obtain ⟨t, ht, hW, hp, hl, hseq, hc, hplan⟩ := exists_produced hs.reachable hs.producer hw tile
  rw [hs.writeIdx] at hW hseq hc hplan
  have hr : t.loop.readIdx = n := by rw [hl]; exact hs.readIdx
  have hv := valid_of_reachable ht ⟨hW ▸ hn, hr ▸ hn⟩
  have hready : t.loop.ready = true := by simp [Loop.ready, Loop.entry, hr, hseq]
  have hfield : t.loop.entry.field = tile := by
    rw [Loop.entry, hr, hv.pending n (Nat.le_of_eq hr) (by simp [hc]), hplan]
  obtain ⟨got, h1⟩ := exists_cleared ht (by rw [hl]; exact hs.pc) (by rw [hl]; exact hs.running) hready
  have hflag : hasFlag (t.loop.orFlags ||| t.loop.entry.field .flags) flagLastInTile = true := by
    rw [hfield, hasFlag_or]
    simp [tile, hasFlag, flagLastInTile]
  have h2 := h1.step (.loop .poll) trivial (step_loop (congrArg some
    (Loop.afterPublish_lastInTile (B := Backend.noop) rfl hflag)))
  have h3 := h2.step (.loop .poll) trivial (step_loop rfl)
  refine ⟨_, h3, hW, by exact congrArg (· + 1) hr, hp, ?_, rfl, rfl, fun c => ?_, fun x hx => ?_⟩
  · show t.loop.running = true
    rw [hl]; exact hs.running
  · show ((t.loop.storeSequence (t.loop.readIdx % queueSize) 0).entries c).sequence = 0
    simp only [Loop.storeSequence, Function.update_apply, hr]
    split
    · rfl
    · rw [hseq, if_neg ‹_›]
      exact hs.sequence c
  · change t.committed x = true at hx
    rw [hc] at hx
    by_cases hxn : x = n
    · omega
    · rw [Function.update_of_ne hxn] at hx
      exact Nat.lt_succ_of_lt (hs.committed x hx)

theorem exists_rest (n : Nat) (hn : n < wordSize) : ∃ s, Rest n s := by
  induction n with
  | zero => exact ⟨_, rest_zero⟩
  | succ n ih =>
    obtain ⟨s, hs⟩ := ih (by omega)
    exact hs.succ (by omega)

/-- When `2 ^ 64 - 1` slots have been popped, the next expected sequence is the
word `0` that a consumed entry carries: the polling thread pops a slot nobody
has reserved. -/
theorem exists_not_handOver : ∃ s : Ring Unit Backend.noop, ReachableFrom step (init ()) s ∧
    s.writeIdx = 2 ^ 64 - 1 ∧ s.loop.readIdx = 2 ^ 64 ∧ ¬ s.HandOver := by
  obtain ⟨s, hs⟩ := exists_rest (2 ^ 64 - 1) (by decide)
  have hready : s.loop.ready = true := by
    simp [Loop.ready, Loop.entry, hs.sequence, hs.readIdx, word, wordSize]
  obtain ⟨got, h1⟩ := exists_cleared hs.reachable hs.pc hs.running hready
  have h2 := h1.step (.loop .poll) trivial (step_loop rfl)
  obtain ⟨t, ht, hr, hW, hc⟩ : ∃ t : Ring Unit Backend.noop, ReachableFrom step (init ()) t ∧
      t.loop.readIdx = 2 ^ 64 ∧ t.writeIdx = s.writeIdx ∧ t.committed = s.committed :=
    ⟨_, h2, (Loop.afterPublish_readIdx _).trans (congrArg (· + 1) hs.readIdx), rfl, rfl⟩
  refine ⟨t, ht, hW.trans hs.writeIdx, hr, fun h => ?_⟩
  -- slot `2 ^ 64 - 1` lies below `read_idx` and was never committed
  have := hs.committed _ (hc ▸ h.committed (2 ^ 64 - 1) (by rw [hr]; decide))
  exact absurd this (Nat.lt_irrefl _)

/-- A run of one slot more than the ring has cells, and what the theorem says of its end. -/
theorem handOver_of_reachable_reused : ∃ s : Ring Unit Backend.noop, s.writeIdx = queueSize + 1 ∧
    s.loop.readIdx = queueSize + 1 ∧ s.HandOver := by
  obtain ⟨s, hs⟩ := exists_rest (queueSize + 1) (by decide)
  refine ⟨s, hs.writeIdx, hs.readIdx, handOver_of_reachable hs.reachable ⟨?_, ?_⟩⟩
  · rw [hs.writeIdx]; decide
  · rw [hs.readIdx]; decide

end Ring
end Gfd
