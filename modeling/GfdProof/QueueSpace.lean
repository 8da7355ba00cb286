import GfdProof.DescriptorRing

/-! # Waiting for queue space

`wait_queue_space(needed)` of `device_primitives.cuh`: lane 0 of a warp loads
`write_idx`, loads `read_idx`, and goes on when
`write_idx - read_idx < QUEUE_SIZE - needed * 2`.  The left side is a 64-bit word and the
right side a 32-bit one.  Then `acquire_chunk_slots` reserves the slots by an `atomicAdd`,
and `write_chunk` and `commit_chunk` store to them with no further test.

Nothing is reserved by the test.  What it sees is room for twice the `needed` slots, so
that there is room for them when they are taken if at most `needed` others have been taken
since `write_idx` was loaded (`Fits`, `Ok.room`); then the ring is the one of
`DescriptorRing` (`ok_step`).  And the bound is a number of slots only while `needed * 2`
is below the ring size: at half of it the test never passes, and beyond it always does.
-/
namespace Gfd

open Transition

/-- `QUEUE_SIZE - needed * 2`, in unsigned 32-bit arithmetic. -/
def spaceBound (needed : Nat) : Nat := (queueSize + 2 ^ 32 - needed * 2 % 2 ^ 32) % 2 ^ 32

/-- The test of `wait_queue_space`. -/
def hasSpace (needed w r : Nat) : Bool := decide (subWord w r < spaceBound needed)

/-- A warp before it has slots.  `vals` is what it is about to write. -/
inductive SpaceWarp
  /-- Not in these calls. -/
  | out
  /-- In `wait_queue_space`, about to load `write_idx`. -/
  | loadWrite (needed : Nat) (vals : Nat → Field → Nat)
  /-- About to load `read_idx` and compare. -/
  | loadRead (needed : Nat) (vals : Nat → Field → Nat) (w : Nat)
  /-- Returned with the `write_idx` it has compared; about to call `acquire_chunk_slots`. -/
  | acquire (needed : Nat) (vals : Nat → Field → Nat) (w : Nat)

/-- The argument of the call the warp is in. -/
def SpaceWarp.needed : SpaceWarp → Option Nat
  | .out => none
  | .loadWrite n _ | .loadRead n _ _ | .acquire n _ _ => some n

/-- The ring, and the warps that have yet to take their slots in it. -/
structure QueueSpace (P : Type) (B : Backend) where
  ring : Ring P B
  warp : P → SpaceWarp

variable {P : Type} {B : Backend}

/-- A step that takes slots or tests for room: what this module has steps of its own for. -/
def Ring.Act.admits : Ring.Act P B → Bool
  | .reserve .. | .wait _ => true
  | _ => false

/-- What a producer's stores and the polling thread leave alone: no slot is taken, and a producer
only gives slots up. -/
structure Ring.Keeps (r r' : Ring P B) : Prop where
  writeIdx : r'.writeIdx = r.writeIdx
  plan : r'.plan = r.plan
  holds : ∀ p x, (r'.producer p).Holds x → (r.producer p).Holds x
  idle : ∀ p, r.producer p = .idle → r'.producer p = .idle
  waiting : ∀ p base count, r'.producer p = .waiting base count → r.producer p = .waiting base count

/-- One producer past the test goes on. -/
theorem Ring.Keeps.update [DecidableEq P] {r r' : Ring P B} {p : P} {q : Producer}
    (hw : r'.writeIdx = r.writeIdx) (hplan : r'.plan = r.plan)
    (hr : r'.producer = Function.update r.producer p q) (hp : r.producer p ≠ .idle)
    (hq : ∀ x, q.Holds x → (r.producer p).Holds x) (hn : ∀ base count, q ≠ .waiting base count) :
    r.Keeps r' := by
  refine ⟨hw, hplan, fun o x h => ?_, fun o h => ?_, fun o base count h => ?_⟩
  all_goals
    rw [hr] at *
    by_cases ho : o = p
    · subst ho
      rw [Function.update_self] at *
      first
        | exact hq x h
        | exact absurd h hp
        | exact absurd h (hn base count)
    · rw [Function.update_of_ne ho] at *
      exact h

theorem Ring.keeps_of_step [DecidableEq P] {r r' : Ring P B} {a : Ring.Act P B}
    (ha : a.admits = false) (h : r.step a = some r') : r.Keeps r' := by
  cases a with
  | reserve | wait => cases ha
  | loop a =>
    obtain ⟨l, -, rfl⟩ := Option.map_eq_some_iff.mp h
    exact ⟨rfl, rfl, fun _ _ h => h, fun _ h => h, fun _ _ _ h => h⟩
  | write p i f =>
    simp only [Ring.step] at h
    split at h
    · rename_i hp
      split at h
      · cases h
        exact .update rfl rfl rfl (by rw [hp]; simp) (fun x hx => by rw [hp]; exact hx) (by simp)
      · cases h
    · cases h
  | fence p =>
    simp only [Ring.step] at h
    split at h
    · rename_i hp
      split at h
      · cases h
        refine .update rfl rfl rfl (by rw [hp]; simp) (fun x hx => ?_) (by simp)
        obtain ⟨i, hi, rfl⟩ := hx
        rw [hp]
        exact ⟨Nat.le_add_right _ _, Nat.add_lt_add_left (Finset.mem_range.mp hi) _⟩
      · cases h
    · cases h
  | commit p i =>
    simp only [Ring.step] at h
    split at h
    · rename_i hp
      split at h
      · cases h
        refine .update rfl rfl rfl (by rw [hp]; simp) (fun x hx => ?_) (by simp)
        obtain ⟨j, hj, rfl⟩ := hx
        rw [hp]
        exact ⟨j, Finset.mem_of_mem_erase hj, rfl⟩
      · cases h
    · cases h
  | release p =>
    simp only [Ring.step] at h
    split at h
    · rename_i hp
      split at h
      · cases h
        exact .update rfl rfl rfl (by rw [hp]; simp) (fun x hx => hx.elim) (by simp)
      · cases h
    · cases h

/-- Slots are reserved, and stored to without a test. -/
def Ring.acquire [DecidableEq P] (s : Ring P B) (p : P) (count : Nat)
    (vals : Nat → Field → Nat) : Ring P B :=
  { s with
    writeIdx := s.writeIdx + count
    producer := Function.update s.producer p
      (.writing s.writeIdx count (Finset.range count ×ˢ Finset.univ))
    plan := fun x =>
      if s.writeIdx ≤ x ∧ x < s.writeIdx + count then vals (x - s.writeIdx) else s.plan x }

theorem Ring.acquire_producer [DecidableEq P] (s : Ring P B) (p : P) (n : Nat)
    (vals : Nat → Field → Nat) : (s.acquire p n vals).producer p =
      .writing s.writeIdx n (Finset.range n ×ˢ Finset.univ) := Function.update_self ..

/-- Reserving and then passing the test leads to the same state. -/
theorem Ring.valid_acquire [DecidableEq P] {s : Ring P B} (hv : s.Valid) {p : P} {n : Nat}
    (vals : Nat → Field → Nat) (hp : s.producer p = .idle) (hw : s.writeIdx + n + 1 < wordSize)
    (hroom : s.writeIdx + n ≤ s.loop.readIdx + queueSize) : (s.acquire p n vals).Valid := by
  have hle := hv.read_le
  have hr := @valid_reserve P B _ s hv p n vals hp
  have h := @valid_wait P B _ _ hr
    ⟨by exact Nat.lt_of_succ_lt hw, by dsimp only; omega⟩ p s.writeIdx n
    (by exact Function.update_self ..) (by
      rw [subWord_of_le (Nat.lt_of_succ_lt hw) (by dsimp only; omega)]
      dsimp only
      omega)
  rw [Function.update_idem] at h
  exact h

namespace QueueSpace

/-- Empty, with no warp in a call. -/
def init (b : B.State) : QueueSpace P B where
  ring := Ring.init b
  warp _ := .out

inductive Act (P : Type) (B : Backend)
  /-- A warp calls `wait_queue_space(needed)`, to submit `needed` descriptors. -/
  | call (p : P) (needed : Nat) (vals : Nat → Field → Nat)
  /-- The next load of `wait_queue_space`. -/
  | load (p : P)
  /-- `acquire_chunk_slots`. -/
  | acquire (p : P)
  /-- A store of a warp that has its slots, or a step of the polling thread. -/
  | ring (a : Ring.Act P B)

def step [DecidableEq P] (s : QueueSpace P B) : Act P B → Option (QueueSpace P B)
  | .call p needed vals =>
    match s.warp p, s.ring.producer p with
    | .out, .idle => some { s with warp := Function.update s.warp p (.loadWrite needed vals) }
    | _, _ => none
  | .load p =>
    match s.warp p with
    | .loadWrite needed vals =>
      some { s with warp := Function.update s.warp p (.loadRead needed vals s.ring.writeIdx) }
    | .loadRead needed vals w =>
      let next : SpaceWarp := if hasSpace needed w s.ring.loop.readIdx then .acquire needed vals w
        else .loadWrite needed vals
      some { s with warp := Function.update s.warp p next }
    | _ => none
  | .acquire p =>
    match s.warp p with
    | .acquire needed vals _ =>
      some { ring := s.ring.acquire p needed vals, warp := Function.update s.warp p .out }
    | _ => none
  | .ring a => if a.admits then none else (s.ring.step a).map fun r => { s with ring := r }

/-- `needed` is below half the ring size; and a warp takes its slots when at most `needed` others
have been taken since the load of `write_idx` with which it passed the test, and fewer than
`2 ^ 64 - QUEUE_SIZE` with its own in all. -/
def Fits (s : QueueSpace P B) : Act P B → Prop
  | .call _ needed _ => needed * 2 < queueSize
  | .acquire p =>
    match s.warp p with
    | .acquire needed _ w => s.ring.writeIdx ≤ w + needed ∧
      s.ring.writeIdx + needed + queueSize ≤ wordSize
    | _ => True
  | _ => True

/-- The polling thread does not pop past a `write_idx` that a warp has loaded and is about to
compare. -/
def Abreast (s : QueueSpace P B) : Act P B → Prop
  | .ring (.loop a) => ∀ l, s.ring.loop.step a = some l → ∀ p needed vals w,
      s.warp p = .loadRead needed vals w → l.readIdx ≤ w
  | _ => True

/-! ## The invariant -/

structure Ok (s : QueueSpace P B) : Prop where
  valid : s.ring.Valid
  words : s.ring.writeIdx + queueSize ≤ wordSize
  needed_lt : ∀ p n, (s.warp p).needed = some n → n * 2 < queueSize
  /-- A warp in these calls has no slots. -/
  idle : ∀ p n, (s.warp p).needed = some n → s.ring.producer p = .idle
  loaded : ∀ p n vals w, s.warp p = .loadRead n vals w → w ≤ s.ring.writeIdx
  /-- The room the test has seen: `read_idx` has only moved on since. -/
  tested : ∀ p n vals w, s.warp p = .acquire n vals w → w + n * 2 < s.ring.loop.readIdx + queueSize

theorem ok_init (b : B.State) : (init b : QueueSpace P B).Ok where
  valid := Ring.valid_init b
  words := by show 0 + queueSize ≤ wordSize; decide
  needed_lt _ _ h := by cases h
  idle _ _ h := by cases h
  loaded _ _ _ _ h := by cases h
  tested _ _ _ _ h := by cases h

theorem Ok.inWords {s : QueueSpace P B} (hs : s.Ok) : s.ring.InWords := by
  have h1 := hs.words
  have h2 := hs.valid.read_le
  unfold Ring.InWords wordSize queueSize at *
  omega

/-! ## The test -/

theorem spaceBound_add {n : Nat} (h : n * 2 < queueSize) : spaceBound n + n * 2 = queueSize := by
  unfold spaceBound queueSize at *
  omega

/-- The test is the comparison of the numbers, whether or not `read_idx` has overtaken the
`write_idx` loaded before it. -/
theorem hasSpace_iff {n w r : Nat} (hn : n * 2 < queueSize) (hw : w + queueSize ≤ wordSize)
    (hr : r + queueSize ≤ wordSize) :
    hasSpace n w r = true ↔ r ≤ w ∧ w + n * 2 < r + queueSize := by
  have hb := spaceBound_add hn
  rw [hasSpace, decide_eq_true_iff]
  unfold subWord word wordSize queueSize at *
  omega

theorem Ok.test {s : QueueSpace P B} (hs : s.Ok) {p : P} {n w : Nat} {vals : Nat → Field → Nat}
    (hp : s.warp p = .loadRead n vals w) : hasSpace n w s.ring.loop.readIdx = true ↔
      s.ring.loop.readIdx ≤ w ∧ w + n * 2 < s.ring.loop.readIdx + queueSize := by
  have h1 := hs.loaded p n vals w hp
  have h2 := hs.words
  have h3 := hs.valid.read_le
  exact hasSpace_iff (hs.needed_lt p n (by rw [hp]; rfl)) (by omega) (by omega)

/-! ## The steps -/

section Steps
variable [DecidableEq P] {s t : QueueSpace P B}

/-- A warp goes on, or calls, without taking slots. -/
theorem Ok.move (hs : s.Ok) {p : P} {x : SpaceWarp}
    (hn : ∀ n, x.needed = some n → n * 2 < queueSize ∧ s.ring.producer p = .idle)
    (hw : ∀ n vals w, x = .loadRead n vals w → w ≤ s.ring.writeIdx)
    (ht : ∀ n vals w, x = .acquire n vals w → w + n * 2 < s.ring.loop.readIdx + queueSize) :
    Ok { s with warp := Function.update s.warp p x } := by
  refine ⟨hs.valid, hs.words, fun q n h => ?_, fun q n h => ?_, fun q n vals w h => ?_,
    fun q n vals w h => ?_⟩
  all_goals
    by_cases hq : q = p
    · subst hq
      simp only [Function.update_self] at h
      first
        | exact (hn n h).1
        | exact (hn n h).2
        | exact hw n vals w h
        | exact ht n vals w h
    · simp only [Function.update_of_ne hq] at h
      first
        | exact hs.needed_lt q n h
        | exact hs.idle q n h
        | exact hs.loaded q n vals w h
        | exact hs.tested q n vals w h

omit [DecidableEq P] in
/-- The room seen by the test is enough if at most as many slots again have been taken since. -/
theorem Ok.room (hs : s.Ok) {p : P} {n w : Nat} {vals : Nat → Field → Nat}
    (hp : s.warp p = .acquire n vals w) (hw : s.ring.writeIdx ≤ w + n) :
    s.ring.writeIdx + n ≤ s.ring.loop.readIdx + queueSize := by
  have := hs.tested p n vals w hp
  omega

theorem Ok.acquire (hs : s.Ok) {p : P} {n w : Nat} {vals : Nat → Field → Nat}
    (hp : s.warp p = .acquire n vals w) (hsince : s.ring.writeIdx ≤ w + n)
    (hw : s.ring.writeIdx + n + queueSize ≤ wordSize) :
    Ok { ring := s.ring.acquire p n vals, warp := Function.update s.warp p .out } := by
  have hn : (s.warp p).needed = some n := by rw [hp]; rfl
  have hlt : s.ring.writeIdx + n + 1 < wordSize :=
    Nat.lt_of_lt_of_le (by unfold queueSize; omega) hw
  refine ⟨Ring.valid_acquire hs.valid vals (hs.idle p n hn) hlt (hs.room hp hsince), hw,
    fun q m h => ?_, fun q m h => ?_, fun q m vals w h => ?_, fun q m vals w h => ?_⟩
  all_goals
    have hq : q ≠ p := by
      rintro rfl
      simp [SpaceWarp.needed] at h
    simp only [Function.update_of_ne hq] at h
  · exact hs.needed_lt q m h
  · exact (Function.update_of_ne hq ..).trans (hs.idle q m h)
  · exact Nat.le_add_right_of_le (hs.loaded q m vals w h)
  · exact hs.tested q m vals w h

theorem Ok.ring (hs : s.Ok) {a : Ring.Act P B} {r : Ring P B} (ha : a.admits = false)
    (h : s.ring.step a = some r) : Ok { s with ring := r } := by
  have hk := Ring.keeps_of_step ha h
  refine ⟨Ring.valid_step hs.valid hs.inWords h, ?_, hs.needed_lt,
    fun p n hn => hk.idle p (hs.idle p n hn), fun p n vals w hl => ?_, fun p n vals w hl => ?_⟩
  · exact (congrArg (· + queueSize) hk.writeIdx).trans_le hs.words
  · exact (hs.loaded p n vals w hl).trans_eq hk.writeIdx.symm
  · exact Nat.lt_of_lt_of_le (hs.tested p n vals w hl) (Nat.add_le_add_right (Ring.readIdx_le h) _)

theorem ok_step (hs : s.Ok) {a : Act P B} (hc : s.Fits a) (h : s.step a = some t) : t.Ok := by
  cases a with
  | call p needed vals =>
    simp only [step] at h
    split at h
    · cases h
      rename_i hp
      refine hs.move (fun n hn => ?_) nofun nofun
      cases hn
      exact ⟨hc, hp⟩
    · cases h
  | load p =>
    simp only [step] at h
    split at h
    · cases h
      rename_i needed vals hp
      have hn : (s.warp p).needed = some needed := by rw [hp]; rfl
      refine hs.move (fun n h => ?_) (fun _ _ _ h => ?_) nofun
      · cases h
        exact ⟨hs.needed_lt p _ hn, hs.idle p _ hn⟩
      · cases h
        exact Nat.le_refl _
    · cases h
      rename_i needed vals w hp
      have hn : (s.warp p).needed = some needed := by rw [hp]; rfl
      refine hs.move (fun n h => ?_) (fun _ _ _ h => ?_) fun _ _ _ h => ?_
      · have : n = needed := by
          split at h <;> (cases h; rfl)
        subst this
        exact ⟨hs.needed_lt p _ hn, hs.idle p _ hn⟩
      · split at h <;> cases h
      · split at h
        · cases h
          exact ((hs.test hp).mp ‹_›).2
        · cases h
    · cases h
  | acquire p =>
    simp only [step] at h
    split at h
    · cases h
      rename_i needed vals hp
      simp only [Fits, hp] at hc
      exact hs.acquire hp hc.1 hc.2
    · cases h
  | ring a =>
    simp only [step] at h
    split at h
    · cases h
    · rename_i ha
      obtain ⟨r, hr, rfl⟩ := Option.map_eq_some_iff.mp h
      exact hs.ring (by simpa using ha) hr

theorem ok_of_reachable {b : B.State} (h : Reachable step Fits (· = init b) s) : s.Ok :=
  h.invariant (by rintro _ rfl; exact ok_init b) fun _ _ _ hs hc ht => ok_step hs hc ht

/-! ## Getting past the test -/

theorem step_load_write {p : P} {n : Nat} {vals : Nat → Field → Nat}
    (hp : s.warp p = .loadWrite n vals) : s.step (.load p) =
      some { s with warp := Function.update s.warp p (.loadRead n vals s.ring.writeIdx) } := by
  simp only [step, hp]

theorem step_load_read {p : P} {n w : Nat} {vals : Nat → Field → Nat}
    (hp : s.warp p = .loadRead n vals w) : s.step (.load p) =
      some { s with warp := Function.update s.warp p (if hasSpace n w s.ring.loop.readIdx
        then .acquire n vals w else .loadWrite n vals) } := by
  simp only [step, hp]

/-- The warp gets past the test by `k` loads of its own. -/
def Passes (s : QueueSpace P B) (p : P) (k : Nat) : Prop :=
  ∃ t n vals w, run step s (List.replicate k (.load p)) = some t ∧ t.warp p = .acquire n vals w

theorem Passes.succ {p : P} {k : Nat} (h : s.step (.load p) = some t) (ht : t.Passes p k) :
    s.Passes p (k + 1) := by
  obtain ⟨u, n, vals, w, hu, hw⟩ := ht
  exact ⟨u, n, vals, w, by rw [List.replicate_succ, run_cons, h]; exact hu, hw⟩

theorem passes_loadRead {p : P} {n w : Nat} {vals : Nat → Field → Nat}
    (h : hasSpace n w s.ring.loop.readIdx = true) (hp : s.warp p = .loadRead n vals w) :
    s.Passes p 1 := by
  have h1 := step_load_read hp
  rw [if_pos h] at h1
  exact Passes.succ h1 ⟨_, n, vals, w, rfl, Function.update_self ..⟩

omit [DecidableEq P] in
theorem hasSpace_self {n w : Nat} (hn : n * 2 < queueSize) : hasSpace n w w = true := by
  have hb := spaceBound_add hn
  have hw : subWord w w = 0 := subWord_add_left (n := w) (k := 0) (by decide)
  rw [hasSpace, hw, decide_eq_true_iff]
  omega

theorem passes_loadWrite {p : P} {n : Nat} {vals : Nat → Field → Nat} (hn : n * 2 < queueSize)
    (he : s.ring.loop.readIdx = s.ring.writeIdx) (hp : s.warp p = .loadWrite n vals) :
    s.Passes p 2 := by
  refine Passes.succ (step_load_write hp) (passes_loadRead ?_ (Function.update_self ..))
  rw [he]
  exact hasSpace_self hn

/-- A warp that fails by a `write_idx` loaded too early passes with the next one. -/
theorem exists_passes {p : P} {n : Nat} (hn : n * 2 < queueSize)
    (he : s.ring.loop.readIdx = s.ring.writeIdx) (hp : (s.warp p).needed = some n) :
    ∃ k, k ≤ 3 ∧ s.Passes p k := by
  cases hw : s.warp p with
  | out => rw [hw] at hp; cases hp
  | loadWrite m vals =>
    rw [hw] at hp
    cases hp
    exact ⟨2, by decide, passes_loadWrite hn he hw⟩
  | loadRead m vals w =>
    rw [hw] at hp
    cases hp
    by_cases hs : hasSpace n w s.ring.loop.readIdx = true
    · exact ⟨1, by decide, passes_loadRead hs hw⟩
    · have h1 := step_load_read hw
      rw [if_neg hs] at h1
      exact ⟨3, Nat.le_refl _, Passes.succ h1 (passes_loadWrite hn he (Function.update_self ..))⟩
  | acquire m vals w => exact ⟨0, by decide, s, m, vals, w, rfl, hw⟩

end Steps

/-! ## What the wait is for -/

/-- `wait_queue_space` does its work. -/
structure SpaceKept [DecidableEq P] (s : QueueSpace P B) : Prop where
  /-- A warp that waits over an empty ring passes, by at most three loads. -/
  satisfiable : s.ring.loop.readIdx = s.ring.writeIdx → ∀ p n, (s.warp p).needed = some n →
    ∃ k, k ≤ 3 ∧ s.Passes p k
  /-- The 32-bit bound does not wrap. -/
  bound : ∀ p n, (s.warp p).needed = some n → spaceBound n + n * 2 = queueSize
  /-- The mixed comparison is the comparison of the numbers. -/
  test : ∀ p n vals w, s.warp p = .loadRead n vals w →
    (hasSpace n w s.ring.loop.readIdx = true ↔
      s.ring.loop.readIdx ≤ w ∧ w + n * 2 < s.ring.loop.readIdx + queueSize)
  /-- No store to a cell whose descriptor of an earlier lap has not been popped. -/
  preserved : ∀ a t x, s.step (.ring a) = some t → s.ring.stores a = some x →
    ∀ y, y < x → y % queueSize = x % queueSize → y < s.ring.loop.readIdx

/-- `write_idx - read_idx` does not wrap for a warp about to compare. -/
def Unwrapped (s : QueueSpace P B) : Prop :=
  ∀ p n vals w, s.warp p = .loadRead n vals w →
    subWord w s.ring.loop.readIdx + s.ring.loop.readIdx = w

theorem Ok.spaceKept [DecidableEq P] {s : QueueSpace P B} (hs : s.Ok) : s.SpaceKept where
  satisfiable he p n hp := exists_passes (hs.needed_lt p n hp) he hp
  bound p n hp := spaceBound_add (hs.needed_lt p n hp)
  test _ _ _ _ hp := hs.test hp
  preserved a t x h hx := by
    simp only [step] at h
    split at h
    · cases h
    · obtain ⟨r, hr, -⟩ := Option.map_eq_some_iff.mp h
      exact (Ring.handOver_of_valid hs.valid hs.inWords).preserved a r x hr hx

/-- No warp has loaded a `write_idx` that `read_idx` has overtaken. -/
def Recent (s : QueueSpace P B) : Prop :=
  ∀ p n vals w, s.warp p = .loadRead n vals w → s.ring.loop.readIdx ≤ w

theorem ring_readIdx [DecidableEq P] {r r' : Ring P B} {a : Ring.Act P B}
    (ha : ∀ l, a ≠ .loop l) (h : r.step a = some r') : r'.loop.readIdx = r.loop.readIdx := by
  cases a with
  | loop l => exact absurd rfl (ha l)
  | reserve p n vals =>
    simp only [Ring.step] at h
    split at h
    · cases h; rfl
    · cases h
  | wait p | write p i f | fence p | commit p i | release p =>
    simp only [Ring.step] at h
    split at h
    · split at h
      · cases h; rfl
      · cases h
    · cases h

theorem recent_step [DecidableEq P] {s t : QueueSpace P B} (hs : s.Ok) (hr : s.Recent)
    {a : Act P B} (hc : s.Abreast a) (h : s.step a = some t) : t.Recent := by
  -- a warp whose place is replaced by one that is not about to compare
  have move : ∀ {p : P} {x : SpaceWarp} {r : Ring P B}, r.loop.readIdx = s.ring.loop.readIdx →
      (∀ n vals w, x = .loadRead n vals w → s.ring.loop.readIdx ≤ w) →
      Recent { ring := r, warp := Function.update s.warp p x } := by
    intro p x r he hx q n vals w hq
    dsimp only at hq ⊢
    rw [he]
    by_cases hqp : q = p
    · subst hqp
      rw [Function.update_self] at hq
      exact hx n vals w hq
    · rw [Function.update_of_ne hqp] at hq
      exact hr q n vals w hq
  cases a with
  | call p needed vals =>
    simp only [step] at h
    split at h
    · cases h; exact move rfl nofun
    · cases h
  | load p =>
    simp only [step] at h
    split at h
    · cases h
      refine move rfl fun n vals w hx => ?_
      cases hx
      exact hs.valid.read_le
    · cases h
      refine move rfl fun n vals w hx => ?_
      split at hx <;> cases hx
    · cases h
  | acquire p =>
    simp only [step] at h
    split at h
    · cases h; exact move rfl nofun
    · cases h
  | ring a =>
    simp only [step] at h
    split at h
    · cases h
    · obtain ⟨r, ha, rfl⟩ := Option.map_eq_some_iff.mp h
      cases a with
      | loop l =>
        obtain ⟨l', hl, rfl⟩ := Option.map_eq_some_iff.mp ha
        exact hc l' hl
      | _ =>
        intro p n vals w hp
        have he := ring_readIdx (by intro l hl; cases hl) ha
        exact he.trans_le (hr p n vals w hp)

/-- **`wait_queue_space` keeps the ring from overflowing** in every run whose calls ask for less
than half the ring and in which no warp, between its test and its reservation, lets others take
more slots than its own; and where in addition the
polling thread does not overtake a `write_idx` just loaded, the 64-bit difference does not wrap. -/
theorem spaceKept_of_reachable [DecidableEq P] {b : B.State} {s : QueueSpace P B}
    (h : Reachable step Fits (· = init b) s) : s.SpaceKept ∧
      (Reachable step (fun s a => s.Fits a ∧ s.Abreast a) (· = init b) s → s.Unwrapped) := by
  refine ⟨(ok_of_reachable h).spaceKept, fun h p n vals w hp => ?_⟩
  have hok : s.Ok ∧ s.Recent := by
    refine h.invariant (I := fun s => s.Ok ∧ s.Recent) ?_ ?_
    · rintro _ rfl
      exact ⟨ok_init b, nofun⟩
    · intro s a t hs hc ht
      exact ⟨ok_step hs.1 hc.1 ht, recent_step hs.1 hs.2 hc.2 ht⟩
  have hle := hok.2 p n vals w hp
  have hw := hok.1.loaded p n vals w hp
  have hlt := hok.1.words
  rw [subWord_of_le (by unfold queueSize at hlt; omega) hle]
  exact Nat.sub_add_cancel hle

section Examples
variable [DecidableEq P] {b : B.State} {C : QueueSpace P B → Act P B → Prop} {s : QueueSpace P B}
  {p : P} {n : Nat} {vals : Nat → Field → Nat}

/-- A warp calls and passes the test. -/
theorem passed (p : P) (n : Nat) (vals : Nat → Field → Nat)
    (h : Reachable step C (· = init b) s) (hp : s.warp p = .out)
    (hi : s.ring.producer p = .idle) (hn : hasSpace n s.ring.writeIdx s.ring.loop.readIdx = true)
    (hc : C s (.call p n vals)) (hl : ∀ t, C t (.load p)) :
    Reachable step C (· = init b) { s with
      warp := Function.update s.warp p (.acquire n vals s.ring.writeIdx) } := by
  have h1 := h.step (.call p n vals) hc
    (t := { s with warp := Function.update s.warp p (.loadWrite n vals) })
    (by simp only [step, hp, hi])
  have h2 := h1.step _ (hl _) (step_load_write (Function.update_self ..))
  have h3 := h2.step _ (hl _) (step_load_read (Function.update_self ..))
  simp only [Function.update_idem] at h3
  rwa [if_pos hn] at h3

theorem step_acquire {w : Nat} (hp : s.warp p = .acquire n vals w) : s.step (.acquire p) =
    some { ring := s.ring.acquire p n vals, warp := Function.update s.warp p .out } := by
  simp only [step, hp]

theorem step_ring {a : Ring.Act P B} {r : Ring P B} (ha : a.admits = false)
    (h : s.ring.step a = some r) : s.step (.ring a) = some { s with ring := r } := by
  simp [step, ha, h]

omit [DecidableEq P] in
theorem fits_acquire {w : Nat} (hp : s.warp p = .acquire n vals w) (hr : s.ring.writeIdx ≤ w + n)
    (hw : s.ring.writeIdx + n + queueSize ≤ wordSize) : s.Fits (.acquire p) := by
  simp only [Fits, hp]
  exact ⟨hr, hw⟩

end Examples

/-- Three warps: two have found room for four slots each before either took its own, and the third
is about to compare. -/
theorem spaceKept_of_reachable_three : ∃ s : QueueSpace (Fin 3) Backend.noop,
    s.ring.writeIdx = 8 ∧ (s.warp 2).needed = some 4 ∧ s.SpaceKept ∧ s.Unwrapped := by
  let C (s : QueueSpace (Fin 3) Backend.noop) (a : Act (Fin 3) Backend.noop) : Prop :=
    s.Fits a ∧ s.Abreast a
  let v : Nat → Field → Nat := fun _ _ => 0
  have hcall : 4 * 2 < queueSize := by decide
  have h0 : Reachable step C (· = init ()) (init ()) := .initial rfl
  have h1 := passed 0 4 v h0 rfl rfl (hasSpace_self hcall) ⟨hcall, trivial⟩
    fun _ => ⟨trivial, trivial⟩
  have h2 := passed 1 4 v h1 rfl rfl (hasSpace_self hcall) ⟨hcall, trivial⟩
    fun _ => ⟨trivial, trivial⟩
  have h3 := h2.step (.acquire 0)
    ⟨fits_acquire (n := 4) (w := 0) rfl (by decide +kernel) (by decide +kernel), trivial⟩
    (step_acquire rfl)
  have h4 := h3.step (.acquire 1)
    ⟨fits_acquire (n := 4) (w := 0) rfl (by decide +kernel) (by decide +kernel), trivial⟩
    (step_acquire rfl)
  have h5 := h4.step (.call 2 4 v) ⟨hcall, trivial⟩ rfl
  have h6 := h5.step (.load 2) ⟨trivial, trivial⟩ (step_load_write rfl)
  have hk := spaceKept_of_reachable (h6.mono fun _ _ hc => hc.1)
  exact ⟨_, rfl, rfl, hk.1, hk.2 h6⟩

/-! ## Where it fails -/

/-- A request for half the ring waits for ever. -/
theorem not_passes_half [DecidableEq P] {p : P} (k : Nat) {s : QueueSpace P B}
    (h : (∃ vals, s.warp p = .loadWrite (queueSize / 2) vals) ∨
      ∃ vals w, s.warp p = .loadRead (queueSize / 2) vals w) : ¬ s.Passes p k := by
  rintro ⟨t, n, vals, w, ht, htp⟩
  induction k generalizing s with
  | zero =>
    cases ht
    rcases h with ⟨_, h⟩ | ⟨_, _, h⟩ <;> rw [h] at htp <;> cases htp
  | succ k ih =>
    rw [List.replicate_succ, run_cons] at ht
    rcases h with ⟨v, h⟩ | ⟨v, w, h⟩
    · rw [step_load_write h] at ht
      exact ih (.inr ⟨v, _, Function.update_self ..⟩) ht
    · rw [step_load_read h, if_neg (by
        rw [hasSpace, decide_eq_true_iff]
        exact Nat.not_lt_zero _)] at ht
      exact ih (.inl ⟨v, Function.update_self ..⟩) ht

/-- A warp whose slots begin in the first lap and end in the second, before anything is popped. -/
theorem not_spaceKept [DecidableEq P] {s : QueueSpace P B} {p : P} {base n : Nat}
    (hp : s.ring.producer p = .writing base n (Finset.range n ×ˢ Finset.univ))
    (hb : base ≤ queueSize) (hn : queueSize < base + n) (hr : s.ring.loop.readIdx = 0) :
    ¬ s.SpaceKept := by
  intro hk
  obtain ⟨i, hi⟩ := Nat.le.dest hb
  have hmem : (i, Field.srcAddr) ∈ Finset.range n ×ˢ (Finset.univ : Finset Field) := by
    rw [Finset.mem_product, Finset.mem_range]
    exact ⟨by dsimp only; omega, Finset.mem_univ _⟩
  have hx : s.ring.stores (.write p i .srcAddr) = some queueSize := by
    simp only [Ring.stores, hp, hi]
  have hlt := hk.preserved _ _ _ (step_ring rfl (Ring.step_write hp hmem)) hx 0 (by decide)
    (Nat.mod_self _).symm
  omega

/-- The calls the function is for: `needed` in `1 .. QUEUE_SIZE`. -/
def InRange (_ : QueueSpace P B) : Act P B → Prop
  | .call _ needed _ => 1 ≤ needed ∧ needed ≤ queueSize
  | _ => True

/-- A warp that asks for 8192 slots of an empty ring waits for ever; for 8193 the bound wraps; and
of three warps that find the ring empty and take 8000 slots each, the third stores slot 16384 to
the cell of slot 0, which is not written yet. -/
theorem exists_overrun :
    (∃ s : QueueSpace Unit Backend.noop, Reachable step InRange (· = init ()) s ∧
      s.ring.loop.readIdx = s.ring.writeIdx ∧ (s.warp ()).needed = some 8192 ∧
      ∀ k, ¬ s.Passes () k) ∧
    (∃ s : QueueSpace Unit Backend.noop, Reachable step InRange (· = init ()) s ∧
      (s.warp ()).needed = some 8193 ∧ spaceBound 8193 = 4294967294 ∧ ¬ s.SpaceKept) ∧
    ∃ s : QueueSpace (Fin 3) Backend.noop, Reachable step InRange (· = init ()) s ∧
      s.ring.loop.readIdx = 0 ∧ ¬ s.SpaceKept := by
  let v : Nat → Field → Nat := fun _ _ => 0
  have one : Reachable step InRange (· = init ()) (init () : QueueSpace Unit Backend.noop) :=
    .initial rfl
  have three : Reachable step InRange (· = init ()) (init () : QueueSpace (Fin 3) Backend.noop) :=
    .initial rfl
  have hcall : 8000 * 2 < queueSize := by decide
  have hr : 1 ≤ 8000 ∧ 8000 ≤ queueSize := by decide
  have half := one.step (.call () 8192 v) (show 1 ≤ 8192 ∧ 8192 ≤ queueSize by decide) rfl
  have more := one.step (.call () 8193 v) (show 1 ≤ 8193 ∧ 8193 ≤ queueSize by decide) rfl
  refine ⟨⟨_, half, rfl, rfl, fun k => not_passes_half k (.inl ⟨v, rfl⟩)⟩,
    ⟨_, more, rfl, by decide, fun h => absurd (h.bound () 8193 rfl) (by decide)⟩, ?_⟩
  have h1 := passed 0 8000 v three rfl rfl (hasSpace_self hcall) hr fun _ => trivial
  have h2 := passed 1 8000 v h1 rfl rfl (hasSpace_self hcall) hr fun _ => trivial
  have h3 := passed 2 8000 v h2 rfl rfl (hasSpace_self hcall) hr fun _ => trivial
  have h4 := h3.step (.acquire 0) trivial (step_acquire rfl)
  have h5 := h4.step (.acquire 1) trivial (step_acquire rfl)
  have h6 := h5.step (.acquire 2) trivial (step_acquire rfl)
  exact ⟨_, h6, rfl, not_spaceKept (p := 2) (Ring.acquire_producer ..)
    (show 0 + 8000 + 8000 ≤ 16384 by decide) (show 16384 < 0 + 8000 + 8000 + 8000 by decide) rfl⟩

end QueueSpace
end Gfd
