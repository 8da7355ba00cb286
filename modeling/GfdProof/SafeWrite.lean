import GfdProof.QueueSpace
import GfdProof.RingProgress

/-! # Writing to a slot that looks free

`write_descriptor_safe` of `device.cuh`: a thread with a slot of its own looks at the
`sequence` of the slot's cell.  If it is not 0 the call returns false and the thread
tries again; if it is 0 the thread stores its descriptor, and `fence_and_commit` stores
`sequence = slot + 1`.

A cell with `sequence = 0` is free for the slot only if the slot one lap earlier has been
popped.  It shows 0 just as well before that slot's thread has written, and after, until
that thread commits; then two threads store to one cell (`exists_mixed`).  Where that thread
has committed, 0 says what it is meant to say: the polling thread has copied the entry and
cleared the cell.  It has not published `read_idx` then, and may do so long after the next
lap has been written and committed; so the invariant is that of `DescriptorRing` for the
thread as it will be when it has (`caughtUp`).

A refusal means that the earlier lap is still to be popped: `exists_thread_step` says that
the thread of the next slot to be popped is never refused.
-/
namespace Gfd

open Transition

/-- The arguments of a call. -/
structure SafeCall where
  baseSlot : Nat
  tokenIdx : Nat
  srcAddr : Nat
  gpuDst : Nat
  tokenSize : Nat
  numTokens : Nat
  userData : Nat

namespace SafeCall

def slot (c : SafeCall) : Nat := c.baseSlot + c.tokenIdx

/-- What the call stores. -/
def fields (c : SafeCall) : Field → Nat
  | .srcAddr => c.srcAddr
  | .dstAddr => word (c.gpuDst + c.tokenIdx * c.tokenSize)
  | .size => c.tokenSize
  | .flags => if c.tokenIdx + 1 = c.numTokens then flagLastInBatch else flagNone
  | .userData => c.userData

end SafeCall

/-- The calls of `n` threads, each for its own slot: thread `x` has slot `x`. -/
structure SafeCalls (n : Nat) where
  call : Nat → SafeCall
  slot_eq : ∀ x, x < n → (call x).slot = x

namespace SafeWrite

variable {B : Backend} {n : Nat}

/-- Nothing has been written; every thread has its slot. -/
def init (calls : SafeCalls n) (b : B.State) : Ring Nat B where
  loop := Loop.init b
  writeIdx := n
  producer x := if x < n then .waiting (calls.call x).slot 1 else .idle
  plan x := (calls.call x).fields
  committed _ := false

inductive Act (B : Backend)
  /-- `desc->sequence` is loaded and is 0.  A call that returns false is no step. -/
  | test (x : Nat)
  /-- A store of a thread past the test, or a step of the polling thread. -/
  | ring (a : Ring.Act Nat B)

def step (s : Ring Nat B) : Act B → Option (Ring Nat B)
  | .test x =>
    match s.producer x with
    | .waiting base count =>
      if (s.loop.entries (word base % queueSize)).sequence = 0 then
        some { s with producer :=
          Function.update s.producer x (.writing base count (Finset.range count ×ˢ Finset.univ)) }
      else none
    | _ => none
  | .ring a => if a.admits then none else s.step a

/-- A thread tests its cell only after the thread of the slot one lap earlier has committed. -/
def InTurn (s : Ring Nat B) : Act B → Prop
  | .test x =>
    match s.producer x with
    | .waiting base _ => queueSize ≤ base → s.committed (base - queueSize) = true
    | _ => True
  | .ring _ => True

end SafeWrite

/-! ## The thread caught up with -/

namespace Loop

variable {B : Backend}

/-- The thread as it is once it has published the entry it has taken out of the ring; the entry and
its batch count as handed on. -/
def caughtUp (s : Loop B) : Loop B :=
  match s.pc with
  | .publish _ got =>
    { s with
      readIdx := s.readIdx + 1
      pc := .top
      batch := []
      flushed := s.flushed ++ [(s.batch ++ [Descriptor.ofFields s.readIdx got], s.orFlags)] }
  | _ => s

/-- The number of entries taken: copied, and their cells cleared. -/
def taken (s : Loop B) : Nat := s.caughtUp.readIdx

variable {s t : Loop B}

theorem caughtUp_of_ne (h : ∀ drain got, s.pc ≠ .publish drain got) : s.caughtUp = s := by
  unfold caughtUp
  split
  · exact absurd ‹_› (h _ _)
  · rfl

theorem caughtUp_of_publish {drain : Bool} {got : Field → Nat} (h : s.pc = .publish drain got) :
    s.caughtUp =
      { s with
        readIdx := s.readIdx + 1
        pc := .top
        batch := []
        flushed := s.flushed ++ [(s.batch ++ [Descriptor.ofFields s.readIdx got], s.orFlags)] } := by
  simp only [caughtUp, h]

@[simp] theorem caughtUp_entries (s : Loop B) : s.caughtUp.entries = s.entries := by
  unfold caughtUp
  split <;> rfl

theorem caughtUp_pc (s : Loop B) (drain : Bool) (got : Field → Nat) :
    s.caughtUp.pc ≠ .publish drain got := by
  unfold caughtUp
  split
  · exact fun h => by cases h
  · rename_i hne
    exact hne drain got

@[simp] theorem caughtUp_storeField (s : Loop B) (c : Nat) (f : Field) (v : Nat) :
    (s.storeField c f v).caughtUp = s.caughtUp.storeField c f v := by
  unfold caughtUp storeField
  dsimp only
  split <;> rfl

@[simp] theorem caughtUp_storeSequence (s : Loop B) (c v : Nat) :
    (s.storeSequence c v).caughtUp = s.caughtUp.storeSequence c v := by
  unfold caughtUp storeSequence
  dsimp only
  split <;> rfl

theorem readIdx_le_taken (s : Loop B) : s.readIdx ≤ s.taken := by
  unfold taken caughtUp
  split
  · exact Nat.le_succ _
  · exact Nat.le_refl _

theorem caughtUp_popped {drain : Bool} {got : Field → Nat} (h : s.pc = .publish drain got) :
    s.caughtUp.popped = s.popped ++ [Descriptor.ofFields s.readIdx got] := by
  rw [caughtUp_of_publish h, popped_of_popping (s := s) (by rw [h]; rfl)]
  simp [popped]

theorem batchOk_caughtUp (h : s.BatchOk) : s.caughtUp.BatchOk := by
  unfold caughtUp
  split
  · exact ⟨h.1, .inl rfl⟩
  · exact h

end Loop

namespace Ring

variable {P : Type} [DecidableEq P] {B : Backend} {s t : Ring P B}

/-- The ring with the thread caught up with. -/
def caughtUp (s : Ring P B) : Ring P B := { s with loop := s.loop.caughtUp }

omit [DecidableEq P] in
/-- Two states of the thread with the same entries outside a pop are the same to the ring. -/
theorem Valid.congr (hv : s.Valid) {l : Loop B} (hb : l.BatchOk) (he : l.entries = s.loop.entries)
    (hr : l.readIdx = s.loop.readIdx) (hp : l.popped = s.loop.popped) (hpop : l.pc.popping = false) :
    Valid { s with loop := l } := by
  refine hv.loop hb hr hp (fun c => by rw [he]) (fun c _ => by rw [he]) ?_
  unfold Reader
  dsimp only
  split <;> simp_all [Pc.popping]

omit [DecidableEq P] in
theorem Accounted.congr (hs : s.Accounted) {l : Loop B} (he : l.entries = s.loop.entries)
    (hr : l.readIdx = s.loop.readIdx) (hpc : ∀ drain got, s.loop.pc ≠ .publish drain got) :
    Accounted { s with loop := l } := by
  refine ⟨hs.owned, fun x hx hc _ => ?_⟩
  dsimp only at hx ⊢
  rw [he]
  exact hs.marked x (hr ▸ hx) hc fun _ => hpc

omit [DecidableEq P] in
theorem accounted_caughtUp (hs : s.Accounted) : s.caughtUp.Accounted := by
  refine ⟨hs.owned, fun x hx hc _ => ?_⟩
  have hx : s.loop.taken ≤ x := hx
  show (s.loop.caughtUp.entries (x % queueSize)).sequence = x + 1
  rw [Loop.caughtUp_entries]
  by_cases h : ∃ drain got, s.loop.pc = .publish drain got
  · obtain ⟨drain, got, h⟩ := h
    rw [Loop.taken, Loop.caughtUp_of_publish h] at hx
    exact hs.marked x (Nat.le_of_succ_le hx) hc fun he => absurd (he ▸ hx) (Nat.not_succ_le_self _)
  · push Not at h
    rw [Loop.taken, Loop.caughtUp_of_ne h] at hx
    exact hs.marked x hx hc fun _ => h

omit [DecidableEq P] in
theorem valid_caughtUp (hv : s.Valid) : s.caughtUp.Valid := by
  have hb := Loop.batchOk_caughtUp hv.batchOk
  by_cases h : ∃ drain got, s.loop.pc = .publish drain got
  · obtain ⟨drain, got, h⟩ := h
    refine hv.publish hb h (Loop.caughtUp_entries _) ?_ (Loop.caughtUp_popped h) ?_
    · rw [Loop.caughtUp_of_publish h]
    · rw [Loop.caughtUp_of_publish h]
      rfl
  · push Not at h
    unfold caughtUp
    rwa [Loop.caughtUp_of_ne h]

/-- The producers do not see whether the thread has been caught up with. -/
theorem step_caughtUp {a : Act P B} (ha : a.admits = false) (hl : ∀ l, a ≠ .loop l)
    (h : s.step a = some t) : s.caughtUp.step a = some t.caughtUp := by
  cases a with
  | loop l => exact absurd rfl (hl l)
  | reserve | wait => cases ha
  | write p i f =>
    simp only [step] at h
    split at h
    · rename_i base count todo hp
      split at h
      · rename_i hmem
        cases h
        simp only [step, caughtUp, hp, if_pos hmem, Loop.caughtUp_storeField]
      · cases h
    · cases h
  | fence p =>
    simp only [step] at h
    split at h
    · rename_i base count todo hp
      split at h
      · rename_i hnil
        cases h
        simp only [step, caughtUp, hp, if_pos hnil]
      · cases h
    · cases h
  | commit p i =>
    simp only [step] at h
    split at h
    · rename_i base count todo hp
      split at h
      · rename_i hmem
        cases h
        simp only [step, caughtUp, hp, if_pos hmem, Loop.caughtUp_storeSequence]
      · cases h
    · cases h
  | release p =>
    simp only [step] at h
    split at h
    · rename_i base count todo hp
      split at h
      · rename_i hnil
        cases h
        simp only [step, caughtUp, hp, if_pos hnil]
      · cases h
    · cases h

theorem batchOk_step (hb : s.loop.BatchOk) {a : Act P B} (h : s.step a = some t) :
    t.loop.BatchOk := by
  cases a with
  | loop a =>
    obtain ⟨l, hl, rfl⟩ := Option.map_eq_some_iff.mp h
    exact Loop.batchOk_step hb hl
  | reserve =>
    simp only [step] at h
    split at h <;> cases h
    exact hb
  | wait | write | fence | commit | release =>
    simp only [step] at h
    split at h
    · split at h <;> cases h
      exact hb
    · cases h

omit [DecidableEq P] in
/-- While an entry is being published the thread does nothing to the ring. -/
theorem stay_of_publish (hb : s.loop.BatchOk) {drain : Bool} {got : Field → Nat}
    (hpc : s.loop.pc = .publish drain got) {l : Loop B} {a : Loop.Act B} (h : s.loop.step a = some l) :
    l.caughtUp.entries = s.loop.caughtUp.entries ∧ l.taken = s.loop.taken ∧
      l.caughtUp.popped = s.loop.caughtUp.popped ∧ l.caughtUp.pc.popping = false := by
  have hpop : s.loop.pc.popping = true := by rw [hpc]; rfl
  rw [Loop.caughtUp_popped hpc]
  simp only [Loop.caughtUp_entries, Loop.taken, Loop.caughtUp_of_publish hpc]
  cases Loop.step_effect hb h with
  | stay he hr hp hsame =>
    have hl : l.pc = .publish drain got := hsame.trans hpc
    rw [Loop.caughtUp_popped hl, Loop.caughtUp_of_publish hl, hp, hr]
    exact ⟨he, rfl, rfl, rfl⟩
  | plain he hr hp hs ht | begin _ he hr hp _ hs ht =>
    rw [hpop] at hs
    cases hs
  | load _ _ _ _ he hr hp hs ht | copied _ _ he hr hp hs ht | merged _ he hr hp hs ht
  | cleared _ _ he hr hp hs ht =>
    rw [hpc] at hs
    cases hs
  | published drain' got' he hr hp hs ht =>
    cases hpc.symm.trans hs
    rw [Loop.caughtUp_of_ne fun d g hd => by rw [hd] at ht; cases ht]
    exact ⟨he, hr, hp, ht⟩

omit [DecidableEq P] in
/-- The polling thread's steps. -/
theorem valid_loop_caughtUp (hv : s.caughtUp.Valid) (ha : s.caughtUp.Accounted) (hb : s.caughtUp.InWords)
    (hbatch : s.loop.BatchOk) {l : Loop B} {a : Loop.Act B} (h : s.loop.step a = some l) :
    Valid (caughtUp { s with loop := l }) ∧ Accounted (caughtUp { s with loop := l }) := by
  by_cases hpub : ∃ drain got, s.loop.pc = .publish drain got
  · obtain ⟨drain, got, hpc⟩ := hpub
    obtain ⟨he, hr, hp, hpop⟩ := stay_of_publish hbatch hpc h
    have hok := Loop.batchOk_caughtUp (Loop.batchOk_step hbatch h)
    exact ⟨hv.congr (l := l.caughtUp) hok he hr hp hpop,
      ha.congr (l := l.caughtUp) he hr (Loop.caughtUp_pc _)⟩
  · push Not at hpub
    have hsame : s.caughtUp = s := by
      unfold caughtUp
      rw [Loop.caughtUp_of_ne hpub]
    rw [hsame] at hv ha hb
    exact ⟨valid_caughtUp (valid_loop hv hb h), accounted_caughtUp (accounted_loop hv ha h)⟩

end Ring

namespace SafeWrite

variable {B : Backend} {n : Nat}

/-! ## The invariant -/

structure Ok (calls : SafeCalls n) (s : Ring Nat B) : Prop where
  batchOk : s.loop.BatchOk
  valid : s.caughtUp.Valid
  accounted : s.caughtUp.Accounted
  writeIdx : s.writeIdx = n
  plan : s.plan = fun x => (calls.call x).fields
  own : ∀ p x, (s.producer p).Holds x → x = p
  single : ∀ p base count, s.producer p = .waiting base count → count = 1

variable {calls : SafeCalls n} {s t : Ring Nat B}

theorem init_waiting {b : B.State} {p base count : Nat}
    (h : (init calls b).producer p = .waiting base count) : base = p ∧ count = 1 ∧ p < n := by
  simp only [init] at h
  split at h
  · rename_i hp
    cases h
    exact ⟨calls.slot_eq p hp, rfl, hp⟩
  · cases h

theorem init_holds {b : B.State} {p x : Nat} :
    ((init calls b).producer p).Holds x ↔ x = p ∧ p < n := by
  simp only [init]
  split
  · rename_i hp
    rw [calls.slot_eq p hp]
    simp only [Producer.Holds]
    omega
  · rename_i hp
    exact iff_of_false id fun h => hp h.2

theorem valid_init (calls : SafeCalls n) (b : B.State) : (init calls b).Valid where
  batchOk := Loop.batchOk_init b
  read_le := Nat.zero_le n
  held p x h := by
    obtain ⟨rfl, hp⟩ := init_holds.mp h
    exact ⟨Nat.zero_le x, hp, rfl⟩
  unique p q x hp hq := (init_holds.mp hp).1.symm.trans (init_holds.mp hq).1
  window p x ha h := by
    have hp := (init_holds.mp h).2
    simp only [init, hp, if_true] at ha
    cases ha
  bounded p base count todo h := by
    simp only [init] at h
    split at h <;> cases h
  committed_lt := nofun
  below_read x h := absurd h (Nat.not_lt_zero x)
  marker c h := absurd rfl h
  pending := nofun
  written p base count todo h := by
    simp only [init] at h
    split at h <;> cases h
  filled p base count todo h := by
    simp only [init] at h
    split at h <;> cases h
  reader := trivial
  popped_eq := rfl

theorem ok_init (calls : SafeCalls n) (b : B.State) : Ok calls (init calls b) where
  batchOk := Loop.batchOk_init b
  valid := valid_init calls b
  accounted := ⟨fun x hx => .inr ⟨x, init_holds.mpr ⟨rfl, hx⟩⟩, nofun⟩
  writeIdx := rfl
  plan := rfl
  own _ _ h := (init_holds.mp h).1
  single _ _ _ h := (init_waiting h).2.1

theorem Ok.inWords (hs : Ok calls s) (hn : n + 1 < wordSize) : s.caughtUp.InWords := by
  have hr : s.caughtUp.loop.readIdx ≤ n := hs.writeIdx ▸ hs.valid.read_le
  refine ⟨?_, Nat.lt_of_le_of_lt (Nat.succ_le_succ hr) hn⟩
  exact Nat.lt_of_le_of_lt (Nat.le_of_eq hs.writeIdx) (Nat.lt_of_succ_lt hn)

/-- A cell that shows 0 after the slot one lap earlier has been committed has been taken. -/
theorem Ok.turn (hs : Ok calls s) {base : Nat}
    (hc : queueSize ≤ base → s.committed (base - queueSize) = true)
    (hz : (s.loop.entries (base % queueSize)).sequence = 0) : base < s.loop.taken + queueSize := by
  by_contra hle
  have hq : queueSize ≤ base := by omega
  have hcell : (base - queueSize) % queueSize = base % queueSize := (Nat.mod_eq_sub_mod hq).symm
  -- it would still be marked as committed
  have hmark := hs.accounted.marked (base - queueSize)
    (show s.loop.taken ≤ base - queueSize by omega) (hc hq) fun _ => Loop.caughtUp_pc _
  rw [hcell] at hmark
  have hzero : (s.caughtUp.loop.entries (base % queueSize)).sequence = 0 := by
    show (s.loop.caughtUp.entries _).sequence = 0
    rw [Loop.caughtUp_entries, hz]
  exact Nat.succ_ne_zero _ (hmark.symm.trans hzero)

/-- The thread whose slot comes next, at the latest one lap ahead, finds the cell as it is said to
find it. -/
theorem Ok.test (hs : Ok calls s) (hn : n + 1 < wordSize) {x base count : Nat}
    (hx : s.producer x = .waiting base count) (hb : base < s.loop.taken + queueSize) :
    Ok calls { s with
      producer :=
        Function.update s.producer x (.writing base count (Finset.range count ×ˢ Finset.univ)) } := by
  have hc := hs.single x base count hx
  subst hc
  have hx' : s.caughtUp.producer x = .waiting base 1 := hx
  obtain ⟨hlo, hlt, -⟩ := hs.valid.held x base (by rw [hx']; exact ⟨Nat.le_refl _, Nat.lt_succ_self _⟩)
  have hb' := hs.inWords hn
  have hsub : subWord (base + 1) s.caughtUp.loop.readIdx ≤ queueSize := by
    rw [subWord_of_le (Nat.lt_of_le_of_lt hlt hb'.1) (by omega)]
    have hb : base < s.caughtUp.loop.readIdx + queueSize := hb
    omega
  have hheld : ∀ y, (s.producer x).Holds y →
      (Producer.writing base 1 (Finset.range 1 ×ˢ Finset.univ)).Holds y := by
    rw [hx]
    exact fun _ h => h
  refine ⟨hs.batchOk, Ring.valid_wait hs.valid hb' hx' hsub, hs.accounted.keep hheld, hs.writeIdx,
    hs.plan, fun p y h => ?_, fun p b c h => ?_⟩
  all_goals
    dsimp only at h
    by_cases hp : p = x
    · subst hp
      rw [Function.update_self] at h
      first
        | exact hs.own p y (by rw [hx]; exact h)
        | cases h
    · rw [Function.update_of_ne hp] at h
      first
        | exact hs.own p y h
        | exact hs.single p b c h

/-- A step of the ring. -/
theorem Ok.ring (hs : Ok calls s) (hn : n + 1 < wordSize) {a : Ring.Act Nat B} (ha : a.admits = false)
    (h : s.step a = some t) : Ok calls t := by
  have hb := hs.inWords hn
  have hk := Ring.keeps_of_step ha h
  have hown : ∀ p x, (t.producer p).Holds x → x = p := fun p x hx => hs.own p x (hk.holds p x hx)
  have hsingle : ∀ p base count, t.producer p = .waiting base count → count = 1 := fun p b c hx =>
    hs.single p b c (hk.waiting p b c hx)
  by_cases hl : ∀ l, a ≠ .loop l
  · have hstep := Ring.step_caughtUp ha hl h
    exact ⟨Ring.batchOk_step hs.batchOk h, Ring.valid_step hs.valid hb hstep,
      Ring.accounted_step hs.valid hb hs.accounted hstep, hk.writeIdx.trans hs.writeIdx,
      hk.plan.trans hs.plan, hown, hsingle⟩
  · push Not at hl
    obtain ⟨l, rfl⟩ := hl
    obtain ⟨l', hl', rfl⟩ := Option.map_eq_some_iff.mp h
    obtain ⟨hv, hacc⟩ := Ring.valid_loop_caughtUp hs.valid hs.accounted hb hs.batchOk hl'
    exact ⟨Loop.batchOk_step hs.batchOk hl', hv, hacc, hs.writeIdx, hs.plan, hown, hsingle⟩

theorem ok_step (hn : n + 1 < wordSize) (hs : Ok calls s) {a : Act B} (hc : InTurn s a)
    (h : step s a = some t) : Ok calls t := by
  cases a with
  | test x =>
    simp only [step] at h
    split at h
    · rename_i base count hx
      split at h
      · rename_i hz
        cases h
        simp only [InTurn, hx] at hc
        rw [word_mod_queueSize] at hz
        exact hs.test hn hx (hs.turn hc hz)
      · cases h
    · cases h
  | ring a =>
    simp only [step] at h
    split at h
    · cases h
    · rename_i ha
      exact hs.ring hn (by simpa using ha) h

theorem ok_of_reachable (hn : n + 1 < wordSize) {b : B.State}
    (h : Reachable step InTurn (· = init calls b) s) : Ok calls s :=
  h.invariant (by rintro _ rfl; exact ok_init calls b) fun _ _ _ hs hc ht => ok_step hn hs hc ht

/-! ## A refusal is never for good -/

/-- The thread that moves on towards its commit. -/
def Act.writer : Act B → Option Nat
  | .test x | .ring (.write x _ _) | .ring (.fence x) | .ring (.commit x _) => some x
  | .ring _ => none

theorem step_test {x base count : Nat} (hx : s.producer x = .waiting base count)
    (hz : (s.loop.entries (base % queueSize)).sequence = 0) : step s (.test x) = some { s with
      producer :=
        Function.update s.producer x (.writing base count (Finset.range count ×ˢ Finset.univ)) } := by
  simp only [step, hx, word_mod_queueSize, hz, if_true]

/-- The cell of a slot that is held, no more than one lap ahead of the entries taken, shows 0. -/
theorem Ok.free (hs : Ok calls s) {p x : Nat} (hx : (s.producer p).Holds x)
    (hw : x < s.loop.taken + queueSize) : (s.loop.entries (x % queueSize)).sequence = 0 := by
  obtain ⟨hlo, -, hc⟩ := hs.valid.held p x hx
  by_contra hne
  rw [← Loop.caughtUp_entries] at hne
  obtain ⟨y, hy, hyc, hcell, -⟩ := hs.valid.marker _ hne
  have := Ring.cell_inj hy (hs.valid.committed_lt y hyc).2 hlo hw hcell
  rw [this, hc] at hyc
  cases hyc

theorem Ok.exists_thread_step (hs : Ok calls s) (hn : n + 1 < wordSize)
    (hpc : s.loop.pc.popping = false) (hready : s.loop.ready = false) (hlt : s.loop.readIdx < n) :
    ∃ a t, a.writer = some s.loop.readIdx ∧ step s a = some t := by
  have hsame : s.caughtUp = s := by
    unfold Ring.caughtUp
    rw [Loop.caughtUp_of_ne fun drain got h => by rw [h] at hpc; cases hpc]
  have hb := hsame ▸ hs.inWords hn
  have hacc := hsame ▸ hs.accounted
  have htaken : s.loop.taken = s.loop.readIdx := congrArg (fun r => r.loop.readIdx) hsame
  obtain ⟨p, hp⟩ : ∃ p, (s.producer p).Holds s.loop.readIdx := by
    refine (hacc.owned _ (hs.writeIdx ▸ hlt)).resolve_left fun hc => ?_
    -- a committed slot would be ready
    have hseq := hacc.marked _ (Nat.le_refl _) hc fun _ drain got h => by
      rw [h] at hpc
      cases hpc
    rw [Loop.ready, Loop.entry, hseq, word_of_lt hb.2, beq_self_eq_true] at hready
    cases hready
  obtain rfl := hs.own p _ hp
  cases hprod : s.producer s.loop.readIdx with
  | idle => rw [hprod] at hp; exact hp.elim
  | waiting base count =>
    have hc := hs.single _ base count hprod
    subst hc
    have hbase : base = s.loop.readIdx := hs.own _ base
      (by rw [hprod]; exact ⟨Nat.le_refl _, Nat.lt_succ_self _⟩)
    have hz := hs.free hp (htaken ▸ Nat.lt_add_of_pos_right (by decide))
    exact ⟨.test s.loop.readIdx, _, rfl, step_test hprod (by rwa [hbase])⟩
  | writing base count todo =>
    by_cases h : todo = ∅
    · subst h
      exact ⟨.ring (.fence _), _, rfl, Ring.step_fence hprod⟩
    · obtain ⟨⟨i, f⟩, hi⟩ := Finset.nonempty_iff_ne_empty.mpr h
      exact ⟨.ring (.write _ i f), _, rfl, Ring.step_write hprod hi⟩
  | committing base count todo =>
    rw [hprod] at hp
    obtain ⟨i, hi, -⟩ := hp
    exact ⟨.ring (.commit _ i), _, rfl, Ring.step_commit hprod hi⟩

/-! ## What the test is for -/

/-- Every slot is handed over once, with the fields of its own call. -/
structure SafeWrites (calls : SafeCalls n) (s : Ring Nat B) : Prop where
  /-- No store to a cell whose descriptor of an earlier lap has not been taken out of it. -/
  preserved : ∀ a t x, step s (.ring a) = some t → s.stores a = some x →
    ∀ y, y < x → y % queueSize = x % queueSize → y < s.loop.taken
  popped : s.loop.popped =
    (List.range s.loop.readIdx).map fun x => Descriptor.ofFields x (calls.call x).fields
  readIdx_le : s.loop.readIdx ≤ n
  /-- While a slot is still to be popped and its entry is not ready, its thread can go on. -/
  live : s.loop.readIdx < n → s.loop.pc.popping = false → s.loop.ready = false →
    ∃ a t, a.writer = some s.loop.readIdx ∧ step s a = some t

theorem Ok.preserved (hs : Ok calls s) (hn : n + 1 < wordSize) {a : Ring.Act Nat B}
    (ha : a.admits = false) (h : s.step a = some t) {x : Nat} (hx : s.stores a = some x) :
    ∀ y, y < x → y % queueSize = x % queueSize → y < s.loop.taken := by
  have hl : ∀ l, a ≠ .loop l := fun l he => by
    rw [he] at hx
    cases hx
  have hx' : s.caughtUp.stores a = some x := by
    rw [← hx]
    cases a <;> rfl
  exact (Ring.handOver_of_valid hs.valid (hs.inWords hn)).preserved a t.caughtUp x
    (Ring.step_caughtUp ha hl h) hx'

theorem Ok.popped (hs : Ok calls s) : s.loop.popped =
    (List.range s.loop.readIdx).map fun x => Descriptor.ofFields x (calls.call x).fields := by
  have hall : s.loop.caughtUp.popped = (List.range s.loop.caughtUp.readIdx).map fun x =>
      Descriptor.ofFields x (calls.call x).fields := by
    refine hs.valid.popped_eq.trans (List.map_congr_left fun x _ => ?_)
    rw [Ring.descriptor, show s.caughtUp.plan = _ from hs.plan]
  by_cases h : ∃ drain got, s.loop.pc = .publish drain got
  · -- the entry taken last has not been published
    obtain ⟨drain, got, h⟩ := h
    rw [Loop.caughtUp_popped h, Loop.caughtUp_of_publish h, List.range_succ, List.map_append] at hall
    exact List.append_inj_left' hall rfl
  · push Not at h
    rwa [Loop.caughtUp_of_ne h] at hall

theorem Ok.readIdx_le (hs : Ok calls s) : s.loop.readIdx ≤ n :=
  (Loop.readIdx_le_taken s.loop).trans (hs.writeIdx ▸ hs.valid.read_le)

theorem Ok.safeWrites (hs : Ok calls s) (hn : n + 1 < wordSize) : SafeWrites calls s where
  preserved a t x h hx := by
    simp only [step] at h
    split at h
    · cases h
    · rename_i ha
      exact hs.preserved hn (by simpa using ha) h hx
  popped := hs.popped
  readIdx_le := hs.readIdx_le
  live hlt hpc hready := hs.exists_thread_step hn hpc hready hlt

/-- **`write_descriptor_safe` never overwrites a live descriptor** in a run in which a thread makes
the test of its cell only after the slot one lap earlier has been committed. -/
theorem safeWrites_of_reachable (hn : n + 1 < wordSize) {b : B.State}
    (h : Reachable step InTurn (· = init calls b) s) : SafeWrites calls s :=
  (ok_of_reachable hn h).safeWrites hn

/-! ## Runs -/

instance (s : Ring Nat B) (a : Act B) : Decidable (InTurn s a) := by
  cases a with
  | test x =>
    simp only [InTurn]
    split <;> infer_instance
  | ring => exact .isTrue trivial

/-- One call for each slot; the source address tells them apart. -/
def oneEach (n : Nat) : SafeCalls n where
  call x := ⟨x, 0, 4096 + x, 8192, 16, 1, 0⟩
  slot_eq _ _ := rfl

/-- The stores of thread `x`'s call. -/
def writes (x : Nat) : List (Act B) :=
  [Field.srcAddr, .dstAddr, .size, .flags, .userData].map fun f => .ring (.write x 0 f)

/-- The polling thread pops one entry, from the top of its loop. -/
def pops : List (Act B) :=
  [[.poll, .poll], [.srcAddr, .dstAddr, .size, .flags, .userData].map fun f => Loop.Act.load f,
    [.poll, .poll, .poll, .poll]].flatten.map fun a => .ring (.loop a)

/-- What has been popped, by source address. -/
def sources (s : Ring Nat B) : Nat × List Nat :=
  (s.loop.readIdx, s.loop.popped.map Descriptor.srcAddr)

/-- Slot 0 is written, committed and taken; while `read_idx` still points at it the thread of slot
16384 finds the cell free and writes and commits there. -/
theorem safeWrites_of_reachable_reused : ∃ s : Ring Nat Backend.noop,
    sources s = (1, [4096]) ∧ (s.loop.entries 0).sequence = 16385 ∧
      SafeWrites (oneEach 16385) s := by
  have h : (runWhile step InTurn (init (oneEach 16385) () : Ring Nat Backend.noop)
      ([.test 0] ++ writes 0 ++ [.ring (.fence 0), .ring (.commit 0 0)] ++ pops.dropLast ++
        [.test 16384] ++ writes 16384 ++ [.ring (.fence 16384), .ring (.commit 16384 0)] ++
        [.ring (.loop .poll)])).map (fun s => (sources s, (s.loop.entries 0).sequence)) =
      some ((1, [4096]), 16385) := by decide +kernel
  obtain ⟨s, hs, hp⟩ := Option.map_eq_some_iff.mp h
  obtain ⟨hsrc, hseq⟩ := Prod.mk.inj hp
  exact ⟨s, hsrc, hseq, safeWrites_of_reachable (by decide) ((Reachable.self _).runWhile hs)⟩

/-- Slot 0 is written and not committed when the thread of slot 16384, of the same cell, finds
`sequence = 0` and stores its source address there.  Slot 0 is popped with it. -/
theorem exists_mixed : ∃ s : Ring Nat Backend.noop,
    ReachableFrom step (init (oneEach 16385) ()) s ∧ sources s = (1, [4096 + 16384]) ∧
      ¬ SafeWrites (oneEach 16385) s := by
  have h : (run step (init (oneEach 16385) () : Ring Nat Backend.noop)
      ([.test 0] ++ writes 0 ++ [.test 16384, .ring (.write 16384 0 .srcAddr)] ++
        [.ring (.fence 0), .ring (.commit 0 0)] ++ pops)).map sources =
      some (1, [4096 + 16384]) := by decide +kernel
  obtain ⟨s, hs, hp⟩ := Option.map_eq_some_iff.mp h
  refine ⟨s, (Reachable.self _).run_always hs, hp, fun hw => ?_⟩
  have hsrc := congrArg (List.map Descriptor.srcAddr) hw.popped
  simp only [sources, Prod.mk.injEq] at hp
  rw [hp.1, hp.2] at hsrc
  exact absurd hsrc (by decide)

end SafeWrite
end Gfd
