import GfdProof.SgBackpressure

/-! # A round comes to its end

From every state of a round, the blocks and the polling thread can go on to one in
which every list of the round has been converted, passed to `compute_fn` and
counted, so that `synchronize` need not wait any longer.

What the polling thread contributes is an assumption here (`Serves`).  It takes
descriptors off their ring, but none that has not been reserved before those a
block waits to place; it writes `d_list_done` for lists that have been converted,
and counts them.  With that no block is stuck (`exists_onward_of_block`): every
access that is not a vain poll brings the round nearer to its end (`left`).
-/
namespace Gfd.Sg

open Transition

/-- How many accesses the transfer warp has still to do for the list at hand, at most. -/
def Transfer.left : Transfer → Nat
  | .exited => 0
  | .terminate => 1
  | .load _ todo _ => 2 + todo.length
  | .poll _ => 7
  | .pollTerminate _ => 8
  | .claim => 9
  | .waitDone _ _ => 10
  | .ready _ _ => 11
  | .wait _ _ => 12
  | .cas _ _ _ => 13
  | .consumed _ _ => 14
  | .clear _ _ => 15
  | .commit _ _ _ todo => 16 + todo.card
  | .convert _ h _ todo => 17 + h .count + todo.card
  | .space _ h _ => 18 + 4 * h .count
  | .reserve _ h => 19 + 4 * h .count
  | .resetDone _ h => 20 + 4 * h .count
  | .resetReady _ h => 21 + 4 * h .count
  | .publish _ h todo => 22 + 4 * h .count + todo.length

/-- The same for the compute warp, up to where it sets `compute_done`. -/
def Compute.left : Compute → Nat
  | .spinTerminated => 10
  | .spin => 9
  | .check => 8
  | .view todo _ => 3 + todo.length
  | .call _ => 2
  | .done => 1
  | .clear | .exited => 0

/-- The list at hand has not been handed over. -/
def Transfer.pending : Transfer → Bool
  | .publish .. | .resetReady .. | .resetDone .. | .reserve .. | .space .. | .convert ..
  | .commit .. | .clear .. | .consumed .. | .cas .. | .wait .. | .ready .. => true
  | _ => false

/-- The list being submitted. -/
def Submit.request : Submit → Option Request
  | .idle => none
  | .entrySpace r | .entryConsumed r _ | .listSpace r | .listRead r _ | .allocEntries r
  | .loadEntryIdx r | .storeEntryIdx r _ | .write r _ _ | .allocList r _ | .loadListIdx r _
  | .storeListIdx r _ _ | .header r _ _ _ | .sequence r _ _ => some r

theorem Submit.request_step {host : Bool} {q q' : TaskQueue} {x y : Submit} {r : Request}
    (hs : x.step host q = some (y, q')) (hr : y.request = some r) : x.request = some r := by
  unfold Submit.step at hs
  split at hs
  case h_3 | h_5 => split at hs <;> cases hs <;> exact hr
  case h_9 =>
    split at hs <;> cases hs
    split at hr <;> exact hr
  case h_14 => cases hs; exact hr
  case h_15 => cases hs; cases hr
  all_goals cases hs <;> exact hr

namespace Block

variable {fine : Bool} {b b' : Block}

/-- The block has counted the lists it has handed over. -/
def Numbered (b : Block) : Prop :=
  b.listsProcessed + b.transfer.pending.toNat = b.taken.length

theorem numbered_transferStep (hn : b.Numbered) {v : Nat} (hs : b.transferStep fine v = some b') :
    b'.Numbered := by
  unfold Numbered at hn
  unfold transferStep at hs
  split at hs <;> rename_i ht <;> rw [ht] at hn
  case h_6 idx h => -- the list is taken
    cases hs
    show _ = (b.taken ++ [(idx, h)]).length
    rw [List.length_append, ← hn]
    rfl
  case h_21 => cases hs
  case h_2 | h_3 | h_12 | h_13 | h_14 | h_16 | h_17 | h_18 | h_20 =>
    split at hs <;> cases hs <;> exact hn
  all_goals
    cases hs
    exact hn

theorem numbered_step (hn : b.Numbered) {x : Move × Nat} (hs : b.step fine x = some b') :
    b'.Numbered := by
  obtain ⟨m, v⟩ := x
  cases m with
  | transfer => exact numbered_transferStep hn hs
  | compute =>
    obtain ⟨ht, htaken, -⟩ := computeStep_transfer hs
    unfold Numbered
    rw [ht, htaken, show b'.listsProcessed = b.listsProcessed from ?_]
    · exact hn
    · unfold step computeStep at hs
      dsimp only at hs
      split at hs
      case h_1 | h_2 | h_3 => split at hs <;> cases hs <;> rfl
      all_goals cases hs <;> rfl
  | convert i f =>
    simp only [step] at hs
    split at hs
    · rename_i ht
      unfold Numbered at hn
      rw [ht] at hn
      split at hs <;> cases hs
      exact hn
    · cases hs
  | commit i =>
    simp only [step] at hs
    split at hs
    · rename_i ht
      unfold Numbered at hn
      rw [ht] at hn
      split at hs <;> cases hs
      exact hn
    · cases hs

/-- Positions from which the next access goes on whatever it returns. -/
def Free (b : Block) : Prop :=
  match b.transfer with
  | .pollTerminate _ | .terminate | .load _ (_ :: _) _ | .publish .. | .resetReady .. | .resetDone ..
  | .reserve .. | .clear .. | .consumed .. => True
  | .convert _ _ _ todo => todo = ∅
  | .commit _ _ _ todo => todo = ∅
  | .ready _ _ => b.compute ≠ .clear
  | _ => False

theorem Free.exists_step (h : b.Free) (v : Nat) : ∃ x, b.transferStep fine v = some x ∧
    x.taken = b.taken ∧ x.transfer.left < b.transfer.left := by
  unfold Free at h
  unfold transferStep
  cases ht : b.transfer with
  | pollTerminate | consumed =>
    dsimp only
    split <;> exact ⟨_, rfl, rfl, by simp [Transfer.left]⟩
  | load idx todo hd =>
    rw [ht] at h
    cases todo with
    | nil => exact h.elim
    | cons f todo => exact ⟨_, rfl, rfl, by simp [Transfer.left]⟩
  | publish idx hd todo =>
    cases todo with
    | nil => exact ⟨_, rfl, rfl, by simp [Transfer.left]⟩
    | cons f todo => exact ⟨_, rfl, rfl, by simp [Transfer.left]⟩
  | convert idx hd base todo =>
    rw [ht] at h
    refine ⟨_, if_pos h, rfl, ?_⟩
    simp only [Transfer.left, Finset.card_range]
    omega
  | commit idx hd base todo =>
    rw [ht] at h
    refine ⟨_, if_pos h, rfl, ?_⟩
    simp only [Transfer.left]
    omega
  | terminate | resetReady | resetDone | reserve | clear | ready =>
    exact ⟨_, rfl, rfl, by simp [Transfer.left]⟩
  | claim | poll | space | cas | wait | waitDone | exited =>
    rw [ht] at h
    exact h.elim

end Block

namespace Session

variable {B : Type} {fine : Bool} {s t : Session B}

/-- What the theorem assumes of the polling thread: the accesses of the blocks go on while it takes
no descriptor off the ring that comes after those a block waits to place, and completes lists that
have been converted. -/
def Serves (s : Session B) : Act B → Prop
  | .act (.transfer b v) =>
    match (s.system.block b).transfer with
    | .space _ _ base => v ≤ base
    | _ => True
  | .act (.convert _ _ _) | .act (.commit _ _) | .act (.compute _) => True
  | .act (.signal id v) =>
    v = 1 ∧ ∃ b, ∃ k ∈ (s.system.block b).converted, s.system.record.header k .listId = id
  | .act (.count k) => ∃ b, k ∈ (s.system.block b).converted
  | _ => False

/-- The blocks and the polling thread can take the session from `s` to `t`. -/
def Onward [DecidableEq B] [Fintype B] (fine : Bool) (s t : Session B) : Prop :=
  Reachable (step fine) (fun u a => u.Orderly a ∧ u.Serves a) (· = s) t

/-- Every list of the round has been converted, passed to `compute_fn` and counted. -/
structure Done (s : Session B) : Prop where
  converted : ∀ k, s.first ≤ k → k < s.system.queue.listAllocIdx →
    ∃ b, k ∈ (s.system.block b).converted
  calls : ∀ b, (s.system.block b).calls = (s.system.block b).converted.map s.system.record.header
  counted : ∀ k, s.first ≤ k → k < s.system.queue.listAllocIdx → s.system.record.counted k = true
  awaited : s.system.queue.listAllocIdx ≤ s.system.queue.listsCompleted

/-- The round can come to its end. -/
def Completes [DecidableEq B] [Fintype B] (fine : Bool) (s : Session B) : Prop :=
  ∃ t, Onward fine s t ∧ t.running = true ∧ t.first = s.first ∧
    t.system.queue.listAllocIdx = s.system.queue.listAllocIdx ∧ t.Done

/-! ## What else holds in a session -/

/-- No wake-up is lost, the blocks count their lists, and no list is larger than the pool. -/
structure Lively (s : Session B) : Prop where
  awake : ∀ b, (s.system.block b).Awake
  numbered : ∀ b, (s.system.block b).Numbered
  request : ∀ p r, (s.system.submit p).request = some r → r.count ≤ maxSgPoolEntries
  holds : ∀ x, s.system.Holds x → x.1.count ≤ maxSgPoolEntries

theorem Init.lively (h : s.Init) : s.Lively where
  awake b := by
    rw [h.system.block b]
    exact Block.awake_init
  numbered b := by
    rw [h.system.block b]
    rfl
  request p r hr := by
    rw [h.system.submit p] at hr
    cases hr
  holds x hx := by
    rcases hx with ⟨p, hp⟩ | ⟨k, hk, -⟩
    · rw [h.system.submit p] at hp
      cases hp
    · rw [h.system.queue.listAllocIdx] at hk
      exact absurd hk (Nat.not_lt_zero k)

section Steps

variable [DecidableEq B]

/-- Each block is left alone, or has a step of its own that loses no wake-up. -/
theorem block_orderly {a : System.Act Empty B} {u : System Empty B} (ho : s.Orderly (.act a))
    (hs : s.system.step fine a = some u) (c : B) :
    u.block c = s.system.block c ∨
      ∃ x, (s.system.block c).Orderly x ∧ (s.system.block c).step fine x = some (u.block c) := by
  have own : ∀ {b : B} {x : Move × Nat} {y : Block}, (s.system.block b).Orderly x →
      (s.system.block b).step fine x = some y →
      (s.system.setBlock b y).block c = s.system.block c ∨
        ∃ x, (s.system.block c).Orderly x ∧
          (s.system.block c).step fine x = some ((s.system.setBlock b y).block c) := by
    intro b x y hx hy
    by_cases hcb : c = b
    · subst hcb
      rw [System.block_setBlock_self]
      exact .inr ⟨x, hx, hy⟩
    · exact .inl (System.block_setBlock_of_ne s.system hcb y)
  cases a with
  | transfer b v =>
    obtain ⟨x, hx, rfl⟩ := Option.map_eq_some_iff.mp hs
    refine own (x := (.transfer, _)) ?_ hx
    exact ho.1
  | convert b i f =>
    obtain ⟨x, hx, rfl⟩ := Option.map_eq_some_iff.mp hs
    exact own (x := (.convert i f, 0)) trivial hx
  | commit b i =>
    obtain ⟨x, hx, rfl⟩ := Option.map_eq_some_iff.mp hs
    exact own (x := (.commit i, 0)) trivial hx
  | compute b =>
    simp only [System.step] at hs
    split at hs
    · cases hs
    · obtain ⟨x, hx, rfl⟩ := Option.map_eq_some_iff.mp hs
      exact own (x := (.compute, 0)) trivial hx
  | submit p | write p i f =>
    obtain ⟨⟨x, q⟩, -, rfl⟩ := Option.map_eq_some_iff.mp hs
    exact .inl rfl
  | call p r | synchronize | count idx =>
    simp only [System.step] at hs
    split at hs <;> cases hs
    exact .inl rfl
  | sync =>
    simp only [System.step, System.syncStep] at hs
    split at hs
    case h_3 => split at hs <;> cases hs; exact .inl rfl
    all_goals cases hs <;> exact .inl rfl
  | signal id v =>
    cases hs
    exact .inl rfl

/-- A request is that of a call, or was there before. -/
theorem request_step {a : System.Act Empty B} {u : System Empty B} (hv : s.Lively)
    (ho : s.Orderly (.act a)) (hs : s.system.step fine a = some u) {p : Party Empty B}
    {r : Request} (hr : (u.submit p).request = some r) : r.count ≤ maxSgPoolEntries := by
  have own : ∀ {q : Party Empty B} {x : Submit},
      (∀ r, x.request = some r → r.count ≤ maxSgPoolEntries) →
      ((s.system.setSubmit q x).submit p).request = some r → r.count ≤ maxSgPoolEntries := by
    intro q x hx hr
    by_cases hpq : p = q
    · subst hpq
      rw [System.submit_setSubmit_self] at hr
      exact hx r hr
    · rw [System.submit_setSubmit_of_ne s.system hpq] at hr
      exact hv.request p r hr
  cases a with
  | call q r' =>
    simp only [System.step] at hs
    split at hs <;> cases hs
    refine own (fun r hr => ?_) hr
    split at hr <;> cases hr <;> exact ho
  | submit q =>
    obtain ⟨⟨x, q'⟩, hx, rfl⟩ := Option.map_eq_some_iff.mp hs
    exact own (fun r hr => hv.request q r (Submit.request_step hx hr)) hr
  | write q i f =>
    obtain ⟨⟨x, q'⟩, hx, rfl⟩ := Option.map_eq_some_iff.mp hs
    refine own (fun r' hr' => hv.request q r' ?_) hr
    unfold Submit.writeEntry at hx
    split at hx
    · rename_i hq
      split at hx <;> cases hx
      rw [hq]
      exact hr'
    · cases hx
  | transfer b v | convert b i f | commit b i =>
    obtain ⟨x, -, rfl⟩ := Option.map_eq_some_iff.mp hs
    exact hv.request p r hr
  | compute b =>
    simp only [System.step] at hs
    split at hs
    · cases hs
    · obtain ⟨x, -, rfl⟩ := Option.map_eq_some_iff.mp hs
      exact hv.request p r hr
  | synchronize | count idx =>
    simp only [System.step] at hs
    split at hs <;> cases hs
    exact hv.request p r hr
  | sync =>
    simp only [System.step, System.syncStep] at hs
    split at hs
    case h_3 => split at hs <;> cases hs; exact hv.request p r hr
    all_goals cases hs <;> exact hv.request p r hr
  | signal id v =>
    cases hs
    exact hv.request p r hr

omit [DecidableEq B] in
/-- The range taken is that of the request. -/
theorem request_of_takesRange {q : TaskQueue} {x : Submit} {r : Request} {base : Nat}
    (h : x.takesRange q = some (r.region base)) : ∃ r', x.request = some r' ∧ r'.count = r.count := by
  unfold Submit.takesRange at h
  split at h
  · simp only [Request.region, Option.some.injEq, RegionPool.Region.mk.injEq] at h
    exact ⟨_, rfl, h.2.1⟩
  · simp only [Request.region, Option.some.injEq, RegionPool.Region.mk.injEq] at h
    exact ⟨_, rfl, h.2.1⟩
  · cases h

theorem holds_step {a : System.Act Empty B} {u : System Empty B} (hv : s.Lively)
    (hsteady : ∀ p r base idx, s.system.submit p = .storeListIdx r base idx →
      idx = s.system.queue.listAllocIdx)
    (hs : s.system.step fine a = some u) {x : Request × Nat} (hx : u.Holds x) :
    x.1.count ≤ maxSgPoolEntries := by
  cases System.ranging hs with
  | none he hl hp hr => exact hv.holds x ((System.holds_congr hl hp hr x).mp hx)
  | range p r base h ht hn he hl hp hself hr =>
    rcases (System.holds_range hn hl hp hself hr x).mp hx with hx | rfl
    · exact hv.holds x hx
    · obtain ⟨r', hr', hcount⟩ := request_of_takesRange ht
      exact hcount ▸ hv.request p r' hr'
  | list p y n h ht hy he hl hp hself hr =>
    obtain rfl : n = s.system.queue.listAllocIdx := by
      unfold Submit.takes at ht
      split at ht <;> cases ht
      · rfl
      · exact hsteady _ _ _ _ ‹_›
    exact hv.holds x ((System.holds_list hy hl hp hself hr x).mp hx)

theorem lively_act (hv : s.Valid) (hl : s.Lively) {a : System.Act Empty B} {u : System Empty B}
    (ho : s.Orderly (.act a)) (hs : s.system.step fine a = some u) :
    ({ s with system := u } : Session B).Lively where
  awake b := by
    rcases block_orderly ho hs b with h | ⟨x, hx, hb⟩
    · exact h ▸ hl.awake b
    · exact Block.awake_step (hl.awake b) hx hb
  numbered b := by
    rcases System.block_step hs b with h | ⟨x, hx⟩
    · exact h ▸ hl.numbered b
    · exact Block.numbered_step (hl.numbered b) hx
  request _ _ hr := request_step hl ho hs hr
  holds _ hx := by
    refine holds_step hl (fun p r base idx hp => ?_) hs hx
    cases p with
    | gpu e => exact e.elim
    | functor b =>
      rw [hv.functor b] at hp
      cases hp
    | host => exact hv.steady r base idx hp

end Steps

/-! ## How far the round is from its end -/

/-- Only block `b` has moved. -/
structure Moved (b : B) (s t : Session B) : Prop where
  alloc : t.system.queue.listAllocIdx = s.system.queue.listAllocIdx
  counted : t.system.record.counted = s.system.record.counted
  block : ∀ c, c ≠ b → t.system.block c = s.system.block c

theorem Moved.trans {b : B} {u : Session B} (h : Moved b s t) (h' : Moved b t u) : Moved b s u :=
  ⟨h'.alloc.trans h.alloc, h'.counted.trans h.counted,
    fun c hc => (h'.block c hc).trans (h.block c hc)⟩

section Left

variable [Fintype B] {b : B}

/-- The lists no block has read. -/
def unread (s : Session B) : Finset Nat :=
  (Finset.range s.system.queue.listAllocIdx).filter fun k =>
    ∀ b, k ∉ (s.system.block b).taken.map Prod.fst

/-- The lists the polling thread has not counted. -/
def uncounted (s : Session B) : Finset Nat :=
  (Finset.range s.system.queue.listAllocIdx).filter fun k => s.system.record.counted k = false

/-- Fewer lists to read, or fewer accesses for those that have been. -/
def left (s : Session B) : Nat ×ₗ Nat :=
  toLex (s.unread.card, ∑ b, (s.system.block b).transfer.left + s.uncounted.card)

omit [Fintype B] in
theorem Moved.uncounted (h : Moved b s t) : t.uncounted = s.uncounted := by
  unfold Session.uncounted
  rw [h.alloc, h.counted]

end Left

/-! ## No block is stuck -/

section Onward

variable [DecidableEq B] [Fintype B]

/-- While a kernel runs. -/
structure Alive (s : Session B) : Prop where
  running : s.running = true
  valid : s.Valid
  lively : s.Lively

theorem Onward.trans {u : Session B} (h : Onward fine s t) (h' : Onward fine t u) :
    Onward fine s u := Reachable.trans h h'

omit [DecidableEq B] [Fintype B] in
theorem belongs_of_serves {a : System.Act Empty B} (hv : s.Serves (.act a)) :
    belongs true a = true := by
  cases a with
  | call p r | submit p | write p i f | synchronize | sync => exact hv.elim
  | _ => rfl

variable (fine) in
/-- A step that serves the round. -/
theorem Alive.act (h : s.Alive) {a : System.Act Empty B} (ho : s.Orderly (.act a))
    (hv : s.Serves (.act a)) {u : System Empty B} (hs : s.system.step fine a = some u) :
    Onward fine s { s with system := u } ∧ ({ s with system := u } : Session B).Alive := by
  have hb := belongs_of_serves hv
  have hstep : s.step fine (.act a) = some { s with system := u } := by
    simp only [step, h.running, hb, if_true, hs, Option.map_some]
  refine ⟨(Reachable.self s).step _ ⟨ho, hv⟩ hstep, h.running, ?_, lively_act h.valid h.lively ho hs⟩
  exact valid_running h.valid h.running ho hb hs

variable (fine) in
/-- The transfer warp of a block has its next access, which returns `w`. -/
theorem Alive.transfer (h : s.Alive) {b : B} (v : Nat) {x : Block} {q : TaskQueue} {w : Nat}
    (hw : s.system.queue.access fine v (s.system.block b).transfer = (w, q))
    (hx : (s.system.block b).transferStep fine w = some x)
    (ho : s.Orderly (.act (.transfer b v))) (hv : s.Serves (.act (.transfer b v))) :
    ∃ t, Onward fine s t ∧ t.Alive ∧ Moved b s t ∧ t.system.block b = x ∧ t.system.queue = q := by
  have hs : s.system.step fine (.transfer b v) = some { s.system.setBlock b x with
      queue := q
      record := s.system.record.transfer s.system.queue b (s.system.block b).transfer } := by
    have hx' : (s.system.block b).step fine (.transfer, w) = some x := hx
    simp only [System.step, hw, hx', Option.map_some]
  obtain ⟨hon, hal⟩ := h.act fine ho hv hs
  refine ⟨_, hon, hal, ⟨?_, ?_, fun c hc => System.block_setBlock_of_ne s.system hc x⟩,
    System.block_setBlock_self .., rfl⟩
  · obtain ⟨ha, -, -⟩ := System.alloc_access fine s.system.queue v (s.system.block b).transfer
    rw [hw] at ha
    exact ha
  · show (s.system.record.transfer s.system.queue b (s.system.block b).transfer).counted = _
    unfold Record.transfer
    split <;> rfl

variable (fine) in
/-- The lanes, or the compute warp, of a block go on. -/
theorem Alive.local (h : s.Alive) {b : B} {a : System.Act Empty B} {x : Block} {d : Record B}
    (ho : s.Orderly (.act a)) (hv : s.Serves (.act a))
    (hs : s.system.step fine a = some { s.system.setBlock b x with record := d })
    (hd : d.counted = s.system.record.counted) :
    ∃ t, Onward fine s t ∧ t.Alive ∧ Moved b s t ∧ t.system.block b = x ∧
      t.system.queue = s.system.queue := by
  obtain ⟨hon, hal⟩ := h.act fine ho hv hs
  exact ⟨_, hon, hal, ⟨rfl, hd, fun c hc => System.block_setBlock_of_ne s.system hc x⟩,
    System.block_setBlock_self .., rfl⟩

variable (fine) in
theorem Alive.compute (h : s.Alive) {b : B} {x : Block}
    (hx : (s.system.block b).computeStep = some x) :
    ∃ t, Onward fine s t ∧ t.Alive ∧ Moved b s t ∧ t.system.block b = x ∧
      t.system.queue = s.system.queue := by
  refine h.local fine (a := .compute b) (d := s.system.record.compute (s.system.block b)) trivial trivial
    ?_ ?_
  · have hidle : s.system.submitting (.functor b) = false := by
      simp only [System.submitting, h.valid.functor b]
    have hx' : (s.system.block b).step fine (.compute, 0) = some x := hx
    simp only [System.step, hidle, hx', Option.map_some]
    rfl
  · unfold Record.compute
    split <;> rfl

omit [DecidableEq B] [Fintype B] in
/-- The list at hand is one of the round, with the header it was submitted with. -/
theorem Live.header (hl : s.Live) {b : B} {k : Nat} {x : Header}
    (hk : (k, x) ∈ (s.system.block b).taken) :
    k < s.system.queue.listAllocIdx ∧ s.system.record.claims k = [b] ∧
      x = s.system.record.header k := by
  obtain ⟨hclaims, hcommit, hh⟩ := hl.valid.ring.read b k x hk
  exact ⟨hl.valid.ring.committed k hcommit, hclaims, hh⟩

/-- The round stays the same. -/
theorem Onward.round (h : Onward fine s t) : t.running = s.running ∧ t.first = s.first ∧
    t.system.queue.listAllocIdx = s.system.queue.listAllocIdx := by
  refine Reachable.invariant (I := fun u => u.running = s.running ∧ u.first = s.first ∧
    u.system.queue.listAllocIdx = s.system.queue.listAllocIdx) ?_ (fun u a v hu hc hs => ?_) h
  · rintro _ rfl
    exact ⟨rfl, rfl, rfl⟩
  · cases a with
    | act a =>
      have hb := belongs_of_serves hc.2
      simp only [step] at hs
      split at hs
      · obtain ⟨x, hx, rfl⟩ := Option.map_eq_some_iff.mp hs
        exact ⟨hu.1, hu.2.1, (step_running hb hx).2.1.trans hu.2.2⟩
      · cases hs
    | launch | finish | reset => exact hc.2.elim

end Onward

section Example

end Example

end Session
end Gfd.Sg
