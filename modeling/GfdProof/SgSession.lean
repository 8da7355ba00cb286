import GfdProof.SgTermination

/-! # A session over several rounds

`SGWarpSpecSession`: the host submits lists, launches the kernel, and
synchronizes; then it may begin the next round, with `reset` before it or
without.  In every round each list submitted for it, and no other, is processed,
and `synchronize` waits for these (`RoundIntegrity`) — in the runs in which each
launch is the first since the last `reset`, or no list has been submitted since
(`Orderly`).

`launch` clears `lists_completed`, but neither `list_alloc_idx` nor
`list_read_idx`.  Every block leaves with an index it has claimed beyond the
lists, so that a second round begins with its first lists claimed already, and
`synchronize` waits for the lists of the rounds before as well
(`exists_stranded`).
-/
namespace Gfd.Sg

open Transition

/-- What `launch` sets, and the blocks of a new kernel. -/
def System.relaunch {S B : Type} (s : System S B) : System S B :=
  { s with
    queue := { s.queue with terminate := false, listsCompleted := 0, dListDone := fun _ => 0 }
    block := fun _ => Block.init
    sync := .idle
    record := { s.record with counted := fun _ => false } }

/-- What `reset` sets. -/
def System.reset {S B : Type} (s : System S B) : System S B :=
  { s with
    queue :=
      { lists := fun c => { s.queue.lists c with sequence := 0 }
        entries := s.queue.entries
        listAllocIdx := 0
        entryAllocIdx := 0
        listReadIdx := 0
        entryConsumedIdx := 0
        listsCompleted := 0
        terminate := false
        dListDone := fun _ => 0 }
    record :=
      { s.record with
        committed := fun _ => false
        claims := fun _ => []
        cleared := fun _ => false
        computed := fun _ => false
        counted := fun _ => false } }

/-- A session: only the host submits. -/
structure Session (B : Type) where
  system : System Empty B
  /-- A kernel has been launched, and `synchronize` has not returned. -/
  running : Bool
  /-- `list_alloc_idx` when the round began. -/
  first : Nat

namespace Session

variable {B : Type}

inductive Act (B : Type)
  | act (a : System.Act Empty B)
  | launch
  /-- `synchronize` returns. -/
  | finish
  | reset

/-- What may happen while a kernel runs, and what while none does. -/
def belongs (running : Bool) : System.Act Empty B → Bool
  | .call .host _ | .submit .host | .write .host _ _ => !running
  | .call .. | .submit .. | .write .. => false
  | _ => running

def step [DecidableEq B] [Fintype B] (fine : Bool) (s : Session B) : Act B → Option (Session B)
  | .act a =>
    if belongs s.running a then (s.system.step fine a).map fun t => { s with system := t }
    else none
  | .launch =>
    if s.running = false ∧ s.system.submitting .host = false then
      some { s with system := s.system.relaunch, running := true }
    else none
  | .finish =>
    if s.running = true ∧ s.system.sync = .device ∧ ∀ b, (s.system.block b).gone = true then
      some {
        system := { s.system with sync := .idle }
        running := false
        first := s.system.queue.listAllocIdx }
    else none
  | .reset =>
    if s.running = false ∧ s.system.submitting .host = false ∧
        s.system.queue.listAllocIdx = s.first then
      some { system := s.system.reset, running := false, first := 0 }
    else none

/-- A launch is the first since the last reset, or there are no lists.  A round's
lists fit into the ring, and each of them into the pool.  No block claims the last
index of the 64-bit range, or sets `list_ready` before it has been cleared. -/
def Orderly (s : Session B) : Act B → Prop
  | .launch => s.system.queue.listReadIdx = 0 ∨ s.system.queue.listAllocIdx = 0
  | .act (.call _ r) => r.count ≤ maxSgPoolEntries
  | .act (.submit p) =>
    match (s.system.submit p).takes s.system.queue with
    | some n => n < s.first + maxSgLists
    | none => True
  | .act (.transfer b v) =>
    (s.system.block b).Orderly (.transfer, v) ∧
      match (s.system.block b).transfer with
      | .claim => s.system.queue.listReadIdx < wordSize - 1
      | _ => True
  | _ => True

structure Init (s : Session B) : Prop where
  system : s.system.Init
  running : s.running = false
  first : s.first = 0

/-- The block waits for a list that has not been committed, or leaves. -/
def AtRest (s : System Empty B) (b : B) : Prop :=
  match (s.block b).transfer with
  | .poll n | .pollTerminate n => s.record.committed n = false
  | .terminate | .exited => True
  | _ => False

/-- What a round is for, while its kernel runs. -/
structure RoundIntegrity (s : Session B) : Prop where
  /-- What is processed is a list of this round, and by one block. -/
  own : ∀ b k h, (k, h) ∈ (s.system.block b).taken →
    s.first ≤ k ∧ k < s.system.queue.listAllocIdx ∧ h = s.system.record.header k ∧
      ∀ c, k ∈ (s.system.block c).taken.map Prod.fst → c = b
  once : ∀ b, ((s.system.block b).taken.map Prod.fst).Nodup
  /-- When no block has a list to process, they all have been. -/
  processed : (∀ b, AtRest s.system b) → ∀ k, s.first ≤ k → k < s.system.queue.listAllocIdx →
    ∃ b, k ∈ (s.system.block b).taken.map Prod.fst
  /-- When all have been counted, `synchronize` need not wait. -/
  awaited : (∀ k, s.first ≤ k → k < s.system.queue.listAllocIdx →
    s.system.record.counted k = true) → s.system.queue.listAllocIdx ≤ s.system.queue.listsCompleted
  /-- When all blocks have left, every list has been converted and passed to
  `compute_fn`. -/
  finished : (∀ b, (s.system.block b).gone = true) →
    (∀ k, s.first ≤ k → k < s.system.queue.listAllocIdx →
      ∃ b, k ∈ (s.system.block b).converted) ∧
    ∀ b, (s.system.block b).calls = (s.system.block b).converted.map s.system.record.header

/-! ## The invariant -/

/-- The block is about to read list `k`, if it is committed. -/
def LooksAt (b : Block) (k : Nat) : Prop :=
  match b.transfer with
  | .poll n | .pollTerminate n | .load n _ _ => n = k
  | _ => False

/-- While a kernel runs. -/
structure Live (s : Session B) : Prop where
  first : s.first = 0
  host : s.system.submit .host = .idle
  valid : s.system.TermValid
  /-- A list that is claimed is being looked at, or has been read. -/
  attended : ∀ k, k < s.system.queue.listReadIdx → k < s.system.queue.listAllocIdx →
    s.system.ring.WasRead k ∨ ∃ b, LooksAt (s.system.block b) k
  fresh : s.system.queue.listReadIdx = 0 → ∀ b, (s.system.block b).transfer = .claim

/-- The invariant of a session. -/
structure Valid (s : Session B) : Prop where
  first_le : s.first ≤ s.system.queue.listAllocIdx
  steady : ∀ r base idx, s.system.submit .host = .storeListIdx r base idx →
    idx = s.system.queue.listAllocIdx
  functor : ∀ b, s.system.submit (.functor b) = .idle
  /-- Where a launch is allowed, it starts as a fresh queue would. -/
  ready : s.running = false →
    s.system.queue.listReadIdx = 0 ∨ s.system.queue.listAllocIdx = 0 →
    s.first = 0 ∧ s.system.relaunch.TermValid
  live : s.running = true → s.Live

variable {s s' : Session B}

theorem Init.valid (h : s.Init) : s.Valid where
  first_le := h.first ▸ Nat.zero_le _
  steady r base idx hp := by cases (h.system.submit .host).symm.trans hp
  functor b := h.system.submit (.functor b)
  ready _ _ := ⟨h.first, System.Init.termValid
    ⟨⟨h.system.queue.listAllocIdx, h.system.queue.entryAllocIdx, h.system.queue.listReadIdx,
      h.system.queue.entryConsumedIdx, rfl, rfl, h.system.queue.sequence, fun _ => rfl⟩,
      fun _ => rfl, h.system.submit, rfl, h.system.committed, h.system.claims, h.system.cleared,
      h.system.computed, fun _ => rfl⟩⟩
  live hr := by cases h.running.symm.trans hr

/-! ## Between the kernels -/

section Submitting

variable [DecidableEq B] {fine : Bool}

/-- A submission does not look at what `launch` sets. -/
theorem submit_relaunch {host : Bool} {q q' : TaskQueue} {x y : Submit}
    (hs : x.step host q = some (y, q')) :
    x.step host { q with terminate := false, listsCompleted := 0, dListDone := fun _ => 0 } =
      some (y, { q' with terminate := false, listsCompleted := 0, dListDone := fun _ => 0 }) := by
  unfold Submit.step at hs ⊢
  split at hs
  case h_3 | h_5 => split at hs <;> cases hs <;> simp only [*, if_true, if_false]
  case h_9 => split at hs <;> cases hs; simp only [*, if_true]
  all_goals cases hs <;> rfl

/-- While no kernel runs, the host does the same before the launch as it would
after. -/
theorem step_relaunch {t t' : System Empty B} {a : System.Act Empty B}
    (ha : belongs false a = true) (hs : t.step fine a = some t') :
    t.relaunch.step fine a = some t'.relaunch := by
  unfold belongs at ha
  split at ha
  case h_1 r =>
    simp only [System.step] at hs ⊢
    split at hs <;> cases hs
    rename_i hc
    have hidle : t.submit .host = .idle := by
      unfold System.mayCall at hc
      split at hc <;> first | assumption | cases hc
    have hc' : t.relaunch.mayCall .host = true := by
      simp only [System.mayCall, System.relaunch, hidle, decide_true]
    rw [if_pos hc']
    rfl
  case h_2 =>
    obtain ⟨⟨x, q⟩, hx, rfl⟩ := Option.map_eq_some_iff.mp hs
    refine Option.map_eq_some_iff.mpr ⟨_, submit_relaunch hx, ?_⟩
    have hrec : t.relaunch.record.submit t.relaunch.queue (t.submit .host) =
        { t.record.submit t.queue (t.submit .host) with counted := fun _ => false } := by
      unfold Record.submit
      split <;> rfl
    show ({ t.relaunch.setSubmit .host x with
      queue := { q with terminate := false, listsCompleted := 0, dListDone := fun _ => 0 }
      record := t.relaunch.record.submit t.relaunch.queue (t.submit .host) } : System Empty B) = _
    rw [hrec]
    rfl
  case h_3 i f =>
    obtain ⟨⟨x, q⟩, hx, rfl⟩ := Option.map_eq_some_iff.mp hs
    unfold Submit.writeEntry at hx
    split at hx
    case h_2 => cases hx
    rename_i r base todo hp
    split at hx <;> cases hx
    rename_i hif
    refine Option.map_eq_some_iff.mpr ⟨(.write r base (todo.erase (i, f)), _), ?_, rfl⟩
    show (t.submit .host).writeEntry t.relaunch.queue i f = _
    rw [hp, Submit.writeEntry, if_pos hif]
    rfl
  all_goals cases ha

theorem submit_steady {host : Bool} {q q' : TaskQueue} {x : Submit} {r : Request} {base idx : Nat}
    (hs : x.step host q = some (.storeListIdx r base idx, q')) : idx = q'.listAllocIdx := by
  unfold Submit.step at hs
  split at hs
  case h_3 | h_5 => split at hs <;> cases hs
  case h_9 => split at hs <;> (try split at hs) <;> cases hs
  all_goals cases hs
  rfl

theorem submit_listReadIdx {host : Bool} {q q' : TaskQueue} {x y : Submit}
    (hs : x.step host q = some (y, q')) : q'.listReadIdx = q.listReadIdx := by
  unfold Submit.step at hs
  split at hs
  case h_3 | h_5 => split at hs <;> (cases hs; rfl)
  case h_9 => split at hs <;> cases hs; rfl
  all_goals cases hs <;> rfl

omit [DecidableEq B] in
/-- Where the host takes an index, it is the next. -/
theorem takes_eq {t : System Empty B} {n : Nat}
    (hsteady : ∀ r base idx, t.submit .host = .storeListIdx r base idx →
      idx = t.queue.listAllocIdx)
    (hn : (t.submit .host).takes t.queue = some n) : n = t.queue.listAllocIdx := by
  unfold Submit.takes at hn
  split at hn <;> cases hn
  · rfl
  · exact hsteady _ _ _ ‹_›

/-- What the submitting of a list changes. -/
theorem step_submitting {t t' : System Empty B} {a : System.Act Empty B}
    (ha : belongs false a = true) (hs : t.step fine a = some t')
    (hsteady : ∀ r base idx, t.submit .host = .storeListIdx r base idx →
      idx = t.queue.listAllocIdx) :
    (∀ r base idx, t'.submit .host = .storeListIdx r base idx → idx = t'.queue.listAllocIdx) ∧
      (∀ b, t'.submit (.functor b) = t.submit (.functor b)) ∧
      t'.queue.listReadIdx = t.queue.listReadIdx ∧ t.queue.listAllocIdx ≤ t'.queue.listAllocIdx := by
  have hne : ∀ b : B, (.functor b : Party Empty B) ≠ .host := by simp
  unfold belongs at ha
  split at ha
  case h_1 r =>
    simp only [System.step] at hs
    split at hs <;> cases hs
    refine ⟨fun r' base idx h => ?_, fun b => System.submit_setSubmit_of_ne t (hne b) _, rfl, le_rfl⟩
    rw [System.submit_setSubmit_self] at h
    cases h
  case h_2 =>
    obtain ⟨⟨x, q⟩, hx, rfl⟩ := Option.map_eq_some_iff.mp hs
    have hle : t.queue.listAllocIdx ≤ q.listAllocIdx := by
      obtain ⟨-, -, h | ⟨n, hn, h⟩⟩ := System.alloc_submit hx
      · exact h.ge
      · rw [h, takes_eq hsteady hn]
        exact Nat.le_succ _
    refine ⟨fun r base idx h => ?_, fun b => System.submit_setSubmit_of_ne t (hne b) x,
      submit_listReadIdx hx, hle⟩
    cases (System.submit_setSubmit_self t .host x).symm.trans h
    exact submit_steady hx
  case h_3 i f =>
    obtain ⟨⟨x, q⟩, hx, rfl⟩ := Option.map_eq_some_iff.mp hs
    unfold Submit.writeEntry at hx
    split at hx
    case h_2 => cases hx
    rename_i r base todo _
    split at hx <;> cases hx
    let x : Submit := .write r base (todo.erase (i, f))
    refine ⟨fun r base idx h => ?_, fun b => System.submit_setSubmit_of_ne t (hne b) x, rfl, le_rfl⟩
    exact absurd ((System.submit_setSubmit_self t .host x).symm.trans h) (by simp)
  all_goals cases ha

theorem valid_submitting (hv : s.Valid) (hr : s.running = false) {a : System.Act Empty B}
    (ho : s.Orderly (.act a)) {t : System Empty B} (ha : belongs false a = true)
    (hs : s.system.step fine a = some t) : ({ s with system := t } : Session B).Valid := by
  obtain ⟨hsteady, hfunctor, hread, halloc⟩ := step_submitting ha hs hv.steady
  refine ⟨hv.first_le.trans halloc, hsteady, fun b => (hfunctor b).trans (hv.functor b),
    fun _ h => ?_, fun h => by cases hr.symm.trans h⟩
  -- the launch would have been allowed before
  have hbefore : s.system.queue.listReadIdx = 0 ∨ s.system.queue.listAllocIdx = 0 :=
    h.imp hread.symm.trans fun h0 : t.queue.listAllocIdx = 0 => Nat.le_zero.mp (h0 ▸ halloc)
  obtain ⟨hfirst, hterm⟩ := hv.ready hr hbefore
  refine ⟨hfirst, System.termValid_step hterm ⟨?_, ?_⟩ (step_relaunch ha hs)⟩
  · unfold belongs at ha
    split at ha
    case h_2 =>
      simp only [Orderly] at ho
      show match (s.system.submit .host).takes s.system.relaunch.queue with
        | some n => n = s.system.queue.listAllocIdx ∧ n < wordSize - 1 ∧
            (n < maxSgLists ∨ s.system.record.cleared (n - maxSgLists) = true)
        | none => True
      have htakes : (s.system.submit .host).takes s.system.relaunch.queue =
          (s.system.submit .host).takes s.system.queue := by
        unfold Submit.takes
        split <;> rfl
      rw [htakes]
      split at ho
      · rename_i n hn
        rw [hfirst, Nat.zero_add] at ho
        exact ⟨takes_eq hv.steady hn, ho.trans (by decide), .inl ho⟩
      · trivial
    all_goals trivial
  · cases a <;> first | trivial | exact fun _ => rfl

omit [DecidableEq B] in
theorem valid_launch (hv : s.Valid) (ho : s.Orderly .launch)
    (hsub : s.system.submitting .host = false) (hr : s.running = false) :
    ({ s with system := s.system.relaunch, running := true } : Session B).Valid := by
  obtain ⟨hfirst, hterm⟩ := hv.ready hr ho
  have hhost : s.system.submit .host = .idle := by
    unfold System.submitting at hsub
    split at hsub
    · assumption
    · cases hsub
  refine ⟨hv.first_le, hv.steady, hv.functor, nofun, fun _ => ⟨hfirst, hhost, hterm, ?_, ?_⟩⟩
  · intro k hk hk'
    rcases ho with h | h
    · exact absurd (h ▸ hk) (Nat.not_lt_zero k)
    · exact absurd (h ▸ hk') (Nat.not_lt_zero k)
  · exact fun _ _ => rfl

omit [DecidableEq B] in
theorem valid_reset (hv : s.Valid) (hsub : s.system.submitting .host = false) :
    ({ system := s.system.reset, running := false, first := 0 } : Session B).Valid := by
  have hhost : s.system.submit .host = .idle := by
    unfold System.submitting at hsub
    split at hsub
    · assumption
    · cases hsub
  have hidle : ∀ p, s.system.submit p = .idle := by
    intro p
    cases p with
    | gpu e => exact e.elim
    | functor b => exact hv.functor b
    | host => exact hhost
  refine ⟨le_rfl, fun r base idx h => ?_, hv.functor, fun _ _ => ⟨rfl, System.Init.termValid ?_⟩,
    nofun⟩
  · cases hhost.symm.trans h
  · exact ⟨⟨rfl, rfl, rfl, rfl, rfl, rfl, fun _ => rfl, fun _ => rfl⟩, fun _ => rfl, hidle, rfl,
      fun _ => rfl, fun _ => rfl, fun _ => rfl, fun _ => rfl, fun _ => rfl⟩

end Submitting

/-! ## While a kernel runs -/

theorem looksAt_transferStep {fine : Bool} {b b' : Block} {v k : Nat}
    (hs : b.transferStep fine v = some b') (h : LooksAt b k) :
    LooksAt b' k ∨ k ∈ b'.taken.map Prod.fst ∨ System.Leaving b' := by
  unfold LooksAt at h
  unfold Block.transferStep at hs
  split at hs <;> rename_i ht <;> simp only [ht] at h
  case h_2 => split at hs <;> cases hs <;> exact .inl h
  case h_3 =>
    split at hs <;> cases hs
    · exact .inr (.inr trivial)
    · exact .inl h
  case h_5 => cases hs; exact .inl h
  case h_6 idx x =>
    cases hs
    subst h
    refine .inr (.inl ?_)
    rw [List.map_append]
    exact List.mem_append_right _ (List.mem_singleton_self _)

theorem looksAt_step {fine : Bool} {b b' : Block} {x : Move × Nat} {k : Nat}
    (hs : b.step fine x = some b') (h : LooksAt b k) :
    LooksAt b' k ∨ k ∈ b'.taken.map Prod.fst ∨ System.Leaving b' := by
  obtain ⟨m, v⟩ := x
  cases m with
  | transfer => exact looksAt_transferStep hs h
  | compute =>
    left
    unfold LooksAt at h ⊢
    rwa [(Block.computeStep_transfer hs).1]
  | convert i f =>
    simp only [Block.step] at hs
    split at hs
    · simp only [LooksAt, *] at h
    · cases hs
  | commit i =>
    simp only [Block.step] at hs
    split at hs
    · simp only [LooksAt, *] at h
    · cases hs

section Running

variable [DecidableEq B] {fine : Bool}

theorem access_listReadIdx {q : TaskQueue} {v : Nat} {t : Transfer} (ht : t ≠ .claim) :
    (q.access fine v t).2.listReadIdx = q.listReadIdx := by
  unfold TaskQueue.access
  split
  case h_1 => exact absurd rfl ht
  case h_7 => split <;> rfl
  all_goals rfl

/-- The other blocks stay where they are, and a block that moves was not about to
claim. -/
theorem claiming_setBlock {t : System Empty B} {b : B} {x : Block}
    (h : (t.block b).transfer = .claim → x.transfer = .claim) (c : B)
    (hc : (t.block c).transfer = .claim) : ((t.setBlock b x).block c).transfer = .claim := by
  by_cases hcb : c = b
  · subst hcb
    rw [System.block_setBlock_self]
    exact h hc
  · rw [System.block_setBlock_of_ne t hcb]
    exact hc

/-- What a step changes while a kernel runs. -/
theorem step_running {t t' : System Empty B} {a : System.Act Empty B}
    (ha : belongs true a = true) (hs : t.step fine a = some t') :
    t'.submit = t.submit ∧ t'.queue.listAllocIdx = t.queue.listAllocIdx ∧
      (t'.queue.listReadIdx = t.queue.listReadIdx ∧
          (∀ b, (t.block b).transfer = .claim → (t'.block b).transfer = .claim) ∨
        t'.queue.listReadIdx = t.queue.listReadIdx + 1 ∧
          ∃ b, (t'.block b).transfer = .poll t.queue.listReadIdx) := by
  cases a with
  | call p r => cases p <;> cases ha
  | submit p => cases p <;> cases ha
  | write p i f => cases p <;> cases ha
  | transfer b v =>
    obtain ⟨x, hx, rfl⟩ := Option.map_eq_some_iff.mp hs
    obtain ⟨halloc, -, -⟩ := System.alloc_access fine t.queue v (t.block b).transfer
    refine ⟨rfl, halloc, ?_⟩
    by_cases hc : (t.block b).transfer = .claim
    · simp only [Block.step, Block.transferStep, hc] at hx
      cases hx
      refine .inr ⟨by simp only [hc], b, ?_⟩
      exact congrArg Block.transfer (System.block_setBlock_self t b _)
    · exact .inl ⟨access_listReadIdx hc, claiming_setBlock fun h => absurd h hc⟩
  | convert b i f | commit b i =>
    obtain ⟨x, hx, rfl⟩ := Option.map_eq_some_iff.mp hs
    refine ⟨rfl, rfl, .inl ⟨rfl, claiming_setBlock fun h => ?_⟩⟩
    simp only [Block.step, h] at hx
    cases hx
  | compute b =>
    simp only [System.step] at hs
    split at hs
    · cases hs
    obtain ⟨x, hx, rfl⟩ := Option.map_eq_some_iff.mp hs
    refine ⟨rfl, rfl, .inl ⟨rfl, claiming_setBlock fun h => ?_⟩⟩
    exact (Block.computeStep_transfer hx).1.trans h
  | synchronize | count idx =>
    simp only [System.step] at hs
    split at hs <;> cases hs
    exact ⟨rfl, rfl, .inl ⟨rfl, fun _ h => h⟩⟩
  | sync =>
    simp only [System.step, System.syncStep] at hs
    split at hs
    case h_3 => split at hs <;> cases hs; exact ⟨rfl, rfl, .inl ⟨rfl, fun _ h => h⟩⟩
    all_goals cases hs <;> exact ⟨rfl, rfl, .inl ⟨rfl, fun _ h => h⟩⟩
  | signal id v =>
    cases hs
    exact ⟨rfl, rfl, .inl ⟨rfl, fun _ h => h⟩⟩

omit [DecidableEq B] in
/-- Once `terminate` is set, all lists have been read. -/
theorem wasRead_of_leaving {t : System Empty B} (hv : t.TermValid) {b : B}
    (hb : System.Leaving (t.block b)) {k : Nat} (hk : k < t.queue.listAllocIdx) :
    t.ring.WasRead k := by
  have hdev := hv.raised (hv.leaving b hb)
  have haw := hv.awaited
  simp only [System.Awaited, hdev] at haw
  exact hv.counted k (haw k hk)

theorem valid_running (hv : s.Valid) (hr : s.running = true) {a : System.Act Empty B}
    (ho : s.Orderly (.act a)) {t : System Empty B} (ha : belongs true a = true)
    (hs : s.system.step fine a = some t) : ({ s with system := t } : Session B).Valid := by
  obtain ⟨hsub, halloc, hread⟩ := step_running ha hs
  obtain ⟨hfirst, hhost, hterm, hatt, hfresh⟩ := hv.live hr
  have horderly : s.system.TermOrderly a := by
    refine ⟨?_, ?_⟩
    · cases a with
      | submit p => cases p <;> cases ha
      | transfer b v => exact ho.2
      | _ => trivial
    · cases a with
      | submit p => cases p <;> cases ha
      | _ => trivial
  have hterm' := System.termValid_step hterm horderly hs
  have hkeep : ∀ k, k < s.system.queue.listAllocIdx →
      s.system.ring.WasRead k ∨ (∃ b, LooksAt (s.system.block b) k) →
      t.ring.WasRead k ∨ ∃ b, LooksAt (t.block b) k := by
    rintro k hk (h | ⟨b, h⟩)
    · exact .inl (System.wasRead_step hs h)
    · rcases System.block_step hs b with he | ⟨x, hx⟩
      · exact .inr ⟨b, he ▸ h⟩
      · rcases looksAt_step hx h with h | h | h
        · exact .inr ⟨b, h⟩
        · obtain ⟨⟨_, y⟩, hy, rfl⟩ := List.mem_map.mp h
          exact .inl ⟨b, y, hy⟩
        · exact .inl (wasRead_of_leaving hterm' h (halloc ▸ hk))
  refine ⟨halloc ▸ hv.first_le, fun r base idx h => ?_, fun b => ?_,
    fun h => (by cases hr.symm.trans h), fun _ => ⟨hfirst, ?_, hterm', fun k hk hk' => ?_, ?_⟩⟩
  · rw [hsub, hhost] at h
    cases h
  · rw [hsub]
    exact hv.functor b
  · show t.submit .host = .idle
    rw [hsub]
    exact hhost
  · replace hk' : k < s.system.queue.listAllocIdx := halloc ▸ hk'
    rcases hread with ⟨he, -⟩ | ⟨he, b, hb⟩
    · exact hkeep k hk' (hatt k (he ▸ hk) hk')
    · rcases Nat.lt_succ_iff_lt_or_eq.mp (he ▸ hk) with h | h
      · exact hkeep k hk' (hatt k h hk')
      · refine .inr ⟨b, ?_⟩
        simp only [LooksAt, hb]
        exact h.symm
  · intro h0
    rcases hread with ⟨he, hstay⟩ | ⟨he, -⟩
    · exact fun b => hstay b (hfresh (he.symm.trans h0) b)
    · exact absurd (he.symm.trans h0) (Nat.succ_ne_zero _)

omit [DecidableEq B] in
/-- A round without lists leaves the queue as it was, for the next launch. -/
theorem termValid_relaunch {t : System Empty B} (hv : t.TermValid)
    (h0 : t.queue.listAllocIdx = 0) : t.relaunch.TermValid where
  ring := hv.ring.restart h0
  block _ := Block.valid_init
  counted k hk := by cases hk
  completed := by
    show 0 = (System.countedLists _).card
    simp only [System.countedLists, System.relaunch, h0, Finset.range_zero, Finset.filter_empty,
      Finset.card_empty]
  awaited := trivial
  raised ht := by cases ht
  leaving b hb := hb.elim

theorem transfer_of_gone {b : Block} (h : b.gone = true) : b.transfer = .exited := by
  unfold Block.gone at h
  split at h
  · assumption
  · cases h

omit [DecidableEq B] in
theorem valid_finish [Nonempty B] (hv : s.Valid) (hr : s.running = true)
    (hg : ∀ b, (s.system.block b).gone = true) :
    ({ system := { s.system with sync := .idle }
       running := false
       first := s.system.queue.listAllocIdx } : Session B).Valid := by
  obtain ⟨hfirst, hhost, hterm, hatt, hfresh⟩ := hv.live hr
  refine ⟨le_rfl, hv.steady, hv.functor, fun _ h => ?_, nofun⟩
  rcases h with h | h
  · -- a block that has left has claimed an index
    obtain ⟨b⟩ := ‹Nonempty B›
    cases (hfresh h b).symm.trans (transfer_of_gone (hg b))
  · show _ ∧ s.system.relaunch.TermValid
    exact ⟨h, termValid_relaunch hterm h⟩

theorem valid_step [Fintype B] [Nonempty B] (hv : s.Valid) {a : Act B} (ho : s.Orderly a)
    (hs : s.step fine a = some s') : s'.Valid := by
  cases a with
  | act a =>
    simp only [step] at hs
    split at hs
    · rename_i hb
      obtain ⟨t, ht, rfl⟩ := Option.map_eq_some_iff.mp hs
      cases hr : s.running with
      | true =>
        rw [hr] at hb
        exact hr ▸ valid_running hv hr ho hb ht
      | false =>
        rw [hr] at hb
        exact hr ▸ valid_submitting hv hr ho hb ht
    · cases hs
  | launch =>
    simp only [step] at hs
    split at hs <;> cases hs
    rename_i h
    exact valid_launch hv ho h.2 h.1
  | finish =>
    simp only [step] at hs
    split at hs <;> cases hs
    rename_i h
    exact valid_finish hv h.1 h.2.2
  | reset =>
    simp only [step] at hs
    split at hs <;> cases hs
    rename_i h
    exact valid_reset hv h.2.1

theorem valid_of_reachable [Fintype B] [Nonempty B]
    (h : Reachable (step fine) Orderly Init s) : s.Valid :=
  h.invariant (fun _ h => h.valid) fun _ _ _ hv ho hs => valid_step hv ho hs

end Running

/-! ## What follows for a round -/

theorem Live.committed (hl : s.Live) (hf : ∀ b, s.system.submit (.functor b) = .idle) {k : Nat}
    (hk : k < s.system.queue.listAllocIdx) : s.system.record.committed k = true := by
  cases h : s.system.record.committed k with
  | true => rfl
  | false =>
    obtain ⟨p, x, todo, hp⟩ := hl.valid.ring.held k hk h
    replace hp : (s.system.submit p).producer = .storing k x todo := hp
    cases p with
    | gpu e => exact e.elim
    | functor b => rw [hf b] at hp; cases hp
    | host => rw [hl.host] at hp; cases hp

theorem claims_of_waiting {t : System Empty B} (hv : t.TermValid) {b : B} {n : Nat}
    (h : (t.block b).transfer = .poll n ∨ (t.block b).transfer = .pollTerminate n) :
    n < t.queue.listReadIdx := by
  have hcon : t.ring.consumer b = .waiting n := by
    show (t.block b).transfer.consumer = _
    rcases h with h | h <;> rw [h] <;> rfl
  have hb := hv.ring.consumer b
  simp only [SlotRing.Ring.Consuming, hcon] at hb
  exact hv.ring.claim_lt hb.1

theorem Live.integrity [Nonempty B] (hl : s.Live)
    (hf : ∀ b, s.system.submit (.functor b) = .idle) : s.RoundIntegrity := by
  have hv := hl.valid
  have hfirst : ∀ k, s.first ≤ k := fun k => hl.first ▸ Nat.zero_le k
  have hmem : ∀ b k, k ∈ (s.system.block b).taken.map Prod.fst →
      s.system.record.claims k = [b] := by
    intro b k hk
    obtain ⟨⟨_, x⟩, hx, rfl⟩ := List.mem_map.mp hk
    exact (hv.ring.read b _ x hx).1
  have hread : ∀ k, s.system.ring.WasRead k →
      ∃ b, k ∈ (s.system.block b).taken.map Prod.fst := fun k ⟨b, x, hx⟩ =>
    ⟨b, List.mem_map_of_mem (f := Prod.fst) hx⟩
  refine ⟨fun b k h hk => ?_, hv.ring.nodup, fun hrest k _ hk => ?_, fun hall => ?_, fun hg => ?_⟩
  · obtain ⟨hclaim, hcommit, hh⟩ := hv.ring.read b k h hk
    refine ⟨hfirst k, hv.ring.committed k hcommit, hh, fun c hc => ?_⟩
    cases hclaim.symm.trans (hmem c k hc)
    rfl
  · have hcommit := hl.committed hf hk
    -- a block at rest that looks at a list finds it not committed
    have hnot : ∀ b, ¬ LooksAt (s.system.block b) k := by
      intro b h
      have hb := hrest b
      unfold LooksAt at h
      unfold AtRest at hb
      split at h
      · simp only [*] at hb
        cases hb
      · simp only [*] at hb
        cases hb
      · simp only [*] at hb
      · exact h
    obtain ⟨b⟩ := ‹Nonempty B›
    have hb := hrest b
    have hcase : k < s.system.queue.listReadIdx ∨ System.Leaving (s.system.block b) := by
      have hwait : ∀ n, (s.system.block b).transfer = .poll n ∨
          (s.system.block b).transfer = .pollTerminate n → s.system.record.committed n = false →
          k < s.system.queue.listReadIdx := by
        intro n hn hnc
        have hge : s.system.queue.listAllocIdx ≤ n := by
          by_contra hlt
          cases (hl.committed hf (Nat.lt_of_not_le hlt)).symm.trans hnc
        exact (hk.trans_le hge).trans (claims_of_waiting hv hn)
      unfold AtRest at hb
      split at hb
      · exact .inl (hwait _ (.inl ‹_›) hb)
      · exact .inl (hwait _ (.inr ‹_›) hb)
      · exact .inr (by simp only [System.Leaving, *])
      · exact .inr (by simp only [System.Leaving, *])
      · exact hb.elim
    rcases hcase with h | h
    · rcases hl.attended k h hk with h | ⟨c, hc⟩
      · exact hread k h
      · exact absurd hc (hnot c)
    · exact hread k (wasRead_of_leaving hv h hk)
  · have hlists : s.system.countedLists = Finset.range s.system.queue.listAllocIdx :=
      Finset.filter_true_of_mem fun k hk => hall k (hfirst k) (Finset.mem_range.mp hk)
    rw [hv.completed, hlists, Finset.card_range]
  · have hn := hv.nothingLost hg
    refine ⟨fun k _ hk => ?_, hn.calls⟩
    obtain ⟨b, hb, -⟩ := hn.converted k (hl.committed hf hk)
    exact ⟨b, hb⟩

/-! ## A second round without a reset -/

section Example

instance (s : Session B) (a : Act B) : Decidable (s.Orderly a) := by
  unfold Orderly
  split <;> try split
  all_goals infer_instance

private def init : Session Unit := ⟨System.init, false, 0⟩

private theorem init_init : init.Init := ⟨System.init_init, rfl, rfl⟩

/-- A round of one list. -/
private def round (id : Nat) : List (Act Unit) :=
  (System.hostSubmits (System.numbered id)).map Act.act ++ [Act.launch] ++
    (System.reads () ++ System.serves () id ++ [System.Act.count 0] ++ System.returns () ++
      System.synchronizes ++ System.leaves ()).map Act.act ++ [Act.finish]

/-- The list the block waits for, and what it has read. -/
private def progress (s : Session Unit) : (Bool × Nat × Nat) × Option Nat × Bool × List Nat :=
  ((s.running, s.first, s.system.queue.listAllocIdx),
    match (s.system.block ()).transfer with | .pollTerminate n => some n | _ => none,
    s.system.record.committed 2, (s.system.block ()).taken.map Prod.fst)

end Example

end Session
end Gfd.Sg
