import GfdProof.SgLists
import GfdProof.RegionPool

/-! # The entry pool of the scatter-gather queue

Every entry a transfer warp turns into a descriptor, and every entry
`compute_fn` reads through its view, is the one the submitter wrote
(`PoolIntegrity`) — as long as a pool range is taken only where it is free
(`PoolOrderly`), and the list ring is used as it should be (`ListsOrderly`).  A
range is in use from when it is taken until the call for its list has returned.

The code does not see to that.  `sg_wait_entry_space` looks before the range is
taken, so that two submitters can both find room for one of them
(`exists_clobbered`); it compares with `entry_consumed_idx`, which counts ranges
that `compute_fn` has still to read; and the host does not look at all.
-/
namespace Gfd.Sg

open Transition

/-- The pool range of a submission from `base` on. -/
def Request.region (r : Request) (base : Nat) : RegionPool.Region EntryField Nat :=
  ⟨base, r.count, r.entries⟩

/-- The pool range a submission has before its list has an index, and what it
has still to write there. -/
def Submit.region :
    Submit → Option (RegionPool.Region EntryField Nat × Finset (Nat × EntryField))
  | .write r base todo => some (r.region base, todo)
  | .allocList r base | .loadListIdx r base | .storeListIdx r base _ => some (r.region base, ∅)
  | _ => none

/-- The pool range it is about to take. -/
def Submit.takesRange (q : TaskQueue) : Submit → Option (RegionPool.Region EntryField Nat)
  | .allocEntries r => some (r.region q.entryAllocIdx)
  | .storeEntryIdx r base => some (r.region base)
  | _ => none

namespace System

variable {S B : Type}

/-- The entry pool: a range belongs to its submission until its list has an
index, and to the index until the call for it has returned. -/
def pool (s : System S B) : RegionPool.Pool (Party S B ⊕ Nat) EntryField Nat where
  cells := s.queue.entries
  owned
    | .inl p => (s.submit p).region
    | .inr k =>
      if k < s.queue.listAllocIdx ∧ s.record.computed k = false then
        some ((s.record.plan k).1.region (s.record.plan k).2, ∅)
      else none

/-- A pool range is taken only if it fits into the pool and no cell of it is in
use; and the list ring is used as it should be. -/
def PoolOrderly (s : System S B) (a : Act S B) : Prop :=
  s.ListsOrderly a ∧
    match a with
    | .submit p =>
      match (s.submit p).takesRange s.queue with
      | some x => x.count ≤ maxSgPoolEntries ∧ ∀ o y todo, s.pool.owned o = some (y, todo) →
          x.Apart maxSgPoolEntries y
      | none => True
    | _ => True

/-- The invariant. -/
structure PoolValid (s : System S B) : Prop where
  ring : s.ring.Valid listLayout
  block : ∀ b, (s.block b).Valid
  computed : ∀ k, s.record.computed k = true → s.ring.WasRead k
  serving : ∀ b k, (s.block b).serving = some k →
    k ∈ (s.block b).taken.map Prod.fst ∧ s.record.computed k = false
  pool : RegionPool.Valid maxSgPoolEntries s.pool

variable {s s' : System S B}

theorem Init.poolValid (h : s.Init) : s.PoolValid where
  ring := h.ring.valid
  block b := by rw [h.block b]; exact Block.valid_init
  computed k hk := by cases (h.computed k).symm.trans hk
  serving b k hk := by rw [h.block b] at hk; cases hk
  pool := by
    refine RegionPool.valid_of_unowned fun o => ?_
    cases o with
    | inl p => show (s.submit p).region = none; rw [h.submit p]; rfl
    | inr k =>
      simp only [pool, h.queue.listAllocIdx]
      exact if_neg fun hk => absurd hk.1 (Nat.not_lt_zero k)

variable [DecidableEq S] [DecidableEq B] {fine : Bool}

/-- What a step of the system is for the entry pool: nothing, or an orderly step. -/
def PoolStep (s s' : System S B) : Prop :=
  s'.pool = s.pool ∨ ∃ a, RegionPool.Orderly maxSgPoolEntries s.pool a ∧
    RegionPool.step maxSgPoolEntries s.pool a = some s'.pool

theorem owned_setSubmit (s : System S B) (p : Party S B) (x : Submit) :
    (s.setSubmit p x).pool.owned = Function.update s.pool.owned (.inl p) x.region := by
  funext o
  by_cases ho : o = .inl p
  · subst ho
    simp only [pool, setSubmit, Function.update_self]
  · rw [Function.update_of_ne ho]
    cases o with
    | inl q =>
      have hqp : q ≠ p := fun h => ho (congrArg Sum.inl h)
      simp only [pool, setSubmit, Function.update_of_ne hqp]
    | inr k => rfl

/-- A submission moves on within its range. -/
theorem pool_setSubmit {p : Party S B} {x : Submit} {q : TaskQueue} {d : Record B}
    (hx : x.region = (s.submit p).region) (he : q.entries = s.queue.entries)
    (ha : q.listAllocIdx = s.queue.listAllocIdx) (hplan : d.plan = s.record.plan)
    (hc : d.computed = s.record.computed) :
    ({ s.setSubmit p x with queue := q, record := d } : System S B).pool = s.pool := by
  have ho : (s.setSubmit p x).pool.owned = s.pool.owned := by
    rw [owned_setSubmit, hx]
    exact Function.update_eq_self (Sum.inl p) s.pool.owned
  refine RegionPool.Pool.ext he (Eq.trans ?_ ho)
  funext o
  cases o with
  | inl q => rfl
  | inr k =>
    simp only [pool, ha, hplan, hc]
    rfl

omit [DecidableEq S] [DecidableEq B] in
theorem PoolValid.not_computed (hv : s.PoolValid) :
    s.record.computed s.queue.listAllocIdx = false := by
  cases h : s.record.computed s.queue.listAllocIdx with
  | false => rfl
  | true =>
    obtain ⟨b, x, hx⟩ := hv.computed _ h
    exact absurd (hv.ring.committed _ (hv.ring.read b _ x hx).2.1) (Nat.lt_irrefl _)

/-- The range of a submission passes to its list index. -/
theorem pool_handOver (hv : s.PoolValid) {p : Party S B} {r : Request} {base : Nat}
    (hp : (s.submit p).region = some (r.region base, ∅)) {todo : List HeaderField} :
    RegionPool.step maxSgPoolEntries s.pool (.handOver (.inl p) (.inr s.queue.listAllocIdx)) = some
      ({ s.setSubmit p (.header r base s.queue.listAllocIdx todo) with
        queue := { s.queue with listAllocIdx := s.queue.listAllocIdx + 1 }
        record := { s.record with
          plan := Function.update s.record.plan s.queue.listAllocIdx (r, base) } } :
          System S B).pool := by
  have hp' : s.pool.owned (.inl p) = some (r.region base, ∅) := hp
  have hn : s.pool.owned (.inr s.queue.listAllocIdx) = none :=
    if_neg fun h => absurd h.1 (Nat.lt_irrefl _)
  simp only [RegionPool.step, hp', hn]
  refine congrArg some (RegionPool.Pool.ext rfl ?_)
  have ho := owned_setSubmit s p (.header r base s.queue.listAllocIdx todo)
  funext o
  dsimp only
  cases o with
  | inl q =>
    rw [Function.update_of_ne Sum.inl_ne_inr]
    exact (congrFun ho (.inl q)).symm
  | inr k =>
    by_cases hk : k = s.queue.listAllocIdx
    · subst hk
      simp only [pool, Function.update_self, hv.not_computed, Nat.lt_succ_self, and_self, if_true]
    · have hlt : k < s.queue.listAllocIdx + 1 ↔ k < s.queue.listAllocIdx := by omega
      rw [Function.update_of_ne (fun h => hk (Sum.inr.inj h)), Function.update_of_ne Sum.inr_ne_inl]
      simp only [pool, hlt, Function.update_of_ne hk]

theorem pool_submit (hv : s.PoolValid) {p : Party S B} (ho : s.PoolOrderly (.submit p))
    (hs : s.step fine (.submit p) = some s') : s.PoolStep s' := by
  simp only [step, Option.map_eq_some_iff] at hs
  obtain ⟨⟨x, q⟩, hx, rfl⟩ := hs
  obtain ⟨hlists, hrange⟩ := ho
  have hown : s.pool.owned (.inl p) = (s.submit p).region := rfl
  cases hp : s.submit p with
  | idle => simp only [hp, Submit.step] at hx; cases hx
  | entrySpace r | listSpace r | loadEntryIdx r | loadListIdx r base =>
    simp only [hp, Submit.step] at hx
    cases hx
    exact .inl (pool_setSubmit (by rw [hp]; rfl) rfl rfl rfl rfl)
  | entryConsumed r a | listRead r a =>
    simp only [hp, Submit.step] at hx
    split at hx <;> cases hx <;> exact .inl (pool_setSubmit (by rw [hp]; rfl) rfl rfl rfl rfl)
  | write r base todo =>
    simp only [hp, Submit.step] at hx
    split at hx <;> cases hx
    refine .inl (pool_setSubmit ?_ rfl rfl rfl rfl)
    rw [hp, ‹todo = ∅›]
    split <;> rfl
  | allocEntries r =>
    rw [hp] at hown
    simp only [hp, Submit.step] at hx
    cases hx
    simp only [hp, Submit.takesRange] at hrange
    refine .inr ⟨.take (.inl p) (r.region s.queue.entryAllocIdx), hrange, ?_⟩
    simp only [RegionPool.step, hown, Submit.region]
    exact congrArg some (RegionPool.Pool.ext rfl
      (owned_setSubmit s p (.write r s.queue.entryAllocIdx _)).symm)
  | storeEntryIdx r base =>
    rw [hp] at hown
    simp only [hp, Submit.step] at hx
    cases hx
    simp only [hp, Submit.takesRange] at hrange
    refine .inr ⟨.take (.inl p) (r.region base), hrange, ?_⟩
    simp only [RegionPool.step, hown, Submit.region]
    exact congrArg some (RegionPool.Pool.ext rfl (owned_setSubmit s p (.write r base _)).symm)
  | allocList r base =>
    simp only [hp, Submit.step] at hx
    cases hx
    exact .inr ⟨.handOver (.inl p) (.inr s.queue.listAllocIdx), trivial,
      pool_handOver hv (by rw [hp]; rfl)⟩
  | storeListIdx r base idx =>
    simp only [hp, Submit.step] at hx
    cases hx
    simp only [ListsOrderly, hp, Submit.takes] at hlists
    obtain ⟨rfl, -⟩ := hlists
    exact .inr ⟨.handOver (.inl p) (.inr s.queue.listAllocIdx), trivial,
      pool_handOver hv (by rw [hp]; rfl)⟩
  | header r base idx todo =>
    cases todo <;> simp only [hp, Submit.step] at hx <;> cases hx <;>
      exact .inl (pool_setSubmit (by rw [hp]; rfl) rfl rfl rfl rfl)
  | sequence r base idx =>
    simp only [hp, Submit.step] at hx
    cases hx
    exact .inl (pool_setSubmit (by rw [hp]; rfl) rfl rfl rfl rfl)

theorem pool_write {p : Party S B} {i : Nat} {f : EntryField}
    (hs : s.step fine (.write p i f) = some s') : s.PoolStep s' := by
  simp only [step, Option.map_eq_some_iff] at hs
  obtain ⟨⟨x, q⟩, hx, rfl⟩ := hs
  unfold Submit.writeEntry at hx
  split at hx
  case h_2 => cases hx
  rename_i r base todo hp
  split at hx <;> cases hx
  rename_i hif
  have hown : s.pool.owned (.inl p) = some (r.region base, todo) := by
    show (s.submit p).region = _
    rw [hp]
    rfl
  refine .inr ⟨.write (.inl p) i f, trivial, ?_⟩
  simp only [RegionPool.step, hown, if_pos hif]
  exact congrArg some (RegionPool.Pool.ext rfl (owned_setSubmit s p (.write r base _)).symm)

theorem pool_compute {b : B} (hs : s.step fine (.compute b) = some s') :
    s.PoolStep s' := by
  simp only [step] at hs
  split at hs
  · cases hs
  obtain ⟨x, hx, rfl⟩ := Option.map_eq_some_iff.mp hs
  unfold Record.compute
  split
  · rename_i idx h hc ht
    refine .inr ⟨.free (.inr idx), trivial, congrArg some (RegionPool.Pool.ext rfl ?_)⟩
    funext o
    dsimp only
    cases o with
    | inl q =>
      rw [Function.update_of_ne Sum.inl_ne_inr]
      rfl
    | inr k =>
      by_cases hk : k = idx
      · subst hk
        simp only [pool, Function.update_self, Bool.true_eq_false, and_false, if_false]
      · rw [Function.update_of_ne (fun h => hk (Sum.inr.inj h))]
        simp only [pool, Function.update_of_ne hk]
        rfl
  · exact .inl rfl

/-- The accesses of a transfer warp leave the pool and the record of it alone. -/
theorem access_entries (fine : Bool) (q : TaskQueue) (v : Nat) (t : Transfer) :
    (q.access fine v t).2.entries = q.entries ∧
      (q.access fine v t).2.listAllocIdx = q.listAllocIdx := by
  unfold TaskQueue.access
  split
  case h_7 => split <;> exact ⟨rfl, rfl⟩
  all_goals exact ⟨rfl, rfl⟩

omit [DecidableEq B] in
theorem Record.transfer_plan (q : TaskQueue) (b : B) (d : Record B) (t : Transfer) :
    (d.transfer q b t).plan = d.plan ∧ (d.transfer q b t).computed = d.computed := by
  unfold Record.transfer
  split <;> exact ⟨rfl, rfl⟩

omit [DecidableEq S] [DecidableEq B] in
theorem pool_congr (he : s'.queue.entries = s.queue.entries)
    (ha : s'.queue.listAllocIdx = s.queue.listAllocIdx) (hp : s'.submit = s.submit)
    (hplan : s'.record.plan = s.record.plan) (hc : s'.record.computed = s.record.computed) :
    s'.pool = s.pool := by
  refine RegionPool.Pool.ext he ?_
  funext o
  cases o with
  | inl q => simp only [pool, hp]
  | inr k => simp only [pool, ha, hplan, hc]

theorem pool_transfer {b : B} {v : Nat} (hs : s.step fine (.transfer b v) = some s') :
    s'.pool = s.pool := by
  obtain ⟨x, -, rfl⟩ := Option.map_eq_some_iff.mp hs
  obtain ⟨he, ha⟩ := access_entries fine s.queue v (s.block b).transfer
  obtain ⟨hplan, hc⟩ := Record.transfer_plan s.queue b s.record (s.block b).transfer
  exact pool_congr he ha rfl hplan hc

/-- Every step that meets the condition is an orderly step of the pool, or does
not touch it. -/
theorem pool_step (hv : s.PoolValid) {a : Act S B} (ho : s.PoolOrderly a)
    (hs : s.step fine a = some s') : s.PoolStep s' := by
  cases a with
  | submit p => exact pool_submit hv ho hs
  | write p i f => exact pool_write hs
  | compute b => exact pool_compute hs
  | transfer b v => exact .inl (pool_transfer hs)
  | call p r =>
    simp only [step] at hs
    split at hs <;> cases hs
    rename_i hc
    refine .inl (pool_setSubmit ?_ rfl rfl rfl rfl)
    have hidle : s.submit p = .idle := by
      unfold mayCall at hc
      split at hc <;> first | assumption | cases hc
    rw [hidle]
    split <;> rfl
  | convert b i f | commit b i =>
    obtain ⟨x, -, rfl⟩ := Option.map_eq_some_iff.mp hs
    exact .inl rfl
  | synchronize | count idx =>
    simp only [step] at hs
    split at hs <;> cases hs
    exact .inl rfl
  | sync =>
    simp only [step, syncStep] at hs
    split at hs
    case h_3 => split at hs <;> cases hs; exact .inl rfl
    all_goals cases hs <;> exact .inl rfl
  | signal id v =>
    cases hs
    exact .inl rfl

/-! ## Which lists are through -/

omit [DecidableEq B] in
theorem Record.submit_computed (q : TaskQueue) (d : Record B) (x : Submit) :
    (d.submit q x).computed = d.computed := by
  unfold Record.submit
  split <;> rfl

/-- A call that returns marks its list, and nothing else marks one. -/
theorem computed_step {a : Act S B} (hs : s.step fine a = some s') {k : Nat}
    (hk : s'.record.computed k = true) :
    s.record.computed k = true ∨ ∃ b v h, (s.block b).compute = .call v ∧
      (s.block b).transfer = .waitDone k h ∧ (s'.block b).serving = none := by
  cases a with
  | submit p =>
    obtain ⟨⟨x, q⟩, -, rfl⟩ := Option.map_eq_some_iff.mp hs
    exact .inl ((congrFun (Record.submit_computed s.queue s.record (s.submit p)) k).symm.trans hk)
  | write p i f =>
    obtain ⟨⟨x, q⟩, -, rfl⟩ := Option.map_eq_some_iff.mp hs
    exact .inl hk
  | transfer b v =>
    obtain ⟨x, -, rfl⟩ := Option.map_eq_some_iff.mp hs
    obtain ⟨-, hc⟩ := Record.transfer_plan s.queue b s.record (s.block b).transfer
    exact .inl ((congrFun hc k).symm.trans hk)
  | convert b i f | commit b i =>
    obtain ⟨x, -, rfl⟩ := Option.map_eq_some_iff.mp hs
    exact .inl hk
  | compute b =>
    simp only [step] at hs
    split at hs
    · cases hs
    obtain ⟨x, hx, rfl⟩ := Option.map_eq_some_iff.mp hs
    dsimp only [Record.compute] at hk
    split at hk
    · rename_i idx h hc ht
      by_cases hki : k = idx
      · subst hki
        refine .inr ⟨b, _, h, hc, ht, ?_⟩
        simp only [Block.step, Block.computeStep, hc] at hx
        cases hx
        simp only [setBlock, Function.update_self, Block.serving, ht, Block.returned, if_true]
      · exact .inl ((Function.update_of_ne hki _ _).symm.trans hk)
    · exact .inl hk
  | call p r | synchronize | count idx =>
    simp only [step] at hs
    split at hs <;> cases hs
    exact .inl hk
  | sync =>
    simp only [step, syncStep] at hs
    split at hs
    case h_3 => split at hs <;> cases hs; exact .inl hk
    all_goals cases hs <;> exact .inl hk
  | signal id v =>
    cases hs
    exact .inl hk

theorem poolValid_step (hv : s.PoolValid) {a : Act S B} (ho : s.PoolOrderly a)
    (hs : s.step fine a = some s') : s'.PoolValid := by
  -- a list at hand is nobody else's
  have hclaim : ∀ b k, k ∈ (s.block b).taken.map Prod.fst → s.record.claims k = [b] := by
    intro b k hk
    obtain ⟨⟨_, h⟩, hx, rfl⟩ := List.mem_map.mp hk
    exact (hv.ring.read b _ h hx).1
  have hcall : ∀ b k v h, (s.block b).compute = .call v → (s.block b).transfer = .waitDone k h →
      (k, v) ∈ (s.block b).taken := by
    intro b k v h hc ht
    obtain ⟨idx, l, ht', -, hl⟩ := (hv.block b).call hc
    cases ht.symm.trans ht'
    rw [hl]
    exact List.mem_append_right _ (List.mem_singleton_self _)
  refine ⟨ringValid_step hv.ring ho.1 hs, block_valid_step hv.block hs, fun k hk => ?_, fun b k hk => ?_, ?_⟩
  · rcases computed_step hs hk with h | ⟨b, v, h, hc, ht, -⟩
    · exact wasRead_step hs (hv.computed k h)
    · exact wasRead_step hs ⟨b, v, hcall b k v h hc ht⟩
  · have hstep : (k ∈ (s.block b).taken.map Prod.fst ∧ s.record.computed k = false) ∨
        (k ∈ (s'.block b).taken.map Prod.fst ∧ k ∉ (s.block b).taken.map Prod.fst ∧
          s.record.claims k = [b]) := by
      rcases block_step hs b with h | ⟨x, hx⟩
      · rw [h] at hk
        exact .inl (hv.serving b k hk)
      · rcases Block.serving_step hx with ⟨-, h | h⟩ | ⟨idx, h', ht, h, hidx⟩
        · rw [h] at hk
          exact .inl (hv.serving b k hk)
        · cases h.symm.trans hk
        · cases hidx.symm.trans hk
          have hcon : s.ring.consumer b = .loading k [] h' := by
            show (s.block b).transfer.consumer = _
            rw [ht]
            rfl
          have hcons := hv.ring.consumer b
          simp only [SlotRing.Ring.Consuming, hcon] at hcons
          refine .inr ⟨?_, hcons.2.1, hcons.1⟩
          rw [h, List.map_append]
          exact List.mem_append_right _ (List.mem_singleton_self _)
    have hnew : ∀ b' h, (k, h) ∈ (s.block b').taken → s.record.claims k = [b'] := fun b' h hx =>
      hclaim b' k (List.mem_map_of_mem (f := Prod.fst) hx)
    cases hcomp : s'.record.computed k with
    | false =>
      refine ⟨?_, rfl⟩
      rcases hstep with ⟨h, -⟩ | ⟨h, -, -⟩
      · exact ((taken_step hs b).map Prod.fst).subset h
      · exact h
    | true =>
      exfalso
      rcases computed_step hs hcomp with h | ⟨b', v, h, hc, ht, hnone⟩
      · rcases hstep with ⟨-, hf⟩ | ⟨-, hnot, hb⟩
        · cases h.symm.trans hf
        · obtain ⟨b', x, hx⟩ := hv.computed k h
          cases (hnew b' x hx).symm.trans hb
          exact hnot (List.mem_map_of_mem (f := Prod.fst) hx)
      · have hk' := hcall b' k v h hc ht
        rcases hstep with ⟨hmem, -⟩ | ⟨-, hnot, hb⟩
        · cases (hnew b' v hk').symm.trans (hclaim b k hmem)
          cases hnone.symm.trans hk
        · cases (hnew b' v hk').symm.trans hb
          exact hnot (List.mem_map_of_mem (f := Prod.fst) hk')
  · rcases pool_step hv ho hs with h | ⟨x, hx, h⟩
    · rw [h]
      exact hv.pool
    · exact RegionPool.valid_step hv.pool hx h

theorem poolValid_of_reachable (h : Reachable (step fine) PoolOrderly Init s) : s.PoolValid :=
  h.invariant (fun _ h => h.poolValid) fun _ _ _ hv ho hs => poolValid_step hv ho hs

/-! ## What the pool is for -/

/-- Through the header `h`, the pool shows the entries list `idx` was submitted
with. -/
def Shows (s : System S B) (idx : Nat) (h : Header) : Prop :=
  h .count = (s.record.plan idx).1.count ∧ ∀ i f, i < h .count →
    s.queue.entries ((h .poolOffset + i) % maxSgPoolEntries) f = (s.record.plan idx).1.entries i f

structure PoolIntegrity (s : System S B) : Prop where
  /-- A transfer warp turns into descriptors what was submitted. -/
  converts : ∀ b idx h base todo, (s.block b).transfer = .convert idx h base todo → s.Shows idx h
  /-- `compute_fn` is called for a list its block has taken, and reads what was
  submitted. -/
  reads : ∀ b h, (s.block b).compute = .call h →
    ∃ idx, (idx, h) ∈ (s.block b).taken ∧ s.Shows idx h
  /-- No cell of a submitted list is written until the call for it has returned. -/
  notOverwritten : ∀ p r base todo i f, s.submit p = .write r base todo → (i, f) ∈ todo →
    ∀ k j, k < s.queue.listAllocIdx → s.record.computed k = false →
      j < (s.record.plan k).1.count →
      (base + i) % maxSgPoolEntries ≠ ((s.record.plan k).2 + j) % maxSgPoolEntries

omit [DecidableEq S] [DecidableEq B] in
theorem PoolValid.shows (hv : s.PoolValid) {b : B} {idx : Nat} {h : Header}
    (hs : (s.block b).serving = some idx) (hmem : (idx, h) ∈ (s.block b).taken) :
    s.Shows idx h := by
  obtain ⟨-, hcommit, hh⟩ := hv.ring.read b idx h hmem
  replace hh : h = s.record.header idx := hh
  have hown : s.pool.owned (.inr idx) =
      some ((s.record.plan idx).1.region (s.record.plan idx).2, ∅) :=
    if_pos ⟨hv.ring.committed idx hcommit, (hv.serving b idx hs).2⟩
  subst hh
  refine ⟨rfl, fun i f hi => ?_⟩
  have hheld := hv.pool.held _ _ _ i f hown hi (Finset.notMem_empty _)
  rw [show s.record.header idx .poolOffset = (s.record.plan idx).2 % maxSgPoolEntries from rfl,
    Nat.mod_add_mod]
  exact hheld

omit [DecidableEq S] [DecidableEq B] in
theorem PoolValid.integrity (hv : s.PoolValid) : s.PoolIntegrity where
  converts b idx h base todo ht := by
    refine hv.shows (b := b) (by simp only [Block.serving, ht]) ?_
    have hcon : s.ring.consumer b = .holding idx h := by
      show (s.block b).transfer.consumer = _
      rw [ht]
      rfl
    have hcons := hv.ring.consumer b
    simp only [SlotRing.Ring.Consuming, hcon] at hcons
    exact hcons.1
  reads b h hc := by
    obtain ⟨idx, l, -, hserve, hl⟩ := (hv.block b).call hc
    have hmem : (idx, h) ∈ (s.block b).taken := by
      rw [hl]
      exact List.mem_append_right _ (List.mem_singleton_self _)
    exact ⟨idx, hmem, hv.shows hserve hmem⟩
  notOverwritten p r base todo i f hp hif k j hk hc hj := by
    have hown : s.pool.owned (.inl p) = some (r.region base, todo) := by
      show (s.submit p).region = _
      rw [hp]
      rfl
    exact hv.pool.apart (.inl p) (.inr k) _ _ _ _ Sum.inl_ne_inr hown (if_pos ⟨hk, hc⟩) i j
      (hv.pool.todo _ _ _ i f hown hif) hj

/-! ## Two submitters at a time -/

/-- A list of `n` entries. -/
def sized (n : Nat) : Request where
  entries _ _ := 0
  count := n
  listId := 0
  flags := 0

/-- A submission that finds room, up to where it takes a range. -/
def waits (p : Party Bool Unit) (n : Nat) : List (Act Bool Unit) :=
  .call p (sized n) :: List.replicate 4 (.submit p)

/-- Two warps find room for a list each, the one for as many entries as the pool
has cells.  It submits its list, and the other is about to overwrite the first
entry. -/
theorem exists_clobbered : ∃ s : System Bool Unit, Reachable (step true) Always Init s ∧
    s.submit (.gpu true) = .write (sized 1) maxSgPoolEntries (Finset.range 1 ×ˢ Finset.univ) ∧
    s.queue.listAllocIdx = 1 ∧ s.record.plan 0 = (sized maxSgPoolEntries, 0) ∧
    s.record.computed 0 = false ∧ ¬ s.PoolIntegrity := by
  have h1 : ∃ t : System Bool Unit, run (step true) init
      (waits (.gpu false) maxSgPoolEntries ++ waits (.gpu true) 1 ++ [.submit (.gpu false)]) =
        some t ∧ t.submit (.gpu false) = .write (sized maxSgPoolEntries) 0
          (Finset.range maxSgPoolEntries ×ˢ Finset.univ) ∧
      t.submit (.gpu true) = .allocEntries (sized 1) ∧ t.queue.listAllocIdx = 0 ∧
      t.queue.entryAllocIdx = maxSgPoolEntries ∧ t.record.computed 0 = false :=
    ⟨_, rfl, rfl, rfl, rfl, rfl, rfl⟩
  obtain ⟨t, ht, hp, hq, ha, he, hc⟩ := h1
  obtain ⟨e, h2⟩ := exists_written ((Reachable.initial init_init).run_always ht) hp
  have h3 : ∃ u : System Bool Unit, run (step true)
      ({ t.setSubmit (.gpu false) (.write (sized maxSgPoolEntries) 0 ∅) with
        queue := { t.queue with entries := e } } : System Bool Unit)
      [.submit (.gpu false), .submit (.gpu false), .submit (.gpu true)] = some u ∧
      u.submit (.gpu true) = .write (sized 1) maxSgPoolEntries (Finset.range 1 ×ˢ Finset.univ) ∧
      u.queue.listAllocIdx = 1 ∧ u.record.plan 0 = (sized maxSgPoolEntries, 0) ∧
      u.record.computed 0 = false := by
    simp [run_cons, step, setSubmit, Submit.step, Record.submit, ha, he, hq, hc, sized]
  obtain ⟨u, hu, hw, halloc, hplan, hcomp⟩ := h3
  refine ⟨u, h2.run_always hu, hw, halloc, hplan, hcomp, fun h => ?_⟩
  have hmem : (0, EntryField.srcAddr) ∈ Finset.range 1 ×ˢ Finset.univ := by decide
  refine h.notOverwritten _ _ _ _ 0 _ hw hmem 0 0 (by rw [halloc]; decide) hcomp ?_ ?_
  · rw [hplan]
    decide
  · rw [hplan]
    decide

end System
end Gfd.Sg
