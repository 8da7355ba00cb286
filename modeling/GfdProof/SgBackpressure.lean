import GfdProof.SgPool
import GfdProof.SgSession

/-! # Backpressure in the scatter-gather queue

Before it takes a pool range or a list index, a submission waits for room.
`sg_wait_list_space` goes by `list_alloc_idx - list_read_idx`, and
`sg_wait_entry_space` by `entry_alloc_idx - entry_consumed_idx`, both as 64-bit
words.

The first is the number of lists that wait for a block, as long as no block claims
ahead (`ClaimsBehind`).  A block claims before it looks, so a block without work
has `list_read_idx` one ahead, the difference wraps, and a submission waits for
ever on an empty ring (`exists_wrapped`).

The second is 0 when every list has been turned into descriptors, as long as
ranges begin in the first pass over the pool (`FirstPass`).  A block computes how
far it has got from `pool_offset`, which is reduced modulo the pool size, so from
the second pass on `entry_consumed_idx` stands still (`exists_unreturned`).
-/
namespace Gfd.Sg

open Transition

/-- The range a submission has taken, while its list has no index. -/
def Submit.range : Submit → Option (Request × Nat)
  | .write r base _ | .allocList r base | .loadListIdx r base | .storeListIdx r base _ =>
    some (r, base)
  | _ => none

/-- The list a transfer warp has read, until it has accounted for its entries. -/
def Transfer.accounting : Transfer → Option Nat
  | .publish idx _ _ | .resetReady idx _ | .resetDone idx _ | .reserve idx _ | .space idx _ _
  | .convert idx _ _ _ | .commit idx _ _ _ | .clear idx _ | .consumed idx _ | .cas idx _ _ =>
    some idx
  | _ => none

/-- The same place, with nothing left for the lanes. -/
def Transfer.laned : Transfer → Transfer
  | .convert idx h base _ => .convert idx h base ∅
  | .commit idx h base _ => .commit idx h base ∅
  | t => t

/-- The end of a list's range, as a transfer warp computes it. -/
def Header.newConsumed (h : Header) : Nat := h .poolOffset + h .count

namespace System

variable {S B : Type}

/-! ## Room in the list ring -/

/-- The lists that have an index and no block that claimed it. -/
def unclaimed (s : System S B) : Nat :=
  ((List.range s.queue.listAllocIdx).filter fun k => (s.record.claims k).isEmpty).length

/-- Blocks claim only lists that have been allocated; and the index a submission takes is the next
one, with fewer than `2^64` lists waiting. -/
def ClaimsBehind (s : System S B) : Act S B → Prop
  | .submit p =>
    match (s.submit p).takes s.queue with
    | some n => n = s.queue.listAllocIdx ∧ n + 1 - s.queue.listReadIdx < wordSize
    | none => True
  | .transfer b _ =>
    match (s.block b).transfer with
    | .claim => s.queue.listReadIdx < s.queue.listAllocIdx
    | _ => True
  | _ => True

instance (s : System S B) (a : Act S B) : Decidable (s.ClaimsBehind a) := by
  rcases a with _ | p | _ | ⟨b, -⟩ | _ <;> dsimp only [ClaimsBehind]
  case submit => rcases (s.submit p).takes s.queue with _ | _ <;> infer_instance
  case transfer => rcases (s.block b).transfer with _ | _ <;> infer_instance
  all_goals infer_instance

/-- The invariant of the indices. -/
structure Behind (s : System S B) : Prop where
  le : s.queue.listReadIdx ≤ s.queue.listAllocIdx
  lt : s.queue.listAllocIdx - s.queue.listReadIdx < wordSize
  claims : ∀ k, s.record.claims k = [] ↔ s.queue.listReadIdx ≤ k

variable {s s' : System S B}

theorem Init.behind (h : s.Init) : s.Behind where
  le := by rw [h.queue.listReadIdx, h.queue.listAllocIdx]
  lt := by rw [h.queue.listReadIdx, h.queue.listAllocIdx]; decide
  claims k := by
    rw [h.queue.listReadIdx]
    exact iff_of_true (h.claims k) (Nat.zero_le k)

/-- The indices from `a` to below `n`. -/
theorem length_filter_range (a n : Nat) :
    ((List.range n).filter fun k => decide (a ≤ k)).length = n - a := by
  induction n with
  | zero => exact (Nat.zero_sub a).symm
  | succ n ih =>
    rw [List.range_succ, List.filter_append, List.length_append, ih]
    by_cases h : a ≤ n
    · simp only [List.filter_cons, h, decide_true, if_true, List.filter_nil, List.length_singleton]
      omega
    · simp only [List.filter_cons, h, decide_false, List.filter_nil]
      simp
      omega

theorem Behind.unclaimed (h : s.Behind) :
    s.unclaimed = s.queue.listAllocIdx - s.queue.listReadIdx := by
  rw [← length_filter_range, System.unclaimed]
  congr 2
  funext k
  rw [Bool.eq_iff_iff, List.isEmpty_iff, decide_eq_true_iff]
  exact h.claims k

variable [DecidableEq S] [DecidableEq B] {fine : Bool}

/-- What a step does to the list indices: a submission takes one, or a block claims one. -/
inductive Indexing (s s' : System S B) (a : Act S B) : Prop
  | none (ha : s'.queue.listAllocIdx = s.queue.listAllocIdx)
      (hr : s'.queue.listReadIdx = s.queue.listReadIdx)
      (hc : s'.record.claims = s.record.claims)
  | take (p : Party S B) (n : Nat) (h : a = .submit p) (hn : (s.submit p).takes s.queue = some n)
      (ha : s'.queue.listAllocIdx = n + 1)
      (hr : s'.queue.listReadIdx = s.queue.listReadIdx)
      (hc : s'.record.claims = s.record.claims)
  | claim (b : B) (v : Nat) (h : a = .transfer b v) (hb : (s.block b).transfer = .claim)
      (ha : s'.queue.listAllocIdx = s.queue.listAllocIdx)
      (hr : s'.queue.listReadIdx = s.queue.listReadIdx + 1)
      (hc : s'.record.claims = Function.update s.record.claims s.queue.listReadIdx
        (s.record.claims s.queue.listReadIdx ++ [b]))

theorem listReadIdx_submit {host : Bool} {q q' : TaskQueue} {x y : Submit}
    (hs : x.step host q = some (y, q')) : q'.listReadIdx = q.listReadIdx := by
  unfold Submit.step at hs
  split at hs
  case h_3 | h_5 => split at hs <;> cases hs <;> rfl
  case h_9 => split at hs <;> cases hs; rfl
  all_goals cases hs <;> rfl

omit [DecidableEq B] in
theorem Record.submit_claims (q : TaskQueue) (d : Record B) (x : Submit) :
    (d.submit q x).claims = d.claims := by
  unfold Record.submit
  split <;> rfl

omit [DecidableEq B] in
theorem Record.compute_claims (d : Record B) (b : Block) : (d.compute b).claims = d.claims := by
  unfold Record.compute
  split <;> rfl

omit [DecidableEq B] in
theorem Record.transfer_claims (q : TaskQueue) (b : B) (d : Record B) {t : Transfer}
    (ht : t ≠ .claim) : (d.transfer q b t).claims = d.claims := by
  unfold Record.transfer
  split
  · exact absurd rfl ht
  · rfl
  · rfl

theorem indexing {a : Act S B} (hs : s.step fine a = some s') : s.Indexing s' a := by
  cases a with
  | submit p =>
    obtain ⟨⟨x, q⟩, hx, rfl⟩ := Option.map_eq_some_iff.mp hs
    obtain ⟨-, -, ha | ⟨n, hn, ha⟩⟩ := alloc_submit hx
    · exact .none ha (listReadIdx_submit hx) (Record.submit_claims ..)
    · exact .take p n rfl hn ha (listReadIdx_submit hx) (Record.submit_claims ..)
  | write p i f =>
    obtain ⟨⟨x, q⟩, hx, rfl⟩ := Option.map_eq_some_iff.mp hs
    unfold Submit.writeEntry at hx
    split at hx
    · split at hx <;> cases hx
      exact .none rfl rfl rfl
    · cases hx
  | transfer b v =>
    obtain ⟨x, -, rfl⟩ := Option.map_eq_some_iff.mp hs
    have ha := (alloc_access fine s.queue v (s.block b).transfer).1
    by_cases hb : (s.block b).transfer = .claim
    · exact .claim b v rfl hb ha (by rw [hb]) (by rw [hb]; rfl)
    · exact .none ha (Session.access_listReadIdx hb) (Record.transfer_claims s.queue b s.record hb)
  | convert b i f | commit b i =>
    obtain ⟨x, -, rfl⟩ := Option.map_eq_some_iff.mp hs
    exact .none rfl rfl rfl
  | compute b =>
    simp only [step] at hs
    split at hs
    · cases hs
    · obtain ⟨x, -, rfl⟩ := Option.map_eq_some_iff.mp hs
      exact .none rfl rfl (Record.compute_claims ..)
  | call p r | synchronize | count idx =>
    simp only [step] at hs
    split at hs <;> cases hs
    exact .none rfl rfl rfl
  | sync =>
    simp only [step, syncStep] at hs
    split at hs
    case h_3 => split at hs <;> cases hs; exact .none rfl rfl rfl
    all_goals cases hs <;> exact .none rfl rfl rfl
  | signal id v =>
    cases hs
    exact .none rfl rfl rfl

theorem behind_step (hv : s.Behind) {a : Act S B} (ho : s.ClaimsBehind a)
    (hs : s.step fine a = some s') : s'.Behind := by
  obtain ⟨hle, hlt, hclaims⟩ := hv
  cases indexing hs with
  | none ha hr hc => exact ⟨by rwa [ha, hr], by rwa [ha, hr], by rwa [hr, hc]⟩
  | take p n h hn ha hr hc =>
    subst h
    simp only [ClaimsBehind, hn] at ho
    obtain ⟨rfl, hroom⟩ := ho
    refine ⟨?_, ?_, by rwa [hr, hc]⟩
    · rw [ha, hr]
      exact Nat.le_succ_of_le hle
    · rw [ha, hr]
      exact hroom
  | claim b v h hb ha hr hc =>
    subst h
    simp only [ClaimsBehind, hb] at ho
    refine ⟨by rwa [ha, hr], ?_, fun k => ?_⟩
    · rw [ha, hr]
      omega
    · rw [hc, hr]
      by_cases hk : k = s.queue.listReadIdx
      · subst hk
        rw [Function.update_self]
        exact iff_of_false (List.append_ne_nil_of_right_ne_nil _ (List.cons_ne_nil b []))
          (Nat.not_succ_le_self _)
      · rw [Function.update_of_ne hk, hclaims]
        omega

theorem behind_of_reachable (h : Reachable (step fine) ClaimsBehind Init s) : s.Behind :=
  h.invariant (fun _ h => h.behind) fun _ _ _ hv ho hs => behind_step hv ho hs

/-- A submission in `sg_wait_list_space`. -/
def InListSpace (x : Submit) (r : Request) : Prop :=
  x = .listSpace r ∨ ∃ alloc, x = .listRead r alloc

/-- What `sg_wait_list_space` promises. -/
structure ListSpace (fine : Bool) (s : System S B) : Prop where
  difference : subWord s.queue.listAllocIdx s.queue.listReadIdx = s.unclaimed
  /-- A submission that waits goes on by its own steps, unless the ring is full. -/
  returns : s.unclaimed < maxSgLists - 1 → ∀ p r, InListSpace (s.submit p) r →
    ∃ n ≤ 3, ∃ t, run (step fine) s (List.replicate n (.submit p)) = some t ∧
      t.submit p = .allocEntries r

/-- With room, a submission that waits goes on, also if it has loaded `list_alloc_idx` before. -/
theorem exists_run_listSpace {p : Party S B} {r : Request} (hp : InListSpace (s.submit p) r)
    (hroom : subWord s.queue.listAllocIdx s.queue.listReadIdx < maxSgLists - 1) :
    ∃ n ≤ 3, ∃ t, run (step fine) s (List.replicate n (.submit p)) = some t ∧
      t.submit p = .allocEntries r := by
  rcases hp with hp | ⟨alloc, hp⟩
  · exact ⟨2, by omega, by simp [run_cons, step, setSubmit, Submit.step, hp, hroom]⟩
  · by_cases hold : subWord alloc s.queue.listReadIdx < maxSgLists - 1
    · exact ⟨1, by omega, by simp [run_cons, step, setSubmit, Submit.step, hp, hold]⟩
    · exact ⟨3, by omega, by
        simp [run_cons, step, setSubmit, Submit.step, List.replicate, hp, hold, hroom]⟩

omit [DecidableEq S] [DecidableEq B] in
theorem Behind.difference (h : s.Behind) :
    subWord s.queue.listAllocIdx s.queue.listReadIdx = s.unclaimed := by
  have hle := h.le
  have hlt := h.lt
  rw [h.unclaimed]
  unfold subWord word wordSize at *
  omega

/-- **The difference counts the lists that wait for a block**, in the runs in which blocks claim
only what has been allocated. -/
theorem listSpace_of_reachable (h : Reachable (step fine) ClaimsBehind Init s) :
    s.ListSpace fine := by
  have hdiff := (behind_of_reachable h).difference
  refine ⟨hdiff, fun hroom p r hp => exists_run_listSpace hp ?_⟩
  rw [hdiff]
  exact hroom

/-- A warp calls `sg_submit_list` while a block without work has claimed the first index. -/
def claimsAhead : List (Act Unit Unit) :=
  [.transfer () 0, .call (.gpu ()) (sized 1), .submit (.gpu ()), .submit (.gpu ())]

/-- The loop of `sg_wait_list_space`, while nothing else happens. -/
theorem run_full {p : Party S B} {r : Request} (hp : s.submit p = .listSpace r)
    (hfull : ¬ subWord s.queue.listAllocIdx s.queue.listReadIdx < maxSgLists - 1) (n : Nat) :
    ∃ t, run (step fine) s (List.replicate (2 * n) (.submit p)) = some t ∧ t.queue = s.queue ∧
      t.submit p = .listSpace r := by
  induction n with
  | zero => exact ⟨s, rfl, rfl, hp⟩
  | succ n ih =>
    obtain ⟨t, ht, hq, htp⟩ := ih
    rw [← hq] at hfull
    have hround : ∃ u, run (step fine) t [.submit p, .submit p] = some u ∧ u.queue = t.queue ∧
        u.submit p = .listSpace r := by
      simp [run_cons, step, setSubmit, Submit.step, htp, hfull]
    obtain ⟨u, hu, huq, hup⟩ := hround
    refine ⟨u, ?_, huq.trans hq, hup⟩
    rw [Nat.mul_succ, List.replicate_add, run_append, ht]
    exact hu

/-- No list has been submitted, the ring is empty, and a submission waits for room for ever. -/
theorem exists_wrapped : ∃ s : System Unit Unit, Reachable (step true) Always Init s ∧
    s.queue.listAllocIdx = 0 ∧ ¬ s.ListSpace true ∧
    ∀ n, ∃ t, run (step true) s (List.replicate (2 * n) (.submit (.gpu ()))) = some t ∧
      t.submit (.gpu ()) = .listSpace (sized 1) := by
  have h : ∃ s, run (step true) (init : System Unit Unit) claimsAhead = some s ∧
      s.queue.listAllocIdx = 0 ∧ s.queue.listReadIdx = 1 ∧
      s.submit (.gpu ()) = .listSpace (sized 1) := ⟨_, rfl, rfl, rfl, rfl⟩
  obtain ⟨s, hs, ha, hr, hp⟩ := h
  refine ⟨s, (Reachable.initial init_init).run_always hs, ha, fun h => ?_, fun n => ?_⟩
  · have hdiff := h.difference
    rw [unclaimed, ha, hr] at hdiff
    exact absurd hdiff (show ¬ subWord 0 1 = 0 by decide)
  · obtain ⟨t, ht, -, htp⟩ := run_full hp (by rw [ha, hr]; decide) n
    exact ⟨t, ht, htp⟩

/-- The host submits a list, a block claims it, and another list is submitted. -/
theorem listSpace_of_reachable_two : ∃ s : System Unit Unit, s.queue.listAllocIdx = 2 ∧
    s.queue.listReadIdx = 1 ∧ s.ListSpace true := by
  have h : (runWhile (step true) ClaimsBehind (init : System Unit Unit)
      (hostSubmits (numbered 7) ++ reads () ++ hostSubmits (numbered 8))).map
      (fun s => (s.queue.listAllocIdx, s.queue.listReadIdx)) = some (2, 1) := by decide +kernel
  obtain ⟨s, hs, hidx⟩ := Option.map_eq_some_iff.mp h
  obtain ⟨ha, hr⟩ := Prod.mk.inj hidx
  exact ⟨s, ha, hr, listSpace_of_reachable ((Reachable.initial init_init).runWhile hs)⟩

/-! ## Room in the entry pool -/

/-- A range that is not empty begins in the first pass over the pool, and a submission takes the
one that comes next; and the list ring is used as it should be. -/
def FirstPass (s : System S B) (a : Act S B) : Prop :=
  s.ListsOrderly a ∧
    match a with
    | .submit p =>
      match (s.submit p).takesRange s.queue with
      | some x => x.base = s.queue.entryAllocIdx ∧ (x.count = 0 ∨ x.base < maxSgPoolEntries)
      | none => True
    | _ => True

instance (s : System S B) (a : Act S B) : Decidable (s.FirstPass a) := by
  refine @instDecidableAnd _ _ _ ?_
  rcases a with _ | p | _ <;> dsimp only
  case submit => rcases (s.submit p).takesRange s.queue with _ | _ <;> infer_instance
  all_goals infer_instance

/-- The request and the range are those of a submission or of a list. -/
def Holds (s : System S B) (x : Request × Nat) : Prop :=
  (∃ p, (s.submit p).range = some x) ∨ ∃ k < s.queue.listAllocIdx, s.record.plan k = x

/-- The transfer warp that claimed the list has accounted for its entries. -/
def Accounted (s : System S B) (k : Nat) : Prop :=
  ∃ b h, (k, h) ∈ (s.block b).taken ∧ (s.block b).transfer.accounting ≠ some k

/-- The invariant of the account. -/
structure Account (s : System S B) : Prop where
  ring : s.ring.Valid listLayout
  block : ∀ b, (s.block b).Valid
  holds : ∀ x, s.Holds x → x.2 + x.1.count ≤ s.queue.entryAllocIdx
  /-- The latest range began in the first pass. -/
  latest : s.queue.entryAllocIdx = 0 ∨ ∃ x, s.Holds x ∧ x.2 < maxSgPoolEntries ∧
    x.2 + x.1.count = s.queue.entryAllocIdx
  cas : ∀ b idx h old, (s.block b).transfer = .cas idx h old → old < h.newConsumed
  accounted : ∀ b k h, (k, h) ∈ (s.block b).taken → (s.block b).transfer.accounting ≠ some k →
    h.newConsumed ≤ s.queue.entryConsumedIdx
  le : s.queue.entryConsumedIdx ≤ s.queue.entryAllocIdx

/-- What a step does to the ranges: a submission takes one, or passes its own to a list. -/
inductive Ranging (s s' : System S B) (a : Act S B) : Prop
  | none (he : s'.queue.entryAllocIdx = s.queue.entryAllocIdx)
      (hl : s'.queue.listAllocIdx = s.queue.listAllocIdx) (hp : s'.record.plan = s.record.plan)
      (hr : ∀ p, (s'.submit p).range = (s.submit p).range)
  | range (p : Party S B) (r : Request) (base : Nat) (h : a = .submit p)
      (ht : (s.submit p).takesRange s.queue = some (r.region base))
      (hn : (s.submit p).range = none) (he : s'.queue.entryAllocIdx = base + r.count)
      (hl : s'.queue.listAllocIdx = s.queue.listAllocIdx) (hp : s'.record.plan = s.record.plan)
      (hself : (s'.submit p).range = some (r, base))
      (hr : ∀ q ≠ p, (s'.submit q).range = (s.submit q).range)
  | list (p : Party S B) (x : Request × Nat) (n : Nat) (h : a = .submit p)
      (ht : (s.submit p).takes s.queue = some n) (hx : (s.submit p).range = some x)
      (he : s'.queue.entryAllocIdx = s.queue.entryAllocIdx) (hl : s'.queue.listAllocIdx = n + 1)
      (hp : s'.record.plan = Function.update s.record.plan n x)
      (hself : (s'.submit p).range = none)
      (hr : ∀ q ≠ p, (s'.submit q).range = (s.submit q).range)

theorem ranging_submit {p : Party S B} (hs : s.step fine (.submit p) = some s') :
    s.Ranging s' (.submit p) := by
  obtain ⟨⟨x, q⟩, hx, rfl⟩ := Option.map_eq_some_iff.mp hs
  have hself : ((s.setSubmit p x).submit p).range = x.range :=
    congrArg Submit.range (submit_setSubmit_self s p x)
  have hother : ∀ q ≠ p, ((s.setSubmit p x).submit q).range = (s.submit q).range := fun q hq =>
    congrArg Submit.range (submit_setSubmit_of_ne s hq x)
  have hsame : x.range = (s.submit p).range →
      ∀ q, ((s.setSubmit p x).submit q).range = (s.submit q).range := fun hx q => by
    by_cases hq : q = p
    · subst hq
      exact hself.trans hx
    · exact hother q hq
  cases hp : s.submit p with
  | idle => simp only [hp, Submit.step] at hx; cases hx
  | entrySpace r | listSpace r | loadEntryIdx r | loadListIdx r base =>
    simp only [hp, Submit.step] at hx
    cases hx
    exact .none rfl rfl rfl (hsame (by rw [hp]; rfl))
  | entryConsumed r a | listRead r a =>
    simp only [hp, Submit.step] at hx
    split at hx <;> cases hx <;> exact .none rfl rfl rfl (hsame (by rw [hp]; rfl))
  | write r base todo =>
    simp only [hp, Submit.step] at hx
    split at hx <;> cases hx
    refine .none rfl rfl rfl (hsame ?_)
    rw [hp]
    split <;> rfl
  | allocEntries r =>
    simp only [hp, Submit.step] at hx
    cases hx
    exact .range p r _ rfl (by rw [hp]; rfl) (by rw [hp]; rfl) rfl rfl rfl hself hother
  | storeEntryIdx r base =>
    simp only [hp, Submit.step] at hx
    cases hx
    exact .range p r base rfl (by rw [hp]; rfl) (by rw [hp]; rfl) rfl rfl rfl hself hother
  | allocList r base =>
    simp only [hp, Submit.step] at hx
    cases hx
    exact .list p (r, base) _ rfl (by rw [hp]; rfl) (by rw [hp]; rfl) rfl rfl rfl hself hother
  | storeListIdx r base idx =>
    simp only [hp, Submit.step] at hx
    cases hx
    exact .list p (r, base) idx rfl (by rw [hp]; rfl) (by rw [hp]; rfl) rfl rfl rfl hself hother
  | header r base idx todo =>
    cases todo <;> simp only [hp, Submit.step] at hx <;> cases hx <;>
      exact .none rfl rfl rfl (hsame (by rw [hp]; rfl))
  | sequence r base idx =>
    simp only [hp, Submit.step] at hx
    cases hx
    exact .none rfl rfl rfl (hsame (by rw [hp]; rfl))

theorem entryAllocIdx_access (fine : Bool) (q : TaskQueue) (v : Nat) (t : Transfer) :
    (q.access fine v t).2.entryAllocIdx = q.entryAllocIdx := by
  unfold TaskQueue.access
  split
  case h_7 => split <;> rfl
  all_goals rfl

omit [DecidableEq B] in
theorem Record.compute_plan (d : Record B) (b : Block) : (d.compute b).plan = d.plan := by
  unfold Record.compute
  split <;> rfl

theorem ranging {a : Act S B} (hs : s.step fine a = some s') : s.Ranging s' a := by
  cases a with
  | submit p => exact ranging_submit hs
  | call p r =>
    simp only [step] at hs
    split at hs <;> cases hs
    rename_i hc
    have hidle : s.submit p = .idle := by
      unfold mayCall at hc
      split at hc <;> first | assumption | cases hc
    refine .none rfl rfl rfl fun q => ?_
    by_cases hq : q = p
    · subst hq
      rw [submit_setSubmit_self, hidle]
      split <;> rfl
    · rw [submit_setSubmit_of_ne s hq]
  | write p i f =>
    obtain ⟨⟨x, q⟩, hx, rfl⟩ := Option.map_eq_some_iff.mp hs
    unfold Submit.writeEntry at hx
    split at hx
    · rename_i hp
      split at hx <;> cases hx
      refine .none rfl rfl rfl fun q => ?_
      by_cases hq : q = p
      · subst hq
        exact (congrArg Submit.range (submit_setSubmit_self ..)).trans (by rw [hp]; rfl)
      · exact congrArg Submit.range (submit_setSubmit_of_ne s hq _)
    · cases hx
  | transfer b v =>
    obtain ⟨x, -, rfl⟩ := Option.map_eq_some_iff.mp hs
    exact .none (entryAllocIdx_access ..) (alloc_access ..).1 (Record.transfer_plan ..).1
      fun _ => rfl
  | convert b i f | commit b i =>
    obtain ⟨x, -, rfl⟩ := Option.map_eq_some_iff.mp hs
    exact .none rfl rfl rfl fun _ => rfl
  | compute b =>
    simp only [step] at hs
    split at hs
    · cases hs
    · obtain ⟨x, -, rfl⟩ := Option.map_eq_some_iff.mp hs
      exact .none rfl rfl (Record.compute_plan ..) fun _ => rfl
  | synchronize | count idx =>
    simp only [step] at hs
    split at hs <;> cases hs
    exact .none rfl rfl rfl fun _ => rfl
  | sync =>
    simp only [step, syncStep] at hs
    split at hs
    case h_3 => split at hs <;> cases hs; exact .none rfl rfl rfl fun _ => rfl
    all_goals cases hs <;> exact .none rfl rfl rfl fun _ => rfl
  | signal id v =>
    cases hs
    exact .none rfl rfl rfl fun _ => rfl

omit [DecidableEq S] [DecidableEq B] in
theorem holds_congr (hl : s'.queue.listAllocIdx = s.queue.listAllocIdx)
    (hp : s'.record.plan = s.record.plan) (hr : ∀ p, (s'.submit p).range = (s.submit p).range)
    (x : Request × Nat) : s'.Holds x ↔ s.Holds x := by
  unfold Holds
  simp only [hl, hp, hr]

omit [DecidableEq S] [DecidableEq B] in
/-- A submission has taken a range. -/
theorem holds_range {p : Party S B} {x : Request × Nat} (hn : (s.submit p).range = none)
    (hl : s'.queue.listAllocIdx = s.queue.listAllocIdx) (hp : s'.record.plan = s.record.plan)
    (hself : (s'.submit p).range = some x)
    (hr : ∀ q ≠ p, (s'.submit q).range = (s.submit q).range) (y : Request × Nat) :
    s'.Holds y ↔ s.Holds y ∨ y = x := by
  unfold Holds
  rw [hl, hp]
  constructor
  · rintro (⟨q, hq⟩ | hk)
    · by_cases hqp : q = p
      · subst hqp
        exact .inr (Option.some.inj (hq.symm.trans hself))
      · exact .inl (.inl ⟨q, (hr q hqp).symm.trans hq⟩)
    · exact .inl (.inr hk)
  · rintro ((⟨q, hq⟩ | hk) | rfl)
    · have hqp : q ≠ p := by
        rintro rfl
        cases hn.symm.trans hq
      exact .inl ⟨q, (hr q hqp).trans hq⟩
    · exact .inr hk
    · exact .inl ⟨p, hself⟩

/-- A submission has passed its range to the next list. -/
theorem holds_list {p : Party S B} {x : Request × Nat} (hx : (s.submit p).range = some x)
    (hl : s'.queue.listAllocIdx = s.queue.listAllocIdx + 1)
    (hp : s'.record.plan = Function.update s.record.plan s.queue.listAllocIdx x)
    (hself : (s'.submit p).range = none)
    (hr : ∀ q ≠ p, (s'.submit q).range = (s.submit q).range) (y : Request × Nat) :
    s'.Holds y ↔ s.Holds y := by
  unfold Holds
  rw [hl, hp]
  constructor
  · rintro (⟨q, hq⟩ | ⟨k, hk, rfl⟩)
    · by_cases hqp : q = p
      · subst hqp
        cases hself.symm.trans hq
      · exact .inl ⟨q, (hr q hqp).symm.trans hq⟩
    · by_cases hkn : k = s.queue.listAllocIdx
      · subst hkn
        rw [Function.update_self]
        exact .inl ⟨p, hx⟩
      · rw [Function.update_of_ne hkn]
        exact .inr ⟨k, by omega, rfl⟩
  · rintro (⟨q, hq⟩ | ⟨k, hk, rfl⟩)
    · by_cases hqp : q = p
      · subst hqp
        obtain rfl : y = x := Option.some.inj (hq.symm.trans hx)
        exact .inr ⟨_, Nat.lt_succ_self _, Function.update_self ..⟩
      · exact .inl ⟨q, (hr q hqp).trans hq⟩
    · exact .inr ⟨k, Nat.lt_succ_of_lt hk, Function.update_of_ne (Nat.ne_of_lt hk) ..⟩

/-- The ranges stay below `entry_alloc_idx`, the latest up to it. -/
theorem ranges_step (hv : s.Account) {a : Act S B} (ho : s.FirstPass a)
    (hs : s.step fine a = some s') :
    s.queue.entryAllocIdx ≤ s'.queue.entryAllocIdx ∧
      (∀ x, s'.Holds x → x.2 + x.1.count ≤ s'.queue.entryAllocIdx) ∧
      (s'.queue.entryAllocIdx = 0 ∨ ∃ x, s'.Holds x ∧ x.2 < maxSgPoolEntries ∧
        x.2 + x.1.count = s'.queue.entryAllocIdx) := by
  obtain ⟨hlists, hfirst⟩ := ho
  cases ranging hs with
  | none he hl hp hr =>
    have hholds := holds_congr hl hp hr
    simp only [he, hholds]
    exact ⟨Nat.le_refl _, hv.holds, hv.latest⟩
  | list p x n h ht hx he hl hp hself hr =>
    subst h
    simp only [ListsOrderly, ht] at hlists
    obtain ⟨rfl, -⟩ := hlists
    have hholds := holds_list hx hl hp hself hr
    simp only [he, hholds]
    exact ⟨Nat.le_refl _, hv.holds, hv.latest⟩
  | range p r base h ht hn he hl hp hself hr =>
    subst h
    simp only [ht, Request.region] at hfirst
    obtain ⟨rfl, hbase⟩ := hfirst
    have hholds := holds_range hn hl hp hself hr
    simp only [he, hholds]
    refine ⟨Nat.le_add_right _ _, ?_, ?_⟩
    · rintro x (hx | rfl)
      · exact (hv.holds x hx).trans (Nat.le_add_right _ _)
      · exact Nat.le_refl _
    · rcases hbase with hzero | hlt
      · rw [hzero, Nat.add_zero]
        refine hv.latest.imp_right fun hlast => ?_
        obtain ⟨x, hx, hlt⟩ := hlast
        exact ⟨x, .inl hx, hlt⟩
      · exact .inr ⟨_, .inr rfl, hlt, rfl⟩

end System

/-- A transfer warp moves on with its list, takes one, or has accounted for its entries. -/
theorem Block.accounting_transferStep {fine : Bool} {b b' : Block} {v : Nat}
    (hs : b.transferStep fine v = some b') :
    b'.taken = b.taken ∧ b'.transfer.accounting = b.transfer.accounting ∨
    (∃ idx h, b'.taken = b.taken ++ [(idx, h)] ∧ b.transfer.accounting = none ∧
      b'.transfer.accounting = some idx) ∨
    ∃ idx h, b'.taken = b.taken ∧ b.transfer.accounting = some idx ∧
      (b.transfer = .consumed idx h ∧ h.newConsumed ≤ v ∨
        ∃ old, b.transfer = .cas idx h old ∧ (v = old ∨ h.newConsumed ≤ v)) := by
  unfold transferStep at hs
  split at hs <;> rename_i ht <;> rw [ht]
  case h_6 idx h =>
    cases hs
    exact .inr (.inl ⟨idx, h, rfl, rfl, rfl⟩)
  case h_16 idx h =>
    split at hs <;> cases hs
    · exact .inl ⟨rfl, rfl⟩
    · exact .inr (.inr ⟨idx, h, rfl, rfl, .inl ⟨rfl, not_lt.mp ‹_›⟩⟩)
  case h_17 idx h old =>
    split at hs <;> cases hs
    · exact .inl ⟨rfl, rfl⟩
    · rename_i hc
      refine .inr (.inr ⟨idx, h, rfl, rfl, .inr ⟨old, rfl, ?_⟩⟩)
      by_contra hno
      exact hc ⟨fun h => hno (.inl h), not_le.mp fun h => hno (.inr h)⟩
  case h_21 => cases hs
  case h_2 | h_3 | h_12 | h_13 | h_14 | h_18 | h_20 =>
    split at hs <;> cases hs <;> exact .inl ⟨rfl, rfl⟩
  all_goals
    cases hs
    exact .inl ⟨rfl, rfl⟩

/-- It compares with a value below the end of its list's range. -/
theorem Block.cas_transferStep {fine : Bool} {b b' : Block} {v idx old : Nat} {h : Header}
    (hs : b.transferStep fine v = some b') (hc : b'.transfer = .cas idx h old) :
    old < h.newConsumed := by
  unfold transferStep at hs
  split at hs
  case h_16 =>
    split at hs <;> cases hs <;> cases hc
    assumption
  case h_17 =>
    split at hs <;> cases hs <;> cases hc
    exact And.right ‹_›
  case h_21 => cases hs
  case h_2 | h_3 | h_12 | h_13 | h_14 | h_18 | h_20 => split at hs <;> cases hs <;> cases hc
  all_goals cases hs; cases hc

/-- The other steps of a block leave its account alone. -/
theorem Block.accounting_step {fine : Bool} {b b' : Block} {m : Move} {v : Nat}
    (hm : m ≠ .transfer) (hs : b.step fine (m, v) = some b') :
    b'.taken = b.taken ∧ b'.transfer.accounting = b.transfer.accounting ∧
      ∀ idx h old, b'.transfer = .cas idx h old → b.transfer = .cas idx h old := by
  cases m with
  | transfer => exact absurd rfl hm
  | compute =>
    obtain ⟨ht, htaken, -⟩ := computeStep_transfer hs
    exact ⟨htaken, by rw [ht], fun idx h old hc => ht ▸ hc⟩
  | convert i f =>
    simp only [step] at hs
    split at hs
    · rename_i ht
      split at hs <;> cases hs
      exact ⟨rfl, by rw [ht]; rfl, by simp⟩
    · cases hs
  | commit i =>
    simp only [step] at hs
    split at hs
    · rename_i ht
      split at hs <;> cases hs
      exact ⟨rfl, by rw [ht]; rfl, by simp⟩
    · cases hs

/-- What the transfer warp has at hand, it has taken. -/
theorem Block.Valid.mem_taken {b : Block} (hv : b.Valid) {idx : Nat} {h : Header}
    (ht : b.transfer = .consumed idx h ∨ ∃ old, b.transfer = .cas idx h old) :
    (idx, h) ∈ b.taken := by
  have hprog := hv.progress
  unfold Progress at hprog
  rcases ht with ht | ⟨old, ht⟩ <;> rw [ht] at hprog <;> obtain ⟨⟨l, hl, -⟩, -⟩ := hprog <;>
    exact hl ▸ List.mem_append_right l (List.mem_singleton_self _)

theorem entryConsumedIdx_access (fine : Bool) (q : TaskQueue) (v : Nat) (t : Transfer) :
    (q.access fine v t).2.entryConsumedIdx =
      match t with
      | .cas _ h old => if q.entryConsumedIdx = old then h.newConsumed else q.entryConsumedIdx
      | _ => q.entryConsumedIdx := by
  cases t with
  | cas idx h old =>
    simp only [TaskQueue.access]
    split <;> rfl
  | load idx todo h => cases todo <;> rfl
  | _ => rfl

namespace System

variable {S B : Type} {s s' : System S B}

/-- A list that has been read ends where its range ends, in the first pass, and before that
otherwise. -/
theorem Account.newConsumed_le (hv : s.Account) {b : B} {k : Nat} {h : Header}
    (hk : (k, h) ∈ (s.block b).taken) :
    h.newConsumed = (s.record.plan k).2 % maxSgPoolEntries + (s.record.plan k).1.count ∧
      k < s.queue.listAllocIdx := by
  obtain ⟨-, hcommit, hh⟩ := hv.ring.read b k h hk
  obtain rfl : h = s.record.header k := hh
  exact ⟨rfl, hv.ring.committed k hcommit⟩

variable [DecidableEq S] [DecidableEq B] {fine : Bool}

/-- What a step does to `entry_consumed_idx` and to the lists blocks have at hand: nothing, or
the next step of one transfer warp. -/
theorem account_blocks {a : Act S B} (hs : s.step fine a = some s') :
    s'.queue.entryConsumedIdx = s.queue.entryConsumedIdx ∧
      (∀ c, (s'.block c).taken = (s.block c).taken ∧
        (s'.block c).transfer.accounting = (s.block c).transfer.accounting ∧
        ∀ idx h old, (s'.block c).transfer = .cas idx h old →
          (s.block c).transfer = .cas idx h old) ∨
    ∃ b v x, a = .transfer b v ∧
      (s.block b).transferStep fine (s.queue.access fine v (s.block b).transfer).1 = some x ∧
      s'.queue.entryConsumedIdx =
        (s.queue.access fine v (s.block b).transfer).2.entryConsumedIdx ∧
      s'.block = Function.update s.block b x := by
  have hset : ∀ b m x, m ≠ Move.transfer → (s.block b).step fine (m, 0) = some x → ∀ c,
      ((s.setBlock b x).block c).taken = (s.block c).taken ∧
        ((s.setBlock b x).block c).transfer.accounting = (s.block c).transfer.accounting ∧
        ∀ idx h old, ((s.setBlock b x).block c).transfer = .cas idx h old →
          (s.block c).transfer = .cas idx h old := by
    intro b m x hm hx c
    by_cases hcb : c = b
    · subst hcb
      rw [block_setBlock_self]
      exact Block.accounting_step hm hx
    · rw [block_setBlock_of_ne s hcb]
      exact ⟨rfl, rfl, fun _ _ _ h => h⟩
  have hsame : ∀ c, (s.block c).taken = (s.block c).taken ∧
      (s.block c).transfer.accounting = (s.block c).transfer.accounting ∧
      ∀ idx h old, (s.block c).transfer = .cas idx h old → (s.block c).transfer = .cas idx h old :=
    fun _ => ⟨rfl, rfl, fun _ _ _ h => h⟩
  cases a with
  | transfer b v =>
    obtain ⟨x, hx, rfl⟩ := Option.map_eq_some_iff.mp hs
    exact .inr ⟨b, v, x, rfl, hx, rfl, rfl⟩
  | convert b i f =>
    obtain ⟨x, hx, rfl⟩ := Option.map_eq_some_iff.mp hs
    exact .inl ⟨rfl, hset b (.convert i f) x (by simp) hx⟩
  | commit b i =>
    obtain ⟨x, hx, rfl⟩ := Option.map_eq_some_iff.mp hs
    exact .inl ⟨rfl, hset b (.commit i) x (by simp) hx⟩
  | compute b =>
    simp only [step] at hs
    split at hs
    · cases hs
    · obtain ⟨x, hx, rfl⟩ := Option.map_eq_some_iff.mp hs
      exact .inl ⟨rfl, hset b .compute x (by simp) hx⟩
  | submit p =>
    obtain ⟨⟨x, q⟩, hx, rfl⟩ := Option.map_eq_some_iff.mp hs
    refine .inl ⟨?_, hsame⟩
    unfold Submit.step at hx
    split at hx
    case h_3 | h_5 => split at hx <;> (cases hx; rfl)
    case h_9 => split at hx <;> cases hx; rfl
    all_goals cases hx <;> rfl
  | write p i f =>
    obtain ⟨⟨x, q⟩, hx, rfl⟩ := Option.map_eq_some_iff.mp hs
    refine .inl ⟨?_, hsame⟩
    unfold Submit.writeEntry at hx
    split at hx
    · split at hx <;> cases hx
      rfl
    · cases hx
  | call p r | synchronize | count idx =>
    simp only [step] at hs
    split at hs <;> cases hs
    exact .inl ⟨rfl, hsame⟩
  | sync =>
    simp only [step, syncStep] at hs
    split at hs
    case h_3 => split at hs <;> cases hs; exact .inl ⟨rfl, hsame⟩
    all_goals cases hs <;> exact .inl ⟨rfl, hsame⟩
  | signal id v =>
    cases hs
    exact .inl ⟨rfl, hsame⟩

/-- `entry_consumed_idx` does not fall, and a transfer warp that is through with a list has raised
it to the end of the list's range. -/
theorem consumed_step (hv : s.Account) {a : Act S B} (hs : s.step fine a = some s') :
    s.queue.entryConsumedIdx ≤ s'.queue.entryConsumedIdx ∧
      (∀ b idx h old, (s'.block b).transfer = .cas idx h old → old < h.newConsumed) ∧
      (∀ b k h, (k, h) ∈ (s'.block b).taken → (s'.block b).transfer.accounting ≠ some k →
        h.newConsumed ≤ s'.queue.entryConsumedIdx) ∧
      s'.queue.entryConsumedIdx ≤ s.queue.entryAllocIdx := by
  rcases account_blocks hs with ⟨hq, hb⟩ | ⟨b, v, x, rfl, hx, hq, hblock⟩
  · rw [hq]
    refine ⟨Nat.le_refl _, fun b idx h old hc => hv.cas b idx h old ((hb b).2.2 idx h old hc),
      fun b k h hk ha => ?_, hv.le⟩
    obtain ⟨htaken, hacc, -⟩ := hb b
    rw [htaken] at hk
    rw [hacc] at ha
    exact hv.accounted b k h hk ha
  -- the value the warp goes by, where it accounts for a list
  have hvalue : ∀ idx h, ((s.block b).transfer = .consumed idx h ∨
      ∃ old, (s.block b).transfer = .cas idx h old) →
      (s.queue.access fine v (s.block b).transfer).1 = s.queue.entryConsumedIdx := by
    rintro idx h (ht | ⟨old, ht⟩) <;> rw [ht] <;> rfl
  rw [entryConsumedIdx_access] at hq
  have hmono : s.queue.entryConsumedIdx ≤ s'.queue.entryConsumedIdx ∧
      s'.queue.entryConsumedIdx ≤ s.queue.entryAllocIdx := by
    rw [hq]
    split
    · rename_i idx h old ht
      split
      · rename_i hold
        refine ⟨hold ▸ Nat.le_of_lt (hv.cas b idx h old ht), ?_⟩
        obtain ⟨hnew, hlt⟩ := hv.newConsumed_le ((hv.block b).mem_taken (.inr ⟨old, ht⟩))
        have hend := hv.holds _ (.inr ⟨idx, hlt, rfl⟩)
        have hmod := Nat.mod_le (s.record.plan idx).2 maxSgPoolEntries
        omega
      · exact ⟨Nat.le_refl _, hv.le⟩
    · exact ⟨Nat.le_refl _, hv.le⟩
  refine ⟨hmono.1, fun c idx h old hc => ?_, fun c k h hk ha => ?_, hmono.2⟩
  · rw [hblock] at hc
    by_cases hcb : c = b
    · subst hcb
      rw [Function.update_self] at hc
      exact Block.cas_transferStep hx hc
    · rw [Function.update_of_ne hcb] at hc
      exact hv.cas c idx h old hc
  · rw [hblock] at hk ha
    by_cases hcb : c = b
    · subst hcb
      rw [Function.update_self] at hk ha
      rcases Block.accounting_transferStep hx with ⟨htaken, hacc⟩ | ⟨idx, h', htaken, hnone, hacc⟩ |
          ⟨idx, h', htaken, hacc, hdone⟩
      · rw [htaken] at hk
        rw [hacc] at ha
        exact (hv.accounted c k h hk ha).trans hmono.1
      · rw [htaken] at hk
        rcases List.mem_append.mp hk with hk | hk
        · exact (hv.accounted c k h hk (by rw [hnone]; nofun)).trans hmono.1
        · cases List.mem_singleton.mp hk
          exact absurd hacc ha
      · rw [htaken] at hk
        by_cases hki : k = idx
        · -- the list it is through with
          subst hki
          have hmem : (k, h') ∈ (s.block c).taken := by
            refine (hv.block c).mem_taken ?_
            rcases hdone with ⟨ht, -⟩ | ⟨old, ht, -⟩
            · exact .inl ht
            · exact .inr ⟨old, ht⟩
          obtain rfl : h = h' :=
            (hv.ring.read c k h hk).2.2.trans (hv.ring.read c k h' hmem).2.2.symm
          rcases hdone with ⟨ht, hle⟩ | ⟨old, ht, hle⟩
          · rw [hvalue k h (.inl ht)] at hle
            exact hle.trans hmono.1
          · rw [hvalue k h (.inr ⟨old, ht⟩)] at hle
            rcases hle with hold | hle
            · rw [hq, ht]
              dsimp only
              rw [if_pos hold]
            · exact hle.trans hmono.1
        · refine (hv.accounted c k h hk ?_).trans hmono.1
          rw [hacc]
          exact fun heq => hki (Option.some.inj heq).symm
    · rw [Function.update_of_ne hcb] at hk ha
      exact (hv.accounted c k h hk ha).trans hmono.1

theorem account_step (hv : s.Account) {a : Act S B} (ho : s.FirstPass a)
    (hs : s.step fine a = some s') : s'.Account := by
  obtain ⟨halloc, hholds, hlatest⟩ := ranges_step hv ho hs
  obtain ⟨-, hcas, hacc, hle⟩ := consumed_step hv hs
  exact ⟨ringValid_step hv.ring ho.1 hs, block_valid_step hv.block hs, hholds, hlatest, hcas, hacc,
    hle.trans halloc⟩

omit [DecidableEq S] [DecidableEq B] in
theorem Init.account (h : s.Init) : s.Account where
  ring := h.ring.valid
  block b := by rw [h.block b]; exact Block.valid_init
  holds x hx := by
    rcases hx with ⟨p, hp⟩ | ⟨k, hk, -⟩
    · rw [h.submit p] at hp
      cases hp
    · rw [h.queue.listAllocIdx] at hk
      exact absurd hk (Nat.not_lt_zero k)
  latest := .inl h.queue.entryAllocIdx
  cas b idx h' old hc := by rw [h.block b] at hc; cases hc
  accounted b k h' hk := by rw [h.block b] at hk; cases hk
  le := by rw [h.queue.entryConsumedIdx]; exact Nat.zero_le _

theorem account_of_reachable (h : Reachable (step fine) FirstPass Init s) : s.Account :=
  h.invariant (fun _ h => h.account) fun _ _ _ hv ho hs => account_step hv ho hs

/-- All lists have been turned into descriptors, and no range is waiting for its list. -/
structure Settled (s : System S B) : Prop where
  lists : ∀ k < s.queue.listAllocIdx, s.Accounted k
  ranges : ∀ p, (s.submit p).range = none

/-- A submission in `sg_wait_entry_space`. -/
def InEntrySpace (x : Submit) (r : Request) : Prop :=
  x = .entrySpace r ∨ ∃ alloc, x = .entryConsumed r alloc

/-- What the account of the entry pool promises. -/
structure SpaceReturned (fine : Bool) (s : System S B) : Prop where
  settled : s.Settled → s.queue.entryConsumedIdx = s.queue.entryAllocIdx
  succeeds : s.Settled → ∀ needed ≤ maxSgPoolEntries,
    subWord s.queue.entryAllocIdx s.queue.entryConsumedIdx ≤ poolRoom needed
  /-- A submission that waits goes on by its own steps. -/
  returns : s.Settled → ∀ p r, InEntrySpace (s.submit p) r → r.count ≤ maxSgPoolEntries →
    ∃ n ≤ 3, ∃ t, run (step fine) s (List.replicate n (.submit p)) = some t ∧
      t.submit p = .listSpace r

/-- With room, a submission that waits goes on, also if it has loaded `entry_alloc_idx` before. -/
theorem exists_run_entrySpace {p : Party S B} {r : Request} (hp : InEntrySpace (s.submit p) r)
    (hroom : subWord s.queue.entryAllocIdx s.queue.entryConsumedIdx ≤ poolRoom r.count) :
    ∃ n ≤ 3, ∃ t, run (step fine) s (List.replicate n (.submit p)) = some t ∧
      t.submit p = .listSpace r := by
  rcases hp with hp | ⟨alloc, hp⟩
  · exact ⟨2, by omega, by simp [run_cons, step, setSubmit, Submit.step, hp, hroom]⟩
  · by_cases hold : subWord alloc s.queue.entryConsumedIdx ≤ poolRoom r.count
    · exact ⟨1, by omega, by simp [run_cons, step, setSubmit, Submit.step, hp, hold]⟩
    · exact ⟨3, by omega, by
        simp [run_cons, step, setSubmit, Submit.step, List.replicate, hp, hold, hroom]⟩

omit [DecidableEq S] [DecidableEq B] in
theorem Account.consumed_eq (hv : s.Account) (h : s.Settled) :
    s.queue.entryConsumedIdx = s.queue.entryAllocIdx := by
  rcases hv.latest with hzero | ⟨x, hx, hlt, hend⟩
  · exact Nat.le_antisymm hv.le (hzero ▸ Nat.zero_le _)
  · rcases hx with ⟨p, hp⟩ | ⟨k, hk, rfl⟩
    · cases (h.ranges p).symm.trans hp
    · obtain ⟨b, h', hmem, hacc⟩ := h.lists k hk
      have hle := hv.accounted b k h' hmem hacc
      rw [(hv.newConsumed_le hmem).1, Nat.mod_eq_of_lt hlt, hend] at hle
      exact Nat.le_antisymm hv.le hle

/-- **All space is returned**, in the runs in which every range begins in the first pass over the
pool. -/
theorem spaceReturned_of_reachable (h : Reachable (step fine) FirstPass Init s) :
    s.SpaceReturned fine := by
  have heq := (account_of_reachable h).consumed_eq
  have hroom : s.Settled → ∀ needed,
      subWord s.queue.entryAllocIdx s.queue.entryConsumedIdx ≤ poolRoom needed := fun hset _ => by
    have hzero : subWord s.queue.entryAllocIdx s.queue.entryConsumedIdx = 0 := by
      rw [heq hset]
      unfold subWord word wordSize
      omega
    rw [hzero]
    exact Nat.zero_le _
  exact ⟨heq, fun hset needed _ => hroom hset needed,
    fun hset p r hp _ => exists_run_entrySpace hp (hroom hset r.count)⟩

/-! ### The second pass -/

/-- The lanes of block `b` are through. -/
def laned (s : System S B) (b : B) : System S B :=
  s.setBlock b { s.block b with transfer := (s.block b).transfer.laned }

omit [DecidableEq S] in
theorem laned_eq_self {b : B} (h : (s.block b).transfer.laned = (s.block b).transfer) :
    s.laned b = s := by
  unfold laned setBlock
  rw [h]
  exact congrArg (fun f => { s with block := f }) (Function.update_eq_self b s.block)

variable (fine) in
/-- The lanes of a block can convert all entries, or commit all descriptors. -/
theorem exists_run_laned (s : System S B) (b : B) :
    ∃ as, (∀ a ∈ as, Act.lane a = true) ∧ run (step fine) s as = some (s.laned b) := by
  cases hb : (s.block b).transfer with
  | convert idx h base todo =>
    induction todo using Finset.induction_on generalizing s with
    | empty => exact ⟨[], List.forall_mem_nil _, by rw [laned_eq_self (by rw [hb]; rfl)]; rfl⟩
    | insert x todo hx ih =>
      obtain ⟨i, f⟩ := x
      let t := s.setBlock b { s.block b with transfer := .convert idx h base todo }
      have hstep : s.step fine (.convert b i f) = some t := by
        simp only [step, Block.step, hb, Finset.mem_insert_self, if_true, Option.map_some,
          Finset.erase_insert hx, t]
      have hself : t.block b = { s.block b with transfer := .convert idx h base todo } :=
        block_setBlock_self ..
      obtain ⟨as, hlane, hrest⟩ := ih t (by rw [hself])
      refine ⟨.convert b i f :: as, List.forall_mem_cons.mpr ⟨rfl, hlane⟩, ?_⟩
      rw [run_cons, hstep, Option.bind_some, hrest, laned, hself, laned, hb]
      simp only [t, setBlock, Function.update_idem, Transfer.laned]
  | commit idx h base todo =>
    induction todo using Finset.induction_on generalizing s with
    | empty => exact ⟨[], List.forall_mem_nil _, by rw [laned_eq_self (by rw [hb]; rfl)]; rfl⟩
    | insert i todo hx ih =>
      let t := s.setBlock b { s.block b with transfer := .commit idx h base todo }
      have hstep : s.step fine (.commit b i) = some t := by
        simp only [step, Block.step, hb, Finset.mem_insert_self, if_true, Option.map_some,
          Finset.erase_insert hx, t]
      have hself : t.block b = { s.block b with transfer := .commit idx h base todo } :=
        block_setBlock_self ..
      obtain ⟨as, hlane, hrest⟩ := ih t (by rw [hself])
      refine ⟨.commit b i :: as, List.forall_mem_cons.mpr ⟨rfl, hlane⟩, ?_⟩
      rw [run_cons, hstep, Option.bind_some, hrest, laned, hself, laned, hb]
      simp only [t, setBlock, Function.update_idem, Transfer.laned]
  | _ => exact ⟨[], List.forall_mem_nil _, by rw [laned_eq_self (by rw [hb]; rfl)]; rfl⟩

theorem reachable_laned (hs : Reachable (step fine) Always Init s) (b : B) :
    Reachable (step fine) Always Init (s.laned b) := by
  obtain ⟨as, -, has⟩ := exists_run_laned fine s b
  exact hs.run_always has

variable (fine) in
/-- A submission can write entries that are all zero to a pool that is. -/
theorem exists_run_zeros {p : Party S B} {r : Request} {base : Nat}
    {todo : Finset (Nat × EntryField)} (hp : s.submit p = .write r base todo)
    (hr : ∀ i f, r.entries i f = 0) (hq : ∀ c f, s.queue.entries c f = 0) :
    ∃ as, (∀ a ∈ as, Act.lane a = true) ∧
      run (step fine) s as = some (s.setSubmit p (.write r base ∅)) := by
  induction todo using Finset.induction_on generalizing s with
  | empty =>
    refine ⟨[], List.forall_mem_nil _, ?_⟩
    rw [setSubmit, ← hp, Function.update_eq_self]
    rfl
  | insert x todo hx ih =>
    obtain ⟨i, f⟩ := x
    have hsame : s.queue.storeEntry ((base + i) % maxSgPoolEntries) f (r.entries i f) = s.queue := by
      unfold TaskQueue.storeEntry
      rw [hr, ← hq ((base + i) % maxSgPoolEntries) f, Function.update_eq_self,
        Function.update_eq_self]
    have hstep : s.step fine (.write p i f) = some (s.setSubmit p (.write r base todo)) := by
      simp only [step, hp, Submit.writeEntry, Finset.mem_insert_self, if_true, Option.map_some,
        Finset.erase_insert hx, hsame]
      rfl
    obtain ⟨as, hlane, hrest⟩ := ih (submit_setSubmit_self s p (.write r base todo)) hq
    refine ⟨.write p i f :: as, List.forall_mem_cons.mpr ⟨rfl, hlane⟩, ?_⟩
    rw [run_cons, hstep, Option.bind_some, hrest]
    simp only [setSubmit, Function.update_idem]

/-- A warp takes the whole pool. -/
def taking : System Unit Bool :=
  (run (step true) init (.call (.gpu ()) (sized maxSgPoolEntries) ::
    List.replicate 5 (Act.submit (.gpu ())))).get rfl

/-- It has written its entries, and commits the list; a block is about to convert it. -/
def converting : System Unit Bool :=
  (run (step true)
    (taking.setSubmit (.gpu ()) (.write (sized maxSgPoolEntries) 0 ∅))
    (List.replicate 8 (Act.submit (.gpu ())) ++ List.replicate 16 (Act.transfer false 0))).get
      (by decide +kernel)

/-- It has, and is about to commit the descriptors. -/
def committing : System Unit Bool :=
  (step true (converting.laned false) (.transfer false 0)).get (by decide +kernel)

/-- It goes on to where it waits for their copies.  Then the warp submits a list of one entry, and
another block does the same with it. -/
def secondPass : List (Act Unit Bool) :=
  [List.replicate 4 (.transfer false 0), [.call (.gpu ()) (sized 1)],
    List.replicate 5 (.submit (.gpu ())), entryWrites (.gpu ()), List.replicate 8 (.submit (.gpu ())),
    List.replicate 16 (.transfer true 0),
    [.convert true 0 .srcAddr, .convert true 0 .dstAddr, .convert true 0 .size,
      .transfer true 0, .commit true 0], List.replicate 3 (.transfer true 0)].flatten

theorem reachable_committing : Reachable (step true) Always Init committing := by
  have htaking : Reachable (step true) Always Init taking :=
    (Reachable.initial init_init).run_always (Option.some_get _).symm
  obtain ⟨as, -, has⟩ := exists_run_zeros true (s := taking) (p := .gpu ())
    (r := sized maxSgPoolEntries) rfl (fun _ _ => rfl) fun _ _ => rfl
  have hconverting : Reachable (step true) Always Init converting :=
    (htaking.run_always has).run_always (Option.some_get _).symm
  exact (reachable_laned hconverting false).step _ trivial (Option.some_get _).symm

private structure Books where
  entryAlloc : Nat
  entryConsumed : Nat
  listAlloc : Nat
  idle : Bool
  taken : List (List Nat)
  accounting : List (Option Nat)
  deriving DecidableEq

private def books (s : System Unit Bool) : Books where
  entryAlloc := s.queue.entryAllocIdx
  entryConsumed := s.queue.entryConsumedIdx
  listAlloc := s.queue.listAllocIdx
  idle := (s.submit (.gpu ())).range.isNone && (s.submit .host).range.isNone &&
    (s.submit (.functor false)).range.isNone && (s.submit (.functor true)).range.isNone
  taken := [false, true].map fun b => (s.block b).taken.map Prod.fst
  accounting := [false, true].map fun b => (s.block b).transfer.accounting

/-- One list has been taken by each block, and both are accounted for. -/
private theorem settled_of_books {s : System Unit Bool} {alloc consumed : Nat}
    (h : books s = ⟨alloc, consumed, 2, true, [[0], [1]], [none, none]⟩) : s.Settled := by
  simp only [books, Books.mk.injEq, Bool.and_eq_true, Option.isNone_iff_eq_none, List.map_cons,
    List.map_nil, List.cons.injEq, and_true] at h
  obtain ⟨-, -, hlists, ⟨⟨⟨hgpu, hhost⟩, hfalse⟩, htrue⟩, ⟨htaken, htaken'⟩, hacc, hacc'⟩ := h
  have haccounted : ∀ b k, k ∈ (s.block b).taken.map Prod.fst →
      (s.block b).transfer.accounting = none → s.Accounted k := by
    intro b k hmem hnone
    obtain ⟨⟨_, h⟩, hx, rfl⟩ := List.mem_map.mp hmem
    exact ⟨b, h, hx, by rw [hnone]; nofun⟩
  constructor
  · intro k hk
    obtain rfl | rfl : k = 0 ∨ k = 1 := by omega
    · exact haccounted false 0 (by rw [htaken]; decide) hacc
    · exact haccounted true 1 (by rw [htaken']; decide) hacc'
  · rintro (⟨⟩ | (_ | _) | _) <;> assumption

/-- Two lists, one of as many entries as the pool has and one of a single entry, have been turned
into descriptors.  `entry_consumed_idx` is behind, and there is never room for the whole pool again. -/
theorem exists_unreturned : ∃ s : System Unit Bool, Reachable (step true) Always Init s ∧
    s.Settled ∧ s.queue.entryAllocIdx = maxSgPoolEntries + 1 ∧
    s.queue.entryConsumedIdx = maxSgPoolEntries ∧
    ¬ subWord s.queue.entryAllocIdx s.queue.entryConsumedIdx ≤ poolRoom maxSgPoolEntries ∧
    ¬ s.SpaceReturned true := by
  have hrun : (run (step true) (committing.laned false) secondPass).map books = some
      ⟨maxSgPoolEntries + 1, maxSgPoolEntries, 2, true, [[0], [1]], [none, none]⟩ := by
    decide +kernel
  obtain ⟨s, hs, hbooks⟩ := Option.map_eq_some_iff.mp hrun
  have hsettled : s.Settled := settled_of_books hbooks
  have halloc : s.queue.entryAllocIdx = maxSgPoolEntries + 1 := congrArg Books.entryAlloc hbooks
  have hconsumed : s.queue.entryConsumedIdx = maxSgPoolEntries := congrArg Books.entryConsumed hbooks
  refine ⟨s, (reachable_laned reachable_committing false).run_always hs, hsettled, halloc,
    hconsumed, ?_, fun h => ?_⟩
  · rw [halloc, hconsumed]
    decide
  · have heq := h.settled hsettled
    rw [halloc, hconsumed] at heq
    exact absurd heq (by decide)

/-- A warp submits a list of one entry. -/
private def submitsOne : List (Act Unit Bool) :=
  [[.call (.gpu ()) (sized 1)], List.replicate 5 (.submit (.gpu ())), entryWrites (.gpu ()),
    List.replicate 8 (.submit (.gpu ()))].flatten

/-- A block that has claimed a list turns it into a descriptor, up to the load of
`entry_consumed_idx`. -/
private def takesOne (b : Bool) : List (Act Unit Bool) :=
  [List.replicate 15 (.transfer b 0),
    [.convert b 0 .srcAddr, .convert b 0 .dstAddr, .convert b 0 .size, .transfer b 0, .commit b 0],
    List.replicate 3 (.transfer b 0)].flatten

/-- Two lists are in the pool at once, and two blocks take one each. Both load
`entry_consumed_idx`, the block with the later list raises it, and the other one finds it raised.
Then the system is settled, and all its room is back. -/
theorem spaceReturned_of_reachable_two : ∃ s : System Unit Bool,
    Reachable (step true) FirstPass Init s ∧ s.Settled ∧ s.queue.listAllocIdx = 2 ∧
      s.queue.entryAllocIdx = 2 ∧ s.queue.entryConsumedIdx = 2 ∧ s.SpaceReturned true := by
  have hrun : (runWhile (step true) FirstPass (init : System Unit Bool)
      (submitsOne ++ submitsOne ++ [.transfer false 0, .transfer true 0] ++ takesOne true ++
        takesOne false ++ [.transfer true 0, .transfer false 0])).map books =
      some ⟨2, 2, 2, true, [[0], [1]], [none, none]⟩ := by
    decide +kernel
  obtain ⟨s, hs, hbooks⟩ := Option.map_eq_some_iff.mp hrun
  have hreach := (Reachable.initial init_init).runWhile hs
  exact ⟨s, hreach, settled_of_books hbooks, congrArg Books.listAlloc hbooks,
    congrArg Books.entryAlloc hbooks, congrArg Books.entryConsumed hbooks,
    spaceReturned_of_reachable hreach⟩

end System
end Gfd.Sg
