import GfdProof.SgQueue

/-! # The list ring of the scatter-gather queue

No header and no sequence is overwritten before the block that claimed its index
has read it, every index is claimed once, and the claimant reads what was
submitted (`RingIntegrity`, `KeepsUnread`) — where the ring is valid, which it
stays while a list index is taken only when the list that had its cell has been
cleared.

The code does not see to that.  `sg_wait_list_space` compares `list_alloc_idx`
with `list_read_idx`, which counts claims, not lists read, and it does so before
the index is taken; the host does not compare at all.  `exists_overwritten` is a
host that submits one list more than the ring has cells.
-/
namespace Gfd.Sg

open Transition

/-- The list index whose cell it is about to store to. -/
def Submit.stores : Submit → Option Nat
  | .header _ _ idx (_ :: _) | .sequence _ _ idx => some idx
  | _ => none

/-- The list index whose cell it is about to store to. -/
def Transfer.stores : Transfer → Option Nat
  | .clear idx _ => some idx
  | _ => none

namespace System

variable {S B : Type}

/-- The list index whose header or sequence a step stores to. -/
def stores (s : System S B) : Act S B → Option Nat
  | .submit p => (s.submit p).stores
  | .transfer b _ => (s.block b).transfer.stores
  | _ => none

/-- What the list ring is for. -/
structure RingIntegrity (s : System S B) : Prop where
  /-- When a cell is stored to, every other list that was to be there has been
  read, by the only block that claimed it. -/
  notOverwritten : ∀ a n k, s.stores a = some n → k < s.queue.listAllocIdx →
    k % maxSgLists = n % maxSgLists → k ≠ n →
    ∃ b, s.record.claims k = [b] ∧ k ∈ (s.block b).taken.map Prod.fst
  /-- A block clears a list it has read. -/
  clears : ∀ b n, (s.block b).transfer.stores = some n → n ∈ (s.block b).taken.map Prod.fst
  /-- All indices below `list_read_idx` have been claimed, by one block each. -/
  claimed : ∀ k, k < s.queue.listReadIdx → ∃ b, s.record.claims k = [b]
  unclaimed : ∀ k, s.queue.listReadIdx ≤ k → s.record.claims k = []
  /-- What a block reads, it has claimed, was committed and is as submitted. -/
  read : ∀ b k h, (k, h) ∈ (s.block b).taken →
    s.record.claims k = [b] ∧ s.record.committed k = true ∧ h = s.record.header k
  /-- No block reads a list twice. -/
  nodup : ∀ b, ((s.block b).taken.map Prod.fst).Nodup

theorem integrity {s : System S B} (hv : s.ring.Valid listLayout) : s.RingIntegrity where
  notOverwritten a n k hs hk hc hne := by
    have hread : s.ring.WasRead k := by
      cases a with
      | submit p =>
        refine hv.wasRead (a := .store p) ?_ hk hc hne
        change (s.submit p).stores = some n at hs
        have hp : s.ring.producer p = (s.submit p).producer := rfl
        unfold Submit.stores at hs
        split at hs <;> cases hs <;> rename_i h <;> rw [h] at hp <;>
          simp only [SlotRing.Ring.stores, hp, Submit.producer]
      | transfer b v =>
        refine hv.wasRead (a := .clear b) ?_ hk hc hne
        change (s.block b).transfer.stores = some n at hs
        have hp : s.ring.consumer b = (s.block b).transfer.consumer := rfl
        unfold Transfer.stores at hs
        split at hs <;> cases hs
        rename_i h
        rw [h] at hp
        simp only [SlotRing.Ring.stores, hp, Transfer.consumer]
      | _ => cases hs
    obtain ⟨b, h, hb⟩ := hread
    exact ⟨b, (hv.read b k h hb).1, List.mem_map_of_mem (f := Prod.fst) hb⟩
  clears b n hs := by
    have hb := hv.consumer b
    have hp : s.ring.consumer b = (s.block b).transfer.consumer := rfl
    unfold Transfer.stores at hs
    split at hs <;> cases hs
    rename_i h
    rw [h] at hp
    simp only [SlotRing.Ring.Consuming, hp, Transfer.consumer] at hb
    exact List.mem_map_of_mem (f := Prod.fst) hb.1
  claimed := hv.once
  unclaimed := hv.unclaimed
  read := hv.read
  nodup := hv.nodup

variable [DecidableEq S] [DecidableEq B] {fine : Bool} {s s' : System S B}

theorem lists_submit {host : Bool} {q q' : TaskQueue} {x y : Submit}
    (hs : x.step host q = some (y, q')) {c : Nat} (hc : ∀ n, x.stores = some n → c ≠ n % maxSgLists) :
    q'.lists c = q.lists c := by
  unfold Submit.step at hs
  split at hs
  case h_3 | h_5 => split at hs <;> (cases hs; rfl)
  case h_9 => split at hs <;> cases hs; rfl
  case h_13 => -- stores a field of the header
    cases hs
    exact Function.update_of_ne (hc _ rfl) _ _
  case h_15 =>
    cases hs
    exact Function.update_of_ne (hc _ rfl) _ _
  all_goals cases hs <;> rfl

theorem lists_access (q : TaskQueue) (v : Nat) (t : Transfer) {c : Nat}
    (hc : ∀ n, t.stores = some n → c ≠ n % maxSgLists) :
    (q.access fine v t).2.lists c = q.lists c := by
  unfold TaskQueue.access
  split
  case h_5 => exact Function.update_of_ne (hc _ rfl) _ _
  case h_7 => split <;> rfl
  all_goals rfl

/-- `stores` says which cell of the ring a step may change. -/
theorem lists_step {a : Act S B} (hs : s.step fine a = some s') {c : Nat}
    (hc : ∀ n, s.stores a = some n → c ≠ n % maxSgLists) :
    s'.queue.lists c = s.queue.lists c := by
  cases a with
  | submit p =>
    obtain ⟨⟨x, q⟩, hx, rfl⟩ := Option.map_eq_some_iff.mp hs
    exact lists_submit hx hc
  | transfer b v =>
    obtain ⟨x, -, rfl⟩ := Option.map_eq_some_iff.mp hs
    exact lists_access s.queue v _ hc
  | call p r =>
    simp only [step] at hs
    split at hs <;> cases hs
    rfl
  | write p i f =>
    obtain ⟨⟨x, q⟩, hx, rfl⟩ := Option.map_eq_some_iff.mp hs
    unfold Submit.writeEntry at hx
    split at hx
    · split at hx <;> cases hx
      rfl
    · cases hx
  | convert b i f | commit b i =>
    obtain ⟨x, -, rfl⟩ := Option.map_eq_some_iff.mp hs
    rfl
  | compute b =>
    simp only [step] at hs
    split at hs
    · cases hs
    · obtain ⟨x, -, rfl⟩ := Option.map_eq_some_iff.mp hs
      rfl
  | synchronize | count idx =>
    simp only [step] at hs
    split at hs <;> cases hs
    rfl
  | sync =>
    simp only [step, syncStep] at hs
    split at hs
    case h_3 => split at hs <;> cases hs; rfl
    all_goals cases hs <;> rfl
  | signal id v =>
    cases hs
    rfl

/-- No step touches the cell of a committed list that no block has read. -/
def KeepsUnread (fine : Bool) (s : System S B) : Prop :=
  ∀ a s' k, s.step fine a = some s' → s.record.committed k = true →
    (∀ b, k ∉ (s.block b).taken.map Prod.fst) →
    s'.queue.lists (k % maxSgLists) = s.queue.lists (k % maxSgLists)

omit [DecidableEq S] [DecidableEq B] in
/-- Whoever stores to the cell of list `k` for that list is submitting it, or has read it. -/
theorem taken_of_stores (hv : s.ring.Valid listLayout) {a : Act S B} {k : Nat}
    (hs : s.stores a = some k) (hk : s.record.committed k = true) :
    ∃ b, k ∈ (s.block b).taken.map Prod.fst := by
  cases a with
  | submit p =>
    change (s.submit p).stores = some k at hs
    obtain ⟨x, todo, hp⟩ : ∃ x todo, (s.submit p).producer = .storing k x todo := by
      unfold Submit.stores at hs
      split at hs <;> cases hs <;> rename_i h <;> rw [h] <;> exact ⟨_, _, rfl⟩
    obtain ⟨-, hnot, -⟩ := hv.storing p k x todo hp
    cases hk.symm.trans hnot
  | transfer b v => exact ⟨b, (integrity hv).clears b k hs⟩
  | _ => cases hs

theorem keepsUnread (hv : s.ring.Valid listLayout) : s.KeepsUnread fine := by
  intro a s' k hs hk hunread
  refine lists_step hs fun n hn hc => ?_
  by_cases hkn : k = n
  · subst hkn
    obtain ⟨b, hb⟩ := taken_of_stores hv hn hk
    exact hunread b hb
  · obtain ⟨b, -, hb⟩ := (integrity hv).notOverwritten a n k hn (hv.committed k hk) hc hkn
    exact hunread b hb

/-! ## Pieces of runs -/

/-- The entry of a one-entry list is written. -/
def entryWrites (p : Party S B) : List (Act S B) :=
  [.write p 0 .srcAddr, .write p 0 .dstAddr, .write p 0 .size, .write p 0 .tag]

/-- The host submits a one-entry list. -/
def hostSubmits (r : Request) : List (Act S B) :=
  [Act.call .host r] ++ List.replicate 2 (Act.submit .host) ++ entryWrites .host ++
    List.replicate 9 (Act.submit .host)

/-- A block claims an index, finds the list and reads its header. -/
def reads (b : B) : List (Act S B) := List.replicate 7 (Act.transfer b 0)

/-- Its entry is copied to a descriptor, and the copies of list `id` complete. -/
def entryCopies (b : B) (id : Nat) : List (Act S B) :=
  [.convert b 0 .srcAddr, .convert b 0 .dstAddr, .convert b 0 .size, .transfer b 0, .commit b 0,
    .transfer b 0, .transfer b 0, .transfer b 0, .transfer b 0, .signal id 1]

/-- The block goes on with the list, up to where it calls `compute_fn`. -/
def serves (b : B) (id : Nat) : List (Act S B) :=
  List.replicate 9 (Act.transfer b 0) ++ entryCopies b id ++
    List.replicate 2 (Act.transfer b 0) ++ List.replicate 7 (Act.compute b)

/-- The call returns, and the transfer warp is about to claim another index. -/
def returns (b : B) : List (Act S B) :=
  List.replicate 3 (Act.compute b) ++ [Act.transfer b 0]

/-- The block claims an index, finds it not committed and `terminate` set, and
leaves. -/
def leaves (b : B) : List (Act S B) :=
  List.replicate 4 (Act.transfer b 0) ++ List.replicate 3 (Act.compute b)

def synchronizes : List (Act S B) := [.synchronize, .sync, .sync, .sync]

/-! ## A host that does not wait -/

/-- The `n`-th list of the host: one entry, and the number as its id. -/
def numbered (n : Nat) : Request where
  entries _ _ := 0
  count := 1
  listId := n
  flags := 0

/-- The host has submitted `n` lists, and nothing else has happened. -/
structure Submitted (fine : Bool) (n : Nat) (s : System S B) : Prop where
  reachable : Reachable (step fine) Always Init s
  listAllocIdx : s.queue.listAllocIdx = n
  submit : s.submit .host = .idle
  sync : s.sync = .idle
  claims : ∀ k, s.record.claims k = []

/-- Up to where it stores the header of the next one. -/
theorem Submitted.allocated {n : Nat} (hs : Submitted fine n s) :
    ∃ (t : System S B) (base : Nat), Reachable (step fine) Always Init t ∧
      t.queue.listAllocIdx = n + 1 ∧ t.sync = .idle ∧ t.record.claims = s.record.claims ∧
      t.record.committed = s.record.committed ∧
      t.submit .host = .header (numbered n) base n [.poolOffset, .count, .listId, .flags] := by
  have h1 : ∃ t, run (step fine) s [.call .host (numbered n), .submit .host, .submit .host] =
      some t ∧ t.queue.listAllocIdx = n ∧ t.sync = .idle ∧ t.record = s.record ∧
      t.submit .host = .write (numbered n) s.queue.entryAllocIdx
        (Finset.range 1 ×ˢ Finset.univ) := by
    simp [run_cons, step, mayCall, hs.submit, hs.sync, setSubmit, Submit.step, numbered,
      Record.submit, hs.listAllocIdx]
  obtain ⟨t, ht, ha, hsync, hrec, hp⟩ := h1
  obtain ⟨e, h2⟩ := exists_written (hs.reachable.run_always ht) hp
  have h3 : ∃ u, run (step fine)
      ({ t.setSubmit .host (.write (numbered n) s.queue.entryAllocIdx ∅) with
        queue := { t.queue with entries := e } } : System S B)
      [.submit .host, .submit .host, .submit .host] = some u ∧
      u.queue.listAllocIdx = n + 1 ∧ u.sync = .idle ∧ u.record.claims = s.record.claims ∧
      u.record.committed = s.record.committed ∧
      u.submit .host = .header (numbered n) s.queue.entryAllocIdx n
        [.poolOffset, .count, .listId, .flags] := by
    simp [run_cons, step, setSubmit, Submit.step, Record.submit, ha, hsync, hrec]
  obtain ⟨u, hu, hrest⟩ := h3
  exact ⟨u, _, h2.run_always hu, hrest⟩

theorem Submitted.succ {n : Nat} (hs : Submitted fine n s) :
    ∃ t : System S B, Submitted fine (n + 1) t ∧ t.record.committed n = true ∧
      ∀ k, s.record.committed k = true → t.record.committed k = true := by
  obtain ⟨t, base, ht, ha, hsync, hclaims, hcommit, hp⟩ := hs.allocated
  have h : ∃ u, run (step fine) t (List.replicate 6 (.submit .host)) = some u ∧
      u.queue.listAllocIdx = n + 1 ∧ u.submit .host = .idle ∧ u.sync = .idle ∧
      u.record.claims = s.record.claims ∧
      u.record.committed = Function.update s.record.committed n true := by
    simp [run_cons, step, setSubmit, Submit.step, hp, List.replicate, Record.submit, ha, hsync,
      hclaims, hcommit, TaskQueue.storeHeader, TaskQueue.storeSequence]
  obtain ⟨u, hu, ha, hp, hsync, hclaims, hc⟩ := h
  refine ⟨u, ⟨ht.run_always hu, ha, hp, hsync, fun k => hclaims ▸ hs.claims k⟩, ?_, fun k hk => ?_⟩
  · rw [hc, Function.update_self]
  · rw [hc, Function.update_apply]
    split
    · rfl
    · exact hk

theorem exists_submitted (fine : Bool) (n : Nat) :
    ∃ s : System S B, Submitted fine n s ∧ ∀ k, k < n → s.record.committed k = true := by
  induction n with
  | zero =>
    exact ⟨init, ⟨.initial init_init, rfl, rfl, rfl, fun _ => rfl⟩,
      fun k hk => absurd hk (Nat.not_lt_zero k)⟩
  | succ n ih =>
    obtain ⟨s, hs, hall⟩ := ih
    obtain ⟨t, ht, hn, hkeep⟩ := hs.succ
    refine ⟨t, ht, fun k hk => ?_⟩
    rcases Nat.lt_succ_iff_lt_or_eq.mp hk with h | rfl
    · exact hkeep k (hall k h)
    · exact hn

/-- After as many lists as the ring has cells, of which no block has claimed one,
the host goes on: it stores the header of the next to the cell of the first. -/
theorem exists_overwritten : ∃ s : System Unit Unit, Reachable (step true) Always Init s ∧
    s.stores (.submit .host) = some maxSgLists ∧ s.record.committed 0 = true ∧
    s.record.claims 0 = [] ∧ ¬ s.RingIntegrity := by
  obtain ⟨s, hs, hall⟩ := exists_submitted (S := Unit) (B := Unit) true maxSgLists
  obtain ⟨t, base, ht, ha, -, hclaims, hcommit, hp⟩ := hs.allocated
  have hstores : t.stores (.submit .host) = some maxSgLists := by
    show (t.submit .host).stores = _
    rw [hp]
    rfl
  have hnone : t.record.claims 0 = [] := by rw [hclaims]; exact hs.claims 0
  refine ⟨t, ht, hstores, by rw [hcommit]; exact hall 0 (by decide), hnone, fun h => ?_⟩
  obtain ⟨b, hb, -⟩ := h.notOverwritten _ _ 0 hstores (by rw [ha]; decide) (by decide) (by decide)
  cases hnone.symm.trans hb

end System
end Gfd.Sg
