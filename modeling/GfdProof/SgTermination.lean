import Mathlib
import GfdProof.SgLists

/-! # The end of a round

`synchronize` loads `list_alloc_idx` once, waits until as many lists have been
counted as it says, and sets `terminate`; a block that then finds its index not
committed leaves.  When all blocks have left, every committed list has been
turned into descriptors and passed to `compute_fn` once — in the runs in which no
list index is taken after `synchronize` has loaded `list_alloc_idx`
(`TermOrderly`).

A compute functor may well take one: it runs, and may submit, while the host
waits for the lists before it.  If the index it takes has been claimed by a block
that leaves, nobody looks at that list again (`exists_abandoned`).
-/
namespace Gfd.Sg

open Transition

/-- Both warps have left. -/
def Block.gone (b : Block) : Bool :=
  match b.transfer, b.compute with
  | .exited, .exited => true
  | _, _ => false

namespace System

variable {S B : Type}

/-- `synchronize` has loaded `list_alloc_idx`. -/
def snapshotTaken (s : System S B) : Bool :=
  match s.sync with
  | .idle | .load => false
  | _ => true

/-- No list index is taken after `synchronize` has loaded `list_alloc_idx`; and
the list ring is used as it should be. -/
def TermOrderly (s : System S B) (a : Act S B) : Prop :=
  s.ListsOrderly a ∧
    match a with
    | .submit p => ((s.submit p).takes s.queue).isSome = true → s.snapshotTaken = false
    | _ => True

/-- Every committed list has been turned into descriptors by one block, once, and
each block has called `compute_fn` for its lists, once each and with the header
they were submitted with. -/
structure NothingLost (s : System S B) : Prop where
  converted : ∀ k, s.record.committed k = true →
    ∃ b, k ∈ (s.block b).converted ∧ ∀ c, k ∈ (s.block c).converted → c = b
  once : ∀ b, (s.block b).converted.Nodup
  calls : ∀ b, (s.block b).calls = (s.block b).converted.map s.record.header

/-- How far `synchronize` is with the lists counted so far. -/
def Awaited (s : System S B) : Prop :=
  match s.sync with
  | .idle | .load => True
  | .poll expected => expected = s.queue.listAllocIdx
  | .raise | .device => ∀ k, k < s.queue.listAllocIdx → s.record.counted k = true

/-- It is leaving, or has left. -/
def Leaving (b : Block) : Prop :=
  match b.transfer with
  | .terminate | .exited => True
  | _ => False

/-- The lists counted. -/
def countedLists (s : System S B) : Finset Nat :=
  (Finset.range s.queue.listAllocIdx).filter fun k => s.record.counted k = true

/-- The invariant. -/
structure TermValid (s : System S B) : Prop where
  ring : s.ring.Valid listLayout
  block : ∀ b, (s.block b).Valid
  counted : ∀ k, s.record.counted k = true → s.ring.WasRead k
  completed : s.queue.listsCompleted = s.countedLists.card
  awaited : s.Awaited
  raised : s.queue.terminate = true → s.sync = .device
  leaving : ∀ b, Leaving (s.block b) → s.queue.terminate = true

variable {s s' : System S B}

theorem Init.termValid (h : s.Init) : s.TermValid where
  ring := h.ring.valid
  block b := by rw [h.block b]; exact Block.valid_init
  counted k hk := by cases (h.counted k).symm.trans hk
  completed := by
    rw [h.queue.listsCompleted, countedLists, h.queue.listAllocIdx]
    rfl
  awaited := by simp only [Awaited, h.sync]
  raised ht := by cases h.queue.terminate.symm.trans ht
  leaving b hb := by rw [h.block b] at hb; exact hb.elim

variable [DecidableEq S] [DecidableEq B] {fine : Bool}

/-- What a step does to the account of the lists. -/
inductive Effect (s s' : System S B) (a : Act S B) : Prop
  | none (ha : s'.queue.listAllocIdx = s.queue.listAllocIdx)
      (hc : s'.queue.listsCompleted = s.queue.listsCompleted)
      (hd : s'.record.counted = s.record.counted) (hs : s'.sync = s.sync)
      (ht : s'.queue.terminate = s.queue.terminate)
  | take (n : Nat) (p : Party S B) (h : a = .submit p) (hn : (s.submit p).takes s.queue = some n)
      (ha : s'.queue.listAllocIdx = n + 1)
      (hc : s'.queue.listsCompleted = s.queue.listsCompleted)
      (hd : s'.record.counted = s.record.counted) (hs : s'.sync = s.sync)
      (ht : s'.queue.terminate = s.queue.terminate)
  | count (idx : Nat) (hr : s.hasRead idx = true) (hn : s.record.counted idx = false)
      (ha : s'.queue.listAllocIdx = s.queue.listAllocIdx)
      (hc : s'.queue.listsCompleted = s.queue.listsCompleted + 1)
      (hd : s'.record.counted = Function.update s.record.counted idx true) (hs : s'.sync = s.sync)
      (ht : s'.queue.terminate = s.queue.terminate)
  | sync (ha : s'.queue.listAllocIdx = s.queue.listAllocIdx)
      (hc : s'.queue.listsCompleted = s.queue.listsCompleted)
      (hd : s'.record.counted = s.record.counted)
      (hs : s.sync = .idle ∧ s'.sync = .load ∨
        s.sync = .load ∧ s'.sync = .poll s.queue.listAllocIdx ∨
        ∃ e, s.sync = .poll e ∧ e ≤ s.queue.listsCompleted ∧ s'.sync = .raise)
      (ht : s'.queue.terminate = s.queue.terminate)
  | raise (ha : s'.queue.listAllocIdx = s.queue.listAllocIdx)
      (hc : s'.queue.listsCompleted = s.queue.listsCompleted)
      (hd : s'.record.counted = s.record.counted) (hs : s.sync = .raise) (hs' : s'.sync = .device)
      (ht : s'.queue.terminate = true)

theorem alloc_submit {host : Bool} {q q' : TaskQueue} {x y : Submit}
    (hs : x.step host q = some (y, q')) :
    q'.listsCompleted = q.listsCompleted ∧ q'.terminate = q.terminate ∧
      (q'.listAllocIdx = q.listAllocIdx ∨ ∃ n, x.takes q = some n ∧ q'.listAllocIdx = n + 1) := by
  unfold Submit.step at hs
  split at hs
  case h_3 | h_5 => split at hs <;> (cases hs; exact ⟨rfl, rfl, .inl rfl⟩)
  case h_9 => split at hs <;> cases hs; exact ⟨rfl, rfl, .inl rfl⟩
  case h_10 | h_12 => cases hs; exact ⟨rfl, rfl, .inr ⟨_, rfl, rfl⟩⟩
  all_goals cases hs <;> exact ⟨rfl, rfl, .inl rfl⟩

omit [DecidableEq B] in
theorem Record.submit_counted (q : TaskQueue) (d : Record B) (x : Submit) :
    (d.submit q x).counted = d.counted := by
  unfold Record.submit
  split <;> rfl

omit [DecidableEq B] in
theorem Record.transfer_counted (q : TaskQueue) (b : B) (d : Record B) (t : Transfer) :
    (d.transfer q b t).counted = d.counted := by
  unfold Record.transfer
  split <;> rfl

omit [DecidableEq B] in
theorem Record.compute_counted (d : Record B) (b : Block) : (d.compute b).counted = d.counted := by
  unfold Record.compute
  split <;> rfl

theorem alloc_access (fine : Bool) (q : TaskQueue) (v : Nat) (t : Transfer) :
    (q.access fine v t).2.listAllocIdx = q.listAllocIdx ∧
      (q.access fine v t).2.listsCompleted = q.listsCompleted ∧
      (q.access fine v t).2.terminate = q.terminate := by
  unfold TaskQueue.access
  split
  case h_7 => split <;> exact ⟨rfl, rfl, rfl⟩
  all_goals exact ⟨rfl, rfl, rfl⟩

theorem effect {a : Act S B} (hs : s.step fine a = some s') : s.Effect s' a := by
  cases a with
  | submit p =>
    obtain ⟨⟨x, q⟩, hx, rfl⟩ := Option.map_eq_some_iff.mp hs
    obtain ⟨hc, ht, ha | ⟨n, hn, ha⟩⟩ := alloc_submit hx
    · exact .none ha hc (Record.submit_counted ..) rfl ht
    · exact .take n p rfl hn ha hc (Record.submit_counted ..) rfl ht
  | write p i f =>
    obtain ⟨⟨x, q⟩, hx, rfl⟩ := Option.map_eq_some_iff.mp hs
    unfold Submit.writeEntry at hx
    split at hx
    · split at hx <;> cases hx
      exact .none rfl rfl rfl rfl rfl
    · cases hx
  | transfer b v =>
    obtain ⟨x, -, rfl⟩ := Option.map_eq_some_iff.mp hs
    obtain ⟨ha, hc, ht⟩ := alloc_access fine s.queue v (s.block b).transfer
    exact .none ha hc (Record.transfer_counted ..) rfl ht
  | convert b i f | commit b i =>
    obtain ⟨x, -, rfl⟩ := Option.map_eq_some_iff.mp hs
    exact .none rfl rfl rfl rfl rfl
  | compute b =>
    simp only [step] at hs
    split at hs
    · cases hs
    obtain ⟨x, -, rfl⟩ := Option.map_eq_some_iff.mp hs
    exact .none rfl rfl (Record.compute_counted ..) rfl rfl
  | call p r =>
    simp only [step] at hs
    split at hs <;> cases hs
    exact .none rfl rfl rfl rfl rfl
  | synchronize =>
    simp only [step] at hs
    split at hs <;> cases hs
    rename_i h
    exact .sync rfl rfl rfl (.inl ⟨h.1, rfl⟩) rfl
  | sync =>
    simp only [step, syncStep] at hs
    split at hs <;> rename_i h
    case h_2 => cases hs; exact .sync rfl rfl rfl (.inr (.inl ⟨h, rfl⟩)) rfl
    case h_3 =>
      split at hs <;> cases hs
      exact .sync rfl rfl rfl (.inr (.inr ⟨_, h, ‹_›, rfl⟩)) rfl
    case h_4 => cases hs; exact .raise rfl rfl rfl h rfl rfl
    all_goals cases hs
  | count idx =>
    simp only [step] at hs
    split at hs <;> cases hs
    rename_i h
    exact .count idx h.1 h.2 rfl rfl rfl rfl rfl
  | signal id v =>
    cases hs
    exact .none rfl rfl rfl rfl rfl

/-- A transfer warp leaves when it has seen `terminate`. -/
theorem leaving_transferStep {b b' : Block} {v : Nat} (hs : b.transferStep fine v = some b')
    (h : Leaving b') : Leaving b ∨ ∃ idx, b.transfer = .pollTerminate idx ∧ v ≠ 0 := by
  unfold Block.transferStep at hs
  split at hs <;> rename_i ht
  case h_3 idx =>
    split at hs <;> cases hs
    · exact .inr ⟨idx, ht, ‹_›⟩
    · exact h.elim
  case h_4 => exact .inl (by simp only [Leaving, ht])
  case h_21 => cases hs
  case h_2 | h_12 | h_13 | h_14 | h_16 | h_17 | h_18 | h_20 =>
    split at hs <;> cases hs <;> exact h.elim
  all_goals cases hs; exact h.elim

theorem leaving_step {a : Act S B} (hs : s.step fine a = some s') (c : B)
    (h : Leaving (s'.block c)) : Leaving (s.block c) ∨ s.queue.terminate = true := by
  -- for a block that does not move there is nothing to show
  have hmove : ∀ b x, (c = b → Leaving x → Leaving (s.block b) ∨ s.queue.terminate = true) →
      Leaving ((s.setBlock b x).block c) → Leaving (s.block c) ∨ s.queue.terminate = true := by
    intro b x hx hc
    by_cases hcb : c = b
    · subst hcb
      simp only [setBlock, Function.update_self] at hc
      exact hx rfl hc
    · simp only [setBlock, Function.update_of_ne hcb] at hc
      exact .inl hc
  cases a with
  | transfer b v =>
    obtain ⟨x, hx, rfl⟩ := Option.map_eq_some_iff.mp hs
    refine hmove b x (fun _ hl => ?_) h
    refine (leaving_transferStep hx hl).imp_right fun ⟨idx, ht, hv⟩ => ?_
    simp only [ht] at hv
    by_contra hterm
    exact hv (if_neg hterm)
  | convert b i f | commit b i =>
    obtain ⟨x, hx, rfl⟩ := Option.map_eq_some_iff.mp hs
    refine hmove b x (fun _ hl => ?_) h
    simp only [Block.step] at hx
    split at hx
    · split at hx <;> cases hx
      exact hl.elim
    · cases hx
  | compute b =>
    simp only [step] at hs
    split at hs
    · cases hs
    obtain ⟨x, hx, rfl⟩ := Option.map_eq_some_iff.mp hs
    refine hmove b x (fun _ hl => .inl ?_) h
    unfold Leaving at hl ⊢
    rwa [(Block.computeStep_transfer hx).1] at hl
  | submit p | write p i f =>
    obtain ⟨⟨x, q⟩, -, rfl⟩ := Option.map_eq_some_iff.mp hs
    exact .inl h
  | call p r | synchronize | count idx =>
    simp only [step] at hs
    split at hs <;> cases hs
    exact .inl h
  | sync =>
    simp only [step, syncStep] at hs
    split at hs
    case h_3 => split at hs <;> cases hs; exact .inl h
    all_goals cases hs <;> exact .inl h
  | signal id v =>
    cases hs
    exact .inl h

omit [DecidableEq S] [DecidableEq B] in
theorem wasRead_of_hasRead {idx : Nat} (h : s.hasRead idx = true) : s.ring.WasRead idx := by
  obtain ⟨b, -, hb⟩ := List.any_eq_true.mp h
  obtain ⟨⟨k, x⟩, hx, hk⟩ := List.any_eq_true.mp hb
  obtain rfl : k = idx := by simpa using hk
  exact ⟨b, x, hx⟩

omit [DecidableEq S] [DecidableEq B] in
theorem TermValid.counted_lt (hv : s.TermValid) {k : Nat} (hk : s.record.counted k = true) :
    k < s.queue.listAllocIdx := by
  obtain ⟨b, x, hx⟩ := hv.counted k hk
  exact hv.ring.committed k (hv.ring.read b k x hx).2.1

omit [DecidableEq S] [DecidableEq B] in
/-- When as many lists have been counted as there are, all have. -/
theorem TermValid.all_counted (hv : s.TermValid)
    (h : s.queue.listAllocIdx ≤ s.queue.listsCompleted) (k : Nat)
    (hk : k < s.queue.listAllocIdx) : s.record.counted k = true := by
  have hcard : (Finset.range s.queue.listAllocIdx).card ≤ s.countedLists.card := by
    rw [Finset.card_range, ← hv.completed]
    exact h
  have hall := Finset.eq_of_subset_of_card_le (Finset.filter_subset _ _) hcard
  have hmem : k ∈ s.countedLists := by
    rw [countedLists, hall]
    exact Finset.mem_range.mpr hk
  exact (Finset.mem_filter.mp hmem).2

omit [DecidableEq S] [DecidableEq B] in
theorem Awaited.mono (h : s.Awaited) (hs : s'.sync = s.sync)
    (ha : s'.queue.listAllocIdx = s.queue.listAllocIdx)
    (hc : ∀ k, s.record.counted k = true → s'.record.counted k = true) : s'.Awaited := by
  unfold Awaited at h ⊢
  rw [hs, ha]
  split at h
  · trivial
  · trivial
  · exact h
  · exact fun k hk => hc k (h k hk)
  · exact fun k hk => hc k (h k hk)

theorem termValid_step (hv : s.TermValid) {a : Act S B} (ho : s.TermOrderly a)
    (hs : s.step fine a = some s') : s'.TermValid := by
  have hlt : s.record.counted s.queue.listAllocIdx = false := by
    cases h : s.record.counted s.queue.listAllocIdx with
    | false => rfl
    | true => exact absurd (hv.counted_lt h) (Nat.lt_irrefl _)
  have hring := ringValid_step hv.ring ho.1 hs
  have hblock := block_valid_step hv.block hs
  have hsame : s'.record.counted = s.record.counted →
      ∀ k, s'.record.counted k = true → s'.ring.WasRead k := fun h k hk =>
    wasRead_step hs (hv.counted k ((congrFun h k).symm.trans hk))
  have hlists : s'.queue.listAllocIdx = s.queue.listAllocIdx →
      s'.record.counted = s.record.counted → s'.countedLists = s.countedLists := fun ha hd => by
    simp only [countedLists, ha, hd]
  have hleaving : s'.queue.terminate = s.queue.terminate →
      ∀ b, Leaving (s'.block b) → s'.queue.terminate = true := fun ht b hb =>
    ht.trans ((leaving_step hs b hb).elim (hv.leaving b) id)
  have hraised : s'.sync = s.sync → s'.queue.terminate = s.queue.terminate →
      s'.queue.terminate = true → s'.sync = .device := fun hsync ht h =>
    hsync.trans (hv.raised (ht.symm.trans h))
  have haw := hv.awaited
  cases effect hs with
  | none ha hc hd hsync ht =>
    refine ⟨hring, hblock, hsame hd, ?_, ?_, hraised hsync ht, hleaving ht⟩
    · rw [hc, hlists ha hd]
      exact hv.completed
    · exact haw.mono hsync ha fun k hk => (congrFun hd k).trans hk
  | take n p h hn ha hc hd hsync ht =>
    subst h
    obtain ⟨hl, hsnap⟩ := ho
    simp only [ListsOrderly, hn] at hl
    obtain ⟨rfl, -⟩ := hl
    refine ⟨hring, hblock, hsame hd, ?_, ?_, hraised hsync ht, hleaving ht⟩
    · simp only [hc, hv.completed, countedLists, ha, hd, Finset.range_add_one, Finset.filter_insert,
        hlt, Bool.false_eq_true, if_false]
    · have hnot := hsnap (by rw [hn]; rfl)
      unfold snapshotTaken at hnot
      unfold Awaited
      rw [hsync]
      split at hnot
      · rename_i h
        rw [h]
        trivial
      · rename_i h
        rw [h]
        trivial
      · cases hnot
  | count idx hr hn ha hc hd hsync ht =>
    have hread := wasRead_of_hasRead hr
    have hidx : idx < s.queue.listAllocIdx := by
      obtain ⟨b, x, hx⟩ := hread
      exact hv.ring.committed idx (hv.ring.read b idx x hx).2.1
    refine ⟨hring, hblock, fun k hk => ?_, ?_, ?_, hraised hsync ht, hleaving ht⟩
    · by_cases hk' : k = idx
      · subst hk'
        exact wasRead_step hs hread
      · rw [hd, Function.update_of_ne hk'] at hk
        exact wasRead_step hs (hv.counted k hk)
    · have hins : s'.countedLists = insert idx s.countedLists := by
        ext k
        simp only [countedLists, ha, hd, Finset.mem_filter, Finset.mem_insert, Finset.mem_range]
        by_cases hk' : k = idx
        · subst hk'
          simp [hidx]
        · simp [hk']
      rw [hc, hins, Finset.card_insert_of_notMem ?_, hv.completed]
      intro hmem
      cases hn.symm.trans (Finset.mem_filter.mp hmem).2
    · refine haw.mono hsync ha fun k hk => ?_
      rw [hd, Function.update_apply]
      split
      · rfl
      · exact hk
  | sync ha hc hd hsync ht =>
    have hdown : s'.queue.terminate = true → s'.sync = .device := fun h => by
      have hdev := hv.raised (ht.symm.trans h)
      rcases hsync with ⟨h, -⟩ | ⟨h, -⟩ | ⟨e, h, -⟩ <;> cases hdev.symm.trans h
    refine ⟨hring, hblock, hsame hd, ?_, ?_, hdown, hleaving ht⟩
    · rw [hc, hlists ha hd]
      exact hv.completed
    · rcases hsync with ⟨-, h'⟩ | ⟨-, h'⟩ | ⟨e, h, he, h'⟩
      · simp only [Awaited, h']
      · simp only [Awaited, h', ha]
      · simp only [Awaited, h] at haw
        simp only [Awaited, h', ha, hd]
        exact hv.all_counted (haw ▸ he)
  | raise ha hc hd hsync hsync' ht =>
    refine ⟨hring, hblock, hsame hd, ?_, ?_, fun _ => hsync', fun _ _ => ht⟩
    · rw [hc, hlists ha hd]
      exact hv.completed
    · simp only [Awaited, hsync] at haw
      simpa only [Awaited, hsync', ha, hd] using haw

theorem termValid_of_reachable (h : Reachable (step fine) TermOrderly Init s) : s.TermValid :=
  h.invariant (fun _ h => h.termValid) fun _ _ _ hv ho hs => termValid_step hv ho hs

omit [DecidableEq S] [DecidableEq B] in
theorem TermValid.nothingLost [Nonempty B] (hv : s.TermValid)
    (hg : ∀ b, (s.block b).gone = true) : s.NothingLost := by
  have hexit : ∀ b, (s.block b).transfer = .exited := by
    intro b
    have h := hg b
    unfold Block.gone at h
    split at h
    · assumption
    · cases h
  have hprog : ∀ b, (s.block b).Settled ∧ (s.block b).Converted := by
    intro b
    have h := (hv.block b).progress
    simpa only [Block.Progress, hexit b] using h
  have hdev : s.sync = .device := by
    obtain ⟨b⟩ := ‹Nonempty B›
    exact hv.raised (hv.leaving b (by simp only [Leaving, hexit b]))
  have hall : ∀ k, k < s.queue.listAllocIdx → s.record.counted k = true := by
    have h := hv.awaited
    simpa only [Awaited, hdev] using h
  have hmem : ∀ b k, k ∈ (s.block b).converted → s.record.claims k = [b] := by
    intro b k hk
    rw [(hprog b).2] at hk
    obtain ⟨⟨_, x⟩, hx, rfl⟩ := List.mem_map.mp hk
    exact (hv.ring.read b _ x hx).1
  refine ⟨fun k hk => ?_, fun b => ?_, fun b => ?_⟩
  · obtain ⟨b, x, hx⟩ := hv.counted k (hall k (hv.ring.committed k hk))
    have hb : k ∈ (s.block b).converted := by
      rw [(hprog b).2]
      exact List.mem_map_of_mem (f := Prod.fst) hx
    refine ⟨b, hb, fun c hc => ?_⟩
    cases (hmem c k hc).symm.trans (hmem b k hb)
    rfl
  · rw [(hprog b).2]
    exact hv.ring.nodup b
  · rw [(hprog b).1, (hprog b).2, List.map_map]
    refine List.map_congr_left fun x hx => ?_
    exact (hv.ring.read b x.1 x.2 hx).2.2

/-- **Termination loses no list** in the runs that meet the condition. -/
theorem nothingLost_of_reachable [Nonempty B] (h : Reachable (step fine) TermOrderly Init s)
    (hg : ∀ b, (s.block b).gone = true) : s.NothingLost :=
  (termValid_of_reachable h).nothingLost hg

/-! ## A list nobody looks at -/

section Example

/-- The functor of block `b` begins to submit a list, up to where it has found
space. -/
private def functorWaits (b : Bool) : List (Act Unit Bool) :=
  [Act.call (.functor b) (numbered 8)] ++ List.replicate 4 (Act.submit (.functor b))

/-- And the rest of its submission. -/
private def functorSubmits (b : Bool) : List (Act Unit Bool) :=
  [Act.submit (.functor b)] ++ entryWrites (.functor b) ++
    List.replicate 8 (Act.submit (.functor b))

/-- The functor of the first block has found space for another list when the
second block claims the index it is going to take. -/
def abandoning : List (Act Unit Bool) :=
  hostSubmits (numbered 7) ++ reads false ++ serves false 7 ++ functorWaits false ++
    [Act.count 0, Act.transfer true 0, Act.transfer true 0] ++ synchronizes ++
    (List.replicate 2 (Act.transfer true 0) ++ List.replicate 3 (Act.compute true)) ++
    functorSubmits false ++ returns false ++ leaves false

/-- The same functor submits before the host calls `synchronize`. -/
def completing : List (Act Unit Bool) :=
  hostSubmits (numbered 7) ++ reads false ++ serves false 7 ++ functorWaits false ++
    functorSubmits false ++ reads true ++ serves true 8 ++ [Act.count 0, Act.count 1] ++
    returns false ++ returns true ++ synchronizes ++ leaves false ++ leaves true

/-- Which blocks have left, and the lists converted by each. -/
private def outcome (s : System Unit Bool) : Bool × Bool × List Nat × List Nat :=
  (s.record.committed 1, (s.block false).gone && (s.block true).gone, (s.block false).converted,
    (s.block true).converted)

/-- The second list is committed when its claimant has left. -/
theorem exists_abandoned : ∃ s : System Unit Bool, Reachable (step true) Always Init s ∧
    (∀ b, (s.block b).gone = true) ∧ s.record.committed 1 = true ∧
    (∀ b, 1 ∉ (s.block b).converted) ∧ ¬ s.NothingLost := by
  have h : (run (step true) init abandoning).map outcome = some (true, true, [0], []) := by
    decide +kernel
  obtain ⟨s, hs, hout⟩ := Option.map_eq_some_iff.mp h
  simp only [outcome, Prod.mk.injEq, Bool.and_eq_true] at hout
  obtain ⟨hc, ⟨hf, ht⟩, hcf, hct⟩ := hout
  have hnone : ∀ b, 1 ∉ (s.block b).converted := by
    intro b
    cases b with
    | false => rw [hcf]; decide
    | true => rw [hct]; decide
  refine ⟨s, (Reachable.initial init_init).run_always hs, ?_, hc, hnone, fun hn => ?_⟩
  · intro b
    cases b with
    | false => exact hf
    | true => exact ht
  · obtain ⟨b, hb, -⟩ := hn.converted 1 hc
    exact hnone b hb

instance (s : System S B) (a : Act S B) : Decidable (s.TermOrderly a) := by
  refine @instDecidableAnd _ _ _ ?_
  rcases a with _ | _ <;> dsimp only <;> infer_instance

/-- Two lists, the second submitted by the functor of the first, in a run that
meets the condition, and what the theorem says of its end. -/
theorem nothingLost_of_reachable_two : ∃ s : System Unit Bool,
    s.record.committed 1 = true ∧ s.NothingLost := by
  have h : (runWhile (step true) TermOrderly init completing).map outcome =
      some (true, true, [0], [1]) := by decide +kernel
  obtain ⟨s, hs, hout⟩ := Option.map_eq_some_iff.mp h
  simp only [outcome, Prod.mk.injEq, Bool.and_eq_true] at hout
  obtain ⟨hc, ⟨hf, ht⟩, -⟩ := hout
  refine ⟨s, hc, nothingLost_of_reachable ((Reachable.initial init_init).runWhile hs) fun b => ?_⟩
  cases b with
  | false => exact hf
  | true => exact ht

end Example

end System
end Gfd.Sg
