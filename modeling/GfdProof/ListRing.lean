import Mathlib
import GfdProof.DescriptorRing
import GfdProof.PollingProgress

/-! # Lists in the descriptor ring

A transfer warp of `_sg_transfer_warp_loop` reserves one range of slots for a list and writes a
descriptor for each of its entries; the last one carries `FLAG_LAST_IN_TILE`, which the polling
thread takes for the end of the list.  Any number of warps do this beside the polling thread, for
any lists.

The ranges follow each other without a gap (`Laid`), and a flag ends the batch it is found in
(`Cut`): in the main loop a flagged entry is merged into `or_flags` and the batch handed past at
once, and the drain loop, which merges nothing, leaves `or_flags` without the flag.  So a batch
with the flag holds descriptors of one list and ends with the last of these, whatever the thresholds
and the gaps were (`Laid.exists_list`), and the batches with the flag are as many as the lists that
have been handed past to their ends (`Laid.ended_flagged`, `Laid.ended_open`).
-/
namespace Gfd

open Transition

/-- What a transfer warp has read of a list. -/
structure ListHeader where
  listId : Nat
  count : Nat
  listId_lt : listId < 2 ^ 32
  count_lt : count < 2 ^ 32

/-- The fields it stores for the `i`-th descriptor; `entry` are the address and size fields of the
entries. -/
def ListHeader.descriptor (h : ListHeader) (entry : Nat → Field → Nat) (i : Nat) : Field → Nat
  | .userData => word (h.listId <<< 32) ||| i
  | .flags => if i = h.count - 1 then flagLastInTile else flagNone
  | f => entry i f

/-- A list for which slots have been reserved from `base` on. -/
structure SentList extends ListHeader where
  base : Nat

namespace SentList

/-- The slot after its last. -/
def past (l : SentList) : Nat := l.base + l.count

/-- The slot is one of the list. -/
def Has (l : SentList) (x : Nat) : Prop := l.base ≤ x ∧ x < l.past

end SentList

theorem ListHeader.group_descriptor (h : ListHeader) (entry : Nat → Field → Nat) {i : Nat}
    (hi : i < h.count) (x : Nat) : (Descriptor.ofFields x (h.descriptor entry i)).group = h.listId := by
  have hid := h.listId_lt
  have hlt : i < 2 ^ 32 := hi.trans h.count_lt
  have hword : word (h.listId <<< 32) = h.listId <<< 32 := word_of_lt (by
    rw [Nat.shiftLeft_eq]
    unfold wordSize
    omega)
  simp only [Descriptor.group, Descriptor.ofFields, descriptor]
  rw [hword, ← Nat.shiftLeft_add_eq_or_of_lt hlt, Nat.shiftLeft_eq]
  omega

theorem ListHeader.hasFlag_descriptor (h : ListHeader) (entry : Nat → Field → Nat) {i : Nat}
    (hi : i < h.count) :
    hasFlag (h.descriptor entry i .flags) flagLastInTile = true ↔ i + 1 = h.count := by
  simp only [descriptor]
  split
  · exact iff_of_true rfl (by omega)
  · exact iff_of_false (by rw [flagNone, hasFlag_zero]; exact Bool.false_ne_true) (by omega)

/-! ## The batches of a ring -/

namespace Ring

variable {P : Type} {B : Backend} {s t : Ring P B}

open Loop (Cut Whole Ends Open flushedCount)

/-- The descriptors of some batches are those of the first slots. -/
theorem Valid.flatten_eq (hv : s.Valid) {p : Flushed} (hp : p <+: s.loop.flushed) :
    flushedCount p ≤ s.loop.readIdx ∧
      (p.map Prod.fst).flatten = (List.range (flushedCount p)).map s.descriptor := by
  have hlen : ((p.map Prod.fst).flatten).length = flushedCount p := by
    rw [List.length_flatten, List.map_map]
    rfl
  obtain ⟨r, hr⟩ := hp
  obtain ⟨rest, hrest⟩ : ∃ rest, s.loop.popped = (p.map Prod.fst).flatten ++ rest := by
    unfold Loop.popped
    rw [← hr, List.map_append, List.flatten_append, List.append_assoc]
    exact ⟨_, rfl⟩
  rw [hv.popped_eq] at hrest
  have hcount : s.loop.readIdx = flushedCount p + rest.length := by
    have h := congrArg List.length hrest
    rwa [List.length_map, List.length_range, List.length_append, hlen] at h
  rw [hcount, List.range_add, List.map_append] at hrest
  exact ⟨hcount ▸ Nat.le_add_right _ _,
    (List.append_inj hrest (by rw [List.length_map, List.length_range, hlen])).1.symm⟩

/-- Those of a batch are those of the slots after the batches before it. -/
theorem Valid.batch_eq (hv : s.Valid) {p r : Flushed} {b : List Descriptor × Nat}
    (hfl : s.loop.flushed = p ++ b :: r) :
    flushedCount p + b.1.length ≤ s.loop.readIdx ∧
      b.1 = (List.range b.1.length).map fun i => s.descriptor (flushedCount p + i) := by
  have hp : p ++ [b] <+: s.loop.flushed := ⟨r, by rw [hfl, List.append_assoc, List.singleton_append]⟩
  obtain ⟨hread, hall⟩ := hv.flatten_eq hp
  obtain ⟨-, hbefore⟩ := hv.flatten_eq ((List.prefix_append p [b]).trans hp)
  have hcount : flushedCount (p ++ [b]) = flushedCount p + b.1.length := by simp [flushedCount]
  rw [hcount] at hread hall
  rw [List.map_append, List.flatten_append, hbefore, List.range_add, List.map_append,
    List.map_map] at hall
  have hbatch := List.append_cancel_left hall
  rw [List.map_singleton, List.flatten_singleton] at hbatch
  exact ⟨hread, hbatch⟩

/-- The descriptors popped and not handed over are those of the partial batch. -/
theorem Valid.descriptor_mem_batch (hv : s.Valid) (hpc : s.loop.pc.inCall ≠ some true) {x : Nat}
    (hlo : flushedCount s.loop.flushed ≤ x) (hhi : x < s.loop.readIdx) :
    s.descriptor x ∈ s.loop.batch := by
  have hpopped : s.loop.popped = (s.loop.flushed.map Prod.fst).flatten ++ s.loop.batch :=
    Loop.popped_of_not_flushing (fun d hd => hpc (by rw [hd]; rfl)) fun hd => hpc (by rw [hd]; rfl)
  have hlen : ((s.loop.flushed.map Prod.fst).flatten).length = flushedCount s.loop.flushed := by
    rw [List.length_flatten, List.map_map]
    rfl
  rw [hv.popped_eq] at hpopped
  have hget := congrArg (·[x]?) hpopped
  rw [List.getElem?_append_right (hlen.le.trans hlo), List.getElem?_map,
    List.getElem?_range hhi] at hget
  exact List.mem_of_getElem? hget.symm

variable [DecidableEq P]

/-- A producer touches nothing of the loop but its ring. -/
theorem loop_store {a : Act P B} (ha : ∀ l, a ≠ .loop l) (h : s.step a = some t) :
    t.loop = { s.loop with entries := t.loop.entries } := by
  cases a with
  | loop l => exact absurd rfl (ha l)
  | reserve p count vals =>
    simp only [step] at h
    split at h <;> cases h
    rfl
  | _ =>
    simp only [step] at h
    split at h
    · split at h <;> cases h
      rfl
    · cases h

theorem hands_step (hB : B.inTiles = true) (hv : s.Valid) (hs : s.loop.Marked) {a : Act P B}
    (h : s.step a = some t) : t.loop.Marked ∧ s.loop.Hands t.loop := by
  by_cases ha : ∃ l, a = .loop l
  · obtain ⟨l, rfl⟩ := ha
    obtain ⟨u, hu, rfl⟩ := Option.map_eq_some_iff.mp h
    exact Loop.marked_step hB (fun _ => hv.flags_merged) hs hu
  · have hloop := loop_store (fun l hl => ha ⟨l, hl⟩) h
    rw [hloop]
    exact ⟨hs, .inl rfl⟩

/-- A batch with the flag ends with the only descriptor that carries it. -/
theorem cut_of_reachable (hB : B.inTiles = true) {b : B.State} (h : ReachableFrom step (init b) s)
    (hb : s.InWords) : ∀ b ∈ s.loop.flushed, Cut b := by
  refine (h.invariant_while (I := fun s => s.Valid ∧ s.loop.Marked ∧ ∀ b ∈ s.loop.flushed, Cut b)
    ?_ (fun _ _ _ hs ht => InWords.back hs ht) (fun s a t hi _ hs ht => ?_) hb).2.2
  · rintro _ rfl
    exact ⟨valid_init b, Loop.marked_init b, List.forall_mem_nil _⟩
  · obtain ⟨hv, hm, hcut⟩ := hi
    obtain ⟨hm', hhands⟩ := hands_step hB hv hm hs
    refine ⟨valid_step hv (InWords.back hs ht) hs, hm', ?_⟩
    rcases hhands with he | ⟨b, he, hnew, -⟩
    · rwa [he]
    · rw [he]
      exact List.forall_mem_append.mpr ⟨hcut, List.forall_mem_singleton.mpr hnew⟩

def Act.stops : Act P B → Bool
  | .loop .stop => true
  | _ => false

/-- The polling thread is not stopped. -/
def Running (_ : Ring P B) (a : Act P B) : Prop := a.stops = false

instance (s : Ring P B) (a : Act P B) : Decidable (s.Running a) :=
  inferInstanceAs (Decidable (a.stops = false))

/-- In a run without `stop` a batch without the flag has no descriptor with it, nor has the partial
batch. -/
theorem whole_of_reachable (hB : B.inTiles = true) {b : B.State}
    (h : Reachable step Running (· = init b) s) (hb : s.InWords) :
    (∀ b ∈ s.loop.flushed, Whole b) ∧ (s.loop.pc.inCall ≠ some true → Open s.loop.batch) := by
  have hinv := h.invariant_while
    (I := fun s => s.Valid ∧ s.loop.Marked ∧ s.loop.Main ∧ ∀ b ∈ s.loop.flushed, Whole b)
    ?_ (fun _ _ _ hs ht => InWords.back hs ht) (fun s a t hi hc hs ht => ?_) hb
  · exact ⟨hinv.2.2.2, hinv.2.1.open_batch hinv.2.2.1⟩
  · rintro _ rfl
    exact ⟨valid_init b, Loop.marked_init b, Loop.main_init b, List.forall_mem_nil _⟩
  · obtain ⟨hv, hm, hmain, hwhole⟩ := hi
    obtain ⟨hm', hhands⟩ := hands_step hB hv hm hs
    have hmain' : t.loop.Main := by
      by_cases ha : ∃ l, a = .loop l
      · obtain ⟨l, rfl⟩ := ha
        obtain ⟨u, hu, rfl⟩ := Option.map_eq_some_iff.mp hs
        exact Loop.main_step hmain hu fun hl => by subst hl; cases hc
      · rw [loop_store (fun l hl => ha ⟨l, hl⟩) hs]
        exact hmain
    refine ⟨valid_step hv (InWords.back hs ht) hs, hm', hmain', ?_⟩
    rcases hhands with he | ⟨b, he, -, hnew⟩
    · rwa [he]
    · rw [he]
      exact List.forall_mem_append.mpr ⟨hwhole, List.forall_mem_singleton.mpr (hnew hmain.2)⟩

end Ring

/-- The ring, with the lists for which slots have been reserved, in order. -/
structure ListRing (W : Type) (B : Backend) where
  ring : Ring W B
  lists : List SentList

namespace ListRing

variable {W : Type} {B : Backend}

def init (b : B.State) : ListRing W B := ⟨Ring.init b, []⟩

inductive Act (W : Type) (B : Backend)
  /-- `atomicAdd(&dq->write_idx, count)` for a list whose header has been read. -/
  | send (w : W) (h : ListHeader) (entry : Nat → Field → Nat)
  /-- Any other access. -/
  | ring (a : Ring.Act W B)

variable [DecidableEq W]

def step (s : ListRing W B) : Act W B → Option (ListRing W B)
  | .send w h entry => (s.ring.step (.reserve w h.count (h.descriptor entry))).map fun r =>
      ⟨r, s.lists ++ [⟨h, s.ring.writeIdx⟩]⟩
  | .ring (.reserve ..) => none
  | .ring a => (s.ring.step a).map fun r => { s with ring := r }

variable {s t : ListRing W B}

/-- What a step does to the ring. -/
def Act.ringAct : Act W B → Ring.Act W B
  | .send w h entry => .reserve w h.count (h.descriptor entry)
  | .ring a => a

theorem ring_step {a : Act W B} (h : s.step a = some t) : s.ring.step a.ringAct = some t.ring := by
  cases a with
  | send w h' entry =>
    obtain ⟨r, hr, rfl⟩ := Option.map_eq_some_iff.mp h
    exact hr
  | ring a =>
    cases a with
    | reserve => cases h
    | _ =>
      obtain ⟨r, hr, rfl⟩ := Option.map_eq_some_iff.mp h
      exact hr

/-! ## The ranges of the lists -/

/-- The ranges of the lists follow each other, and hold what was to be written for the lists. -/
structure Laid (s : ListRing W B) : Prop where
  covered : ∀ x < s.ring.writeIdx, ∃ l ∈ s.lists, l.Has x
  past_le : ∀ l ∈ s.lists, l.past ≤ s.ring.writeIdx
  apart : s.lists.Pairwise fun l l' => l.past ≤ l'.base
  planned : ∀ l ∈ s.lists, ∃ entry, ∀ i < l.count, s.ring.plan (l.base + i) = l.descriptor entry i
  total : s.ring.writeIdx = (s.lists.map fun l => l.count).sum

omit [DecidableEq W] in
theorem laid_init (b : B.State) : (init b : ListRing W B).Laid where
  covered _ h := absurd h (Nat.not_lt_zero _)
  past_le _ h := absurd h List.not_mem_nil
  apart := List.Pairwise.nil
  planned _ h := absurd h List.not_mem_nil
  total := rfl

omit [DecidableEq W] in
theorem Laid.congr (hs : s.Laid) (hl : t.lists = s.lists) (hw : t.ring.writeIdx = s.ring.writeIdx)
    (hp : t.ring.plan = s.ring.plan) : t.Laid :=
  ⟨by rw [hw, hl]; exact hs.covered, by rw [hw, hl]; exact hs.past_le, by rw [hl]; exact hs.apart,
    by rw [hp, hl]; exact hs.planned, by rw [hw, hl]; exact hs.total⟩

omit [DecidableEq W] in
theorem Laid.send (hs : s.Laid) (h : ListHeader) (entry : Nat → Field → Nat) (producer : W → Producer) :
    Laid ⟨{ s.ring with
      writeIdx := s.ring.writeIdx + h.count
      producer := producer
      plan := fun x => if s.ring.writeIdx ≤ x ∧ x < s.ring.writeIdx + h.count
        then h.descriptor entry (x - s.ring.writeIdx) else s.ring.plan x },
      s.lists ++ [⟨h, s.ring.writeIdx⟩]⟩ where
  covered x hx := by
    by_cases hlt : x < s.ring.writeIdx
    · obtain ⟨l, hl, hhas⟩ := hs.covered x hlt
      exact ⟨l, List.mem_append_left _ hl, hhas⟩
    · exact ⟨_, List.mem_append_right _ (List.mem_singleton_self _), Nat.le_of_not_lt hlt, hx⟩
  past_le l hl := by
    rcases List.mem_append.mp hl with hl | hl
    · exact (hs.past_le l hl).trans (Nat.le_add_right _ _)
    · rw [List.mem_singleton.mp hl]
      exact Nat.le_refl _
  apart := by
    refine List.pairwise_append.mpr ⟨hs.apart, List.pairwise_singleton _ _, fun l hl l' hl' => ?_⟩
    rw [List.mem_singleton.mp hl']
    exact hs.past_le l hl
  planned l hl := by
    rcases List.mem_append.mp hl with hl | hl
    · obtain ⟨entry', hplan⟩ := hs.planned l hl
      have hpast := hs.past_le l hl
      refine ⟨entry', fun i hi => ?_⟩
      dsimp only
      rw [if_neg, hplan i hi]
      unfold SentList.past at hpast
      omega
    · refine ⟨entry, fun i hi => ?_⟩
      obtain rfl := List.mem_singleton.mp hl
      dsimp only at hi ⊢
      rw [if_pos ⟨Nat.le_add_right _ _, Nat.add_lt_add_left hi _⟩, Nat.add_sub_cancel_left]
  total := by
    rw [List.map_append, List.sum_append, ← hs.total]
    rfl

theorem laid_step (hs : s.Laid) {a : Act W B} (h : s.step a = some t) : t.Laid := by
  cases a with
  | send w hd entry =>
    obtain ⟨r, hr, rfl⟩ := Option.map_eq_some_iff.mp h
    simp only [Ring.step] at hr
    split at hr <;> cases hr
    exact hs.send hd entry _
  | ring a =>
    cases a with
    | reserve => cases h
    | loop a =>
      obtain ⟨r, hr, rfl⟩ := Option.map_eq_some_iff.mp h
      obtain ⟨l, -, rfl⟩ := Option.map_eq_some_iff.mp hr
      exact hs.congr rfl rfl rfl
    | _ =>
      obtain ⟨r, hr, rfl⟩ := Option.map_eq_some_iff.mp h
      simp only [Ring.step] at hr
      split at hr
      · split at hr <;> cases hr
        exact hs.congr rfl rfl rfl
      · cases hr

omit [DecidableEq W] in
/-- Every descriptor of a list has its id. -/
theorem Laid.group (hs : s.Laid) {l : SentList} (hl : l ∈ s.lists) {x : Nat} (hx : l.Has x) :
    (s.ring.descriptor x).group = l.listId := by
  obtain ⟨entry, hplan⟩ := hs.planned l hl
  obtain ⟨hlo, hhi⟩ := hx
  unfold SentList.past at hhi
  have hi : x - l.base < l.count := by omega
  have hfields := hplan (x - l.base) hi
  rw [Nat.add_sub_cancel' hlo] at hfields
  unfold Ring.descriptor
  rw [hfields]
  exact l.group_descriptor entry hi x

omit [DecidableEq W] in
/-- The flag is that of the last descriptor. -/
theorem Laid.flag (hs : s.Laid) {l : SentList} (hl : l ∈ s.lists) {x : Nat} (hx : l.Has x) :
    hasFlag (s.ring.descriptor x).flags flagLastInTile = true ↔ x + 1 = l.past := by
  obtain ⟨entry, hplan⟩ := hs.planned l hl
  obtain ⟨hlo, hhi⟩ := hx
  unfold SentList.past at hhi ⊢
  have hi : x - l.base < l.count := by omega
  have hfields := hplan (x - l.base) hi
  rw [Nat.add_sub_cancel' hlo] at hfields
  have hflag := l.hasFlag_descriptor entry hi
  unfold Ring.descriptor Descriptor.ofFields
  rw [hfields]
  refine hflag.trans ?_
  omega

omit [DecidableEq W] in
/-- A slot is of one list. -/
theorem Laid.unique (hs : s.Laid) {l l' : SentList} (hl : l ∈ s.lists) (hl' : l' ∈ s.lists) {x : Nat}
    (hx : l.Has x) (hx' : l'.Has x) : l = l' := by
  by_contra hne
  have : Std.Symm fun l l' : SentList => l.past ≤ l'.base ∨ l'.past ≤ l.base := ⟨fun _ _ h => h.symm⟩
  have hpair : s.lists.Pairwise fun l l' => l.past ≤ l'.base ∨ l'.past ≤ l.base :=
    hs.apart.imp fun h => .inl h
  have happart := hpair.forall hl hl' hne
  obtain ⟨hlo, hhi⟩ := hx
  obtain ⟨hlo', hhi'⟩ := hx'
  omega

/-! ## The lists of the batches -/

open Loop (Cut Whole Open flushedCount)

section Batches

variable {p r : Flushed} {b : List Descriptor × Nat}

omit [DecidableEq W] in
/-- The descriptor of a batch for one of its slots. -/
theorem descriptor_mem (hv : s.ring.Valid) (hfl : s.ring.loop.flushed = p ++ b :: r) {x : Nat}
    (hlo : flushedCount p ≤ x) (hhi : x < flushedCount p + b.1.length) : s.ring.descriptor x ∈ b.1 := by
  rw [(hv.batch_eq hfl).2]
  exact List.mem_map.mpr ⟨x - flushedCount p, List.mem_range.mpr (by omega),
    congrArg s.ring.descriptor (Nat.add_sub_cancel' hlo)⟩

omit [DecidableEq W] in
/-- **A batch with the flag holds descriptors of one list, and ends with the last of these.** -/
theorem Laid.exists_list (hs : s.Laid) (hv : s.ring.Valid) (hcut : Cut b)
    (hfl : s.ring.loop.flushed = p ++ b :: r) (hflag : hasFlag b.2 flagLastInTile = true) :
    ∃ l ∈ s.lists, 0 < l.count ∧ l.past = flushedCount p + b.1.length ∧
      ∀ x, flushedCount p ≤ x → x < l.past → l.Has x := by
  obtain ⟨ds, d, hb, hopen, hd⟩ := hcut hflag
  obtain ⟨hread, heq⟩ := hv.batch_eq hfl
  have hlen : b.1.length = ds.length + 1 := by rw [hb, List.length_append, List.length_singleton]
  rw [hlen, List.range_succ, List.map_append, hb] at heq
  obtain ⟨hds, hlast⟩ := List.append_inj heq (by rw [List.length_map, List.length_range])
  obtain rfl : d = s.ring.descriptor (flushedCount p + ds.length) := by simpa using hlast
  have hlt : ∀ x ≤ flushedCount p + ds.length, x < s.ring.writeIdx := fun x hx =>
    Nat.lt_of_lt_of_le (by omega) (hread.trans hv.read_le)
  obtain ⟨l, hl, hhas⟩ := hs.covered _ (hlt _ (Nat.le_refl _))
  have hpast := (hs.flag hl hhas).mp hd
  have hhas' := hhas
  obtain ⟨hbase, -⟩ := hhas'
  refine ⟨l, hl, ?_, by omega, fun x hx hx' => ⟨?_, hx'⟩⟩
  · unfold SentList.past at hpast
    omega
  -- a list before this one would have its flag further up in the batch
  by_contra hlt'
  obtain ⟨l', hl', hhas'⟩ := hs.covered x (hlt x (by omega))
  have hsep : l'.past ≤ l.base := by
    by_contra hnot
    refine absurd (hs.unique hl hl' (x := l.base) ⟨Nat.le_refl _, by omega⟩ ⟨?_, by omega⟩) ?_
    · exact hhas'.1.trans (by omega)
    · rintro rfl
      exact hlt' hhas'.1
  have hz : l'.Has (l'.past - 1) := ⟨by have := hhas'.1; have := hhas'.2; omega, by
    have := hhas'.2; omega⟩
  have hflag' := (hs.flag hl' hz).mpr (by have := hhas'.2; omega)
  have hmem : s.ring.descriptor (l'.past - 1) ∈ ds := by
    rw [hds]
    refine List.mem_map.mpr ⟨l'.past - 1 - flushedCount p, List.mem_range.mpr ?_, ?_⟩
    · have := hhas'.2
      omega
    · refine congrArg s.ring.descriptor (Nat.add_sub_cancel' ?_)
      have := hhas'.2
      omega
  exact Bool.eq_false_iff.mp (hopen _ hmem) hflag'

/-- The lists of a kind whose descriptors are all among the first `n`. -/
def ended (s : ListRing W B) (q : SentList → Bool) (n : Nat) : Nat :=
  s.lists.countP fun l => q l && decide (0 < l.count ∧ l.past ≤ n)

omit [DecidableEq W] in
theorem ended_mono {q : SentList → Bool} {m n : Nat} (h : m ≤ n) : s.ended q m ≤ s.ended q n := by
  refine List.countP_mono_left fun l _ hl => ?_
  obtain ⟨hq, hl⟩ := Bool.and_eq_true_iff.mp hl
  obtain ⟨hpos, hle⟩ := of_decide_eq_true hl
  exact Bool.and_eq_true_iff.mpr ⟨hq, decide_eq_true ⟨hpos, hle.trans h⟩⟩

omit [DecidableEq W] in
/-- What comes to an end between two slots. -/
theorem ended_add {q : SentList → Bool} {m n : Nat} (h : m ≤ n) : s.ended q n =
    s.ended q m + s.lists.countP fun l => q l && decide (0 < l.count ∧ m < l.past ∧ l.past ≤ n) := by
  unfold ended
  induction s.lists with
  | nil => rfl
  | cons l ls ih =>
    rw [List.countP_cons, List.countP_cons, List.countP_cons, ih]
    have hone : ∀ x : Bool, (if x && decide (0 < l.count ∧ l.past ≤ n) then 1 else 0) =
        (if x && decide (0 < l.count ∧ l.past ≤ m) then 1 else 0) +
          if x && decide (0 < l.count ∧ m < l.past ∧ l.past ≤ n) then 1 else 0 := by
      intro x
      cases x
      · rfl
      · simp only [Bool.true_and, decide_eq_true_eq]
        split_ifs <;> omega
    rw [hone]
    omega

omit [DecidableEq W] in
/-- With such a batch its list ends, and no other. -/
theorem Laid.ended_flagged (hs : s.Laid) {l : SentList} (hl : l ∈ s.lists) (hpos : 0 < l.count)
    {m : Nat} (hhas : ∀ x, m ≤ x → x < l.past → l.Has x) (hm : m < l.past) (q : SentList → Bool) :
    s.ended q l.past = s.ended q m + if q l then 1 else 0 := by
  rw [ended_add (Nat.le_of_lt hm)]
  refine congrArg (s.ended q m + ·) ?_
  -- whichever list ends there is the list
  have honly : ∀ l' ∈ s.lists, 0 < l'.count → m < l'.past → l'.past ≤ l.past → l' = l := by
    intro l' hl' hpos' hlo hhi
    have hx : l'.Has (l'.past - 1) := by
      unfold SentList.Has SentList.past at *
      omega
    exact hs.unique hl' hl hx (hhas _ (by omega) (by omega))
  have hcongr : (s.lists.countP fun l' => q l' && decide (0 < l'.count ∧ m < l'.past ∧ l'.past ≤ l.past)) =
      s.lists.countP fun l' => q l && decide (0 < l'.count ∧ m < l'.past ∧ l'.past ≤ l.past) := by
    refine List.countP_congr fun l' hl' => ?_
    by_cases h : 0 < l'.count ∧ m < l'.past ∧ l'.past ≤ l.past
    · rw [honly l' hl' h.1 h.2.1 h.2.2]
    · simp [h]
  rw [hcongr]
  cases q l with
  | false => simp
  | true =>
    simp only [Bool.true_and, if_true]
    rw [List.countP_eq_length_filter]
    have hmem : ∀ l' ∈ s.lists.filter fun l' => decide (0 < l'.count ∧ m < l'.past ∧ l'.past ≤ l.past),
        l' = l := by
      intro l' hl'
      obtain ⟨hl', hd⟩ := List.mem_filter.mp hl'
      obtain ⟨h1, h2, h3⟩ := of_decide_eq_true hd
      exact honly l' hl' h1 h2 h3
    have hself : l ∈ s.lists.filter fun l' => decide (0 < l'.count ∧ m < l'.past ∧ l'.past ≤ l.past) :=
      List.mem_filter.mpr ⟨hl, decide_eq_true ⟨hpos, hm, Nat.le_refl _⟩⟩
    have hapart := hs.apart.filter fun l' => decide (0 < l'.count ∧ m < l'.past ∧ l'.past ≤ l.past)
    generalize (s.lists.filter fun l' => decide (0 < l'.count ∧ m < l'.past ∧ l'.past ≤ l.past)) = ls
      at hmem hself hapart
    rcases ls with _ | ⟨a, _ | ⟨c, ls⟩⟩
    · cases hself
    · rfl
    · -- the list would come twice
      have hle := (List.pairwise_cons.mp hapart).1 c (List.mem_cons_self ..)
      rw [hmem a (List.mem_cons_self ..), hmem c (List.mem_cons_of_mem _ (List.mem_cons_self ..))] at hle
      unfold SentList.past at hle
      omega

omit [DecidableEq W] in
/-- Where no slot has the flag, no list ends. -/
theorem Laid.ended_unflagged (hs : s.Laid) {m n : Nat} (hmn : m ≤ n)
    (hnone : ∀ x, m ≤ x → x < n → hasFlag (s.ring.descriptor x).flags flagLastInTile = false)
    (q : SentList → Bool) : s.ended q n = s.ended q m := by
  rw [ended_add hmn, Nat.add_eq_left, List.countP_eq_zero]
  intro l hl hend
  obtain ⟨-, hend⟩ := Bool.and_eq_true_iff.mp hend
  obtain ⟨hpos, hlo, hhi⟩ := of_decide_eq_true hend
  have hx : l.Has (l.past - 1) := by
    unfold SentList.Has SentList.past at *
    omega
  have hflag := (hs.flag hl hx).mpr (by omega)
  exact Bool.eq_false_iff.mp (hnone (l.past - 1) (by omega) (by omega)) hflag

omit [DecidableEq W] in
theorem Laid.ended_open (hs : s.Laid) (hv : s.ring.Valid) (hfl : s.ring.loop.flushed = p ++ b :: r)
    (hopen : Open b.1) (q : SentList → Bool) :
    s.ended q (flushedCount p + b.1.length) = s.ended q (flushedCount p) :=
  hs.ended_unflagged (Nat.le_add_right _ _) (fun _ hlo hhi => hopen _ (descriptor_mem hv hfl hlo hhi)) q

end Batches

/-! ## Every run -/

/-- The polling thread is not stopped. -/
def Running (s : ListRing W B) (a : Act W B) : Prop := s.ring.Running a.ringAct

instance (s : ListRing W B) (a : Act W B) : Decidable (s.Running a) :=
  inferInstanceAs (Decidable (s.ring.Running a.ringAct))

variable {b : B.State}

theorem laid_of_reachable {C : ListRing W B → Act W B → Prop} (h : Reachable step C (· = init b) s) :
    s.Laid :=
  h.invariant (by rintro _ rfl; exact laid_init b) fun _ _ _ hs _ hst => laid_step hs hst

theorem ring_of_reachable {C : ListRing W B → Act W B → Prop} (h : Reachable step C (· = init b) s) :
    ReachableFrom Ring.step (Ring.init b) s.ring :=
  h.project ring (by rintro _ rfl; rfl) fun _ a _ _ hst => .inr ⟨a.ringAct, trivial, ring_step hst⟩

theorem running_of_reachable (h : Reachable step Running (· = init b) s) :
    Reachable Ring.step Ring.Running (· = Ring.init b) s.ring :=
  h.project ring (by rintro _ rfl; rfl) fun _ a _ hc hst => .inr ⟨a.ringAct, hc, ring_step hst⟩

/-- Steps of the thread alone. -/
theorem reachable_loop {C : ListRing W B → Act W B → Prop} {init : ListRing W B → Prop}
    {as : List (Loop.Act B)} {l : Loop B} (hC : ∀ a ∈ as, ∀ t, C t (.ring (.loop a)))
    (hs : Reachable step C init s) (h : run Loop.step s.ring.loop as = some l) :
    Reachable step C init { s with ring := { s.ring with loop := l } } := by
  induction as generalizing s with
  | nil => cases h; exact hs
  | cons a as ih =>
    obtain ⟨u, hu, h⟩ := Option.bind_eq_some_iff.mp h
    obtain ⟨ha, has⟩ := List.forall_mem_cons.mp hC
    have hstep : s.step (.ring (.loop a)) = some { s with ring := { s.ring with loop := u } } := by
      simp only [step, Ring.step, hu, Option.map_some]
    exact ih (s := { s with ring := { s.ring with loop := u } }) has (hs.step _ (ha s) hstep) h

theorem lists_step {a : Act W B} (h : s.step a = some t) : s.lists <+: t.lists := by
  cases a with
  | send w hd entry =>
    obtain ⟨r, -, rfl⟩ := Option.map_eq_some_iff.mp h
    exact List.prefix_append _ _
  | ring a =>
    cases a with
    | reserve => cases h
    | _ =>
      obtain ⟨r, -, rfl⟩ := Option.map_eq_some_iff.mp h
      exact List.prefix_refl _

/-- The lists of a launch: their ids are theirs alone and have entries in the tables. -/
def Admissible (ls : List SentList) : Prop :=
  (∀ l ∈ ls, 0 < l.count ∧ l.count ≤ queueSize ∧ l.listId < maxSgLists) ∧
    (ls.map fun l => l.listId).Nodup

instance (ls : List SentList) : Decidable (Admissible ls) := by
  unfold Admissible
  infer_instance

theorem Admissible.length_le {ls : List SentList} (h : Admissible ls) : ls.length ≤ maxSgLists := by
  have hsub : (ls.map fun l => l.listId) ⊆ List.range maxSgLists := fun id hid => by
    obtain ⟨l, hl, rfl⟩ := List.mem_map.mp hid
    exact List.mem_range.mpr (h.1 l hl).2.2
  have hle := (List.subperm_of_subset h.2 hsub).length_le
  rwa [List.length_map, List.length_range] at hle

theorem Admissible.sum_lt {ls : List SentList} (h : Admissible ls) :
    (ls.map fun l => l.count).sum + 1 < wordSize := by
  have hsum := List.sum_le_card_nsmul (ls.map fun l => l.count) queueSize
    (List.forall_mem_map.mpr fun l hl => (h.1 l hl).2.1)
  rw [List.length_map, smul_eq_mul] at hsum
  calc (ls.map fun l => l.count).sum + 1 ≤ maxSgLists * queueSize + 1 :=
        Nat.succ_le_succ (hsum.trans (Nat.mul_le_mul_right _ h.length_le))
    _ < wordSize := by decide

/-- The indices do not wrap as long as their lists have fewer entries. -/
theorem inWords_of_reachable {C : ListRing W B → Act W B → Prop} (h : Reachable step C (· = init b) s)
    (hsum : (s.lists.map fun l => l.count).sum + 1 < wordSize) : s.ring.InWords := by
  have hwords : ∀ {s : ListRing W B}, s.Laid → s.ring.Valid →
      (s.lists.map fun l => l.count).sum + 1 < wordSize → s.ring.InWords := by
    intro s hl hv hsum
    have hread := hv.read_le
    rw [hl.total] at hread
    refine ⟨?_, by omega⟩
    rw [hl.total]
    omega
  have hback : ∀ (s : ListRing W B) a t, s.step a = some t →
      (t.lists.map fun l => l.count).sum + 1 < wordSize →
      (s.lists.map fun l => l.count).sum + 1 < wordSize := by
    intro s a t hst ht
    obtain ⟨r, hr⟩ := lists_step hst
    rw [← hr, List.map_append, List.sum_append] at ht
    omega
  have hinv := h.invariant_while (I := fun s => s.Laid ∧ s.ring.Valid) (by
    rintro _ rfl
    exact ⟨laid_init b, Ring.valid_init b⟩) hback (fun s a t hi _ hst ht =>
      ⟨laid_step hi.1 hst, Ring.valid_step hi.2 (hwords hi.1 hi.2 (hback s a t hst ht)) (ring_step hst)⟩)
    hsum
  exact hwords hinv.1 hinv.2 hsum

end ListRing
end Gfd
