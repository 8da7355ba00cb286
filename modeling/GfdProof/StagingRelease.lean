import Mathlib
import GfdProof.StagingPool

/-! # How the staging pool gives its buffers back

A buffer of the pool is either mapped from huge pages and registered, or, where that fails,
allocated by `cudaMallocHost`.  `init` decides this for each buffer, and stores what it did in one
flag for each set, so the last buffer of a set decides how `shutdown` gives back all of them.

The ledger below records, beside the calls of the pool, how each buffer that it gets has to be
given back, and how `shutdown` does it.  The two agree in every run in which no set gets buffers of
both sorts (`returned_of_reachable`), whatever allocations fail and however often the pool is
initialised; and an `init` that mixes the two sorts in a set ends the agreement
(`balanced_step_iff`).
-/
namespace Gfd.Staging

open Transition

/-! ## Giving back one buffer -/

/-- What gives a buffer back: `cudaHostUnregister` and `munmap`, or `cudaFreeHost`. -/
inductive Return
  | unregisterUnmap (ptr hpSize : Nat)
  | freeHost (ptr : Nat)
  deriving DecidableEq, Repr

namespace Return

def ptr : Return → Nat
  | unregisterUnmap ptr _ => ptr
  | freeHost ptr => ptr

/-- The branch of `shutdown`, on the flag of the set. -/
def via (hugepage : Bool) (hpSize ptr : Nat) : Return :=
  if hugepage then unregisterUnmap ptr hpSize else freeHost ptr

@[simp] theorem ptr_via (hugepage : Bool) (hpSize p : Nat) : (via hugepage hpSize p).ptr = p := by
  cases hugepage <;> rfl

end Return

/-! ## What `init` gets and what `shutdown` gives back -/

/-- Where a buffer comes from; `mmap` fails for the size zero. -/
def source (o : Nat → Allocation) (hpSize b : Nat) : Allocation :=
  if o b = .hugepage ∧ hpSize ≠ 0 then .hugepage
  else if o b = .failed then .failed
  else .pinned

/-- The source that the flag of a set stands for. -/
def sourceOf (hugepage : Bool) : Allocation := if hugepage then .hugepage else .pinned

/-- The buffers that a set gets: those before the first that no allocation succeeds for. -/
def bought (o : Nat → Allocation) (hpSize : Nat) (bs : List Nat) : List Nat :=
  bs.takeWhile fun b => source o hpSize b ≠ .failed

/-- No set gets buffers from both sources. -/
def OneSource (o : Nat → Allocation) (hpSize : Nat) : Prop :=
  ∀ b ∈ bought o hpSize (List.range bufsPerSet), ∀ b' ∈ bought o hpSize (List.range bufsPerSet),
    source o hpSize b = source o hpSize b'

instance (o : Nat → Allocation) (hpSize : Nat) : Decidable (OneSource o hpSize) :=
  inferInstanceAs (Decidable (∀ b ∈ _, ∀ b' ∈ _, _))

/-- How the buffers that `allocBufs` gets have to be given back, by the way they are got. -/
def allocDue (o : Nat → Allocation) : List Nat → Heap → BufferSet → List Return
  | [], _, _ => []
  | b :: bs, h, set =>
    if o b = .hugepage ∧ set.hpSize ≠ 0 then
      .unregisterUnmap h.next set.hpSize :: allocDue o bs (h.alloc set.hpSize)
        { set with bufs := Function.update set.bufs b (some h.next), hugepage := true }
    else if o b = .failed then []
    else
      .freeHost h.next :: allocDue o bs (h.alloc set.bufSize)
        { set with bufs := Function.update set.bufs b (some h.next), hugepage := false }

/-- The set that the loop over the sets starts from. -/
def BufferSet.fresh (set : BufferSet) (bufSize : Nat) : BufferSet :=
  { set with bufSize := bufSize, hpSize := hpSizeOf bufSize, inUse := false }

/-- The same for the loop over the sets. -/
def initDue (bufSize : Nat) (o : Nat → Nat → Allocation) :
    List Nat → Heap × (Nat → BufferSet) × Nat → List Return
  | [], _ => []
  | s :: l, r =>
    allocDue (o s) (List.range bufsPerSet) r.1 ((r.2.1 s).fresh bufSize) ++
      initDue bufSize o l (initSet bufSize o r s)

/-- `num_sets_`, as `init` sets it. -/
def setsFor (numGpus : Int) : Nat :=
  (if (maxBufferSets : Int) < numGpus then (maxBufferSets : Int) else numGpus).toNat

/-- How the buffers that `init` gets have to be given back. -/
def StagingPool.initDue (p : StagingPool) (h : Heap) (numGpus : Int) (bufSize : Nat)
    (o : Nat → Nat → Allocation) : List Return :=
  if p.initialized then []
  else Staging.initDue bufSize o (List.range (setsFor numGpus)) (h, p.sets, 0)

/-- How `shutdown` gives the buffers of a set back: all by the flag of the set. -/
def BufferSet.returns (set : BufferSet) : List Return :=
  set.buffers.filterMap fun b => b.map (Return.via set.hugepage set.hpSize)

/-- How `shutdown` gives all buffers back. -/
def StagingPool.returns (p : StagingPool) : List Return :=
  if p.initialized then (List.range p.numSets).flatMap fun s => (p.sets s).returns else []

/-! ## The ledger -/

/-- The pool and its holders, with what has to be given back for the buffers obtained so far, and
what has been given back. -/
structure Ledger where
  state : State
  due : List Return
  done : List Return

def Ledger.init : Ledger := ⟨Staging.init, [], []⟩

/-- A call, entered in the ledger. -/
def Ledger.step (s : Ledger) (a : Act) : Option Ledger :=
  (Staging.step s.state a).map fun t =>
    { state := t
      due := match a with
        | .init numGpus bufSize o =>
          s.due ++ s.state.pool.initDue s.state.heap numGpus bufSize o
        | _ => s.due
      done := match a with
        | .shutdown => s.done ++ s.state.pool.returns
        | _ => s.done }

/-- Every buffer is given back as it was obtained, and once. -/
structure Balanced (s : Ledger) : Prop where
  /-- The buffers obtained are all different. -/
  distinct : (s.due.map Return.ptr).Nodup
  /-- What has been given back, and what `shutdown` would give back now, is what has to be. -/
  held : (s.done ++ s.state.pool.returns).Perm s.due
  /-- While the pool is shut down, nothing is left to be given back. -/
  closed : s.state.pool.initialized = false → s.done.Perm s.due
  /-- The ledger has what the pool has freed. -/
  freed : s.done.map Return.ptr = s.state.heap.freed

/-- An `init` that runs gets the buffers of each set from one source. -/
def Uniform (s : Ledger) : Act → Prop
  | .init numGpus bufSize o => s.state.pool.initialized = false →
    ∀ i < setsFor numGpus, OneSource (o i) (hpSizeOf bufSize)
  | _ => True

instance (s : Ledger) (a : Act) : Decidable (Uniform s a) := by
  cases a <;> unfold Uniform <;> infer_instance

/-! ## One set -/

section
variable {o : Nat → Allocation} {bs : List Nat} {h : Heap} {set : BufferSet}

/-- The buffers got are the next ones. -/
theorem allocDue_ptr : List.range h.next ++ (allocDue o bs h set).map Return.ptr =
    List.range (allocBufs o bs h set).1.next := by
  induction bs generalizing h set with
  | nil => simp [allocDue, allocBufs]
  | cons b bs ih =>
    have hnext : ∀ size rest, List.range h.next ++ h.next :: rest =
        List.range (h.alloc size).next ++ rest := by
      intro size rest
      rw [show (h.alloc size).next = h.next + 1 from rfl, List.range_succ]
      simp
    unfold allocDue allocBufs
    split_ifs with hhuge hfail
    · rw [List.map_cons, Return.ptr, hnext set.hpSize, ih]
    · simp
    · rw [List.map_cons, Return.ptr, hnext set.bufSize, ih]

/-- A buffer that is not one of the loop's stays as it is. -/
theorem allocBufs_of_notMem {b : Nat} (hb : b ∉ bs) :
    (allocBufs o bs h set).2.1.bufs b = set.bufs b := by
  induction bs generalizing h set with
  | nil => rfl
  | cons c bs ih =>
    obtain ⟨hc, hbs⟩ := not_or.mp (mt List.mem_cons.mpr hb)
    unfold allocBufs
    split_ifs
    · rw [ih hbs]
      exact Function.update_of_ne hc _ _
    · rfl
    · rw [ih hbs]
      exact Function.update_of_ne hc _ _

/-- A set that has none of the buffers has, after the loop, those that the loop got. -/
theorem filterMap_allocBufs (hnd : bs.Nodup) (hnull : ∀ b ∈ bs, set.bufs b = none) :
    bs.filterMap (allocBufs o bs h set).2.1.bufs = (allocDue o bs h set).map Return.ptr := by
  induction bs generalizing h set with
  | nil => rfl
  | cons b bs ih =>
    obtain ⟨hb, hnd⟩ := List.nodup_cons.mp hnd
    have hrest : ∀ b' ∈ bs, Function.update set.bufs b (some h.next) b' = none := by
      intro b' hb'
      rw [Function.update_of_ne (ne_of_mem_of_not_mem hb' hb)]
      exact hnull b' (List.mem_cons_of_mem _ hb')
    unfold allocBufs allocDue
    split_ifs with hhuge hfail
    · rw [List.filterMap_cons_some ((allocBufs_of_notMem hb).trans (Function.update_self ..)),
        ih hnd hrest]
      rfl
    · exact List.filterMap_eq_nil_iff.mpr hnull
    · rw [List.filterMap_cons_some ((allocBufs_of_notMem hb).trans (Function.update_self ..)),
        ih hnd hrest]
      rfl

theorem bought_of_failed {hpSize b : Nat} (hs : source o hpSize b = .failed) :
    bought o hpSize (b :: bs) = [] := by
  simp [bought, hs]

theorem bought_of_ne {hpSize b : Nat} (hs : source o hpSize b ≠ .failed) :
    bought o hpSize (b :: bs) = b :: bought o hpSize bs := by
  simp [bought, hs]

/-- The ways are all those of one flag exactly if every buffer comes from the source of the
flag. -/
theorem allocDue_eq_via (f : Bool) :
    allocDue o bs h set =
        ((allocDue o bs h set).map Return.ptr).map (Return.via f set.hpSize) ↔
      ∀ b ∈ bought o set.hpSize bs, source o set.hpSize b = sourceOf f := by
  induction bs generalizing h set with
  | nil => simp [allocDue, bought]
  | cons b bs ih =>
    unfold allocDue
    split_ifs with hhuge hfail
    · have hs : source o set.hpSize b = .hugepage := if_pos hhuge
      have ih := @ih (h.alloc set.hpSize)
        { set with bufs := Function.update set.bufs b (some h.next), hugepage := true }
      rw [bought_of_ne (by simp [hs]), List.forall_mem_cons, hs, List.map_cons, List.map_cons,
        List.cons.injEq, ih]
      cases f <;> simp [Return.via, Return.ptr, sourceOf]
    · have hs : source o set.hpSize b = .failed := (if_neg hhuge).trans (if_pos hfail)
      simp [bought_of_failed hs]
    · have hs : source o set.hpSize b = .pinned := (if_neg hhuge).trans (if_neg hfail)
      have ih := @ih (h.alloc set.bufSize)
        { set with bufs := Function.update set.bufs b (some h.next), hugepage := false }
      rw [bought_of_ne (by simp [hs]), List.forall_mem_cons, hs, List.map_cons, List.map_cons,
        List.cons.injEq, ih]
      cases f <;> simp [Return.via, Return.ptr, sourceOf]

/-- The flag of a set whose buffers come from one source; it stays as it was if there are none. -/
theorem hugepage_allocBufs {f : Bool}
    (hall : ∀ b ∈ bought o set.hpSize bs,
      source o set.hpSize b = sourceOf f)
    (hf : bought o set.hpSize bs = [] → set.hugepage = f) :
    (allocBufs o bs h set).2.1.hugepage = f := by
  induction bs generalizing h set with
  | nil => exact hf rfl
  | cons b bs ih =>
    unfold allocBufs
    split_ifs with hhuge hfail
    · have hs : source o set.hpSize b = .hugepage := if_pos hhuge
      rw [bought_of_ne (by simp [hs]), List.forall_mem_cons, hs] at hall
      refine ih hall.2 fun _ => ?_
      cases f
      · cases hall.1
      · rfl
    · exact hf (bought_of_failed ((if_neg hhuge).trans (if_pos hfail)))
    · have hs : source o set.hpSize b = .pinned := (if_neg hhuge).trans (if_neg hfail)
      rw [bought_of_ne (by simp [hs]), List.forall_mem_cons, hs] at hall
      refine ih hall.2 fun _ => ?_
      cases f
      · rfl
      · cases hall.1

theorem freed_allocBufs : (allocBufs o bs h set).1.freed = h.freed := by
  induction bs generalizing h set with
  | nil => rfl
  | cons b bs ih =>
    unfold allocBufs
    split_ifs
    · exact ih
    · rfl
    · exact ih

theorem hpSize_allocBufs : (allocBufs o bs h set).2.1.hpSize = set.hpSize := by
  induction bs generalizing h set with
  | nil => rfl
  | cons b bs ih =>
    unfold allocBufs
    split_ifs
    · exact ih
    · rfl
    · exact ih

theorem BufferSet.returns_eq (set : BufferSet) : set.returns =
    ((List.range bufsPerSet).filterMap set.bufs).map (Return.via set.hugepage set.hpSize) := by
  rw [returns, buffers, List.filterMap_map, List.map_filterMap]
  rfl

/-- Whatever the flag, every buffer of the set is given back. -/
theorem BufferSet.map_ptr_returns (set : BufferSet) :
    set.returns.map Return.ptr = set.buffers.filterMap fun b => b := by
  rw [returns, List.map_filterMap]
  refine List.filterMap_congr fun b _ => ?_
  cases b with
  | none => rfl
  | some q => simp

/-- The buffers of a new set, as `shutdown` will give them back. -/
theorem returns_allocBufs (hnull : ∀ b < bufsPerSet, set.bufs b = none) :
    (allocBufs o (List.range bufsPerSet) h set).2.1.returns =
      ((allocDue o (List.range bufsPerSet) h set).map Return.ptr).map
        (Return.via (allocBufs o (List.range bufsPerSet) h set).2.1.hugepage set.hpSize) := by
  rw [BufferSet.returns_eq, hpSize_allocBufs,
    filterMap_allocBufs List.nodup_range fun b hb => hnull b (List.mem_range.mp hb)]

theorem source_of_mem_bought {hpSize b : Nat} (hb : b ∈ bought o hpSize bs) :
    source o hpSize b = sourceOf (decide (source o hpSize b = .hugepage)) := by
  have hne := List.mem_takeWhile_imp hb
  cases hs : source o hpSize b <;> simp_all [sourceOf]

/-- **One set**: its buffers will be given back as they have to be exactly if they come from one
source. -/
theorem returns_allocBufs_iff (hnull : ∀ b < bufsPerSet, set.bufs b = none) :
    (allocBufs o (List.range bufsPerSet) h set).2.1.returns =
        allocDue o (List.range bufsPerSet) h set ↔ OneSource o set.hpSize := by
  rw [returns_allocBufs hnull, eq_comm, allocDue_eq_via]
  constructor
  · intro hall b hb b' hb'
    rw [hall b hb, hall b' hb']
  · intro hone b hb
    have hflag : (allocBufs o (List.range bufsPerSet) h set).2.1.hugepage =
        decide (source o set.hpSize b = .hugepage) := by
      refine hugepage_allocBufs (fun b' hb' => ?_) fun hnil => ?_
      · rw [hone b' hb' b hb]
        exact source_of_mem_bought hb
      · rw [hnil] at hb
        cases hb
    rw [hflag]
    exact source_of_mem_bought hb

end

/-! ## The loop over the sets -/

section
variable {bufSize : Nat} {o : Nat → Nat → Allocation} {l : List Nat}
  {r : Heap × (Nat → BufferSet) × Nat}

theorem initSet_self (s : Nat) : (initSet bufSize o r s).2.1 s =
    (allocBufs (o s) (List.range bufsPerSet) r.1 ((r.2.1 s).fresh bufSize)).2.1 :=
  Function.update_self ..

theorem initSet_of_ne {s i : Nat} (hi : i ≠ s) : (initSet bufSize o r s).2.1 i = r.2.1 i :=
  Function.update_of_ne hi _ _

theorem initSets_of_notMem {i : Nat} (hi : i ∉ l) :
    (l.foldl (initSet bufSize o) r).2.1 i = r.2.1 i := by
  induction l generalizing r with
  | nil => rfl
  | cons s l ih =>
    obtain ⟨his, hil⟩ := not_or.mp (mt List.mem_cons.mpr hi)
    exact (ih hil).trans (initSet_of_ne his)

theorem initSets_freed : (l.foldl (initSet bufSize o) r).1.freed = r.1.freed := by
  induction l generalizing r with
  | nil => rfl
  | cons s l ih => exact (ih (r := initSet bufSize o r s)).trans freed_allocBufs

/-- The buffers got by the whole loop are the next ones. -/
theorem initDue_ptr : List.range r.1.next ++ (initDue bufSize o l r).map Return.ptr =
    List.range (l.foldl (initSet bufSize o) r).1.next := by
  induction l generalizing r with
  | nil => simp [initDue]
  | cons s l ih =>
    rw [initDue, List.map_append, ← List.append_assoc, allocDue_ptr]
    exact ih (r := initSet bufSize o r s)

/-- What `shutdown` will give back after the loop, set by set. -/
private def returnsOf (sets : Nat → BufferSet) (l : List Nat) : List Return :=
  l.flatMap fun s => (sets s).returns

private theorem returnsOf_cons (sets : Nat → BufferSet) (s : Nat) (l : List Nat) :
    returnsOf sets (s :: l) = (sets s).returns ++ returnsOf sets l := List.flatMap_cons ..

variable (hnd : l.Nodup) (hnull : ∀ i ∈ l, ∀ b < bufsPerSet, (r.2.1 i).bufs b = none)
include hnd hnull

/-- The buffers are the same ones, whatever the flags of the sets. -/
theorem map_ptr_returnsOf : (returnsOf (l.foldl (initSet bufSize o) r).2.1 l).map Return.ptr =
    (initDue bufSize o l r).map Return.ptr := by
  induction l generalizing r with
  | nil => rfl
  | cons s l ih =>
    obtain ⟨hs, hnd⟩ := List.nodup_cons.mp hnd
    have hnull' : ∀ i ∈ l, ∀ b < bufsPerSet, ((initSet bufSize o r s).2.1 i).bufs b = none := by
      intro i hi b hb
      rw [initSet_of_ne (ne_of_mem_of_not_mem hi hs)]
      exact hnull i (List.mem_cons_of_mem _ hi) b hb
    have hfresh : ∀ b < bufsPerSet, ((r.2.1 s).fresh bufSize).bufs b = none :=
      hnull s List.mem_cons_self
    rw [returnsOf_cons, List.map_append, initDue, List.map_append, List.foldl_cons,
      ih hnd hnull', initSets_of_notMem hs, initSet_self, returns_allocBufs hfresh]
    simp

/-- **All sets**: the buffers will be given back as they have to be exactly if those of each set
come from one source. -/
theorem returnsOf_iff : returnsOf (l.foldl (initSet bufSize o) r).2.1 l = initDue bufSize o l r ↔
    ∀ i ∈ l, OneSource (o i) (hpSizeOf bufSize) := by
  induction l generalizing r with
  | nil => simp [returnsOf, initDue]
  | cons s l ih =>
    obtain ⟨hs, hnd⟩ := List.nodup_cons.mp hnd
    have hnull' : ∀ i ∈ l, ∀ b < bufsPerSet, ((initSet bufSize o r s).2.1 i).bufs b = none := by
      intro i hi b hb
      rw [initSet_of_ne (ne_of_mem_of_not_mem hi hs)]
      exact hnull i (List.mem_cons_of_mem _ hi) b hb
    have hfresh : ∀ b < bufsPerSet, ((r.2.1 s).fresh bufSize).bufs b = none :=
      hnull s List.mem_cons_self
    have hlen : (allocBufs (o s) (List.range bufsPerSet) r.1
          ((r.2.1 s).fresh bufSize)).2.1.returns.length =
        (allocDue (o s) (List.range bufsPerSet) r.1 ((r.2.1 s).fresh bufSize)).length := by
      rw [returns_allocBufs hfresh]
      simp
    rw [returnsOf_cons, initDue, List.foldl_cons, initSets_of_notMem hs, initSet_self,
      List.append_eq_append_iff_of_size_eq_left hlen, returns_allocBufs_iff hfresh, ih hnd hnull',
      List.forall_mem_cons]
    rfl

end

/-! ## One call -/

namespace StagingPool

variable {p : StagingPool} {h : Heap}

section
variable (numGpus : Int) (bufSize : Nat) (o : Nat → Nat → Allocation)

theorem init_freed : (p.init h numGpus bufSize o).2.1.freed = h.freed := by
  unfold init
  by_cases hi : p.initialized = true
  · rw [if_pos hi]
  · rw [if_neg hi]
    exact initSets_freed

theorem map_ptr_initDue : List.range h.next ++
    (p.initDue h numGpus bufSize o).map Return.ptr =
      List.range (p.init h numGpus bufSize o).2.1.next := by
  unfold init initDue
  by_cases hi : p.initialized = true
  · rw [if_pos hi, if_pos hi]
    simp
  · rw [if_neg hi, if_neg hi]
    exact initDue_ptr (r := (h, p.sets, 0))

variable (hp : p.Sound h) (hi : p.initialized = false)
include hp hi

theorem map_ptr_returns_init : (p.init h numGpus bufSize o).1.returns.map Return.ptr =
    (p.initDue h numGpus bufSize o).map Return.ptr := by
  have hne : ¬ p.initialized = true := by simp [hi]
  unfold init initDue
  rw [if_neg hne, if_neg hne]
  exact map_ptr_returnsOf List.nodup_range fun i _ => hp.null i fun hc => hne hc.1

/-- **An `init` that runs**: what it gets will be given back as it has to be exactly if the buffers
of each set come from one source. -/
theorem returns_init_iff :
    (p.init h numGpus bufSize o).1.returns = p.initDue h numGpus bufSize o ↔
      ∀ i < setsFor numGpus, OneSource (o i) (hpSizeOf bufSize) := by
  have hne : ¬ p.initialized = true := by simp [hi]
  unfold init initDue
  rw [if_neg hne, if_neg hne]
  refine (returnsOf_iff List.nodup_range fun i _ => hp.null i fun hc => hne hc.1).trans ?_
  simp only [List.mem_range]
  rfl

end

theorem setInUse_returns (s : Nat) (u : Bool) : (p.setInUse s u).returns = p.returns := by
  have hset : ∀ i, ((p.setInUse s u).sets i).returns = (p.sets i).returns := by
    intro i
    by_cases hi : i = s
    · subst hi
      simp [setInUse, BufferSet.returns, BufferSet.buffers]
    · rw [setInUse_sets_of_ne u hi]
  simp only [returns, hset]
  rfl

theorem acquireBuffers_returns (required : Nat) :
    (p.acquireBuffers required).1.returns = p.returns := by
  unfold acquireBuffers
  split
  · exact setInUse_returns _ _
  · rfl

theorem releaseBuffers_returns (s : Nat) : (p.releaseBuffers s).returns = p.returns := by
  unfold releaseBuffers
  split_ifs
  · exact setInUse_returns _ _
  · rfl

/-- `shutdown` frees what it gives back. -/
theorem freed_shutdown_eq : (p.shutdown h).2.freed = h.freed ++ p.returns.map Return.ptr := by
  unfold shutdown returns
  split_ifs
  · simp only [List.map_flatMap, BufferSet.map_ptr_returns]
  · simp

theorem shutdown_initialized : (p.shutdown h).1.initialized = false := by
  unfold shutdown
  split_ifs with hi
  · rfl
  · exact eq_false_of_ne_true hi

theorem shutdown_next : (p.shutdown h).2.next = h.next := by
  unfold shutdown
  split_ifs <;> rfl

end StagingPool

/-- Two lists with the same elements in the same order of keys, all different, are equal. -/
theorem eq_of_perm_of_map {α β : Type} {f : α → β} {l l' : List α} (hp : l.Perm l')
    (hm : l.map f = l'.map f) (hnd : (l.map f).Nodup) : l = l' := by
  induction l generalizing l' with
  | nil => exact (List.nil_perm.mp hp).symm
  | cons a l ih =>
    cases l' with
    | nil => cases List.perm_nil.mp hp
    | cons a' l' =>
      obtain ⟨-, htail⟩ := List.cons.inj hm
      obtain ⟨hnot, hnd⟩ := List.nodup_cons.mp hnd
      have haa : a = a' := by
        rcases List.mem_cons.mp (hp.mem_iff.mp List.mem_cons_self) with he | hmem
        · exact he
        · refine absurd ?_ hnot
          rw [htail]
          exact List.mem_map_of_mem hmem
      subst haa
      rw [ih hp.cons_inv htail hnd]

/-- The invariant of every run whose `init`s are uniform. -/
structure Books (s : Ledger) : Prop where
  sound : s.state.pool.Sound s.state.heap
  ptrs : s.due.map Return.ptr = List.range s.state.heap.next
  held : (s.done ++ s.state.pool.returns).Perm s.due
  freed : s.done.map Return.ptr = s.state.heap.freed

theorem Books.balanced {s : Ledger} (hb : Books s) : Balanced s where
  distinct := hb.ptrs ▸ List.nodup_range
  held := hb.held
  closed hi := by
    have hnil : s.state.pool.returns = [] := if_neg (by simp [hi])
    simpa [hnil] using hb.held
  freed := hb.freed

theorem books_init : Books Ledger.init where
  sound := StagingPool.sound_new _
  ptrs := rfl
  held := .nil
  freed := rfl

section
variable {s t : Ledger}

/-- The fields of the invariant that an `init` keeps whatever it gets. -/
theorem ptrs_init (hb : Books s) (numGpus : Int) (bufSize : Nat) (o : Nat → Nat → Allocation) :
    (s.due ++ s.state.pool.initDue s.state.heap numGpus bufSize o).map Return.ptr =
      List.range (s.state.pool.init s.state.heap numGpus bufSize o).2.1.next := by
  rw [List.map_append, hb.ptrs]
  exact StagingPool.map_ptr_initDue ..

theorem books_initPool (hb : Books s) {numGpus : Int} {bufSize : Fin wordSize}
    {o : Nat → Nat → Allocation} (hu : Uniform s (.init numGpus bufSize o))
    (hs : s.step (.init numGpus bufSize o) = some t) : Books t := by
  cases hs
  refine ⟨hb.sound.init numGpus bufSize.isLt o, ptrs_init hb .., ?_,
    hb.freed.trans (StagingPool.init_freed ..).symm⟩
  dsimp only
  by_cases hi : s.state.pool.initialized = true
  · rw [StagingPool.init, if_pos hi, StagingPool.initDue, if_pos hi, List.append_nil]
    exact hb.held
  · have hoff := eq_false_of_ne_true hi
    rw [(StagingPool.returns_init_iff numGpus bufSize o hb.sound hoff).mpr (hu hoff)]
    exact (hb.balanced.closed hoff).append_right _

/-- An `init` that mixes the sources in a set ends the balance. -/
theorem uniform_of_balanced (hb : Books s) {numGpus : Int} {bufSize : Fin wordSize}
    {o : Nat → Nat → Allocation} (hs : s.step (.init numGpus bufSize o) = some t)
    (ht : Balanced t) : Uniform s (.init numGpus bufSize o) := by
  intro hoff
  cases hs
  have hperm : (s.state.pool.init s.state.heap numGpus bufSize o).1.returns.Perm
      (s.state.pool.initDue s.state.heap numGpus bufSize o) :=
    (List.perm_append_left_iff s.done).mp
      (ht.held.trans ((hb.balanced.closed hoff).symm.append_right _))
  have hptr := StagingPool.map_ptr_returns_init numGpus bufSize o hb.sound hoff
  have hnd : ((s.state.pool.init s.state.heap numGpus bufSize o).1.returns.map
      Return.ptr).Nodup := by
    have hall : (List.map Return.ptr _).Nodup := ht.distinct
    rw [hptr]
    rw [List.map_append] at hall
    exact (List.nodup_append.mp hall).2.1
  exact (StagingPool.returns_init_iff numGpus bufSize o hb.sound hoff).mp
    (eq_of_perm_of_map hperm hptr hnd)

/-- The calls of a holder change neither what is due nor what has been given back. -/
theorem books_holder (hb : Books s) (hsound : t.state.pool.Sound t.state.heap)
    (hdue : t.due = s.due) (hdone : t.done = s.done) (hheap : t.state.heap = s.state.heap)
    (hret : t.state.pool.returns = s.state.pool.returns) : Books t where
  sound := hsound
  ptrs := by rw [hdue, hheap, hb.ptrs]
  held := by rw [hdue, hdone, hret]; exact hb.held
  freed := by rw [hdone, hheap, hb.freed]

/-- `shutdown` moves what it gives back from what is held to what is done. -/
theorem books_shutdown (hb : Books s) (hs : s.step .shutdown = some t) : Books t := by
  cases hs
  refine ⟨hb.sound.shutdown, ?_, ?_, ?_⟩
  · dsimp only
    rw [StagingPool.shutdown_next, hb.ptrs]
  · have hnil : (s.state.pool.shutdown s.state.heap).1.returns = [] :=
      if_neg (by simp [StagingPool.shutdown_initialized])
    dsimp only
    rw [hnil, List.append_nil]
    exact hb.held
  · dsimp only
    rw [List.map_append, hb.freed, StagingPool.freed_shutdown_eq]

theorem books_step {a : Act} (hb : Books s) (hu : Uniform s a) (hs : s.step a = some t) :
    Books t := by
  cases a with
  | init numGpus bufSize o => exact books_initPool hb hu hs
  | shutdown => exact books_shutdown hb hs
  | acquire who required =>
    obtain ⟨u, hu, rfl⟩ := Option.map_eq_some_iff.mp hs
    simp only [Staging.step] at hu
    cases hl : s.state.lease who with
    | some l => rw [hl] at hu; cases hu
    | none =>
      rw [hl] at hu
      cases hu
      refine books_holder hb ?_ rfl rfl rfl (StagingPool.acquireBuffers_returns _)
      dsimp only [StagingPool.acquireBuffers]
      split
      · exact hb.sound.setInUse _ _
      · exact hb.sound
  | get who =>
    obtain ⟨u, hu, rfl⟩ := Option.map_eq_some_iff.mp hs
    obtain ⟨l, -, rfl⟩ := Option.map_eq_some_iff.mp hu
    exact books_holder hb hb.sound rfl rfl rfl rfl
  | release who =>
    obtain ⟨u, hu, rfl⟩ := Option.map_eq_some_iff.mp hs
    obtain ⟨l, -, rfl⟩ := Option.map_eq_some_iff.mp hu
    refine books_holder hb ?_ rfl rfl rfl (StagingPool.releaseBuffers_returns _)
    dsimp only [StagingPool.releaseBuffers]
    split_ifs
    · exact hb.sound.setInUse _ _
    · exact hb.sound

/-- **When a call keeps the balance**: exactly the uniform calls do. -/
theorem balanced_step_iff {a : Act} (hb : Books s) (hs : s.step a = some t) :
    Balanced t ↔ Uniform s a := by
  refine ⟨fun ht => ?_, fun hu => (books_step hb hu hs).balanced⟩
  cases a with
  | init numGpus bufSize o => exact uniform_of_balanced hb hs ht
  | acquire _ _ => trivial
  | get _ => trivial
  | release _ => trivial
  | shutdown => trivial

end

/-- **Every buffer is given back as it was obtained**, in every state of a run whose `init`s are
uniform: whatever allocations fail, whoever holds the sets, and in whatever order the pool is
initialised and shut down. -/
theorem returned_of_reachable {s : Ledger}
    (h : Reachable Ledger.step Uniform (· = Ledger.init) s) : Balanced s := by
  have hb : Books s := by
    refine h.invariant (fun _ h0 => ?_) fun _ _ _ hb hu hs => books_step hb hu hs
    exact h0 ▸ books_init
  exact hb.balanced

/-! ## A pool initialised twice -/

/-- Two sets of 64KB: huge pages for the first, and `cudaMallocHost` for the second until it
fails. -/
private def bothSorts : Act := .init 2 ⟨65536, bufferSize_lt⟩ fun i b =>
  if i = 0 then .hugepage else if b < 3 then .pinned else .failed

/-- One set, for which the third huge page cannot be registered. -/
private def mixedSet : Act := .init 1 ⟨65536, bufferSize_lt⟩ fun _ b =>
  if b = 2 then .pinned else .hugepage

/-- What a run leaves of the ledger. -/
private structure Entries where
  initialized : Bool
  due : List Return
  done : List Return
  deriving DecidableEq

private def entries (s : Ledger) : Entries := ⟨s.state.pool.initialized, s.due, s.done⟩

theorem returned_of_reachable_two : ∃ s, Balanced s ∧ s.done.length = 8 ∧ s.due.length = 13 := by
  have hrun : ((runWhile Ledger.step Uniform Ledger.init
      [.shutdown, bothSorts, bothSorts, .acquire 0 4096, .shutdown, .release 0,
        .init 1 ⟨4096, by decide⟩ fun _ _ => .hugepage]).map
        fun s => (s.done.length, s.due.length)) = some (8, 13) := by decide +kernel
  obtain ⟨s, hs, hl⟩ := Option.map_eq_some_iff.mp hrun
  obtain ⟨hdone, hdue⟩ := Prod.ext_iff.mp hl
  exact ⟨s, returned_of_reachable ((Reachable.self Ledger.init).runWhile hs), hdone, hdue⟩

/-- The last buffer of the set decides, so the one from `cudaMallocHost` is given to `munmap`. -/
theorem exists_misreturned : ∃ s, Reachable Ledger.step Always (· = Ledger.init) s ∧
    s.state.pool.initialized = false ∧ ¬ Balanced s := by
  have hrun : (run Ledger.step Ledger.init [mixedSet, .shutdown]).map entries =
      some ⟨false,
        [.unregisterUnmap 0 2097152, .unregisterUnmap 1 2097152, .freeHost 2,
          .unregisterUnmap 3 2097152, .unregisterUnmap 4 2097152],
        [.unregisterUnmap 0 2097152, .unregisterUnmap 1 2097152, .unregisterUnmap 2 2097152,
          .unregisterUnmap 3 2097152, .unregisterUnmap 4 2097152]⟩ := by decide +kernel
  obtain ⟨s, hs, he⟩ := Option.map_eq_some_iff.mp hrun
  obtain ⟨hoff, hdue, hdone⟩ := Entries.mk.inj he
  refine ⟨s, (Reachable.self Ledger.init).run_always hs, hoff, fun hb => ?_⟩
  have hperm := hb.closed hoff
  rw [hdue, hdone] at hperm
  exact absurd (hperm.mem_iff (a := .freeHost 2)) (by decide)

end Gfd.Staging
