import Mathlib
import GfdProof.Descriptor
import GfdProof.Transition

/-! # The staging buffer pool

`StagingPool`, the process-wide pool of buffer sets, and those who hold its sets:
a poller acquires one when it initialises its copy engine and releases it when it
is destroyed.  Every call takes the pool's lock, so a call is one step.

`init` counts a set whose allocations failed among its sets, and `acquire_buffers`
hands it out like any other.  `shutdown` frees every buffer, whoever holds it, and
the next `init` marks every set free again.  So the ownership that a lease should
mean (`Owned`) holds in the runs in which only complete sets are handed out and
the pool is shut down only when nothing is held (`owned_of_reachable`), and the
first step that does otherwise breaks it (`owned_step_iff`).
-/
namespace Gfd.Staging

open Transition

/-! ## Memory -/

/-- The host allocations: the size of each buffer allocated so far, and those handed to a function
that frees them. -/
structure Heap where
  next : Nat
  size : Nat → Nat
  freed : List Nat

/-- A new buffer. -/
def Heap.alloc (h : Heap) (size : Nat) : Heap :=
  { h with next := h.next + 1, size := Function.update h.size h.next size }

/-- How the allocation of a buffer goes: `mmap` and `cudaHostRegister` succeed, or one of them fails
and `cudaMallocHost` succeeds, or all fail. -/
inductive Allocation
  | hugepage
  | pinned
  | failed
  deriving DecidableEq, Repr

/-! ## The pool -/

def maxBufferSets : Nat := 8
def bufsPerSet : Nat := 5

/-- `BufferSet`; a null pointer is `none`. -/
structure BufferSet where
  bufs : Nat → Option Nat
  bufSize : Nat
  hpSize : Nat
  hugepage : Bool
  inUse : Bool

structure StagingPool where
  initialized : Bool
  numSets : Nat
  bufSize : Nat
  sets : Nat → BufferSet

/-- The pool before the first call. -/
def StagingPool.new : StagingPool where
  initialized := false
  numSets := 0
  bufSize := 0
  sets _ := ⟨fun _ => none, 0, 0, false, false⟩

/-- `hp_size`: the size rounded up to 2MB pages, on 64-bit words. -/
def hpSizeOf (bufSize : Nat) : Nat :=
  word (bufSize + (2 * 1024 * 1024 - 1)) / (2 * 1024 * 1024) * (2 * 1024 * 1024)

/-- The buffers `bs` of a set are allocated one by one, until one fails; `set_ok` says that none
did.  `mmap` fails for the size zero. -/
def allocBufs (o : Nat → Allocation) : List Nat → Heap → BufferSet → Heap × BufferSet × Bool
  | [], h, set => (h, set, true)
  | b :: bs, h, set =>
    if o b = .hugepage ∧ set.hpSize ≠ 0 then
      allocBufs o bs (h.alloc set.hpSize)
        { set with bufs := Function.update set.bufs b (some h.next), hugepage := true }
    else if o b = .failed then (h, set, false)
    else
      allocBufs o bs (h.alloc set.bufSize)
        { set with bufs := Function.update set.bufs b (some h.next), hugepage := false }

/-- One iteration of the loop over the sets; `total` counts the complete ones. -/
def initSet (bufSize : Nat) (o : Nat → Nat → Allocation) (r : Heap × (Nat → BufferSet) × Nat)
    (s : Nat) : Heap × (Nat → BufferSet) × Nat :=
  let set := { r.2.1 s with bufSize := bufSize, hpSize := hpSizeOf bufSize, inUse := false }
  let a := allocBufs (o s) (List.range bufsPerSet) r.1 set
  (a.1, Function.update r.2.1 s a.2.1, r.2.2 + if a.2.2 then 1 else 0)

/-- `init`, with its result. -/
def StagingPool.init (p : StagingPool) (h : Heap) (numGpus : Int) (bufSize : Nat)
    (o : Nat → Nat → Allocation) : StagingPool × Heap × Bool :=
  if p.initialized then (p, h, true)
  else
    let numSets := (if (maxBufferSets : Int) < numGpus then (maxBufferSets : Int) else numGpus).toNat
    let r := (List.range numSets).foldl (initSet bufSize o) (h, p.sets, 0)
    (⟨true, numSets, bufSize, r.2.1⟩, r.1, decide (0 < r.2.2))

/-- The set `acquire_buffers` finds: the first free one that is large enough. -/
def StagingPool.find (p : StagingPool) (required : Nat) : Option Nat :=
  if p.initialized then
    (List.range p.numSets).find? fun s => !(p.sets s).inUse && decide (required ≤ (p.sets s).bufSize)
  else none

def StagingPool.setInUse (p : StagingPool) (s : Nat) (inUse : Bool) : StagingPool :=
  { p with sets := Function.update p.sets s { p.sets s with inUse := inUse } }

/-- `acquire_buffers`; `-1` is `none`. -/
def StagingPool.acquireBuffers (p : StagingPool) (required : Nat) : StagingPool × Option Nat :=
  match p.find required with
  | some s => (p.setInUse s true, some s)
  | none => (p, none)

/-- The buffers of a set. -/
def BufferSet.buffers (set : BufferSet) : List (Option Nat) := (List.range bufsPerSet).map set.bufs

/-- `get_buffers`: the buffers, the size and whether they are huge pages; nothing for a set that is
out of range. -/
def StagingPool.getBuffers (p : StagingPool) (s : Nat) : Option (List (Option Nat) × Nat × Bool) :=
  if s < p.numSets then some ((p.sets s).buffers, (p.sets s).bufSize, (p.sets s).hugepage) else none

/-- `release_buffers` -/
def StagingPool.releaseBuffers (p : StagingPool) (s : Nat) : StagingPool :=
  if s < p.numSets then p.setInUse s false else p

/-- `shutdown` frees the buffers of every set, whether it is in use or not. -/
def StagingPool.shutdown (p : StagingPool) (h : Heap) : StagingPool × Heap :=
  if p.initialized then
    ({ p with
        initialized := false
        sets := fun s =>
          if s < p.numSets then
            { p.sets s with bufs := fun b => if b < bufsPerSet then none else (p.sets s).bufs b }
          else p.sets s },
      { h with
        freed := h.freed ++
          (List.range p.numSets).flatMap fun s => (p.sets s).buffers.filterMap fun b => b })
  else (p, h)

/-! ## Holders -/

/-- What a holder has been given: a set, for a size, with the buffers it had then; and what
`get_buffers` has told it since. -/
structure Lease where
  set : Nat
  required : Nat
  buffers : List (Option Nat)
  got : Option (List (Option Nat) × Nat × Bool)

/-- The pool and its holders. -/
structure State where
  pool : StagingPool
  heap : Heap
  lease : Nat → Option Lease

def init : State where
  pool := .new
  heap := ⟨0, fun _ => 0, []⟩
  lease _ := none

/-- The calls, by whoever (`init`, `shutdown`) or by a holder. -/
inductive Act
  | init (numGpus : Int) (bufSize : Fin wordSize) (o : Nat → Nat → Allocation)
  | acquire (who required : Nat)
  | get (who : Nat)
  | release (who : Nat)
  | shutdown

/-- One call.  A holder acquires when it has no set, and gets and releases the one it has. -/
def step (s : State) : Act → Option State
  | .init numGpus bufSize o =>
    let r := s.pool.init s.heap numGpus bufSize o
    some { s with pool := r.1, heap := r.2.1 }
  | .acquire who required =>
    match s.lease who with
    | some _ => none
    | none =>
      let r := s.pool.acquireBuffers required
      some { s with
        pool := r.1
        lease := Function.update s.lease who
          (r.2.map fun set => ⟨set, required, (s.pool.sets set).buffers, none⟩) }
  | .get who =>
    (s.lease who).map fun l =>
      { s with lease := Function.update s.lease who (some { l with got := s.pool.getBuffers l.set }) }
  | .release who =>
    (s.lease who).map fun l =>
      { s with pool := s.pool.releaseBuffers l.set, lease := Function.update s.lease who none }
  | .shutdown =>
    let r := s.pool.shutdown s.heap
    some { s with pool := r.1, heap := r.2 }

/-- What a lease should mean. -/
structure Owned (s : State) : Prop where
  /-- Its buffers are not null, and as large as was asked for. -/
  complete : ∀ who l, s.lease who = some l → l.buffers.length = bufsPerSet ∧
    ∀ b ∈ l.buffers, ∃ p, b = some p ∧ l.required ≤ s.heap.size p
  /-- Its set is nobody else's. -/
  exclusive : ∀ who who' l l', s.lease who = some l → s.lease who' = some l' → l.set = l'.set →
    who = who'
  /-- Its buffers have not been freed. -/
  live : ∀ who l, s.lease who = some l → ∀ p, some p ∈ l.buffers → p ∉ s.heap.freed
  /-- The pool has its set marked, whatever others have released. -/
  marked : ∀ who l, s.lease who = some l → (s.pool.sets l.set).inUse = true
  /-- `get_buffers` tells its buffers. -/
  told : ∀ who l g, s.lease who = some l → l.got = some g → g.1 = l.buffers

/-- A call that keeps the ownership: the set that is handed out has all its buffers, and nothing is
held when the pool is shut down. -/
def Careful (s : State) : Act → Prop
  | .acquire _ required => ∀ i, s.pool.find required = some i → ∀ b < bufsPerSet,
    (s.pool.sets i).bufs b ≠ none
  | .shutdown => s.pool.initialized = true → ∀ who, s.lease who = none
  | _ => True

/-! ## What the pool's functions do

A buffer that a set points to is allocated, not freed, and large enough (`Backed`), and no set
points to one unless it belongs to an initialised pool (`Sound`). -/

namespace Heap

/-- Later heaps: nothing is freed in between, and the buffers stay as they are. -/
structure Grows (h h' : Heap) : Prop where
  next : h.next ≤ h'.next
  freed : h'.freed = h.freed
  size : ∀ p < h.next, h'.size p = h.size p

@[simp] theorem size_alloc_self (h : Heap) (size : Nat) : (h.alloc size).size h.next = size :=
  Function.update_self ..

theorem Grows.refl (h : Heap) : h.Grows h := ⟨le_rfl, rfl, fun _ _ => rfl⟩

theorem Grows.trans {h h' h'' : Heap} (a : h.Grows h') (b : h'.Grows h'') : h.Grows h'' where
  next := a.next.trans b.next
  freed := b.freed.trans a.freed
  size p hp := (b.size p (hp.trans_le a.next)).trans (a.size p hp)

theorem grows_alloc (h : Heap) (size : Nat) : h.Grows (h.alloc size) where
  next := Nat.le_succ _
  freed := rfl
  size _ hp := Function.update_of_ne (Nat.ne_of_lt hp) _ _

/-- Only what has been allocated is freed. -/
def FreedBelow (h : Heap) : Prop := ∀ p ∈ h.freed, p < h.next

theorem FreedBelow.grows {h h' : Heap} (hf : h.FreedBelow) (hg : h.Grows h') : h'.FreedBelow := by
  intro p hp
  rw [hg.freed] at hp
  exact (hf p hp).trans_le hg.next

end Heap

namespace BufferSet

/-- The buffers of the set are allocated, not freed, and of its size at least. -/
def Backed (h : Heap) (set : BufferSet) : Prop :=
  ∀ b < bufsPerSet, ∀ p, set.bufs b = some p →
    p < h.next ∧ p ∉ h.freed ∧ set.bufSize ≤ h.size p

theorem Backed.grows {h h' : Heap} {set : BufferSet} (hs : set.Backed h) (hg : h.Grows h') :
    set.Backed h' := by
  intro b hb p hp
  obtain ⟨hlt, hfree, hsize⟩ := hs b hb p hp
  refine ⟨hlt.trans_le hg.next, ?_, ?_⟩
  · rwa [hg.freed]
  · rwa [hg.size p hlt]

/-- A set stays backed when a new buffer, large enough, is put into it. -/
theorem Backed.set {h : Heap} {set : BufferSet} (hs : set.Backed h) (hf : h.FreedBelow)
    {size : Nat} (hsize : set.bufSize ≤ size) (b : Nat) (hp : Bool) :
    Backed (h.alloc size)
      { set with bufs := Function.update set.bufs b (some h.next), hugepage := hp } := by
  intro b' hb' p hbuf
  by_cases hbb : b' = b
  · subst hbb
    dsimp only at hbuf
    rw [Function.update_self] at hbuf
    cases hbuf
    refine ⟨Nat.lt_succ_self _, fun hmem => absurd (hf _ hmem) (lt_irrefl _), ?_⟩
    rwa [Heap.size_alloc_self]
  · dsimp only at hbuf
    rw [Function.update_of_ne hbb] at hbuf
    exact (hs.grows (h.grows_alloc size)) b' hb' p hbuf

theorem mem_buffers {set : BufferSet} {x : Option Nat} :
    x ∈ set.buffers ↔ ∃ b < bufsPerSet, set.bufs b = x := by
  simp [buffers]

@[simp] theorem length_buffers (set : BufferSet) : set.buffers.length = bufsPerSet := by
  simp [buffers]

end BufferSet

/-- Unless it is zero, `hp_size` is no less than the size. -/
theorem le_hpSizeOf {bufSize : Nat} (hlt : bufSize < wordSize) (h : hpSizeOf bufSize ≠ 0) :
    bufSize ≤ hpSizeOf bufSize := by
  unfold hpSizeOf word at h ⊢
  by_cases hw : bufSize + (2 * 1024 * 1024 - 1) < wordSize
  · rw [Nat.mod_eq_of_lt hw]
    omega
  · -- the sum has wrapped, to less than one page
    have hmod : (bufSize + (2 * 1024 * 1024 - 1)) % wordSize < 2 * 1024 * 1024 := by
      rw [Nat.mod_eq_sub_mod (not_lt.mp hw), Nat.mod_eq_of_lt (by unfold wordSize at *; omega)]
      omega
    rw [Nat.div_eq_of_lt hmod] at h
    simp at h

/-- The buffers allocated for a set leave it backed, complete or not. -/
theorem allocBufs_spec {o : Nat → Allocation} {bs : List Nat} {h : Heap} {set : BufferSet}
    (hs : set.Backed h) (hf : h.FreedBelow) (hhp : set.hpSize ≠ 0 → set.bufSize ≤ set.hpSize) :
    h.Grows (allocBufs o bs h set).1 ∧
      (allocBufs o bs h set).2.1.Backed (allocBufs o bs h set).1 := by
  induction bs generalizing h set with
  | nil => exact ⟨.refl h, hs⟩
  | cons b bs ih =>
    unfold allocBufs
    split_ifs with hhuge hfail
    · have hg := h.grows_alloc set.hpSize
      have hback := hs.set hf (hhp hhuge.2) b true
      exact (ih hback (hf.grows hg) hhp).imp_left hg.trans
    · exact ⟨.refl h, hs⟩
    · have hg := h.grows_alloc set.bufSize
      have hback := hs.set hf le_rfl b false
      exact (ih hback (hf.grows hg) hhp).imp_left hg.trans

/-- The sets are backed, in a heap where only what has been allocated is freed. -/
structure SetsBacked (h : Heap) (sets : Nat → BufferSet) : Prop where
  backed : ∀ i, (sets i).Backed h
  freed : h.FreedBelow

/-- The loop over the sets touches only the sets of the loop, and needs them without buffers. -/
theorem initSets_spec {bufSize : Nat} {o : Nat → Nat → Allocation} (hlt : bufSize < wordSize)
    {l : List Nat} (hnd : l.Nodup) {r : Heap × (Nat → BufferSet) × Nat}
    (hr : SetsBacked r.1 r.2.1) (hnull : ∀ i ∈ l, ∀ b < bufsPerSet, (r.2.1 i).bufs b = none) :
    SetsBacked (l.foldl (initSet bufSize o) r).1 (l.foldl (initSet bufSize o) r).2.1 ∧
      ∀ i ∉ l, (l.foldl (initSet bufSize o) r).2.1 i = r.2.1 i := by
  induction l generalizing r with
  | nil => exact ⟨hr, fun _ _ => rfl⟩
  | cons s l ih =>
    obtain ⟨hs, hnd⟩ := List.nodup_cons.mp hnd
    set set : BufferSet :=
      { r.2.1 s with bufSize := bufSize, hpSize := hpSizeOf bufSize, inUse := false } with hset
    have hback : set.Backed r.1 := fun b hb p hp => by
      cases (hnull s List.mem_cons_self b hb).symm.trans hp
    obtain ⟨hgrow, hback'⟩ := @allocBufs_spec (o s) (List.range bufsPerSet) _ _ hback hr.freed
      (le_hpSizeOf hlt)
    have hstep : SetsBacked (initSet bufSize o r s).1 (initSet bufSize o r s).2.1 := by
      refine ⟨fun i => ?_, hr.freed.grows hgrow⟩
      by_cases hi : i = s
      · subst hi
        simpa only [initSet, Function.update_self] using hback'
      · simpa only [initSet, Function.update_of_ne hi] using (hr.backed i).grows hgrow
    have hother : ∀ i ≠ s, (initSet bufSize o r s).2.1 i = r.2.1 i :=
      fun i hi => Function.update_of_ne hi _ _
    have hnull' : ∀ i ∈ l, ∀ b < bufsPerSet, ((initSet bufSize o r s).2.1 i).bufs b = none := by
      intro i hi b hb
      rw [hother i fun h => hs (h ▸ hi)]
      exact hnull i (List.mem_cons_of_mem _ hi) b hb
    obtain ⟨hall, hrest⟩ := ih hnd hstep hnull'
    refine ⟨hall, fun i hi => ?_⟩
    obtain ⟨his, hil⟩ := not_or.mp (mt List.mem_cons.mpr hi)
    exact (hrest i hil).trans (hother i his)

namespace StagingPool

/-- The invariant of the pool: its sets are backed, and a set that is not one of an initialised
pool has no buffers. -/
structure Sound (p : StagingPool) (h : Heap) : Prop extends SetsBacked h p.sets where
  null : ∀ i, ¬ (p.initialized = true ∧ i < p.numSets) → ∀ b < bufsPerSet, (p.sets i).bufs b = none

variable {p : StagingPool} {h : Heap}

theorem sound_new (size : Nat → Nat) : Sound .new ⟨0, size, []⟩ where
  backed _ _ _ _ hp := by cases hp
  freed _ hp := (List.not_mem_nil hp).elim
  null _ _ _ _ := rfl

theorem Sound.init (hp : p.Sound h) (numGpus : Int) {bufSize : Nat} (hlt : bufSize < wordSize)
    (o : Nat → Nat → Allocation) :
    (p.init h numGpus bufSize o).1.Sound (p.init h numGpus bufSize o).2.1 := by
  unfold StagingPool.init
  by_cases hi : p.initialized = true
  · rw [if_pos hi]
    exact hp
  · rw [if_neg hi]
    have hnull : ∀ i, ∀ b < bufsPerSet, (p.sets i).bufs b = none :=
      fun i => hp.null i fun hc => hi hc.1
    obtain ⟨hsets, hrest⟩ := initSets_spec (o := o) hlt List.nodup_range (r := (h, p.sets, 0))
      hp.toSetsBacked fun i _ => hnull i
    refine ⟨hsets, fun i hc b hb => ?_⟩
    dsimp only at hc ⊢
    rw [hrest i fun hmem => hc ⟨rfl, List.mem_range.mp hmem⟩]
    exact hnull i b hb

@[simp] theorem setInUse_bufs (s i : Nat) (u : Bool) :
    ((p.setInUse s u).sets i).bufs = (p.sets i).bufs := by
  unfold setInUse
  by_cases hi : i = s
  · subst hi
    simp
  · simp [Function.update_of_ne hi]

@[simp] theorem setInUse_bufSize (s i : Nat) (u : Bool) :
    ((p.setInUse s u).sets i).bufSize = (p.sets i).bufSize := by
  unfold setInUse
  by_cases hi : i = s
  · subst hi
    simp
  · simp [Function.update_of_ne hi]

theorem setInUse_inUse_self (s : Nat) (u : Bool) : ((p.setInUse s u).sets s).inUse = u := by
  simp [setInUse]

theorem setInUse_sets_of_ne {s i : Nat} (u : Bool) (hi : i ≠ s) :
    (p.setInUse s u).sets i = p.sets i := Function.update_of_ne hi _ _

theorem Sound.setInUse (hp : p.Sound h) (s : Nat) (u : Bool) : (p.setInUse s u).Sound h where
  backed i b hb q hq := by
    rw [setInUse_bufs] at hq
    rw [setInUse_bufSize]
    exact hp.backed i b hb q hq
  freed := hp.freed
  null i hc b hb := by
    rw [setInUse_bufs]
    exact hp.null i hc b hb

theorem Sound.shutdown (hp : p.Sound h) : (p.shutdown h).1.Sound (p.shutdown h).2 := by
  unfold StagingPool.shutdown
  split_ifs with hi
  · -- no set has a buffer any more
    have hnull : ∀ i, ∀ b < bufsPerSet, (if i < p.numSets then
        { p.sets i with bufs := fun b => if b < bufsPerSet then none else (p.sets i).bufs b }
        else p.sets i).bufs b = none := by
      intro i b hb
      split_ifs with hlt
      · exact if_pos hb
      · exact hp.null i (fun hc => hlt hc.2) b hb
    refine ⟨⟨fun i b hb q hq => ?_, fun q hq => ?_⟩, fun i _ => hnull i⟩
    · cases (hnull i b hb).symm.trans hq
    · rcases List.mem_append.mp hq with hq | hq
      · exact hp.freed q hq
      · obtain ⟨i, -, hq⟩ := List.mem_flatMap.mp hq
        obtain ⟨x, hx, rfl⟩ := List.mem_filterMap.mp hq
        obtain ⟨b, hb, hbuf⟩ := BufferSet.mem_buffers.mp hx
        exact (hp.backed i b hb q hbuf).1
  · exact hp

/-- What `acquire_buffers` finds is free and large enough. -/
theorem find_spec {required i : Nat} (hf : p.find required = some i) :
    p.initialized = true ∧ i < p.numSets ∧ (p.sets i).inUse = false ∧
      required ≤ (p.sets i).bufSize := by
  unfold find at hf
  split_ifs at hf with hinit
  have hmem := List.mem_of_find?_eq_some hf
  have hok := List.find?_some hf
  simp only [Bool.and_eq_true, Bool.not_eq_true', decide_eq_true_eq] at hok
  exact ⟨hinit, List.mem_range.mp hmem, hok⟩

/-- `shutdown` frees every buffer of an initialised pool. -/
theorem freed_shutdown (hi : p.initialized = true) {i : Nat} (hlt : i < p.numSets) {b q : Nat}
    (hb : b < bufsPerSet) (hq : (p.sets i).bufs b = some q) : q ∈ (p.shutdown h).2.freed := by
  unfold shutdown
  rw [if_pos hi]
  refine List.mem_append_right _ (List.mem_flatMap.mpr ⟨i, List.mem_range.mpr hlt, ?_⟩)
  exact List.mem_filterMap.mpr ⟨some q, BufferSet.mem_buffers.mpr ⟨b, hb, hq⟩, rfl⟩

end StagingPool

/-! ## Every run -/

/-- What holds of a lease as long as nobody is careless. -/
structure Lease.Good (p : StagingPool) (l : Lease) : Prop where
  initialized : p.initialized = true
  set_lt : l.set < p.numSets
  inUse : (p.sets l.set).inUse = true
  buffers : l.buffers = (p.sets l.set).buffers
  required : l.required ≤ (p.sets l.set).bufSize
  complete : ∀ b < bufsPerSet, (p.sets l.set).bufs b ≠ none
  told : ∀ g, l.got = some g → g.1 = l.buffers

/-- The invariant of a careful run. -/
structure Valid (s : State) : Prop where
  sound : s.pool.Sound s.heap
  good : ∀ who l, s.lease who = some l → l.Good s.pool
  exclusive : ∀ who who' l l', s.lease who = some l → s.lease who' = some l' → l.set = l'.set →
    who = who'

theorem valid_init : Valid init where
  sound := StagingPool.sound_new _
  good _ _ h := by cases h
  exclusive _ _ _ _ h := by cases h

/-- The invariant gives the ownership. -/
theorem Valid.owned {s : State} (hv : Valid s) : Owned s where
  complete who l hl := by
    have hg := hv.good who l hl
    refine ⟨by rw [hg.buffers, BufferSet.length_buffers], fun x hx => ?_⟩
    rw [hg.buffers] at hx
    obtain ⟨b, hb, rfl⟩ := BufferSet.mem_buffers.mp hx
    obtain ⟨p, hp⟩ := Option.ne_none_iff_exists'.mp (hg.complete b hb)
    exact ⟨p, hp, hg.required.trans (hv.sound.backed _ b hb p hp).2.2⟩
  exclusive := hv.exclusive
  live who l hl p hp := by
    have hg := hv.good who l hl
    rw [hg.buffers] at hp
    obtain ⟨b, hb, hp⟩ := BufferSet.mem_buffers.mp hp
    exact (hv.sound.backed _ b hb p hp).2.1
  marked who l hl := (hv.good who l hl).inUse
  told who l g hl := (hv.good who l hl).told g

section
variable {s t : State}

/-- A lease is good as long as its set does not change. -/
theorem Lease.Good.congr {p p' : StagingPool} {l : Lease} (hg : l.Good p)
    (hi : p'.initialized = p.initialized) (hn : p'.numSets = p.numSets)
    (hs : p'.sets l.set = p.sets l.set) : l.Good p' where
  initialized := hi.trans hg.initialized
  set_lt := hn ▸ hg.set_lt
  inUse := hs ▸ hg.inUse
  buffers := hs ▸ hg.buffers
  required := hs ▸ hg.required
  complete := hs ▸ hg.complete
  told := hg.told

/-- A pool that is initialised stays as it is, and one that is not has no holders. -/
theorem valid_initPool (hv : Valid s) {numGpus : Int} {bufSize : Fin wordSize}
    {o : Nat → Nat → Allocation} (hs : step s (.init numGpus bufSize o) = some t) : Valid t := by
  cases hs
  refine ⟨hv.sound.init numGpus bufSize.isLt o, fun who l hl => ?_, hv.exclusive⟩
  have hg := hv.good who l hl
  have hsame : (s.pool.init s.heap numGpus bufSize o).1 = s.pool := by
    rw [StagingPool.init, if_pos hg.initialized]
  dsimp only
  rw [hsame]
  exact hg

/-- A new lease is of a set that nobody holds, and leaves the other leases alone. -/
theorem valid_acquire (hv : Valid s) {who required : Nat} (hc : Careful s (.acquire who required))
    (hs : step s (.acquire who required) = some t) : Valid t := by
  simp only [step] at hs
  cases hfree : s.lease who with
  | some l => rw [hfree] at hs; cases hs
  | none =>
    rw [hfree] at hs
    cases hs
    cases hfind : s.pool.find required with
    | none =>
      simp only [StagingPool.acquireBuffers, hfind, Option.map_none]
      rw [← hfree, Function.update_eq_self]
      exact hv
    | some i =>
      obtain ⟨hinit, hlt, huse, hreq⟩ := StagingPool.find_spec hfind
      have hnot : ∀ w l, s.lease w = some l → l.set ≠ i := by
        rintro w l hl rfl
        cases (hv.good w l hl).inUse.symm.trans huse
      simp only [StagingPool.acquireBuffers, hfind, Option.map_some]
      have hcase : ∀ w l, Function.update s.lease who
          (some ⟨i, required, (s.pool.sets i).buffers, none⟩) w = some l →
          w = who ∧ l = ⟨i, required, (s.pool.sets i).buffers, none⟩ ∨
            w ≠ who ∧ s.lease w = some l := by
        intro w l hl
        by_cases hw : w = who
        · subst hw
          rw [Function.update_self] at hl
          exact .inl ⟨rfl, (Option.some.inj hl).symm⟩
        · rw [Function.update_of_ne hw] at hl
          exact .inr ⟨hw, hl⟩
      refine ⟨hv.sound.setInUse i true, fun w l hl => ?_, fun w w' l l' hl hl' heq => ?_⟩
      · rcases hcase w l hl with ⟨-, rfl⟩ | ⟨-, hl⟩
        · refine ⟨hinit, hlt, StagingPool.setInUse_inUse_self i true, ?_, ?_, ?_, ?_⟩
          · simp [BufferSet.buffers]
          · simpa using hreq
          · simpa using hc i hfind
          · intro g hg
            cases hg
        · exact (hv.good w l hl).congr rfl rfl (StagingPool.setInUse_sets_of_ne _ (hnot w l hl))
      · rcases hcase w l hl with ⟨hw, rfl⟩ | ⟨-, hold⟩ <;>
          rcases hcase w' l' hl' with ⟨hw', rfl⟩ | ⟨-, hold'⟩
        · exact hw.trans hw'.symm
        · exact absurd heq.symm (hnot w' l' hold')
        · exact absurd heq (hnot w l hold)
        · exact hv.exclusive w w' l l' hold hold' heq

theorem valid_get (hv : Valid s) {who : Nat} (hs : step s (.get who) = some t) : Valid t := by
  simp only [step, Option.map_eq_some_iff] at hs
  obtain ⟨l, hl, rfl⟩ := hs
  have hg := hv.good who l hl
  have hcase : ∀ w l', Function.update s.lease who
      (some { l with got := s.pool.getBuffers l.set }) w = some l' →
      ∃ l₀, s.lease w = some l₀ ∧ l'.set = l₀.set ∧ l'.Good s.pool := by
    intro w l' hl'
    by_cases hw : w = who
    · subst hw
      rw [Function.update_self] at hl'
      cases hl'
      refine ⟨l, hl, rfl, { hg with told := fun g hgot => ?_ }⟩
      dsimp only at hgot
      rw [StagingPool.getBuffers, if_pos hg.set_lt] at hgot
      cases hgot
      exact hg.buffers.symm
    · rw [Function.update_of_ne hw] at hl'
      exact ⟨l', hl', rfl, hv.good w l' hl'⟩
  refine ⟨hv.sound, fun w l' hl' => ?_, fun w w' l₁ l₂ h₁ h₂ heq => ?_⟩
  · obtain ⟨-, -, -, hgood⟩ := hcase w l' hl'
    exact hgood
  · obtain ⟨m₁, hm₁, hs₁, -⟩ := hcase w l₁ h₁
    obtain ⟨m₂, hm₂, hs₂, -⟩ := hcase w' l₂ h₂
    exact hv.exclusive w w' m₁ m₂ hm₁ hm₂ (hs₁.symm.trans (heq.trans hs₂))

/-- Only the set of the lease that is given up is marked free. -/
theorem valid_release (hv : Valid s) {who : Nat} (hs : step s (.release who) = some t) :
    Valid t := by
  simp only [step, Option.map_eq_some_iff] at hs
  obtain ⟨l, hl, rfl⟩ := hs
  have hcase : ∀ w l', Function.update s.lease who none w = some l' →
      w ≠ who ∧ s.lease w = some l' := by
    intro w l' hl'
    by_cases hw : w = who
    · subst hw
      rw [Function.update_self] at hl'
      cases hl'
    · rw [Function.update_of_ne hw] at hl'
      exact ⟨hw, hl'⟩
  rw [StagingPool.releaseBuffers, if_pos (hv.good who l hl).set_lt]
  refine ⟨hv.sound.setInUse l.set false, fun w l' hl' => ?_, fun w w' l₁ l₂ h₁ h₂ heq => ?_⟩
  · obtain ⟨hw, hl'⟩ := hcase w l' hl'
    have hne : l'.set ≠ l.set := fun he => hw (hv.exclusive w who l' l hl' hl he)
    exact (hv.good w l' hl').congr rfl rfl (StagingPool.setInUse_sets_of_ne _ hne)
  · exact hv.exclusive w w' l₁ l₂ (hcase w l₁ h₁).2 (hcase w' l₂ h₂).2 heq

/-- A pool without holders may be shut down. -/
theorem valid_shutdown (hv : Valid s) (hc : Careful s .shutdown)
    (hs : step s .shutdown = some t) : Valid t := by
  cases hs
  by_cases hi : s.pool.initialized = true
  · refine ⟨hv.sound.shutdown, fun w l hl => ?_, hv.exclusive⟩
    cases (hc hi w).symm.trans hl
  · simp only [StagingPool.shutdown, if_neg hi]
    exact hv

theorem valid_step {a : Act} (hv : Valid s) (hc : Careful s a) (hs : step s a = some t) :
    Valid t := by
  cases a with
  | init numGpus bufSize o => exact valid_initPool hv hs
  | acquire who required => exact valid_acquire hv hc hs
  | get who => exact valid_get hv hs
  | release who => exact valid_release hv hs
  | shutdown => exact valid_shutdown hv hc hs

/-- Handing out a set that lacks a buffer, or shutting the pool down under a holder, ends the
ownership. -/
theorem not_owned_of_careless {a : Act} (hv : Valid s) (hc : ¬ Careful s a)
    (hs : step s a = some t) : ¬ Owned t := by
  intro ho
  cases a with
  | init _ _ _ => exact hc trivial
  | get _ => exact hc trivial
  | release _ => exact hc trivial
  | acquire who required =>
    simp only [Careful, not_forall, not_not] at hc
    obtain ⟨i, hfind, b, hb, hnull⟩ := hc
    simp only [step] at hs
    cases hfree : s.lease who with
    | some l => rw [hfree] at hs; cases hs
    | none =>
      rw [hfree] at hs
      cases hs
      have hlease := ho.complete who ⟨i, required, (s.pool.sets i).buffers, none⟩
        (by simp [StagingPool.acquireBuffers, hfind])
      obtain ⟨p, hp, -⟩ := hlease.2 none (BufferSet.mem_buffers.mpr ⟨b, hb, hnull⟩)
      cases hp
  | shutdown =>
    simp only [Careful, not_forall] at hc
    obtain ⟨hi, who, hheld⟩ := hc
    obtain ⟨l, hl⟩ := Option.ne_none_iff_exists'.mp hheld
    cases hs
    have hg := hv.good who l hl
    obtain ⟨p, hp⟩ := Option.ne_none_iff_exists'.mp (hg.complete 0 (by decide))
    have hmem : some p ∈ l.buffers := by
      rw [hg.buffers]
      exact BufferSet.mem_buffers.mpr ⟨0, by decide, hp⟩
    exact ho.live who l hl p hmem
      (StagingPool.freed_shutdown hi hg.set_lt (by decide) hp)

/-- **When a call keeps the ownership**: exactly the careful calls do. -/
theorem owned_step_iff {a : Act} (hv : Valid s) (hs : step s a = some t) :
    Owned t ↔ Careful s a :=
  ⟨fun ho => by_contra fun hc => not_owned_of_careless hv hc hs ho,
    fun hc => (valid_step hv hc hs).owned⟩

end

/-- **The pool's leases are owned**, in every state of a run whose calls are careful: whatever
allocations fail, whoever acquires and releases in whatever order, and however often the pool is
initialised again. -/
theorem owned_of_reachable {s : State} (h : Reachable step Careful (· = init) s) : Owned s := by
  have hv : Valid s := by
    refine h.invariant (fun _ h0 => ?_) fun _ _ _ hv hc hs => valid_step hv hc hs
    exact h0 ▸ valid_init
  exact hv.owned

/-! ## Two sessions and one pool -/

theorem bufferSize_lt : 65536 < wordSize := by decide

/-- Two buffer sets of 64KB, all of them huge pages. -/
private def twoSets : Act := .init 2 ⟨65536, bufferSize_lt⟩ fun _ _ => .hugepage

/-- What a run leaves: whose sets are which, with their buffers, and what has been freed. -/
private structure Leases where
  first : Option (Nat × List (Option Nat))
  second : Option (Nat × List (Option Nat))
  freed : List Nat
  deriving DecidableEq

private def leases (s : State) : Leases where
  first := (s.lease 0).map fun l => (l.set, l.buffers)
  second := (s.lease 1).map fun l => (l.set, l.buffers)
  freed := s.heap.freed

/-- Careful calls that show it at once: a complete set, and no pool to shut down. -/
private def plainly (s : State) : Act → Bool
  | .acquire _ required => match s.pool.find required with
    | some i => (s.pool.sets i).buffers.all Option.isSome
    | none => true
  | .shutdown => !s.pool.initialized
  | _ => true

private theorem careful_of_plainly (s : State) (a : Act) (h : plainly s a = true) :
    Careful s a := by
  cases a with
  | init _ _ _ => trivial
  | get _ => trivial
  | release _ => trivial
  | acquire who required =>
    intro i hfind b hb hnull
    simp only [plainly, hfind, List.all_eq_true] at h
    exact absurd (h none (BufferSet.mem_buffers.mpr ⟨b, hb, hnull⟩)) (by simp)
  | shutdown =>
    intro hi
    simp [plainly, hi] at h

/-- Two holders acquire, the first releases its set, and the second still owns its own. -/
theorem owned_of_reachable_two : ∃ s, Owned s ∧
    leases s = ⟨none, some (1, [some 5, some 6, some 7, some 8, some 9]), []⟩ := by
  have hrun : (runWhile step (fun s a => plainly s a = true) init
      [.shutdown, twoSets, .acquire 0 4096, .acquire 1 65536, .get 1, .release 0]).map leases =
      some ⟨none, some (1, [some 5, some 6, some 7, some 8, some 9]), []⟩ := by decide +kernel
  obtain ⟨s, hs, hl⟩ := Option.map_eq_some_iff.mp hrun
  exact ⟨s, owned_of_reachable ((Reachable.self init).runWhile_of careful_of_plainly hs), hl⟩

/-- The destructor of a session that holds nothing shuts the pool down, and frees the buffers that
another session's poller holds. -/
theorem exists_freed_held : ∃ s, Reachable step Always (· = init) s ∧ ¬ Owned s := by
  have hrun : (run step init [twoSets, .acquire 0 65536, .shutdown]).map leases =
      some ⟨some (0, [some 0, some 1, some 2, some 3, some 4]), none,
        [0, 1, 2, 3, 4, 5, 6, 7, 8, 9]⟩ := by decide +kernel
  obtain ⟨s, hs, hl⟩ := Option.map_eq_some_iff.mp hrun
  refine ⟨s, (Reachable.self init).run_always hs, fun ho => ?_⟩
  obtain ⟨l, hlease, hb⟩ := Option.map_eq_some_iff.mp (congrArg Leases.first hl)
  obtain ⟨-, hbuf⟩ := Prod.ext_iff.mp hb
  have hmem : some 0 ∈ l.buffers := (show l.buffers = _ from hbuf) ▸ by decide
  have hfreed : s.heap.freed = _ := congrArg Leases.freed hl
  exact ho.live 0 l hlease 0 hmem (hfreed ▸ by decide)

end Gfd.Staging
