import GfdProof.Descriptor
import GfdProof.RadixSort

/-! # What a batch is turned into

The pure part of `process_batch`, `process_batch_tiled` and `process_batch_sg`:
from the descriptors of a batch to the scatter-gather entries that are submitted,
without the submissions themselves.

Addresses are 64-bit words; sums of addresses that the source computes are
reduced.  Byte counts (`size_t`) stay far below `2^64`, since a batch has at most
`MAX_BATCH_SIZE` entries of at most `2^32` bytes.
-/
namespace Gfd

/-- A pointer into host memory: an address of the user's memory, or an offset
into a staging buffer. -/
inductive HostPtr
  | user (addr : Nat)
  | staging (buf off : Nat)
  deriving DecidableEq, Repr

/-- `(const char*)p + n` -/
def HostPtr.plus : HostPtr → Nat → HostPtr
  | .user a, n => .user (word (a + n))
  | .staging b off, n => .staging b (off + n)

/-- `(uintptr_t)p`, for a pointer into the user's memory. -/
def HostPtr.addr : HostPtr → Nat
  | .user a => a
  | .staging _ off => off

structure SGEntry where
  dst : Nat
  src : HostPtr
  size : Nat
  deriving DecidableEq, Repr

instance : Inhabited SGEntry := ⟨⟨0, .user 0, 0⟩⟩

/-- The entry of one descriptor. -/
def Descriptor.entry (d : Descriptor) : SGEntry := ⟨d.dstAddr, .user d.srcAddr, d.size⟩

/-- `e` starts where `prev` ends, in the destination. -/
def SGEntry.dContig (prev e : SGEntry) : Bool := e.dst == word (prev.dst + prev.size)

/-- `e` starts where `prev` ends, in the source. -/
def SGEntry.sContig (prev e : SGEntry) : Bool := e.src == prev.src.plus prev.size

/-- Every entry starts where the one before it ends, in both. -/
def contiguous : List SGEntry → Bool
  | [] => true
  | [_] => true
  | e :: e' :: es => e.dContig e' && e.sContig e' && contiguous (e' :: es)

def totalSize (es : List SGEntry) : Nat := (es.map SGEntry.size).sum

/-- One entry for the whole of a contiguous list. -/
def mergeAll : List SGEntry → SGEntry
  | [] => default
  | e :: es => { e with size := totalSize (e :: es) }

/-! ## `process_batch` -/

/-- `dst_contiguous`, from the entry after the first on. -/
def dstContiguousFrom (entrySize expected : Nat) : List SGEntry → Bool
  | [] => true
  | e :: es =>
    e.dst == expected && e.size == entrySize &&
      dstContiguousFrom entrySize (word (expected + entrySize)) es

def dstContiguous : List SGEntry → Bool
  | [] => true
  | e :: es => dstContiguousFrom e.size (word (e.dst + e.size)) es

def srcContiguous : List SGEntry → Bool
  | [] => true
  | [_] => true
  | e :: e' :: es => e.sContig e' && srcContiguous (e' :: es)

/-- Merge neighbours that continue one another; `prev` is the entry being extended. -/
def coalesceFrom (prev : SGEntry) : List SGEntry → List SGEntry
  | [] => [prev]
  | e :: es =>
    if prev.dContig e && prev.sContig e then
      coalesceFrom { prev with size := prev.size + e.size } es
    else prev :: coalesceFrom e es

def coalesce : List SGEntry → List SGEntry
  | [] => []
  | e :: es => coalesceFrom e es

/-- `min_dst` -/
def minDst : List SGEntry → Nat
  | [] => 0
  | e :: es => es.foldl (fun m e => if e.dst < m then e.dst else m) e.dst

/-- `max_dst_end` -/
def maxDstEnd : List SGEntry → Nat
  | [] => 0
  | e :: es =>
    es.foldl (fun m e => if word (e.dst + e.size) > m then word (e.dst + e.size) else m)
      (word (e.dst + e.size))

/-- The run from `start`, as an entry of staging buffer `buf`. -/
def stagedRun (buf base start size : Nat) : SGEntry := ⟨start, .staging buf (subWord start base), size⟩

/-- Merge destination neighbours into runs; the run from `start` is being extended. -/
def runsFrom (buf base start size : Nat) : List SGEntry → List SGEntry
  | [] => [stagedRun buf base start size]
  | e :: es =>
    if e.dst == word (start + size) then runsFrom buf base start (size + e.size) es
    else stagedRun buf base start size :: runsFrom buf base e.dst e.size es

def runs (buf base : Nat) : List SGEntry → List SGEntry
  | [] => []
  | e :: es => runsFrom buf base e.dst e.size es

def stagingThreshold : Nat := 32

/-- What `process_batch` does with a batch: submit entries, or gather entries
into the current staging buffer, relative to `base`, and submit what lies
there. -/
inductive Plan
  | direct (entries : List SGEntry)
  | staged (entries : List SGEntry) (base : Nat) (runs : List SGEntry)
  deriving DecidableEq, Repr

/-- The staging buffers `process_batch` can use. -/
structure Staging where
  /-- `num_staging_bufs_`, at most `NUM_STAGING_BUFS`. -/
  bufs : Nat
  /-- `staging_buffer_size_` -/
  size : Nat
  deriving DecidableEq, Repr

/-- The generic path of `process_batch`: radix sort, coalesce, and staging if
that leaves many entries. -/
def genericPlan (std : StdSort SGEntry) (st : Staging) (buf : Nat) (entries : List SGEntry) : Plan :=
  let coalesced := coalesce (radixSort std (fun e => e.src.addr) entries)
  if stagingThreshold < coalesced.length ∧ 0 < st.bufs ∧
      subWord (maxDstEnd coalesced) (minDst coalesced) ≤ st.size then
    let base := minDst coalesced
    .staged coalesced base (runs buf base (radixSort std SGEntry.dst coalesced))
  else .direct coalesced

/-- `process_batch`, with `buf = staging_cur_`. -/
def batchPlan (std : StdSort SGEntry) (st : Staging) (buf : Nat) (batch : List Descriptor) : Plan :=
  match batch.map Descriptor.entry with
  | [] => .direct []
  | [e] => .direct [e]
  | e :: es =>
    if dstContiguous (e :: es) ∧ 0 < st.bufs then
      if srcContiguous (e :: es) then .direct [{ e with size := (e :: es).length * e.size }]
      else if (e :: es).length * e.size ≤ st.size then
        .staged (e :: es) e.dst [⟨e.dst, .staging buf 0, (e :: es).length * e.size⟩]
      else genericPlan std st buf (e :: es)
    else genericPlan std st buf (e :: es)

/-- The entries a plan submits. -/
def Plan.submitted : Plan → List SGEntry
  | .direct es => es
  | .staged _ _ rs => rs

theorem coalesceFrom_ne_nil (prev : SGEntry) (es : List SGEntry) : coalesceFrom prev es ≠ [] := by
  induction es generalizing prev with
  | nil => simp [coalesceFrom]
  | cons e es ih =>
    rw [coalesceFrom]
    split
    · exact ih _
    · exact List.cons_ne_nil _ _

theorem coalesce_ne_nil {es : List SGEntry} (h : es ≠ []) : coalesce es ≠ [] := by
  cases es with
  | nil => exact absurd rfl h
  | cons e es => exact coalesceFrom_ne_nil e es

theorem runsFrom_ne_nil (buf base start size : Nat) (es : List SGEntry) :
    runsFrom buf base start size es ≠ [] := by
  induction es generalizing start size with
  | nil => simp [runsFrom]
  | cons e es ih =>
    rw [runsFrom]
    split
    · exact ih _ _
    · exact List.cons_ne_nil _ _

theorem runs_ne_nil {buf base : Nat} {es : List SGEntry} (h : es ≠ []) : runs buf base es ≠ [] := by
  cases es with
  | nil => exact absurd rfl h
  | cons e es => exact runsFrom_ne_nil _ _ _ _ _

theorem radixSort_ne_nil {std : StdSort SGEntry} {key : SGEntry → Nat} {es : List SGEntry}
    (h : es ≠ []) : radixSort std key es ≠ [] := fun hnil => by
  have := (radixSort_perm std key es).length_eq
  rw [hnil] at this
  exact h (List.eq_nil_of_length_eq_zero this.symm)

theorem genericPlan_submitted_ne_nil (std : StdSort SGEntry) (st : Staging) (buf : Nat)
    {es : List SGEntry} (h : es ≠ []) : (genericPlan std st buf es).submitted ≠ [] := by
  have hsort : radixSort std (fun e => e.src.addr) es ≠ [] := radixSort_ne_nil h
  have hc := coalesce_ne_nil hsort
  unfold genericPlan
  dsimp only
  split
  · exact runs_ne_nil (radixSort_ne_nil hc)
  · exact hc

/-- Something is submitted for every batch. -/
theorem batchPlan_submitted_ne_nil (std : StdSort SGEntry) (st : Staging) (buf : Nat)
    {batch : List Descriptor} (h : batch ≠ []) : (batchPlan std st buf batch).submitted ≠ [] := by
  unfold batchPlan
  split
  · rename_i hnil
    exact absurd (List.map_eq_nil_iff.mp hnil) h
  · exact List.cons_ne_nil _ _
  · split
    · split
      · exact List.cons_ne_nil _ _
      · split
        · exact List.cons_ne_nil _ _
        · exact genericPlan_submitted_ne_nil std st buf (List.cons_ne_nil _ _)
    · exact genericPlan_submitted_ne_nil std st buf (List.cons_ne_nil _ _)

/-! ## Grouping by tile or by list -/

/-- The bucket tables while the descriptors are counted: `bucket_map_storage`,
`active_tile_ids` and `tile_entry_counts` (`sg_bucket_map`, `active_list_ids` and
`list_entry_counts`). -/
structure Buckets where
  map : Nat → Option Nat
  active : List Nat
  counts : Nat → Nat

namespace Buckets

/-- Count one descriptor, opening a bucket for its id if there is none. -/
def count (t : Buckets) (id : Nat) : Buckets :=
  match t.map id with
  | some b => { t with counts := Function.update t.counts b (t.counts b + 1) }
  | none =>
    { map := Function.update t.map id (some t.active.length)
      active := t.active ++ [id]
      counts := Function.update t.counts t.active.length (t.counts t.active.length + 1) }

end Buckets

/-- The groups of a batch in order of first appearance, each with its descriptors
in order, and the bucket map that is left for the next call.  Ids from `bound`
on are skipped. -/
def groupBatch (bound : Nat) (map : Nat → Option Nat) (batch : List Descriptor) :
    List (Nat × List Descriptor) × (Nat → Option Nat) :=
  let kept := batch.filter fun d => d.group < bound
  let t : Buckets := kept.foldl (fun t d => t.count d.group) ⟨map, [], fun _ => 0⟩
  let offsets := BucketScatter.offsets t.counts
  let flat := BucketScatter.scatter (fun d => (t.map d.group).getD 0) kept offsets fun _ => default
  (t.active.zipIdx.map fun p =>
      (p.1, (List.range (t.counts p.2)).map fun i => flat (offsets p.2 + i)),
    t.active.foldl (fun m id => Function.update m id none) t.map)

/-- The submissions for one group: one entry if it is contiguous, else its
entries as they are. -/
def groupEntries (ds : List Descriptor) : List (SGEntry × List Descriptor) :=
  match ds with
  | [d] => [(d.entry, [d])]
  | _ =>
    if contiguous (ds.map Descriptor.entry) then [(mergeAll (ds.map Descriptor.entry), ds)]
    else ds.map fun d => (d.entry, [d])

/-- The submissions of `process_batch_tiled`: one entry for everything if all
groups together are contiguous, else group by group. -/
def tiledEntries (groups : List (List Descriptor)) : List (List (SGEntry × List Descriptor)) :=
  let all := groups.flatten
  if 1 < all.length ∧ contiguous (all.map Descriptor.entry) then
    [[(mergeAll (all.map Descriptor.entry), all)]]
  else groups.map groupEntries

/-! ## Where the entries read from -/

/-- The entry reads from the user's memory. -/
def SGEntry.FromUser (e : SGEntry) : Prop := ∃ a, e.src = .user a

/-- The entry reads from staging buffer `b`. -/
def SGEntry.FromStaging (b : Nat) (e : SGEntry) : Prop := ∃ off, e.src = .staging b off

theorem fromUser_entry (d : Descriptor) : d.entry.FromUser := ⟨_, rfl⟩

theorem fromUser_entries (ds : List Descriptor) : ∀ e ∈ ds.map Descriptor.entry, e.FromUser :=
  List.forall_mem_map.mpr fun d _ => fromUser_entry d

/-- A merged entry reads from where its first one does. -/
theorem fromUser_mergeAll {es : List SGEntry} (h : ∀ e ∈ es, e.FromUser) :
    (mergeAll es).FromUser := by
  cases es with
  | nil => exact ⟨0, rfl⟩
  | cons e es => exact h e List.mem_cons_self

theorem fromUser_coalesceFrom {prev : SGEntry} {es : List SGEntry} (hp : prev.FromUser)
    (h : ∀ e ∈ es, e.FromUser) : ∀ e ∈ coalesceFrom prev es, e.FromUser := by
  induction es generalizing prev with
  | nil => exact List.forall_mem_singleton.mpr hp
  | cons e es ih =>
    obtain ⟨he, hes⟩ := List.forall_mem_cons.mp h
    rw [coalesceFrom]
    split
    · exact ih hp hes
    · exact List.forall_mem_cons.mpr ⟨hp, ih he hes⟩

theorem fromUser_coalesce {es : List SGEntry} (h : ∀ e ∈ es, e.FromUser) :
    ∀ e ∈ coalesce es, e.FromUser := by
  cases es with
  | nil => exact List.forall_mem_nil _
  | cons e es =>
    obtain ⟨he, hes⟩ := List.forall_mem_cons.mp h
    exact fromUser_coalesceFrom he hes

theorem fromStaging_runsFrom (buf base start size : Nat) (es : List SGEntry) :
    ∀ e ∈ runsFrom buf base start size es, e.FromStaging buf := by
  induction es generalizing start size with
  | nil => exact List.forall_mem_singleton.mpr ⟨_, rfl⟩
  | cons e es ih =>
    rw [runsFrom]
    split
    · exact ih _ _
    · exact List.forall_mem_cons.mpr ⟨⟨_, rfl⟩, ih _ _⟩

theorem fromStaging_runs (buf base : Nat) (es : List SGEntry) :
    ∀ e ∈ runs buf base es, e.FromStaging buf := by
  cases es with
  | nil => exact List.forall_mem_nil _
  | cons e es => exact fromStaging_runsFrom buf base _ _ es

/-- Where a plan reads from: the user's memory, or buffer `buf`, if there are buffers at all. -/
def Plan.Sourced (st : Staging) (buf : Nat) : Plan → Prop
  | .direct es => ∀ e ∈ es, e.FromUser
  | .staged _ _ rs => 0 < st.bufs ∧ ∀ e ∈ rs, e.FromStaging buf

theorem genericPlan_sourced (std : StdSort SGEntry) (st : Staging) (buf : Nat) {es : List SGEntry}
    (h : ∀ e ∈ es, e.FromUser) : (genericPlan std st buf es).Sourced st buf := by
  have hsort : ∀ e ∈ radixSort std (fun e => e.src.addr) es, e.FromUser := fun e he =>
    h e ((radixSort_perm std _ es).mem_iff.mp he)
  unfold genericPlan
  dsimp only
  split
  · rename_i hstage
    exact ⟨hstage.2.1, fromStaging_runs buf _ _⟩
  · exact fromUser_coalesce hsort

theorem batchPlan_sourced (std : StdSort SGEntry) (st : Staging) (buf : Nat)
    (batch : List Descriptor) : (batchPlan std st buf batch).Sourced st buf := by
  have hall := fromUser_entries batch
  unfold batchPlan
  split
  · exact List.forall_mem_nil _
  · rename_i e he
    rwa [he] at hall
  · rename_i e es hne he
    rw [he] at hall
    have hfirst := hall e List.mem_cons_self
    split
    · rename_i hstage
      split
      · exact List.forall_mem_singleton.mpr hfirst
      · split
        · exact ⟨hstage.2, List.forall_mem_singleton.mpr ⟨0, rfl⟩⟩
        · exact genericPlan_sourced std st buf hall
    · exact genericPlan_sourced std st buf hall

/-- A submission for a group reads from the user's memory. -/
theorem fromUser_groupEntries (ds : List Descriptor) : ∀ e ∈ groupEntries ds, e.1.FromUser := by
  unfold groupEntries
  split
  · exact List.forall_mem_singleton.mpr (fromUser_entry _)
  · split
    · exact List.forall_mem_singleton.mpr (fromUser_mergeAll (fromUser_entries ds))
    · exact List.forall_mem_map.mpr fun d _ => fromUser_entry d

theorem fromUser_tiledEntries (groups : List (List Descriptor)) :
    ∀ es ∈ tiledEntries groups, ∀ e ∈ es, e.1.FromUser := by
  unfold tiledEntries
  dsimp only
  split
  · exact List.forall_mem_singleton.mpr
      (List.forall_mem_singleton.mpr (fromUser_mergeAll (fromUser_entries _)))
  · exact List.forall_mem_map.mpr fun ds _ => fromUser_groupEntries ds

end Gfd
