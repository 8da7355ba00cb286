import GfdProof.ParallelGather

/-! # Where `parallel_gather` stores 64 bytes at a time

`streaming_memcpy_g` stores whole blocks of 64 bytes past the cache, which needs
addresses that are multiples of 64.  The staging buffers are page aligned, so it
is the offset `dst - min_dst` of an entry that decides, and only for an entry that
has a whole block.

No staging path looks at it.  What it comes to on each of them is `BatchRegular`
and `DirectRegular`: the common size of a contiguous batch, and elsewhere the
destinations of the entries that are gathered.
-/
namespace Gfd.ParallelGather

open Direct (GatherCall)

/-! ## One call -/

/-- The addresses of the 64-byte stores of `streaming_memcpy_g(addr, src, size)`. -/
def streamStores (addr size : Nat) : List Nat := (blocks size).map fun i => word (addr + i)

/-- A call to `parallel_gather` stores 64 bytes at `a`; the staging buffers are at `addr`. -/
def StoresAt (workers : Nat) (addr : Nat → Nat) (g : GatherCall) (a : Nat) : Prop :=
  ∃ o i e, InRange workers g.entries.length o i ∧ entryAt g.entries i = some e ∧
    a ∈ streamStores (addr g.buf + subWord e.dst g.minDst) e.size

/-- All these stores are aligned. -/
def Aligned (workers : Nat) (addr : Nat → Nat) (gs : List GatherCall) : Prop :=
  ∀ g ∈ gs, ∀ a, StoresAt workers addr g a → 64 ∣ a

/-- Unless nothing is gathered at all, the entries with a block of 64 bytes have the alignment of
`min_dst`. -/
def Regular (workers : Nat) (g : GatherCall) : Prop :=
  g.entries.length + workers < 2 ^ 31 → ∀ e ∈ g.entries, 64 ≤ e.size → e.dst % 64 = g.minDst % 64

theorem dvd_store_iff {addr : Nat} (haddr : 4096 ∣ addr) (dst minDst j : Nat) :
    64 ∣ word (addr + subWord dst minDst + 64 * j) ↔ dst % 64 = minDst % 64 := by
  unfold subWord word wordSize
  omega

theorem streamStores_aligned_iff {addr : Nat} (haddr : 4096 ∣ addr) (dst minDst size : Nat) :
    (∀ a ∈ streamStores (addr + subWord dst minDst) size, 64 ∣ a) ↔
      (64 ≤ size → dst % 64 = minDst % 64) := by
  unfold streamStores blocks
  simp only [List.forall_mem_map, List.mem_range, dvd_store_iff haddr]
  constructor
  · intro h hsize
    exact h 0 (by omega)
  · intro h j hj
    exact h (by omega)

variable {workers : Nat} {addr : Nat → Nat}

theorem storesAt_aligned_iff (hworkers : workers ≤ maxGatherWorkers) (haddr : ∀ b, 4096 ∣ addr b)
    (g : GatherCall) (hlen : g.entries.length < 2 ^ 31) :
    (∀ a, StoresAt workers addr g a → 64 ∣ a) ↔ Regular workers g := by
  by_cases hfit : g.entries.length + workers < 2 ^ 31
  · have hcover := (partition_of_lt hfit).cover
    constructor
    · intro h _ e he
      obtain ⟨i, hi, rfl⟩ := List.getElem_of_mem he
      obtain ⟨o, ho⟩ := (hcover i).mp ⟨by omega, by omega⟩
      refine (streamStores_aligned_iff (haddr g.buf) _ _ _).mp fun a ha => h a ⟨o, i, _, ho, ?_, ha⟩
      rw [entryAt_natCast, List.getElem?_eq_getElem hi]
    · rintro h a ⟨o, i, e, -, he, ha⟩
      have hmem : e ∈ g.entries := by
        unfold entryAt at he
        split at he
        · exact List.mem_of_getElem? he
        · cases he
      exact (streamStores_aligned_iff (haddr g.buf) _ _ _).mpr (h hfit e hmem) a ha
  · constructor
    · exact fun _ hlt => absurd hlt hfit
    · rintro - a ⟨o, i, -, ho, -⟩
      exact absurd ho (not_inRange_of_le hworkers hlen (by omega) o i)

theorem aligned_singleton_iff (hworkers : workers ≤ maxGatherWorkers) (haddr : ∀ b, 4096 ∣ addr b)
    (g : GatherCall) (hlen : g.entries.length < 2 ^ 31) :
    Aligned workers addr [g] ↔ Regular workers g := by
  rw [← storesAt_aligned_iff hworkers haddr g hlen]
  exact List.forall_mem_singleton

theorem aligned_nil : Aligned workers addr [] := nofun

/-! ## The calls on each path -/

/-- The calls of a plan, with `buf = staging_cur_`. -/
def batchGathers (buf : Nat) : Plan → List GatherCall
  | .direct _ => []
  | .staged es base _ => [⟨es, buf, base⟩]

/-- The call a step of `submit_direct` makes. -/
def gatherOf : Direct.Call → Option GatherCall
  | .parallelGather es b d => some ⟨es, b, d⟩
  | _ => none

/-- The calls of `submit_direct`. -/
def directGathers (cfg : Direct.Config) (es : List SGEntry) : List GatherCall :=
  (cfg.submitDirect es).filterMap gatherOf

/-- On the generic path of `process_batch` it is the entries that are left after coalescing. -/
def GenericRegular (std : StdSort SGEntry) (st : Staging) (entries : List SGEntry) : Prop :=
  let coalesced := coalesce (radixSort std (fun e => e.src.addr) entries)
  stagingThreshold < coalesced.length ∧ 0 < st.bufs ∧
      subWord (maxDstEnd coalesced) (minDst coalesced) ≤ st.size →
    ∀ e ∈ coalesced, 64 ≤ e.size → e.dst % 64 = minDst coalesced % 64

/-- On the contiguous path of `process_batch` it is the size of the entries. -/
def EntriesRegular (std : StdSort SGEntry) (st : Staging) : List SGEntry → Prop
  | [] => True
  | [_] => True
  | e :: es =>
    if dstContiguous (e :: es) ∧ 0 < st.bufs then
      if srcContiguous (e :: es) then True
      else if (e :: es).length * e.size ≤ st.size then e.size < 64 ∨ 64 ∣ e.size
      else GenericRegular std st (e :: es)
    else GenericRegular std st (e :: es)

/-- What alignment comes to for a batch. -/
def BatchRegular (std : StdSort SGEntry) (st : Staging) (batch : List Descriptor) : Prop :=
  EntriesRegular std st (batch.map Descriptor.entry)

/-- What alignment comes to for the entries of a direct submission. -/
def DirectRegular (cfg : Direct.Config) (es : List SGEntry) : Prop :=
  match cfg.strategy es with
  | .parallel => Regular cfg.workers ⟨es, 0, (es.headD default).dst⟩
  | .pipelined => ∀ c ∈ cfg.chunks es,
    Regular cfg.workers ⟨c.2, c.1 % cfg.staging.bufs, (c.2.headD default).dst⟩
  | .merged | .serial | .raw => True

/-! ## Batches -/

/-- The entries of a contiguous list have one size, and one alignment if that is a multiple of 64. -/
theorem of_dstContiguousFrom {size expected : Nat} {es : List SGEntry} (hsize : 64 ∣ size)
    (h : dstContiguousFrom size expected es = true) :
    ∀ e ∈ es, e.dst % 64 = expected % 64 := by
  induction es generalizing expected with
  | nil => exact List.forall_mem_nil _
  | cons e es ih =>
    simp only [dstContiguousFrom, Bool.and_eq_true, beq_iff_eq] at h
    obtain ⟨⟨hdst, -⟩, hrest⟩ := h
    refine List.forall_mem_cons.mpr ⟨by rw [hdst], fun x hx => (ih hrest x hx).trans ?_⟩
    unfold word wordSize
    omega

theorem size_of_dstContiguousFrom {size expected : Nat} {es : List SGEntry}
    (h : dstContiguousFrom size expected es = true) : ∀ e ∈ es, e.size = size := by
  induction es generalizing expected with
  | nil => exact List.forall_mem_nil _
  | cons e es ih =>
    simp only [dstContiguousFrom, Bool.and_eq_true, beq_iff_eq] at h
    exact List.forall_mem_cons.mpr ⟨h.1.2, ih h.2⟩

/-- The second entry of a contiguous batch is the first that can be out of line. -/
theorem regular_contiguous_iff {e e' : SGEntry} {es : List SGEntry} {buf : Nat}
    (hfit : (e :: e' :: es).length + workers < 2 ^ 31)
    (h : dstContiguous (e :: e' :: es) = true) :
    Regular workers ⟨e :: e' :: es, buf, e.dst⟩ ↔ e.size < 64 ∨ 64 ∣ e.size := by
  have hsize := size_of_dstContiguousFrom h
  constructor
  · intro hr
    have h' := hr hfit e' (List.mem_cons_of_mem _ List.mem_cons_self)
    have hdst : e'.dst = word (e.dst + e.size) := by
      simp only [dstContiguous, dstContiguousFrom, Bool.and_eq_true, beq_iff_eq] at h
      exact h.1.1
    rw [hsize e' List.mem_cons_self, hdst] at h'
    unfold word wordSize at h'
    dsimp only at h'
    omega
  · rintro (hlt | hdvd) - x hx hx64
    · have hx' : x.size = e.size := by
        rcases List.mem_cons.mp hx with rfl | hx
        · rfl
        · exact hsize x hx
      omega
    · rcases List.mem_cons.mp hx with rfl | hx
      · rfl
      · refine (of_dstContiguousFrom hdvd h x hx).trans ?_
        unfold word wordSize
        dsimp only
        omega

theorem length_coalesceFrom_le (prev : SGEntry) (es : List SGEntry) :
    (coalesceFrom prev es).length ≤ es.length + 1 := by
  induction es generalizing prev with
  | nil => exact Nat.le_refl 1
  | cons e es ih =>
    rw [coalesceFrom]
    split
    · exact (ih _).trans (Nat.le_succ _)
    · exact Nat.succ_le_succ (ih e)

theorem length_coalesce_le (es : List SGEntry) : (coalesce es).length ≤ es.length := by
  cases es with
  | nil => exact Nat.le_refl 0
  | cons e es => exact length_coalesceFrom_le e es

theorem aligned_generic_iff (hworkers : workers ≤ maxGatherWorkers) (haddr : ∀ b, 4096 ∣ addr b)
    (std : StdSort SGEntry) (st : Staging) (buf : Nat) {es : List SGEntry}
    (hlen : es.length ≤ maxBatchSize) :
    Aligned workers addr (batchGathers buf (genericPlan std st buf es)) ↔
      GenericRegular std st es := by
  have hle : (coalesce (radixSort std (fun e => e.src.addr) es)).length ≤ maxBatchSize :=
    (length_coalesce_le _).trans ((radixSort_perm std _ es).length_eq.trans_le hlen)
  unfold maxBatchSize at hle
  unfold maxGatherWorkers at hworkers
  unfold genericPlan GenericRegular
  dsimp only
  split
  · rename_i hadmitted
    rw [batchGathers, aligned_singleton_iff hworkers haddr _ (by dsimp only; omega)]
    unfold Regular
    dsimp only
    rw [imp_iff_right (by omega), imp_iff_right hadmitted]
  · rename_i hadmitted
    exact iff_of_true aligned_nil fun h => absurd h hadmitted

theorem aligned_batch_iff (hworkers : workers ≤ maxGatherWorkers) (haddr : ∀ b, 4096 ∣ addr b)
    (std : StdSort SGEntry) (st : Staging) (buf : Nat) {batch : List Descriptor}
    (hlen : batch.length ≤ maxBatchSize) :
    Aligned workers addr (batchGathers buf (batchPlan std st buf batch)) ↔
      BatchRegular std st batch := by
  unfold batchPlan BatchRegular EntriesRegular
  rw [← List.length_map Descriptor.entry] at hlen
  generalize batch.map Descriptor.entry = entries at hlen
  rcases entries with - | ⟨e, - | ⟨e', es⟩⟩
  · exact iff_of_true aligned_nil trivial
  · exact iff_of_true aligned_nil trivial
  · have hgeneric := aligned_generic_iff hworkers haddr std st buf hlen
    dsimp only
    split
    · rename_i hcontiguous
      split
      · exact iff_of_true aligned_nil trivial
      · split
        · unfold maxBatchSize at hlen
          unfold maxGatherWorkers at hworkers
          rw [batchGathers, aligned_singleton_iff hworkers haddr _ (by dsimp only; omega)]
          exact regular_contiguous_iff (by omega) hcontiguous.1
        · exact hgeneric
    · exact hgeneric

/-! ## Direct submissions -/

theorem filterMap_chunkCalls (cfg : Direct.Config) (c : Nat × List SGEntry) :
    (cfg.chunkCalls c).filterMap gatherOf =
      [⟨c.2, c.1 % cfg.staging.bufs, (c.2.headD default).dst⟩] := by
  unfold Direct.Config.chunkCalls
  dsimp only
  split <;> split <;> rfl

theorem filterMap_transfer (cfg : Direct.Config) (es : List SGEntry) :
    (cfg.transfer es).filterMap gatherOf =
      match cfg.strategy es with
      | .parallel => [⟨es, 0, (es.headD default).dst⟩]
      | .pipelined => (cfg.chunks es).map fun c =>
        ⟨c.2, c.1 % cfg.staging.bufs, (c.2.headD default).dst⟩
      | .merged | .serial | .raw => [] := by
  unfold Direct.Config.transfer
  cases cfg.strategy es with
  | merged => rfl
  | pipelined =>
    dsimp only
    induction cfg.chunks es with
    | nil => rfl
    | cons c cs ih =>
      rw [List.flatMap_cons, List.filterMap_append, ih, filterMap_chunkCalls]
      rfl
  | parallel => rfl
  | serial =>
    have hnone : (es.map (Direct.Call.memcpy 0 (es.headD default).dst)).filterMap gatherOf = [] := by
      rw [List.filterMap_map]
      exact List.filterMap_eq_nil_iff.mpr fun _ _ => rfl
    dsimp only
    rw [List.filterMap_append, hnone]
    rfl
  | raw => rfl

theorem directGathers_eq (cfg : Direct.Config) {es : List SGEntry} (hne : es ≠ []) :
    directGathers cfg es = (cfg.transfer es).filterMap gatherOf := by
  have hnone : ((List.range cfg.staging.bufs).map (Direct.Call.setPending · false)).filterMap
      gatherOf = [] := by
    rw [List.filterMap_map]
    exact List.filterMap_eq_nil_iff.mpr fun _ _ => rfl
  unfold directGathers Direct.Config.submitDirect
  rw [if_neg hne]
  simp only [List.filterMap_cons, List.filterMap_append, hnone, gatherOf, List.cons_append,
    List.filterMap_nil, List.append_nil]

theorem length_le_of_mem_chunkLoop {es : List SGEntry} {size : Int} {chs : List Nat}
    {c : Nat × List SGEntry} (h : c ∈ CopyEngineManager.chunkLoop es size chs) :
    c.2.length ≤ es.length := by
  induction chs with
  | nil => cases h
  | cons ch chs ih =>
    simp only [CopyEngineManager.chunkLoop] at h
    split at h
    · cases h
    · rcases List.mem_cons.mp h with rfl | h
      · simp only [CopyEngineManager.entriesFrom, List.length_take, List.length_drop]
        omega
      · exact ih h

theorem aligned_direct_iff (cfg : Direct.Config) (hworkers : cfg.workers ≤ maxGatherWorkers)
    (haddr : ∀ b, 4096 ∣ addr b) {es : List SGEntry} (hlen : es.length < 2 ^ 31) :
    Aligned cfg.workers addr (directGathers cfg es) ↔ DirectRegular cfg es := by
  by_cases hne : es = []
  · subst hne
    exact iff_of_true aligned_nil trivial
  · rw [directGathers_eq cfg hne, filterMap_transfer]
    unfold DirectRegular
    cases cfg.strategy es with
    | parallel => exact aligned_singleton_iff hworkers haddr _ hlen
    | pipelined =>
      unfold Aligned
      simp only [List.forall_mem_map]
      refine forall₂_congr fun c hc => storesAt_aligned_iff hworkers haddr _ ?_
      exact (length_le_of_mem_chunkLoop hc).trans_lt hlen
    | merged => exact iff_of_true aligned_nil trivial
    | serial => exact iff_of_true aligned_nil trivial
    | raw => exact iff_of_true aligned_nil trivial

/-! ## Every staging path -/

/-- **When the streaming stores are aligned**: for a batch and for a direct submission of a polling
thread whose staging buffers are page aligned. -/
theorem streamAligned_iff (cfg : Direct.Config) (hworkers : cfg.workers ≤ maxGatherWorkers)
    {addr : Nat → Nat} (haddr : ∀ b, 4096 ∣ addr b) (std : StdSort SGEntry) (buf : Nat)
    {batch : List Descriptor} (hbatch : batch.length ≤ maxBatchSize) {es : List SGEntry}
    (hes : es.length < 2 ^ 31) :
    (Aligned cfg.workers addr (batchGathers buf (batchPlan std cfg.staging buf batch)) ↔
        BatchRegular std cfg.staging batch) ∧
      (Aligned cfg.workers addr (directGathers cfg es) ↔ DirectRegular cfg es) :=
  ⟨aligned_batch_iff hworkers haddr std cfg.staging buf hbatch,
    aligned_direct_iff cfg hworkers haddr hes⟩

section Example

instance (workers : Nat) (g : GatherCall) : Decidable (Regular workers g) :=
  inferInstanceAs (Decidable (_ → ∀ e ∈ g.entries, _))

instance (std : StdSort SGEntry) (st : Staging) (es : List SGEntry) :
    Decidable (GenericRegular std st es) := inferInstanceAs (Decidable (_ → ∀ e ∈ coalesce _, _))

instance (std : StdSort SGEntry) (st : Staging) :
    (es : List SGEntry) → Decidable (EntriesRegular std st es)
  | [] => isTrue trivial
  | [_] => isTrue trivial
  | _ :: _ :: _ => inferInstanceAs (Decidable (ite _ (ite _ _ (ite _ _ _)) _))

instance (std : StdSort SGEntry) (st : Staging) (batch : List Descriptor) :
    Decidable (BatchRegular std st batch) := inferInstanceAs (Decidable (EntriesRegular ..))

/-- One staging buffer of a megabyte, and one worker. -/
def oneBuffer : Direct.Config where
  channels := 1
  staging := ⟨1, 2 ^ 20⟩
  workers := 1
  channels_pos := Nat.one_pos
  channels_le := one_le_maxCeChannels
  bufs_le := one_le_numStagingBufs

/-- Two descriptors of `size` bytes, contiguous in the destination only. -/
def twoDescriptors (size : Nat) : List Descriptor :=
  [⟨0, 4096, size, 0, 0, 0⟩, ⟨65536, 4096 + size, size, 0, 0, 1⟩]

/-- The second of two descriptors of 100 bytes is stored from an address that is no multiple of 64. -/
theorem exists_unaligned : ¬ Aligned oneBuffer.workers (fun b => 4096 * b)
    (batchGathers 0 (batchPlan .insertion oneBuffer.staging 0 (twoDescriptors 100))) := by
  rw [aligned_batch_iff (by decide) (fun b => Nat.dvd_mul_right 4096 b) _ _ _ (by decide)]
  decide

/-- 64 entries of 48 bytes, contiguous in the destination only. -/
def smallEntries : List SGEntry := (List.range 64).map fun i => ⟨48 * i, .user (64 * i), 48⟩

/-- Descriptors of 128 bytes, and a direct submission of entries below 64 bytes. -/
theorem streamAligned_iff_regular :
    Aligned oneBuffer.workers (fun b => 4096 * b)
        (batchGathers 0 (batchPlan .insertion oneBuffer.staging 0 (twoDescriptors 128))) ∧
      Aligned oneBuffer.workers (fun b => 4096 * b) (directGathers oneBuffer smallEntries) := by
  obtain ⟨hbatch, hdirect⟩ := @streamAligned_iff oneBuffer (by decide) (fun b => 4096 * b)
    (fun b => Nat.dvd_mul_right 4096 b) .insertion 0 (twoDescriptors 128) (by decide)
    smallEntries (by decide)
  have hstrategy : oneBuffer.strategy smallEntries = .parallel := by decide +kernel
  refine ⟨hbatch.mpr (by decide), hdirect.mpr ?_⟩
  unfold DirectRegular
  rw [hstrategy]
  decide +kernel

end Example

end Gfd.ParallelGather
