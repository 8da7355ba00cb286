import GfdProof.BatchGroups
import GfdProof.EntryMoves
import GfdProof.HostThread
import GfdProof.Scratch

/-! # `process_batch_tiled`, array by array

The function as it stands, with every one of its arrays (`Scratch`): the counting
sort by tile id with its bucket map that lives on between calls, the scatter-gather
entries in bucket order, the two levels of contiguity tests, the per-tile progress
and the signal writes.  It returns what it submits and what it has in its grouping
arrays.

A batch of at most `MAX_BATCH_SIZE` descriptors with tile ids below `MAX_TILES`
makes it succeed, that is, it stays inside its arrays, and it does what a loop over
the descriptors would (`call_of_run`): the bucket map is empty before and after, the
groups are the descriptors of each tile in order, the bytes moved are those of the
descriptors, the progress of a tile grows by their number, and the cells signalled
are those of the tiles that occur.
-/
namespace Gfd.TiledBatch

/-! ## The function -/

/-- What lives on between calls: `bucket_map_storage`, `-1` being `none`, `tile_progress_` and
`tile_signal_buf_`. -/
structure Tiles where
  bucketMap : Scratch maxTiles (Option Nat)
  tileProgress : Scratch maxTiles Nat
  tileSignalBuf : Scratch maxTiles Nat

/-- The arrays of the first pass. -/
structure Tables where
  bucketMap : Scratch maxTiles (Option Nat)
  activeTileIds : Scratch maxBatchSize Nat
  tileEntryCounts : Scratch maxBatchSize Nat
  numActiveTiles : Nat

/-- The bucket of a tile, opened if there is none. -/
def Tables.bucketIdx (t : Tables) (tileId : Nat) : Option (Nat × Tables) := do
  match ← t.bucketMap.read tileId with
  | some b => pure (b, t)
  | none =>
    let b := t.numActiveTiles
    let bucketMap ← t.bucketMap.write tileId (some b)
    let activeTileIds ← t.activeTileIds.write b tileId
    pure (b, { t with bucketMap, activeTileIds, numActiveTiles := b + 1 })

def countEntry (batch : List Descriptor) (t : Tables) (i : Nat) : Option Tables := do
  let d ← batch[i]?
  if maxTiles ≤ d.group then pure t
  else
    let (b, t) ← t.bucketIdx d.group
    let tileEntryCounts ← t.tileEntryCounts.write b ((← t.tileEntryCounts.read b) + 1)
    pure { t with tileEntryCounts }

/-- The exclusive prefix sum. -/
def prefixSum (t : Tables) : Option (Scratch maxBatchSize Nat) := do
  let tileOffsets ← Scratch.fresh.write 0 0
  (List.range (t.numActiveTiles - 1)).foldlM (fun tileOffsets b => do
    tileOffsets.write (b + 1) ((← tileOffsets.read b) + (← t.tileEntryCounts.read b))) tileOffsets

/-- Put the index of an entry at the next position of its bucket. -/
def scatterEntry (batch : List Descriptor) (t : Tables)
    (s : Scratch maxBatchSize Nat × Scratch maxBatchSize Nat) (i : Nat) :
    Option (Scratch maxBatchSize Nat × Scratch maxBatchSize Nat) := do
  let d ← batch[i]?
  if maxTiles ≤ d.group then pure s
  else
    let b ← (← t.bucketMap.read d.group)
    let p ← s.1.read b
    pure (← s.1.write b (p + 1), ← s.2.write p i)

/-- The arrays of the counting sort. -/
structure Grouping where
  tables : Tables
  tileOffsets : Scratch maxBatchSize Nat
  flatIndices : Scratch maxBatchSize Nat

/-- Both passes, and the reset of the bucket map. -/
def group (bucketMap : Scratch maxTiles (Option Nat)) (batch : List Descriptor) :
    Option (Grouping × Scratch maxTiles (Option Nat)) := do
  let t ← (List.range batch.length).foldlM (countEntry batch)
    ⟨bucketMap, .fresh, .filled 0, 0⟩
  let tileOffsets ← prefixSum t
  let fillPos ← (List.range t.numActiveTiles).foldlM
    (fun fillPos b => do fillPos.write b (← tileOffsets.read b)) .fresh
  let (_, flatIndices) ← (List.range batch.length).foldlM (scatterEntry batch t) (fillPos, .fresh)
  let bucketMap ← (List.range t.numActiveTiles).foldlM
    (fun bucketMap b => do bucketMap.write (← t.activeTileIds.read b) none) t.bucketMap
  pure (⟨t, tileOffsets, flatIndices⟩, bucketMap)

/-- The entries in bucket order, and where those of each bucket are. -/
structure Entries where
  allSgEntries : Scratch maxBatchSize SGEntry
  totalSgCount : Nat
  totalBytes : Nat
  tileSgOffsets : Scratch maxBatchSize Nat
  tileSgCounts : Scratch maxBatchSize Nat

def buildEntry (batch : List Descriptor) (g : Grouping) (baseIdx : Nat) (s : Entries) (i : Nat) :
    Option Entries := do
  let idx ← g.flatIndices.read (baseIdx + i)
  let d ← batch[idx]?
  let allSgEntries ← s.allSgEntries.write s.totalSgCount d.entry
  pure { s with
    allSgEntries
    totalBytes := word (s.totalBytes + d.size)
    totalSgCount := s.totalSgCount + 1 }

def buildBucket (batch : List Descriptor) (g : Grouping) (s : Entries) (b : Nat) : Option Entries := do
  let tileSgOffsets ← s.tileSgOffsets.write b s.totalSgCount
  let tileCount ← g.tables.tileEntryCounts.read b
  let tileSgCounts ← s.tileSgCounts.write b tileCount
  let baseIdx ← g.tileOffsets.read b
  (List.range tileCount).foldlM (buildEntry batch g baseIdx) { s with tileSgOffsets, tileSgCounts }

def build (batch : List Descriptor) (g : Grouping) : Option Entries :=
  (List.range g.tables.numActiveTiles).foldlM (buildBucket batch g) ⟨.fresh, 0, 0, .fresh, .fresh⟩

/-- The loop over `count` entries from `i` on that stops at the first one that does not continue
the one before it. -/
def contiguousLoop (a : Scratch maxBatchSize SGEntry) : Nat → Nat → Option Bool
  | _, 0 => pure true
  | i, count + 1 => do
    let prev ← a.read (i - 1)
    let e ← a.read i
    if prev.dContig e && prev.sContig e then contiguousLoop a (i + 1) count else pure false

def addProgress (g : Grouping) (es : Entries) (s : Tiles) (b : Nat) : Option Tiles := do
  let tileId ← g.tables.activeTileIds.read b
  let tileCount ← es.tileSgCounts.read b
  if tileId < maxTiles then
    let n := word ((← s.tileProgress.read tileId) + tileCount)
    pure { s with
      tileProgress := ← s.tileProgress.write tileId n
      tileSignalBuf := ← s.tileSignalBuf.write tileId n }
  else pure s

/-- The data submission for one bucket. -/
def submitTile (es : Entries) (b : Nat) : Option (List SGEntry) := do
  let offset ← es.tileSgOffsets.read b
  let tileCount ← es.tileSgCounts.read b
  if tileCount = 1 then pure [← es.allSgEntries.read offset]
  else if ← contiguousLoop es.allSgEntries (offset + 1) (tileCount - 1) then
    let e ← es.allSgEntries.read offset
    let tileBytes ← (List.range tileCount).foldlM (fun n i => do
      pure (word (n + (← es.allSgEntries.read (offset + i)).size))) 0
    pure [{ e with size := tileBytes }]
  else es.allSgEntries.readRange offset tileCount

/-- The data submissions: one for everything if all entries are contiguous, else one for each
bucket. -/
def submitData (g : Grouping) (es : Entries) : Option (List (List SGEntry)) := do
  let allContiguous ←
    if 1 < es.totalSgCount then contiguousLoop es.allSgEntries 1 (es.totalSgCount - 1)
    else pure false
  if allContiguous ∧ 1 < es.totalSgCount then
    pure [[{ (← es.allSgEntries.read 0) with size := es.totalBytes }]]
  else (List.range g.tables.numActiveTiles).mapM (submitTile es)

/-- A copy of `count` cells of `tile_signal_buf_` from `first` on, to `d_tile_chunk_done` if `dev`,
else to `tile_chunk_done`. -/
structure SignalWrite where
  dev : Bool
  first : Nat
  count : Nat
  deriving DecidableEq, Repr

/-- The cells a signal write covers. -/
def SignalWrite.cells (w : SignalWrite) : List (Bool × Nat) :=
  (List.range w.count).map fun i => (w.dev, w.first + i)

/-- One write for each tile. -/
def signalEach (g : Grouping) : Option (List SignalWrite) :=
  (List.range g.tables.numActiveTiles).foldlM (fun ws b => do
    let tileId ← g.tables.activeTileIds.read b
    pure (if tileId < maxTiles then ws ++ [⟨true, tileId, 1⟩] else ws)) []

/-- `min_tid` and `max_tid` -/
def tileRange (g : Grouping) : Option (Nat × Nat) := do
  let first ← g.tables.activeTileIds.read 0
  (List.range (g.tables.numActiveTiles - 1)).foldlM (fun r b => do
    let tileId ← g.tables.activeTileIds.read (b + 1)
    pure (if tileId < r.1 then tileId else r.1, if r.2 < tileId then tileId else r.2)) (first, first)

/-- The signal writes on the signal stream. -/
def signalDevice (g : Grouping) : Option (List SignalWrite) := do
  if g.tables.numActiveTiles ≤ 4 then signalEach g
  else
    let (minTid, maxTid) ← tileRange g
    let range := maxTid - minTid + 1
    if range = g.tables.numActiveTiles ∧ maxTid < maxTiles then pure [⟨true, minTid, range⟩]
    else signalEach g

/-- The entries of the inline submission. -/
def signalMapped (g : Grouping) : Option (List SignalWrite) := do
  let (signalEntries, numSignals) ← (List.range g.tables.numActiveTiles).foldlM
    (fun (s : Scratch maxTiles SignalWrite × Nat) b => do
      let tileId ← g.tables.activeTileIds.read b
      if tileId < maxTiles then pure (← s.1.write s.2 ⟨false, tileId, 1⟩, s.2 + 1) else pure s)
    (.fresh, 0)
  signalEntries.readRange 0 numSignals

def signalWrites (cfg : Config) (g : Grouping) : Option (List SignalWrite) :=
  if cfg.tileSignalBuf then
    if cfg.tiledQueue ∧ cfg.dTileChunkDone ∧ cfg.signalStream then signalDevice g
    else signalMapped g
  else some []

/-- What a call does besides updating what lives on: its data submissions, its signal writes, and
its grouping arrays. -/
structure Outcome where
  submissions : List (List SGEntry)
  signals : List SignalWrite
  grouping : Grouping

/-- `process_batch_tiled` -/
def processBatchTiled (cfg : Config) (s : Tiles) (batch : List Descriptor) :
    Option (Tiles × Outcome) := do
  let (g, bucketMap) ← group s.bucketMap batch
  let es ← build batch g
  let s := { s with bucketMap }
  let s ← if cfg.tileSignalBuf then
      (List.range g.tables.numActiveTiles).foldlM (addProgress g es) s
    else pure s
  let submissions ← submitData g es
  let signals ← signalWrites cfg g
  pure (s, ⟨submissions, signals, g⟩)

/-- The calls for some batches, one after the other. -/
def run (cfg : Config) (s : Tiles) (batches : List (List Descriptor)) : Option Tiles :=
  batches.foldlM (fun s batch => do pure (← processBatchTiled cfg s batch).1) s

/-! ## The grouping -/

variable {batch : List Descriptor} {ids : List Nat} {t : Tables} {B : Buckets}

/-- The tile of entry `i`. -/
def tileOf (batch : List Descriptor) (i : Nat) : Nat := (batch.getD i default).group

/-- The entries of a tile, in order. -/
def indices (batch : List Descriptor) (id : Nat) : List Nat :=
  (List.range batch.length).filter (tileOf batch · == id)

theorem map_getD_range {α : Type*} (l : List α) (x : α) :
    (List.range l.length).map (l.getD · x) = l := by
  refine List.ext_getElem (by simp) fun i h1 h2 => ?_
  rw [List.getElem_map, List.getElem_range, List.getD_eq_getElem?_getD, List.getElem?_eq_getElem h2,
    Option.getD_some]

theorem map_indices (batch : List Descriptor) (id : Nat) :
    (indices batch id).map (batch.getD · default) = batch.filter fun d => d.group == id := by
  conv_rhs => rw [← map_getD_range batch default, List.filter_map]
  rfl

theorem tileOf_of_getElem? {d : Descriptor} {i : Nat} (h : batch[i]? = some d) :
    tileOf batch i = d.group := by
  rw [tileOf, List.getD_eq_getElem?_getD, h, Option.getD_some]

/-- The arrays of the first pass hold some buckets. -/
structure Tables.Shows (t : Tables) (B : Buckets) : Prop where
  bucketMap : t.bucketMap.Holds (· < maxTiles) B.map
  activeTileIds : t.activeTileIds.Lists B.active
  tileEntryCounts : t.tileEntryCounts.Holds (· < maxBatchSize) B.counts
  numActiveTiles : t.numActiveTiles = B.active.length

theorem length_active_le (hv : B.Valid ids) : B.active.length ≤ ids.length :=
  (List.subperm_of_subset hv.nodup fun id h => (hv.active id).mp h).length_le

/-- Counting one entry stays inside the arrays. -/
theorem countEntry_spec (h : t.Shows B) (hv : B.Valid ids) (hlen : ids.length < maxBatchSize)
    {d : Descriptor} {i : Nat} (hd : batch[i]? = some d) (hid : d.group < maxTiles) :
    ∃ t', countEntry batch t i = some t' ∧ t'.Shows (B.count d.group) := by
  have hactive := length_active_le hv
  simp only [countEntry, hd, Option.bind_eq_bind, Option.bind_some, if_neg (Nat.not_le.mpr hid),
    Tables.bucketIdx, h.bucketMap.read hid, Buckets.count]
  cases hmap : B.map d.group with
  | some b =>
    have hb : b < maxBatchSize := by
      have := (List.getElem?_eq_some_iff.mp ((hv.map _ b).mp hmap)).1
      omega
    obtain ⟨c, hc, hcounts⟩ := h.tileEntryCounts.overwrite hb (B.counts b + 1)
    exact ⟨{ t with tileEntryCounts := c },
      by simp [h.tileEntryCounts.read hb, hc], h.bucketMap, h.activeTileIds, hcounts, h.numActiveTiles⟩
  | none =>
    have hb : B.active.length < maxBatchSize := by omega
    obtain ⟨m, hm, hmaps⟩ := h.bucketMap.overwrite hid (some B.active.length)
    obtain ⟨a, ha, hactives⟩ := h.activeTileIds.push hb d.group
    obtain ⟨c, hc, hcounts⟩ := h.tileEntryCounts.overwrite hb (B.counts B.active.length + 1)
    exact ⟨⟨m, a, c, B.active.length + 1⟩,
      by simp [h.numActiveTiles, hm, ha, h.tileEntryCounts.read hb, hc], hmaps, hactives, hcounts,
      by simp⟩

/-- The buckets of a batch. -/
def bucketsOf (batch : List Descriptor) : Buckets :=
  batch.foldl (fun t d => t.count d.group) .empty

theorem valid_bucketsOf (batch : List Descriptor) :
    (bucketsOf batch).Valid (batch.map Descriptor.group) := by
  simpa [bucketsOf] using Buckets.valid_foldl Buckets.valid_empty batch

theorem first_pass {bucketMap : Scratch maxTiles (Option Nat)}
    (hmap : bucketMap.Holds (· < maxTiles) fun _ => none) (hlen : batch.length ≤ maxBatchSize)
    (hids : ∀ d ∈ batch, d.group < maxTiles) :
    ∃ t, (List.range batch.length).foldlM (countEntry batch) ⟨bucketMap, .fresh, .filled 0, 0⟩ =
      some t ∧ t.Shows (bucketsOf batch) := by
  obtain ⟨t, ht, hs⟩ := Scratch.foldlM_range (f := countEntry batch) (n := batch.length)
    (s := ⟨bucketMap, .fresh, .filled 0, 0⟩)
    (fun i t => t.Shows (bucketsOf (batch.take i))) ⟨hmap, Scratch.lists_nil _, Scratch.holds_filled 0, rfl⟩
    fun i hi t hs => by
      have hd : batch[i]? = some batch[i] := List.getElem?_eq_getElem hi
      obtain ⟨t', ht', hs'⟩ := countEntry_spec hs (valid_bucketsOf _)
        (by rw [List.length_map, List.length_take]; omega) hd (hids _ (List.getElem_mem hi))
      refine ⟨t', ht', ?_⟩
      rw [List.take_succ_eq_append_getElem hi, bucketsOf, List.foldl_append]
      exact hs'
  rw [List.take_length] at hs
  exact ⟨t, ht, hs⟩

/-- The bucket of an entry. -/
def bucketIdxOf (batch : List Descriptor) (i : Nat) : Nat :=
  ((bucketsOf batch).map (tileOf batch i)).getD 0

theorem map_tileOf {i : Nat} (hi : i < batch.length) :
    (bucketsOf batch).map (tileOf batch i) = some (bucketIdxOf batch i) ∧
      (bucketsOf batch).active[bucketIdxOf batch i]? = some (tileOf batch i) := by
  have hv := valid_bucketsOf batch
  have hmem : tileOf batch i ∈ (bucketsOf batch).active := by
    rw [hv.active, tileOf_of_getElem? (List.getElem?_eq_getElem hi)]
    exact List.mem_map_of_mem (List.getElem_mem hi)
  obtain ⟨b, hb⟩ := List.mem_iff_getElem?.mp hmem
  have hmap := (hv.map _ b).mpr hb
  rw [bucketIdxOf, hmap, Option.getD_some]
  exact ⟨rfl, hb⟩

theorem bucketIdxOf_lt {i : Nat} (hi : i < batch.length) :
    bucketIdxOf batch i < (bucketsOf batch).active.length :=
  (List.getElem?_eq_some_iff.mp (map_tileOf hi).2).1

/-- The bucket of a tile has the tile's entries. -/
theorem bucket_eq_indices {b id : Nat} (hb : (bucketsOf batch).active[b]? = some id) :
    BucketScatter.bucket (bucketIdxOf batch) (List.range batch.length) b = indices batch id := by
  have hv := valid_bucketsOf batch
  refine List.filter_congr fun i hi => ?_
  obtain ⟨hmap, hactive⟩ := map_tileOf (List.mem_range.mp hi)
  rw [Bool.eq_iff_iff, beq_iff_eq, beq_iff_eq]
  constructor
  · intro h
    rw [h, hb, Option.some.injEq] at hactive
    exact hactive.symm
  · intro h
    rw [h, (hv.map id b).mpr hb, Option.some.injEq] at hmap
    exact hmap.symm

theorem counts_eq_indices {b id : Nat} (hb : (bucketsOf batch).active[b]? = some id) :
    (bucketsOf batch).counts b = (indices batch id).length := by
  have hlen : (indices batch id).length = ((indices batch id).map (batch.getD · default)).length :=
    (List.length_map _).symm
  rw [(valid_bucketsOf batch).counts b id hb, hlen, map_indices, List.count_eq_countP,
    List.countP_map, List.countP_eq_length_filter]
  rfl

theorem counts_bucketsOf (batch : List Descriptor) : (bucketsOf batch).counts =
    BucketScatter.counts (bucketIdxOf batch) (List.range batch.length) := by
  funext b
  rw [BucketScatter.counts_eq]
  cases hb : (bucketsOf batch).active[b]? with
  | some id => rw [counts_eq_indices hb, bucket_eq_indices hb]
  | none =>
    have hnil : BucketScatter.bucket (bucketIdxOf batch) (List.range batch.length) b = [] := by
      refine List.filter_eq_nil_iff.mpr fun i hi h => ?_
      have := (map_tileOf (List.mem_range.mp hi)).2
      rw [beq_iff_eq.mp h, hb] at this
      cases this
    rw [(valid_bucketsOf batch).rest b (List.getElem?_eq_none_iff.mp hb), hnil, List.length_nil]

/-- Where each bucket starts. -/
def offsetOf (batch : List Descriptor) : Nat → Nat := BucketScatter.offsets (bucketsOf batch).counts

theorem offsetOf_add_le {b : Nat} (hb : b < (bucketsOf batch).active.length) :
    offsetOf batch b + (bucketsOf batch).counts b ≤ batch.length := by
  have hmono : offsetOf batch (b + 1) ≤ offsetOf batch (bucketsOf batch).active.length :=
    BucketScatter.offsets_mono _ hb
  have hall : offsetOf batch (bucketsOf batch).active.length = batch.length := by
    rw [offsetOf, counts_bucketsOf, BucketScatter.offsets_length fun i hi =>
      bucketIdxOf_lt (List.mem_range.mp hi), List.length_range]
  rw [← hall]
  exact hmono

theorem prefixSum_spec (h : t.Shows (bucketsOf batch)) (hlen : batch.length ≤ maxBatchSize) :
    ∃ tileOffsets, prefixSum t = some tileOffsets ∧
      tileOffsets.Holds (· < max 1 t.numActiveTiles) (offsetOf batch) := by
  have hactive := length_active_le (valid_bucketsOf batch)
  rw [List.length_map] at hactive
  have hzero : (Scratch.fresh : Scratch maxBatchSize Nat).Holds (· < 0) (offsetOf batch) :=
    fun _ hi => absurd hi (Nat.not_lt_zero _)
  obtain ⟨a, ha, ha0⟩ := hzero.extend (by decide)
  change Scratch.fresh.write 0 0 = some a at ha
  simp only [prefixSum, ha, Option.bind_eq_bind, Option.bind_some]
  obtain ⟨c, hc, hinv⟩ := Scratch.foldlM_range (n := t.numActiveTiles - 1) (s := a)
    (f := fun tileOffsets b => do
      tileOffsets.write (b + 1) ((← tileOffsets.read b) + (← t.tileEntryCounts.read b)))
    (fun i a => a.Holds (· < i + 1) (offsetOf batch)) ha0 fun i hi a hinv => by
      have hlt : i + 1 < maxBatchSize := by rw [h.numActiveTiles] at hi; omega
      obtain ⟨c, hc, hinv'⟩ := hinv.extend hlt
      refine ⟨c, ?_, hinv'⟩
      simp only [hinv.read (Nat.lt_succ_self i),
        h.tileEntryCounts.read (show i < maxBatchSize by omega), Option.bind_eq_bind,
        Option.bind_some]
      exact hc
  exact ⟨c, hc, hinv.mono fun i hi => by omega⟩

/-- `fill_pos` and what has been scattered, after the first `i` entries. -/
structure Scattered (batch : List Descriptor) (i : Nat)
    (s : Scratch maxBatchSize Nat × Scratch maxBatchSize Nat) : Prop where
  fillPos : s.1.Holds (· < (bucketsOf batch).active.length) fun b =>
    offsetOf batch b + (BucketScatter.bucket (bucketIdxOf batch) (List.range i) b).length
  flat : ∀ b j x, (BucketScatter.bucket (bucketIdxOf batch) (List.range i) b)[j]? = some x →
    offsetOf batch b + j < maxBatchSize ∧ s.2.cell (offsetOf batch b + j) = some x

theorem bucket_range_succ (key : Nat → Nat) (i b : Nat) :
    BucketScatter.bucket key (List.range (i + 1)) b =
      BucketScatter.bucket key (List.range i) b ++ if key i = b then [i] else [] := by
  rw [BucketScatter.bucket, List.range_succ, List.filter_append]
  by_cases h : key i = b <;> simp [BucketScatter.bucket, h]

theorem length_bucket_range_le (key : Nat → Nat) {i n : Nat} (h : i ≤ n) (b : Nat) :
    (BucketScatter.bucket key (List.range i) b).length ≤
      (BucketScatter.bucket key (List.range n) b).length := by
  obtain ⟨k, rfl⟩ := Nat.exists_eq_add_of_le h
  rw [BucketScatter.bucket, BucketScatter.bucket, List.range_add, List.filter_append,
    List.length_append]
  exact Nat.le_add_right _ _

/-- Scattering one entry. -/
theorem scatterEntry_spec (h : t.Shows (bucketsOf batch)) (hlen : batch.length ≤ maxBatchSize)
    (hids : ∀ d ∈ batch, d.group < maxTiles) {i : Nat} (hi : i < batch.length)
    {s : Scratch maxBatchSize Nat × Scratch maxBatchSize Nat} (hs : Scattered batch i s) :
    ∃ s', scatterEntry batch t s i = some s' ∧ Scattered batch (i + 1) s' := by
  have hd : batch[i]? = some batch[i] := List.getElem?_eq_getElem hi
  have htile : (batch[i]).group = tileOf batch i := (tileOf_of_getElem? hd).symm
  have hid : tileOf batch i < maxTiles := htile ▸ hids _ (List.getElem_mem hi)
  have hb := bucketIdxOf_lt hi
  have hmap := (map_tileOf hi).1
  generalize hk : bucketIdxOf batch i = k at hb hmap
  have hcount : ∀ b, (BucketScatter.bucket (bucketIdxOf batch) (List.range batch.length) b).length =
      (bucketsOf batch).counts b := fun b => by rw [counts_bucketsOf, BucketScatter.counts_eq]
  -- the bucket still has room for the entry
  have hroom : (BucketScatter.bucket (bucketIdxOf batch) (List.range i) k).length <
      (bucketsOf batch).counts k := by
    have := length_bucket_range_le (bucketIdxOf batch) hi k
    rw [bucket_range_succ, if_pos hk, List.length_append, List.length_singleton, hcount] at this
    omega
  have hpos : offsetOf batch k + (BucketScatter.bucket (bucketIdxOf batch) (List.range i) k).length <
      maxBatchSize := by
    have := offsetOf_add_le hb
    omega
  obtain ⟨f, hf, hfill⟩ := hs.fillPos.overwrite hb
    (offsetOf batch k + (BucketScatter.bucket (bucketIdxOf batch) (List.range i) k).length + 1)
  refine ⟨(f, ⟨Function.update s.2.cell (offsetOf batch k +
    (BucketScatter.bucket (bucketIdxOf batch) (List.range i) k).length) (some i)⟩), ?_, ?_, ?_⟩
  · have hflat : s.2.write (offsetOf batch k +
        (BucketScatter.bucket (bucketIdxOf batch) (List.range i) k).length) i = some _ := if_pos hpos
    simp only [scatterEntry, hd, Option.bind_eq_bind, Option.bind_some, htile,
      if_neg (Nat.not_le.mpr hid), h.bucketMap.read hid, hmap, hs.fillPos.read hb, hf, hflat]
    rfl
  · refine hfill.congr fun b _ => ?_
    by_cases hbk : b = k
    · subst hbk
      rw [Function.update_self, bucket_range_succ, if_pos hk, List.length_append,
        List.length_singleton, Nat.add_assoc]
    · rw [Function.update_of_ne hbk, bucket_range_succ, if_neg fun he => hbk (he.symm.trans hk),
        List.append_nil]
  · intro b j x hx
    rw [bucket_range_succ] at hx
    by_cases hlast : b = k ∧ j = (BucketScatter.bucket (bucketIdxOf batch) (List.range i) k).length
    · obtain ⟨rfl, rfl⟩ := hlast
      rw [if_pos hk, List.getElem?_concat_length, Option.some.injEq] at hx
      subst hx
      exact ⟨hpos, Function.update_self ..⟩
    · have hold : (BucketScatter.bucket (bucketIdxOf batch) (List.range i) b)[j]? = some x := by
        by_cases hbk : bucketIdxOf batch i = b
        · have hlt := (List.getElem?_eq_some_iff.mp hx).1
          rw [if_pos hbk, List.length_append, List.length_singleton] at hlt
          rw [if_pos hbk, List.getElem?_append_left] at hx
          · exact hx
          · have : j ≠ (BucketScatter.bucket (bucketIdxOf batch) (List.range i) b).length :=
              fun he => hlast ⟨hbk ▸ hk, by rw [← hk, hbk]; exact he⟩
            omega
        · rwa [if_neg hbk, List.append_nil] at hx
      obtain ⟨h1, h2⟩ := hs.flat b j x hold
      refine ⟨h1, ?_⟩
      have hj := (List.getElem?_eq_some_iff.mp hold).1
      have hle := length_bucket_range_le (bucketIdxOf batch) (Nat.le_of_lt hi) b
      refine (Function.update_of_ne (fun he => ?_) _ _).trans h2
      -- two buckets do not share a position
      have hapart := BucketScatter.apart_offsets (bucketIdxOf batch) (List.range batch.length) b k
        (offsetOf batch b + j)
      rw [← counts_bucketsOf] at hapart
      obtain rfl := hapart ⟨Nat.le_add_right _ _, Nat.add_lt_add_left (by omega) _⟩
        ⟨by rw [he]; exact Nat.le_add_right _ _, by
          rw [he]; exact Nat.add_lt_add_left (by rw [hcount]; exact hroom) _⟩
      exact hlast ⟨rfl, by omega⟩

/-- The grouping arrays hold the partition of the batch by tile: `ids` are the tiles that occur, and
the indices of bucket `b` are those of the entries of tile `ids[b]`, in order. -/
structure Grouping.Shows (g : Grouping) (batch : List Descriptor) (ids : List Nat) : Prop where
  nodup : ids.Nodup
  mem : ∀ id, id ∈ ids ↔ id ∈ batch.map Descriptor.group
  numActiveTiles : g.tables.numActiveTiles = ids.length
  activeTileIds : g.tables.activeTileIds.Lists ids
  bucket : ∀ b id, ids[b]? = some id → ∃ start, g.tileOffsets.read b = some start ∧
    g.tables.tileEntryCounts.read b = some (indices batch id).length ∧
    ∀ i x, (indices batch id)[i]? = some x → g.flatIndices.read (start + i) = some x

/-- Resetting the tiles touched empties the bucket map. -/
theorem clear_spec (h : t.Shows (bucketsOf batch)) (hids : ∀ d ∈ batch, d.group < maxTiles) :
    ∃ bucketMap, (List.range t.numActiveTiles).foldlM
        (fun bucketMap b => do bucketMap.write (← t.activeTileIds.read b) none) t.bucketMap =
      some bucketMap ∧ bucketMap.Holds (· < maxTiles) fun _ => none := by
  have hv := valid_bucketsOf batch
  obtain ⟨m, hm, hinv⟩ := Scratch.foldlM_range (n := t.numActiveTiles) (s := t.bucketMap)
    (f := fun bucketMap b => do bucketMap.write (← t.activeTileIds.read b) none)
    (fun i (m : Scratch maxTiles (Option Nat)) => m.Holds (· < maxTiles) fun x =>
      if x ∈ (bucketsOf batch).active.take i then none else (bucketsOf batch).map x)
    (h.bucketMap.congr fun x _ => by simp) fun i hi m hinv => by
      rw [h.numActiveTiles] at hi
      have hid : (bucketsOf batch).active[i] < maxTiles := by
        obtain ⟨d, hd, hdi⟩ := List.mem_map.mp ((hv.active _).mp (List.getElem_mem hi))
        exact hdi ▸ hids d hd
      obtain ⟨m', hm', hinv'⟩ := hinv.overwrite hid none
      refine ⟨m', ?_, hinv'.congr fun x _ => ?_⟩
      · simp only [h.activeTileIds.read (List.getElem?_eq_getElem hi), Option.bind_eq_bind,
          Option.bind_some, hm']
      · simp only [List.take_succ_eq_append_getElem hi, List.mem_append, List.mem_singleton]
        by_cases hx : x = (bucketsOf batch).active[i]
        · rw [hx, Function.update_self, if_pos (.inr rfl)]
        · simp only [Function.update_of_ne hx, hx, or_false]
  refine ⟨m, hm, hinv.congr fun x _ => ?_⟩
  rw [h.numActiveTiles, List.take_length]
  split
  · rfl
  · rename_i hx
    cases hmap : (bucketsOf batch).map x with
    | none => rfl
    | some b => exact absurd (List.mem_of_getElem? ((hv.map x b).mp hmap)) hx

/-- **The grouping** stays inside its arrays, partitions the batch, and leaves the map empty. -/
theorem group_spec {bucketMap : Scratch maxTiles (Option Nat)}
    (hmap : bucketMap.Holds (· < maxTiles) fun _ => none) (hlen : batch.length ≤ maxBatchSize)
    (hids : ∀ d ∈ batch, d.group < maxTiles) :
    ∃ g bucketMap', group bucketMap batch = some (g, bucketMap') ∧
      g.Shows batch (bucketsOf batch).active ∧ bucketMap'.Holds (· < maxTiles) fun _ => none := by
  have hv := valid_bucketsOf batch
  have hactive := length_active_le hv
  rw [List.length_map] at hactive
  obtain ⟨t, ht, hs⟩ := first_pass hmap hlen hids
  obtain ⟨off, hoff, hoffs⟩ := prefixSum_spec hs hlen
  rw [hs.numActiveTiles] at hoffs
  obtain ⟨fill, hfill, hfills⟩ := Scratch.foldlM_range (n := t.numActiveTiles) (s := .fresh)
    (f := fun fillPos b => do fillPos.write b (← off.read b))
    (fun i (a : Scratch maxBatchSize Nat) => a.Holds (· < i) (offsetOf batch))
    (fun _ hi => absurd hi (Nat.not_lt_zero _)) fun i hi a hinv => by
      rw [hs.numActiveTiles] at hi
      obtain ⟨a', ha', hinv'⟩ := hinv.extend (show i < maxBatchSize by omega)
      refine ⟨a', ?_, hinv'⟩
      simp only [hoffs.read (show i < max 1 _ by omega), Option.bind_eq_bind, Option.bind_some, ha']
  obtain ⟨s, hscatter, hscattered⟩ := Scratch.foldlM_range (n := batch.length) (s := (fill, .fresh))
    (Scattered batch) ⟨hs.numActiveTiles ▸ hfills, nofun⟩
    fun i hi s hinv => scatterEntry_spec hs hlen hids hi hinv
  obtain ⟨m, hm, hclear⟩ := clear_spec hs hids
  refine ⟨⟨t, off, s.2⟩, m, ?_, ⟨hv.nodup, hv.active, hs.numActiveTiles, hs.activeTileIds,
    fun b id hb => ?_⟩, hclear⟩
  · simp only [Option.bind_eq_bind] at hfill hm
    simp only [group, ht, hoff, hfill, hscatter, hm, Option.bind_eq_bind, Option.bind_some]
    rfl
  · have hlt := (List.getElem?_eq_some_iff.mp hb).1
    refine ⟨offsetOf batch b, hoffs.read (by omega), ?_, fun i x hx => ?_⟩
    · rw [← counts_eq_indices hb]
      exact hs.tileEntryCounts.read (show b < maxBatchSize by omega)
    · rw [← bucket_eq_indices hb] at hx
      obtain ⟨hsize, hcell⟩ := hscattered.flat b i x hx
      rw [Scratch.read, if_pos hsize, hcell]

end Gfd.TiledBatch
