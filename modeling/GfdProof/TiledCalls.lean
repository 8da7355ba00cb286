import Mathlib
import GfdProof.TiledBatch

/-! # What a call of `process_batch_tiled` does

From the grouping to what is submitted: the entries in bucket order, the data
submissions, which are those of `tiledEntries`, the progress and the signal
writes.  `refines_of_run` says of every call in every sequence of calls that it
does what a loop over its descriptors would.
-/
namespace Gfd.TiledBatch

variable {batch : List Descriptor} {ids : List Nat} {g : Grouping}

/-! ## The entries -/

/-- The descriptors of a tile. -/
def ofTile (batch : List Descriptor) (id : Nat) : List Descriptor := batch.filter fun d => d.group == id

/-- Their entries. -/
def entriesOf (batch : List Descriptor) (id : Nat) : List SGEntry :=
  (ofTile batch id).map Descriptor.entry

theorem length_entriesOf (batch : List Descriptor) (id : Nat) :
    (entriesOf batch id).length = (indices batch id).length := by
  rw [entriesOf, List.length_map, ofTile, ← map_indices, List.length_map]

theorem getElem?_entriesOf {id i : Nat} {e : SGEntry} (h : (entriesOf batch id)[i]? = some e) :
    ∃ idx d, (indices batch id)[i]? = some idx ∧ batch[idx]? = some d ∧ d.entry = e := by
  rw [entriesOf, ofTile, ← map_indices, List.getElem?_map, List.getElem?_map] at h
  cases hidx : (indices batch id)[i]? with
  | none =>
    rw [hidx] at h
    cases h
  | some idx =>
    rw [hidx, Option.map_some, Option.map_some, Option.some.injEq] at h
    have hlt := List.mem_range.mp (List.mem_filter.mp (List.mem_of_getElem? hidx)).1
    refine ⟨idx, batch[idx], rfl, List.getElem?_eq_getElem hlt, ?_⟩
    rw [← h, List.getD_eq_getElem?_getD, List.getElem?_eq_getElem hlt, Option.getD_some]

/-- The groups together are the batch. -/
theorem flatMap_ofTile_perm (h : g.Shows batch ids) : (ids.flatMap (ofTile batch)).Perm batch := by
  refine (BucketScatter.flatMap_filter_perm Descriptor.group batch h.nodup).trans ?_
  rw [List.filter_eq_self.mpr fun d hd => decide_eq_true ((h.mem _).mpr (List.mem_map_of_mem hd))]

theorem length_take_entriesOf_le (h : g.Shows batch ids) (b : Nat) :
    ((ids.take b).map (entriesOf batch)).flatten.length ≤ batch.length := by
  have hall : (ids.map (entriesOf batch)).flatten.length = batch.length := by
    rw [← (flatMap_ofTile_perm h).length_eq, ← List.flatMap_def, List.length_flatMap,
      List.length_flatMap]
    exact congrArg List.sum (List.map_congr_left fun id _ => List.length_map _)
  rw [← hall]
  conv_rhs => rw [← List.take_append_drop b ids, List.map_append, List.flatten_append, List.length_append]
  exact Nat.le_add_right _ _

/-- The arrays hold a list of entries. -/
structure Entries.Holding (s : Entries) (l : List SGEntry) : Prop where
  allSgEntries : s.allSgEntries.Lists l
  totalSgCount : s.totalSgCount = l.length
  totalBytes : s.totalBytes = word (totalSize l)

/-- The arrays hold the entries of some buckets. -/
structure Entries.Shows (s : Entries) (es : List (List SGEntry)) : Prop where
  holding : s.Holding es.flatten
  tileSgOffsets : s.tileSgOffsets.Holds (· < es.length) fun b => (es.take b).flatten.length
  tileSgCounts : s.tileSgCounts.Holds (· < es.length) fun b => (es.getD b []).length

theorem totalSize_append (l l' : List SGEntry) : totalSize (l ++ l') = totalSize l + totalSize l' := by
  rw [totalSize, List.map_append, List.sum_append, totalSize, totalSize]

theorem buildEntry_spec {s : Entries} {l : List SGEntry} (hs : s.Holding l)
    (hl : l.length < maxBatchSize) {baseIdx i idx : Nat} {d : Descriptor}
    (hidx : g.flatIndices.read (baseIdx + i) = some idx) (hd : batch[idx]? = some d) :
    ∃ s', buildEntry batch g baseIdx s i = some s' ∧ s'.Holding (l ++ [d.entry]) ∧
      s'.tileSgOffsets = s.tileSgOffsets ∧ s'.tileSgCounts = s.tileSgCounts := by
  obtain ⟨a, ha, hlists⟩ := hs.allSgEntries.push hl d.entry
  refine ⟨{ s with
    allSgEntries := a
    totalBytes := word (s.totalBytes + d.size)
    totalSgCount := s.totalSgCount + 1 }, ?_, ⟨hlists, ?_, ?_⟩, rfl, rfl⟩
  · simp only [buildEntry, hidx, hd, hs.totalSgCount, ha, Option.bind_eq_bind, Option.bind_some]
    rfl
  · rw [hs.totalSgCount, List.length_append, List.length_singleton]
  · rw [hs.totalBytes, word_add_word, totalSize_append]
    simp [totalSize, Descriptor.entry]

theorem buildBucket_spec (h : g.Shows batch ids) (hlen : batch.length ≤ maxBatchSize) {s : Entries}
    {b : Nat} (hs : s.Shows ((ids.take b).map (entriesOf batch))) (hb : b < ids.length) :
    ∃ s', buildBucket batch g s b = some s' ∧
      s'.Shows ((ids.take (b + 1)).map (entriesOf batch)) := by
  have htake : (ids.take (b + 1)).map (entriesOf batch) =
      (ids.take b).map (entriesOf batch) ++ [entriesOf batch ids[b]] := by
    rw [List.take_succ_eq_append_getElem hb, List.map_append, List.map_singleton]
  have htotal := length_take_entriesOf_le h (b + 1)
  have hnum : ids.length ≤ maxBatchSize := by
    have hsub : ids.length ≤ (batch.map Descriptor.group).length :=
      (List.subperm_of_subset h.nodup fun id hid => (h.mem id).mp hid).length_le
    rw [List.length_map] at hsub
    omega
  obtain ⟨start, hstart, hcount, hflat⟩ := h.bucket b ids[b] (List.getElem?_eq_getElem hb)
  have hes : ((ids.take b).map (entriesOf batch)).length = b := by
    rw [List.length_map, List.length_take]
    omega
  rw [htake] at htotal ⊢
  generalize (ids.take b).map (entriesOf batch) = es at hs hes htotal ⊢
  subst hes
  rw [List.flatten_append, List.flatten_singleton, List.length_append] at htotal
  rw [← length_entriesOf] at hcount
  obtain ⟨offs, hoffs, hoffs'⟩ := hs.tileSgOffsets.write (show es.length < maxBatchSize by omega)
    s.totalSgCount
  obtain ⟨cnts, hcnts, hcnts'⟩ := hs.tileSgCounts.write (show es.length < maxBatchSize by omega)
    (entriesOf batch ids[es.length]).length
  obtain ⟨s', hloop, ⟨hhold, hso, hsc⟩⟩ := Scratch.foldlM_range
    (f := buildEntry batch g start) (n := (entriesOf batch ids[es.length]).length)
    (s := { s with tileSgOffsets := offs, tileSgCounts := cnts })
    (fun i s => s.Holding (es.flatten ++ (entriesOf batch ids[es.length]).take i) ∧
      s.tileSgOffsets = offs ∧ s.tileSgCounts = cnts)
    ⟨by simpa using ⟨hs.holding.1, hs.holding.2, hs.holding.3⟩, rfl, rfl⟩ fun i hi s hinv => by
      obtain ⟨idx, d, hidx, hd, hentry⟩ := getElem?_entriesOf (List.getElem?_eq_getElem hi)
      obtain ⟨s', hs', hhold, hso, hsc⟩ := buildEntry_spec hinv.1
        (by rw [List.length_append, List.length_take]; omega) (hflat i idx hidx) hd
      refine ⟨s', hs', ?_, hso.trans hinv.2.1, hsc.trans hinv.2.2⟩
      rwa [List.take_succ_eq_append_getElem hi, ← List.append_assoc, ← hentry]
  refine ⟨s', ?_, ?_, ?_, ?_⟩
  · simp only [buildBucket, hoffs, hcount, hcnts, hstart, hloop, Option.bind_eq_bind, Option.bind_some]
  · rwa [List.take_length, ← List.flatten_singleton (l := entriesOf batch ids[es.length]),
      ← List.flatten_append] at hhold
  · rw [hso]
    refine (hoffs'.mono fun j hj => ?_).congr fun j hj => ?_
    · rw [List.length_append, List.length_singleton] at hj
      omega
    · rcases Nat.lt_or_ge j es.length with hlt | hge
      · rw [Function.update_of_ne (Nat.ne_of_lt hlt), List.take_append_of_le_length (Nat.le_of_lt hlt)]
      · rw [List.length_append, List.length_singleton] at hj
        obtain rfl : j = es.length := by omega
        rw [Function.update_self, List.take_left, hs.holding.totalSgCount]
  · rw [hsc]
    refine (hcnts'.mono fun j hj => ?_).congr fun j hj => ?_
    · rw [List.length_append, List.length_singleton] at hj
      omega
    · rcases Nat.lt_or_ge j es.length with hlt | hge
      · rw [Function.update_of_ne (Nat.ne_of_lt hlt), List.getD_append _ _ _ _ hlt]
      · rw [List.length_append, List.length_singleton] at hj
        obtain rfl : j = es.length := by omega
        rw [Function.update_self]
        simp

/-- The entries of all buckets. -/
theorem build_spec (h : g.Shows batch ids) (hlen : batch.length ≤ maxBatchSize) :
    ∃ es, build batch g = some es ∧ es.Shows (ids.map (entriesOf batch)) := by
  obtain ⟨es, hes, hs⟩ := Scratch.foldlM_range (f := buildBucket batch g) (n := ids.length)
    (s := ⟨.fresh, 0, 0, .fresh, .fresh⟩)
    (fun b s => s.Shows ((ids.take b).map (entriesOf batch)))
    ⟨⟨Scratch.lists_nil _, rfl, rfl⟩, fun _ hi => absurd hi (Nat.not_lt_zero _),
      fun _ hi => absurd hi (Nat.not_lt_zero _)⟩
    fun b hb s hs => buildBucket_spec h hlen hs hb
  rw [List.take_length] at hs
  exact ⟨es, by rw [build, h.numActiveTiles, hes], hs⟩

/-! ## The data submissions -/

/-- The loop over a part of the array is the test of that part. -/
theorem contiguousLoop_spec {a : Scratch maxBatchSize SGEntry} (es l₁ l₂ : List SGEntry) (prev : SGEntry)
    (h : a.Lists (l₁ ++ (prev :: es) ++ l₂)) :
    contiguousLoop a (l₁.length + 1) es.length = some (contiguous (prev :: es)) := by
  induction es generalizing l₁ prev with
  | nil => rfl
  | cons e es ih =>
    have hprev : a.read (l₁.length + 1 - 1) = some prev := h.read (by simp)
    have he : a.read (l₁.length + 1) = some e := h.read (by simp)
    have hrest := ih (l₁ ++ [prev]) e (by simpa using h)
    rw [List.length_append, List.length_singleton] at hrest
    simp only [contiguousLoop, List.length_cons, hprev, he, Option.bind_eq_bind, Option.bind_some,
      hrest, contiguous]
    cases prev.dContig e <;> cases prev.sContig e <;> rfl

theorem totalSize_le {l : List SGEntry} (h : ∀ e ∈ l, e.size < 2 ^ 32) :
    totalSize l ≤ l.length * 2 ^ 32 := by
  induction l with
  | nil => simp [totalSize]
  | cons e l ih =>
    have he := h e List.mem_cons_self
    have hl := ih fun e' he' => h e' (List.mem_cons_of_mem _ he')
    have hcons : totalSize (e :: l) = e.size + totalSize l := by simp [totalSize]
    rw [hcons, List.length_cons]
    omega

/-- The byte count of a batch does not wrap. -/
theorem word_totalSize {l : List SGEntry} (h : ∀ e ∈ l, e.size < 2 ^ 32)
    (hlen : l.length ≤ maxBatchSize) : word (totalSize l) = totalSize l := by
  refine word_of_lt (Nat.lt_of_le_of_lt (totalSize_le h) ?_)
  unfold maxBatchSize at hlen
  unfold wordSize
  omega

theorem ofTile_ne_nil (h : g.Shows batch ids) {id : Nat} (hid : id ∈ ids) : ofTile batch id ≠ [] := by
  obtain ⟨d, hd, rfl⟩ := List.mem_map.mp ((h.mem id).mp hid)
  exact List.ne_nil_of_mem (List.mem_filter.mpr ⟨hd, beq_self_eq_true _⟩)

theorem mem_entriesOf_size (hsize : ∀ d ∈ batch, d.size < 2 ^ 32) {id : Nat} :
    ∀ e ∈ entriesOf batch id, e.size < 2 ^ 32 := by
  intro e he
  obtain ⟨d, hd, rfl⟩ := List.mem_map.mp he
  exact hsize d (List.mem_filter.mp hd).1

/-- What is submitted for a group. -/
theorem fst_groupEntries {ds : List Descriptor} {e : SGEntry} {es : List SGEntry}
    (h : ds.map Descriptor.entry = e :: es) : (groupEntries ds).map Prod.fst =
      if es.length = 0 then [e] else if contiguous (e :: es) then [mergeAll (e :: es)] else e :: es := by
  unfold groupEntries
  split
  · obtain ⟨rfl, rfl⟩ : _ = e ∧ [] = es := List.cons.inj h
    rfl
  · rename_i hsingle
    have hlen : es.length ≠ 0 := fun h0 => by
      have := congrArg List.length h
      rw [List.length_map, List.length_cons, h0] at this
      obtain ⟨d, rfl⟩ := List.length_eq_one_iff.mp this
      exact hsingle d rfl
    rw [if_neg hlen, h]
    split
    · rfl
    · rw [List.map_map, ← h]
      rfl

theorem submitTile_spec (h : g.Shows batch ids) (hlen : batch.length ≤ maxBatchSize)
    (hsize : ∀ d ∈ batch, d.size < 2 ^ 32) {s : Entries} (hs : s.Shows (ids.map (entriesOf batch)))
    {b : Nat} (hb : b < ids.length) :
    submitTile s b = some ((groupEntries (ofTile batch ids[b])).map Prod.fst) := by
  have hlt : b < (ids.map (entriesOf batch)).length := by rwa [List.length_map]
  have hoff := hs.tileSgOffsets.read hlt
  have hcnt := hs.tileSgCounts.read hlt
  rw [List.getD_eq_getElem _ _ hlt, List.getElem_map] at hcnt
  have hall := hs.holding.allSgEntries
  have hsplit : (ids.map (entriesOf batch)).flatten = ((ids.map (entriesOf batch)).take b).flatten ++
      entriesOf batch ids[b] ++ ((ids.map (entriesOf batch)).drop (b + 1)).flatten := by
    conv_lhs => rw [← List.take_append_drop b (ids.map (entriesOf batch)), List.drop_eq_getElem_cons hlt,
      List.flatten_append, List.flatten_cons, List.getElem_map, ← List.append_assoc]
  rw [hsplit] at hall
  have hbound : (entriesOf batch ids[b]).length ≤ maxBatchSize := by
    rw [entriesOf, List.length_map]
    exact Nat.le_trans (List.length_filter_le _ _) hlen
  have hword := word_totalSize (mem_entriesOf_size hsize) hbound
  generalize ((ids.map (entriesOf batch)).take b).flatten = l₁ at hall hoff
  generalize ((ids.map (entriesOf batch)).drop (b + 1)).flatten = l₂ at hall
  cases hes : entriesOf batch ids[b] with
  | nil =>
    exact absurd (List.map_eq_nil_iff.mp hes) (ofTile_ne_nil h (List.getElem_mem hb))
  | cons e es =>
    rw [hes] at hall hcnt hword
    rw [fst_groupEntries hes]
    have he : s.allSgEntries.read l₁.length = some e := hall.read (by simp)
    have hloop := contiguousLoop_spec es l₁ l₂ e hall
    obtain ⟨n, hn, hsum⟩ := Scratch.foldlM_range (n := (e :: es).length) (s := 0)
      (f := fun n i => do pure (word (n + (← s.allSgEntries.read (l₁.length + i)).size)))
      (fun i n => n = word (totalSize ((e :: es).take i))) rfl fun i hi n hinv => by
        have hread : s.allSgEntries.read (l₁.length + i) = some (e :: es)[i] := hall.read (by
          rw [List.getElem?_append_left (by simp at hi ⊢; omega),
            List.getElem?_append_right (Nat.le_add_right _ _), Nat.add_sub_cancel_left,
            List.getElem?_eq_getElem hi])
        refine ⟨_, by simp only [hread, Option.bind_eq_bind, Option.bind_some]; rfl, ?_⟩
        rw [List.take_succ_eq_append_getElem hi, totalSize_append, hinv, word_add_word]
        simp [totalSize]
    rw [List.take_length, hword] at hsum
    simp only [submitTile, hoff, hcnt, Option.bind_eq_bind, Option.bind_some, List.length_cons,
      Nat.add_sub_cancel, hloop, he]
    by_cases hone : es.length = 0
    · rw [if_pos (by omega), if_pos hone]
      rfl
    · rw [if_neg (by omega), if_neg hone]
      cases contiguous (e :: es) with
      | true =>
        simp only [if_true]
        simp only [List.length_cons, Option.bind_eq_bind] at hn
        rw [hn, hsum]
        rfl
      | false =>
        have hrange : s.allSgEntries.readRange l₁.length (es.length + 1) = some (e :: es) := hall.readRange
        rw [hrange]
        rfl

/-- The data submissions are those of `tiledEntries`. -/
theorem submitData_spec (h : g.Shows batch ids) (hlen : batch.length ≤ maxBatchSize)
    (hsize : ∀ d ∈ batch, d.size < 2 ^ 32) {s : Entries} (hs : s.Shows (ids.map (entriesOf batch))) :
    submitData g s = some ((tiledEntries (ids.map (ofTile batch))).map (List.map Prod.fst)) := by
  have hmap : (ids.map (ofTile batch)).flatten.map Descriptor.entry =
      (ids.map (entriesOf batch)).flatten := by
    rw [List.map_flatten, List.map_map]
    rfl
  have hcount : (ids.map (ofTile batch)).flatten.length = s.totalSgCount := by
    rw [hs.holding.totalSgCount, ← hmap, List.length_map]
  have hbytes : s.totalBytes = totalSize (ids.map (entriesOf batch)).flatten := by
    rw [hs.holding.totalBytes]
    refine word_totalSize (fun e he => ?_) ?_
    · obtain ⟨l, hl, he⟩ := List.mem_flatten.mp he
      obtain ⟨id, -, rfl⟩ := List.mem_map.mp hl
      exact mem_entriesOf_size hsize e he
    · have := length_take_entriesOf_le h ids.length
      rw [List.take_length] at this
      omega
  have htiles : (List.range g.tables.numActiveTiles).mapM (submitTile s) =
      some ((ids.map (ofTile batch)).map fun ds => (groupEntries ds).map Prod.fst) := by
    rw [h.numActiveTiles]
    have hlen' : ids.length = ((ids.map (ofTile batch)).map fun ds => (groupEntries ds).map Prod.fst).length := by
      simp
    rw [hlen']
    refine Scratch.mapM_range_length _ fun i x hx => ?_
    rw [List.map_map, List.getElem?_map] at hx
    cases hid : ids[i]? with
    | none =>
      rw [hid] at hx
      cases hx
    | some id =>
      obtain ⟨hi, rfl⟩ := List.getElem?_eq_some_iff.mp hid
      rw [hid, Option.map_some, Option.some.injEq] at hx
      rw [submitTile_spec h hlen hsize hs hi, ← hx]
      rfl
  unfold submitData tiledEntries
  dsimp only
  rw [hcount, hmap]
  by_cases hmany : 1 < s.totalSgCount
  · rw [if_pos hmany]
    cases hflat : (ids.map (entriesOf batch)).flatten with
    | nil =>
      rw [hs.holding.totalSgCount, hflat] at hmany
      exact absurd hmany (by decide)
    | cons e es =>
      have hall : s.allSgEntries.Lists ([] ++ (e :: es) ++ []) := by
        simpa [hflat] using hs.holding.allSgEntries
      have hloop := contiguousLoop_spec es [] [] e hall
      have hes : s.totalSgCount - 1 = es.length := by
        rw [hs.holding.totalSgCount, hflat]
        rfl
      rw [hes, List.length_nil, Nat.zero_add] at *
      simp only [hloop, Option.bind_eq_bind, Option.bind_some]
      by_cases hc : contiguous (e :: es) = true
      · rw [if_pos ⟨hc, hmany⟩, if_pos ⟨hmany, hc⟩]
        have he : s.allSgEntries.read 0 = some e := hall.read (by simp)
        simp only [he, Option.bind_some, hbytes, hflat]
        rfl
      · rw [if_neg fun hand => hc hand.1, if_neg fun hand => hc hand.2, htiles]
        simp only [List.map_map]
        rfl
  · rw [if_neg hmany, if_neg fun hand => hmany hand.1]
    simp only [Option.bind_eq_bind, pure, Option.bind_some]
    rw [if_neg fun hand => absurd hand.1 (by decide), htiles]
    simp only [List.map_map]
    rfl

/-! ## The progress and the signals -/

/-- The progress of the tiles after one descriptor has been counted. -/
def countDescriptor (p : Nat → Nat) (d : Descriptor) : Nat → Nat :=
  Function.update p d.group (word (p d.group + 1))

theorem foldl_countDescriptor (batch : List Descriptor) (p : Nat → Nat) (tile : Nat) :
    batch.foldl countDescriptor p tile =
      if ofTile batch tile = [] then p tile else word (p tile + (ofTile batch tile).length) := by
  induction batch generalizing p with
  | nil => rfl
  | cons d ds ih =>
    rw [List.foldl_cons, ih]
    by_cases h : d.group = tile
    · have hcons : ofTile (d :: ds) tile = d :: ofTile ds tile := by simp [ofTile, h]
      rw [hcons, if_neg (List.cons_ne_nil _ _), countDescriptor, h, Function.update_self,
        List.length_cons]
      split
      · rename_i hnil
        rw [hnil]
        rfl
      · rw [word_add_word, Nat.add_assoc, Nat.add_comm 1]
    · have hcons : ofTile (d :: ds) tile = ofTile ds tile := by simp [ofTile, h]
      rw [hcons, countDescriptor, Function.update_of_ne (Ne.symm h)]

theorem lt_maxTiles (h : g.Shows batch ids) (hids : ∀ d ∈ batch, d.group < maxTiles) :
    ∀ id ∈ ids, id < maxTiles := by
  intro id hid
  obtain ⟨d, hd, rfl⟩ := List.mem_map.mp ((h.mem id).mp hid)
  exact hids d hd

theorem length_ids_le (h : g.Shows batch ids) (hids : ∀ d ∈ batch, d.group < maxTiles) :
    ids.length ≤ maxTiles := by
  have hsub : ids.length ≤ (List.range maxTiles).length :=
    (List.subperm_of_subset h.nodup fun id hid =>
      List.mem_range.mpr (lt_maxTiles h hids id hid)).length_le
  rwa [List.length_range] at hsub

theorem addProgress_spec (h : g.Shows batch ids) (hids : ∀ d ∈ batch, d.group < maxTiles)
    {es : Entries} (hes : es.Shows (ids.map (entriesOf batch))) {s : Tiles} {p buf : Nat → Nat}
    (hp : s.tileProgress.Holds (· < maxTiles) p) (hbuf : s.tileSignalBuf.Holds (· < maxTiles) buf) :
    ∃ t, (List.range g.tables.numActiveTiles).foldlM (addProgress g es) s = some t ∧
      t.bucketMap = s.bucketMap ∧ t.tileProgress.Holds (· < maxTiles) (batch.foldl countDescriptor p) ∧
      t.tileSignalBuf.Holds (· < maxTiles) fun tile =>
        if tile ∈ batch.map Descriptor.group then batch.foldl countDescriptor p tile else buf tile := by
  have hvalue : ∀ tile, batch.foldl countDescriptor p tile =
      if tile ∈ ids then word (p tile + (ofTile batch tile).length) else p tile := by
    intro tile
    rw [foldl_countDescriptor]
    by_cases ht : tile ∈ ids
    · rw [if_neg (ofTile_ne_nil h ht), if_pos ht]
    · rw [if_neg ht, if_pos]
      refine List.filter_eq_nil_iff.mpr fun d hd hdt => ht ((h.mem tile).mpr ?_)
      exact List.mem_map.mpr ⟨d, hd, beq_iff_eq.mp hdt⟩
  obtain ⟨t, ht, hmap, hp', hbuf'⟩ := Scratch.foldlM_range (f := addProgress g es)
    (n := g.tables.numActiveTiles) (s := s)
    (fun i t => t.bucketMap = s.bucketMap ∧
      (t.tileProgress.Holds (· < maxTiles) fun tile =>
        if tile ∈ ids.take i then word (p tile + (ofTile batch tile).length) else p tile) ∧
      t.tileSignalBuf.Holds (· < maxTiles) fun tile =>
        if tile ∈ ids.take i then word (p tile + (ofTile batch tile).length) else buf tile)
    ⟨rfl, hp.congr fun _ _ => by simp, hbuf.congr fun _ _ => by simp⟩
    fun i hi t ⟨hmap, hpi, hbufi⟩ => by
      rw [h.numActiveTiles] at hi
      have hid := lt_maxTiles h hids _ (List.getElem_mem hi)
      have hfresh : ids[i] ∉ ids.take i := by
        intro hmem
        obtain ⟨j, hj, hji⟩ := List.getElem_of_mem hmem
        rw [List.length_take] at hj
        rw [List.getElem_take] at hji
        have := (h.nodup.getElem_inj_iff).mp hji
        omega
      have hcnt := hes.tileSgCounts.read (i := i) (by rwa [List.length_map])
      rw [List.getD_eq_getElem _ _ (by rwa [List.length_map]), List.getElem_map, entriesOf,
        List.length_map] at hcnt
      have hread := hpi.read hid
      rw [if_neg hfresh] at hread
      obtain ⟨p', hp', hpi'⟩ := hpi.overwrite hid (word (p ids[i] + (ofTile batch ids[i]).length))
      obtain ⟨b', hb', hbufi'⟩ := hbufi.overwrite hid (word (p ids[i] + (ofTile batch ids[i]).length))
      refine ⟨{ t with tileProgress := p', tileSignalBuf := b' }, ?_, hmap, hpi'.congr fun tile _ => ?_,
        hbufi'.congr fun tile _ => ?_⟩
      · simp only [addProgress, h.activeTileIds.read (List.getElem?_eq_getElem hi), hcnt, if_pos hid,
          hread, hp', hb', Option.bind_eq_bind, Option.bind_some]
        rfl
      all_goals
        simp only [List.take_succ_eq_append_getElem hi, List.mem_append, List.mem_singleton]
        by_cases ht : tile = ids[i]
        · rw [ht, Function.update_self, if_pos (.inr rfl)]
        · simp only [Function.update_of_ne ht, ht, or_false]
  rw [h.numActiveTiles, List.take_length] at hp' hbuf'
  refine ⟨t, ht, hmap, hp'.congr fun tile _ => (hvalue tile).symm, hbuf'.congr fun tile _ => ?_⟩
  by_cases htile : tile ∈ ids
  · rw [if_pos htile, if_pos ((h.mem tile).mp htile), hvalue, if_pos htile]
  · rw [if_neg htile, if_neg fun hm => htile ((h.mem tile).mpr hm)]

theorem flatMap_cells (dev : Bool) (ids : List Nat) :
    (ids.map fun id => (⟨dev, id, 1⟩ : SignalWrite)).flatMap SignalWrite.cells =
      ids.map fun id => (dev, id) := by
  rw [List.flatMap_map, List.map_eq_flatMap]
  rfl

theorem signalEach_spec (h : g.Shows batch ids) (hids : ∀ d ∈ batch, d.group < maxTiles) :
    signalEach g = some (ids.map fun id => ⟨true, id, 1⟩) := by
  obtain ⟨ws, hws, hinv⟩ := Scratch.foldlM_range (n := g.tables.numActiveTiles) (s := [])
    (f := fun ws b => do
      let tileId ← g.tables.activeTileIds.read b
      pure (if tileId < maxTiles then ws ++ [(⟨true, tileId, 1⟩ : SignalWrite)] else ws))
    (fun i ws => ws = (ids.take i).map fun id => ⟨true, id, 1⟩) rfl fun i hi ws hinv => by
      rw [h.numActiveTiles] at hi
      refine ⟨_, by
        simp only [h.activeTileIds.read (List.getElem?_eq_getElem hi), Option.bind_eq_bind,
          Option.bind_some]
        rfl, ?_⟩
      rw [if_pos (lt_maxTiles h hids _ (List.getElem_mem hi)), hinv,
        List.take_succ_eq_append_getElem hi, List.map_append, List.map_singleton]
  rw [h.numActiveTiles, List.take_length] at hinv
  rw [signalEach, hws, hinv]

/-- Distinct ids in a range of their number are the whole range. -/
theorem perm_range {l : List Nat} {first : Nat} (hnodup : l.Nodup)
    (hl : ∀ x ∈ l, first ≤ x ∧ x < first + l.length) :
    l.Perm ((List.range l.length).map (first + ·)) := by
  refine (List.subperm_of_subset hnodup fun x hx => ?_).perm_of_length_le (by simp)
  obtain ⟨h1, h2⟩ := hl x hx
  exact List.mem_map.mpr ⟨x - first, List.mem_range.mpr (by omega), by omega⟩

theorem tileRange_spec (h : g.Shows batch ids) (hne : ids ≠ []) :
    ∃ r, tileRange g = some r ∧ r.1 ≤ r.2 ∧ ∀ id ∈ ids, r.1 ≤ id ∧ id ≤ r.2 := by
  have hpos : 0 < ids.length := List.length_pos_iff.mpr hne
  obtain ⟨r, hr, hle, hinv⟩ := Scratch.foldlM_range (n := g.tables.numActiveTiles - 1)
    (s := (ids[0], ids[0]))
    (f := fun (r : Nat × Nat) b => do
      let tileId ← g.tables.activeTileIds.read (b + 1)
      pure (if tileId < r.1 then tileId else r.1, if r.2 < tileId then tileId else r.2))
    (fun i r => r.1 ≤ r.2 ∧ ∀ id ∈ ids.take (i + 1), r.1 ≤ id ∧ id ≤ r.2)
    ⟨Nat.le_refl _, fun id hid => by
      rw [List.take_succ_eq_append_getElem hpos, List.take_zero, List.nil_append,
        List.mem_singleton] at hid
      rw [hid]
      exact ⟨Nat.le_refl _, Nat.le_refl _⟩⟩ fun i hi r ⟨hle, hinv⟩ => by
      have hlt : i + 1 < ids.length := by rw [h.numActiveTiles] at hi; omega
      refine ⟨_, by
        simp only [h.activeTileIds.read (List.getElem?_eq_getElem hlt), Option.bind_eq_bind,
          Option.bind_some]
        rfl, ?_, fun id hid => ?_⟩
      · dsimp only
        split <;> split <;> omega
      · rw [List.take_succ_eq_append_getElem hlt, List.mem_append, List.mem_singleton] at hid
        dsimp only
        rcases hid with hid | rfl
        · obtain ⟨h1, h2⟩ := hinv id hid
          split <;> split <;> omega
        · split <;> split <;> omega
  rw [h.numActiveTiles, Nat.sub_add_cancel hpos, List.take_length] at hinv
  refine ⟨r, ?_, hle, hinv⟩
  simp only [tileRange, h.activeTileIds.read (List.getElem?_eq_getElem hpos), Option.bind_eq_bind,
    Option.bind_some]
  exact hr

theorem signalDevice_spec (h : g.Shows batch ids) (hids : ∀ d ∈ batch, d.group < maxTiles) :
    ∃ ws, signalDevice g = some ws ∧
      (ws.flatMap SignalWrite.cells).Perm (ids.map fun id => (true, id)) := by
  have heach := signalEach_spec h hids
  have hcells : ((ids.map fun id => (⟨true, id, 1⟩ : SignalWrite)).flatMap SignalWrite.cells).Perm
      (ids.map fun id => (true, id)) := by rw [flatMap_cells]
  unfold signalDevice
  rw [h.numActiveTiles]
  by_cases hfew : ids.length ≤ 4
  · exact ⟨_, by rw [if_pos hfew]; exact heach, hcells⟩
  · obtain ⟨⟨minTid, maxTid⟩, hr, hle, hrange⟩ := tileRange_spec h fun hnil => by
      rw [hnil] at hfew
      exact hfew (by decide)
    simp only [if_neg hfew, hr, Option.bind_eq_bind, Option.bind_some]
    by_cases hfull : maxTid - minTid + 1 = ids.length ∧ maxTid < maxTiles
    · refine ⟨_, if_pos hfull, ?_⟩
      have hin : ∀ id ∈ ids, minTid ≤ id ∧ id < minTid + ids.length := fun id hid => by
        have := hrange id hid
        dsimp only at this hle
        omega
      have hperm := perm_range h.nodup hin
      refine ((hperm.map fun id => (true, id)).trans ?_).symm
      rw [List.flatMap_singleton, SignalWrite.cells, hfull.1, List.map_map]
      exact .refl _
    · exact ⟨_, by rw [if_neg hfull]; exact heach, hcells⟩

theorem signalMapped_spec (h : g.Shows batch ids) (hids : ∀ d ∈ batch, d.group < maxTiles) :
    signalMapped g = some (ids.map fun id => ⟨false, id, 1⟩) := by
  have hlen := length_ids_le h hids
  obtain ⟨s, hs, hlists, hnum⟩ := Scratch.foldlM_range (n := g.tables.numActiveTiles) (s := (.fresh, 0))
    (f := fun (s : Scratch maxTiles SignalWrite × Nat) b => do
      let tileId ← g.tables.activeTileIds.read b
      if tileId < maxTiles then pure (← s.1.write s.2 ⟨false, tileId, 1⟩, s.2 + 1) else pure s)
    (fun i s => s.1.Lists ((ids.take i).map fun id => ⟨false, id, 1⟩) ∧ s.2 = i)
    ⟨Scratch.lists_nil _, rfl⟩ fun i hi s ⟨hlists, hnum⟩ => by
      rw [h.numActiveTiles] at hi
      have htake : ((ids.take i).map fun id => (⟨false, id, 1⟩ : SignalWrite)).length = i := by
        rw [List.length_map, List.length_take]
        omega
      obtain ⟨a, ha, hlists'⟩ := hlists.push (by omega) ⟨false, ids[i], 1⟩
      rw [htake] at ha
      refine ⟨(a, i + 1), ?_, ?_, rfl⟩
      · simp only [h.activeTileIds.read (List.getElem?_eq_getElem hi),
          if_pos (lt_maxTiles h hids _ (List.getElem_mem hi)), hnum, ha, Option.bind_eq_bind,
          Option.bind_some]
        rfl
      · rwa [List.take_succ_eq_append_getElem hi, List.map_append, List.map_singleton]
  rw [h.numActiveTiles, List.take_length] at hlists
  rw [h.numActiveTiles] at hnum
  rw [← List.append_nil (ids.map _), ← List.nil_append (ids.map _)] at hlists
  have hrange := hlists.readRange
  rw [List.length_nil, List.length_map] at hrange
  simp only [signalMapped]
  rw [hs]
  simpa only [Option.bind_eq_bind, Option.bind_some, hnum] using hrange

/-- The signal writes cover the cells of the tiles that occur, in the array the kernel polls. -/
theorem signalWrites_spec {cfg : Config} (hbuf : cfg.tileSignalBuf = true) (h : g.Shows batch ids)
    (hids : ∀ d ∈ batch, d.group < maxTiles) :
    ∃ ws, signalWrites cfg g = some ws ∧ (ws.flatMap SignalWrite.cells).Perm
      (ids.map fun tile => (cfg.tiledQueue && cfg.dTileChunkDone && cfg.signalStream, tile)) := by
  simp only [signalWrites, hbuf, if_true]
  by_cases hdev : cfg.tiledQueue ∧ cfg.dTileChunkDone ∧ cfg.signalStream
  · obtain ⟨ws, hws, hcells⟩ := signalDevice_spec h hids
    refine ⟨ws, by rw [if_pos hdev, hws], ?_⟩
    simpa only [hdev.1, hdev.2.1, hdev.2.2, Bool.and_true] using hcells
  · refine ⟨_, by rw [if_neg hdev, signalMapped_spec h hids], ?_⟩
    have hfalse : (cfg.tiledQueue && cfg.dTileChunkDone && cfg.signalStream) = false := by
      rw [Bool.eq_false_iff]
      intro htrue
      simp only [Bool.and_eq_true] at htrue
      exact hdev ⟨htrue.1.1, htrue.1.2, htrue.2⟩
    rw [flatMap_cells, hfalse]

/-! ## Every call -/

/-- The batches the polling thread makes: within the capacities, and to disjoint destinations. -/
structure Sound (batch : List Descriptor) : Prop where
  length_le : batch.length ≤ maxBatchSize
  group_lt : ∀ d ∈ batch, d.group < maxTiles
  size_lt : ∀ d ∈ batch, d.size < 2 ^ 32
  disjoint : batch.Pairwise fun d d' => ∀ a, d.Writes a → ¬ d'.Writes a

/-- A thread before its first call. -/
def Tiles.start (p buf : Nat → Nat) : Tiles where
  bucketMap := .filled none
  tileProgress := ⟨fun tile => some (p tile)⟩
  tileSignalBuf := ⟨fun tile => some (buf tile)⟩

/-- What lives on between calls, with the progress of the tiles and the signal buffer. -/
structure Tiles.Ready (s : Tiles) (p buf : Nat → Nat) : Prop where
  bucketMap : s.bucketMap.Holds (· < maxTiles) fun _ => none
  tileProgress : s.tileProgress.Holds (· < maxTiles) p
  tileSignalBuf : s.tileSignalBuf.Holds (· < maxTiles) buf

/-- A call from `s` to `t` does what a loop over the descriptors would. -/
structure Refines (cfg : Config) (batch : List Descriptor) (s t : Tiles) (out : Outcome) : Prop where
  emptyBefore : s.bucketMap.Holds (· < maxTiles) fun _ => none
  emptyAfter : t.bucketMap.Holds (· < maxTiles) fun _ => none
  /-- The groups are the descriptors of each tile, in order. -/
  grouping : ∃ ids, out.grouping.Shows batch ids
  /-- The bytes of every descriptor are moved once, and no others are. -/
  moved : (out.submissions.flatten.flatMap SGEntry.moves).Perm (batch.flatMap fun d => d.entry.moves)
  /-- They are submitted as the calls of the polling thread have them. -/
  submitted : out.submissions =
    (tiledEntries ((groupBatch maxTiles (fun _ => none) batch).1.map Prod.snd)).map (List.map Prod.fst)
  /-- In whatever order the moves are made, they leave what copying each descriptor leaves. -/
  copied : ∀ byte mem ms, ms.Perm (out.submissions.flatten.flatMap SGEntry.moves) →
    writeMoves byte mem ms = batch.foldl (Descriptor.copy byte) mem
  progress : ∀ p, s.tileProgress.Holds (· < maxTiles) p →
    t.tileProgress.Holds (· < maxTiles) (batch.foldl countDescriptor p)
  /-- The signal buffer has the progress of the tiles that occur. -/
  buffer : ∀ d ∈ batch, t.tileSignalBuf.read d.group = t.tileProgress.read d.group
  /-- Their cells are signalled once each, and no others are. -/
  signals : (out.signals.flatMap SignalWrite.cells).Perm ((batch.map Descriptor.group).dedup.map
    fun tile => (cfg.tiledQueue && cfg.dTileChunkDone && cfg.signalStream, tile))

variable {cfg : Config} {s : Tiles} {p buf : Nat → Nat}

theorem ready_start (p buf : Nat → Nat) : (Tiles.start p buf).Ready p buf where
  bucketMap := Scratch.holds_filled none
  tileProgress _ hi := ⟨hi, rfl⟩
  tileSignalBuf _ hi := ⟨hi, rfl⟩

/-- The groups of the polling thread's calls. -/
theorem map_snd_groupBatch (hids : ∀ d ∈ batch, d.group < maxTiles) :
    (groupBatch maxTiles (fun _ => none) batch).1.map Prod.snd =
      (bucketsOf batch).active.map (ofTile batch) := by
  have hfst : (groupBatch maxTiles (fun _ => none) batch).1.map Prod.fst = (bucketsOf batch).active := by
    have hkept : (batch.filter fun d => decide (d.group < maxTiles)) = batch :=
      List.filter_eq_self.mpr fun d hd => decide_eq_true (hids d hd)
    simp only [groupBatch, hkept, List.map_map]
    exact List.zipIdx_map_fst 0 _
  rw [← hfst, List.map_map]
  exact List.map_congr_left fun g hg => ((groupBatch_spec maxTiles batch).1.group g hg).2

/-- One call. -/
theorem refines_of_ready (hbuf : cfg.tileSignalBuf = true) (hs : s.Ready p buf) (h : Sound batch) :
    ∃ t out, processBatchTiled cfg s batch = some (t, out) ∧ Refines cfg batch s t out ∧
      ∃ buf', t.Ready (batch.foldl countDescriptor p) buf' := by
  obtain ⟨g, map, hgroup, hg, hmap⟩ := group_spec hs.bucketMap h.length_le h.group_lt
  obtain ⟨es, hbuild, hes⟩ := build_spec hg h.length_le
  obtain ⟨t, hadd, htmap, htp, htbuf⟩ := addProgress_spec hg h.group_lt hes
    (s := { s with bucketMap := map }) hs.tileProgress hs.tileSignalBuf
  have hsubmit := submitData_spec hg h.length_le h.size_lt hes
  have hmoved : (((tiledEntries ((bucketsOf batch).active.map (ofTile batch))).map
      (List.map Prod.fst)).flatten.flatMap SGEntry.moves).Perm (batch.flatMap fun d => d.entry.moves) := by
    rw [← List.map_flatten, List.flatMap_map, moves_tiledEntries, ← List.flatMap_def]
    exact (flatMap_ofTile_perm hg).flatMap_right _
  have hhost := congrArg (fun groups => (tiledEntries groups).map (List.map Prod.fst))
    (map_snd_groupBatch h.group_lt)
  rw [← hhost] at hsubmit hmoved
  have hdedup : (bucketsOf batch).active.Perm (batch.map Descriptor.group).dedup :=
    (List.perm_ext_iff_of_nodup hg.nodup (List.nodup_dedup _)).mpr fun id => by
      rw [hg.mem, List.mem_dedup]
  obtain ⟨ws, hws, hcells⟩ := signalWrites_spec hbuf hg h.group_lt
  have hcall : processBatchTiled cfg s batch = some (t, ⟨(tiledEntries ((groupBatch maxTiles (fun _ => none)
      batch).1.map Prod.snd)).map (List.map Prod.fst), ws, g⟩) := by
    simp only [processBatchTiled, hgroup, hbuild, hbuf, if_true, hadd, hsubmit, hws,
      Option.bind_eq_bind, Option.bind_some]
    rfl
  refine ⟨t, _, hcall, ⟨hs.bucketMap, htmap ▸ hmap, ⟨_, hg⟩, hmoved, rfl, fun byte mem ms hms => ?_,
    fun p' hp' => ?_, fun d hd => ?_, hcells.trans (hdedup.map _)⟩, _, htmap ▸ hmap, htp, htbuf⟩
  · have hnodup := nodup_moves h.size_lt h.disjoint
    rw [← writeMoves_flatMap]
    exact (writeMoves_perm byte mem (hms.trans hmoved).symm hnodup).symm
  · -- the progress before the call is what the array holds
    refine htp.congr fun tile ht => ?_
    have heq : p tile = p' tile :=
      Option.some.inj ((hs.tileProgress tile ht).2.symm.trans (hp' tile ht).2)
    rw [foldl_countDescriptor, foldl_countDescriptor, heq]
  · rw [htp.read (h.group_lt d hd), htbuf.read (h.group_lt d hd), if_pos (List.mem_map_of_mem hd)]

/-- **Every call in every sequence of calls** stays inside its arrays and does what a loop over its
descriptors would; the progress of a tile is the number of its descriptors so far. -/
theorem refines_of_run (cfg : Config) (hbuf : cfg.tileSignalBuf = true) (p buf : Nat → Nat)
    (batches : List (List Descriptor)) (batch : List Descriptor) (h : ∀ b ∈ batch :: batches, Sound b) :
    ∃ s t out, run cfg (.start p buf) batches = some s ∧
      s.tileProgress.Holds (· < maxTiles) (batches.flatten.foldl countDescriptor p) ∧
      processBatchTiled cfg s batch = some (t, out) ∧ Refines cfg batch s t out := by
  have hrun : ∀ (batches : List (List Descriptor)) (s : Tiles) (p buf : Nat → Nat), s.Ready p buf →
      (∀ b ∈ batches, Sound b) → ∃ t buf', run cfg s batches = some t ∧
        t.Ready (batches.flatten.foldl countDescriptor p) buf' := by
    intro batches
    induction batches with
    | nil => exact fun s p buf hs _ => ⟨s, buf, rfl, hs⟩
    | cons b bs ih =>
      intro s p buf hs hb
      obtain ⟨t, out, hcall, -, buf', ht⟩ :=
        refines_of_ready hbuf hs (hb b List.mem_cons_self)
      obtain ⟨u, buf'', hu, hready⟩ := ih t _ buf' ht fun b' hb' => hb b' (List.mem_cons_of_mem _ hb')
      refine ⟨u, buf'', ?_, ?_⟩
      · simp only [run, List.foldlM_cons, hcall, Option.bind_eq_bind, Option.bind_some]
        exact hu
      · rwa [List.flatten_cons, List.foldl_append]
  obtain ⟨s, buf', hs, hready⟩ := hrun batches _ p buf (ready_start p buf)
    fun b hb => h b (List.mem_cons_of_mem _ hb)
  obtain ⟨t, out, hcall, hrefines, -⟩ := refines_of_ready hbuf hready (h batch List.mem_cons_self)
  exact ⟨s, t, out, hs, hready.tileProgress, hcall, hrefines⟩

section Example

/-- A descriptor of 16 bytes of a tile. -/
private def entry (tile i : Nat) : Descriptor :=
  ⟨2 ^ 20 + 16 * i, 2 ^ 30 + 16 * i, 16, 0, tile * 2 ^ 32, i⟩

private theorem sound_pair : Sound [entry 3 0, entry 5 1] where
  length_le := by decide
  group_lt := by decide
  size_lt := by decide
  disjoint := by
    refine List.pairwise_pair.mpr ?_
    rintro _ ⟨k, hk, rfl⟩ ⟨j, hj, h⟩
    simp only [entry, word, wordSize] at hk hj h
    omega

/-- Two calls with two tiles each. -/
theorem refines_of_run_two : ∃ s t out,
    run Config.plainTiled (.start (fun _ => 0) fun _ => 0) [[entry 3 0, entry 5 1]] = some s ∧
      s.tileProgress.Holds (· < maxTiles)
        ([[entry 3 0, entry 5 1]].flatten.foldl countDescriptor fun _ => 0) ∧
      processBatchTiled Config.plainTiled s [entry 3 0, entry 5 1] = some (t, out) ∧
      Refines Config.plainTiled [entry 3 0, entry 5 1] s t out :=
  refines_of_run Config.plainTiled rfl (fun _ => 0) (fun _ => 0) [[entry 3 0, entry 5 1]]
    [entry 3 0, entry 5 1] (by simp [sound_pair])

end Example

end Gfd.TiledBatch
