import GfdProof.TileSignals

/-! # The progress of the tiles in every mode

`flush_batch` counts the descriptors of each tile in `tile_progress_`, in one of
three places.  With the copy engine and `tile_signal_buf_` it is
`process_batch_tiled`, which counts every batch.  Without the copy engine it is a
loop that runs only for batches with a tile marker.  With the copy engine but
without the buffer it is the code that fills a pending tile event, which also runs
only for such batches, and which counts only the tiles that have a marked
descriptor among the first `MAX_TILES` marked ones of the batch.

`Config.counted` is what one flush counts.  What has been flushed and not counted
is never made up for, so the progress is exact as long as every batch flushed is one
whose mode counts it (`progress_exact_iff`).
-/
namespace Gfd

open Transition Script.Machine

/-! ## What a flush counts -/

/-- `FLAG_LAST_IN_TILE` of a tile that has a counter. -/
def Descriptor.marked (d : Descriptor) : Bool :=
  hasFlag d.flags flagLastInTile && decide (d.group < maxTiles)

/-- The tiles of the pending event of a batch. -/
def markedTiles (batch : List Descriptor) : List Nat :=
  ((batch.filter Descriptor.marked).take maxTiles).map Descriptor.group

/-- The batch goes to `process_batch_sg`. -/
def Config.SgMode (cfg : Config) (orFlags : Nat) : Prop :=
  cfg.sgQueue ∧ hasFlag orFlags flagLastInTile ∧ cfg.useCe

instance (cfg : Config) (orFlags : Nat) : Decidable (cfg.SgMode orFlags) := by
  unfold Config.SgMode
  infer_instance

/-- What a flush adds to the progress of a tile. -/
def Config.counted (cfg : Config) (b : List Descriptor × Nat) (tile : Nat) : Nat :=
  let marked := hasFlag b.2 (flagLastInTile ||| flagLastChunkInTile)
  if cfg.SgMode b.2 then 0
  else if cfg.useCe then
    if cfg.tileSignalBuf then batchCount b.1 tile
    else if marked ∧ tile ∈ markedTiles b.1 then batchCount b.1 tile else 0
  else if marked then batchCount b.1 tile else 0

/-- The batch is one whose mode counts all of it. -/
def Config.Counts (cfg : Config) (b : List Descriptor × Nat) : Prop :=
  ¬ cfg.SgMode b.2 ∧
    (cfg.useCe ∧ cfg.tileSignalBuf ∨
      hasFlag b.2 (flagLastInTile ||| flagLastChunkInTile) ∧
        (cfg.useCe → ∀ d ∈ b.1, d.group ∈ markedTiles b.1))

theorem counted_le (cfg : Config) (b : List Descriptor × Nat) (tile : Nat) :
    cfg.counted b tile ≤ batchCount b.1 tile := by
  unfold Config.counted
  dsimp only
  split
  · exact Nat.zero_le _
  · split
    · split
      · exact Nat.le_refl _
      · split
        · exact Nat.le_refl _
        · exact Nat.zero_le _
    · split
      · exact Nat.le_refl _
      · exact Nat.zero_le _

theorem batchCount_pos {batch : List Descriptor} {d : Descriptor} (hd : d ∈ batch) :
    0 < batchCount batch d.group :=
  List.countP_pos_iff.mpr ⟨d, hd, beq_self_eq_true _⟩

theorem batchCount_eq_zero {batch : List Descriptor} {tile : Nat}
    (h : ∀ d ∈ batch, d.group ≠ tile) : batchCount batch tile = 0 :=
  List.countP_eq_zero.mpr fun d hd hb => h d hd (beq_iff_eq.mp hb)

/-- A batch is counted exactly when its mode counts all of it. -/
theorem counted_eq_iff (cfg : Config) {b : List Descriptor × Nat} (hne : b.1 ≠ [])
    (hids : ∀ d ∈ b.1, d.group < maxTiles) :
    (∀ tile < maxTiles, cfg.counted b tile = batchCount b.1 tile) ↔ cfg.Counts b := by
  obtain ⟨d, hd⟩ := List.exists_mem_of_ne_nil _ hne
  have hpos := batchCount_pos hd
  have hlt := hids d hd
  constructor
  · intro h
    have hd' := h d.group hlt
    unfold Config.counted at hd' h
    dsimp only at hd' h
    by_cases hsg : cfg.SgMode b.2
    · rw [if_pos hsg] at hd'
      omega
    · refine ⟨hsg, ?_⟩
      simp only [if_neg hsg] at hd' h
      by_cases hce : cfg.useCe = true
      · by_cases hbuf : cfg.tileSignalBuf = true
        · exact .inl ⟨hce, hbuf⟩
        · simp only [if_pos hce, if_neg hbuf] at hd' h
          right
          by_cases hm : hasFlag b.2 (flagLastInTile ||| flagLastChunkInTile) = true
          · refine ⟨hm, fun _ d' hd'mem => ?_⟩
            have hpos' := batchCount_pos hd'mem
            have := h d'.group (hids d' hd'mem)
            by_contra hnot
            rw [if_neg fun hand => hnot hand.2] at this
            omega
          · rw [if_neg fun hand => hm hand.1] at hd'
            omega
      · right
        simp only [if_neg hce] at hd'
        refine ⟨?_, fun h => absurd h hce⟩
        by_contra hm
        rw [if_neg hm] at hd'
        omega
  · rintro ⟨hsg, hcase⟩ tile -
    unfold Config.counted
    dsimp only
    rw [if_neg hsg]
    rcases hcase with ⟨hce, hbuf⟩ | ⟨hm, hall⟩
    · rw [if_pos hce, if_pos hbuf]
    · by_cases hce : cfg.useCe = true
      · rw [if_pos hce]
        split
        · rfl
        · split
          · rfl
          · rename_i hnot
            refine (batchCount_eq_zero fun d hd hdt => hnot ⟨hm, ?_⟩).symm
            exact hdt ▸ hall hce d hd
      · rw [if_neg hce, if_pos hm]

/-- What the flushes so far have counted. -/
def Config.countedSoFar (cfg : Config) (fl : Flushed) (tile : Nat) : Nat :=
  (fl.map (cfg.counted · tile)).sum

theorem tileCount_cons (b : List Descriptor × Nat) (fl : Flushed) (tile : Nat) :
    tileCount (b :: fl) tile = batchCount b.1 tile + tileCount fl tile := by
  simp [tileCount, batchCount]

theorem countedSoFar_le (cfg : Config) (fl : Flushed) (tile : Nat) :
    cfg.countedSoFar fl tile ≤ tileCount fl tile := by
  induction fl with
  | nil => exact Nat.le_refl _
  | cons b fl ih =>
    rw [tileCount_cons, Config.countedSoFar, List.map_cons, List.sum_cons]
    exact Nat.add_le_add (counted_le cfg b tile) ih

/-- What has not been counted is never made up for. -/
theorem countedSoFar_eq_iff (cfg : Config) {fl : Flushed} (hne : ∀ b ∈ fl, b.1 ≠ [])
    (hids : ∀ b ∈ fl, ∀ d ∈ b.1, d.group < maxTiles) :
    (∀ tile < maxTiles, cfg.countedSoFar fl tile = tileCount fl tile) ↔ ∀ b ∈ fl, cfg.Counts b := by
  induction fl with
  | nil => exact ⟨fun _ => List.forall_mem_nil _, fun _ _ _ => rfl⟩
  | cons b fl ih =>
    obtain ⟨hb, hfl⟩ := List.forall_mem_cons.mp hne
    obtain ⟨hidb, hidfl⟩ := List.forall_mem_cons.mp hids
    rw [List.forall_mem_cons, ← counted_eq_iff cfg hb hidb, ← ih hfl hidfl, ← forall₂_and]
    refine forall₂_congr fun tile _ => ?_
    have h1 := counted_le cfg b tile
    have h2 := countedSoFar_le cfg fl tile
    have hcons : cfg.countedSoFar (b :: fl) tile = cfg.counted b tile + cfg.countedSoFar fl tile := by
      simp [Config.countedSoFar]
    rw [tileCount_cons, hcons]
    omega

/-! ## The calls that do not count -/

/-- Every call but those that touch the progress or the bucket map. -/
def Call.Uncounted : Call → Prop
  | .processBatchTiled _ | .addProgress _ _ | .pushTileEvent _ _ | .tileStep _ | .flushBatch _ _ _ =>
    False
  | _ => True

/-- The progress of the tiles is `n` as a word, and no tile has a bucket. -/
structure Tallied (n : Nat → Nat) (s : Host) : Prop where
  buckets : s.poller.bucketMap = fun _ => none
  progress : ∀ tile < maxTiles, s.poller.tileProgress tile = word (n tile)

variable {cfg : Config} {n : Nat → Nat} {s t : Host}

theorem Tallied.congr {n' : Nat → Nat} (h : Tallied n s) (hn : ∀ tile < maxTiles, n tile = n' tile) :
    Tallied n' s := ⟨h.buckets, fun tile ht => (h.progress tile ht).trans (congrArg word (hn tile ht))⟩

theorem Tallied.of_eq (h : Tallied n s) (hb : t.poller.bucketMap = s.poller.bucketMap)
    (hp : t.poller.tileProgress = s.poller.tileProgress) : Tallied n t :=
  ⟨hb ▸ h.buckets, fun tile ht => hp ▸ h.progress tile ht⟩

theorem stable_tallied (n : Nat → Nat) : cfg.machine.Stable (Tallied n) :=
  stable_env cfg fun _ _ he h => h.of_eq (by rw [he.poller]) (by rw [he.poller])

theorem uncounted_of_moves {c : Call} (h : c.Moves fun _ => True) : c.Uncounted := by
  cases c with
  | processBatchTiled | addProgress | pushTileEvent | tileStep | flushBatch => exact h.elim
  | _ => trivial

theorem Host.storeTile_poller (s : Host) (dev : Bool) (tile : Nat) :
    (s.storeTile dev tile).poller = s.poller := (s.storeTile_frame dev tile).2

/-- The bodies of these functions are made of such calls. -/
theorem uncounted_processBatchSg (groups : List (Nat × List Descriptor)) :
    ∀ c ∈ cfg.processBatchSg groups, c.Uncounted := by
  unfold Config.processBatchSg
  refine List.forall_mem_append.mpr ⟨List.forall_mem_map.mpr fun _ _ => trivial, ?_⟩
  split
  · refine List.forall_mem_append.mpr ⟨List.forall_mem_cons.mpr ⟨trivial, ?_⟩,
      List.forall_mem_singleton.mpr trivial⟩
    intro c hc
    obtain ⟨g, -, h⟩ := List.mem_flatMap.mp hc
    split at h
    · rcases List.mem_pair.mp h with rfl | rfl <;> trivial
    · cases h
  · split
    · refine List.forall_mem_append.mpr ⟨List.forall_mem_cons.mpr ⟨trivial, ?_⟩,
        List.forall_mem_singleton.mpr trivial⟩
      split
      · exact List.forall_mem_map.mpr fun _ _ => trivial
      · exact List.forall_mem_nil _
    · exact List.forall_mem_nil _

theorem uncounted_settle (p : Poller) : (∀ c ∈ Config.settleStaging p, c.Uncounted) ∧
    ∀ c ∈ Config.settleAsync p, c.Uncounted := by
  unfold Config.settleStaging Config.settleAsync
  constructor
  · split
    · exact List.forall_mem_cons.mpr ⟨trivial, List.forall_mem_singleton.mpr trivial⟩
    · exact List.forall_mem_nil _
  · split
    · simp only [List.forall_mem_cons]
      exact ⟨trivial, trivial, trivial, List.forall_mem_nil _⟩
    · exact List.forall_mem_nil _

theorem uncounted_idle (p : Poller) : ∀ c ∈ Config.idle p, c.Uncounted := by
  unfold Config.idle
  split
  · exact List.forall_mem_singleton.mpr trivial
  · split
    · exact List.forall_mem_cons.mpr ⟨trivial, List.forall_mem_singleton.mpr trivial⟩
    · exact List.forall_mem_nil _

theorem uncounted_finish (p : Poller) : ∀ c ∈ Config.finish p, c.Uncounted := by
  unfold Config.finish
  refine List.forall_mem_append.mpr ⟨?_, List.forall_mem_cons.mpr
    ⟨trivial, List.forall_mem_singleton.mpr trivial⟩⟩
  split
  · simp only [List.forall_mem_cons]
    exact ⟨trivial, trivial, trivial, List.forall_mem_nil _⟩
  · exact List.forall_mem_nil _

theorem uncounted_drainTileEvents (p : Poller) : ∀ c ∈ Config.drainTileEvents p, c.Uncounted := by
  unfold Config.drainTileEvents
  dsimp only
  split
  · refine List.forall_mem_append.mpr ⟨List.forall_mem_map.mpr fun _ _ => trivial, ?_⟩
    simp only [List.forall_mem_cons]
    exact ⟨trivial, trivial, trivial, List.forall_mem_nil _⟩
  · exact List.forall_mem_nil _

theorem uncounted_pollTileEvents (p : Poller) (complete : Bool) :
    ∀ c ∈ cfg.pollTileEvents p complete, c.Uncounted := by
  unfold Config.pollTileEvents
  dsimp only
  split
  · refine List.forall_mem_append.mpr ⟨List.forall_mem_map.mpr fun _ _ => trivial, ?_⟩
    simp only [List.forall_mem_cons]
    exact ⟨trivial, trivial, trivial, trivial, List.forall_mem_nil _⟩
  · exact List.forall_mem_nil _

theorem uncounted_perform {c : Call} {m : List Call} (hc : c.Uncounted) (hs : Tallied n s)
    (hp : cfg.perform s c = some (t, m)) : Tallied n t ∧ ∀ c' ∈ m, c'.Uncounted := by
  by_cases hmoves : c.Moves fun _ => True
  · obtain ⟨hmoved, hm⟩ := moved_perform cfg hmoves hp
    exact ⟨hs.of_eq hmoved.bucketMap hmoved.tileProgress, fun c' hc' => uncounted_of_moves (hm c' hc')⟩
  · cases c with
    | processBatchTiled | addProgress | pushTileEvent | tileStep | flushBatch => exact hc.elim
    | eventSynchronize | submitted | waitCompletion | clearDirty | stagingWait | stagingDone
      | stagingSent | parallelGather | gatherWait => exact absurd trivial hmoves
    | submit | processBatch => exact absurd (fun _ => by intros; trivial) hmoves
    | processBatchNoCe batch =>
      cases hp
      exact ⟨hs, List.forall_mem_map.mpr fun _ _ => trivial⟩
    | processBatchSg batch =>
      cases hp
      exact ⟨hs.of_eq rfl rfl, uncounted_processBatchSg _⟩
    | storeTile dev tile =>
      cases hp
      exact ⟨hs.of_eq (by rw [Host.storeTile_poller]) (by rw [Host.storeTile_poller]),
        List.forall_mem_nil _⟩
    | pollTileEvents => cases hp; exact ⟨hs, uncounted_pollTileEvents _ _⟩
    | idle => cases hp; exact ⟨hs, uncounted_idle _⟩
    | finish => cases hp; exact ⟨hs, uncounted_finish _⟩
    | drainTileEvents => cases hp; exact ⟨hs, uncounted_drainTileEvents _⟩
    | settleStaging => cases hp; exact ⟨hs, (uncounted_settle _).1⟩
    | settleAsync => cases hp; exact ⟨hs, (uncounted_settle _).2⟩
    | makeStreamWaitOnAll st =>
      cases hp
      refine ⟨hs, fun c hc => ?_⟩
      obtain ⟨ch, -, h⟩ := List.mem_flatMap.mp hc
      rcases List.mem_pair.mp h with rfl | rfl <;> trivial
    | _ => cases hp; exact ⟨hs.of_eq rfl rfl, List.forall_mem_nil _⟩

/-- Calls that do not count leave the progress alone. -/
theorem free_uncounted {l : List Call} (hl : ∀ c ∈ l, c.Uncounted) :
    cfg.Free (Tallied n) l (Tallied n) :=
  Triple.closed (stable_tallied n) (fun _ _ => trivial)
    (fun _ hc => .inr fun _ hs => ⟨trivial, fun _ _ hp => uncounted_perform hc hs hp⟩) hl

/-! ## The calls that count -/

theorem tallied_add (hs : Tallied n s) (tile k : Nat) {t : Host}
    (hb : t.poller.bucketMap = s.poller.bucketMap)
    (hp : t.poller.tileProgress =
      Function.update s.poller.tileProgress tile (word (s.poller.tileProgress tile + k))) :
    Tallied (fun x => n x + if tile = x then k else 0) t where
  buckets := hb ▸ hs.buckets
  progress x hx := by
    rw [hp]
    by_cases h : x = tile
    · subst h
      rw [Function.update_self, if_pos rfl, hs.progress x hx, word_add_word]
    · rw [Function.update_of_ne h, if_neg (Ne.symm h), hs.progress x hx, Nat.add_zero]

/-- One descriptor that has been transferred. -/
theorem free_tileStep (d : Descriptor) : cfg.Free (Tallied n) [.tileStep d]
    (Tallied fun x => n x + if d.group = x then 1 else 0) := by
  refine free_atom cfg (stable_tallied n) (stable_tallied _) fun s t m hs hp => ?_
  cases hp
  refine ⟨rfl, ?_⟩
  unfold Host.tileStep
  dsimp only
  split
  · split
    · exact tallied_add hs d.group 1 (by rw [Host.storeTile_poller]) (by rw [Host.storeTile_poller])
    · exact tallied_add hs d.group 1 rfl rfl
  · rename_i hlt
    refine hs.congr fun x hx => ?_
    rw [if_neg fun h : d.group = x => hlt (h ▸ hx), Nat.add_zero]

theorem batchCount_cons (d : Descriptor) (ds : List Descriptor) (tile : Nat) :
    batchCount (d :: ds) tile = (if d.group = tile then 1 else 0) + batchCount ds tile := by
  rw [batchCount, List.countP_cons, batchCount, Nat.add_comm]
  by_cases h : d.group = tile <;> simp [h]

theorem free_tileSteps (batch : List Descriptor) : cfg.Free (Tallied n) (batch.map .tileStep)
    (Tallied fun x => n x + batchCount batch x) := by
  induction batch generalizing n with
  | nil => exact (Triple.nil (stable_tallied n) fun _ _ => trivial).conseq (fun _ h => h) fun _ h => h
  | cons d ds ih =>
    refine (Triple.cons (free_tileStep d) ih).conseq (fun _ h => h) fun s hs => hs.congr fun x _ => ?_
    rw [batchCount_cons, Nat.add_assoc]

/-- The tiles of an event are counted once each. -/
theorem pushTiles_fst (progress counts : Nat → Nat) (ids : List Nat) (batch : List Descriptor) (x : Nat) :
    (Host.pushTiles progress counts ids batch).1 x =
      if x ∈ ((batch.filter Descriptor.marked).take (maxTiles - ids.length)).map Descriptor.group then
        word (progress x + counts x) else progress x := by
  induction batch generalizing progress counts ids with
  | nil => simp [Host.pushTiles]
  | cons d ds ih =>
    rw [Host.pushTiles]
    by_cases hm : d.marked = true
    · obtain ⟨hflag, hlt⟩ : hasFlag d.flags flagLastInTile = true ∧ d.group < maxTiles := by
        simpa [Descriptor.marked] using hm
      by_cases hroom : ids.length < maxTiles
      · rw [if_pos ⟨hflag, hroom, hlt⟩, ih, List.filter_cons_of_pos hm, List.length_append,
          List.length_singleton]
        have hsucc : maxTiles - ids.length = (maxTiles - (ids.length + 1)) + 1 := by omega
        rw [hsucc, List.take_succ_cons, List.map_cons]
        by_cases hx : x = d.group
        · subst hx
          rw [Function.update_self, Function.update_self, if_pos List.mem_cons_self]
          split
          · exact word_add_word _ 0
          · rfl
        · simp only [Function.update_of_ne hx, List.mem_cons, hx, false_or]
      · rw [if_neg fun h => hroom h.2.1, ih]
        have hzero : maxTiles - ids.length = 0 := by omega
        simp [hzero]
    · rw [if_neg fun h => hm (by simp [Descriptor.marked, h.1, h.2.2]), ih,
        List.filter_cons_of_neg hm]

theorem free_pushTileEvent (batch : List Descriptor) (curRead : Nat) :
    cfg.Free (Tallied n) [.pushTileEvent batch curRead]
      (Tallied fun x => n x + if x ∈ markedTiles batch then batchCount batch x else 0) := by
  refine free_atom cfg (stable_tallied n) (stable_tallied _) fun s t m hs hp => ?_
  cases hp
  refine ⟨rfl, hs.buckets, fun x hx => ?_⟩
  have hcount : (batch.filter fun d => d.group == x).length = batchCount batch x := by
    rw [batchCount, List.countP_eq_length_filter]
  dsimp only [Host.pushTileEvent]
  rw [pushTiles_fst, hs.progress x hx, List.length_nil, Nat.sub_zero, hcount, word_add_word]
  show (if x ∈ markedTiles batch then _ else _) = _
  split
  · rfl
  · rw [Nat.add_zero]

theorem free_addProgress (tile k : Nat) : cfg.Free (Tallied n) [.addProgress tile k]
    (Tallied fun x => n x + if tile = x then k else 0) := by
  refine free_atom cfg (stable_tallied n) (stable_tallied _) fun s t m hs hp => ?_
  cases hp
  exact ⟨rfl, tallied_add hs tile k rfl rfl⟩

theorem free_addProgresses (groups : List (Nat × List Descriptor)) :
    cfg.Free (Tallied n) (groups.map fun g => .addProgress g.1 g.2.length)
      (Tallied fun x => n x + groupCount groups x) := by
  induction groups generalizing n with
  | nil => exact (Triple.nil (stable_tallied n) fun _ _ => trivial).conseq (fun _ h => h) fun _ h => h
  | cons g groups ih =>
    refine (Triple.cons (free_addProgress g.1 g.2.length) ih).conseq (fun _ h => h) fun s hs =>
      hs.congr fun x _ => ?_
    rw [groupCount_cons, Nat.add_assoc]

/-- `process_batch_tiled` counts every batch. -/
theorem free_processBatchTiled (hbuf : cfg.tileSignalBuf = true) (batch : List Descriptor) :
    cfg.Free (Tallied n) [.processBatchTiled batch] (Tallied fun x => n x + batchCount batch x) := by
  refine Triple.call (stable_tallied n) (fun _ _ => trivial) (fun _ _ => trivial) fun s t m hs hp => ?_
  cases hp
  rw [hs.buckets]
  obtain ⟨hg, hmap⟩ := groupBatch_spec maxTiles batch
  generalize (groupBatch maxTiles (fun _ => none) batch).1 = groups at hg ⊢
  rw [hmap]
  have hrest : ∀ c ∈ (tiledEntries (groups.map Prod.snd)).map
      (fun es => Call.submit (es.map fun e => .data e.1 e.2)) ++
        (if cfg.tiledQueue ∧ cfg.dTileChunkDone ∧ cfg.signalStream then
          .makeStreamWaitOnAll .signal :: Config.tileSignals (groups.map Prod.fst)
        else [.submit ((groups.map Prod.fst).map fun t => .tileSignal false t 1)]), c.Uncounted := by
    refine List.forall_mem_append.mpr ⟨List.forall_mem_map.mpr fun _ _ => trivial, ?_⟩
    split
    · refine List.forall_mem_cons.mpr ⟨trivial, fun c hc => ?_⟩
      have hout := outer_tileSignals _ c hc
      cases c with
      | processBatchTiled | addProgress | pushTileEvent | tileStep | flushBatch =>
        unfold Config.tileSignals at hc
        dsimp only at hc
        split at hc
        · simp at hc
        · split at hc <;> simp at hc
      | _ => trivial
    · exact List.forall_mem_singleton.mpr trivial
  have hbody : cfg.processBatchTiled groups = (groups.map fun g => .addProgress g.1 g.2.length) ++
      ((tiledEntries (groups.map Prod.snd)).map
      (fun es => Call.submit (es.map fun e => .data e.1 e.2)) ++
        (if cfg.tiledQueue ∧ cfg.dTileChunkDone ∧ cfg.signalStream then
          .makeStreamWaitOnAll .signal :: Config.tileSignals (groups.map Prod.fst)
        else [.submit ((groups.map Prod.fst).map fun t => .tileSignal false t 1)])) := by
    simp [Config.processBatchTiled, hbuf]
  rw [hbody]
  refine Triple.append (free_addProgresses groups) ((free_uncounted hrest).conseq (fun _ h => h)
    fun s hs => hs.congr fun x hx => by rw [hg.count hx]) _ ?_
  exact ⟨rfl, hs.progress⟩

/-- What a flush adds. -/
theorem free_flushBatch (htq : cfg.tiledQueue = true) {batch : List Descriptor} (hne : batch ≠ [])
    (orFlags curRead : Nat) : cfg.Free (Tallied n) [.flushBatch batch orFlags curRead]
      (Tallied fun x => n x + cfg.counted (batch, orFlags) x) := by
  refine free_expand cfg (stable_tallied _) (fun _ => rfl) ?_
  have hpair : ∀ c c' : Call, c.Uncounted → c'.Uncounted → cfg.Free (Tallied n) [c, c'] (Tallied n) :=
    fun _ _ h h' => free_uncounted (List.forall_mem_cons.mpr ⟨h, List.forall_mem_singleton.mpr h'⟩)
  unfold Config.flushBatch Config.counted Config.SgMode
  simp only [if_neg hne, htq, true_and]
  by_cases hsg : cfg.sgQueue = true ∧ hasFlag orFlags flagLastInTile = true ∧ cfg.useCe = true
  · rw [if_pos ⟨⟨hsg.1, hsg.2.1⟩, hsg.2.2⟩]
    simp only [if_pos hsg, Nat.add_zero]
    exact hpair _ _ trivial trivial
  · rw [if_neg fun h => hsg ⟨h.1.1, h.1.2, h.2⟩]
    simp only [if_neg hsg]
    by_cases hce : cfg.useCe = true
    · simp only [if_pos hce]
      by_cases hbuf : cfg.tileSignalBuf = true
      · simp only [if_pos hbuf]
        exact Triple.cons (free_processBatchTiled hbuf batch)
          (free_uncounted (List.forall_mem_singleton.mpr trivial))
      · simp only [if_neg hbuf]
        refine Triple.append (hpair _ _ trivial trivial) ?_
        by_cases hm : hasFlag orFlags (flagLastInTile ||| flagLastChunkInTile) = true
        · simp only [hm, true_and]
          exact free_pushTileEvent batch curRead
        · simp only [if_neg hm, if_neg fun h => hm (And.left h), Nat.add_zero]
          exact free_uncounted (List.forall_mem_nil _)
    · simp only [if_neg hce]
      refine Triple.append (hpair _ _ trivial trivial) ?_
      by_cases hm : hasFlag orFlags (flagLastInTile ||| flagLastChunkInTile) = true
      · simp only [if_pos hm]
        exact free_tileSteps batch
      · simp only [if_neg hm, Nat.add_zero]
        exact free_uncounted (List.forall_mem_nil _)

/-! ## Every run -/

theorem countedSoFar_append (cfg : Config) (fl : Flushed) (b : List Descriptor × Nat) (tile : Nat) :
    cfg.countedSoFar (fl ++ [b]) tile = cfg.countedSoFar fl tile + cfg.counted b tile := by
  simp [Config.countedSoFar]

/-- The host between calls: the progress is what the flushes have counted. -/
def Rested (cfg : Config) (fl : Flushed) (s : Host) : Prop :=
  (∀ b ∈ fl, b.1 ≠ []) ∧ Tallied (cfg.countedSoFar fl) s

theorem stable_rested (fl : Flushed) : cfg.machine.Stable (Rested cfg fl) :=
  (Stable.const _).and (stable_tallied _)

/-- The idle branch and the end of the thread leave it so all along. -/
theorem always_rested (fl : Flushed) {c : Call} (hc : c.Uncounted) :
    cfg.machine.Triple (.always (Rested cfg fl)) (Rested cfg fl) [c] (Rested cfg fl) :=
  Triple.closed (stable_rested fl) (fun _ h => h) (fun _ hc => .inr fun _ hs => ⟨trivial, fun _ _ hp =>
    have h := uncounted_perform hc hs.2 hp
    ⟨⟨hs.1, h.1⟩, h.2⟩⟩) (List.forall_mem_singleton.mpr hc)

/-- During a flush nothing is promised. -/
def countPromise (cfg : Config) (flushing : Bool) (fl : Flushed) : Spec Host Call :=
  if flushing then .free else .always (Rested cfg fl)

theorem countDuty (htq : cfg.tiledQueue = true) :
    Duty cfg (fun _ => True) (countPromise cfg) (Rested cfg) where
  stable _ := stable_rested _
  inv b _ _ hs := by
    cases b
    · exact hs
    · trivial
  flush t fl h _ _ hne hfl hr := by
    rw [hfl]
    refine Triple.outlined (P := Tallied (cfg.countedSoFar fl))
      ((free_flushBatch htq hne t.orFlags t.readIdx).conseq (fun _ h => h) fun s hs => ?_) hr.2
    exact ⟨List.forall_mem_append.mpr ⟨hr.1, List.forall_mem_singleton.mpr hne⟩,
      hs.congr fun tile _ => (countedSoFar_append cfg fl _ tile).symm⟩
  idle fl _ hr := (always_rested fl (c := .idle) trivial).outlined hr
  finish fl _ hr := (always_rested fl (c := .finish) trivial).outlined hr

/-- Outside `flush_batch` the host is at rest. -/
theorem rested_of_reachable (htq : cfg.tiledQueue = true) {h : Host} (h0 : Tallied (fun _ => 0) h)
    {s : Loop cfg.backend} (hs : Reachable Loop.openStep Always (· = cfg.start h) s)
    (hpc : s.pc.inCall ≠ some true) : Rested cfg s.flushed s.backend.data := by
  have hatt := (countDuty htq).attended ⟨List.forall_mem_nil _, h0⟩ (fun _ _ => trivial) hs
  have hinv := hatt.2.inv
  rw [beq_eq_false_iff_ne.mpr hpc] at hinv
  exact hinv

/-- The progress of a tile is the number of its descriptors flushed, so that it has reached what the
tile waits for once that many have been. -/
structure ProgressExact (fl : Flushed) (s : Host) : Prop where
  progress : ∀ tile < maxTiles, s.poller.tileProgress tile = tileCount fl tile
  enough : ∀ tile < maxTiles, ∀ chunk count, (chunk + 1) * count ≤ tileCount fl tile →
    (chunk + 1) * count ≤ s.poller.tileProgress tile

/-- **The progress is exact** after a flush exactly when every batch flushed so far was one whose mode
counts it, and no tile has had `2 ^ 64` descriptors. -/
theorem progress_exact_iff (htq : cfg.tiledQueue = true) {h : Host} (h0 : Tallied (fun _ => 0) h)
    {s : Loop cfg.backend} (hs : Reachable Loop.openStep Always (· = cfg.start h) s)
    (hpc : s.pc.inCall ≠ some true) (hids : ∀ b ∈ s.flushed, ∀ d ∈ b.1, d.group < maxTiles) :
    ProgressExact s.flushed s.backend.data ↔
      (∀ b ∈ s.flushed, cfg.Counts b) ∧ ∀ tile < maxTiles, tileCount s.flushed tile < wordSize := by
  obtain ⟨hne, htallied⟩ := rested_of_reachable htq h0 hs hpc
  rw [← countedSoFar_eq_iff cfg hne hids]
  constructor
  · intro hexact
    have hword : ∀ tile < maxTiles,
        word (cfg.countedSoFar s.flushed tile) = tileCount s.flushed tile := fun tile ht =>
      (htallied.progress tile ht).symm.trans (hexact.progress tile ht)
    have hlt : ∀ tile < maxTiles, tileCount s.flushed tile < wordSize := fun tile ht =>
      hword tile ht ▸ Nat.mod_lt _ (by decide)
    refine ⟨fun tile ht => ?_, hlt⟩
    have hle := Nat.lt_of_le_of_lt (countedSoFar_le cfg s.flushed tile) (hlt tile ht)
    exact (word_of_lt hle).symm.trans (hword tile ht)
  · rintro ⟨heq, hlt⟩
    have hprogress : ∀ tile < maxTiles,
        s.backend.data.poller.tileProgress tile = tileCount s.flushed tile := fun tile ht => by
      rw [htallied.progress tile ht, heq tile ht, word_of_lt (hlt tile ht)]
    exact ⟨hprogress, fun tile ht _ _ hle => (hprogress tile ht).symm ▸ hle⟩

/-! ## The gap wait -/

namespace Loop

variable {B : Backend} {s t : Loop B}

def inGap : Pc → Bool
  | .gap 0 => true
  | _ => false

/-- The gap wait but for its last poll, where the entry does not get ready. -/
def gapped (s : Loop B) : Option (Loop B) :=
  if s.ready = false ∧ inGap s.pc = true then some { s with pc := .gap 4095 } else none

theorem run_gap (s : Loop B) (hready : s.ready = false) : ∀ k spin, spin + k < 4096 →
    s.pc = .gap spin → run step s (List.replicate k .poll) = some { s with pc := .gap (spin + k) }
  | 0, spin, _, hpc => by
    rw [Nat.add_zero, ← hpc]
    rfl
  | k + 1, spin, hlt, hpc => by
    have hpoll : s.step .poll = some { s with pc := .gap (spin + 1) } := by
      simp only [step, poll, hpc, hready, Bool.false_eq_true, if_false]
      rw [if_pos (by omega)]
    rw [List.replicate_succ, run_cons, hpoll, Option.bind_some,
      run_gap { s with pc := .gap (spin + 1) } hready k (spin + 1) (by omega) rfl,
      Nat.add_right_comm, Nat.add_assoc spin k 1]

theorem run_gapped (h : s.gapped = some t) : run step s (List.replicate 4095 .poll) = some t := by
  unfold gapped at h
  split at h
  · rename_i hgap
    have hpc : s.pc = .gap 0 := by
      obtain ⟨-, hpc⟩ := hgap
      unfold inGap at hpc
      split at hpc
      · assumption
      · cases hpc
    cases h
    exact run_gap s hgap.1 4095 0 (by decide) hpc
  · cases h

/-- The loop's own steps in an open queue. -/
theorem run_openStep (s : Loop B) (as : List (Act B)) :
    run openStep s (as.map .loop) = run step s as := by
  induction as generalizing s with
  | nil => rfl
  | cons a as ih =>
    rw [List.map_cons, run_cons, run_cons]
    exact congrArg (Option.bind _) (funext ih)

end Loop

section Example

/-- A tiled queue without the copy engine. -/
private def noCe : Config :=
  { Config.plain with
    useCe := false
    tiledQueue := true
    dTileChunkDone := true }

private def blank : Host := .init (fun _ => 0) (fun _ _ => 0) fun _ => 0

/-- A descriptor of tile 0 is stored and committed, and the thread pops it. -/
private def pops (slot flags : Nat) : List (Loop.OpenAct noCe.backend) :=
  [.storeField slot .srcAddr 4096, .storeField slot .dstAddr 8192, .storeField slot .size 16,
    .storeField slot .flags flags, .storeSequence slot (slot + 1)] ++
    (List.replicate 2 Loop.Act.poll ++
      [Loop.Act.load .srcAddr, .load .dstAddr, .load .size, .load .userData, .load .flags] ++
      List.replicate 4 Loop.Act.poll).map .loop

/-- The thread gets to the gap wait. -/
private def polls : List (Loop.OpenAct noCe.backend) := List.replicate 3 (.loop .poll)

/-- The calls of a flush. -/
private def calls (k : Nat) : List (Loop.OpenAct noCe.backend) :=
  (List.replicate k (Loop.Act.backend (show noCe.backend.Act from .perform)) ++
    [Loop.Act.poll]).map .loop

private structure Summary where
  inCall : Option Bool
  flushed : List (List Descriptor × Nat)
  progress : Nat
  deriving DecidableEq

private def summary (s : Loop noCe.backend) : Summary :=
  ⟨s.pc.inCall, s.flushed, s.backend.data.poller.tileProgress 0⟩

/-- The descriptor, as it is popped. -/
private def popped (slot flags : Nat) : Descriptor := ⟨4096, 8192, 16, flags, 0, slot⟩

/-- From the first poll of the gap wait to the return of the flush it ends in. -/
private def waitGap (s : Loop noCe.backend) : Option (Loop noCe.backend) :=
  s.gapped.bind fun s => run Loop.openStep s (.loop .poll :: calls 4)

private theorem reachable_waitGap {s u : Loop noCe.backend}
    (hs : Reachable Loop.openStep Always (· = noCe.start blank) s) (hu : waitGap s = some u) :
    Reachable Loop.openStep Always (· = noCe.start blank) u := by
  obtain ⟨t, ht, hu⟩ := Option.bind_eq_some_iff.mp hu
  have hgap := Loop.run_gapped ht
  rw [← Loop.run_openStep] at hgap
  exact (hs.run_always hgap).run_always hu

private theorem tileCount_lt {fl : Flushed} (h : (fl.map Prod.fst).flatten.length < wordSize)
    (tile : Nat) : tileCount fl tile < wordSize :=
  Nat.lt_of_le_of_lt List.countP_le_length h

/-- A descriptor that ends its tile is flushed at once, and counted; the next one, flushed by the gap
wait, is not. -/
theorem progress_exact_iff_two : ∃ s t : Loop noCe.backend,
    Reachable Loop.openStep Always (· = noCe.start blank) s ∧
    Reachable Loop.openStep Always (· = noCe.start blank) t ∧ s.flushed.length = 1 ∧ t.flushed.length = 2 ∧
    ProgressExact s.flushed s.backend.data ∧ ¬ ProgressExact t.flushed t.backend.data := by
  have h : ((run Loop.openStep (noCe.start blank) (pops 0 flagLastInTile ++ calls 5)).bind fun s =>
      ((run Loop.openStep s (pops 1 flagNone ++ polls)).bind waitGap).map fun t =>
        (summary s, summary t)) = some
      (⟨none, [([popped 0 flagLastInTile], flagLastInTile)], 1⟩,
        ⟨none, [([popped 0 flagLastInTile], flagLastInTile), ([popped 1 flagNone], 0)], 1⟩) := by
    decide +kernel
  obtain ⟨s, hs, h⟩ := Option.bind_eq_some_iff.mp h
  obtain ⟨t, ht, hout⟩ := Option.map_eq_some_iff.mp h
  obtain ⟨u, hu, ht⟩ := Option.bind_eq_some_iff.mp ht
  simp only [summary, Prod.mk.injEq, Summary.mk.injEq] at hout
  obtain ⟨⟨hpcs, hfls, -⟩, hpct, hflt, -⟩ := hout
  have hreach := (Reachable.self (noCe.start blank)).run_always hs
  have hreacht := reachable_waitGap (hreach.run_always hu) ht
  refine ⟨s, t, hreach, hreacht, by rw [hfls]; rfl, by rw [hflt]; rfl, ?_, fun hexact => ?_⟩
  · refine (progress_exact_iff rfl ⟨rfl, fun _ _ => rfl⟩ hreach (by rw [hpcs]; exact nofun) ?_).mpr
      ⟨?_, fun tile _ => tileCount_lt (by rw [hfls]; decide) tile⟩
    · rw [hfls]
      simp only [List.forall_mem_singleton]
      decide
    · rw [hfls, List.forall_mem_singleton]
      exact ⟨by decide, .inr ⟨by decide, fun hce => absurd hce (by decide)⟩⟩
  · have hcounts := ((progress_exact_iff rfl ⟨rfl, fun _ _ => rfl⟩ hreacht
      (by rw [hpct]; exact nofun) (by
        rw [hflt]
        simp only [List.forall_mem_cons]
        decide)).mp hexact).1
    rw [hflt] at hcounts
    exact absurd (hcounts _ (List.mem_cons_of_mem _ List.mem_cons_self)) (by
      rintro ⟨-, ⟨hce, -⟩ | ⟨hm, -⟩⟩
      · exact absurd hce (by decide)
      · exact absurd hm (by decide))

/-- A descriptor flushed by the gap wait is not counted. -/
theorem exists_not_progressExact : ∃ s, Reachable Loop.openStep Always (· = noCe.start blank) s ∧
    s.pc.inCall ≠ some true ∧ (∀ b ∈ s.flushed, ∀ d ∈ b.1, d.group < maxTiles) ∧
    ¬ ProgressExact s.flushed s.backend.data := by
  have h : ((run Loop.openStep (noCe.start blank) (pops 0 flagNone ++ polls)).bind waitGap).map
      summary = some ⟨none, [([popped 0 flagNone], 0)], 0⟩ := by decide +kernel
  obtain ⟨u, hu, hout⟩ := Option.map_eq_some_iff.mp h
  obtain ⟨s, hs, hu⟩ := Option.bind_eq_some_iff.mp hu
  simp only [summary, Summary.mk.injEq] at hout
  obtain ⟨hpc, hfl, hzero⟩ := hout
  refine ⟨u, reachable_waitGap ((Reachable.self _).run_always hs) hu, by rw [hpc]; exact nofun, ?_,
    fun hexact => ?_⟩
  · rw [hfl]
    simp only [List.forall_mem_singleton]
    decide
  · have := hexact.progress 0 (by decide)
    rw [hzero, hfl] at this
    exact absurd this (by decide)

end Example

end Gfd
