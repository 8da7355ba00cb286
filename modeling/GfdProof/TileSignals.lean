import GfdProof.BatchGroups
import GfdProof.QueueRuns

/-! # The device counters of the tiled mode

With the copy engine on, a tiled queue, `tile_signal_buf_`, `d_tile_chunk_done`
and `signal_stream_`, a flush adds the descriptors of each tile to the tile's
cell of `tile_signal_buf_` and queues a copy of the cell.  A copy reads the cell
when it is performed, so what it delivers is at least as recent as what it was
queued for: the device counter shows the cell, or a copy that will make it so is
still queued (`Shown`).  Once everything queued has been performed, the counter of
a tile is the number of its descriptors flushed so far (`Rest.counter`).
-/
namespace Gfd

open WorkStreams Script.Machine

/-- Copy engine, tiled queue and both signal buffers. -/
structure Config.Tiled (cfg : Config) : Prop where
  useCe : cfg.useCe = true
  tiledQueue : cfg.tiledQueue = true
  dTileChunkDone : cfg.dTileChunkDone = true
  tileSignalBuf : cfg.tileSignalBuf = true
  signalStream : cfg.signalStream = true
  sgQueue : cfg.sgQueue = false

/-- The descriptors of a tile in a batch. -/
def batchCount (batch : List Descriptor) (tile : Nat) : Nat := batch.countP (·.group == tile)

/-- The descriptors of a tile flushed so far. -/
def tileCount (fl : Flushed) (tile : Nat) : Nat := batchCount (fl.map Prod.fst).flatten tile

theorem tileCount_append (fl : Flushed) (batch : List Descriptor) (orFlags tile : Nat) :
    tileCount (fl ++ [(batch, orFlags)]) tile = tileCount fl tile + batchCount batch tile := by
  simp [tileCount, batchCount, List.countP_append]

/-- What a flush adds for a tile, from the groups of its batch. -/
def groupCount (groups : List (Nat × List Descriptor)) (tile : Nat) : Nat :=
  ((groups.filter fun g => g.1 == tile).map fun g => g.2.length).sum

theorem groupCount_cons (g : Nat × List Descriptor) (groups : List (Nat × List Descriptor))
    (tile : Nat) : groupCount (g :: groups) tile =
      (if g.1 = tile then g.2.length else 0) + groupCount groups tile := by
  unfold groupCount
  by_cases h : g.1 = tile <;> simp [h]

theorem groupCount_of_not_mem {groups : List (Nat × List Descriptor)} {tile : Nat}
    (h : tile ∉ groups.map Prod.fst) : groupCount groups tile = 0 := by
  unfold groupCount
  rw [List.filter_eq_nil_iff.mpr fun g hg hb => h (List.mem_map.mpr ⟨g, hg, beq_iff_eq.mp hb⟩)]
  rfl

theorem groupCount_of_mem {groups : List (Nat × List Descriptor)} {g : Nat × List Descriptor}
    (hnodup : (groups.map Prod.fst).Nodup) (hg : g ∈ groups) :
    groupCount groups g.1 = g.2.length := by
  induction groups with
  | nil => cases hg
  | cons x xs ih =>
    obtain ⟨hx, hxs⟩ := List.nodup_cons.mp hnodup
    rw [groupCount_cons]
    rcases List.mem_cons.mp hg with rfl | hg
    · rw [if_pos rfl, groupCount_of_not_mem hx]
      rfl
    · have hne : x.1 ≠ g.1 := fun h => hx (h ▸ List.mem_map_of_mem hg)
      rw [if_neg hne, ih hxs hg, Nat.zero_add]

/-- The groups of a batch add what the batch has. -/
theorem Grouped.count {batch : List Descriptor} {groups : List (Nat × List Descriptor)} {bound tile : Nat}
    (h : Grouped bound batch groups) (ht : tile < bound) :
    groupCount groups tile = batchCount batch tile := by
  by_cases hm : tile ∈ groups.map Prod.fst
  · obtain ⟨g, hg, rfl⟩ := List.mem_map.mp hm
    rw [groupCount_of_mem h.nodup hg, (h.group g hg).2, batchCount, List.countP_eq_length_filter]
  · rw [groupCount_of_not_mem hm, batchCount, eq_comm, List.countP_eq_zero]
    intro d hd hb
    have hb : d.group = tile := beq_iff_eq.mp hb
    exact hm (hb ▸ h.complete d hd (hb ▸ ht))

namespace TileSignals

/-- The device counter of a tile shows its cell of the signal buffer, or a copy of the cell is
queued. -/
def Shown (s : Host) (tile : Nat) : Prop :=
  s.dTileChunkDone tile = s.tileSignalBuf tile ∨
    ∃ i first count, s.device.done .signal ≤ i ∧
      s.device.WorkAt .signal i (.tileSignal true first count) ∧ first ≤ tile ∧ tile < first + count

/-- The tiles have been counted as `n` says, and the counters of all but the `pending` ones are
shown. -/
structure Counting (n : Nat → Nat) (pending : Nat → Prop) (s : Host) : Prop where
  valid : s.device.Valid
  noEvents : s.poller.tileEventsInflight = 0
  buckets : s.poller.bucketMap = fun _ => none
  progress : ∀ tile < maxTiles, s.poller.tileProgress tile = word (n tile)
  buffer : ∀ tile < maxTiles, s.tileSignalBuf tile = word (n tile)
  shown : ∀ tile < maxTiles, pending tile ∨ Shown s tile

/-- The host between calls. -/
abbrev Rest (fl : Flushed) : Host → Prop := Counting (tileCount fl) fun _ => False

variable {cfg : Config} {n : Nat → Nat} {pending : Nat → Prop} {s t : Host}

theorem rest_init (user : Nat → UInt8) (staging : Nat → Nat → UInt8) (gpu : Nat → UInt8) :
    Rest [] (Host.init user staging gpu) where
  valid := Device.valid_empty
  noEvents := rfl
  buckets := rfl
  progress _ _ := rfl
  buffer _ _ := rfl
  shown _ _ := .inr (.inl rfl)

/-- **The counters are exact** when everything queued has been performed. -/
theorem Rest.counter {fl : Flushed} (h : Rest fl s) (hd : s.device.Settled) {tile : Nat}
    (ht : tile < maxTiles) : s.dTileChunkDone tile = word (tileCount fl tile) := by
  rcases (h.shown tile ht).resolve_left id with he | ⟨i, first, count, hi, hw, -⟩
  · rw [he, h.buffer tile ht]
  · have := hw.lt
    rw [← hd .signal] at this
    omega

theorem Counting.mono {pending' : Nat → Prop} (h : Counting n pending s)
    (hp : ∀ tile < maxTiles, pending tile → pending' tile) : Counting n pending' s :=
  { h with shown := fun tile ht => (h.shown tile ht).imp_left (hp tile ht) }

theorem Counting.congr {n' : Nat → Nat} (h : Counting n pending s)
    (hn : ∀ tile < maxTiles, n tile = n' tile) : Counting n' pending s :=
  { h with
    progress := fun tile ht => (h.progress tile ht).trans (congrArg word (hn tile ht))
    buffer := fun tile ht => by rw [h.buffer tile ht, hn tile ht] }

/-! ## What the environment does -/

theorem Host.signalled_eq (s : Host) (cells : Nat → Nat) (first count tile : Nat) :
    s.signalled cells first count tile = s.tileSignalBuf tile ∨
      s.signalled cells first count tile = cells tile := by
  unfold Host.signalled
  split
  · exact .inl rfl
  · exact .inr rfl

/-- A copy leaves a counter alone or makes it show its cell. -/
theorem transfer_counter (s : Host) (c : Copy) (tile : Nat) :
    (s.transfer c).dTileChunkDone tile = s.tileSignalBuf tile ∨
      (s.transfer c).dTileChunkDone tile = s.dTileChunkDone tile := by
  unfold Host.transfer
  split
  · exact .inr rfl
  · exact Host.signalled_eq s _ _ _ _
  · exact .inr rfl
  · exact .inr rfl

theorem Shown.advance {st : Stream} {tile : Nat} (h : s.advance st = some t) (hs : Shown s tile) :
    Shown t tile := by
  -- the copy that is still queued is not the one performed
  have hkeep : ∀ {i : Nat} {c : Copy}, s.device.done .signal ≤ i → s.device.WorkAt .signal i c →
      s.device.next st ≠ some (.work c) → (s.device.advance st).done .signal ≤ i := by
    intro i c hi hw hn
    by_cases hst : Stream.signal = st
    · subst hst
      rw [Device.advance_done_self]
      refine Nat.lt_of_le_of_ne hi fun he => hn ?_
      rw [Device.next, he]
      exact hw
    · rw [Device.advance_done_of_ne _ hst]
      exact hi
  obtain ⟨-, ⟨c, hc, rfl⟩ | ⟨u, m, hc, rfl⟩⟩ := Host.advance_cases h
  · rcases hs with he | ⟨i, first, count, hi, hw, hlo, hhi⟩
    · left
      rw [Host.transfer_tileSignalBuf]
      exact (transfer_counter _ c tile).elim id fun h => h.trans he
    · by_cases hcopy : c = .tileSignal true first count
      · subst hcopy
        left
        simp only [Host.transfer, Host.signalled]
        rw [if_pos ⟨hlo, hhi⟩]
      · right
        refine ⟨i, first, count, ?_, ?_, hlo, hhi⟩
        · rw [Host.transfer_device]
          exact hkeep hi hw fun h => hcopy (by rw [hc] at h; cases h; rfl)
        · rw [Host.transfer_device]
          exact hw
  · rcases hs with he | ⟨i, first, count, hi, hw, hlo, hhi⟩
    · exact .inl he
    · exact .inr ⟨i, first, count, hkeep hi hw (by rw [hc]; exact nofun), hw, hlo, hhi⟩

theorem Shown.env {e : HostEnv} {tile : Nat} (h : s.env e = some t) (hs : Shown s tile) :
    Shown t tile := by
  cases e with
  | advance st => exact hs.advance h
  | gather k =>
    obtain ⟨g, e, es, -, -, rfl⟩ := Host.gather_cases h
    exact hs

theorem Counting.env {e : HostEnv} (h : s.env e = some t) (hs : Counting n pending s) :
    Counting n pending t where
  valid := (Host.envStep h).valid hs.valid
  noEvents := by rw [(Host.envStep h).poller]; exact hs.noEvents
  buckets := by rw [(Host.envStep h).poller]; exact hs.buckets
  progress := by rw [(Host.envStep h).poller]; exact hs.progress
  buffer := by rw [(Host.envStep h).tileSignalBuf]; exact hs.buffer
  shown tile ht := (hs.shown tile ht).imp_right (Shown.env h)

theorem stable_counting (n : Nat → Nat) (pending : Nat → Prop) :
    cfg.machine.Stable (Counting n pending) := fun _ _ _ hs h => hs.env h

/-! ## Moving data -/

theorem Shown.moved {tile : Nat} (h : s.Moved (fun _ => True) t) (hs : Shown s tile) :
    Shown t tile := by
  rcases hs with he | ⟨i, first, count, hi, hw, hlo, hhi⟩
  · left
    rw [h.dTileChunkDone, h.tileSignalBuf]
    exact he
  · exact .inr ⟨i, first, count, by rw [h.done]; exact hi, hw.grows h.grows, hlo, hhi⟩

theorem Counting.moved (h : s.Moved (fun _ => True) t) (hs : Counting n pending s) :
    Counting n pending t where
  valid := h.valid hs.valid
  noEvents := by rw [h.tileEventsInflight]; exact hs.noEvents
  buckets := by rw [h.bucketMap]; exact hs.buckets
  progress := by rw [h.tileProgress]; exact hs.progress
  buffer := by rw [h.tileSignalBuf]; exact hs.buffer
  shown tile ht := (hs.shown tile ht).imp_right fun hs => hs.moved h

/-! ## Flushing a batch -/

theorem counting_addProgress (hs : Counting n pending s) (tile k : Nat) :
    Counting (fun x => n x + if tile = x then k else 0) (fun x => pending x ∨ x = tile)
      { s with
        poller := { s.poller with
          tileProgress := Function.update s.poller.tileProgress tile
            (word (s.poller.tileProgress tile + k)) }
        tileSignalBuf := Function.update s.tileSignalBuf tile
          (word (s.poller.tileProgress tile + k)) } where
  valid := hs.valid
  noEvents := hs.noEvents
  buckets := hs.buckets
  progress x hx := by
    dsimp only
    by_cases h : x = tile
    · subst h
      rw [Function.update_self, if_pos rfl, hs.progress x hx, word_add_word]
    · rw [Function.update_of_ne h, if_neg (Ne.symm h), hs.progress x hx, Nat.add_zero]
  buffer x hx := by
    dsimp only
    by_cases h : x = tile
    · subst h
      rw [Function.update_self, if_pos rfl, hs.progress x hx, word_add_word]
    · rw [Function.update_of_ne h, if_neg (Ne.symm h), hs.buffer x hx, Nat.add_zero]
  shown x hx := by
    by_cases h : x = tile
    · exact .inl (.inr h)
    · refine (hs.shown x hx).imp .inl fun hsh => ?_
      rcases hsh with he | hq
      · left
        dsimp only
        rw [Function.update_of_ne h]
        exact he
      · exact .inr hq

/-- The first pass over the groups counts them. -/
theorem free_addProgress (groups : List (Nat × List Descriptor)) (n : Nat → Nat)
    (pending : Nat → Prop) :
    cfg.Free (Counting n pending) (groups.map fun g => .addProgress g.1 g.2.length)
      (Counting (fun x => n x + groupCount groups x) fun x => pending x ∨ x ∈ groups.map Prod.fst) := by
  induction groups generalizing n pending with
  | nil =>
    refine (Triple.nil (stable_counting n pending) fun _ _ => trivial).conseq (fun _ h => h) fun s hs => ?_
    exact hs.mono fun _ _ => .inl
  | cons g groups ih =>
    refine Triple.cons (free_atom cfg (stable_counting n pending) (stable_counting _ _)
      fun s t m hs hp => ?_) ((ih (fun x => n x + if g.1 = x then g.2.length else 0)
        fun x => pending x ∨ x = g.1).conseq (fun _ h => h) fun s hs => ?_)
    · cases hp
      exact ⟨rfl, counting_addProgress hs g.1 g.2.length⟩
    · refine (hs.congr fun x _ => ?_).mono fun x _ h => ?_
      · rw [groupCount_cons, Nat.add_assoc]
      · rw [List.map_cons, List.mem_cons]
        rcases h with (h | h) | h
        · exact .inl h
        · exact .inr (.inl h)
        · exact .inr (.inr h)

/-- Queueing a copy of some cells shows them. -/
theorem counting_signal (hs : Counting n pending s) (first count : Nat) :
    Counting n (fun x => pending x ∧ ¬ (first ≤ x ∧ x < first + count))
      { s with device := s.device.submit .signal (.tileSignal true first count) } where
  valid := hs.valid.submit _ _
  noEvents := hs.noEvents
  buckets := hs.buckets
  progress := hs.progress
  buffer := hs.buffer
  shown x hx := by
    by_cases hr : first ≤ x ∧ x < first + count
    · exact .inr (.inr ⟨_, first, count, hs.valid.done_le .signal,
        s.device.workAt_submit_self .signal _, hr.1, hr.2⟩)
    · refine (hs.shown x hx).imp (fun h => ⟨h, hr⟩) fun hsh => ?_
      rcases hsh with he | ⟨i, f, c, hi, hw, hlo, hhi⟩
      · exact .inl he
      · exact .inr ⟨i, f, c, hi, hw.grows (s.device.grows_submit _ _), hlo, hhi⟩

theorem free_signal (first count : Nat) :
    cfg.Free (Counting n pending) [.copyAsync .signal (.tileSignal true first count)]
      (Counting n fun x => pending x ∧ ¬ (first ≤ x ∧ x < first + count)) :=
  free_atom cfg (stable_counting n pending) (stable_counting _ _) fun s t m hs hp => by
    cases hp
    exact ⟨rfl, counting_signal hs first count⟩

theorem free_signals_each (tiles : List Nat) (n : Nat → Nat) :
    cfg.Free (Counting n (· ∈ tiles))
      (tiles.map fun tile => .copyAsync .signal (.tileSignal true tile 1))
      (Counting n fun _ => False) := by
  induction tiles with
  | nil =>
    refine (Triple.nil (stable_counting n _) fun _ _ => trivial).conseq (fun s hs => ?_) fun _ h => h
    exact hs.mono fun _ _ h => List.not_mem_nil h
  | cons tile tiles ih =>
    refine Triple.cons ((free_signal tile 1).conseq (fun _ h => h) fun s hs => ?_) ih
    refine hs.mono fun x _ ⟨hx, hr⟩ => (List.mem_cons.mp hx).resolve_left fun h => hr ?_
    omega

/-- The least and the greatest of some ids bound them. -/
theorem foldl_bounds (l : List Nat) (a : Nat) :
    (l.foldl min a ≤ a ∧ ∀ x ∈ l, l.foldl min a ≤ x) ∧ a ≤ l.foldl max a ∧ ∀ x ∈ l, x ≤ l.foldl max a := by
  induction l generalizing a with
  | nil => simp
  | cons y l ih =>
    obtain ⟨⟨h1, h2⟩, -⟩ := ih (min a y)
    obtain ⟨-, h3, h4⟩ := ih (max a y)
    simp only [List.foldl_cons, List.forall_mem_cons]
    exact ⟨⟨by omega, by omega, h2⟩, by omega, by omega, h4⟩

/-- The copies on the signal stream cover the tiles of the batch. -/
theorem free_tileSignals (tiles : List Nat) (n : Nat → Nat) :
    cfg.Free (Counting n (· ∈ tiles)) (Config.tileSignals tiles) (Counting n fun _ => False) := by
  have heach := @free_signals_each cfg tiles n
  unfold Config.tileSignals
  dsimp only
  split
  · exact heach
  · rename_i tile tiles
    split
    · refine (free_signal _ _).conseq (fun _ h => h) fun s hs => hs.mono fun x _ ⟨hx, hr⟩ => hr ?_
      obtain ⟨⟨h1, h2⟩, h3, h4⟩ := foldl_bounds tiles tile
      rcases List.mem_cons.mp hx with rfl | hx
      · omega
      · have := h2 x hx
        have := h4 x hx
        omega
    · exact heach

theorem free_moves {l : List Call} (hl : ∀ c ∈ l, c.Moves fun _ => True) :
    cfg.Free (Counting n pending) l (Counting n pending) :=
  moved_triple cfg (stable_counting n pending) (fun _ _ => trivial) (fun _ _ _ _ => trivial)
    (fun _ _ hm h => h.moved hm) hl

/-- `process_batch_tiled` -/
theorem free_processBatchTiled (hc : cfg.Tiled) (fl : Flushed) (batch : List Descriptor)
    (orFlags : Nat) :
    cfg.Free (Rest fl) [.processBatchTiled batch] (Rest (fl ++ [(batch, orFlags)])) := by
  refine Triple.call (stable_counting _ _) (fun _ _ => trivial) (fun _ _ => trivial)
    fun s t m hs hp => ?_
  cases hp
  rw [hs.buckets]
  obtain ⟨hg, hmap⟩ := groupBatch_spec maxTiles batch
  generalize (groupBatch maxTiles (fun _ => none) batch).1 = groups at hg ⊢
  rw [hmap]
  have hbody : cfg.processBatchTiled groups =
      (groups.map fun g => .addProgress g.1 g.2.length) ++
        ((tiledEntries (groups.map Prod.snd)).map (fun es => .submit (es.map fun e => .data e.1 e.2)) ++
          [.makeStreamWaitOnAll .signal]) ++ Config.tileSignals (groups.map Prod.fst) := by
    simp [Config.processBatchTiled, hc.tileSignalBuf, hc.tiledQueue, hc.dTileChunkDone,
      hc.signalStream]
  rw [hbody]
  refine Triple.append (Triple.append (free_addProgress groups (tileCount fl) fun _ => False)
    (free_moves ?_)) ((free_tileSignals (groups.map Prod.fst) _).conseq
      (fun s hs => hs.mono fun _ _ h => h.resolve_left id) fun s hs => ?_) _ ?_
  · refine List.forall_mem_append.mpr ⟨List.forall_mem_map.mpr fun _ _ _ _ => trivial,
      List.forall_mem_singleton.mpr rfl⟩
  · exact hs.congr fun x hx => by rw [tileCount_append, hg.count hx]
  · exact ⟨hs.valid, hs.noEvents, rfl, hs.progress, hs.buffer, hs.shown⟩

theorem free_flushBatch (hc : cfg.Tiled) (fl : Flushed) {batch : List Descriptor} (hne : batch ≠ [])
    (orFlags curRead : Nat) :
    cfg.Free (Rest fl) [.flushBatch batch orFlags curRead] (Rest (fl ++ [(batch, orFlags)])) := by
  have hbody : cfg.flushBatch batch orFlags curRead = [.processBatchTiled batch, .setAsync curRead] := by
    simp [Config.flushBatch, hne, hc.useCe, hc.tiledQueue, hc.tileSignalBuf, hc.sgQueue]
  refine free_expand cfg (stable_counting _ _) (fun _ => rfl) fun s hs => ?_
  rw [hbody]
  refine Triple.cons (free_processBatchTiled hc fl batch orFlags) (free_atom cfg
    (stable_counting _ _) (stable_counting _ _) fun s t m hs hp => ?_) s hs
  cases hp
  exact ⟨rfl, hs.valid, hs.noEvents, hs.buckets, hs.progress, hs.buffer, hs.shown⟩

/-! ## Waiting for copies -/

/-- The calls by which the thread waits for copies and publishes `done_idx`. -/
def Waits : Call → Prop
  | .settleStaging | .settleAsync | .waitCompletion | .eventSynchronize _ | .clearDirty
  | .clearInflight | .publishDone | .clearAsync => True
  | _ => False

theorem waits_perform {c : Call} {m : List Call} (hc : Waits c) (hs : Counting n pending s)
    (hp : cfg.perform s c = some (t, m)) : Counting n pending t ∧ ∀ c' ∈ m, Waits c' := by
  have hkeep : ∀ u : Host, u.device = s.device → u.poller.tileEventsInflight = s.poller.tileEventsInflight →
      u.poller.bucketMap = s.poller.bucketMap → u.poller.tileProgress = s.poller.tileProgress →
      u.tileSignalBuf = s.tileSignalBuf → u.dTileChunkDone = s.dTileChunkDone →
      Counting n pending u := by
    intro u hd he hb hpr hbuf hcnt
    refine ⟨hd ▸ hs.valid, he ▸ hs.noEvents, hb ▸ hs.buckets, hpr ▸ hs.progress, hbuf ▸ hs.buffer,
      fun x hx => ?_⟩
    have := hs.shown x hx
    unfold Shown at this ⊢
    rw [hd, hbuf, hcnt]
    exact this
  cases c with
  | settleStaging =>
    cases hp
    refine ⟨hs, ?_⟩
    unfold Config.settleStaging
    split
    · exact List.forall_mem_cons.mpr ⟨trivial, List.forall_mem_singleton.mpr trivial⟩
    · exact List.forall_mem_nil _
  | settleAsync =>
    cases hp
    refine ⟨hs, ?_⟩
    unfold Config.settleAsync
    split
    · simp only [List.forall_mem_cons]
      exact ⟨trivial, trivial, trivial, List.forall_mem_nil _⟩
    · exact List.forall_mem_nil _
  | waitCompletion =>
    cases hp
    exact ⟨hs, List.forall_mem_append.mpr ⟨List.forall_mem_map.mpr fun _ _ => trivial,
      List.forall_mem_singleton.mpr trivial⟩⟩
  | eventSynchronize e =>
    simp only [Config.perform] at hp
    split at hp
    · cases hp; exact ⟨hs, List.forall_mem_nil _⟩
    · cases hp
  | clearDirty | clearInflight | publishDone | clearAsync =>
    cases hp
    exact ⟨hkeep _ rfl rfl rfl rfl rfl rfl, List.forall_mem_nil _⟩
  | _ => exact hc.elim

theorem always_waits (fl : Flushed) {l : List Call} (hl : ∀ c ∈ l, Waits c) :
    cfg.machine.Triple (.always (Rest fl)) (Rest fl) l (Rest fl) :=
  Triple.closed (stable_counting _ _) (fun _ h => h)
    (fun _ hc => .inr fun _ hs => ⟨trivial, fun _ _ hp => waits_perform hc hs hp⟩) hl

/-- The idle branch, and the end of the thread, leave the counters alone. -/
theorem always_idle (fl : Flushed) :
    cfg.machine.Triple (.always (Rest fl)) (Rest fl) [.idle] (Rest fl) := by
  refine Triple.expand (stable_counting _ _) (fun _ h => h) (fun _ _ => trivial) (fun _ => rfl)
    fun s hs => always_waits fl ?_ s hs
  unfold Config.idle
  rw [hs.noEvents]
  split
  · cases ‹0 < 0›
  · split
    · exact List.forall_mem_cons.mpr ⟨trivial, List.forall_mem_singleton.mpr trivial⟩
    · exact List.forall_mem_nil _

theorem always_finish (fl : Flushed) :
    cfg.machine.Triple (.always (Rest fl)) (Rest fl) [.finish] (Rest fl) := by
  refine Triple.expand (stable_counting _ _) (fun _ h => h) (fun _ _ => trivial) (fun _ => rfl)
    fun s hs => always_waits fl ?_ s hs
  unfold Config.finish
  rw [hs.noEvents]
  exact List.forall_mem_cons.mpr ⟨trivial, List.forall_mem_singleton.mpr trivial⟩

/-! ## Every run -/

/-- During a flush nothing is promised; otherwise the thread is at rest. -/
def promise (flushing : Bool) (fl : Flushed) : Spec Host Call :=
  if flushing then .free else .always (Rest fl)

theorem duty (hc : cfg.Tiled) : Duty cfg (fun _ => True) promise Rest where
  stable _ := stable_counting _ _
  inv b _ _ hs := by
    cases b
    · exact hs
    · trivial
  flush t fl h _ _ hne hfl hr := by
    rw [hfl]
    exact (free_flushBatch hc fl hne t.orFlags t.readIdx).outlined hr
  idle fl _ hr := (always_idle fl).outlined hr
  finish fl _ hr := (always_finish fl).outlined hr

/-- Outside `flush_batch` the thread is at rest. -/
theorem rest_of_attended {s : Loop cfg.backend} (h : Attended cfg promise Rest s)
    (hpc : s.pc.inCall ≠ some true) : Rest s.flushed s.backend.data := by
  have hinv := h.2.inv
  rw [beq_eq_false_iff_ne.mpr hpc] at hinv
  exact hinv

end TileSignals
end Gfd
