import Mathlib
import GfdProof.DeferredEvents
import GfdProof.QueueCompletion
import GfdProof.TileCounts

/-! # Deferred tile events and what they signal

A pending tile event is recorded on the channel used last, and the copies it stands for
may be on others.  What is published for its tiles is `tile_progress_` at the time of
publishing, with the batches flushed since.  Either can make a signal come early.

Neither does where every channel but the one used last has nothing left to perform when
an event is recorded, and a counter is stored only when every recorded event that lists
its tile is complete (`Keeps`).  Then, in every state, the counter of a tile counts
descriptors whose copies have been performed, and so have been the copies for the slots
below `done_idx` (`Signals`).

The invariant (`Books`) is about the slots of the array of pending events, whether they
are pending, retired or never used.  The slot at the head is the one to be overwritten,
and it holds the smallest `done_value`.  So what has been counted for a tile belongs to
slots of the queue below the largest `done_value` among the events that list the tile
(`Backed`), although the events that counted it may have been overwritten.
-/
namespace Gfd

open Transition WorkStreams Script.Machine

/-- The channel `record_event_on_last_stream` records on. -/
def Config.lastChannel (cfg : Config) (p : Poller) : Nat :=
  (p.nextChannel + cfg.channels - 1) % cfg.channels

namespace DeferredSignals

open Completion (CopiesDone Served BatchCopy)

/-- An event is recorded when the other channels have nothing left to perform, and a counter is
stored when every recorded event that lists its tile is complete. -/
def Keeps (cfg : Config) : Call → Host → Prop
  | .pushTileEvent _ _, s => ∀ ch < cfg.channels, ch ≠ cfg.lastChannel s.poller →
      (s.device.log (.ce ch)).length ≤ s.device.done (.ce ch)
  | .storeTile _ tile, s => ∀ slot < maxPendingTileEvents,
      tile ∈ (s.poller.pendingTileEvents slot).tileIds → s.device.complete (.tile slot) = true
  | _, _ => True

instance (cfg : Config) (c : Call) (s : Host) : Decidable (Keeps cfg c s) := by
  rcases c with _ | _ <;> dsimp only [Keeps] <;> infer_instance

/-! ## What is signalled -/

/-- Copies have been submitted for the descriptor, and all of them performed. -/
def Completed (s : Host) (d : Descriptor) : Prop :=
  Served s d.slot ∧ ∀ st i e ds, s.device.WorkAt st i (.data e ds) → (∃ d' ∈ ds, d'.slot = d.slot) →
    i < s.device.done st

open Classical in
/-- The descriptors of a tile flushed so far whose copies have been performed. -/
noncomputable def completedCount (fl : Flushed) (s : Host) (tile : Nat) : Nat :=
  (fl.map Prod.fst).flatten.countP fun d => decide (d.group = tile ∧ Completed s d)

/-- The descriptors of the batches that `process_batch` gets; the others are SG batches. -/
def batched (cfg : Config) (fl : Flushed) : List Descriptor :=
  ((fl.filter fun b => decide ¬ cfg.SgMode b.2).map Prod.fst).flatten

/-- Those of a tile whose slots are below `v`. -/
def countBelow (cfg : Config) (fl : Flushed) (tile v : Nat) : Nat :=
  (batched cfg fl).countP fun d => decide (d.group = tile ∧ d.slot < v)

/-- Nothing has been signalled early, where `fl` has been flushed or is being flushed. -/
structure Signals (cfg : Config) (fl : Flushed) (s : Host) : Prop where
  counter : ∀ tile, s.tileChunkDone tile ≤ completedCount fl s tile
  dCounter : ∀ tile, s.dTileChunkDone tile ≤ completedCount fl s tile
  done_le : s.doneIdx ≤ Loop.flushedCount fl
  copies : CopiesDone s s.doneIdx
  completed : ∀ d ∈ batched cfg fl, d.slot < s.doneIdx → Completed s d

variable {cfg : Config} {fl : Flushed} {m n : Nat} {s t : Host}

theorem batched_sublist (cfg : Config) (fl : Flushed) :
    (batched cfg fl).Sublist (fl.map Prod.fst).flatten :=
  List.Sublist.flatten (List.filter_sublist.map Prod.fst)

theorem batched_append (cfg : Config) (fl : Flushed) (b : List Descriptor × Nat) :
    batched cfg (fl ++ [b]) = batched cfg fl ++ if cfg.SgMode b.2 then [] else b.1 := by
  unfold batched
  rw [List.filter_append, List.map_append, List.flatten_append]
  by_cases h : cfg.SgMode b.2 <;> simp [h]

theorem countBelow_append (cfg : Config) (fl : Flushed) (b : List Descriptor × Nat) (tile v : Nat) :
    countBelow cfg fl tile v ≤ countBelow cfg (fl ++ [b]) tile v := by
  unfold countBelow
  rw [batched_append, List.countP_append]
  exact Nat.le_add_right _ _

theorem completedCount_append (fl : Flushed) (b : List Descriptor × Nat) (s : Host) (tile : Nat) :
    completedCount fl s tile ≤ completedCount (fl ++ [b]) s tile := by
  unfold completedCount
  rw [List.map_append, List.flatten_append, List.countP_append]
  exact Nat.le_add_right _ _

/-- Descriptors that have been completed count. -/
theorem countBelow_le_completedCount {tile v : Nat}
    (h : ∀ d ∈ batched cfg fl, d.slot < v → Completed s d) :
    countBelow cfg fl tile v ≤ completedCount fl s tile := by
  classical
  refine Nat.le_trans (List.countP_mono_left fun d hd hdv => ?_)
    ((batched_sublist cfg fl).countP_le)
  have hdv := of_decide_eq_true hdv
  exact decide_eq_true ⟨hdv.1, h d hd hdv.2⟩

theorem completed_of_copiesDone {d : Descriptor} {v : Nat} (hc : CopiesDone s v) (hd : d.slot < v)
    (hs : Served s d.slot) : Completed s d :=
  ⟨hs, fun st i e ds hw ⟨d', hd', he⟩ => hc st i e ds hw ⟨d', hd', he ▸ hd⟩⟩

/-! ## Time passing -/

/-- Nothing is undone, and no copy is submitted for a slot below `m`. -/
structure Later (m : Nat) (s t : Host) : Prop where
  grows : s.device.Grows t.device
  done_le : ∀ st, s.device.done st ≤ t.device.done st
  work : ∀ st i e ds, t.device.WorkAt st i (.data e ds) →
    s.device.WorkAt st i (.data e ds) ∨ ∀ d ∈ ds, m ≤ d.slot

theorem Later.refl (m : Nat) (s : Host) : Later m s s :=
  ⟨Device.Grows.refl _, fun _ => Nat.le_refl _, fun _ _ _ _ h => .inl h⟩

/-- Only the device matters. -/
theorem Later.of_device (m : Nat) (h : t.device = s.device) : Later m s t := by
  refine ⟨?_, fun st => ?_, fun st i e ds hw => .inl ?_⟩
  · rw [h]
  · rw [h]
  · rwa [h] at hw

theorem Later.env (m : Nat) (h : s.EnvStep t) : Later m s t :=
  ⟨Completion.grows_env h, h.done_le, fun _ _ _ _ hw => .inl (Completion.workAt_env h hw)⟩

theorem Later.aside (h : s.Aside (BatchCopy m n) t) : Later m s t :=
  ⟨h.grows, fun st => by rw [h.done], fun st i e ds hw =>
    (h.work st i _ hw).imp_right fun hφ d hd => (hφ.2 d hd).1⟩

theorem Later.performed (h : Later m s t) {st : Stream} {i : Nat} {e : SGEntry} {ds : List Descriptor}
    (hw : t.device.WorkAt st i (.data e ds)) {d : Descriptor} (hd : d ∈ ds) (hlt : d.slot < m) :
    s.device.WorkAt st i (.data e ds) :=
  (h.work st i e ds hw).resolve_right fun hall => Nat.not_lt.mpr (hall d hd) hlt

theorem Later.copiesDone (h : Later m s t) {v : Nat} (hv : v ≤ m) (hc : CopiesDone s v) :
    CopiesDone t v := fun st i e ds hw ⟨d, hd, hlt⟩ =>
  Nat.lt_of_lt_of_le (hc st i e ds (h.performed hw hd (Nat.lt_of_lt_of_le hlt hv)) ⟨d, hd, hlt⟩)
    (h.done_le st)

theorem Later.completed (h : Later m s t) {d : Descriptor} (hd : d.slot < m) (hc : Completed s d) :
    Completed t d :=
  ⟨hc.1.grows h.grows, fun st i e ds hw ⟨d', hd', he⟩ => Nat.lt_of_lt_of_le
    (hc.2 st i e ds (h.performed hw hd' (he ▸ hd)) ⟨d', hd', he⟩) (h.done_le st)⟩

theorem Later.completedCount_le (h : Later m s t)
    (hslots : ∀ d ∈ (fl.map Prod.fst).flatten, d.slot < m) (tile : Nat) :
    completedCount fl s tile ≤ completedCount fl t tile := by
  classical
  exact List.countP_mono_left fun d hd hdone => by
    have hdone := of_decide_eq_true hdone
    exact decide_eq_true ⟨hdone.1, h.completed (hslots d hd) hdone.2⟩

/-! ## The array of pending events -/

/-- The `i`-th slot from the one at the head on. -/
def slotFrom (p : Poller) (i : Nat) : Nat := (p.tileEventHead + i) % maxPendingTileEvents

/-- From the head on, the events are in the order in which they were recorded. -/
structure Recorded (m : Nat) (p : Poller) : Prop where
  head_lt : p.tileEventHead < maxPendingTileEvents
  tail_lt : p.tileEventTail < maxPendingTileEvents
  values : ∀ slot, (p.pendingTileEvents slot).doneValue ≤ m
  ordered : ∀ i j, i ≤ j → j < maxPendingTileEvents →
    (p.pendingTileEvents (slotFrom p i)).doneValue ≤ (p.pendingTileEvents (slotFrom p j)).doneValue

variable {p q : Poller}

theorem slotFrom_zero (h : p.tileEventHead < maxPendingTileEvents) : slotFrom p 0 = p.tileEventHead :=
  Nat.mod_eq_of_lt h

theorem exists_slotFrom (h : p.tileEventHead < maxPendingTileEvents) {slot : Nat}
    (hs : slot < maxPendingTileEvents) : ∃ k < maxPendingTileEvents, slotFrom p k = slot := by
  refine ⟨(slot + maxPendingTileEvents - p.tileEventHead) % maxPendingTileEvents,
    Nat.mod_lt _ (by decide), ?_⟩
  unfold slotFrom maxPendingTileEvents at *
  omega

/-- The slot that will be overwritten next holds the smallest value. -/
theorem Recorded.head_le (hp : Recorded m p) {slot : Nat} (hs : slot < maxPendingTileEvents) :
    (p.pendingTileEvents p.tileEventHead).doneValue ≤ (p.pendingTileEvents slot).doneValue := by
  obtain ⟨k, hk, rfl⟩ := exists_slotFrom hp.head_lt hs
  have h := hp.ordered 0 k (Nat.zero_le k) hk
  rwa [slotFrom_zero hp.head_lt] at h

theorem Recorded.mono (hp : Recorded m p) (h : m ≤ n) : Recorded n p :=
  { hp with values := fun slot => Nat.le_trans (hp.values slot) h }

theorem Recorded.congr (hp : Recorded m p) (h : q.tileRing = p.tileRing) : Recorded m q := by
  simp only [Poller.tileRing, Prod.mk.injEq] at h
  obtain ⟨he, hh, ht, -⟩ := h
  refine ⟨hh ▸ hp.head_lt, ht ▸ hp.tail_lt, he ▸ hp.values, ?_⟩
  unfold slotFrom
  rw [he, hh]
  exact hp.ordered

theorem recorded_init : Recorded 0 Poller.init :=
  ⟨by decide, by decide, fun _ => Nat.le_refl _, fun _ _ _ _ => Nat.le_refl _⟩

theorem push_tileEvents_of_ne {slot : Nat} (h : slot ≠ p.tileEventHead) (batch : List Descriptor) :
    (Host.pushTileEvent p batch n).pendingTileEvents slot = p.pendingTileEvents slot :=
  Function.update_of_ne h ..

theorem push_tileEvents_head (p : Poller) (batch : List Descriptor) (n : Nat) :
    (Host.pushTileEvent p batch n).pendingTileEvents p.tileEventHead = ⟨n, p.tileIds batch⟩ :=
  Function.update_self ..

theorem push_slotFrom (p : Poller) (batch : List Descriptor) (n i : Nat) :
    slotFrom (Host.pushTileEvent p batch n) i = slotFrom p (i + 1) := by
  simp only [slotFrom, Host.pushTileEvent]
  unfold maxPendingTileEvents
  omega

/-- Recording an event overwrites the slot at the head, which becomes the last one. -/
theorem Recorded.push (hp : Recorded m p) (hmn : m ≤ n) (batch : List Descriptor) :
    Recorded n (Host.pushTileEvent p batch n) := by
  have hvalues : ∀ slot, ((Host.pushTileEvent p batch n).pendingTileEvents slot).doneValue ≤ n := by
    intro slot
    by_cases h : slot = p.tileEventHead
    · rw [h, push_tileEvents_head]
    · rw [push_tileEvents_of_ne h]
      exact Nat.le_trans (hp.values slot) hmn
  have hne : ∀ k, k + 1 < maxPendingTileEvents → slotFrom p (k + 1) ≠ p.tileEventHead := by
    intro k hk
    have hlt := hp.head_lt
    unfold slotFrom maxPendingTileEvents at *
    omega
  refine ⟨Nat.mod_lt _ (by decide), hp.tail_lt, hvalues, fun i j hij hj => ?_⟩
  rw [push_slotFrom, push_slotFrom]
  by_cases hlast : j + 1 = maxPendingTileEvents
  · have hslot : slotFrom p (j + 1) = p.tileEventHead := by
      have hlt := hp.head_lt
      rw [hlast]
      unfold slotFrom maxPendingTileEvents at *
      omega
    rw [hslot, push_tileEvents_head]
    exact hvalues _
  · have hlt : j + 1 < maxPendingTileEvents := by omega
    rw [push_tileEvents_of_ne (hne i (by omega)), push_tileEvents_of_ne (hne j hlt)]
    exact hp.ordered (i + 1) (j + 1) (by omega) hlt

/-- The tiles of an event are the first marked ones of its batch. -/
theorem pushTiles_snd (progress counts : Nat → Nat) (ids : List Nat) (batch : List Descriptor) :
    (Host.pushTiles progress counts ids batch).2 = ids ++
      ((batch.filter Descriptor.marked).take (maxTiles - ids.length)).map Descriptor.group := by
  induction batch generalizing progress counts ids with
  | nil => simp [Host.pushTiles]
  | cons d ds ih =>
    rw [Host.pushTiles]
    by_cases hm : d.marked = true
    · obtain ⟨hflag, hlt⟩ : hasFlag d.flags flagLastInTile = true ∧ d.group < maxTiles := by
        simpa [Descriptor.marked] using hm
      by_cases hroom : ids.length < maxTiles
      · have hsucc : maxTiles - ids.length = (maxTiles - (ids.length + 1)) + 1 := by omega
        rw [if_pos ⟨hflag, hroom, hlt⟩, ih, List.filter_cons_of_pos hm, List.length_append,
          List.length_singleton, hsucc, List.take_succ_cons, List.map_cons, List.append_assoc]
        rfl
      · have hzero : maxTiles - ids.length = 0 := by omega
        rw [if_neg fun h => hroom h.2.1, ih, hzero, List.take_zero, List.take_zero]
    · rw [if_neg fun h => hm (by simp [Descriptor.marked, h.1, h.2.2]), ih,
        List.filter_cons_of_neg hm]

/-- What recording an event adds to the progress of a tile. -/
theorem push_tileProgress (p : Poller) (batch : List Descriptor) (n tile : Nat) :
    (Host.pushTileEvent p batch n).tileProgress tile =
      if tile ∈ p.tileIds batch then word (p.tileProgress tile + batchCount batch tile)
      else p.tileProgress tile := by
  have hcount : (batch.filter fun d => d.group == tile).length = batchCount batch tile := by
    rw [batchCount, List.countP_eq_length_filter]
  have hids : p.tileIds batch =
      ((batch.filter Descriptor.marked).take (maxTiles - ([] : List Nat).length)).map
        Descriptor.group := pushTiles_snd ..
  dsimp only [Host.pushTileEvent]
  simp only [pushTiles_fst, hids, hcount]

/-- What has been counted for a tile belongs to slots of the queue below the largest value among
the events that list it. -/
def Backed (cfg : Config) (fl : Flushed) (p : Poller) : Prop :=
  ∀ tile v, (p.pendingTileEvents p.tileEventHead).doneValue ≤ v →
    (∀ slot < maxPendingTileEvents, tile ∈ (p.pendingTileEvents slot).tileIds →
      (p.pendingTileEvents slot).doneValue ≤ v) →
    p.tileProgress tile ≤ countBelow cfg fl tile v

theorem Backed.congr (hp : Backed cfg fl p) (h : q.tileRing = p.tileRing)
    (hprogress : q.tileProgress = p.tileProgress) : Backed cfg fl q := by
  simp only [Poller.tileRing, Prod.mk.injEq] at h
  obtain ⟨he, hh, -, -⟩ := h
  unfold Backed
  rw [he, hh, hprogress]
  exact hp

theorem Backed.append (hp : Backed cfg fl p) (b : List Descriptor × Nat) :
    Backed cfg (fl ++ [b]) p := fun tile v hv hslots =>
  Nat.le_trans (hp tile v hv hslots) (countBelow_append cfg fl b tile v)

/-- A batch is counted with an event that is behind its slots. -/
theorem Backed.push (hp : Backed cfg fl p) (hr : Recorded m p) (hmn : m ≤ n)
    {batch : List Descriptor} {orFlags : Nat} (hsg : ¬ cfg.SgMode orFlags)
    (hslots : ∀ d ∈ batch, d.slot < n) :
    Backed cfg (fl ++ [(batch, orFlags)]) (Host.pushTileEvent p batch n) := by
  intro tile v hv hlisted
  have happend : countBelow cfg (fl ++ [(batch, orFlags)]) tile v =
      countBelow cfg fl tile v + batch.countP fun d => decide (d.group = tile ∧ d.slot < v) := by
    unfold countBelow
    rw [batched_append, if_neg hsg, List.countP_append]
  rw [push_tileProgress, happend]
  by_cases hmem : tile ∈ p.tileIds batch
  · -- the new event lists the tile
    rw [if_pos hmem]
    have hnv : n ≤ v := by
      have h := hlisted p.tileEventHead hr.head_lt (by rw [push_tileEvents_head]; exact hmem)
      rwa [push_tileEvents_head] at h
    have hold : p.tileProgress tile ≤ countBelow cfg fl tile v :=
      hp tile v (Nat.le_trans (hr.values _) (Nat.le_trans hmn hnv))
        fun slot _ _ => Nat.le_trans (hr.values slot) (Nat.le_trans hmn hnv)
    have hnew : batchCount batch tile = batch.countP fun d => decide (d.group = tile ∧ d.slot < v) := by
      refine List.countP_congr fun d hd => ?_
      have hlt := Nat.lt_of_lt_of_le (hslots d hd) hnv
      simp [hlt]
    rw [hnew]
    exact Nat.le_trans (Nat.mod_le _ _) (Nat.add_le_add_right hold _)
  · rw [if_neg hmem]
    -- the value that is overwritten is below the one that comes to the head
    have hhead : (p.pendingTileEvents p.tileEventHead).doneValue ≤ v := by
      have hlt := hr.head_lt
      have hne : (p.tileEventHead + 1) % maxPendingTileEvents ≠ p.tileEventHead := by
        unfold maxPendingTileEvents at *
        omega
      have hnext : (Host.pushTileEvent p batch n).tileEventHead =
          (p.tileEventHead + 1) % maxPendingTileEvents := rfl
      rw [hnext, push_tileEvents_of_ne hne] at hv
      exact Nat.le_trans (hr.head_le (Nat.mod_lt _ (by decide))) hv
    refine Nat.le_trans (hp tile v hhead fun slot hs hlist => ?_) (Nat.le_add_right _ _)
    by_cases h : slot = p.tileEventHead
    · rw [h]
      exact hhead
    · have hold := hlisted slot hs (by rw [push_tileEvents_of_ne h]; exact hlist)
      rwa [push_tileEvents_of_ne h] at hold

/-- What an event that is behind all others listing its tile stands for. -/
theorem Backed.progress_le (hp : Backed cfg fl p) (hr : Recorded m p) {tile slot : Nat}
    (hs : slot < maxPendingTileEvents) (hlist : tile ∈ (p.pendingTileEvents slot).tileIds)
    (hdone : ∀ k < maxPendingTileEvents, tile ∈ (p.pendingTileEvents k).tileIds →
      ∀ d ∈ batched cfg fl, d.slot < (p.pendingTileEvents k).doneValue → Completed s d) :
    p.tileProgress tile ≤ completedCount fl s tile := by
  -- the largest value among the events that list the tile
  obtain ⟨k, hk, hmax⟩ := ((Finset.range maxPendingTileEvents).filter fun k =>
    tile ∈ (p.pendingTileEvents k).tileIds).exists_max_image
      (fun k => (p.pendingTileEvents k).doneValue)
      ⟨slot, Finset.mem_filter.mpr ⟨Finset.mem_range.mpr hs, hlist⟩⟩
  obtain ⟨hk, hkt⟩ := Finset.mem_filter.mp hk
  have hk := Finset.mem_range.mp hk
  have hbound : p.tileProgress tile ≤
      countBelow cfg fl tile (p.pendingTileEvents k).doneValue :=
    hp tile _ (hr.head_le hk) fun j hj hjt =>
      hmax j (Finset.mem_filter.mpr ⟨Finset.mem_range.mpr hj, hjt⟩)
  exact Nat.le_trans hbound (countBelow_le_completedCount (hdone k hk hkt))

/-! ## The invariant -/

/-- `fl` has been flushed, with slots below `m`; copies have been submitted for slots below `n`. -/
structure Books (cfg : Config) (fl : Flushed) (m n : Nat) (s : Host) : Prop where
  clean : s.poller.sgBucketMap = fun _ => none
  recorded : Recorded m s.poller
  backed : Backed cfg fl s.poller
  works : ∀ st i c, s.device.WorkAt st i c → (∃ ch, st = .ce ch) ∧ BatchCopy 0 n c
  /-- A copy for a slot below an event's value has been performed, or the event is behind it. -/
  covered : ∀ slot st i e ds, s.device.WorkAt st i (.data e ds) →
    (∃ d ∈ ds, d.slot < (s.poller.pendingTileEvents slot).doneValue) →
      i < s.device.done st ∨ s.device.Marked (.tile slot) st i
  latest_le : s.poller.latestAsyncRead ≤ n
  done_le : s.doneIdx ≤ m
  copies : CopiesDone s s.doneIdx
  slots : ∀ d ∈ (fl.map Prod.fst).flatten, d.slot < m
  served : ∀ d ∈ batched cfg fl, Served s d.slot
  counter : ∀ tile, s.tileChunkDone tile ≤ completedCount fl s tile
  dCounter : ∀ tile, s.dTileChunkDone tile ≤ completedCount fl s tile

theorem books_init (cfg : Config) (user : Nat → UInt8) (staging : Nat → Nat → UInt8)
    (gpu : Nat → UInt8) : Books cfg [] 0 0 (Host.init user staging gpu) where
  clean := rfl
  recorded := recorded_init
  backed _ _ _ _ := Nat.zero_le _
  works _ _ _ h := absurd h.lt (Nat.not_lt_zero _)
  covered _ _ _ _ _ h := absurd h.lt (Nat.not_lt_zero _)
  latest_le := Nat.le_refl _
  done_le := Nat.le_refl _
  copies _ _ _ _ h := absurd h.lt (Nat.not_lt_zero _)
  slots _ h := by cases h
  served _ h := by cases h
  counter _ := Nat.zero_le _
  dCounter _ := Nat.zero_le _

theorem Books.signals (hs : Books cfg fl m n s) (hm : m ≤ Loop.flushedCount fl) :
    Signals cfg fl s where
  counter := hs.counter
  dCounter := hs.dCounter
  done_le := Nat.le_trans hs.done_le hm
  copies := hs.copies
  completed d hd hlt := completed_of_copiesDone hs.copies hlt (hs.served d hd)

/-- The same while another batch is being flushed. -/
theorem Books.signals_append (hs : Books cfg fl m n s) {b : List Descriptor × Nat}
    (hm : m ≤ Loop.flushedCount (fl ++ [b])) (hb : ∀ d ∈ b.1, m ≤ d.slot) :
    Signals cfg (fl ++ [b]) s where
  counter tile := Nat.le_trans (hs.counter tile) (completedCount_append fl b s tile)
  dCounter tile := Nat.le_trans (hs.dCounter tile) (completedCount_append fl b s tile)
  done_le := Nat.le_trans hs.done_le hm
  copies := hs.copies
  completed d hd hlt := by
    rw [batched_append] at hd
    rcases List.mem_append.mp hd with hd | hd
    · exact completed_of_copiesDone hs.copies hlt (hs.served d hd)
    · have hmem : d ∈ b.1 := by
        split at hd
        · cases hd
        · exact hd
      have h1 := hb d hmem
      have h2 := hs.done_le
      omega

theorem Books.mono (hs : Books cfg fl m m s) (h : m ≤ n) : Books cfg fl m n s :=
  { hs with
    works := fun st i c hw => by
      obtain ⟨hch, hc⟩ := hs.works st i c hw
      refine ⟨hch, ?_⟩
      cases c with
      | data e ds => exact fun d hd => ⟨Nat.zero_le _, Nat.lt_of_lt_of_le (hc d hd).2 h⟩
      | _ => exact hc
    latest_le := Nat.le_trans hs.latest_le h }

/-- As time passes, with the thread's variables as they are. -/
theorem Books.later (hs : Books cfg fl m n s) (h : Later m s t)
    (hworks : ∀ st i c, t.device.WorkAt st i c → (∃ ch, st = .ce ch) ∧ BatchCopy 0 n c)
    (hclean : t.poller.sgBucketMap = fun _ => none) (hring : t.poller.tileRing = s.poller.tileRing)
    (hprogress : t.poller.tileProgress = s.poller.tileProgress)
    (hmark : ∀ slot, t.device.mark (.tile slot) = s.device.mark (.tile slot))
    (hlatest : t.poller.latestAsyncRead = s.poller.latestAsyncRead) (hdone : t.doneIdx = s.doneIdx)
    (hcounter : t.tileChunkDone = s.tileChunkDone) (hd : t.dTileChunkDone = s.dTileChunkDone) :
    Books cfg fl m n t where
  clean := hclean
  recorded := hs.recorded.congr hring
  backed := hs.backed.congr hring hprogress
  works := hworks
  covered slot st i e ds hw hlt := by
    have hevents : t.poller.pendingTileEvents = s.poller.pendingTileEvents :=
      congrArg Prod.fst hring
    rw [hevents] at hlt
    obtain ⟨d, hd, hlt⟩ := hlt
    have hold := h.performed hw hd (Nat.lt_of_lt_of_le hlt (hs.recorded.values slot))
    rcases hs.covered slot st i e ds hold ⟨d, hd, hlt⟩ with hdone | ⟨k, hk, hi⟩
    · exact .inl (Nat.lt_of_lt_of_le hdone (h.done_le st))
    · exact .inr ⟨k, (hmark slot).trans hk, hi⟩
  latest_le := hlatest ▸ hs.latest_le
  done_le := hdone ▸ hs.done_le
  copies := hdone ▸ h.copiesDone hs.done_le hs.copies
  slots := hs.slots
  served d hd := (hs.served d hd).grows h.grows
  counter tile := by
    rw [hcounter]
    exact Nat.le_trans (hs.counter tile) (h.completedCount_le hs.slots tile)
  dCounter tile := by
    rw [hd]
    exact Nat.le_trans (hs.dCounter tile) (h.completedCount_le hs.slots tile)

/-- A device that performs data copies only stores no counter. -/
theorem counters_env (hs : Books cfg fl m n s) {e : HostEnv} (h : s.env e = some t) :
    t.tileChunkDone = s.tileChunkDone ∧ t.dTileChunkDone = s.dTileChunkDone := by
  cases e with
  | advance st =>
    obtain ⟨-, ⟨c, hnext, rfl⟩ | ⟨u, k, -, rfl⟩⟩ := Host.advance_cases h
    · have hdata := (hs.works st _ c hnext).2
      cases c with
      | data => exact ⟨rfl, rfl⟩
      | _ => exact hdata.elim
    · exact ⟨rfl, rfl⟩
  | gather k =>
    obtain ⟨g, e, es, -, -, rfl⟩ := Host.gather_cases h
    exact ⟨rfl, rfl⟩

theorem stable_books (cfg : Config) (fl : Flushed) (m n : Nat) :
    cfg.machine.Stable (Books cfg fl m n) := fun s e t hs he => by
  have h := Host.envStep he
  obtain ⟨hcounter, hd⟩ := counters_env hs he
  exact hs.later (.env m h) (fun st i c hw => hs.works st i c (Completion.workAt_env h hw))
    (by rw [h.poller]; exact hs.clean) (by rw [h.poller]) (by rw [h.poller])
    (fun _ => by rw [h.mark]) (by rw [h.poller]) h.doneIdx hcounter hd

theorem Books.aside (hs : Books cfg fl m n s) (h : s.Aside (BatchCopy m n) t) :
    Books cfg fl m n t :=
  hs.later (.aside h)
    (fun st i c hw => (h.work st i c hw).elim (hs.works st i c) fun hφ => ⟨hφ.1, by
      cases c with
      | data e ds => exact fun d hd => ⟨Nat.zero_le _, (hφ.2 d hd).2⟩
      | _ => exact hφ.2⟩)
    (h.sgBucketMap hs.clean) h.tileRing h.tileProgress h.tileMark h.latestAsyncRead h.doneIdx
    h.tileChunkDone h.dTileChunkDone

/-! ## Flushing a batch -/

/-- Nothing is signalled early at any time. -/
def promise (cfg : Config) (fl : Flushed) : Spec Host Call := ⟨Signals cfg fl, fun _ _ => True⟩

/-- A triple of the thread that keeps to `Keeps`, while `fl` has been flushed or is being flushed. -/
abbrev Within (cfg : Config) (fl : Flushed) (P : Host → Prop) (l : List Call) (Q : Host → Prop) :
    Prop :=
  (cfg.machine.only (Keeps cfg)).Triple (promise cfg fl) P l Q

/-- What the books say of calls that also keep track of every copy. -/
theorem rest_of_books {P Q : Host → Prop} {l : List Call} (h : Within cfg fl P l Q)
    (hl : ∀ c ∈ l, c.Outer) :
    Within cfg fl (fun s => s.Quiet cfg ∧ P s) l (fun s => s.Quiet cfg ∧ Q s) :=
  ((covered_calls cfg hl).only.and h).weaken (fun _ hs => hs.2) fun _ _ hs => hs.2

/-- Processing a batch, whichever way. -/
theorem books_aside (hd : cfg.Deferred) {fl' : Flushed}
    (hinv : ∀ s, Books cfg fl m n s → Signals cfg fl' s) {l : List Call}
    (hl : ∀ c ∈ l, c.Aside (BatchCopy m n)) :
    Within cfg fl' (Books cfg fl m n) l (Books cfg fl m n) :=
  (aside_triple hd.noSignalBuf (stable_books cfg fl m n) hinv (fun _ _ _ _ => trivial)
    (fun _ hs => hs.clean) (fun _ _ ha hs => hs.aside ha) hl).only

/-- A batch has been processed, and its event, if it gets one, is yet to be recorded. -/
structure Processed (cfg : Config) (fl : Flushed) (b : List Descriptor × Nat) (m n : Nat)
    (s : Host) : Prop where
  books : Books cfg (fl ++ [b]) n n s
  recorded : Recorded m s.poller
  backed : Backed cfg fl s.poller

theorem stable_processed (cfg : Config) (fl : Flushed) (b : List Descriptor × Nat) (m n : Nat) :
    cfg.machine.Stable (Processed cfg fl b m n) := fun s e t hs he => by
  have h := Host.envStep he
  exact ⟨stable_books cfg _ n n s e t hs.books he, by rw [h.poller]; exact hs.recorded,
    by rw [h.poller]; exact hs.backed⟩

/-- `has_async_dma_ = true; latest_async_read_ = n` -/
theorem books_setAsync {b : List Descriptor × Nat} (hmn : m ≤ n)
    (hslots : ∀ d ∈ b.1, m ≤ d.slot ∧ d.slot < n) (hcount : n ≤ Loop.flushedCount (fl ++ [b])) :
    Within cfg (fl ++ [b])
      (fun s => Books cfg fl m n s ∧ (¬ cfg.SgMode b.2 → ∀ d ∈ b.1, Served s d.slot)) [.setAsync n]
      (Processed cfg fl b m n) := by
  have hst : cfg.machine.Stable fun s =>
      Books cfg fl m n s ∧ (¬ cfg.SgMode b.2 → ∀ d ∈ b.1, Served s d.slot) :=
    (stable_books cfg fl m n).and (stable_env cfg fun _ _ h hs hsg d hd =>
      (hs hsg d hd).grows (Completion.grows_env h))
  refine Triple.atom hst (fun s hs => hs.1.signals_append (Nat.le_trans hmn hcount) fun d hd =>
      (hslots d hd).1) (fun _ _ => trivial) (stable_processed cfg fl b m n)
    (fun s hs => hs.books.signals hcount) fun s t k hs hp => ?_
  obtain ⟨-, hp⟩ := perform_only hp
  cases hp
  obtain ⟨hs, hserved⟩ := hs
  refine ⟨rfl, ?_, hs.recorded.congr rfl, hs.backed.congr rfl rfl⟩
  exact {
    clean := hs.clean
    recorded := (hs.recorded.mono hmn).congr rfl
    backed := (hs.backed.append b).congr rfl rfl
    works := hs.works
    covered := hs.covered
    latest_le := Nat.le_refl n
    done_le := Nat.le_trans hs.done_le hmn
    copies := hs.copies
    slots := fun d hd => by
      rw [List.map_append, List.flatten_append] at hd
      rcases List.mem_append.mp hd with hd | hd
      · exact Nat.lt_of_lt_of_le (hs.slots d hd) hmn
      · exact (hslots d (by simpa using hd)).2
    served := fun d hd => by
      rw [batched_append] at hd
      rcases List.mem_append.mp hd with hd | hd
      · exact hs.served d hd
      · split at hd
        · cases hd
        · exact hserved ‹_› d hd
    counter := fun tile => Nat.le_trans (hs.counter tile) (completedCount_append fl b s tile)
    dCounter := fun tile => Nat.le_trans (hs.dCounter tile) (completedCount_append fl b s tile) }

/-- The event recorded is behind every copy. -/
theorem covered_push (hq : s.Quiet cfg) {batch : List Descriptor} {v : Nat}
    (hkeep : Keeps cfg (.pushTileEvent batch v) s) {ch i : Nat}
    (hi : i < (s.device.log (.ce ch)).length) :
    i < s.device.done (.ce ch) ∨
      (s.device.record (.tile s.poller.tileEventHead) (.ce (cfg.lastChannel s.poller))).Marked
        (.tile s.poller.tileEventHead) (.ce ch) i := by
  by_cases hlast : ch = cfg.lastChannel s.poller
  · subst hlast
    exact .inr (Device.marked_record hi)
  · left
    by_cases hlt : ch < cfg.channels
    · exact Nat.lt_of_lt_of_le hi (hkeep ch hlt hlast)
    · -- no copy is queued beyond the channels
      exact hq.drained (fun hdirty => absurd (hq.dirty_lt ch hdirty) hlt) i hi

theorem books_push {batch : List Descriptor} {orFlags : Nat} (hmn : m ≤ n)
    (hsg : ¬ cfg.SgMode orFlags) (hslots : ∀ d ∈ batch, d.slot < n)
    (hcount : n ≤ Loop.flushedCount (fl ++ [(batch, orFlags)])) :
    Within cfg (fl ++ [(batch, orFlags)])
      (fun s => s.Quiet cfg ∧ Processed cfg fl (batch, orFlags) m n s) [.pushTileEvent batch n]
      (Books cfg (fl ++ [(batch, orFlags)]) n n) := by
  refine Triple.atom ((stable_covered cfg).and (stable_processed cfg fl (batch, orFlags) m n))
    (fun s hs => hs.2.books.signals hcount) (fun _ _ => trivial) (stable_books cfg _ n n)
    (fun s hs => hs.signals hcount) fun s t k hs hp => ?_
  obtain ⟨hkeep, hp⟩ := perform_only hp
  cases hp
  obtain ⟨hq, hs, hrec, hback⟩ := hs
  have hlater : Later n s { s with
      device := s.device.record (.tile s.poller.tileEventHead) (.ce (cfg.lastChannel s.poller)) } :=
    ⟨Device.Grows.refl _, fun _ => Nat.le_refl _, fun _ _ _ _ hw => .inl hw⟩
  refine ⟨rfl, ?_⟩
  exact {
    clean := hs.clean
    recorded := hrec.push hmn batch
    backed := hback.push hrec hmn hsg hslots
    works := hs.works
    covered := fun slot st i e ds hw hlt => by
      by_cases hslot : slot = s.poller.tileEventHead
      · subst hslot
        obtain ⟨ch, rfl⟩ := (hs.works st i _ hw).1
        exact covered_push hq hkeep hw.lt
      · rw [push_tileEvents_of_ne hslot] at hlt
        refine (hs.covered slot st i e ds hw hlt).imp_right fun ⟨k, hk, hi⟩ => ⟨k, ?_, hi⟩
        exact (Device.record_mark_of_ne _ (fun h => hslot (Event.tile.inj h)) _).trans hk
    latest_le := hs.latest_le
    done_le := hs.done_le
    copies := hs.copies
    slots := hs.slots
    served := hs.served
    counter := fun tile =>
      Nat.le_trans (hs.counter tile) (hlater.completedCount_le hs.slots tile)
    dCounter := fun tile =>
      Nat.le_trans (hs.dCounter tile) (hlater.completedCount_le hs.slots tile) }

/-- The host between calls. -/
def Rest (cfg : Config) (fl : Flushed) (n : Nat) (s : Host) : Prop := s.Quiet cfg ∧ Books cfg fl n n s

theorem stable_rest (cfg : Config) (fl : Flushed) (n : Nat) : cfg.machine.Stable (Rest cfg fl n) :=
  (stable_covered cfg).and (stable_books cfg fl n n)

/-- `process_batch` queues a copy that serves its whole batch. -/
theorem served_processBatch {batch : List Descriptor} (hne : batch ≠ []) :
    cfg.Free (fun _ => True) [.processBatch batch] fun s => ∀ d ∈ batch, Served s d.slot :=
  (Completion.queued_processBatch hne).conseq (fun _ h => h)
    fun _ ⟨e, _, _, hw⟩ d hd => ⟨_, _, e, batch, hw, d, hd, rfl⟩

/-- **`flush_batch`** takes the thread from `m` slots flushed to `n`. -/
theorem rest_flush (hd : cfg.Deferred) {batch : List Descriptor} {orFlags : Nat} (hne : batch ≠ [])
    (hmn : m ≤ n) (hslots : ∀ d ∈ batch, m ≤ d.slot ∧ d.slot < n)
    (hcount : n ≤ Loop.flushedCount (fl ++ [(batch, orFlags)])) :
    Within cfg (fl ++ [(batch, orFlags)]) (Rest cfg fl m) [.flushBatch batch orFlags n]
      (Rest cfg (fl ++ [(batch, orFlags)]) n) := by
  have hinv : ∀ s, Books cfg fl m n s → Signals cfg (fl ++ [(batch, orFlags)]) s := fun s hs =>
    hs.signals_append (Nat.le_trans hmn hcount) fun d hd => (hslots d hd).1
  have hset : Within cfg (fl ++ [(batch, orFlags)])
      (fun s => s.Quiet cfg ∧ Books cfg fl m n s ∧
        (¬ cfg.SgMode orFlags → ∀ d ∈ batch, Served s d.slot)) [.setAsync n]
      (fun s => s.Quiet cfg ∧ Processed cfg fl (batch, orFlags) m n s) :=
    rest_of_books (books_setAsync hmn hslots hcount) (List.forall_mem_singleton.mpr trivial)
  have hend : Within cfg (fl ++ [(batch, orFlags)])
      (fun s => s.Quiet cfg ∧ Books cfg fl m n s ∧
        (¬ cfg.SgMode orFlags → ∀ d ∈ batch, Served s d.slot)) [.setAsync n]
      (Rest cfg (fl ++ [(batch, orFlags)]) n) :=
    hset.conseq (fun _ h => h) fun _ h => ⟨h.1, h.2.books⟩
  refine Triple.expand (stable_rest cfg fl m) (fun s hs => hinv s (hs.2.mono hmn)) (fun _ _ => trivial)
    (fun s => perform_only_of (A := Keeps cfg) trivial) fun s hs => ?_
  have hs : s.Quiet cfg ∧ Books cfg fl m n s := ⟨hs.1, hs.2.mono hmn⟩
  unfold Config.flushBatch
  dsimp only
  rw [if_neg hne]
  split
  · rename_i hsg
    have hsg : cfg.SgMode orFlags := ⟨hsg.1.1, hsg.1.2, hsg.2⟩
    have hproc : Within cfg (fl ++ [(batch, orFlags)]) (fun s => s.Quiet cfg ∧ Books cfg fl m n s)
        [.processBatchSg batch] (fun s => s.Quiet cfg ∧ Books cfg fl m n s) :=
      rest_of_books (books_aside hd hinv (List.forall_mem_singleton.mpr
        fun e ds hds d hd => hslots d (hds d hd))) (List.forall_mem_singleton.mpr trivial)
    exact Triple.cons hproc (hend.conseq (fun _ h => ⟨h.1, h.2, fun hno => absurd hsg hno⟩)
      fun _ h => h) s hs
  · rename_i hnot
    have hsg : ¬ cfg.SgMode orFlags := fun h => hnot ⟨⟨h.1, h.2.1⟩, h.2.2⟩
    have hbooks : Within cfg (fl ++ [(batch, orFlags)]) (fun s => s.Quiet cfg ∧ Books cfg fl m n s)
        [.processBatch batch] (fun s => s.Quiet cfg ∧ Books cfg fl m n s) :=
      rest_of_books (books_aside hd hinv (List.forall_mem_singleton.mpr fun e => hslots))
        (List.forall_mem_singleton.mpr trivial)
    have hproc : Within cfg (fl ++ [(batch, orFlags)]) (fun s => s.Quiet cfg ∧ Books cfg fl m n s)
        [.processBatch batch] (fun s => s.Quiet cfg ∧ Books cfg fl m n s ∧
          (¬ cfg.SgMode orFlags → ∀ d ∈ batch, Served s d.slot)) :=
      ((hbooks.and (served_processBatch hne).only).weaken (fun _ h => h.1) fun _ _ _ => trivial).conseq
        (fun _ h => ⟨h, trivial⟩) fun _ h => ⟨h.1.1, h.1.2, fun _ => h.2⟩
    rw [if_pos hd.useCe, if_neg (by rw [hd.noSignalBuf]; simp)]
    split
    · have hpush : Within cfg (fl ++ [(batch, orFlags)])
          (fun s => s.Quiet cfg ∧ s.Quiet cfg ∧ Processed cfg fl (batch, orFlags) m n s)
          [.pushTileEvent batch n] (Rest cfg (fl ++ [(batch, orFlags)]) n) :=
        rest_of_books (books_push hmn hsg (fun d hd => (hslots d hd).2) hcount)
          (List.forall_mem_singleton.mpr trivial)
      exact Triple.cons hproc (Triple.cons hset (hpush.conseq (fun _ h => ⟨h.1, h⟩) fun _ h => h)) s hs
    · exact Triple.cons hproc hend s hs

/-! ## Publishing -/

/-- The copies are performed for the slots below each of the values. -/
def Ready (values : Nat → Prop) (s : Host) : Prop := ∀ v, values v → CopiesDone s v

theorem stable_ready (cfg : Config) (values : Nat → Prop) : cfg.machine.Stable (Ready values) :=
  stable_env cfg fun _ _ h hs v hv st i e ds hw hd =>
    Nat.lt_of_lt_of_le (hs v hv st i e ds (Completion.workAt_env h hw) hd) (h.done_le st)

theorem Ready.congr {values : Nat → Prop} (hs : Ready values s) (h : t.device = s.device) :
    Ready values t := by
  unfold Ready CopiesDone
  rw [h]
  exact hs

/-- When an event is complete, the copies for the slots below its value have been performed. -/
theorem Books.copiesDone (hs : Books cfg fl m n s) {slot : Nat}
    (h : s.device.complete (.tile slot) = true) :
    CopiesDone s (s.poller.pendingTileEvents slot).doneValue := fun st i e ds hw hd =>
  (hs.covered slot st i e ds hw hd).elim id fun hm => Device.done_of_marked hm h

/-- Only what the books speak of matters. -/
theorem Books.congr (hs : Books cfg fl m n s) (hdev : t.device = s.device)
    (hclean : t.poller.sgBucketMap = s.poller.sgBucketMap)
    (hring : t.poller.tileRing = s.poller.tileRing)
    (hprogress : t.poller.tileProgress = s.poller.tileProgress)
    (hlatest : t.poller.latestAsyncRead = s.poller.latestAsyncRead) (hdone : t.doneIdx = s.doneIdx)
    (hcounter : t.tileChunkDone = s.tileChunkDone) (hd : t.dTileChunkDone = s.dTileChunkDone) :
    Books cfg fl m n t :=
  hs.later (.of_device m hdev) (by rw [hdev]; exact hs.works) (hclean.trans hs.clean) hring hprogress
    (fun _ => by rw [hdev]) hlatest hdone hcounter hd

/-- A counter may be stored when the events that list its tile are complete. -/
theorem Books.storeTile (hs : Books cfg fl m n s) (dev : Bool) {tile : Nat}
    (h : s.poller.tileProgress tile ≤ completedCount fl s tile) :
    Books cfg fl m n (s.storeTile dev tile) := by
  have hword : word (s.poller.tileProgress tile) ≤ completedCount fl s tile :=
    Nat.le_trans (Nat.mod_le _ _) h
  have hstored : ∀ (cells : Nat → Nat), (∀ k, cells k ≤ completedCount fl s k) →
      ∀ k, Function.update cells tile (word (s.poller.tileProgress tile)) k ≤
        completedCount fl s k := by
    intro cells hcells k
    by_cases hk : k = tile
    · subst hk
      rw [Function.update_self]
      exact hword
    · rw [Function.update_of_ne hk]
      exact hcells k
  cases dev with
  | true => exact { hs with dCounter := hstored _ hs.dCounter }
  | false => exact { hs with counter := hstored _ hs.counter }

theorem Books.raiseDone (hs : Books cfg fl m n s) {v : Nat} (hv : v ≤ m) (hc : CopiesDone s v) :
    Books cfg fl m n { s with doneIdx := if s.doneIdx < word v then word v else s.doneIdx } :=
  { hs with
    done_le := by
      have h1 := hs.done_le
      have h2 : word v ≤ v := Nat.mod_le _ _
      dsimp only
      split <;> omega
    copies := fun st i e ds hw ⟨d, hd, hlt⟩ => by
      dsimp only at hlt
      split at hlt
      · exact hc st i e ds hw ⟨d, hd, Nat.lt_of_lt_of_le hlt (Nat.mod_le _ _)⟩
      · exact hs.copies st i e ds hw ⟨d, hd, hlt⟩ }

/-- The tiles of the event at the tail are stored, and its `done_value`. -/
theorem books_publish (cfg : Config) (values : Nat → Prop) (hcount : n ≤ Loop.flushedCount fl)
    (p : Poller) (hv : values (p.pendingTileEvents p.tileEventTail).doneValue) (dev : Bool) :
    Within cfg fl (fun s => (Books cfg fl n n s ∧ s.poller = p) ∧ Ready values s)
      ((p.pendingTileEvents p.tileEventTail).tileIds.map (.storeTile dev) ++
        [.raiseDone (p.pendingTileEvents p.tileEventTail).doneValue])
      (fun s => (Books cfg fl n n s ∧ s.poller = p) ∧ Ready values s) := by
  have hst : (cfg.machine.only (Keeps cfg)).Stable fun s =>
      (Books cfg fl n n s ∧ s.poller = p) ∧ Ready values s :=
    ((stable_books cfg fl n n).and (stable_poller cfg p)).and (stable_ready cfg values)
  refine Triple.append (Triple.map hst (fun s hs => hs.1.1.signals hcount) fun tile htile => ?_) ?_
  · refine Triple.atom hst (fun s hs => hs.1.1.signals hcount) (fun _ _ => trivial) hst
      (fun s hs => hs.1.1.signals hcount) fun s t k hs hp => ?_
    obtain ⟨hkeep, hp⟩ := perform_only hp
    cases hp
    obtain ⟨⟨hs, rfl⟩, hready⟩ := hs
    have hprogress : s.poller.tileProgress tile ≤ completedCount fl s tile :=
      hs.backed.progress_le hs.recorded hs.recorded.tail_lt htile fun slot hslot hlist d hd hlt =>
        completed_of_copiesDone (hs.copiesDone (hkeep slot hslot hlist)) hlt (hs.served d hd)
    obtain ⟨hdev, hpoller⟩ := s.storeTile_frame dev tile
    exact ⟨rfl, ⟨hs.storeTile dev hprogress, hpoller⟩, hready.congr hdev⟩
  · refine Triple.atom hst (fun s hs => hs.1.1.signals hcount) (fun _ _ => trivial) hst
      (fun s hs => hs.1.1.signals hcount) fun s t k hs hp => ?_
    obtain ⟨-, hp⟩ := perform_only hp
    cases hp
    obtain ⟨⟨hs, rfl⟩, hready⟩ := hs
    exact ⟨rfl, ⟨hs.raiseDone (hs.recorded.values _) (hready _ hv), rfl⟩, hready.congr rfl⟩

/-- `k` events are pending. -/
def Pending (cfg : Config) (fl : Flushed) (values : Nat → Prop) (n k : Nat) (s : Host) : Prop :=
  (Books cfg fl n n s ∧ s.poller.tileEventsInflight = k) ∧ Ready values s

theorem stable_pending (cfg : Config) (fl : Flushed) (values : Nat → Prop) (n k : Nat) :
    cfg.machine.Stable (Pending cfg fl values n k) :=
  ((stable_books cfg fl n n).and (stable_env cfg fun _ _ h hs => by rw [h.poller]; exact hs)).and
    (stable_ready cfg values)

theorem books_retire (cfg : Config) {values : Nat → Prop} (hcount : n ≤ Loop.flushedCount fl)
    {p : Poller} {k : Nat} (hinfl : p.tileEventsInflight = k + 1) :
    Within cfg fl (fun s => (Books cfg fl n n s ∧ s.poller = p) ∧ Ready values s) [.retireTileEvent]
      (Pending cfg fl values n k) := by
  refine Triple.atom (((stable_books cfg fl n n).and (stable_poller cfg p)).and
      (stable_ready cfg values)) (fun s hs => hs.1.1.signals hcount) (fun _ _ => trivial)
    (stable_pending cfg fl values n k) (fun s hs => hs.1.1.signals hcount) fun s t m hs hp => ?_
  obtain ⟨-, hp⟩ := perform_only hp
  cases hp
  obtain ⟨⟨hs, rfl⟩, hready⟩ := hs
  refine ⟨rfl, ⟨?_, (congrArg (· - 1) hinfl).trans (Nat.add_sub_cancel k 1)⟩, hready.congr rfl⟩
  exact { hs with
    recorded := { hs.recorded with tail_lt := Nat.mod_lt _ (by decide) } }

/-- `has_async_dma_ = tile_events_inflight_ > 0` -/
theorem books_asyncWhileInflight (cfg : Config) {values : Nat → Prop}
    (hcount : n ≤ Loop.flushedCount fl) (k : Nat) :
    Within cfg fl (Pending cfg fl values n k) [.asyncWhileInflight]
      (fun s => Books cfg fl n n s ∧ s.poller.tileEventsInflight = k) := by
  refine Triple.atom (stable_pending cfg fl values n k) (fun s hs => hs.1.1.signals hcount)
    (fun _ _ => trivial) ((stable_books cfg fl n n).and
      (stable_env cfg fun _ _ h hs => by rw [h.poller]; exact hs))
    (fun s hs => hs.1.signals hcount) fun s t m hs hp => ?_
  obtain ⟨-, hp⟩ := perform_only hp
  cases hp
  exact ⟨rfl, hs.1.1.congr rfl rfl rfl rfl rfl rfl rfl rfl, hs.1.2⟩

/-- **`poll_tile_events`**, by the number of events that are pending. -/
theorem books_pollTileEvents (cfg : Config) (hcount : n ≤ Loop.flushedCount fl) (k : Nat) :
    Within cfg fl (fun s => Books cfg fl n n s ∧ s.poller.tileEventsInflight = k) [.pollTileEvents]
      (Books cfg fl n n) := by
  have hnil : Within cfg fl (Books cfg fl n n) [] (Books cfg fl n n) :=
    Triple.nil (stable_books cfg fl n n) fun _ hs => hs.signals hcount
  induction k with
  | zero =>
    refine Triple.expand ((stable_books cfg fl n n).and
        (stable_env cfg fun _ _ h hs => by rw [h.poller]; exact hs)) (fun s hs => hs.1.signals hcount)
      (fun _ _ => trivial) (fun s => perform_only_of (A := Keeps cfg) trivial) fun s hs => ?_
    unfold Config.pollTileEvents
    dsimp only
    rw [if_neg (by rw [hs.2]; exact fun h => Nat.lt_irrefl 0 h.1)]
    exact hnil s hs.1
  | succ k ih =>
    refine Triple.expand ((stable_books cfg fl n n).and
        (stable_env cfg fun _ _ h hs => by rw [h.poller]; exact hs)) (fun s hs => hs.1.signals hcount)
      (fun _ _ => trivial) (fun s => perform_only_of (A := Keeps cfg) trivial) fun s hs => ?_
    unfold Config.pollTileEvents
    dsimp only
    split
    · rename_i hcomplete
      -- the event at the tail is complete, so what it stands for may be published
      have hpub := books_publish cfg
        (· = (s.poller.pendingTileEvents s.poller.tileEventTail).doneValue) hcount s.poller rfl
        cfg.dTileChunkDone
      have hall := hpub.append (Triple.cons (books_retire cfg hcount hs.2)
        (Triple.cons (books_asyncWhileInflight cfg hcount k) ih))
      rw [List.append_assoc] at hall
      exact hall s ⟨⟨hs.1, rfl⟩, fun v hv => hv ▸ hs.1.copiesDone hcomplete.2⟩
    · exact hnil s hs.1

/-- The loop over the pending events at the end of the thread, when every copy has been performed. -/
theorem books_drainTileEvents (cfg : Config) (hcount : n ≤ Loop.flushedCount fl) (k : Nat) :
    Within cfg fl (Pending cfg fl (fun _ => True) n k) [.drainTileEvents] (Books cfg fl n n) := by
  induction k with
  | zero =>
    refine Triple.expand (stable_pending cfg fl _ n 0) (fun s hs => hs.1.1.signals hcount)
      (fun _ _ => trivial) (fun s => perform_only_of (A := Keeps cfg) trivial) fun s hs => ?_
    have hnil : Within cfg fl (Books cfg fl n n) [] (Books cfg fl n n) :=
      Triple.nil (stable_books cfg fl n n) fun _ hs => hs.signals hcount
    unfold Config.drainTileEvents
    dsimp only
    rw [if_neg (by rw [hs.1.2]; exact Nat.lt_irrefl 0)]
    exact hnil s hs.1.1
  | succ k ih =>
    refine Triple.expand (stable_pending cfg fl _ n (k + 1)) (fun s hs => hs.1.1.signals hcount)
      (fun _ _ => trivial) (fun s => perform_only_of (A := Keeps cfg) trivial) fun s hs => ?_
    unfold Config.drainTileEvents
    dsimp only
    rw [if_pos (by rw [hs.1.2]; exact Nat.zero_lt_succ k)]
    have hpub := books_publish cfg (fun _ => True) hcount s.poller trivial false
    have hall := hpub.append (Triple.cons (books_retire cfg hcount hs.1.2) ih)
    rw [List.append_assoc] at hall
    exact hall s ⟨⟨hs.1.1, rfl⟩, hs.2⟩

/-! ## Waiting -/

/-- Behind `wait_completion` every copy has been performed. -/
theorem rest_waitCompletion (hd : cfg.Deferred) (hcount : n ≤ Loop.flushedCount fl) (k : Nat) :
    Within cfg fl (fun s => s.Quiet cfg ∧ Books cfg fl n n s ∧ s.poller.tileEventsInflight = k)
      [.waitCompletion] (fun s => s.Quiet cfg ∧ Pending cfg fl (fun _ => True) n k s) := by
  have hl : ∀ c ∈ [Call.waitCompletion], c.Aside (BatchCopy n n) :=
    List.forall_mem_singleton.mpr trivial
  have hbooks : Within cfg fl (fun s => Books cfg fl n n s ∧ s.poller.tileEventsInflight = k)
      [.waitCompletion] (fun s => Books cfg fl n n s ∧ s.poller.tileEventsInflight = k) :=
    (aside_triple hd.noSignalBuf ((stable_books cfg fl n n).and
        (stable_env cfg fun _ _ h hs => by rw [h.poller]; exact hs))
      (fun _ hs => hs.1.signals hcount) (fun _ _ _ _ => trivial) (fun _ hs => hs.1.clean)
      (fun _ _ ha hs => ⟨hs.1.aside ha, (Poller.inflight_congr ha.tileRing).trans hs.2⟩) hl).only
  have hwait := (covered_waitCompletion cfg).only (A := Keeps cfg)
  refine ((hwait.and hbooks).weaken (fun _ h => h.2) fun _ _ h => h.2).conseq (fun _ h => h) ?_
  refine fun s hs => ⟨hs.1.1, hs.2, fun v _ st i e ds hw _ => ?_⟩
  obtain ⟨ch, rfl⟩ := (hs.2.1.works st i _ hw).1
  exact hs.1.2 ch i hw.lt

/-- A step of the thread that the books do not speak of. -/
theorem rest_set {c : Call} (hc : c.Outer) (hcount : n ≤ Loop.flushedCount fl)
    (hdo : ∀ s t k, Books cfg fl n n s → cfg.perform s c = some (t, k) → k = [] ∧ Books cfg fl n n t) :
    Within cfg fl (Rest cfg fl n) [c] (Rest cfg fl n) :=
  rest_of_books (Triple.atom (stable_books cfg fl n n) (fun _ hs => hs.signals hcount)
    (fun _ _ => trivial) (stable_books cfg fl n n) (fun _ hs => hs.signals hcount)
    fun s t k hs hp => hdo s t k hs (perform_only hp).2) (List.forall_mem_singleton.mpr hc)

theorem rest_clearInflight (hcount : n ≤ Loop.flushedCount fl) :
    Within cfg fl (Rest cfg fl n) [.clearInflight] (Rest cfg fl n) :=
  rest_set trivial hcount fun s t k hs hp => by
    cases hp
    exact ⟨rfl, hs.congr rfl rfl rfl rfl rfl rfl rfl rfl⟩

theorem rest_clearAsync (hcount : n ≤ Loop.flushedCount fl) :
    Within cfg fl (Rest cfg fl n) [.clearAsync] (Rest cfg fl n) :=
  rest_set trivial hcount fun s t k hs hp => by
    cases hp
    exact ⟨rfl, hs.congr rfl rfl rfl rfl rfl rfl rfl rfl⟩

/-- Behind a wait any `done_idx` that has been flushed may be published. -/
theorem rest_publishDone (hcount : n ≤ Loop.flushedCount fl) (k : Nat) :
    Within cfg fl (fun s => s.Quiet cfg ∧ Pending cfg fl (fun _ => True) n k s) [.publishDone]
      (Rest cfg fl n) := by
  refine rest_of_books ?_ (List.forall_mem_singleton.mpr trivial)
  refine Triple.atom (stable_pending cfg fl _ n k) (fun s hs => hs.1.1.signals hcount)
    (fun _ _ => trivial) (stable_books cfg fl n n) (fun s hs => hs.signals hcount)
    fun s t k hs hp => ?_
  obtain ⟨-, hp⟩ := perform_only hp
  cases hp
  obtain ⟨⟨hs, -⟩, hready⟩ := hs
  refine ⟨rfl, ?_⟩
  exact { hs with
    done_le := Nat.le_trans (Nat.mod_le _ _) hs.latest_le
    copies := hready _ trivial }

theorem rest_nil (hcount : n ≤ Loop.flushedCount fl) :
    Within cfg fl (Rest cfg fl n) [] (Rest cfg fl n) :=
  Triple.nil (stable_rest cfg fl n) fun _ hs => hs.2.signals hcount

/-- If staging copies are in flight, wait for them. -/
theorem rest_settleStaging (hd : cfg.Deferred) (hcount : n ≤ Loop.flushedCount fl) :
    Within cfg fl (Rest cfg fl n) [.settleStaging] (Rest cfg fl n) := by
  refine Triple.expand (stable_rest cfg fl n) (fun s hs => hs.2.signals hcount) (fun _ _ => trivial)
    (fun s => perform_only_of (A := Keeps cfg) trivial) fun s hs => ?_
  unfold Config.settleStaging
  split
  · exact Triple.cons ((rest_waitCompletion hd hcount s.poller.tileEventsInflight).conseq
      (fun _ h => h) fun _ h => ⟨h.1, h.2.1.1⟩) (rest_clearInflight hcount) s ⟨hs.1, hs.2, rfl⟩
  · exact rest_nil hcount s hs

/-- If copies are outstanding, wait for them and publish. -/
theorem rest_settleAsync (hd : cfg.Deferred) (hcount : n ≤ Loop.flushedCount fl) :
    Within cfg fl (Rest cfg fl n) [.settleAsync] (Rest cfg fl n) := by
  refine Triple.expand (stable_rest cfg fl n) (fun s hs => hs.2.signals hcount) (fun _ _ => trivial)
    (fun s => perform_only_of (A := Keeps cfg) trivial) fun s hs => ?_
  unfold Config.settleAsync
  split
  · exact Triple.cons (rest_waitCompletion hd hcount s.poller.tileEventsInflight)
      (Triple.cons (rest_publishDone hcount _) (rest_clearAsync hcount)) s ⟨hs.1, hs.2, rfl⟩
  · exact rest_nil hcount s hs

/-- An idle iteration. -/
theorem rest_idle (hd : cfg.Deferred) (hcount : n ≤ Loop.flushedCount fl) :
    Within cfg fl (Rest cfg fl n) [.idle] (Rest cfg fl n) := by
  refine Triple.expand (stable_rest cfg fl n) (fun s hs => hs.2.signals hcount) (fun _ _ => trivial)
    (fun s => perform_only_of (A := Keeps cfg) trivial) fun s hs => ?_
  unfold Config.idle
  split
  · have hpoll : Within cfg fl
        (fun t => t.Quiet cfg ∧ Books cfg fl n n t ∧
          t.poller.tileEventsInflight = s.poller.tileEventsInflight)
        [.pollTileEvents] (Rest cfg fl n) :=
      rest_of_books (books_pollTileEvents cfg hcount _) (List.forall_mem_singleton.mpr trivial)
    exact hpoll s ⟨hs.1, hs.2, rfl⟩
  · split
    · exact Triple.cons (rest_settleStaging hd hcount) (rest_settleAsync hd hcount) s hs
    · exact rest_nil hcount s hs

/-- The end of the thread. -/
theorem rest_finish (hd : cfg.Deferred) (hcount : n ≤ Loop.flushedCount fl) :
    Within cfg fl (Rest cfg fl n) [.finish] (Rest cfg fl n) := by
  refine Triple.expand (stable_rest cfg fl n) (fun s hs => hs.2.signals hcount) (fun _ _ => trivial)
    (fun s => perform_only_of (A := Keeps cfg) trivial) fun s hs => ?_
  have hsettle := Triple.cons (rest_settleStaging hd hcount) (rest_settleAsync hd hcount)
  unfold Config.finish
  split
  · have hdrain : Within cfg fl
        (fun t => t.Quiet cfg ∧ Pending cfg fl (fun _ => True) n s.poller.tileEventsInflight t)
        [.drainTileEvents] (Rest cfg fl n) :=
      rest_of_books (books_drainTileEvents cfg hcount _) (List.forall_mem_singleton.mpr trivial)
    exact Triple.cons (rest_waitCompletion hd hcount _) (Triple.cons hdrain
      (Triple.cons (rest_clearAsync hcount) hsettle)) s ⟨hs.1, hs.2, rfl⟩
  · exact hsettle s hs

/-! ## Every run -/

theorem duty (hd : cfg.Deferred) : DutyOn cfg (cfg.machine.only (Keeps cfg)) (fun s => s.Base)
    (fun _ fl => promise cfg fl) fun fl => Rest cfg fl (Loop.flushedCount fl) where
  stable fl := stable_rest cfg fl _
  inv _ _ _ hr := hr.2.signals (Nat.le_refl _)
  flush t fl h hbase hpc hne hfl hr := by
    obtain ⟨hread, hslots⟩ := hbase.batch_slots hpc hfl
    have hcount : Loop.flushedCount t.flushed = t.readIdx := by
      rw [hfl, hread]
      simp [Loop.flushedCount]
    rw [hcount]
    rw [hfl] at hcount ⊢
    exact (rest_flush hd hne (by omega) hslots (Nat.le_of_eq hcount.symm)).outlined hr
  idle _ _ hr := (rest_idle hd (Nat.le_refl _)).outlined hr
  finish _ _ hr := (rest_finish hd (Nat.le_refl _)).outlined hr

/-- **Nothing is signalled early** in a run that keeps to `Keeps`. -/
theorem signals_of_reachable (hd : cfg.Deferred) {user : Nat → UInt8} {staging : Nat → Nat → UInt8}
    {gpu : Nat → UInt8} {s : Loop cfg.backend}
    (hs : Reachable Loop.openStep (cfg.Allowed (Keeps cfg)) (· = cfg.start (.init user staging gpu)) s) :
    Signals cfg s.flushed s.backend.data :=
  ((duty hd).attended_allowed
    ⟨Host.covered_init cfg user staging gpu, books_init cfg user staging gpu⟩
    (fun _ h => Loop.base_of_reachable h) (fun _ _ hc => hc) hs).2.inv

section Example

open Deferred (memory commit poll loads perform copied)

private def twoChannels : Config := Deferred.config 2 Nat.two_pos two_le_maxCeChannels

private structure Summary where
  flushed : List (List Descriptor × Nat)
  counter : Nat
  doneIdx : Nat
  first : UInt8
  copy : Option Copy
  performed : Nat
  deriving DecidableEq

private def summary {cfg : Config} (s : Loop cfg.backend) : Summary :=
  ⟨s.flushed, s.backend.data.dTileChunkDone 0, s.backend.data.doneIdx, s.backend.data.gpu 8192,
    (s.backend.data.device.log (.ce 0))[0]?.bind Item.work?, s.backend.data.device.done (.ce 0)⟩

/-- Two descriptors of tile 0, as they are popped. -/
private def popped : List Descriptor := [⟨4096, 8192, 16, 0, 0, 0⟩, ⟨20480, 32768, 16, 4, 0, 1⟩]

/-- The copies of a batch are on two channels, and the first is made before the event is recorded
behind the second. Both are counted once the event is complete. -/
theorem signals_of_reachable_two : ∃ s,
    Reachable Loop.openStep (twoChannels.Allowed (Keeps twoChannels)) (· = twoChannels.start memory) s ∧
      s.flushed = [(popped, 4)] ∧ s.backend.data.dTileChunkDone 0 = 2 ∧ s.backend.data.doneIdx = 2 ∧
      s.backend.data.gpu 8192 = 1 ∧ Signals twoChannels s.flushed s.backend.data := by
  have h : (runWhile Loop.openStep (twoChannels.Allowed (Keeps twoChannels)) (twoChannels.start memory)
      (commit 0 4096 8192 flagNone ++ commit 1 20480 32768 flagLastInTile ++
        poll 2 ++ loads ++ poll 4 ++ poll 1 ++ loads ++ poll 4 ++ perform twoChannels 9 ++
        copied twoChannels 0 ++ perform twoChannels 1 ++ copied twoChannels 1 ++ poll 3 ++
        perform twoChannels 7)).map summary =
      some ⟨[(popped, 4)], 2, 2, 1, some (.data ⟨8192, .user 4096, 16⟩ popped), 1⟩ := by
    decide +kernel
  obtain ⟨s, hs, hout⟩ := Option.map_eq_some_iff.mp h
  simp only [summary, Summary.mk.injEq] at hout
  obtain ⟨hflushed, hcounter, hdone, hfirst, -, -⟩ := hout
  have hreach := (Reachable.self (twoChannels.start memory)).runWhile hs
  exact ⟨s, hreach, hflushed, hcounter, hdone, hfirst,
    signals_of_reachable ⟨rfl, rfl, rfl⟩ hreach⟩

/-- The copies of a batch are on two channels and its event is on one. -/
theorem exists_early : ∃ s,
    Reachable Loop.openStep Always (· = twoChannels.start memory) s ∧
      s.backend.data.dTileChunkDone 0 = 2 ∧ s.backend.data.doneIdx = 2 ∧
      s.backend.data.gpu 8192 = 0 ∧ completedCount s.flushed s.backend.data 0 = 0 ∧
      ¬ Signals twoChannels s.flushed s.backend.data := by
  have h : (run Loop.openStep (twoChannels.start memory)
      (commit 0 4096 8192 flagNone ++ commit 1 20480 32768 flagLastInTile ++
        poll 2 ++ loads ++ poll 4 ++ poll 1 ++ loads ++ poll 4 ++ perform twoChannels 10 ++
        copied twoChannels 1 ++ poll 3 ++ perform twoChannels 7)).map summary =
      some ⟨[(popped, 4)], 2, 2, 0, some (.data ⟨8192, .user 4096, 16⟩ popped), 0⟩ := by
    decide +kernel
  obtain ⟨s, hs, hout⟩ := Option.map_eq_some_iff.mp h
  simp only [summary, Summary.mk.injEq] at hout
  obtain ⟨hflushed, hcounter, hdone, hfirst, hlog, hperformed⟩ := hout
  have hwork := Device.workAt_of_bind hlog
  have hnone : completedCount s.flushed s.backend.data 0 = 0 := by
    classical
    refine List.countP_eq_zero.mpr fun d hd hdone => ?_
    have hmem : d ∈ popped := by
      rw [hflushed] at hd
      simpa using hd
    have hlt := (of_decide_eq_true hdone).2.2 _ _ _ _ hwork ⟨d, hmem, rfl⟩
    rw [hperformed] at hlt
    exact Nat.not_lt_zero _ hlt
  refine ⟨s, (Reachable.self (twoChannels.start memory)).run_always hs, hcounter, hdone, hfirst, hnone,
    fun hsig => ?_⟩
  have hle := hsig.dCounter 0
  rw [hcounter, hnone] at hle
  exact Nat.not_succ_le_zero _ hle

end Example

end DeferredSignals
end Gfd
