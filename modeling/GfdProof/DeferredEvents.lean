import GfdProof.BatchGroups
import GfdProof.QueueRuns

/-! # Deferred tile events

With the copy engine on, a tiled queue and no `tile_signal_buf_`, a batch with tile
markers is completed later: `flush_batch` records an event behind its copies and fills the
pending tile event at the head of a ring of 32; `poll_tile_events`, called when the queue
is empty, retires the events at the tail whose copies are done and publishes their
`done_value`.  A batch without markers leaves no event; it is completed through
`has_async_dma_` and `latest_async_read_`, by the branch taken when no event is pending.

The two share `has_async_dma_`.  Retiring the last event clears it, whether or not a batch
without markers was flushed behind that event, and then nobody publishes that batch.  And
the ring is filled without a look at how full it is.  Where neither happens (`Keeps`), the
ring is a queue, and whenever nothing is outstanding `done_idx` has caught up.
-/
namespace Gfd

open Transition WorkStreams Script.Machine

/-- Copy engine on, a tiled queue, no `tile_signal_buf_`. -/
structure Config.Deferred (cfg : Config) : Prop where
  useCe : cfg.useCe = true
  tiledQueue : cfg.tiledQueue = true
  noSignalBuf : cfg.tileSignalBuf = false

/-! ## The ring of pending events -/

namespace Poller

/-- The slot of the `k`-th pending event from the tail. -/
def tileSlot (p : Poller) (k : Nat) : Nat := (p.tileEventTail + k) % maxPendingTileEvents

/-- The pending events, from the tail to the head. -/
def pendingEvents (p : Poller) : List PendingTileEvent :=
  (List.range p.tileEventsInflight).map fun k => p.pendingTileEvents (p.tileSlot k)

/-- Everything `flush_batch` and `poll_tile_events` keep about the ring. -/
def tileRing (p : Poller) : (Nat → PendingTileEvent) × Nat × Nat × Nat :=
  (p.pendingTileEvents, p.tileEventHead, p.tileEventTail, p.tileEventsInflight)

/-- The head is where the next event goes, and no slot is used twice. -/
structure TileRing (p : Poller) : Prop where
  tail_lt : p.tileEventTail < maxPendingTileEvents
  head_eq : p.tileEventHead = p.tileSlot p.tileEventsInflight
  inflight_le : p.tileEventsInflight ≤ maxPendingTileEvents

/-- The tile ids of a batch's event. -/
def tileIds (p : Poller) (batch : List Descriptor) : List Nat :=
  (Host.pushTiles p.tileProgress (fun t => (batch.filter fun d => d.group == t).length) [] batch).2

variable {p q : Poller}

theorem tileSlot_inj (p : Poller) {j k : Nat} (hj : j < maxPendingTileEvents)
    (hk : k < maxPendingTileEvents) (h : p.tileSlot j = p.tileSlot k) : j = k := by
  unfold tileSlot maxPendingTileEvents at *
  omega

/-- Only the ring matters. -/
theorem pendingEvents_congr (h : q.tileRing = p.tileRing) : q.pendingEvents = p.pendingEvents := by
  simp only [tileRing, Prod.mk.injEq] at h
  obtain ⟨he, -, ht, hi⟩ := h
  simp only [pendingEvents, tileSlot, he, ht, hi]

theorem TileRing.congr (hp : p.TileRing) (h : q.tileRing = p.tileRing) : q.TileRing := by
  simp only [tileRing, Prod.mk.injEq] at h
  obtain ⟨-, hh, ht, hi⟩ := h
  refine ⟨ht ▸ hp.tail_lt, ?_, hi ▸ hp.inflight_le⟩
  rw [hh, hi, hp.head_eq]
  simp only [tileSlot, ht]

theorem inflight_congr (h : q.tileRing = p.tileRing) : q.tileEventsInflight = p.tileEventsInflight := by
  simp only [tileRing, Prod.mk.injEq] at h
  exact h.2.2.2

/-- Filling the slot at the head appends an event, where there is room. -/
theorem TileRing.push (hp : p.TileRing) (h : p.tileEventsInflight < maxPendingTileEvents)
    (batch : List Descriptor) (v : Nat) :
    (Host.pushTileEvent p batch v).TileRing ∧
      (Host.pushTileEvent p batch v).pendingEvents = p.pendingEvents ++ [⟨v, p.tileIds batch⟩] := by
  constructor
  · refine ⟨hp.tail_lt, ?_, h⟩
    simp only [Host.pushTileEvent, tileSlot, hp.head_eq]
    unfold maxPendingTileEvents
    omega
  · simp only [pendingEvents, Host.pushTileEvent]
    rw [List.range_succ, List.map_append, List.map_singleton]
    congr 1
    · refine List.map_congr_left fun k hk => ?_
      have hk := List.mem_range.mp hk
      have hne : p.tileSlot k ≠ p.tileEventHead := fun he => by
        rw [hp.head_eq] at he
        have := p.tileSlot_inj (Nat.lt_trans hk h) h he
        omega
      exact Function.update_of_ne hne ..
    · rw [List.singleton_inj]
      have he : p.tileSlot p.tileEventsInflight = p.tileEventHead := hp.head_eq.symm
      exact (congrArg _ he).trans (Function.update_self ..)

/-- What retiring leaves. -/
def retired (p : Poller) : Poller :=
  { p with
    tileEventTail := (p.tileEventTail + 1) % maxPendingTileEvents
    tileEventsInflight := p.tileEventsInflight - 1 }

theorem retired_tileSlot (p : Poller) (k : Nat) : p.retired.tileSlot k = p.tileSlot (k + 1) := by
  simp only [retired, tileSlot]
  unfold maxPendingTileEvents
  omega

/-- Retiring takes the event at the tail away. -/
theorem TileRing.retire (hp : p.TileRing) (h : 0 < p.tileEventsInflight) :
    p.retired.TileRing ∧
      p.pendingEvents = p.pendingTileEvents p.tileEventTail :: p.retired.pendingEvents := by
  obtain ⟨n, hn⟩ : ∃ n, p.tileEventsInflight = n + 1 := ⟨_, (Nat.sub_add_cancel h).symm⟩
  have hinfl : p.retired.tileEventsInflight = n := by simp only [retired, hn, Nat.add_sub_cancel]
  constructor
  · refine ⟨Nat.mod_lt _ (by decide), ?_, ?_⟩
    · rw [retired_tileSlot, hinfl, ← hn]
      exact hp.head_eq
    · have := hp.inflight_le
      omega
  · have h0 : p.tileSlot 0 = p.tileEventTail := Nat.mod_eq_of_lt hp.tail_lt
    simp only [pendingEvents, hinfl, retired_tileSlot]
    rw [hn, List.range_succ_eq_map, List.map_cons, List.map_map, h0]
    rfl

end Poller

/-! ## What the other calls leave alone -/

/-- Only two calls change the ring. -/
theorem tileRing_perform {cfg : Config} {s t : Host} {c : Call} {m : List Call}
    (hp : cfg.perform s c = some (t, m)) (hpush : ∀ batch v, c ≠ .pushTileEvent batch v)
    (hretire : c ≠ .retireTileEvent) : t.poller.tileRing = s.poller.tileRing := by
  cases c with
  | pushTileEvent batch v => exact absurd rfl (hpush batch v)
  | retireTileEvent => exact absurd rfl hretire
  | eventSynchronize e =>
    simp only [Config.perform] at hp
    split at hp
    · cases hp; rfl
    · cases hp
  | gatherWait =>
    simp only [Config.perform] at hp
    split at hp
    · split at hp
      · cases hp; rfl
      · cases hp
    · cases hp
  | tileStep d =>
    cases hp
    unfold Host.tileStep
    dsimp only
    split
    · split
      · rw [(Host.storeTile_frame _ _ _).2]; rfl
      · rfl
    · rfl
  | storeTile dev t => cases hp; rw [(s.storeTile_frame dev t).2]
  | _ => cases hp; rfl

/-- The calls that process a batch in this mode: they move data, and those of an SG batch count
lists as well. -/
def Call.Aside (φ : Copy → Prop) : Call → Prop
  | .processBatchSg batch => ∀ e ds, (∀ d ∈ ds, d ∈ batch) → φ (.data e ds)
  | .storeListDone _ | .addListsCompleted _ => True
  | c => c.Moves φ

/-- The difference one such call can make. -/
structure Host.Aside (φ : Copy → Prop) (s t : Host) : Prop where
  doneIdx : t.doneIdx = s.doneIdx
  tileChunkDone : t.tileChunkDone = s.tileChunkDone
  dTileChunkDone : t.dTileChunkDone = s.dTileChunkDone
  hasAsyncDma : t.poller.hasAsyncDma = s.poller.hasAsyncDma
  latestAsyncRead : t.poller.latestAsyncRead = s.poller.latestAsyncRead
  tileProgress : t.poller.tileProgress = s.poller.tileProgress
  tileRing : t.poller.tileRing = s.poller.tileRing
  sgBucketMap : (s.poller.sgBucketMap = fun _ => none) → t.poller.sgBucketMap = fun _ => none
  tileMark : ∀ slot, t.device.mark (.tile slot) = s.device.mark (.tile slot)
  done : t.device.done = s.device.done
  grows : s.device.Grows t.device
  work : ∀ st i c, t.device.WorkAt st i c →
    s.device.WorkAt st i c ∨ (∃ ch, st = .ce ch) ∧ φ c

variable {cfg : Config} {φ : Copy → Prop} {s t : Host}

/-- The calls that record no event of the ring. -/
def Call.MarksNoTile : Call → Prop
  | .eventRecord e _ | .recordEventOnLastStream e => ∀ slot, e ≠ .tile slot
  | .pushTileEvent _ _ => False
  | _ => True

theorem marksNoTile_of_moves {c : Call} (hc : c.Moves φ) : c.MarksNoTile := by
  cases c with
  | eventRecord | recordEventOnLastStream => exact hc
  | pushTileEvent => exact hc.elim
  | _ => trivial

theorem tileMark_perform {c : Call} {m : List Call} (hc : c.MarksNoTile)
    (hp : cfg.perform s c = some (t, m)) (slot : Nat) :
    t.device.mark (.tile slot) = s.device.mark (.tile slot) := by
  cases c with
  | pushTileEvent => exact hc.elim
  | eventRecord e st => cases hp; exact Device.record_mark_of_ne s.device (Ne.symm (hc slot)) st
  | recordEventOnLastStream e =>
    cases hp
    exact Device.record_mark_of_ne s.device (Ne.symm (hc slot)) _
  | streamWaitEvent st e =>
    cases hp
    exact congrFun (s.device.waitEvent_mark st e) _
  | eventSynchronize e =>
    simp only [Config.perform] at hp
    split at hp
    · cases hp; rfl
    · cases hp
  | gatherWait =>
    simp only [Config.perform] at hp
    split at hp
    · split at hp
      · cases hp; rfl
      · cases hp
    · cases hp
  | tileStep d =>
    cases hp
    unfold Host.tileStep
    dsimp only
    split
    · split
      · rw [(Host.storeTile_frame _ _ _).1]
      · rfl
    · rfl
  | storeTile dev t => cases hp; rw [(s.storeTile_frame dev t).1]
  | _ => cases hp; rfl

theorem Host.Moved.aside {c : Call} {m : List Call} (hc : c.Moves φ)
    (hp : cfg.perform s c = some (t, m)) (h : s.Moved φ t) : s.Aside φ t where
  doneIdx := h.doneIdx
  tileChunkDone := h.tileChunkDone
  dTileChunkDone := h.dTileChunkDone
  hasAsyncDma := h.hasAsyncDma
  latestAsyncRead := h.latestAsyncRead
  tileProgress := h.tileProgress
  tileRing := tileRing_perform hp (by rintro b v rfl; exact hc) (by rintro rfl; exact hc)
  sgBucketMap hm := h.sgBucketMap.trans hm
  tileMark := tileMark_perform (marksNoTile_of_moves hc) hp
  done := h.done
  grows := h.grows
  work := h.work

/-- A submission for a group serves descriptors of the group only. -/
theorem mem_of_groupEntries {ds : List Descriptor} {e : SGEntry × List Descriptor}
    (h : e ∈ groupEntries ds) {d : Descriptor} (hd : d ∈ e.2) : d ∈ ds := by
  unfold groupEntries at h
  split at h
  · rw [List.mem_singleton.mp h] at hd
    exact hd
  · split at h
    · rw [List.mem_singleton.mp h] at hd
      exact hd
    · obtain ⟨d', hd', rfl⟩ := List.mem_map.mp h
      rw [List.mem_singleton.mp hd]
      exact hd'

theorem aside_processBatchSg (hbuf : cfg.tileSignalBuf = false) {batch : List Descriptor}
    (hφ : ∀ e ds, (∀ d ∈ ds, d ∈ batch) → φ (.data e ds)) {groups : List (Nat × List Descriptor)}
    (hg : Grouped maxSgLists batch groups) : ∀ c ∈ cfg.processBatchSg groups, c.Aside φ := by
  have hsub : ∀ g ∈ groups, ∀ c ∈ (groupEntries g.2).map fun e => Copy.data e.1 e.2, φ c := by
    intro g hgm c hc
    obtain ⟨e, he, rfl⟩ := List.mem_map.mp hc
    refine hφ e.1 e.2 fun d hd => ?_
    have hd' := mem_of_groupEntries he hd
    rw [(hg.group g hgm).2] at hd'
    exact (List.mem_filter.mp hd').1
  unfold Config.processBatchSg
  refine List.forall_mem_append.mpr ⟨List.forall_mem_map.mpr hsub, ?_⟩
  split
  · refine List.forall_mem_append.mpr ⟨List.forall_mem_cons.mpr ⟨rfl, ?_⟩,
      List.forall_mem_singleton.mpr trivial⟩
    intro c hc
    obtain ⟨g, -, hc⟩ := List.mem_flatMap.mp hc
    rw [hbuf] at hc
    cases hc
  · split
    · refine List.forall_mem_append.mpr ⟨List.forall_mem_cons.mpr ⟨trivial, ?_⟩,
        List.forall_mem_singleton.mpr trivial⟩
      split
      · exact List.forall_mem_map.mpr fun _ _ => trivial
      · exact List.forall_mem_nil _
    · exact List.forall_mem_nil _

/-- What a processing call does, and that it expands into processing calls. -/
theorem aside_perform (hbuf : cfg.tileSignalBuf = false)
    (hmap : s.poller.sgBucketMap = fun _ => none) {c : Call} {m : List Call} (hc : c.Aside φ)
    (hp : cfg.perform s c = some (t, m)) : s.Aside φ t ∧ ∀ c' ∈ m, c'.Aside φ := by
  have moved : c.Moves φ → (∀ c' : Call, c'.Moves φ → c'.Aside φ) →
      s.Aside φ t ∧ ∀ c' ∈ m, c'.Aside φ := fun hc hsub => by
    obtain ⟨hm, hcalls⟩ := moved_perform cfg hc hp
    exact ⟨hm.aside hc hp, fun c' hc' => hsub c' (hcalls c' hc')⟩
  have hsub : ∀ c' : Call, c'.Moves φ → c'.Aside φ := by
    intro c' hc'
    cases c' with
    | processBatchSg | storeListDone | addListsCompleted => exact hc'.elim
    | _ => exact hc'
  cases c with
  | processBatchSg batch =>
    cases hp
    rw [hmap]
    obtain ⟨hg, hnone⟩ := groupBatch_spec maxSgLists batch
    refine ⟨?_, aside_processBatchSg hbuf hc hg⟩
    exact ⟨rfl, rfl, rfl, rfl, rfl, rfl, rfl, fun _ => hnone, fun _ => rfl, rfl,
      Device.Grows.refl _, fun _ _ _ h => .inl h⟩
  | storeListDone | addListsCompleted =>
    cases hp
    exact ⟨⟨rfl, rfl, rfl, rfl, rfl, rfl, rfl, id, fun _ => rfl, rfl, Device.Grows.refl _,
      fun _ _ _ h => .inl h⟩, List.forall_mem_nil _⟩
  | _ => exact moved hc hsub

/-- **The frame of processing a batch.** -/
theorem aside_triple (hbuf : cfg.tileSignalBuf = false) {S : Spec Host Call} {P : Host → Prop}
    (hP : cfg.machine.Stable P) (hinv : ∀ s, P s → S.inv s)
    (hpre : ∀ c s, c.Aside φ → P s → S.pre c s)
    (hmap : ∀ s, P s → s.poller.sgBucketMap = fun _ => none)
    (hmove : ∀ s t, s.Aside φ t → P s → P t) {l : List Call} (hl : ∀ c ∈ l, c.Aside φ) :
    cfg.machine.Triple S P l P := by
  refine Triple.closed hP hinv (fun c hc => .inr fun s hs => ⟨hpre c s hc hs, fun t m hp => ?_⟩) hl
  obtain ⟨ha, hm⟩ := aside_perform hbuf (hmap s hs) hc hp
  exact ⟨hmove s t ha hs, hm⟩

/-! ## Concrete runs -/

namespace Deferred

/-- A tiled queue without `tile_signal_buf_`. -/
def config (channels : Nat) (hpos : 0 < channels) (hle : channels ≤ maxCeChannels) : Config where
  std := .insertion
  channels := channels
  staging := ⟨0, 0⟩
  workers := 0
  useCe := true
  tiledQueue := true
  dTileChunkDone := true
  tileSignalBuf := false
  sgQueue := false
  dListDone := false
  signalStream := false
  channels_pos := hpos
  channels_le := hle
  bufs_le := Nat.zero_le _

/-- The user's memory is all ones. -/
def memory : Host := .init (fun _ => 1) (fun _ _ => 0) fun _ => 0

variable {B : Backend}

/-- A descriptor of 16 bytes of tile 0 is stored and committed in slot `k`. -/
def commit (k src dst flags : Nat) : List (Loop.OpenAct B) :=
  [.storeField k .srcAddr src, .storeField k .dstAddr dst, .storeField k .size 16,
    .storeField k .flags flags, .storeSequence k (k + 1)]

def poll (n : Nat) : List (Loop.OpenAct B) := (List.replicate n Loop.Act.poll).map .loop

/-- The thread copies the fields of an entry. -/
def loads : List (Loop.OpenAct B) :=
  [Loop.Act.load .srcAddr, .load .dstAddr, .load .size, .load .userData, .load .flags].map .loop

/-- The thread makes its next `n` calls. -/
def perform (cfg : Config) (n : Nat) : List (Loop.OpenAct cfg.backend) :=
  (List.replicate n (Loop.Act.backend (show cfg.backend.Act from .perform))).map .loop

/-- A channel performs its next copy. -/
def copied (cfg : Config) (ch : Nat) : List (Loop.OpenAct cfg.backend) :=
  [.loop (.backend (show cfg.backend.Act from .env (.advance (.ce ch))))]

end Deferred

end Gfd
