import GfdProof.BatchPlan
import GfdProof.GatherHandshake
import GfdProof.PollingLoop
import GfdProof.Script
import GfdProof.WorkStreams

/-! # The polling thread's calls

`flush_batch` and everything it calls — `process_batch` and its variants, the
copy engine manager, the deferred tile events — together with the two other
things the polling loop does, its idle branch and its final flush, as one
thread of calls (`Script`) over the streams and events of a device
(`WorkStreams`).

A call of this file is either a function of the source, which expands into its
body when it is made, or one access to what the thread shares with the device:
one driver call, one store.  Between two calls the device performs queued copies
and the threads of a gather copy entries; a copy reads its host source when it
is performed.  All driver calls succeed.

A data copy carries the descriptors it was submitted for (`serves`); no code
reads them.  Host memory is typed: the user's memory, the staging buffers, the
pinned signal buffer and the destination memory are apart.
-/
namespace Gfd

open WorkStreams

/-! ## Streams, events, copies -/

/-- The copy engine streams, and `signal_stream_`. -/
inductive Stream
  | ce (ch : Nat)
  | signal
  deriving DecidableEq, Repr

/-- `ce_events_`, `staging_events_`, and the events of the pending tile events. -/
inductive Event
  | ce (ch : Nat)
  | staging (b : Nat)
  | tile (slot : Nat)
  deriving DecidableEq, Repr

/-- What `cuMemcpyHtoDAsync` is called for. -/
inductive Copy
  | data (e : SGEntry) (serves : List Descriptor)
  /-- `tile_signal_buf_[first ..]`, `count` cells, to `d_tile_chunk_done` if `dev`, else to
  `tile_chunk_done`. -/
  | tileSignal (dev : Bool) (first count : Nat)
  /-- `tile_signal_buf_[id]` to `d_list_done[id]`. -/
  | listSignal (id : Nat)
  deriving DecidableEq, Repr

def maxCeChannels : Nat := 3
def numStagingBufs : Nat := 5
def maxPendingTileEvents : Nat := 32

theorem one_le_maxCeChannels : 1 ≤ maxCeChannels := by decide
theorem two_le_maxCeChannels : 2 ≤ maxCeChannels := by decide
theorem one_le_numStagingBufs : 1 ≤ numStagingBufs := by decide

/-- What is set up before the thread starts: `num_channels_`, the staging
buffers, `active_gather_workers_`, `use_ce_`, and which of `tiled_queue_`, its
`d_tile_chunk_done`, `tile_signal_buf_`, `sg_queue_`, its `d_list_done` and
`signal_stream_` are present. -/
structure Config where
  std : StdSort SGEntry
  channels : Nat
  staging : Staging
  workers : Nat
  useCe : Bool
  tiledQueue : Bool
  dTileChunkDone : Bool
  tileSignalBuf : Bool
  sgQueue : Bool
  dListDone : Bool
  signalStream : Bool
  channels_pos : 0 < channels
  channels_le : channels ≤ maxCeChannels
  bufs_le : staging.bufs ≤ numStagingBufs

/-- One channel of the copy engine, no staging buffer and no queue: where the examples start from. -/
def Config.plain : Config where
  std := .insertion
  channels := 1
  staging := ⟨0, 0⟩
  workers := 0
  useCe := true
  tiledQueue := false
  dTileChunkDone := false
  tileSignalBuf := false
  sgQueue := false
  dListDone := false
  signalStream := false
  channels_pos := Nat.one_pos
  channels_le := one_le_maxCeChannels
  bufs_le := Nat.zero_le _

/-- The same with a tiled queue and everything its path can use. -/
def Config.plainTiled : Config :=
  { Config.plain with
    tiledQueue := true
    dTileChunkDone := true
    tileSignalBuf := true
    signalStream := true }

/-! ## State -/

structure PendingTileEvent where
  doneValue : Nat
  tileIds : List Nat
  deriving DecidableEq, Repr

/-- The variables only the polling thread uses. -/
structure Poller where
  nextChannel : Nat
  dirtyMask : Nat → Bool
  stagingCur : Nat
  stagingEventPending : Nat → Bool
  stagingInflightCount : Int
  hasAsyncDma : Bool
  latestAsyncRead : Nat
  tileProgress : Nat → Nat
  pendingTileEvents : Nat → PendingTileEvent
  tileEventHead : Nat
  tileEventTail : Nat
  tileEventsInflight : Nat
  bucketMap : Nat → Option Nat
  sgBucketMap : Nat → Option Nat

/-- A gather under way: what each of its threads has left to copy. -/
structure Gathering where
  buf : Nat
  base : Nat
  chunks : List (List SGEntry)

/-- The polling thread, the device and the memory they share.  `gpu` is the
destination memory, `user` the memory the descriptors read from. -/
structure Host where
  poller : Poller
  gathering : Option Gathering
  device : Device Stream Event Copy
  user : Nat → UInt8
  staging : Nat → Nat → UInt8
  gpu : Nat → UInt8
  doneIdx : Nat
  tileSignalBuf : Nat → Nat
  tileChunkDone : Nat → Nat
  dTileChunkDone : Nat → Nat
  dListDone : Nat → Nat
  listsCompleted : Nat

/-- A thread just created. -/
def Poller.init : Poller where
  nextChannel := 0
  dirtyMask _ := false
  stagingCur := 0
  stagingEventPending _ := false
  stagingInflightCount := 0
  hasAsyncDma := false
  latestAsyncRead := 0
  tileProgress _ := 0
  pendingTileEvents _ := ⟨0, []⟩
  tileEventHead := 0
  tileEventTail := 0
  tileEventsInflight := 0
  bucketMap _ := none
  sgBucketMap _ := none

/-- Nothing submitted yet, over arbitrary memory. -/
def Host.init (user : Nat → UInt8) (staging : Nat → Nat → UInt8) (gpu : Nat → UInt8) : Host where
  poller := .init
  gathering := none
  device := .empty
  user := user
  staging := staging
  gpu := gpu
  doneIdx := 0
  tileSignalBuf _ := 0
  tileChunkDone _ := 0
  dTileChunkDone _ := 0
  dListDone _ := 0
  listsCompleted := 0

/-! ## What the device and the gather threads do -/

namespace Host

/-- The byte `k` past a host pointer. -/
def byte (s : Host) (p : HostPtr) (k : Nat) : UInt8 :=
  match p with
  | .user a => s.user (a + k)
  | .staging b off => s.staging b (off + k)

/-- The destination memory after an entry has been copied. -/
def write (s : Host) (e : SGEntry) (a : Nat) : UInt8 :=
  if e.dst ≤ a ∧ a < e.dst + e.size then s.byte e.src (a - e.dst) else s.gpu a

/-- `count` cells from `first` on, read from the signal buffer. -/
def signalled (s : Host) (cells : Nat → Nat) (first count t : Nat) : Nat :=
  if first ≤ t ∧ t < first + count then s.tileSignalBuf t else cells t

/-- Perform a copy. -/
def transfer (s : Host) : Copy → Host
  | .data e _ => { s with gpu := s.write e }
  | .tileSignal true first count =>
    { s with dTileChunkDone := s.signalled s.dTileChunkDone first count }
  | .tileSignal false first count =>
    { s with tileChunkDone := s.signalled s.tileChunkDone first count }
  | .listSignal id => { s with dListDone := s.signalled s.dListDone id 1 }

/-- Stream `st` performs its next item. -/
def advance (s : Host) (st : Stream) : Option Host :=
  if s.device.runnable st then
    let t := { s with device := s.device.advance st }
    match s.device.next st with
    | some (.work c) => some (t.transfer c)
    | _ => some t
  else none

/-- `streaming_memcpy_g(staging + offset, e.src, e.size)` -/
def stage (s : Host) (g : Gathering) (e : SGEntry) : Nat → Nat → UInt8 :=
  let off := subWord e.dst g.base
  Function.update s.staging g.buf fun i =>
    if off ≤ i ∧ i < off + e.size then s.byte e.src (i - off) else s.staging g.buf i

/-- Thread `k` of the gather copies its next entry. -/
def gather (s : Host) (k : Nat) : Option Host :=
  match s.gathering with
  | none => none
  | some g =>
    match g.chunks[k]? with
    | some (e :: es) =>
      some { s with
        staging := s.stage g e
        gathering := some { g with chunks := g.chunks.set k es } }
    | _ => none

end Host

/-- A step of the device or of a gather thread. -/
inductive HostEnv
  | advance (st : Stream)
  | gather (k : Nat)
  deriving DecidableEq, Repr

def Host.env (s : Host) : HostEnv → Option Host
  | .advance st => s.advance st
  | .gather k => s.gather k

/-! ## The calls -/

/-- The calls of the polling thread. -/
inductive Call
  /-- `cuMemcpyHtoDAsync` -/
  | copyAsync (st : Stream) (c : Copy)
  /-- `cuEventRecord` -/
  | eventRecord (e : Event) (st : Stream)
  /-- `cuStreamWaitEvent` -/
  | streamWaitEvent (st : Stream) (e : Event)
  /-- `cuEventSynchronize` -/
  | eventSynchronize (e : Event)
  /-- `submit_scatter_gather` -/
  | submit (cs : List Copy)
  /-- The end of a submission: `next_channel_`, and `dirty_mask_ |= this_mask`. -/
  | submitted (next : Nat) (mask : List Nat)
  | waitCompletion
  /-- `dirty_mask_ = 0` -/
  | clearDirty
  | recordEventOnLastStream (e : Event)
  | makeStreamWaitOnAll (st : Stream)
  | processBatch (batch : List Descriptor)
  /-- Wait until staging buffer `b` has no pending event. -/
  | stagingWait (b : Nat)
  /-- The event of staging buffer `b` is no longer pending. -/
  | stagingDone (b : Nat)
  /-- The event of staging buffer `b` is pending; go on to the next buffer. -/
  | stagingSent (b : Nat)
  | parallelGather (entries : List SGEntry) (b base : Nat)
  /-- Wait for the gather's threads. -/
  | gatherWait
  | processBatchNoCe (batch : List Descriptor)
  /-- `memcpy(e.dst, e.src, e.size)` -/
  | memcpy (e : SGEntry)
  | processBatchTiled (batch : List Descriptor)
  /-- `tile_progress_[t] += n` and the store of it to `tile_signal_buf_[t]`. -/
  | addProgress (t n : Nat)
  | processBatchSg (batch : List Descriptor)
  /-- `tile_signal_buf_[id] = 1` -/
  | storeSignal (id : Nat)
  /-- `cudaMemcpy` of `1` to `d_list_done[id]`. -/
  | storeListDone (id : Nat)
  /-- `lists_completed += n` -/
  | addListsCompleted (n : Nat)
  | flushBatch (batch : List Descriptor) (orFlags curRead : Nat)
  /-- `has_async_dma_ = true; latest_async_read_ = cur_read` -/
  | setAsync (curRead : Nat)
  /-- `has_async_dma_ = false` -/
  | clearAsync
  /-- Store to `done_idx`. -/
  | storeDone (v : Nat)
  /-- Store `latest_async_read_` to `done_idx`. -/
  | publishDone
  /-- Fill the pending tile event at the head of the ring. -/
  | pushTileEvent (batch : List Descriptor) (curRead : Nat)
  /-- Count one descriptor of a batch that has been transferred, and store its
  tile's progress if it ends the tile. -/
  | tileStep (d : Descriptor)
  /-- Store `tile_progress_[t]` to `d_tile_chunk_done[t]` if `dev`, else to `tile_chunk_done[t]`. -/
  | storeTile (dev : Bool) (t : Nat)
  /-- Store `v` to `done_idx` if that raises it. -/
  | raiseDone (v : Nat)
  /-- Retire the pending tile event at the tail of the ring. -/
  | retireTileEvent
  /-- `has_async_dma_ = tile_events_inflight_ > 0` -/
  | asyncWhileInflight
  | pollTileEvents
  /-- `staging_inflight_count_ = 0` -/
  | clearInflight
  /-- The branch of `polling_loop` for an empty queue and an empty batch. -/
  | idle
  /-- What `polling_loop` does after its last `flush_batch`. -/
  | finish
  | drainTileEvents
  /-- If staging copies are in flight, wait for them. -/
  | settleStaging
  /-- If copies are outstanding, wait for them and publish `done_idx`. -/
  | settleAsync

/-! ### Channel selection -/

/-- `chunk_size` for `count` entries over `n` channels. -/
def chunkSize (n count : Nat) : Nat := (count + n - 1) / n

/-- The channel of entry `i` of a submission of `count` entries: one channel
after the other from `next_channel_` on, or a contiguous chunk for each
channel. -/
def channelOf (n next count i : Nat) : Nat :=
  if count ≤ n then (next + i) % n else i / chunkSize n count

/-- `next_channel_` after a submission of `count` entries. -/
def nextAfter (n next count : Nat) : Nat := if count ≤ n then (next + count) % n else 0

/-- `this_mask`, in the order of its bits. -/
def usedChannels (n next count : Nat) : List Nat :=
  (List.range n).filter fun ch => (List.range count).any fun i => channelOf n next count i == ch

/-- The channels of `dirty_mask_`, in the order of its bits. -/
def Poller.dirtyChannels (p : Poller) (n : Nat) : List Nat := (List.range n).filter p.dirtyMask

/-! ### The gather's chunks -/

def slice (es : List SGEntry) (start stop : Nat) : List SGEntry := (es.drop start).take (stop - start)

/-- What `parallel_gather` gives to its own thread and to each worker. -/
def gatherChunks (workers : Nat) (es : List SGEntry) : List (List SGEntry) :=
  slice es 0 (Gather.mainEnd workers es.length) ::
    (List.range workers).map fun w =>
      slice es (Gather.start workers es.length w) (Gather.stop workers es.length w)

/-! ### The bodies of the functions -/

namespace Config

variable (cfg : Config)

/-- `submit_scatter_gather` -/
def submit (p : Poller) (cs : List Copy) : List Call :=
  let n := cfg.channels
  let used := usedChannels n p.nextChannel cs.length
  if cs = [] then []
  else
    (cs.zipIdx.map fun c => .copyAsync (.ce (channelOf n p.nextChannel cs.length c.2)) c.1) ++
      .submitted (nextAfter n p.nextChannel cs.length) used ::
      used.map fun ch => .eventRecord (.ce ch) (.ce ch)

/-- `wait_completion` -/
def waitCompletion (p : Poller) : List Call :=
  (p.dirtyChannels cfg.channels).map (fun ch => .eventSynchronize (.ce ch)) ++ [.clearDirty]

/-- `make_stream_wait_on_all` -/
def makeStreamWaitOnAll (p : Poller) (st : Stream) : List Call :=
  (p.dirtyChannels cfg.channels).flatMap fun ch =>
    [.eventRecord (.ce ch) (.ce ch), .streamWaitEvent st (.ce ch)]

/-- The data copies of `entries`, submitted for `batch`. -/
def dataCopies (batch : List Descriptor) (entries : List SGEntry) : List Copy :=
  entries.map fun e => .data e batch

/-- `process_batch`.  Every path of it returns `true`. -/
def processBatch (p : Poller) (batch : List Descriptor) : List Call :=
  let b := p.stagingCur
  match batchPlan cfg.std cfg.staging b batch with
  | .direct es => [.submit (dataCopies batch es)]
  | .staged es base rs =>
    [.stagingWait b, .parallelGather es b base, .gatherWait, .submit (dataCopies batch rs),
      .recordEventOnLastStream (.staging b), .stagingSent b]

/-- `process_batch_no_ce` -/
def processBatchNoCe (batch : List Descriptor) : List Call :=
  (cfg.std.sort (fun e => e.src.addr) (batch.map Descriptor.entry)).map .memcpy

/-- The signal copies of `process_batch_tiled` on the signal stream: one for each tile, or a
single one where more than four tiles have neighbouring ids. -/
def tileSignals (tiles : List Nat) : List Call :=
  let each := tiles.map fun t => .copyAsync .signal (.tileSignal true t 1)
  match tiles with
  | [] => each
  | t :: ts =>
    let minTid := ts.foldl min t
    let maxTid := ts.foldl max t
    let range := maxTid - minTid + 1
    if 4 < tiles.length ∧ range = tiles.length ∧ maxTid < maxTiles then
      [.copyAsync .signal (.tileSignal true minTid range)]
    else each

/-- `process_batch_tiled`, once its batch is grouped. -/
def processBatchTiled (groups : List (Nat × List Descriptor)) : List Call :=
  let tiles := groups.map Prod.fst
  (if cfg.tileSignalBuf then groups.map fun g => .addProgress g.1 g.2.length else []) ++
    (tiledEntries (groups.map Prod.snd)).map (fun es => .submit (es.map fun e => .data e.1 e.2)) ++
    if cfg.tileSignalBuf then
      if cfg.tiledQueue ∧ cfg.dTileChunkDone ∧ cfg.signalStream then
        .makeStreamWaitOnAll .signal :: tileSignals tiles
      else [.submit (tiles.map fun t => .tileSignal false t 1)]
    else []

/-- `process_batch_sg`, once its batch is grouped. -/
def processBatchSg (groups : List (Nat × List Descriptor)) : List Call :=
  (groups.map fun g => .submit ((groupEntries g.2).map fun e => .data e.1 e.2)) ++
    if cfg.sgQueue ∧ cfg.dListDone ∧ cfg.signalStream then
      .makeStreamWaitOnAll .signal ::
        (groups.flatMap fun g =>
          if cfg.tileSignalBuf then [.storeSignal g.1, .copyAsync .signal (.listSignal g.1)]
          else []) ++
        [.addListsCompleted groups.length]
    else if cfg.sgQueue then
      .waitCompletion :: (if cfg.dListDone then groups.map fun g => .storeListDone g.1 else []) ++
        [.addListsCompleted groups.length]
    else []

/-- `flush_batch`.  The branch for a `process_batch` that returned `false` is never taken. -/
def flushBatch (batch : List Descriptor) (orFlags curRead : Nat) : List Call :=
  let hasTileMarkers := cfg.tiledQueue ∧ hasFlag orFlags (flagLastInTile ||| flagLastChunkInTile)
  let sgMode := cfg.sgQueue ∧ hasFlag orFlags flagLastInTile
  if batch = [] then []
  else if sgMode ∧ cfg.useCe then [.processBatchSg batch, .setAsync curRead]
  else if cfg.useCe then
    if cfg.tiledQueue ∧ cfg.tileSignalBuf then [.processBatchTiled batch, .setAsync curRead]
    else
      [.processBatch batch, .setAsync curRead] ++
        if hasTileMarkers then [.pushTileEvent batch curRead] else []
  else
    [.processBatchNoCe batch, .storeDone curRead] ++
      if hasTileMarkers then batch.map .tileStep else []

/-- `poll_tile_events`; `complete` is what `cuEventQuery` says of the event at the tail. -/
def pollTileEvents (p : Poller) (complete : Bool) : List Call :=
  let pe := p.pendingTileEvents p.tileEventTail
  if 0 < p.tileEventsInflight ∧ complete then
    pe.tileIds.map (.storeTile cfg.dTileChunkDone) ++
      [.raiseDone pe.doneValue, .retireTileEvent, .asyncWhileInflight, .pollTileEvents]
  else []

/-- The loop over the pending tile events at the end of `polling_loop`. -/
def drainTileEvents (p : Poller) : List Call :=
  let pe := p.pendingTileEvents p.tileEventTail
  if 0 < p.tileEventsInflight then
    pe.tileIds.map (.storeTile false) ++ [.raiseDone pe.doneValue, .retireTileEvent, .drainTileEvents]
  else []

/-- The idle branch of `polling_loop`. -/
def idle (p : Poller) : List Call :=
  if 0 < p.tileEventsInflight then [.pollTileEvents]
  else if p.hasAsyncDma then [.settleStaging, .settleAsync]
  else []

/-- `polling_loop` after its last `flush_batch`. -/
def finish (p : Poller) : List Call :=
  (if 0 < p.tileEventsInflight then [.waitCompletion, .drainTileEvents, .clearAsync] else []) ++
    [.settleStaging, .settleAsync]

def settleStaging (p : Poller) : List Call :=
  if 0 < p.stagingInflightCount then [.waitCompletion, .clearInflight] else []

def settleAsync (p : Poller) : List Call :=
  if p.hasAsyncDma then [.waitCompletion, .publishDone, .clearAsync] else []

end Config

/-! ### Performing a call -/

namespace Host

/-- Run a function's body next. -/
def expand (s : Host) (body : List Call) : Option (Host × List Call) := some (s, body)

/-- A step of the thread that only changes its own variables. -/
def setPoller (s : Host) (p : Poller) : Option (Host × List Call) := some ({ s with poller := p }, [])

def setDevice (s : Host) (d : Device Stream Event Copy) : Option (Host × List Call) :=
  some ({ s with device := d }, [])

/-- `pe.tile_ids` and `tile_progress_` after a batch, with `tile_counts_local`. -/
def pushTiles (progress counts : Nat → Nat) (ids : List Nat) :
    List Descriptor → (Nat → Nat) × List Nat
  | [] => (progress, ids)
  | d :: ds =>
    if hasFlag d.flags flagLastInTile ∧ ids.length < maxTiles ∧ d.group < maxTiles then
      pushTiles (Function.update progress d.group (word (progress d.group + counts d.group)))
        (Function.update counts d.group 0) (ids ++ [d.group]) ds
    else pushTiles progress counts ids ds

/-- `deferred` branch of `flush_batch`, after the event has been recorded. -/
def pushTileEvent (p : Poller) (batch : List Descriptor) (curRead : Nat) : Poller :=
  let counts := fun t => (batch.filter fun d => d.group == t).length
  let r := pushTiles p.tileProgress counts [] batch
  { p with
    tileProgress := r.1
    pendingTileEvents := Function.update p.pendingTileEvents p.tileEventHead ⟨curRead, r.2⟩
    tileEventHead := (p.tileEventHead + 1) % maxPendingTileEvents
    tileEventsInflight := p.tileEventsInflight + 1 }

/-- Store `tile_progress_[t]`. -/
def storeTile (s : Host) (dev : Bool) (t : Nat) : Host :=
  let v := word (s.poller.tileProgress t)
  if dev then { s with dTileChunkDone := Function.update s.dTileChunkDone t v }
  else { s with tileChunkDone := Function.update s.tileChunkDone t v }

/-- Count one transferred descriptor. -/
def tileStep (s : Host) (dev : Bool) (d : Descriptor) : Host :=
  let p := s.poller
  if d.group < maxTiles then
    let progress := Function.update p.tileProgress d.group (word (p.tileProgress d.group + 1))
    let t := { s with poller := { p with tileProgress := progress } }
    if hasFlag d.flags flagLastInTile then t.storeTile dev d.group else t
  else s

end Host

/-- Performing a call: `none` while it is blocked. -/
def Config.perform (cfg : Config) (s : Host) : Call → Option (Host × List Call)
  | .copyAsync st c => s.setDevice (s.device.submit st c)
  | .eventRecord e st => s.setDevice (s.device.record e st)
  | .streamWaitEvent st e => s.setDevice (s.device.waitEvent st e)
  | .eventSynchronize e => if s.device.complete e then some (s, []) else none
  | .submit cs => s.expand (cfg.submit s.poller cs)
  | .submitted next mask =>
    s.setPoller { s.poller with
      nextChannel := next
      dirtyMask := fun ch => s.poller.dirtyMask ch || mask.contains ch }
  | .waitCompletion => s.expand (cfg.waitCompletion s.poller)
  | .clearDirty => s.setPoller { s.poller with dirtyMask := fun _ => false }
  | .recordEventOnLastStream e =>
    s.setDevice (s.device.record e
      (.ce ((s.poller.nextChannel + cfg.channels - 1) % cfg.channels)))
  | .makeStreamWaitOnAll st => s.expand (cfg.makeStreamWaitOnAll s.poller st)
  | .processBatch batch => s.expand (cfg.processBatch s.poller batch)
  | .stagingWait b =>
    s.expand (if s.poller.stagingEventPending b then [.eventSynchronize (.staging b), .stagingDone b]
      else [])
  | .stagingDone b =>
    s.setPoller { s.poller with
      stagingEventPending := Function.update s.poller.stagingEventPending b false
      stagingInflightCount := s.poller.stagingInflightCount - 1 }
  | .stagingSent b =>
    s.setPoller { s.poller with
      stagingEventPending := Function.update s.poller.stagingEventPending b true
      stagingInflightCount := s.poller.stagingInflightCount + 1
      stagingCur := (b + 1) % cfg.staging.bufs }
  | .parallelGather es b base =>
    some ({ s with gathering := some ⟨b, base, gatherChunks cfg.workers es⟩ }, [])
  | .gatherWait =>
    match s.gathering with
    | some g => if g.chunks.all List.isEmpty then some ({ s with gathering := none }, []) else none
    | none => none
  | .processBatchNoCe batch => s.expand (cfg.processBatchNoCe batch)
  | .memcpy e => some ({ s with gpu := s.write e }, [])
  | .processBatchTiled batch =>
    let r := groupBatch maxTiles s.poller.bucketMap batch
    some ({ s with poller := { s.poller with bucketMap := r.2 } }, cfg.processBatchTiled r.1)
  | .addProgress t n =>
    let v := word (s.poller.tileProgress t + n)
    some ({ s with
      poller := { s.poller with tileProgress := Function.update s.poller.tileProgress t v }
      tileSignalBuf := Function.update s.tileSignalBuf t v }, [])
  | .processBatchSg batch =>
    let r := groupBatch maxSgLists s.poller.sgBucketMap batch
    some ({ s with poller := { s.poller with sgBucketMap := r.2 } }, cfg.processBatchSg r.1)
  | .storeSignal id => some ({ s with tileSignalBuf := Function.update s.tileSignalBuf id 1 }, [])
  | .storeListDone id => some ({ s with dListDone := Function.update s.dListDone id 1 }, [])
  | .addListsCompleted n => some ({ s with listsCompleted := word (s.listsCompleted + n) }, [])
  | .flushBatch batch orFlags curRead => s.expand (cfg.flushBatch batch orFlags curRead)
  | .setAsync curRead =>
    s.setPoller { s.poller with hasAsyncDma := true, latestAsyncRead := curRead }
  | .clearAsync => s.setPoller { s.poller with hasAsyncDma := false }
  | .storeDone v => some ({ s with doneIdx := word v }, [])
  | .publishDone => some ({ s with doneIdx := word s.poller.latestAsyncRead }, [])
  | .pushTileEvent batch curRead =>
    some ({ s with
      device := s.device.record (.tile s.poller.tileEventHead)
        (.ce ((s.poller.nextChannel + cfg.channels - 1) % cfg.channels))
      poller := Host.pushTileEvent s.poller batch curRead }, [])
  | .tileStep d => some (s.tileStep cfg.dTileChunkDone d, [])
  | .storeTile dev t => some (s.storeTile dev t, [])
  | .raiseDone v => some ({ s with doneIdx := if s.doneIdx < word v then word v else s.doneIdx }, [])
  | .retireTileEvent =>
    s.setPoller { s.poller with
      tileEventTail := (s.poller.tileEventTail + 1) % maxPendingTileEvents
      tileEventsInflight := s.poller.tileEventsInflight - 1 }
  | .asyncWhileInflight =>
    s.setPoller { s.poller with hasAsyncDma := decide (0 < s.poller.tileEventsInflight) }
  | .pollTileEvents =>
    s.expand (cfg.pollTileEvents s.poller (s.device.complete (.tile s.poller.tileEventTail)))
  | .clearInflight => s.setPoller { s.poller with stagingInflightCount := 0 }
  | .idle => s.expand (Config.idle s.poller)
  | .finish => s.expand (Config.finish s.poller)
  | .drainTileEvents => s.expand (Config.drainTileEvents s.poller)
  | .settleStaging => s.expand (Config.settleStaging s.poller)
  | .settleAsync => s.expand (Config.settleAsync s.poller)

/-- The polling thread's calls over its environment. -/
def Config.machine (cfg : Config) : Script.Machine Host Call HostEnv := ⟨cfg.perform, Host.env⟩

/-- What the polling loop calls. -/
def Config.backend (cfg : Config) : Backend where
  State := Script.State Host Call
  Act := Script.Act HostEnv
  inTiles := cfg.tiledQueue || cfg.sgQueue
  flush s batch orFlags curRead := { s with todo := [.flushBatch batch orFlags curRead] }
  idle s := { s with todo := [.idle] }
  finish s := { s with todo := [.finish] }
  busy s := !s.todo.isEmpty
  eventsInflight s := decide (0 < s.data.poller.tileEventsInflight)
  act s a := cfg.machine.step s a

end Gfd
