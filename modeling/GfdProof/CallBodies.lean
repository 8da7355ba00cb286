import Mathlib
import GfdProof.CallProgress

/-! # What the calls of the polling thread are made of

Every call of `HostThread` is either a function, which is replaced by calls of its body, or one
access to the device or to memory.  `Expands` says which calls a body can consist of, with what is
known of their arguments, whatever the state it is expanded in; and `device_perform` says what one
call can do to the device.  A property of calls that is passed on from a function to its body, and
an assertion about the device, are so looked at once for each kind of call and not once for each
function.
-/
namespace Gfd

open WorkStreams

/-- Calls of the second kind occur in the body of the first. -/
inductive Call.Expands : Call → Call → Prop
  | copyAsync {cs : List Copy} {x : Copy} (ch : Nat) (h : x ∈ cs) :
      Expands (.submit cs) (.copyAsync (.ce ch) x)
  | submitted {cs : List Copy} (next : Nat) (mask : List Nat) :
      Expands (.submit cs) (.submitted next mask)
  | recordChannel {cs : List Copy} (ch : Nat) : Expands (.submit cs) (.eventRecord (.ce ch) (.ce ch))
  | sync (ch : Nat) : Expands .waitCompletion (.eventSynchronize (.ce ch))
  | clearDirty : Expands .waitCompletion .clearDirty
  | recordWaited (st : Stream) (ch : Nat) :
      Expands (.makeStreamWaitOnAll st) (.eventRecord (.ce ch) (.ce ch))
  | streamWait (st : Stream) (ch : Nat) :
      Expands (.makeStreamWaitOnAll st) (.streamWaitEvent st (.ce ch))
  | direct {batch : List Descriptor} {es : List SGEntry} (h : ∀ e ∈ es, e.FromUser) :
      Expands (.processBatch batch) (.submit (Config.dataCopies batch es))
  | stagingWait (batch : List Descriptor) (b : Nat) : Expands (.processBatch batch) (.stagingWait b)
  | parallelGather (batch : List Descriptor) (es : List SGEntry) (b base : Nat) :
      Expands (.processBatch batch) (.parallelGather es b base)
  | gatherWait (batch : List Descriptor) : Expands (.processBatch batch) .gatherWait
  | staged {batch : List Descriptor} {rs : List SGEntry} {b : Nat} (h : ∀ e ∈ rs, e.FromStaging b) :
      Expands (.processBatch batch) (.submit (Config.dataCopies batch rs))
  | recordStaging (batch : List Descriptor) (b : Nat) :
      Expands (.processBatch batch) (.recordEventOnLastStream (.staging b))
  | stagingSent (batch : List Descriptor) (b : Nat) : Expands (.processBatch batch) (.stagingSent b)
  | syncStaging (b : Nat) : Expands (.stagingWait b) (.eventSynchronize (.staging b))
  | stagingDone (b : Nat) : Expands (.stagingWait b) (.stagingDone b)
  | memcpy (batch : List Descriptor) (e : SGEntry) : Expands (.processBatchNoCe batch) (.memcpy e)
  | addProgress (batch : List Descriptor) (t n : Nat) :
      Expands (.processBatchTiled batch) (.addProgress t n)
  | tileData {batch : List Descriptor} {es : List (SGEntry × List Descriptor)}
      (h : ∀ e ∈ es, e.1.FromUser) :
      Expands (.processBatchTiled batch) (.submit (es.map fun e => .data e.1 e.2))
  | tileWait (batch : List Descriptor) :
      Expands (.processBatchTiled batch) (.makeStreamWaitOnAll .signal)
  | tileSignal (batch : List Descriptor) (t n : Nat) :
      Expands (.processBatchTiled batch) (.copyAsync .signal (.tileSignal true t n))
  | tileSignals (batch : List Descriptor) (tiles : List Nat) :
      Expands (.processBatchTiled batch) (.submit (tiles.map fun t => .tileSignal false t 1))
  | sgData {batch : List Descriptor} {es : List (SGEntry × List Descriptor)}
      (h : ∀ e ∈ es, e.1.FromUser) :
      Expands (.processBatchSg batch) (.submit (es.map fun e => .data e.1 e.2))
  | sgWait (batch : List Descriptor) : Expands (.processBatchSg batch) (.makeStreamWaitOnAll .signal)
  | storeSignal (batch : List Descriptor) (id : Nat) :
      Expands (.processBatchSg batch) (.storeSignal id)
  | listSignal (batch : List Descriptor) (id : Nat) :
      Expands (.processBatchSg batch) (.copyAsync .signal (.listSignal id))
  | sgSync (batch : List Descriptor) : Expands (.processBatchSg batch) .waitCompletion
  | storeListDone (batch : List Descriptor) (id : Nat) :
      Expands (.processBatchSg batch) (.storeListDone id)
  | addListsCompleted (batch : List Descriptor) (n : Nat) :
      Expands (.processBatchSg batch) (.addListsCompleted n)
  | processBatchSg (batch : List Descriptor) (orFlags curRead : Nat) :
      Expands (.flushBatch batch orFlags curRead) (.processBatchSg batch)
  | processBatchTiled (batch : List Descriptor) (orFlags curRead : Nat) :
      Expands (.flushBatch batch orFlags curRead) (.processBatchTiled batch)
  | processBatch (batch : List Descriptor) (orFlags curRead : Nat) :
      Expands (.flushBatch batch orFlags curRead) (.processBatch batch)
  | processBatchNoCe (batch : List Descriptor) (orFlags curRead : Nat) :
      Expands (.flushBatch batch orFlags curRead) (.processBatchNoCe batch)
  | setAsync (batch : List Descriptor) (orFlags curRead : Nat) :
      Expands (.flushBatch batch orFlags curRead) (.setAsync curRead)
  | pushTileEvent (batch : List Descriptor) (orFlags curRead : Nat) :
      Expands (.flushBatch batch orFlags curRead) (.pushTileEvent batch curRead)
  | storeDone (batch : List Descriptor) (orFlags curRead : Nat) :
      Expands (.flushBatch batch orFlags curRead) (.storeDone curRead)
  | tileStep {batch : List Descriptor} (orFlags curRead : Nat) {d : Descriptor} (h : d ∈ batch) :
      Expands (.flushBatch batch orFlags curRead) (.tileStep d)
  | pollStore (dev : Bool) (t : Nat) : Expands .pollTileEvents (.storeTile dev t)
  | pollRaise (v : Nat) : Expands .pollTileEvents (.raiseDone v)
  | pollRetire : Expands .pollTileEvents .retireTileEvent
  | pollAsync : Expands .pollTileEvents .asyncWhileInflight
  | pollAgain : Expands .pollTileEvents .pollTileEvents
  | drainStore (dev : Bool) (t : Nat) : Expands .drainTileEvents (.storeTile dev t)
  | drainRaise (v : Nat) : Expands .drainTileEvents (.raiseDone v)
  | drainRetire : Expands .drainTileEvents .retireTileEvent
  | drainAgain : Expands .drainTileEvents .drainTileEvents
  | idlePoll : Expands .idle .pollTileEvents
  | idleStaging : Expands .idle .settleStaging
  | idleAsync : Expands .idle .settleAsync
  | finishSync : Expands .finish .waitCompletion
  | finishDrain : Expands .finish .drainTileEvents
  | finishClear : Expands .finish .clearAsync
  | finishStaging : Expands .finish .settleStaging
  | finishAsync : Expands .finish .settleAsync
  | stagingSync : Expands .settleStaging .waitCompletion
  | clearInflight : Expands .settleStaging .clearInflight
  | asyncSync : Expands .settleAsync .waitCompletion
  | publishDone : Expands .settleAsync .publishDone
  | clearAsync : Expands .settleAsync .clearAsync

namespace Call.Expands

variable {cfg : Config}

/-- What `submit_scatter_gather` is made of. -/
theorem of_submit {p : Poller} {cs : List Copy} : ∀ c ∈ cfg.submit p cs, Expands (.submit cs) c := by
  unfold Config.submit
  dsimp only
  split
  · exact List.forall_mem_nil _
  · refine List.forall_mem_append.mpr ⟨List.forall_mem_map.mpr fun c hc => ?_,
      List.forall_mem_cons.mpr ⟨submitted _ _, List.forall_mem_map.mpr fun ch _ => recordChannel ch⟩⟩
    exact copyAsync _ (List.fst_mem_of_mem_zipIdx hc)

/-- What `wait_completion` is made of. -/
theorem of_waitCompletion {p : Poller} : ∀ c ∈ cfg.waitCompletion p, Expands .waitCompletion c :=
  List.forall_mem_append.mpr ⟨List.forall_mem_map.mpr fun ch _ => sync ch,
    List.forall_mem_singleton.mpr clearDirty⟩

/-- What `make_stream_wait_on_all` is made of. -/
theorem of_makeStreamWaitOnAll {p : Poller} {st : Stream} :
    ∀ c ∈ cfg.makeStreamWaitOnAll p st, Expands (.makeStreamWaitOnAll st) c := by
  intro c hc
  obtain ⟨ch, -, h⟩ := List.mem_flatMap.mp hc
  rcases List.mem_pair.mp h with rfl | rfl
  · exact recordWaited st ch
  · exact streamWait st ch

/-- What `process_batch` is made of. -/
theorem of_processBatch {p : Poller} {batch : List Descriptor} :
    ∀ c ∈ cfg.processBatch p batch, Expands (.processBatch batch) c := by
  have hsrc := batchPlan_sourced cfg.std cfg.staging p.stagingCur batch
  unfold Config.processBatch
  dsimp only
  split
  · rename_i es hplan
    rw [hplan] at hsrc
    exact List.forall_mem_singleton.mpr (direct hsrc)
  · rename_i es base rs hplan
    rw [hplan] at hsrc
    simp only [List.forall_mem_cons]
    exact ⟨stagingWait _ _, parallelGather _ _ _ _, gatherWait _, staged hsrc.2, recordStaging _ _,
      stagingSent _ _, List.forall_mem_nil _⟩

/-- The signals of the tiles of a batch. -/
theorem of_tileSignals {batch : List Descriptor} {tiles : List Nat} :
    ∀ c ∈ Config.tileSignals tiles, Expands (.processBatchTiled batch) c := by
  have heach : ∀ c ∈ tiles.map fun t => Call.copyAsync .signal (.tileSignal true t 1),
      Expands (.processBatchTiled batch) c :=
    List.forall_mem_map.mpr fun t _ => tileSignal batch t 1
  unfold Config.tileSignals
  dsimp only
  split
  · exact heach
  · split
    · exact List.forall_mem_singleton.mpr (tileSignal _ _ _)
    · exact heach

/-- What `process_batch_tiled` is made of. -/
theorem of_processBatchTiled {batch : List Descriptor} {groups : List (Nat × List Descriptor)} :
    ∀ c ∈ cfg.processBatchTiled groups, Expands (.processBatchTiled batch) c := by
  unfold Config.processBatchTiled
  dsimp only
  refine List.forall_mem_append.mpr ⟨List.forall_mem_append.mpr ⟨?_, ?_⟩, ?_⟩
  · split
    · exact List.forall_mem_map.mpr fun g _ => addProgress batch _ _
    · exact List.forall_mem_nil _
  · exact List.forall_mem_map.mpr fun es hes => tileData (fromUser_tiledEntries _ es hes)
  · split
    · split
      · exact List.forall_mem_cons.mpr ⟨tileWait batch, of_tileSignals⟩
      · exact List.forall_mem_singleton.mpr (tileSignals batch _)
    · exact List.forall_mem_nil _

/-- What `process_batch_sg` is made of. -/
theorem of_processBatchSg {batch : List Descriptor} {groups : List (Nat × List Descriptor)} :
    ∀ c ∈ cfg.processBatchSg groups, Expands (.processBatchSg batch) c := by
  unfold Config.processBatchSg
  refine List.forall_mem_append.mpr ⟨List.forall_mem_map.mpr fun g _ =>
    sgData (fromUser_groupEntries g.2), ?_⟩
  split
  · refine List.forall_mem_append.mpr ⟨List.forall_mem_cons.mpr ⟨sgWait batch, ?_⟩,
      List.forall_mem_singleton.mpr (addListsCompleted batch _)⟩
    intro c hc
    obtain ⟨g, -, hc⟩ := List.mem_flatMap.mp hc
    split at hc
    · rcases List.mem_pair.mp hc with rfl | rfl
      · exact storeSignal batch _
      · exact listSignal batch _
    · cases hc
  · split
    · refine List.forall_mem_append.mpr ⟨List.forall_mem_cons.mpr ⟨sgSync batch, ?_⟩,
        List.forall_mem_singleton.mpr (addListsCompleted batch _)⟩
      split
      · exact List.forall_mem_map.mpr fun g _ => storeListDone batch _
      · exact List.forall_mem_nil _
    · exact List.forall_mem_nil _

/-- What `flush_batch` is made of, whichever way it goes. -/
theorem of_flushBatch {batch : List Descriptor} {orFlags curRead : Nat} :
    ∀ c ∈ cfg.flushBatch batch orFlags curRead, Expands (.flushBatch batch orFlags curRead) c := by
  have hpair : ∀ {c d : Call}, Expands (.flushBatch batch orFlags curRead) c →
      Expands (.flushBatch batch orFlags curRead) d →
      ∀ e ∈ [c, d], Expands (.flushBatch batch orFlags curRead) e := fun hc hd =>
    List.forall_mem_cons.mpr ⟨hc, List.forall_mem_singleton.mpr hd⟩
  unfold Config.flushBatch
  dsimp only
  split
  · exact List.forall_mem_nil _
  · split
    · exact hpair (processBatchSg _ _ _) (setAsync _ _ _)
    · split
      · split
        · exact hpair (processBatchTiled _ _ _) (setAsync _ _ _)
        · refine List.forall_mem_append.mpr ⟨hpair (processBatch _ _ _) (setAsync _ _ _), ?_⟩
          split
          · exact List.forall_mem_singleton.mpr (pushTileEvent _ _ _)
          · exact List.forall_mem_nil _
      · refine List.forall_mem_append.mpr ⟨hpair (processBatchNoCe _ _ _) (storeDone _ _ _), ?_⟩
        split
        · exact List.forall_mem_map.mpr fun d hd => tileStep orFlags curRead hd
        · exact List.forall_mem_nil _

theorem of_pollTileEvents {p : Poller} {complete : Bool} :
    ∀ c ∈ cfg.pollTileEvents p complete, Expands .pollTileEvents c := by
  unfold Config.pollTileEvents
  dsimp only
  split
  · refine List.forall_mem_append.mpr ⟨List.forall_mem_map.mpr fun t _ => pollStore _ t, ?_⟩
    simp only [List.forall_mem_cons]
    exact ⟨pollRaise _, pollRetire, pollAsync, pollAgain, List.forall_mem_nil _⟩
  · exact List.forall_mem_nil _

theorem of_drainTileEvents {p : Poller} :
    ∀ c ∈ Config.drainTileEvents p, Expands .drainTileEvents c := by
  unfold Config.drainTileEvents
  dsimp only
  split
  · refine List.forall_mem_append.mpr ⟨List.forall_mem_map.mpr fun t _ => drainStore _ t, ?_⟩
    simp only [List.forall_mem_cons]
    exact ⟨drainRaise _, drainRetire, drainAgain, List.forall_mem_nil _⟩
  · exact List.forall_mem_nil _

theorem of_idle {p : Poller} : ∀ c ∈ Config.idle p, Expands .idle c := by
  unfold Config.idle
  split
  · exact List.forall_mem_singleton.mpr idlePoll
  · split
    · simp only [List.forall_mem_cons]
      exact ⟨idleStaging, idleAsync, List.forall_mem_nil _⟩
    · exact List.forall_mem_nil _

theorem of_finish {p : Poller} : ∀ c ∈ Config.finish p, Expands .finish c := by
  unfold Config.finish
  split <;> simp only [List.forall_mem_append, List.forall_mem_cons]
  · exact ⟨⟨finishSync, finishDrain, finishClear, List.forall_mem_nil _⟩, finishStaging, finishAsync,
      List.forall_mem_nil _⟩
  · exact ⟨List.forall_mem_nil _, finishStaging, finishAsync, List.forall_mem_nil _⟩

theorem of_settleStaging {p : Poller} : ∀ c ∈ Config.settleStaging p, Expands .settleStaging c := by
  unfold Config.settleStaging
  split
  · simp only [List.forall_mem_cons]
    exact ⟨stagingSync, clearInflight, List.forall_mem_nil _⟩
  · exact List.forall_mem_nil _

theorem of_settleAsync {p : Poller} : ∀ c ∈ Config.settleAsync p, Expands .settleAsync c := by
  unfold Config.settleAsync
  split
  · simp only [List.forall_mem_cons]
    exact ⟨asyncSync, publishDone, clearAsync, List.forall_mem_nil _⟩
  · exact List.forall_mem_nil _

end Call.Expands

variable {cfg : Config} {s t : Host} {c : Call} {m : List Call}

/-- A function expands as it says, and an access into nothing. -/
theorem expands_perform (hp : cfg.perform s c = some (t, m)) : ∀ c' ∈ m, c.Expands c' := by
  cases c with
  | eventSynchronize e =>
    simp only [Config.perform] at hp
    split at hp
    · cases hp; exact List.forall_mem_nil _
    · cases hp
  | gatherWait =>
    simp only [Config.perform] at hp
    split at hp
    · split at hp
      · cases hp; exact List.forall_mem_nil _
      · cases hp
    · cases hp
  | submit cs => cases hp; exact Call.Expands.of_submit
  | waitCompletion => cases hp; exact Call.Expands.of_waitCompletion
  | makeStreamWaitOnAll st => cases hp; exact Call.Expands.of_makeStreamWaitOnAll
  | processBatch batch => cases hp; exact Call.Expands.of_processBatch
  | processBatchNoCe batch =>
    cases hp
    exact List.forall_mem_map.mpr fun e _ => .memcpy batch e
  | processBatchTiled batch => cases hp; exact Call.Expands.of_processBatchTiled
  | processBatchSg batch => cases hp; exact Call.Expands.of_processBatchSg
  | flushBatch batch orFlags curRead => cases hp; exact Call.Expands.of_flushBatch
  | pollTileEvents => cases hp; exact Call.Expands.of_pollTileEvents
  | drainTileEvents => cases hp; exact Call.Expands.of_drainTileEvents
  | idle => cases hp; exact Call.Expands.of_idle
  | finish => cases hp; exact Call.Expands.of_finish
  | settleStaging => cases hp; exact Call.Expands.of_settleStaging
  | settleAsync => cases hp; exact Call.Expands.of_settleAsync
  | stagingWait b =>
    cases hp
    split
    · simp only [List.forall_mem_cons]
      exact ⟨.syncStaging b, .stagingDone b, List.forall_mem_nil _⟩
    · exact List.forall_mem_nil _
  | _ => cases hp; exact List.forall_mem_nil _

/-! ## What a call does to the device -/

/-- The call records event `e`. -/
def Call.Records (e : Event) : Call → Prop
  | .eventRecord e' _ | .recordEventOnLastStream e' => e' = e
  | .pushTileEvent _ _ => ∃ slot, e = .tile slot
  | _ => False

/-- **What a call does to the device**: nothing, or one thing. -/
theorem device_perform (hp : cfg.perform s c = some (t, m)) :
    t.device = s.device ∨ (∃ st x, c = .copyAsync st x ∧ t.device = s.device.submit st x) ∨
      (∃ st e, c = .streamWaitEvent st e ∧ t.device = s.device.waitEvent st e) ∨
      ∃ e st, c.Records e ∧ t.device = s.device.record e st := by
  cases c with
  | copyAsync st x => cases hp; exact .inr (.inl ⟨st, x, rfl, rfl⟩)
  | streamWaitEvent st e => cases hp; exact .inr (.inr (.inl ⟨st, e, rfl, rfl⟩))
  | eventRecord | recordEventOnLastStream => cases hp; exact .inr (.inr (.inr ⟨_, _, rfl, rfl⟩))
  | pushTileEvent => cases hp; exact .inr (.inr (.inr ⟨_, _, ⟨_, rfl⟩, rfl⟩))
  | eventSynchronize e =>
    simp only [Config.perform] at hp
    split at hp
    · cases hp; exact .inl rfl
    · cases hp
  | gatherWait =>
    simp only [Config.perform] at hp
    split at hp
    · split at hp
      · cases hp; exact .inl rfl
      · cases hp
    · cases hp
  | tileStep d => cases hp; exact .inl (tileStep_device s _ d)
  | storeTile dev id => cases hp; exact .inl (s.storeTile_frame dev id).1
  | _ => cases hp; exact .inl rfl

theorem done_perform (hp : cfg.perform s c = some (t, m)) : t.device.done = s.device.done := by
  rcases device_perform hp with h | ⟨st, x, -, h⟩ | ⟨st, e, -, h⟩ | ⟨e, st, -, h⟩ <;> rw [h]
  · rfl
  · exact s.device.waitEvent_done st e
  · rfl

/-- What is on a stream after a call was there before, or is the copy the call submits. -/
theorem workAt_perform (hp : cfg.perform s c = some (t, m)) {st : Stream} {i : Nat} {x : Copy}
    (hw : t.device.WorkAt st i x) : s.device.WorkAt st i x ∨ c = .copyAsync st x := by
  rcases device_perform hp with h | ⟨st', x', rfl, h⟩ | ⟨st', e, -, h⟩ | ⟨e, st', -, h⟩ <;> rw [h] at hw
  · exact .inl hw
  · refine (s.device.workAt_push hw).imp_right fun hnew => ?_
    obtain ⟨rfl, -, hx⟩ := hnew
    cases hx
    rfl
  · exact .inl (s.device.workAt_waitEvent hw)
  · exact .inl hw

/-- An event keeps its mark unless the call records it. -/
theorem mark_perform (hp : cfg.perform s c = some (t, m)) {e : Event} (he : ¬ c.Records e) :
    t.device.mark e = s.device.mark e := by
  rcases device_perform hp with h | ⟨st, x, -, h⟩ | ⟨st, e', -, h⟩ | ⟨e', st, hr, h⟩ <;> rw [h]
  · rfl
  · rw [s.device.waitEvent_mark]
  · refine s.device.record_mark_of_ne (fun hne => he ?_) st
    rwa [hne]

/-- Two calls change the flags of the staging buffers. -/
theorem pending_perform (hp : cfg.perform s c = some (t, m)) (hd : ∀ b, c ≠ .stagingDone b)
    (hs : ∀ b, c ≠ .stagingSent b) :
    t.poller.stagingEventPending = s.poller.stagingEventPending := by
  cases c with
  | stagingDone b => exact absurd rfl (hd b)
  | stagingSent b => exact absurd rfl (hs b)
  | eventSynchronize e =>
    simp only [Config.perform] at hp
    split at hp
    · cases hp; rfl
    · cases hp
  | gatherWait =>
    simp only [Config.perform] at hp
    split at hp
    · split at hp
      · cases hp; rfl
      · cases hp
    · cases hp
  | tileStep d =>
    cases hp
    unfold Host.tileStep
    dsimp only
    split
    · split
      · rw [(Host.storeTile_frame _ _ _).2]
      · rfl
    · rfl
  | storeTile dev id => cases hp; rw [(s.storeTile_frame dev id).2]
  | _ => cases hp; rfl

end Gfd
