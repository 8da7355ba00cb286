import GfdProof.QueueRuns

/-! # No call of the polling thread blocks for good

A call can be blocked in two places: at an event that is not complete, and at a
gather whose threads are not done.  `Unblocked` says why neither lasts: the
streams are of two layers, so that while anything queued is left some stream can
go on (`WorkStreams`), and a wait for a gather stands behind its gather.

It is kept by every step of the thread and of its environment, in every mode
(`unblocked_step`), and while a call runs one of them can move
(`Unblocked.exists_step`).
-/
namespace Gfd

open WorkStreams Script.Machine

/-! ## The calls that can be left to make -/

/-- The calls outside a gather.  Events are recorded on channels, and `signal_stream_` alone
waits. -/
def Call.Plain : Call → Prop
  | .eventRecord _ st => st ≠ .signal
  | .streamWaitEvent st _ | .makeStreamWaitOnAll st => st = .signal
  | .parallelGather _ _ _ | .gatherWait => False
  | _ => True

/-- Plain calls and gathers, where a wait comes right after its gather; `g` says that the gather a
wait at the head is for is under way. -/
def Ordered : Bool → List Call → Prop
  | _, [] => True
  | g, .gatherWait :: l => g = true ∧ Ordered false l
  | _, .parallelGather _ _ _ :: l => Ordered true l
  | _, c :: l => c.Plain ∧ Ordered false l

/-- Calls that are in order with no gather under way are so with one. -/
theorem Ordered.mono {l : List Call} (h : Ordered false l) (g : Bool) : Ordered g l := by
  cases l with
  | nil => trivial
  | cons c l =>
    cases c with
    | gatherWait => exact absurd h.1 nofun
    | _ => exact h

theorem ordered_cons {g : Bool} {c : Call} (hc : c.Plain) {l : List Call} :
    Ordered g (c :: l) ↔ Ordered false l := by
  cases c with
  | parallelGather | gatherWait => exact hc.elim
  | _ => exact and_iff_right hc

/-- Plain calls may stand anywhere. -/
theorem ordered_append {m l : List Call} (h : ∀ c ∈ m, c.Plain) (hl : Ordered false l) (g : Bool) :
    Ordered g (m ++ l) := by
  induction m generalizing g with
  | nil => exact hl.mono g
  | cons c m ih =>
    obtain ⟨hc, hm⟩ := List.forall_mem_cons.mp h
    exact (ordered_cons hc).mpr (ih hm false)

section Bodies
variable (cfg : Config)

/-- Submitting copies neither gathers nor waits for gathering. -/
theorem plain_submit (p : Poller) (cs : List Copy) : ∀ c ∈ cfg.submit p cs, c.Plain := by
  unfold Config.submit
  dsimp only
  split
  · exact List.forall_mem_nil _
  · refine List.forall_mem_append.mpr ⟨List.forall_mem_map.mpr fun _ _ => trivial,
      List.forall_mem_cons.mpr ⟨trivial, List.forall_mem_map.mpr fun _ _ => ?_⟩⟩
    exact nofun

theorem plain_makeStreamWaitOnAll (p : Poller) :
    ∀ c ∈ cfg.makeStreamWaitOnAll p .signal, c.Plain := by
  intro c hc
  obtain ⟨ch, -, h⟩ := List.mem_flatMap.mp hc
  rcases List.mem_pair.mp h with rfl | rfl
  · exact nofun
  · rfl

theorem plain_tileSignals (tiles : List Nat) : ∀ c ∈ Config.tileSignals tiles, c.Plain := by
  have heach : ∀ c ∈ tiles.map fun t => Call.copyAsync .signal (.tileSignal true t 1), c.Plain :=
    List.forall_mem_map.mpr fun _ _ => trivial
  unfold Config.tileSignals
  dsimp only
  split
  · exact heach
  · split
    · exact List.forall_mem_singleton.mpr trivial
    · exact heach

/-- Neither does a tiled batch. -/
theorem plain_processBatchTiled (groups : List (Nat × List Descriptor)) :
    ∀ c ∈ cfg.processBatchTiled groups, c.Plain := by
  unfold Config.processBatchTiled
  refine List.forall_mem_append.mpr ⟨List.forall_mem_append.mpr ⟨?_,
    List.forall_mem_map.mpr fun _ _ => trivial⟩, ?_⟩
  · split
    · exact List.forall_mem_map.mpr fun _ _ => trivial
    · exact List.forall_mem_nil _
  · split
    · split
      · exact List.forall_mem_cons.mpr ⟨rfl, plain_tileSignals _⟩
      · exact List.forall_mem_singleton.mpr trivial
    · exact List.forall_mem_nil _

/-- Nor a batch of the scatter-gather queue. -/
theorem plain_processBatchSg (groups : List (Nat × List Descriptor)) :
    ∀ c ∈ cfg.processBatchSg groups, c.Plain := by
  unfold Config.processBatchSg
  refine List.forall_mem_append.mpr ⟨List.forall_mem_map.mpr fun _ _ => trivial, ?_⟩
  split
  · refine List.forall_mem_append.mpr ⟨List.forall_mem_cons.mpr ⟨rfl, fun c hc => ?_⟩,
      List.forall_mem_singleton.mpr trivial⟩
    obtain ⟨g, -, h⟩ := List.mem_flatMap.mp hc
    split at h
    · rcases List.mem_pair.mp h with rfl | rfl <;> trivial
    · cases h
  · split
    · refine List.forall_mem_append.mpr ⟨List.forall_mem_cons.mpr ⟨trivial, ?_⟩,
        List.forall_mem_singleton.mpr trivial⟩
      split
      · exact List.forall_mem_map.mpr fun _ _ => trivial
      · exact List.forall_mem_nil _
    · exact List.forall_mem_nil _

/-- What `flush_batch` performs at first is plain; the strategies are called later. -/
theorem plain_flushBatch (batch : List Descriptor) (orFlags curRead : Nat) :
    ∀ c ∈ cfg.flushBatch batch orFlags curRead, c.Plain := by
  have hpair : ∀ {c d : Call}, c.Plain → d.Plain → ∀ e ∈ [c, d], e.Plain := fun hc hd =>
    List.forall_mem_cons.mpr ⟨hc, List.forall_mem_singleton.mpr hd⟩
  unfold Config.flushBatch
  dsimp only
  split
  · exact List.forall_mem_nil _
  · split
    · exact hpair trivial trivial
    · split
      · split
        · exact hpair trivial trivial
        · refine List.forall_mem_append.mpr ⟨hpair trivial trivial, ?_⟩
          split
          · exact List.forall_mem_singleton.mpr trivial
          · exact List.forall_mem_nil _
      · refine List.forall_mem_append.mpr ⟨hpair trivial trivial, ?_⟩
        split
        · exact List.forall_mem_map.mpr fun _ _ => trivial
        · exact List.forall_mem_nil _

theorem plain_pollTileEvents (p : Poller) (complete : Bool) :
    ∀ c ∈ cfg.pollTileEvents p complete, c.Plain := by
  unfold Config.pollTileEvents
  dsimp only
  split
  · refine List.forall_mem_append.mpr ⟨List.forall_mem_map.mpr fun _ _ => trivial, ?_⟩
    simp only [List.forall_mem_cons]
    exact ⟨trivial, trivial, trivial, trivial, List.forall_mem_nil _⟩
  · exact List.forall_mem_nil _

theorem plain_drainTileEvents (p : Poller) : ∀ c ∈ Config.drainTileEvents p, c.Plain := by
  unfold Config.drainTileEvents
  dsimp only
  split
  · refine List.forall_mem_append.mpr ⟨List.forall_mem_map.mpr fun _ _ => trivial, ?_⟩
    simp only [List.forall_mem_cons]
    exact ⟨trivial, trivial, trivial, List.forall_mem_nil _⟩
  · exact List.forall_mem_nil _

theorem plain_settleStaging (p : Poller) : ∀ c ∈ Config.settleStaging p, c.Plain := by
  unfold Config.settleStaging
  split
  · exact List.forall_mem_cons.mpr ⟨trivial, List.forall_mem_singleton.mpr trivial⟩
  · exact List.forall_mem_nil _

theorem plain_settleAsync (p : Poller) : ∀ c ∈ Config.settleAsync p, c.Plain := by
  unfold Config.settleAsync
  split
  · simp only [List.forall_mem_cons]
    exact ⟨trivial, trivial, trivial, List.forall_mem_nil _⟩
  · exact List.forall_mem_nil _

theorem plain_idle (p : Poller) : ∀ c ∈ Config.idle p, c.Plain := by
  unfold Config.idle
  split
  · exact List.forall_mem_singleton.mpr trivial
  · split
    · exact List.forall_mem_cons.mpr ⟨trivial, List.forall_mem_singleton.mpr trivial⟩
    · exact List.forall_mem_nil _

theorem plain_finish (p : Poller) : ∀ c ∈ Config.finish p, c.Plain := by
  unfold Config.finish
  refine List.forall_mem_append.mpr ⟨?_, List.forall_mem_cons.mpr ⟨trivial,
    List.forall_mem_singleton.mpr trivial⟩⟩
  split
  · simp only [List.forall_mem_cons]
    exact ⟨trivial, trivial, trivial, List.forall_mem_nil _⟩
  · exact List.forall_mem_nil _

theorem plain_waitCompletion (p : Poller) : ∀ c ∈ cfg.waitCompletion p, c.Plain :=
  List.forall_mem_append.mpr ⟨List.forall_mem_map.mpr fun _ _ => trivial,
    List.forall_mem_singleton.mpr trivial⟩

theorem plain_processBatchNoCe (batch : List Descriptor) :
    ∀ c ∈ cfg.processBatchNoCe batch, c.Plain := List.forall_mem_map.mpr fun _ _ => trivial

/-- The calls of `process_batch`. -/
theorem ordered_processBatch (p : Poller) (batch : List Descriptor) (g : Bool) {l : List Call}
    (hl : Ordered false l) : Ordered g (cfg.processBatch p batch ++ l) := by
  unfold Config.processBatch
  dsimp only
  split
  · refine ordered_append ?_ hl g
    exact List.forall_mem_singleton.mpr trivial
  · exact ⟨trivial, rfl, trivial, trivial, trivial, hl⟩

end Bodies

/-! ## The invariant -/

/-- Streams on which events are recorded. -/
abbrev Channel (st : Stream) : Prop := st ≠ .signal

/-- Nothing the thread is or will be waiting for stays away. -/
structure Unblocked (s : Script.State Host Call) : Prop where
  valid : s.data.device.Valid
  layered : s.data.device.Layered Channel
  ordered : Ordered s.data.gathering.isSome s.todo

theorem channel_ce (ch : Nat) : Channel (.ce ch) := nofun

section Steps
variable {cfg : Config} {s t : Host} {g : Bool} {c : Call} {rest m : List Call}

/-- The counters of tiles are not the device. -/
theorem tileStep_device (s : Host) (dev : Bool) (d : Descriptor) :
    (s.tileStep dev d).device = s.device := by
  unfold Host.tileStep
  dsimp only
  split
  · split
    · exact (Host.storeTile_frame _ _ _).1
    · rfl
  · rfl

/-- A call leaves the streams in their layers. -/
theorem layered_perform (hv : s.device.Valid) (hl : s.device.Layered Channel)
    (hc : Ordered g (c :: rest)) (hp : cfg.perform s c = some (t, m)) :
    t.device.Valid ∧ t.device.Layered Channel := by
  cases c with
  | copyAsync st c => cases hp; exact ⟨hv.submit st c, hl.submit st c⟩
  | eventRecord e st => cases hp; exact ⟨hv.record e st, hl.record e hc.1⟩
  | streamWaitEvent st e =>
    cases hp
    obtain rfl : st = .signal := hc.1
    exact ⟨hv.waitEvent _ e, hl.waitEvent (fun h => h rfl) e⟩
  | recordEventOnLastStream e => cases hp; exact ⟨hv.record e _, hl.record e (channel_ce _)⟩
  | pushTileEvent batch curRead => cases hp; exact ⟨hv.record _ _, hl.record _ (channel_ce _)⟩
  | eventSynchronize e =>
    simp only [Config.perform] at hp
    split at hp
    · cases hp; exact ⟨hv, hl⟩
    · cases hp
  | gatherWait =>
    simp only [Config.perform] at hp
    split at hp
    · split at hp
      · cases hp; exact ⟨hv, hl⟩
      · cases hp
    · cases hp
  | tileStep d => cases hp; rw [tileStep_device]; exact ⟨hv, hl⟩
  | storeTile dev t => cases hp; rw [(s.storeTile_frame dev t).1]; exact ⟨hv, hl⟩
  | _ => cases hp; exact ⟨hv, hl⟩

/-- A call leaves the calls after it in order, behind those it expands into. -/
theorem ordered_perform (hc : Ordered s.gathering.isSome (c :: rest))
    (hp : cfg.perform s c = some (t, m)) : Ordered t.gathering.isSome (m ++ rest) := by
  cases c with
  | parallelGather es b base => cases hp; exact hc
  | gatherWait =>
    simp only [Config.perform] at hp
    split at hp
    · split at hp
      · cases hp; exact hc.2
      · cases hp
    · cases hp
  | eventSynchronize e =>
    simp only [Config.perform] at hp
    split at hp
    · cases hp; exact hc.2.mono _
    · cases hp
  | submit cs => cases hp; exact ordered_append (plain_submit cfg _ cs) hc.2 _
  | waitCompletion => cases hp; exact ordered_append (plain_waitCompletion cfg _) hc.2 _
  | makeStreamWaitOnAll st =>
    obtain rfl : st = .signal := hc.1
    cases hp
    exact ordered_append (plain_makeStreamWaitOnAll cfg _) hc.2 _
  | processBatch batch => cases hp; exact ordered_processBatch cfg _ batch _ hc.2
  | stagingWait b =>
    cases hp
    refine ordered_append ?_ hc.2 _
    split
    · exact List.forall_mem_cons.mpr ⟨trivial, List.forall_mem_singleton.mpr trivial⟩
    · exact List.forall_mem_nil _
  | processBatchNoCe batch => cases hp; exact ordered_append (plain_processBatchNoCe cfg batch) hc.2 _
  | processBatchTiled batch => cases hp; exact ordered_append (plain_processBatchTiled cfg _) hc.2 _
  | processBatchSg batch => cases hp; exact ordered_append (plain_processBatchSg cfg _) hc.2 _
  | flushBatch batch orFlags curRead =>
    cases hp; exact ordered_append (plain_flushBatch cfg batch orFlags curRead) hc.2 _
  | pollTileEvents => cases hp; exact ordered_append (plain_pollTileEvents cfg _ _) hc.2 _
  | drainTileEvents => cases hp; exact ordered_append (plain_drainTileEvents _) hc.2 _
  | idle => cases hp; exact ordered_append (plain_idle _) hc.2 _
  | finish => cases hp; exact ordered_append (plain_finish _) hc.2 _
  | settleStaging => cases hp; exact ordered_append (plain_settleStaging _) hc.2 _
  | settleAsync => cases hp; exact ordered_append (plain_settleAsync _) hc.2 _
  | _ => cases hp; exact hc.2.mono _

end Steps

/-- What the environment does to the device and to the gather under way. -/
theorem unblocked_env {s t : Host} {e : HostEnv} {l : List Call} (hs : Unblocked ⟨s, l⟩)
    (h : s.env e = some t) : Unblocked ⟨t, l⟩ := by
  cases e with
  | advance st =>
    obtain ⟨hr, ⟨c, -, rfl⟩ | ⟨u, n, -, rfl⟩⟩ := Host.advance_cases h
    · refine ⟨?_, ?_, ?_⟩
      · rw [Host.transfer_device]
        exact hs.valid.advance hr
      · rw [Host.transfer_device]
        exact hs.layered.advance st
      · rw [Host.transfer_gathering]
        exact hs.ordered
    · exact ⟨hs.valid.advance hr, hs.layered.advance st, hs.ordered⟩
  | gather k =>
    obtain ⟨g, e, es, hg, -, rfl⟩ := Host.gather_cases h
    have hordered := hs.ordered
    dsimp only at hordered
    rw [hg] at hordered
    exact ⟨hs.valid, hs.layered, hordered⟩

/-- No step of the thread, the device or a worker blocks the thread for good. -/
theorem unblocked_step {cfg : Config} {s t : Script.State Host Call} {a : Script.Act HostEnv}
    (hs : Unblocked s) (h : cfg.machine.step s a = some t) : Unblocked t := by
  cases a with
  | perform =>
    simp only [Script.Machine.step] at h
    cases htodo : s.todo with
    | nil =>
      rw [htodo] at h
      cases h
    | cons c rest =>
      rw [htodo] at h
      obtain ⟨⟨u, m⟩, hp, rfl⟩ := Option.map_eq_some_iff.mp h
      have hordered := hs.ordered
      rw [htodo] at hordered
      obtain ⟨hv, hl⟩ := layered_perform hs.valid hs.layered hordered hp
      exact ⟨hv, hl, ordered_perform hordered hp⟩
  | env e =>
    obtain ⟨u, hu, rfl⟩ := Option.map_eq_some_iff.mp h
    exact unblocked_env hs hu

/-! ## Progress -/

/-- The environment can move: a stream, or a thread of the gather. -/
def Host.Moving (s : Host) : Prop := ∃ e t, s.env e = some t

/-- A device that can go on is moving. -/
theorem Host.moving_of_runnable {s : Host} {st : Stream} (h : s.device.runnable st = true) :
    s.Moving := by
  refine ⟨.advance st, ?_⟩
  simp only [Host.env, Host.advance, h, if_true]
  split <;> exact ⟨_, rfl⟩

/-- Where the environment cannot move, everything queued has been performed. -/
theorem Unblocked.settled {s : Script.State Host Call} (hs : Unblocked s) (h : ¬ s.data.Moving) :
    s.data.device.Settled :=
  hs.layered.settled hs.valid fun _ => Bool.eq_false_iff.mpr fun hr => h (Host.moving_of_runnable hr)

/-- **A call does not block for good.**  While calls are left, the thread can make the next one or
the environment can move. -/
theorem Unblocked.exists_step {cfg : Config} {s : Script.State Host Call} (hs : Unblocked s)
    (hne : s.todo ≠ []) : s.data.Moving ∨ ∃ t, cfg.machine.step s .perform = some t := by
  by_cases hm : s.data.Moving
  · exact .inl hm
  · right
    obtain ⟨c, rest, htodo⟩ := List.exists_cons_of_ne_nil hne
    suffices h : ∃ r, cfg.perform s.data c = some r by
      obtain ⟨r, hr⟩ := h
      refine ⟨⟨r.1, r.2 ++ rest⟩, ?_⟩
      simp only [Script.Machine.step, htodo]
      exact congrArg (Option.map _) hr
    cases c with
    | eventSynchronize e =>
      exact ⟨_, if_pos (hs.layered.complete (hs.settled hm) e)⟩
    | gatherWait =>
      have hordered := hs.ordered
      rw [htodo] at hordered
      obtain ⟨g, hg⟩ := Option.isSome_iff_exists.mp hordered.1
      have hdone : g.chunks.all List.isEmpty = true := by
        refine List.all_eq_true.mpr fun l hl => ?_
        obtain ⟨k, hk⟩ := List.mem_iff_getElem?.mp hl
        cases l with
        | nil => rfl
        | cons e es => exact absurd ⟨.gather k, _, by simp only [Host.env, Host.gather, hg, hk]; rfl⟩ hm
      refine ⟨({ s.data with gathering := none }, []), ?_⟩
      simp only [Config.perform, hg, hdone, if_true]
    | _ => exact ⟨_, rfl⟩

end Gfd
