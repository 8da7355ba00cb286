import Mathlib
import GfdProof.BatchDelivery
import GfdProof.QueueCompletion

/-! # `done_idx` in every mode without pending tile events

The thread stores `done_idx` behind the copies of a batch that the CPU makes, and from
`latest_async_read_` behind a wait for every channel; with a tiled queue and no signal buffer it
stores it from pending tile events as well, which is left out here (`Undeferred`).  The copies of
data are submitted on channels, by whichever function a batch is handed to, and only while it is
flushed (`Feeds`).  So behind the wait none is left to perform, and any bound on the slots flushed
may be published.

That carries over to whole runs as in `QueueCompletion`, for tiles, lists and the CPU alike
(`published_of_reachable`); and when the thread has been stopped, everything popped has been
published and performed.
-/
namespace Gfd

open Transition WorkStreams Script.Machine

/-- No batch leaves a pending tile event. -/
def Config.Undeferred (cfg : Config) : Prop :=
  cfg.useCe = true → cfg.tiledQueue = true → cfg.tileSignalBuf = true

namespace PublishedSlots

open BatchDelivery (Emptied stable_emptied)
open Completion (CopiesDone)
open Loop (flushedCount)

variable {cfg : Config} {lo hi m n : Nat} {s t : Host}

/-! ## What is published -/

/-- Nothing above `n` is published, now or from what the thread has put down. -/
structure AtMost (n : Nat) (s : Host) : Prop where
  doneIdx : s.doneIdx ≤ n
  latest : s.poller.latestAsyncRead ≤ n
  events : ∀ slot, (s.poller.pendingTileEvents slot).doneValue ≤ n

/-- The calls that put down or publish a value only up to `n`. -/
def UpTo (n : Nat) : Call → Prop
  | .flushBatch _ _ v | .setAsync v | .storeDone v | .pushTileEvent _ v | .raiseDone v => v ≤ n
  | _ => True

theorem AtMost.mono {m : Nat} (hs : AtMost m s) (h : m ≤ n) : AtMost n s :=
  ⟨hs.doneIdx.trans h, hs.latest.trans h, fun slot => (hs.events slot).trans h⟩

theorem stable_atMost (n : Nat) : cfg.machine.Stable (AtMost n) := stable_env cfg fun _ _ h hs =>
  ⟨by rw [h.doneIdx]; exact hs.doneIdx, by rw [h.poller]; exact hs.latest,
    by rw [h.poller]; exact hs.events⟩

/-- The value of a tile event is one that was put down. -/
theorem upTo_expands {c c' : Call} (h : c.Expands c') (hc : UpTo n c) (hpoll : c ≠ .pollTileEvents)
    (hdrain : c ≠ .drainTileEvents) : UpTo n c' := by
  cases h with
  | setAsync | pushTileEvent | storeDone => exact hc
  | pollRaise => exact absurd rfl hpoll
  | drainRaise => exact absurd rfl hdrain
  | _ => trivial

theorem upTo_pollTileEvents (hs : AtMost n s) (complete : Bool) :
    ∀ c ∈ cfg.pollTileEvents s.poller complete, UpTo n c := by
  unfold Config.pollTileEvents
  dsimp only
  split
  · refine List.forall_mem_append.mpr ⟨List.forall_mem_map.mpr fun _ _ => trivial, ?_⟩
    simp only [List.forall_mem_cons]
    exact ⟨hs.events _, trivial, trivial, trivial, List.forall_mem_nil _⟩
  · exact List.forall_mem_nil _

theorem upTo_drainTileEvents (hs : AtMost n s) : ∀ c ∈ Config.drainTileEvents s.poller, UpTo n c := by
  unfold Config.drainTileEvents
  dsimp only
  split
  · refine List.forall_mem_append.mpr ⟨List.forall_mem_map.mpr fun _ _ => trivial, ?_⟩
    simp only [List.forall_mem_cons]
    exact ⟨hs.events _, trivial, trivial, List.forall_mem_nil _⟩
  · exact List.forall_mem_nil _

theorem upTo_body {c : Call} {m : List Call} (hs : AtMost n s) (hc : UpTo n c)
    (hp : cfg.perform s c = some (t, m)) : ∀ c' ∈ m, UpTo n c' := by
  by_cases hpoll : c = .pollTileEvents
  · subst hpoll
    cases hp
    exact upTo_pollTileEvents hs _
  by_cases hdrain : c = .drainTileEvents
  · subst hdrain
    cases hp
    exact upTo_drainTileEvents hs
  intro c' hm
  exact upTo_expands (expands_perform hp c' hm) hc hpoll hdrain

theorem AtMost.perform {c : Call} {m : List Call} (hs : AtMost n s) (hc : UpTo n c)
    (hp : cfg.perform s c = some (t, m)) : AtMost n t := by
  obtain ⟨hdone, hlatest, hevents⟩ := hs
  cases c with
  | setAsync v => cases hp; exact ⟨hdone, hc, hevents⟩
  | storeDone v => cases hp; exact ⟨(Nat.mod_le v _).trans hc, hlatest, hevents⟩
  | publishDone => cases hp; exact ⟨(Nat.mod_le _ _).trans hlatest, hlatest, hevents⟩
  | raiseDone v =>
    cases hp
    refine ⟨?_, hlatest, hevents⟩
    dsimp only
    split
    · exact (Nat.mod_le v _).trans hc
    · exact hdone
  | pushTileEvent batch v =>
    cases hp
    refine ⟨hdone, hlatest, fun slot => ?_⟩
    unfold Host.pushTileEvent
    dsimp only
    by_cases hslot : slot = s.poller.tileEventHead
    · subst hslot
      rw [Function.update_self]
      exact hc
    · rw [Function.update_of_ne hslot]
      exact hevents slot
  | eventSynchronize e =>
    simp only [Config.perform] at hp
    split at hp
    · cases hp; exact ⟨hdone, hlatest, hevents⟩
    · cases hp
  | gatherWait =>
    simp only [Config.perform] at hp
    split at hp
    · split at hp
      · cases hp; exact ⟨hdone, hlatest, hevents⟩
      · cases hp
    · cases hp
  | tileStep d =>
    cases hp
    unfold Host.tileStep Host.storeTile
    dsimp only
    split_ifs <;> exact ⟨hdone, hlatest, hevents⟩
  | storeTile dev id =>
    cases hp
    unfold Host.storeTile
    dsimp only
    split <;> exact ⟨hdone, hlatest, hevents⟩
  | _ => cases hp; exact ⟨hdone, hlatest, hevents⟩

/-- **Nothing above `n` is published** by calls for values up to `n`. -/
theorem always_atMost {l : List Call} (hl : ∀ c ∈ l, UpTo n c) :
    cfg.machine.Triple (.always (AtMost n)) (AtMost n) l (AtMost n) :=
  Triple.closed (stable_atMost n) (fun _ h => h) (fun _ hc => .inr fun _ hs => ⟨trivial,
    fun _ _ hp => ⟨hs.perform hc hp, upTo_body hs hc hp⟩⟩) hl

/-! ## Feeding the channels -/

/-- Descriptors that a copy may be submitted for. -/
def Serves (cfg : Config) (lo hi : Nat) (ds : List Descriptor) : Prop :=
  cfg.useCe = true ∧ ∀ d ∈ ds, lo ≤ d.slot ∧ d.slot < hi

/-- The calls that submit data for slots from `lo` to `hi`, on channels, or none, and that touch
neither `done_idx` nor what is put down for it. -/
def Feeds (cfg : Config) (lo hi : Nat) : Call → Prop
  | .copyAsync st c => ∀ e ds, c = .data e ds → (∃ ch, st = .ce ch) ∧ Serves cfg lo hi ds
  | .submit cs => ∀ c ∈ cs, ∀ e ds, c = .data e ds → Serves cfg lo hi ds
  | .processBatch b | .processBatchTiled b | .processBatchSg b => Serves cfg lo hi b
  | .flushBatch .. | .setAsync _ | .clearAsync | .storeDone _ | .publishDone | .raiseDone _
  | .pushTileEvent .. | .retireTileEvent | .asyncWhileInflight | .pollTileEvents | .drainTileEvents
  | .idle | .finish | .settleAsync => False
  | _ => True

theorem Serves.sub {b ds : List Descriptor} (h : Serves cfg lo hi b) (hsub : ∀ d ∈ ds, d ∈ b) :
    Serves cfg lo hi ds := ⟨h.1, fun d hd => h.2 d (hsub d hd)⟩

theorem feeds_expands {c c' : Call} (h : c.Expands c') (hc : Feeds cfg lo hi c)
    (htiled : ∀ b, c ≠ .processBatchTiled b) (hsg : ∀ b, c ≠ .processBatchSg b) : Feeds cfg lo hi c' := by
  have hcopies : ∀ {b : List Descriptor} (es : List SGEntry), Serves cfg lo hi b →
      Feeds cfg lo hi (.submit (Config.dataCopies b es)) := fun es hb =>
    List.forall_mem_map.mpr fun e _ e' ds h => by
      cases h
      exact hb
  cases h with
  | copyAsync ch hx => exact fun e ds h => ⟨⟨ch, rfl⟩, hc _ hx e ds h⟩
  | direct | staged => exact hcopies _ hc
  | tileData | tileWait | tileSignal | tileSignals | addProgress => exact absurd rfl (htiled _)
  | sgData | sgWait | storeSignal | listSignal | sgSync | storeListDone | addListsCompleted =>
    exact absurd rfl (hsg _)
  | processBatchSg | processBatchTiled | processBatch | processBatchNoCe | setAsync | pushTileEvent
  | storeDone | tileStep | pollStore | pollRaise | pollRetire | pollAsync | pollAgain | drainStore
  | drainRaise | drainRetire | drainAgain | idlePoll | idleStaging | idleAsync | finishSync | finishDrain
  | finishClear | finishStaging | finishAsync | asyncSync | publishDone | clearAsync => exact hc.elim
  | _ => trivial

/-- Submissions for parts of the groups. -/
theorem feeds_submits {batch : List Descriptor} (hb : Serves cfg lo hi batch)
    {ess : List (List (SGEntry × List Descriptor))} (h : ∀ es ∈ ess, ∀ e ∈ es, ∀ d ∈ e.2, d ∈ batch) :
    ∀ c ∈ ess.map fun es => Call.submit (es.map fun e => .data e.1 e.2), Feeds cfg lo hi c := by
  refine List.forall_mem_map.mpr fun es hes => List.forall_mem_map.mpr fun e he e' ds heq => ?_
  cases heq
  exact hb.sub (h es hes e he)

theorem mem_of_tiledEntries {groups : List (List Descriptor)} {batch : List Descriptor}
    (hg : ∀ g ∈ groups, ∀ d ∈ g, d ∈ batch) : ∀ es ∈ tiledEntries groups, ∀ e ∈ es, ∀ d ∈ e.2, d ∈ batch := by
  unfold tiledEntries
  dsimp only
  split
  · refine List.forall_mem_singleton.mpr (List.forall_mem_singleton.mpr fun d hd => ?_)
    obtain ⟨g, hgm, hdm⟩ := List.mem_flatten.mp hd
    exact hg g hgm d hdm
  · exact List.forall_mem_map.mpr fun g hgm e he d hd => hg g hgm d (mem_of_groupEntries he hd)

theorem mem_of_grouped {bound : Nat} {batch : List Descriptor} {groups : List (Nat × List Descriptor)}
    (h : Grouped bound batch groups) : ∀ g ∈ groups.map Prod.snd, ∀ d ∈ g, d ∈ batch := by
  refine List.forall_mem_map.mpr fun g hg d hd => ?_
  rw [(h.group g hg).2] at hd
  exact List.mem_of_mem_filter hd

theorem feeds_tileSignals (tiles : List Nat) : ∀ c ∈ Config.tileSignals tiles, Feeds cfg lo hi c := by
  have heach : ∀ c ∈ tiles.map fun t => Call.copyAsync .signal (.tileSignal true t 1), Feeds cfg lo hi c :=
    List.forall_mem_map.mpr fun t _ e ds h => by cases h
  unfold Config.tileSignals
  dsimp only
  split
  · exact heach
  · split
    · exact List.forall_mem_singleton.mpr fun e ds h => by cases h
    · exact heach

theorem feeds_processBatchTiled {batch : List Descriptor} {groups : List (Nat × List Descriptor)}
    (hb : Serves cfg lo hi batch) (hg : Grouped maxTiles batch groups) :
    ∀ c ∈ cfg.processBatchTiled groups, Feeds cfg lo hi c := by
  unfold Config.processBatchTiled
  dsimp only
  refine List.forall_mem_append.mpr ⟨List.forall_mem_append.mpr ⟨?_, ?_⟩, ?_⟩
  · split
    · exact List.forall_mem_map.mpr fun _ _ => trivial
    · exact List.forall_mem_nil _
  · exact feeds_submits hb (mem_of_tiledEntries (mem_of_grouped hg))
  · split
    · split
      · exact List.forall_mem_cons.mpr ⟨trivial, feeds_tileSignals _⟩
      · exact List.forall_mem_singleton.mpr (List.forall_mem_map.mpr fun t _ e ds h => by cases h)
    · exact List.forall_mem_nil _

theorem feeds_processBatchSg {batch : List Descriptor} {groups : List (Nat × List Descriptor)}
    (hb : Serves cfg lo hi batch) (hg : Grouped maxSgLists batch groups) :
    ∀ c ∈ cfg.processBatchSg groups, Feeds cfg lo hi c := by
  have hmem : ∀ es ∈ (groups.map Prod.snd).map groupEntries, ∀ e ∈ es, ∀ d ∈ e.2, d ∈ batch :=
    List.forall_mem_map.mpr fun g hgm e he d hd => mem_of_grouped hg g hgm d (mem_of_groupEntries he hd)
  have hsubmits : ∀ c ∈ _, Feeds cfg lo hi c := feeds_submits hb hmem
  rw [List.map_map, List.map_map] at hsubmits
  unfold Config.processBatchSg
  refine List.forall_mem_append.mpr ⟨hsubmits, ?_⟩
  split
  · refine List.forall_mem_append.mpr ⟨List.forall_mem_cons.mpr ⟨trivial, fun c hc => ?_⟩,
      List.forall_mem_singleton.mpr trivial⟩
    obtain ⟨g, -, hc⟩ := List.mem_flatMap.mp hc
    split at hc
    · rcases List.mem_pair.mp hc with rfl | rfl
      · trivial
      · exact fun e ds h => by cases h
    · cases hc
  · split
    · refine List.forall_mem_append.mpr ⟨List.forall_mem_cons.mpr ⟨trivial, ?_⟩,
        List.forall_mem_singleton.mpr trivial⟩
      split
      · exact List.forall_mem_map.mpr fun _ _ => trivial
      · exact List.forall_mem_nil _
    · exact List.forall_mem_nil _

/-- The body of such a call consists of such calls. -/
theorem feeds_body {c : Call} {l : List Call} (hs : Emptied s) (hc : Feeds cfg lo hi c)
    (hp : cfg.perform s c = some (t, l)) : ∀ c' ∈ l, Feeds cfg lo hi c' := by
  by_cases htiled : ∃ b, c = .processBatchTiled b
  · obtain ⟨b, rfl⟩ := htiled
    cases hp
    rw [hs.tiles]
    exact feeds_processBatchTiled hc (groupBatch_spec maxTiles b).1
  by_cases hsg : ∃ b, c = .processBatchSg b
  · obtain ⟨b, rfl⟩ := hsg
    cases hp
    rw [hs.lists]
    exact feeds_processBatchSg hc (groupBatch_spec maxSgLists b).1
  intro c' hm
  exact feeds_expands (expands_perform hp c' hm) hc (fun b h => htiled ⟨b, h⟩) fun b h => hsg ⟨b, h⟩

/-- The difference such a call can make. -/
structure Fed (cfg : Config) (lo hi : Nat) (s t : Host) : Prop where
  doneIdx : t.doneIdx = s.doneIdx
  done : t.device.done = s.device.done
  inflight : t.poller.tileEventsInflight = s.poller.tileEventsInflight
  async : t.poller.hasAsyncDma = s.poller.hasAsyncDma
  latest : t.poller.latestAsyncRead = s.poller.latestAsyncRead
  work : ∀ st i e ds, t.device.WorkAt st i (.data e ds) → s.device.WorkAt st i (.data e ds) ∨
    (∃ ch, st = .ce ch) ∧ Serves cfg lo hi ds

theorem fed_perform {c : Call} {l : List Call} (hc : Feeds cfg lo hi c)
    (hp : cfg.perform s c = some (t, l)) : Fed cfg lo hi s t := by
  have hdone := done_perform hp
  have hwork : ∀ st i e ds, t.device.WorkAt st i (.data e ds) → s.device.WorkAt st i (.data e ds) ∨
      (∃ ch, st = .ce ch) ∧ Serves cfg lo hi ds := by
    intro st i e ds hw
    refine (workAt_perform hp hw).imp_right fun h => ?_
    subst h
    exact hc e ds rfl
  cases c with
  | setAsync | clearAsync | storeDone | publishDone | raiseDone | pushTileEvent | retireTileEvent
  | asyncWhileInflight => exact hc.elim
  | eventSynchronize e =>
    simp only [Config.perform] at hp
    split at hp
    · cases hp; exact ⟨rfl, hdone, rfl, rfl, rfl, hwork⟩
    · cases hp
  | gatherWait =>
    simp only [Config.perform] at hp
    split at hp
    · split at hp
      · cases hp; exact ⟨rfl, hdone, rfl, rfl, rfl, hwork⟩
      · cases hp
    · cases hp
  | tileStep d =>
    cases hp
    refine ⟨?_, hdone, ?_, ?_, ?_, hwork⟩ <;> unfold Host.tileStep Host.storeTile <;> dsimp only <;>
      split_ifs <;> rfl
  | storeTile dev id =>
    cases hp
    refine ⟨?_, hdone, ?_, ?_, ?_, hwork⟩ <;> unfold Host.storeTile <;> dsimp only <;> split <;> rfl
  | _ => cases hp; exact ⟨rfl, hdone, rfl, rfl, rfl, hwork⟩

/-- **The frame of feeding.**  An assertion kept by the environment and by every difference such a
call can make is kept by such calls. -/
theorem fed_triple {P : Host → Prop} (hP : cfg.machine.Stable P)
    (hfed : ∀ s t, Fed cfg lo hi s t → P s → P t) {l : List Call} (hl : ∀ c ∈ l, Feeds cfg lo hi c) :
    cfg.machine.Triple ⟨P, fun c _ => Feeds cfg lo hi c⟩ (fun s => Emptied s ∧ P s) l
      fun s => Emptied s ∧ P s :=
  Triple.closed (stable_emptied.and hP) (fun _ h => h.2) (fun _ hc => .inr fun s hs => ⟨hc,
    fun t _ hp => ⟨⟨hs.1.perform hp, hfed s t (fed_perform hc hp) hs.2⟩, feeds_body hs.1 hc hp⟩⟩) hl

/-! ## The host between calls -/

/-- The copies submitted are for slots below `n`, on channels, and none for a slot below `done_idx`
is left to perform. -/
structure Sound (cfg : Config) (n : Nat) (s : Host) : Prop where
  work : ∀ st i e ds, s.device.WorkAt st i (.data e ds) → (∃ ch, st = .ce ch) ∧ Serves cfg 0 n ds
  copies : CopiesDone s s.doneIdx
  noEvents : s.poller.tileEventsInflight = 0

/-- What the thread's variables say between calls, after `n` slots have been flushed. -/
structure Books (cfg : Config) (n : Nat) (s : Host) : Prop where
  sound : Sound cfg n s
  done_le : s.doneIdx ≤ n
  async : s.poller.hasAsyncDma = true → cfg.useCe = true ∧ s.poller.latestAsyncRead = n
  settled : s.poller.hasAsyncDma = false → s.doneIdx = word n ∧ ∀ k, CopiesDone s k

/-- While a batch for the slots from `m` to `n` is processed. -/
structure Processing (cfg : Config) (m n : Nat) (s : Host) : Prop where
  sound : Sound cfg n s
  done_le : s.doneIdx ≤ m
  async : s.poller.hasAsyncDma = true → cfg.useCe = true

/-- The host between calls. -/
def Rest (cfg : Config) (n : Nat) (s : Host) : Prop := s.Quiet cfg ∧ Emptied s ∧ Books cfg n s

/-- `done_idx` is not lowered by the calls that store it. -/
def Raises (n : Nat) : Call → Host → Prop
  | .publishDone, s => n < wordSize → s.doneIdx ≤ word s.poller.latestAsyncRead
  | .storeDone v, s => n < wordSize → s.doneIdx ≤ word v
  | _, _ => True

/-- What a call has to keep while `n` slots have been flushed or, where `flushing`, are being
flushed. -/
def promise (cfg : Config) (flushing : Bool) (n : Nat) : Spec Host Call :=
  ⟨fun s => (s.doneIdx ≤ n ∧ CopiesDone s s.doneIdx) ∧ (flushing = false → Books cfg n s), Raises n⟩

theorem CopiesDone.env (h : s.EnvStep t) (hs : CopiesDone s n) : CopiesDone t n := fun st i e ds hw hd =>
  Nat.lt_of_lt_of_le (hs st i e ds (Completion.workAt_env h hw) hd) (h.done_le st)

theorem Sound.env (h : s.EnvStep t) (hs : Sound cfg n s) : Sound cfg n t where
  work st i e ds hw := hs.work st i e ds (Completion.workAt_env h hw)
  copies := by rw [h.doneIdx]; exact CopiesDone.env h hs.copies
  noEvents := by rw [h.poller]; exact hs.noEvents

theorem Books.env (h : s.EnvStep t) (hs : Books cfg n s) : Books cfg n t where
  sound := hs.sound.env h
  done_le := by rw [h.doneIdx]; exact hs.done_le
  async := by rw [h.poller]; exact hs.async
  settled ha := by
    rw [h.poller] at ha
    obtain ⟨hdone, hcopies⟩ := hs.settled ha
    exact ⟨h.doneIdx.trans hdone, fun k => CopiesDone.env h (hcopies k)⟩

theorem stable_rest (cfg : Config) (n : Nat) : cfg.machine.Stable (Rest cfg n) :=
  (stable_covered cfg).and (stable_emptied.and (stable_env cfg fun _ _ h hs => hs.env h))

theorem stable_processing (m n : Nat) : cfg.machine.Stable (Processing cfg m n) :=
  stable_env cfg fun _ _ h hs => ⟨hs.sound.env h, by rw [h.doneIdx]; exact hs.done_le,
    by rw [h.poller]; exact hs.async⟩

/-- A copy that is fed serves no slot below `done_idx`. -/
theorem Sound.fed (hs : Sound cfg hi s) (h : Fed cfg lo hi s t) (hle : s.doneIdx ≤ lo) : Sound cfg hi t where
  work st i e ds hw := (h.work st i e ds hw).elim (hs.work st i e ds) fun hnew =>
    ⟨hnew.1, hnew.2.1, fun d hd => ⟨Nat.zero_le _, (hnew.2.2 d hd).2⟩⟩
  copies st i e ds hw hd := by
    rw [h.doneIdx] at hd
    rw [h.done]
    rcases h.work st i e ds hw with hw | ⟨-, hnew⟩
    · exact hs.copies st i e ds hw hd
    · obtain ⟨d, hmem, hlt⟩ := hd
      exact absurd ((hle.trans (hnew.2 d hmem).1).trans_lt hlt) (Nat.lt_irrefl _)
  noEvents := h.inflight.trans hs.noEvents

theorem Processing.fed (hs : Processing cfg m n s) (h : Fed cfg m n s t) : Processing cfg m n t :=
  ⟨hs.sound.fed h hs.done_le, h.doneIdx ▸ hs.done_le, h.async ▸ hs.async⟩

theorem Books.fed (hs : Books cfg n s) (h : Fed cfg n n s t) : Books cfg n t where
  sound := hs.sound.fed h hs.done_le
  done_le := h.doneIdx ▸ hs.done_le
  async := by rw [h.async, h.latest]; exact hs.async
  settled ha := by
    rw [h.async] at ha
    obtain ⟨hdone, hcopies⟩ := hs.settled ha
    refine ⟨h.doneIdx.trans hdone, fun k st i e ds hw hd => ?_⟩
    rw [h.done]
    rcases h.work st i e ds hw with hw | ⟨-, hnew⟩
    · exact hcopies k st i e ds hw hd
    · obtain ⟨d, hmem, -⟩ := hd
      exact absurd ((hnew.2 d hmem).1.trans_lt (hnew.2 d hmem).2) (Nat.lt_irrefl _)

theorem Books.inv (hs : Books cfg n s) (flushing : Bool) : (promise cfg flushing n).inv s :=
  ⟨⟨hs.done_le, hs.sound.copies⟩, fun _ => hs⟩

theorem Rest.inv (flushing : Bool) (s : Host) (hs : Rest cfg n s) : (promise cfg flushing n).inv s :=
  hs.2.2.inv flushing

theorem Processing.inv (hs : Processing cfg m n s) (hmn : m ≤ n) : (promise cfg true n).inv s :=
  ⟨⟨hs.done_le.trans hmn, hs.sound.copies⟩, fun h => by cases h⟩

theorem raises_of_feeds {c : Call} (hc : Feeds cfg lo hi c) : Raises n c s := by
  cases c with
  | publishDone | storeDone => exact hc.elim
  | _ => trivial

/-- Calls that feed nothing. -/
theorem rest_feeds (flushing : Bool) {l : List Call} (ho : ∀ c ∈ l, c.Outer) (hl : ∀ c ∈ l, Feeds cfg n n c) :
    cfg.machine.Triple (promise cfg flushing n) (Rest cfg n) l (Rest cfg n) := by
  have hbooks := fed_triple (P := Books cfg n) (stable_env cfg fun _ _ h hs => hs.env h)
    (fun _ _ h hs => hs.fed h) hl
  exact ((covered_calls cfg ho).and hbooks).weaken (fun _ h => h.2.inv flushing)
    fun _ _ h => raises_of_feeds h.2

/-! ## Flushing a batch -/

/-- Whatever the function the batch is handed to. -/
theorem rest_process {c : Call} (ho : c.Outer) (hc : Feeds cfg m n c) (hmn : m ≤ n) :
    cfg.machine.Triple (promise cfg true n) (fun s => s.Quiet cfg ∧ Emptied s ∧ Processing cfg m n s) [c]
      (fun s => s.Quiet cfg ∧ Emptied s ∧ Processing cfg m n s) := by
  have hfed := fed_triple (stable_processing m n) (fun _ _ h hs => hs.fed h)
    (List.forall_mem_singleton.mpr hc)
  exact ((covered_calls cfg (List.forall_mem_singleton.mpr ho)).and hfed).weaken
    (fun _ h => h.2.inv hmn) fun _ _ h => raises_of_feeds h.2

theorem stable_processed (m n : Nat) :
    cfg.machine.Stable fun s => s.Quiet cfg ∧ Emptied s ∧ Processing cfg m n s :=
  (stable_covered cfg).and (stable_emptied.and (stable_processing m n))

theorem rest_setAsync (hce : cfg.useCe = true) (hmn : m ≤ n) :
    cfg.machine.Triple (promise cfg true n) (fun s => s.Quiet cfg ∧ Emptied s ∧ Processing cfg m n s)
      [.setAsync n] (Rest cfg n) := by
  refine Triple.atom (stable_processed m n) (fun _ h => h.2.2.inv hmn) (fun _ _ => trivial)
    (stable_rest cfg n) (Rest.inv true) fun s t k hs hp => ?_
  cases hp
  obtain ⟨hquiet, hempty, hproc⟩ := hs
  refine ⟨rfl, hquiet.congr rfl rfl rfl, ⟨hempty.tiles, hempty.lists⟩, ?_⟩
  exact {
    sound := ⟨hproc.sound.work, hproc.sound.copies, hproc.sound.noEvents⟩
    done_le := hproc.done_le.trans hmn
    async := fun _ => ⟨hce, rfl⟩
    settled := fun h => by cases h }

/-- The CPU has made the copies, so that every slot may be published. -/
theorem rest_storeDone (hce : cfg.useCe = false) (hmn : m ≤ n) :
    cfg.machine.Triple (promise cfg true n) (fun s => s.Quiet cfg ∧ Emptied s ∧ Processing cfg m n s)
      [.storeDone n] (Rest cfg n) := by
  refine Triple.atom (stable_processed m n) (fun _ h => h.2.2.inv hmn) (fun s h hn => ?_)
    (stable_rest cfg n) (Rest.inv true) fun s t k hs hp => ?_
  · rw [word_of_lt hn]
    exact h.2.2.done_le.trans hmn
  cases hp
  obtain ⟨hquiet, hempty, hproc⟩ := hs
  have hnone : ∀ st i e ds, ¬ s.device.WorkAt st i (.data e ds) := fun st i e ds hw =>
    Bool.false_ne_true (hce.symm.trans (hproc.sound.work st i e ds hw).2.1)
  refine ⟨rfl, hquiet.congr rfl rfl rfl, ⟨hempty.tiles, hempty.lists⟩, ?_⟩
  exact {
    sound := ⟨hproc.sound.work, fun st i e ds hw => absurd hw (hnone st i e ds), hproc.sound.noEvents⟩
    done_le := Nat.mod_le _ _
    async := fun h => absurd (hce.symm.trans (hproc.async h)) Bool.false_ne_true
    settled := fun _ => ⟨rfl, fun k st i e ds hw => absurd hw (hnone st i e ds)⟩ }

/-- **`flush_batch`** takes the thread from `m` slots flushed to `n`. -/
theorem rest_flush (hu : cfg.Undeferred) {batch : List Descriptor} {orFlags : Nat} (hne : batch ≠ [])
    (hmn : m ≤ n) (hslots : ∀ d ∈ batch, m ≤ d.slot ∧ d.slot < n) :
    cfg.machine.Triple (promise cfg true n) (Rest cfg m) [.flushBatch batch orFlags n] (Rest cfg n) := by
  refine Triple.expand (stable_rest cfg m)
    (fun _ hs => ⟨⟨hs.2.2.done_le.trans hmn, hs.2.2.sound.copies⟩, fun h => by cases h⟩)
    (fun _ _ => trivial) (fun _ => rfl) fun s hs => ?_
  have hproc : s.Quiet cfg ∧ Emptied s ∧ Processing cfg m n s := by
    obtain ⟨hquiet, hempty, hbooks⟩ := hs
    refine ⟨hquiet, hempty, ⟨fun st i e ds hw => ?_, hbooks.sound.copies, hbooks.sound.noEvents⟩,
      hbooks.done_le, fun h => (hbooks.async h).1⟩
    obtain ⟨hch, hce, hlt⟩ := hbooks.sound.work st i e ds hw
    exact ⟨hch, hce, fun d hd => ⟨Nat.zero_le _, (hlt d hd).2.trans_le hmn⟩⟩
  have hset : ∀ {c : Call}, cfg.useCe = true → c.Outer → Feeds cfg m n c →
      cfg.machine.Triple (promise cfg true n) (fun s => s.Quiet cfg ∧ Emptied s ∧ Processing cfg m n s)
        [c, .setAsync n] (Rest cfg n) := fun hce ho hc =>
    Triple.cons (rest_process ho hc hmn) (rest_setAsync hce hmn)
  unfold Config.flushBatch
  dsimp only
  rw [if_neg hne]
  split
  · rename_i hsg
    exact hset hsg.2 (c := .processBatchSg batch) trivial ⟨hsg.2, hslots⟩ s hproc
  · by_cases hce : cfg.useCe = true
    · rw [if_pos hce]
      split
      · exact hset hce (c := .processBatchTiled batch) trivial ⟨hce, hslots⟩ s hproc
      · rename_i htiled
        rw [if_neg fun h => htiled ⟨h.1, hu hce h.1⟩, List.append_nil]
        exact hset hce (c := .processBatch batch) trivial ⟨hce, hslots⟩ s hproc
    · have hce : cfg.useCe = false := by simpa using hce
      rw [if_neg (by rw [hce]; exact Bool.false_ne_true)]
      have hcopies : cfg.machine.Triple _ _ _ _ :=
        rest_process (c := .processBatchNoCe batch) trivial trivial hmn
      refine Triple.append (Triple.cons hcopies (rest_storeDone hce hmn)) ?_ s hproc
      split
      · exact rest_feeds true (List.forall_mem_map.mpr fun _ _ => trivial)
          (List.forall_mem_map.mpr fun _ _ => trivial)
      · exact rest_feeds true (List.forall_mem_nil _) (List.forall_mem_nil _)

/-! ## Waiting and publishing -/

theorem stable_done (n : Nat) :
    cfg.machine.Stable fun s => s.doneIdx = word n ∧ ∀ k, CopiesDone s k :=
  stable_env cfg fun _ _ h hs => ⟨h.doneIdx.trans hs.1, fun k => CopiesDone.env h (hs.2 k)⟩

theorem stable_async (cfg : Config) (n : Nat) (async : Bool) :
    cfg.machine.Stable fun s => Rest cfg n s ∧ s.poller.hasAsyncDma = async :=
  (stable_rest cfg n).and (stable_env cfg fun _ _ h hs => by rw [h.poller]; exact hs)

/-- `wait_completion`, between calls. -/
theorem rest_waitCompletion (n : Nat) (async : Bool) :
    cfg.machine.Triple (promise cfg false n) (fun s => Rest cfg n s ∧ s.poller.hasAsyncDma = async)
      [.waitCompletion]
      (fun s => (Rest cfg n s ∧ s.poller.hasAsyncDma = async) ∧ ∀ ch, s.Drained ch) := by
  have hfeeds : ∀ c ∈ [Call.waitCompletion], Feeds cfg n n c := List.forall_mem_singleton.mpr trivial
  have hbooks := fed_triple (P := fun s => Books cfg n s ∧ s.poller.hasAsyncDma = async)
    (stable_env cfg fun _ _ h hs => ⟨hs.1.env h, by rw [h.poller]; exact hs.2⟩)
    (fun _ _ h hs => ⟨hs.1.fed h, h.async.trans hs.2⟩) hfeeds
  exact ((hbooks.and (covered_waitCompletion cfg)).weaken (T := promise cfg false n)
    (fun _ h => h.1.1.inv false) fun _ _ h => raises_of_feeds h.1).conseq
    (fun s hs => ⟨⟨hs.1.2.1, hs.1.2.2, hs.2⟩, hs.1.1⟩)
    fun s hs => ⟨⟨⟨hs.2.1, hs.1.1, hs.1.2.1⟩, hs.1.2.2⟩, hs.2.2⟩

/-- Behind a wait every slot flushed so far may be published. -/
theorem rest_publishDone (n : Nat) :
    cfg.machine.Triple (promise cfg false n)
      (fun s => (Rest cfg n s ∧ s.poller.hasAsyncDma = true) ∧ ∀ ch, s.Drained ch) [.publishDone]
      (fun s => (Rest cfg n s ∧ s.poller.hasAsyncDma = true) ∧ s.doneIdx = word n ∧
        ∀ k, CopiesDone s k) := by
  refine Triple.atom ((stable_async cfg n true).and (stable_env cfg fun _ _ h hs ch => (hs ch).env h))
    (fun s h => Rest.inv false s h.1.1) (fun s h hn => ?_) ((stable_async cfg n true).and
      (stable_done n)) (fun s h => Rest.inv false s h.1.1) fun s t k hs hp => ?_
  · obtain ⟨⟨⟨-, -, hbooks⟩, ha⟩, -⟩ := h
    rw [(hbooks.async ha).2, word_of_lt hn]
    exact hbooks.done_le
  cases hp
  obtain ⟨⟨⟨hquiet, hempty, hbooks⟩, ha⟩, hd⟩ := hs
  obtain ⟨hce, hlatest⟩ := hbooks.async ha
  have hword : word s.poller.latestAsyncRead = word n := by rw [hlatest]
  have hcopies : ∀ k, CopiesDone s k := by
    intro k st i e ds hw _
    obtain ⟨⟨ch, rfl⟩, -⟩ := hbooks.sound.work st i e ds hw
    exact hd ch i hw.lt
  refine ⟨rfl, ⟨⟨hquiet.congr rfl rfl rfl, ⟨hempty.tiles, hempty.lists⟩, ?_⟩, ha⟩, hword, hcopies⟩
  exact {
    sound := ⟨hbooks.sound.work, hcopies _, hbooks.sound.noEvents⟩
    done_le := hword ▸ Nat.mod_le _ _
    async := fun _ => ⟨hce, hlatest⟩
    settled := fun h => absurd (ha.symm.trans h) (by decide) }

theorem rest_clearAsync (n : Nat) :
    cfg.machine.Triple (promise cfg false n)
      (fun s => (Rest cfg n s ∧ s.poller.hasAsyncDma = true) ∧ s.doneIdx = word n ∧
        ∀ k, CopiesDone s k) [.clearAsync]
      (fun s => Rest cfg n s ∧ s.poller.hasAsyncDma = false) := by
  refine Triple.atom ((stable_async cfg n true).and (stable_done n)) (fun s h => Rest.inv false s h.1.1)
    (fun _ _ => trivial) (stable_async cfg n false) (fun s h => Rest.inv false s h.1) fun s t k hs hp => ?_
  cases hp
  obtain ⟨⟨⟨hquiet, hempty, hbooks⟩, -⟩, hdone⟩ := hs
  refine ⟨rfl, ⟨hquiet.congr rfl rfl rfl, ⟨hempty.tiles, hempty.lists⟩, ?_⟩, rfl⟩
  exact {
    sound := ⟨hbooks.sound.work, hbooks.sound.copies, hbooks.sound.noEvents⟩
    done_le := hbooks.done_le
    async := fun h => by cases h
    settled := fun _ => hdone }

/-- If copies are outstanding, wait for them and publish. -/
theorem rest_settleAsync (n : Nat) :
    cfg.machine.Triple (promise cfg false n) (Rest cfg n) [.settleAsync]
      (fun s => Rest cfg n s ∧ s.poller.hasAsyncDma = false) := by
  refine Triple.expand (stable_rest cfg n) (Rest.inv false) (fun _ _ => trivial) (fun _ => rfl) fun s hs => ?_
  unfold Config.settleAsync
  split
  · rename_i hasync
    exact Triple.cons (rest_waitCompletion n true) (Triple.cons (rest_publishDone n)
      (rest_clearAsync n)) s ⟨hs, hasync⟩
  · rename_i hasync
    exact Triple.nil (stable_async cfg n false) (fun s h => Rest.inv false s h.1) s ⟨hs, by simpa using hasync⟩

theorem rest_settleStaging (n : Nat) :
    cfg.machine.Triple (promise cfg false n) (Rest cfg n) [.settleStaging] (Rest cfg n) :=
  rest_feeds false (List.forall_mem_singleton.mpr trivial) (List.forall_mem_singleton.mpr trivial)

/-- The end of the thread. -/
theorem rest_finish (n : Nat) : cfg.machine.Triple (promise cfg false n) (Rest cfg n) [.finish]
    (fun s => Rest cfg n s ∧ s.poller.hasAsyncDma = false) := by
  refine Triple.expand (stable_rest cfg n) (Rest.inv false) (fun _ _ => trivial) (fun _ => rfl) fun s hs => ?_
  unfold Config.finish
  rw [if_neg (by rw [hs.2.2.sound.noEvents]; exact Nat.lt_irrefl 0)]
  exact Triple.cons (rest_settleStaging n) (rest_settleAsync n) s hs

/-- An idle iteration. -/
theorem rest_idle (n : Nat) :
    cfg.machine.Triple (promise cfg false n) (Rest cfg n) [.idle] (Rest cfg n) := by
  refine Triple.expand (stable_rest cfg n) (Rest.inv false) (fun _ _ => trivial) (fun _ => rfl) fun s hs => ?_
  unfold Config.idle
  rw [if_neg (by rw [hs.2.2.sound.noEvents]; exact Nat.lt_irrefl 0)]
  split
  · exact (Triple.cons (rest_settleStaging n) (rest_settleAsync n)).conseq (fun _ h => h)
      (fun _ h => h.1) s hs
  · exact Triple.nil (stable_rest cfg n) (Rest.inv false) s hs

/-! ## Every run -/

theorem rest_init (cfg : Config) (user : Nat → UInt8) (staging : Nat → Nat → UInt8)
    (gpu : Nat → UInt8) : Rest cfg 0 (.init user staging gpu) where
  left := Host.covered_init cfg user staging gpu
  right := {
    left := ⟨rfl, rfl⟩
    right := {
      sound := ⟨fun _ _ _ _ h => absurd h.lt (Nat.not_lt_zero _),
        fun _ _ _ _ h => absurd h.lt (Nat.not_lt_zero _), rfl⟩
      done_le := Nat.le_refl _
      async := fun h => by cases h
      settled := fun _ => ⟨rfl, fun _ _ _ _ _ h => absurd h.lt (Nat.not_lt_zero _)⟩ } }

theorem duty (hu : cfg.Undeferred) : Duty cfg (fun s => s.Base)
    (fun flushing fl => promise cfg flushing (flushedCount fl)) fun fl => Rest cfg (flushedCount fl) where
  stable _ := stable_rest cfg _
  inv flushing _ := Rest.inv flushing
  flush t fl h hbase hpc hne hfl hr := by
    obtain ⟨hread, hslots⟩ := hbase.batch_slots hpc hfl
    have hcount : flushedCount t.flushed = t.readIdx := by
      rw [hbase.readIdx_eq, if_pos hpc, Nat.add_zero]
    rw [hcount]
    exact (rest_flush hu hne (by omega) hslots).outlined hr
  idle fl _ hr := (rest_idle _).outlined hr
  finish fl _ hr := ((rest_finish _).conseq (fun _ h => h) fun _ h => h.1).outlined hr

/-- What `done_idx` says in a state of the loop. -/
structure Published {cfg : Config} (s : Loop cfg.backend) : Prop where
  le_readIdx : s.backend.data.doneIdx ≤ s.readIdx
  /-- The copies for the slots below it have been performed. -/
  copies : CopiesDone s.backend.data s.backend.data.doneIdx
  /-- It is not lowered while the index has not wrapped. -/
  mono : s.readIdx < wordSize → ∀ a t, s.openStep a = some t →
    s.backend.data.doneIdx ≤ t.backend.data.doneIdx
  /-- With no partial batch and no copy outstanding it has caught up, and every copy for a
  descriptor has been performed. -/
  caught_up : s.batch = [] → s.backend.data.poller.hasAsyncDma = false →
    s.backend.data.doneIdx = word s.readIdx ∧ ∀ k, CopiesDone s.backend.data k
  /-- The thread does not stop before that. -/
  stopped : s.pc = .stopped → s.batch = [] ∧ s.backend.data.poller.hasAsyncDma = false

theorem doneIdx_perform {c : Call} {l : List Call} (h : Raises n c s) (hn : n < wordSize)
    (hp : cfg.perform s c = some (t, l)) : s.doneIdx ≤ t.doneIdx := by
  by_cases hpub : c = .publishDone
  · subst hpub
    cases hp
    exact h hn
  by_cases hstore : ∃ v, c = .storeDone v
  · obtain ⟨v, rfl⟩ := hstore
    cases hp
    exact h hn
  by_cases hraise : ∃ v, c = .raiseDone v
  · obtain ⟨v, rfl⟩ := hraise
    cases hp
    dsimp only
    split
    · exact Nat.le_of_lt ‹_›
    · exact Nat.le_refl _
  refine Nat.le_of_eq (Completion.doneIdx_perform (n := 0) hp ?_ hpub).symm
  cases c with
  | publishDone => exact absurd rfl hpub
  | storeDone v => exact absurd ⟨v, rfl⟩ hstore
  | raiseDone v => exact absurd ⟨v, rfl⟩ hraise
  | _ => trivial

/-- No step of a call that keeps its promise lowers `done_idx`. -/
theorem doneIdx_step {Q : Host → Prop} {flushing : Bool} {s t : Script.State Host Call}
    {b : Script.Act HostEnv} (h : Outlined cfg.machine (promise cfg flushing n) Q s) (hn : n < wordSize)
    (hst : cfg.machine.step s b = some t) : s.data.doneIdx ≤ t.data.doneIdx := by
  cases b with
  | env e =>
    obtain ⟨u, hu, rfl⟩ := Option.map_eq_some_iff.mp hst
    exact Nat.le_of_eq (Host.envStep hu).doneIdx.symm
  | perform =>
    simp only [Script.Machine.step] at hst
    cases htodo : s.todo with
    | nil => rw [htodo] at hst; cases hst
    | cons c rest =>
      rw [htodo] at hst
      obtain ⟨⟨u, l⟩, hp, rfl⟩ := Option.map_eq_some_iff.mp hst
      exact doneIdx_perform (h.pre htodo) hn hp

theorem attended_of_reachable (hu : cfg.Undeferred) {user : Nat → UInt8} {staging : Nat → Nat → UInt8}
    {gpu : Nat → UInt8} {s : Loop cfg.backend}
    (hs : Reachable Loop.openStep Always (· = cfg.start (.init user staging gpu)) s) :
    Attended cfg (fun flushing fl => promise cfg flushing (flushedCount fl))
      (fun fl => Rest cfg (flushedCount fl)) s :=
  (duty hu).attended (rest_init cfg user staging gpu) (fun _ h => Loop.base_of_reachable h) hs

/-- **`done_idx` is sound and catches up**, in every state of every run, whatever the batches are
handed to. -/
theorem published_of_reachable (hu : cfg.Undeferred) {user : Nat → UInt8} {staging : Nat → Nat → UInt8}
    {gpu : Nat → UInt8} {s : Loop cfg.backend}
    (hs : Reachable Loop.openStep Always (· = cfg.start (.init user staging gpu)) s) : Published s := by
  have hbase := Loop.base_of_reachable hs
  have hread := hbase.readIdx_eq
  have hatt := attended_of_reachable hu hs
  have hend := (duty hu).on.ended (Q := fun fl s => Rest cfg (flushedCount fl) s ∧
    s.poller.hasAsyncDma = false) (fun fl => stable_async cfg _ false)
    (fun fl _ hr => (rest_finish (flushedCount fl)).outlined hr) (rest_init cfg user staging gpu)
    (fun _ h => Loop.base_of_reachable h) (fun _ _ _ _ h => h) hs
  have hcount : flushedCount s.flushed ≤ s.readIdx := by
    rw [hread]
    exact Nat.le_add_right _ _
  obtain ⟨hle, hcopies⟩ := hatt.2.inv.1
  refine ⟨hle.trans hcount, hcopies, fun hlt a t hst => ?_, fun hnil hasync => ?_, fun hpc => ?_⟩
  · rcases openStep_backend hbase hst with he | ⟨b, -, hb⟩
    · rw [he]
    · exact doneIdx_step hatt.2 (Nat.lt_of_le_of_lt hcount hlt) hb
  · have hpc := hbase.not_flushing hnil
    have hbooks := hatt.2.inv.2 (beq_eq_false_iff_ne.mpr hpc)
    have hnow : s.readIdx = flushedCount s.flushed := by
      rw [hread, if_neg hpc, hnil]
      rfl
    rw [hnow]
    exact hbooks.settled hasync
  · have hbatch := hbase.batchOk.2
    rw [hpc] at hbatch
    exact ⟨hbatch, (hend.2 hpc).2.2⟩

section Example

open Deferred (memory commit poll loads perform copied)

/-- A tiled queue with a signal buffer in host memory, and one channel. -/
private def tiles : Config := { Config.plain with tiledQueue := true, tileSignalBuf := true }

private def atStop : Pc → Bool
  | .stopped => true
  | _ => false

/-- A tile of one descriptor is flushed, its copies are performed, and the thread is stopped. -/
theorem published_of_reachable_one : ∃ s,
    Reachable Loop.openStep Always (· = tiles.start memory) s ∧ s.pc = .stopped ∧
      s.backend.data.doneIdx = 1 ∧ Published s := by
  have h : (run Loop.openStep (tiles.start memory)
      (commit 0 4096 8192 flagLastInTile ++ poll 2 ++ loads ++ poll 4 ++ perform tiles 12 ++
        copied tiles 0 ++ copied tiles 0 ++ [.loop .stop] ++ poll 3 ++ perform tiles 8 ++
        poll 1)).map (fun s => (atStop s.pc, s.backend.data.doneIdx)) = some (true, 1) := by
    decide +kernel
  obtain ⟨s, hs, hout⟩ := Option.map_eq_some_iff.mp h
  simp only [Prod.mk.injEq] at hout
  have hstop : s.pc = .stopped := by
    have hpc := hout.1
    cases hp : s.pc <;> rw [hp] at hpc <;> first | rfl | cases hpc
  have hreach := (Reachable.self (C := Always) (tiles.start memory)).run_always hs
  exact ⟨s, hreach, hstop, hout.2, published_of_reachable (fun _ _ => rfl) hreach⟩

end Example

end PublishedSlots
end Gfd
