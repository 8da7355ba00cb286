import GfdProof.QueueRuns

/-! # `done_idx` in plain queue mode

With the copy engine on and no tiled or SG queue, the thread publishes `done_idx`
from `latest_async_read_` when it finds the queue empty, and when it stops.  In
every run, a published value is behind the copies of all slots below it, and when
nothing is in flight it has caught up with `read_idx`; but after `2 ^ 64` slots the
published word is 0 again.

Both rest on one fact about the host between calls (`Rest`), indexed by the number
of slots flushed so far.
-/
namespace Gfd

open Transition WorkStreams Script.Machine

/-- Copy engine on, no tiled and no SG queue. -/
structure Config.Plain (cfg : Config) : Prop where
  useCe : cfg.useCe = true
  tiledQueue : cfg.tiledQueue = false
  sgQueue : cfg.sgQueue = false

namespace Completion

/-- Every copy submitted for a slot below `n` has been performed. -/
def CopiesDone (s : Host) (n : Nat) : Prop :=
  ∀ st i e ds, s.device.WorkAt st i (.data e ds) → (∃ d ∈ ds, d.slot < n) → i < s.device.done st

/-- A copy has been submitted for slot `k`. -/
def Served (s : Host) (k : Nat) : Prop :=
  ∃ st i e ds, s.device.WorkAt st i (.data e ds) ∧ ∃ d ∈ ds, d.slot = k

/-- What is promised at every moment, where `n` slots have been flushed or are being flushed. -/
structure Sound (n : Nat) (s : Host) : Prop where
  done_le : s.doneIdx ≤ n
  copies : CopiesDone s s.doneIdx
  served : ∀ k < s.doneIdx, Served s k

/-- The copies submitted so far are for slots below `n`, and are on channels. -/
structure Bounded (n : Nat) (s : Host) : Prop where
  slots : ∀ st i e ds, s.device.WorkAt st i (.data e ds) → ∀ d ∈ ds, d.slot < n
  channel : ∀ st i c, s.device.WorkAt st i c → ∃ ch, st = .ce ch
  noTiles : s.poller.tileEventsInflight = 0

/-- What the thread's variables say between calls, after `n` slots have been flushed. -/
structure Books (n : Nat) (s : Host) : Prop where
  bounded : Bounded n s
  sound : Sound n s
  served : ∀ k < n, Served s k
  latest : s.poller.hasAsyncDma = true → s.poller.latestAsyncRead = n
  settled : s.poller.hasAsyncDma = false → s.doneIdx = word n

/-- The host between calls. -/
def Rest (cfg : Config) (n : Nat) (s : Host) : Prop := s.Quiet cfg ∧ Books n s

/-- Of the calls that store `done_idx` only `publishDone` is made, and it does not lower it. -/
def Publishes (n : Nat) : Call → Host → Prop
  | .publishDone, s => n < wordSize → s.doneIdx ≤ word s.poller.latestAsyncRead
  | .storeDone _, _ | .raiseDone _, _ => False
  | _, _ => True

/-- What a call has to keep while `n` slots have been flushed or, where `flushing`, are being
flushed. -/
def promise (flushing : Bool) (n : Nat) : Spec Host Call :=
  ⟨if flushing then Sound n else Books n, Publishes n⟩

variable {cfg : Config} {n : Nat} {s t : Host}

/-! ## What the device's progress keeps -/

theorem Served.grows (h : s.device.Grows t.device) {k : Nat} (hs : Served s k) : Served t k := by
  obtain ⟨st, i, e, ds, hw, hd⟩ := hs
  exact ⟨st, i, e, ds, hw.grows h, hd⟩

theorem grows_env (h : s.EnvStep t) : s.device.Grows t.device := fun st => by rw [h.log]

theorem workAt_env (h : s.EnvStep t) {st : Stream} {i : Nat} {c : Copy} (hw : t.device.WorkAt st i c) :
    s.device.WorkAt st i c := by
  unfold Device.WorkAt at *
  rwa [h.log] at hw

theorem Sound.env (h : s.EnvStep t) (hs : Sound n s) : Sound n t where
  done_le := by rw [h.doneIdx]; exact hs.done_le
  copies st i e ds hw hd := by
    rw [h.doneIdx] at hd
    exact Nat.lt_of_lt_of_le (hs.copies st i e ds (workAt_env h hw) hd) (h.done_le st)
  served k hk := by
    rw [h.doneIdx] at hk
    exact (hs.served k hk).grows (grows_env h)

theorem Bounded.env (h : s.EnvStep t) (hs : Bounded n s) : Bounded n t where
  slots st i e ds hw := hs.slots st i e ds (workAt_env h hw)
  channel st i c hw := hs.channel st i c (workAt_env h hw)
  noTiles := by rw [h.poller]; exact hs.noTiles

theorem Books.env (h : s.EnvStep t) (hs : Books n s) : Books n t where
  bounded := hs.bounded.env h
  sound := hs.sound.env h
  served k hk := (hs.served k hk).grows (grows_env h)
  latest := by rw [h.poller]; exact hs.latest
  settled := by rw [h.poller, h.doneIdx]; exact hs.settled

theorem stable_rest (cfg : Config) (n : Nat) : cfg.machine.Stable (Rest cfg n) :=
  stable_env cfg fun _ _ h hs => ⟨hs.1.env h, hs.2.env h⟩

theorem rest_init (cfg : Config) (user : Nat → UInt8) (staging : Nat → Nat → UInt8)
    (gpu : Nat → UInt8) : Rest cfg 0 (Host.init user staging gpu) where
  left := Host.covered_init cfg user staging gpu
  right := {
    bounded := ⟨fun _ _ _ _ h => absurd h.lt (Nat.not_lt_zero _),
      fun _ _ _ h => absurd h.lt (Nat.not_lt_zero _), rfl⟩
    sound := ⟨Nat.le_refl _, fun _ _ _ _ h => absurd h.lt (Nat.not_lt_zero _),
      fun _ h => absurd h (Nat.not_lt_zero _)⟩
    served := fun _ h => absurd h (Nat.not_lt_zero _)
    latest := nofun
    settled := fun _ => rfl }

/-- Every copy has been performed, so any bound on the slots is a sound `done_idx`. -/
theorem Bounded.copiesDone (hs : Bounded n s) (hd : ∀ ch, s.Drained ch) (k : Nat) : CopiesDone s k := by
  intro st i e ds hw _
  obtain ⟨ch, rfl⟩ := hs.channel st i _ hw
  exact hd ch i hw.lt

/-! ## Flushing a batch -/

/-- While a batch for the slots from `m` to `n` is processed. -/
structure Processing (m n : Nat) (s : Host) : Prop where
  bounded : Bounded n s
  sound : Sound m s
  served : ∀ k < m, Served s k

theorem Processing.env {m : Nat} (h : s.EnvStep t) (hs : Processing m n s) : Processing m n t :=
  ⟨hs.bounded.env h, hs.sound.env h, fun k hk => (hs.served k hk).grows (grows_env h)⟩

theorem Sound.mono {m : Nat} (hs : Sound m s) (h : m ≤ n) : Sound n s :=
  { hs with done_le := Nat.le_trans hs.done_le h }

/-- The copies of a batch for the slots from `m` to `n`. -/
def BatchCopy (m n : Nat) : Copy → Prop
  | .data _ ds => ∀ d ∈ ds, m ≤ d.slot ∧ d.slot < n
  | _ => False

theorem Processing.moved {m : Nat} (hm : s.Moved (BatchCopy m n) t) (hs : Processing m n s) :
    Processing m n t where
  bounded := {
    slots := fun st i e ds hw d hd => (hm.work st i _ hw).elim (fun h => hs.bounded.slots st i e ds h d hd)
      fun h => (h.2 d hd).2
    channel := fun st i c hw => (hm.work st i c hw).elim (hs.bounded.channel st i c) And.left
    noTiles := by rw [hm.tileEventsInflight]; exact hs.bounded.noTiles }
  sound := {
    done_le := by rw [hm.doneIdx]; exact hs.sound.done_le
    copies := fun st i e ds hw hd => by
      rw [hm.doneIdx] at hd
      rw [hm.done]
      rcases hm.work st i _ hw with h | ⟨_, h⟩
      · exact hs.sound.copies st i e ds h hd
      · -- a new copy serves no slot below `done_idx`
        obtain ⟨d, hmem, hlt⟩ := hd
        have h1 := (h d hmem).1
        have h2 := hs.sound.done_le
        omega
    served := fun k hk => by
      rw [hm.doneIdx] at hk
      exact (hs.sound.served k hk).grows hm.grows }
  served k hk := (hs.served k hk).grows hm.grows

theorem stable_processing (m n : Nat) : cfg.machine.Stable (Processing m n) :=
  stable_env cfg fun _ _ h hs => hs.env h

theorem publishes_of_moves {φ : Copy → Prop} {c : Call} (hc : c.Moves φ) (s : Host) :
    Publishes n c s := by
  cases c with
  | publishDone | storeDone | raiseDone => exact hc.elim
  | _ => trivial

/-- `process_batch` queues a copy for its batch. -/
theorem queued_processBatch {batch : List Descriptor} (hne : batch ≠ []) :
    cfg.Free (fun _ => True) [.processBatch batch] fun s => ∃ e, s.Queued (.data e batch) := by
  refine free_expand cfg (stable_env cfg fun _ _ _ _ => trivial) (fun _ => rfl) fun s _ => ?_
  have hsub := batchPlan_submitted_ne_nil cfg.std cfg.staging s.poller.stagingCur hne
  have hsubmit : ∀ {es : List SGEntry}, es ≠ [] →
      cfg.Free (fun _ => True) [.submit (Config.dataCopies batch es)]
        fun s => ∃ e, s.Queued (.data e batch) := fun {es} hes => by
    obtain ⟨e, he⟩ := List.exists_mem_of_ne_nil es hes
    exact (queued_submit cfg (List.mem_map_of_mem he)).conseq (fun _ h => h) fun _ h => ⟨e, h⟩
  have hkeep := upward_calls cfg (P := fun s => ∃ e, s.Queued (.data e batch))
    fun _ _ h ⟨e, he⟩ => ⟨e, he.grows h⟩
  unfold Config.processBatch
  dsimp only
  split
  · rename_i es hplan
    rw [hplan] at hsub
    exact hsubmit hsub s trivial
  · rename_i es base rs hplan
    rw [hplan] at hsub
    exact (upward_calls cfg (P := fun _ => True) (fun _ _ _ h => h)
      [.stagingWait _, .parallelGather es _ base, .gatherWait]).append
      (Triple.cons (hsubmit hsub) (hkeep _)) s trivial

/-- `has_async_dma_ = true; latest_async_read_ = n`, behind the copies for the slots from `m` on. -/
theorem rest_setAsync {m : Nat} {batch : List Descriptor} (hmn : m ≤ n)
    (hall : ∀ k, m ≤ k → k < n → ∃ d ∈ batch, d.slot = k) :
    cfg.machine.Triple (promise true n)
      (fun s => (Processing m n s ∧ s.Quiet cfg) ∧ ∃ e, s.Queued (.data e batch)) [.setAsync n]
      (Rest cfg n) := by
  have hst : cfg.machine.Stable fun s : Host =>
      (Processing m n s ∧ s.Quiet cfg) ∧ ∃ e, s.Queued (.data e batch) :=
    stable_env cfg fun _ _ h hs =>
      ⟨⟨hs.1.1.env h, hs.1.2.env h⟩, hs.2.imp fun _ hq => hq.grows (grows_env h)⟩
  refine Triple.atom hst (fun s hs => hs.1.1.sound.mono hmn) (fun _ _ => trivial) (stable_rest cfg n)
    (fun s hs => hs.2.sound) fun s t k hs hp => ?_
  cases hp
  obtain ⟨⟨hproc, hquiet⟩, e, ch, i, hw⟩ := hs
  refine ⟨rfl, hquiet.congr rfl rfl rfl, ?_⟩
  exact {
    bounded := ⟨hproc.bounded.slots, hproc.bounded.channel, hproc.bounded.noTiles⟩
    sound := ⟨Nat.le_trans hproc.sound.done_le hmn, hproc.sound.copies, hproc.sound.served⟩
    served := fun k hk => by
      by_cases h : k < m
      · exact hproc.served k h
      · obtain ⟨d, hd, hslot⟩ := hall k (Nat.le_of_not_lt h) hk
        exact ⟨_, i, e, batch, hw, d, hd, hslot⟩
    latest := fun _ => rfl
    settled := nofun }

/-- **`flush_batch`** takes the thread from `m` slots flushed to `n`. -/
theorem rest_flush (hp : cfg.Plain) {m : Nat} {batch : List Descriptor} {orFlags : Nat}
    (hne : batch ≠ []) (hmn : m ≤ n) (hslots : ∀ d ∈ batch, m ≤ d.slot ∧ d.slot < n)
    (hall : ∀ k, m ≤ k → k < n → ∃ d ∈ batch, d.slot = k) :
    cfg.machine.Triple (promise true n) (Rest cfg m) [.flushBatch batch orFlags n] (Rest cfg n) := by
  have hbody : cfg.flushBatch batch orFlags n = [.processBatch batch, .setAsync n] := by
    simp [Config.flushBatch, hne, hp.useCe, hp.tiledQueue, hp.sgQueue]
  refine Triple.expand (stable_rest cfg m) (fun s hs => hs.2.sound.mono hmn) (fun _ _ => trivial)
    (fun _ => rfl) fun s hs => ?_
  rw [hbody]
  have hproc : cfg.machine.Triple (promise true n) (Processing m n) [.processBatch batch]
      (Processing m n) :=
    moved_triple cfg (stable_processing m n) (fun _ h => h.sound.mono hmn)
      (fun _ s hc _ => publishes_of_moves hc s) (fun _ _ hm h => h.moved hm)
      (List.forall_mem_singleton.mpr fun _ => hslots)
  have hquiet := covered_calls cfg (l := [.processBatch batch])
    (List.forall_mem_singleton.mpr trivial)
  have hboth := ((hproc.and hquiet).and (queued_processBatch hne)).weaken
    (T := promise true n) (fun _ h => h.1.1) fun _ _ h => h.1.1
  refine Triple.cons hboth (rest_setAsync hmn hall) s ⟨⟨⟨?_, hs.2.sound, hs.2.served⟩, hs.1⟩, trivial⟩
  exact ⟨fun st i e ds hw d hd => Nat.lt_of_lt_of_le (hs.2.bounded.slots st i e ds hw d hd) hmn,
    hs.2.bounded.channel, hs.2.bounded.noTiles⟩

/-! ## Waiting and publishing -/

theorem Books.moved (hm : s.Moved (fun _ => False) t) (hs : Books n s) : Books n t where
  bounded := {
    slots := fun st i e ds hw => hs.bounded.slots st i e ds ((hm.work st i _ hw).resolve_right And.right)
    channel := fun st i c hw => hs.bounded.channel st i c ((hm.work st i c hw).resolve_right And.right)
    noTiles := by rw [hm.tileEventsInflight]; exact hs.bounded.noTiles }
  sound := {
    done_le := by rw [hm.doneIdx]; exact hs.sound.done_le
    copies := fun st i e ds hw hd => by
      rw [hm.doneIdx] at hd
      rw [hm.done]
      exact hs.sound.copies st i e ds ((hm.work st i _ hw).resolve_right And.right) hd
    served := fun k hk => by
      rw [hm.doneIdx] at hk
      exact (hs.sound.served k hk).grows hm.grows }
  served k hk := (hs.served k hk).grows hm.grows
  latest := by rw [hm.hasAsyncDma, hm.latestAsyncRead]; exact hs.latest
  settled := by rw [hm.hasAsyncDma, hm.doneIdx]; exact hs.settled

theorem stable_async (cfg : Config) (n : Nat) (async : Bool) :
    cfg.machine.Stable fun s => Rest cfg n s ∧ s.poller.hasAsyncDma = async :=
  (stable_rest cfg n).and (stable_env cfg fun _ _ h hs => by rw [h.poller]; exact hs)

/-- `wait_completion`, between calls. -/
theorem rest_waitCompletion (n : Nat) (async : Bool) :
    cfg.machine.Triple (promise false n) (fun s => Rest cfg n s ∧ s.poller.hasAsyncDma = async)
      [.waitCompletion]
      (fun s => (Rest cfg n s ∧ s.poller.hasAsyncDma = async) ∧ ∀ ch, s.Drained ch) := by
  have hbooks : cfg.machine.Triple (promise false n)
      (fun s => Books n s ∧ s.poller.hasAsyncDma = async) [.waitCompletion]
      (fun s => Books n s ∧ s.poller.hasAsyncDma = async) :=
    moved_triple cfg
      (stable_env cfg fun _ _ h hs => ⟨hs.1.env h, by rw [h.poller]; exact hs.2⟩)
      (fun _ h => h.1) (fun _ s hc _ => publishes_of_moves hc s)
      (fun s t (hm : s.Moved (fun _ => False) t) h => ⟨h.1.moved hm, hm.hasAsyncDma.trans h.2⟩)
      (List.forall_mem_singleton.mpr trivial)
  have hboth := (hbooks.and (covered_waitCompletion cfg)).weaken (T := promise false n) (fun _ h => h.1)
    fun _ _ h => h.1
  exact hboth.conseq (fun s hs => ⟨⟨hs.1.2, hs.2⟩, hs.1.1⟩)
    fun s hs => ⟨⟨⟨hs.2.1, hs.1.1⟩, hs.1.2⟩, hs.2.2⟩

theorem Books.congr (hs : Books n s) (hd : t.device = s.device) (hdone : t.doneIdx = s.doneIdx)
    (he : t.poller.tileEventsInflight = s.poller.tileEventsInflight)
    (ha : t.poller.hasAsyncDma = s.poller.hasAsyncDma)
    (hl : t.poller.latestAsyncRead = s.poller.latestAsyncRead) : Books n t where
  bounded := by
    refine ⟨?_, ?_, he ▸ hs.bounded.noTiles⟩ <;> rw [hd]
    · exact hs.bounded.slots
    · exact hs.bounded.channel
  sound := by
    refine ⟨hdone ▸ hs.sound.done_le, ?_, ?_⟩
    · unfold CopiesDone
      rw [hd, hdone]
      exact hs.sound.copies
    · unfold Served
      rw [hd, hdone]
      exact hs.sound.served
  served := by
    unfold Served
    rw [hd]
    exact hs.served
  latest := by rw [ha, hl]; exact hs.latest
  settled := by rw [ha, hdone]; exact hs.settled

theorem rest_clearInflight (n : Nat) :
    cfg.machine.Triple (promise false n) (Rest cfg n) [.clearInflight] (Rest cfg n) :=
  Triple.atom (stable_rest cfg n) (fun _ h => h.2) (fun _ _ => trivial) (stable_rest cfg n)
    (fun _ h => h.2) fun s t m hs hp => by
      cases hp
      exact ⟨rfl, hs.1.congr rfl rfl rfl, hs.2.congr rfl rfl rfl rfl rfl⟩

/-- `staging_inflight_count_ > 0`: wait, and there are none. -/
theorem rest_settleStaging (n : Nat) :
    cfg.machine.Triple (promise false n) (Rest cfg n) [.settleStaging] (Rest cfg n) := by
  refine Triple.expand (stable_rest cfg n) (fun _ h => h.2) (fun _ _ => trivial) (fun _ => rfl)
    fun s hs => ?_
  unfold Config.settleStaging
  split
  · exact Triple.cons ((rest_waitCompletion n s.poller.hasAsyncDma).conseq (fun _ h => h)
      fun _ h => h.1.1) (rest_clearInflight n) s ⟨hs, rfl⟩
  · exact Triple.nil (stable_rest cfg n) (fun _ h => h.2) s hs

/-- Behind a wait every slot flushed so far is complete, so that it may be published. -/
theorem rest_publishDone (n : Nat) :
    cfg.machine.Triple (promise false n)
      (fun s => (Rest cfg n s ∧ s.poller.hasAsyncDma = true) ∧ ∀ ch, s.Drained ch) [.publishDone]
      (fun s => (Rest cfg n s ∧ s.poller.hasAsyncDma = true) ∧ s.doneIdx = word n) := by
  have hpre : ∀ s, (Rest cfg n s ∧ s.poller.hasAsyncDma = true) ∧ (∀ ch, s.Drained ch) →
      (promise false n).pre .publishDone s := fun s ⟨⟨hrest, ha⟩, _⟩ hn => by
    rw [hrest.2.latest ha, word_of_lt hn]
    exact hrest.2.sound.done_le
  refine Triple.atom ((stable_async cfg n true).and (stable_env cfg fun _ _ h hs ch => (hs ch).env h))
    (fun _ h => h.1.1.2) hpre ((stable_async cfg n true).and
      (stable_env cfg fun _ _ h hs => by rw [h.doneIdx]; exact hs)) (fun _ h => h.1.1.2)
    fun s t m hs hp => ?_
  cases hp
  obtain ⟨⟨hrest, ha⟩, hd⟩ := hs
  have hlatest : word s.poller.latestAsyncRead = word n := by rw [hrest.2.latest ha]
  have hle : word s.poller.latestAsyncRead ≤ n := hlatest ▸ Nat.mod_le _ _
  refine ⟨rfl, ⟨⟨hrest.1.congr rfl rfl rfl, ?_⟩, ha⟩, hlatest⟩
  exact {
    bounded := ⟨hrest.2.bounded.slots, hrest.2.bounded.channel, hrest.2.bounded.noTiles⟩
    sound := ⟨hle, hrest.2.bounded.copiesDone hd _,
      fun k hk => hrest.2.served k (Nat.lt_of_lt_of_le hk hle)⟩
    served := hrest.2.served
    latest := hrest.2.latest
    settled := fun _ => hlatest }

theorem rest_clearAsync (n : Nat) :
    cfg.machine.Triple (promise false n)
      (fun s => (Rest cfg n s ∧ s.poller.hasAsyncDma = true) ∧ s.doneIdx = word n) [.clearAsync]
      (fun s => Rest cfg n s ∧ s.poller.hasAsyncDma = false) := by
  refine Triple.atom ((stable_async cfg n true).and
    (stable_env cfg fun _ _ h hs => by rw [h.doneIdx]; exact hs)) (fun _ h => h.1.1.2)
    (fun _ _ => trivial) (stable_async cfg n false) (fun _ h => h.1.2) fun s t m hs hp => ?_
  cases hp
  obtain ⟨⟨hrest, -⟩, hdone⟩ := hs
  refine ⟨rfl, ⟨hrest.1.congr rfl rfl rfl, ?_⟩, rfl⟩
  exact {
    bounded := ⟨hrest.2.bounded.slots, hrest.2.bounded.channel, hrest.2.bounded.noTiles⟩
    sound := ⟨hrest.2.sound.done_le, hrest.2.sound.copies, hrest.2.sound.served⟩
    served := hrest.2.served
    latest := nofun
    settled := fun _ => hdone }

/-- If copies are outstanding, wait for them and publish. -/
theorem rest_settleAsync (n : Nat) :
    cfg.machine.Triple (promise false n) (Rest cfg n) [.settleAsync]
      (fun s => Rest cfg n s ∧ s.poller.hasAsyncDma = false) := by
  refine Triple.expand (stable_rest cfg n) (fun _ h => h.2) (fun _ _ => trivial) (fun _ => rfl)
    fun s hs => ?_
  unfold Config.settleAsync
  split
  · rename_i hasync
    exact Triple.cons (rest_waitCompletion n true) (Triple.cons (rest_publishDone n)
      (rest_clearAsync n)) s ⟨hs, hasync⟩
  · rename_i hasync
    exact Triple.nil (stable_async cfg n false) (fun _ h => h.1.2) s
      ⟨hs, by simpa using hasync⟩

/-- The end of the thread. -/
theorem rest_finish (n : Nat) : cfg.machine.Triple (promise false n) (Rest cfg n) [.finish]
    (fun s => Rest cfg n s ∧ s.poller.hasAsyncDma = false) := by
  refine Triple.expand (stable_rest cfg n) (fun _ h => h.2) (fun _ _ => trivial) (fun _ => rfl)
    fun s hs => ?_
  unfold Config.finish
  rw [if_neg (by rw [hs.2.bounded.noTiles]; exact Nat.lt_irrefl 0)]
  exact Triple.cons (rest_settleStaging n) (rest_settleAsync n) s hs

/-- An idle iteration. -/
theorem rest_idle (n : Nat) :
    cfg.machine.Triple (promise false n) (Rest cfg n) [.idle] (Rest cfg n) := by
  refine Triple.expand (stable_rest cfg n) (fun _ h => h.2) (fun _ _ => trivial) (fun _ => rfl)
    fun s hs => ?_
  unfold Config.idle
  rw [if_neg (by rw [hs.2.bounded.noTiles]; exact Nat.lt_irrefl 0)]
  split
  · exact (Triple.cons (rest_settleStaging n) (rest_settleAsync n)).conseq (fun _ h => h)
      (fun _ h => h.1) s hs
  · exact Triple.nil (stable_rest cfg n) (fun _ h => h.2) s hs

/-! ## Every run -/

theorem duty (hp : cfg.Plain) : Duty cfg (fun s => s.Base)
    (fun flushing fl => promise flushing (Loop.flushedCount fl))
    fun fl => Rest cfg (Loop.flushedCount fl) where
  stable _ := stable_rest cfg _
  inv flushing _ _ hr := by
    cases flushing
    · exact hr.2
    · exact hr.2.sound
  flush t fl h hbase hpc hne hfl hr := by
    obtain ⟨hread, hslots⟩ := hbase.batch_slots hpc hfl
    have hcount : Loop.flushedCount t.flushed = t.readIdx := by
      rw [hfl, hread]
      simp [Loop.flushedCount]
    rw [hcount]
    exact (rest_flush hp hne (by omega) hslots fun k => hbase.exists_mem_batch hpc hfl).outlined hr
  idle fl _ hr := (rest_idle _).outlined hr
  finish fl _ hr := ((rest_finish _).conseq (fun _ h => h) fun _ h => h.1).outlined hr

/-- `done_idx` is stored by three calls only. -/
theorem doneIdx_perform {c : Call} {m : List Call} (hp : cfg.perform s c = some (t, m))
    (h : Publishes n c s) (hc : c ≠ .publishDone) : t.doneIdx = s.doneIdx := by
  cases c with
  | publishDone => exact absurd rfl hc
  | storeDone | raiseDone => exact h.elim
  | eventSynchronize e =>
    simp only [Config.perform] at hp
    split at hp
    · cases hp; rfl
    · cases hp
  | gatherWait =>
    simp only [Config.perform] at hp
    split at hp
    · split at hp
      · cases hp; rfl
      · cases hp
    · cases hp
  | tileStep d =>
    cases hp
    unfold Host.tileStep Host.storeTile
    dsimp only
    split
    · split
      · split <;> rfl
      · rfl
    · rfl
  | storeTile dev tile =>
    cases hp
    unfold Host.storeTile
    dsimp only
    split <;> rfl
  | _ => cases hp; rfl

/-- `done_idx` is sound and complete. -/
structure Completes {cfg : Config} (s : Loop cfg.backend) : Prop where
  /-- The copies for the slots below `done_idx` have been performed. -/
  copies : CopiesDone s.backend.data s.backend.data.doneIdx
  served : ∀ k < s.backend.data.doneIdx, Served s.backend.data k
  le_readIdx : s.backend.data.doneIdx ≤ s.readIdx
  mono : ∀ a t, s.openStep a = some t → s.backend.data.doneIdx ≤ t.backend.data.doneIdx
  /-- With no partial batch and no copy outstanding it has caught up. -/
  caught_up : s.batch = [] → s.backend.data.poller.hasAsyncDma = false →
    s.backend.data.doneIdx = s.readIdx

/-- No step of a call that keeps its promise lowers `done_idx`. -/
theorem doneIdx_step {Q : Host → Prop} {flushing : Bool} {s t : Script.State Host Call}
    {b : Script.Act HostEnv} (h : Outlined cfg.machine (promise flushing n) Q s) (hn : n < wordSize)
    (hst : cfg.machine.step s b = some t) : s.data.doneIdx ≤ t.data.doneIdx := by
  cases b with
  | env e =>
    obtain ⟨u, hu, rfl⟩ := Option.map_eq_some_iff.mp hst
    exact Nat.le_of_eq (Host.envStep hu).doneIdx.symm
  | perform =>
    simp only [Script.Machine.step] at hst
    cases htodo : s.todo with
    | nil => rw [htodo] at hst; cases hst
    | cons c rest =>
      rw [htodo] at hst
      obtain ⟨⟨u, m⟩, hp, rfl⟩ := Option.map_eq_some_iff.mp hst
      have hpre : Publishes n c s.data := h.pre htodo
      by_cases hc : c = .publishDone
      · subst hc
        cases hp
        exact hpre hn
      · exact Nat.le_of_eq (doneIdx_perform hp hpre hc).symm

/-- **`done_idx` is sound and complete** in every state of every run, as long as fewer than `2^64`
slots have been popped. -/
theorem completes_of_reachable (hp : cfg.Plain) {user : Nat → UInt8} {staging : Nat → Nat → UInt8}
    {gpu : Nat → UInt8} {s : Loop cfg.backend}
    (hs : Reachable Loop.openStep Always (· = cfg.start (.init user staging gpu)) s)
    (hlt : s.readIdx < wordSize) : Completes s := by
  have hbase := Loop.base_of_reachable hs
  have hatt := (duty hp).attended (rest_init cfg user staging gpu)
    (fun _ h => Loop.base_of_reachable h) hs
  have hread := hbase.readIdx_eq
  have hcount : Loop.flushedCount s.flushed ≤ s.readIdx := by
    rw [hread]
    exact Nat.le_add_right _ _
  have hsound : Sound (Loop.flushedCount s.flushed) s.backend.data := by
    have := hatt.2.inv
    cases hpc : s.pc.inCall == some true <;> rw [hpc] at this
    · exact Books.sound this
    · exact this
  refine ⟨hsound.copies, hsound.served, Nat.le_trans hsound.done_le hcount, fun a t hst => ?_,
    fun hnil hasync => ?_⟩
  · rcases openStep_backend hbase hst with he | ⟨b, -, hb⟩
    · rw [he]
    · exact doneIdx_step hatt.2 (Nat.lt_of_le_of_lt hcount hlt) hb
  · have hpc := hbase.not_flushing hnil
    have hbooks := hatt.2.inv
    rw [beq_eq_false_iff_ne.mpr hpc] at hbooks
    have hnow : s.readIdx = Loop.flushedCount s.flushed := by
      rw [hread, if_neg hpc, hnil]
      rfl
    rw [Books.settled hbooks hasync, ← hnow, word_of_lt hlt]

end Completion

/-! ## When the index wraps -/

namespace Loop

variable {B : Backend} {P : Loop B → Prop}

/-- The thread can finish copying an entry. -/
theorem exists_copied {drain : Bool} {s : Loop B} (todo : Finset Field) (got : Field → Nat)
    (h : Reachable openStep Always P s) (hpc : s.pc = .copy drain todo got) :
    ∃ got', Reachable openStep Always P { s with pc := .copy drain ∅ got' } := by
  induction todo using Finset.induction_on generalizing s got with
  | empty => exact ⟨got, hpc ▸ h⟩
  | insert f todo hf ih =>
    have hl : s.openStep (.loop (.load f)) = some { s with
        pc := .copy drain todo (Function.update got f (s.entry.field f)) } := by
      simp [openStep, Loop.step, hpc, hf]
    obtain ⟨got', h'⟩ := ih _ (h.step _ trivial hl) rfl
    exact ⟨got', h'⟩

/-- An entry that the thread finds ready is popped. -/
theorem exists_published {s : Loop B} (h : Reachable openStep Always P s) (hpc : s.pc = .top)
    (hrun : s.running = true) (hready : s.ready = true) :
    ∃ (u : Loop B) (d : Descriptor), Reachable openStep Always P u.afterPublish ∧ u.batch = s.batch ++ [d] ∧
      u.orFlags = (s.orFlags ||| s.entry.field .flags) ∧ u.readIdx = s.readIdx + 1 ∧
      u.entries = (s.storeSequence (s.readIdx % queueSize) 0).entries ∧ u.running = true ∧
      u.backend = s.backend := by
  have h1 := h.step (.loop .poll) trivial (t := { s with pc := .peek false })
    (by simp [openStep, Loop.step, Loop.poll, hpc, hrun])
  have h2 := h1.step (.loop .poll) trivial (t := { s with pc := .copy false Finset.univ fun _ => 0 })
    (by
      have : ({ s with pc := .peek false } : Loop B).ready = true := hready
      simp [openStep, Loop.step, Loop.poll, this])
  obtain ⟨got, h3⟩ := exists_copied _ _ h2 rfl
  have h4 := h3.step (.loop .poll) trivial (t := { s with pc := .mergeFlags got }) rfl
  have h5 := h4.step (.loop .poll) trivial (t := { s with
    orFlags := s.orFlags ||| s.entry.field .flags
    pc := .clear false got }) rfl
  have h6 := h5.step (.loop .poll) trivial rfl
  exact ⟨_, _, h6.step (.loop .poll) trivial rfl, rfl, rfl, rfl, rfl, hrun, rfl⟩

/-- An urgent entry is flushed alone if the next one is not ready. -/
theorem exists_flushing {s : Loop B} (h : Reachable openStep Always P s) (hpc : s.pc = .top)
    (hrun : s.running = true) (hready : s.ready = true) (hbatch : s.batch = [])
    (hflag : hasFlag (s.entry.field .flags) flagUrgent = true) (hB : B.inTiles = false)
    (hnext : (s.entries ((s.readIdx + 1) % queueSize)).sequence ≠ word (s.readIdx + 2)) :
    ∃ (t : Loop B) (d : Descriptor) (f : Nat), Reachable openStep Always P t ∧ t.readIdx = s.readIdx + 1 ∧ t.running = true ∧
      t.pc = .flushing false ∧ t.backend = B.flush s.backend [d] f (s.readIdx + 1) := by
  obtain ⟨u, d, h1, hb, hf, hr, he, hu, hback⟩ := exists_published h hpc hrun hready
  rw [hbatch, List.nil_append] at hb
  have hsmall : 1 < adapt [d] u.threshold := by
    unfold adapt
    dsimp only
    split <;> decide
  have hpub : u.afterPublish = { u with threshold := adapt u.batch u.threshold, pc := .next } := by
    unfold afterPublish
    rw [if_neg]
    simp only [hb, hB, List.length_singleton, not_or]
    exact ⟨Nat.not_le_of_lt hsmall, by decide, by simp⟩
  rw [hpub] at h1
  have hcell : (s.readIdx + 1) % queueSize ≠ s.readIdx % queueSize := by
    unfold queueSize
    omega
  have hentry : u.entries ((s.readIdx + 1) % queueSize) = s.entries ((s.readIdx + 1) % queueSize) := by
    rw [he]
    exact Function.update_of_ne hcell _ _
  have hnot : u.ready = false := by
    unfold ready entry
    rw [hr, hentry]
    exact beq_eq_false_iff_ne.mpr hnext
  have hurgent : hasFlag u.orFlags (flagLastInBatch ||| flagUrgent ||| flagLastInTile) = true := by
    simp only [hf, hasFlag_or, hasFlag_mask_or, hflag, Bool.or_true, Bool.true_or]
  have h2 := h1.step (.loop .poll) trivial (t := callFlush
    { u with threshold := adapt u.batch u.threshold, pc := .next } (.flushing false)) (by
      show some (if u.ready then _ else afterPops _) = _
      rw [hnot, if_neg Bool.false_ne_true, afterPops, if_pos (.inr hurgent)])
  refine ⟨_, d, u.orFlags, h2, hr, hu, rfl, ?_⟩
  show B.flush u.backend u.batch u.orFlags u.readIdx = _
  rw [hback, hb, hr]

/-- The next slot is committed with an urgent descriptor, and the one behind it is not committed. -/
theorem exists_urgent {s : Loop B} (h : Reachable openStep Always P s) :
    ∃ t : Loop B, Reachable openStep Always P t ∧ t = { s with entries := t.entries } ∧
      t.ready = true ∧ hasFlag (t.entry.field .flags) flagUrgent = true ∧
      (t.entries ((t.readIdx + 1) % queueSize)).sequence ≠ word (t.readIdx + 2) := by
  have hcell : s.readIdx % queueSize ≠ (s.readIdx + 1) % queueSize := by
    unfold queueSize
    omega
  have h1 := h.step (.storeField (s.readIdx % queueSize) .flags flagUrgent) trivial rfl
  have h2 := h1.step (.storeSequence (s.readIdx % queueSize) (word (s.readIdx + 1))) trivial rfl
  have h3 := h2.step (.storeSequence ((s.readIdx + 1) % queueSize) (word (s.readIdx + 3))) trivial rfl
  refine ⟨_, h3, rfl, ?_, ?_, ?_⟩
  · simp [ready, entry, storeField, storeSequence, hcell]
  · simp [entry, storeField, storeSequence, hcell, hasFlag, flagUrgent]
  · simp only [storeField, storeSequence, Function.update_self]
    unfold word wordSize
    omega

/-- The next slot is not committed. -/
theorem exists_uncommitted {s : Loop B} (h : Reachable openStep Always P s) :
    ∃ t : Loop B, Reachable openStep Always P t ∧ t = { s with entries := t.entries } ∧
      t.ready = false := by
  have h1 := h.step (.storeSequence (s.readIdx % queueSize) (word (s.readIdx + 2))) trivial rfl
  refine ⟨_, h1, rfl, ?_⟩
  simp only [ready, entry, storeSequence, Function.update_self]
  refine beq_eq_false_iff_ne.mpr ?_
  unfold word wordSize
  omega

/-- With nothing to pop or flush the thread turns to its idle branch. -/
theorem reachable_idling {s : Loop B} (h : Reachable openStep Always P s) (hpc : s.pc = .top)
    (hrun : s.running = true) (hready : s.ready = false) (hbatch : s.batch = []) :
    Reachable openStep Always P { s with backend := B.idle s.backend, pc := .idling } := by
  have h1 := h.step (.loop .poll) trivial (t := { s with pc := .peek false })
    (by simp [openStep, Loop.step, Loop.poll, hpc, hrun])
  have hnot : ¬ ({ s with pc := .peek false } : Loop B).ready = true := fun h =>
    Bool.false_ne_true (hready.symm.trans h)
  exact h1.step (.loop .poll) trivial ((if_neg hnot).trans (if_neg (not_not.mpr hbatch)))

/-- And back. -/
theorem reachable_top {s : Loop B} (h : Reachable openStep Always P s) (hpc : s.pc = .idling)
    (hbusy : B.busy s.backend = false) (he : B.eventsInflight s.backend = false) :
    Reachable openStep Always P { s with pc := .top } :=
  h.step (.loop .poll) trivial (by simp [openStep, Loop.step, Loop.poll, hpc, hbusy, he])

end Loop

/-- Performing its calls, whatever the environment does meanwhile, leads the thread from `s` to
`t`. -/
inductive Config.Leads (cfg : Config) : Host → List Call → Host → Prop
  | nil (s : Host) : Leads cfg s [] s
  | call {s t u : Host} {c : Call} {m l : List Call} (hp : cfg.perform s c = some (t, m))
      (h : Leads cfg t (m ++ l) u) : Leads cfg s (c :: l) u
  | env {s t u : Host} {e : HostEnv} {l : List Call} (he : s.env e = some t)
      (h : Leads cfg t l u) : Leads cfg s l u

variable {cfg : Config}

theorem Config.Leads.reachable {P : Loop cfg.backend → Prop} {h u : Host} {l : List Call}
    (hl : cfg.Leads h l u) {s : Loop cfg.backend} (hs : Reachable Loop.openStep Always P s)
    (hb : s.backend = ⟨h, l⟩) :
    Reachable Loop.openStep Always P { s with backend := (show cfg.backend.State from ⟨u, []⟩) } := by
  induction hl generalizing s with
  | nil h => exact hb ▸ hs
  | @call h t u c m l hp _ ih =>
    have hstep : s.openStep (.loop (.backend (show cfg.backend.Act from .perform))) =
        some { s with backend := (show cfg.backend.State from ⟨t, m ++ l⟩) } := by
      show Option.map _ (cfg.machine.step s.backend .perform) = _
      rw [hb]
      show Option.map _ (Option.map _ (cfg.perform h c)) = _
      rw [hp]
      rfl
    have hs' := hs.step _ trivial hstep
    have ht := ih hs' rfl
    exact ht
  | @env h t u e l he _ ih =>
    have hstep : s.openStep (.loop (.backend (show cfg.backend.Act from .env e))) =
        some { s with backend := (show cfg.backend.State from ⟨t, l⟩) } := by
      show Option.map _ (cfg.machine.step s.backend (.env e)) = _
      rw [hb]
      show Option.map _ (Option.map _ (h.env e)) = _
      rw [he]
      rfl
    have hs' := hs.step _ trivial hstep
    have ht := ih hs' rfl
    exact ht

namespace Completion

section Example

private def zeros : Host := .init (fun _ => 0) (fun _ _ => 0) fun _ => 0

/-- No copy is left, and the channel's event is complete. -/
private structure Settled (h : Host) : Prop where
  drained : h.device.done (.ce 0) = (h.device.log (.ce 0)).length
  complete : h.device.complete (.ce 0) = true
  inflight : h.poller.stagingInflightCount = 0
  tiles : h.poller.tileEventsInflight = 0

private theorem submit_single (p : Poller) (c : Copy) : Config.plain.submit p [c] =
    [.copyAsync (.ce 0) c, .submitted 0 [0], .eventRecord (.ce 0) (.ce 0)] := by
  simp [Config.submit, Config.plain, usedChannels, channelOf, nextAfter, Nat.mod_one]

private theorem flushBatch_single (d : Descriptor) (f n : Nat) :
    Config.plain.flushBatch [d] f n = [.processBatch [d], .setAsync n] := by
  simp [Config.flushBatch, Config.plain]

private theorem processBatch_single (p : Poller) (d : Descriptor) :
    Config.plain.processBatch p [d] = [.submit [.data d.entry [d]]] := rfl

/-- The host when a batch of one descriptor has been submitted. -/
private def submitted (h : Host) (d : Descriptor) : Host :=
  { h with
    poller := { h.poller with
      nextChannel := 0
      dirtyMask := fun ch => h.poller.dirtyMask ch || [0].contains ch }
    device := (h.device.submit (.ce 0) (.data d.entry [d])).record (.ce 0) (.ce 0) }

/-- The host when the copy has been performed and `flush_batch` has returned. -/
private def copied (h : Host) (d : Descriptor) (n : Nat) : Host :=
  let t := submitted h d
  { t with
    poller := { t.poller with hasAsyncDma := true, latestAsyncRead := n }
    device := t.device.advance (.ce 0)
    gpu := h.write d.entry }

private theorem advance_submitted {h : Host} (hs : Settled h) (d : Descriptor) :
    (submitted h d).env (.advance (.ce 0)) = some { submitted h d with
      device := (submitted h d).device.advance (.ce 0)
      gpu := h.write d.entry } := by
  have hnext : (submitted h d).device.next (.ce 0) = some (.work (.data d.entry [d])) := by
    simp [submitted, Device.next, hs.drained]
  have hrun : (submitted h d).device.runnable (.ce 0) = true := by
    simp only [Device.runnable, hnext]
  simp only [Host.env, Host.advance, hrun, hnext, if_true]
  rfl

private theorem leads_flush {h : Host} (hs : Settled h) (d : Descriptor) (f n : Nat) :
    Config.plain.Leads h [.flushBatch [d] f n] (copied h d n) := by
  refine .call (congrArg (fun l => some (h, l)) (flushBatch_single d f n)) ?_
  refine .call (congrArg (fun l => some (h, l)) (processBatch_single h.poller d)) ?_
  refine .call (congrArg (fun l => some (h, l)) (submit_single h.poller (.data d.entry [d]))) ?_
  exact .call rfl (.call rfl (.call rfl (.env (advance_submitted hs d) (.call rfl (.nil _)))))

private theorem settled_copied {h : Host} (hs : Settled h) (d : Descriptor) (n : Nat) :
    Settled (copied h d n) where
  drained := by simp [copied, submitted, hs.drained]
  complete := by simp [copied, submitted, Device.complete, hs.drained]
  inflight := hs.inflight
  tiles := hs.tiles

/-- The host when `done_idx` has been published. -/
private def published (h : Host) : Host :=
  { h with
    poller := { h.poller with dirtyMask := fun _ => false, hasAsyncDma := false }
    doneIdx := word h.poller.latestAsyncRead }

/-- The idle branch publishes. -/
private theorem leads_idle {h : Host} (hs : Settled h) (ha : h.poller.hasAsyncDma = true) :
    Config.plain.Leads h [.idle] (published h) := by
  have hidle : Config.idle h.poller = [.settleStaging, .settleAsync] := by
    simp [Config.idle, hs.tiles, ha]
  have hstaging : Config.settleStaging h.poller = [] := by simp [Config.settleStaging, hs.inflight]
  have hasync : Config.settleAsync h.poller = [.waitCompletion, .publishDone, .clearAsync] := by
    simp [Config.settleAsync, ha]
  have hwait : ∀ {chs : List Nat}, (∀ ch ∈ chs, ch < 1) → ∀ {l u}, Config.plain.Leads h l u →
      Config.plain.Leads h (chs.map (fun ch => .eventSynchronize (.ce ch)) ++ l) u := by
    intro chs hlt l u hl
    induction chs with
    | nil => exact hl
    | cons ch chs ih =>
      obtain ⟨h0, hrest⟩ := List.forall_mem_cons.mp hlt
      obtain rfl := Nat.lt_one_iff.mp h0
      exact .call (if_pos hs.complete) (ih hrest)
  refine .call (congrArg (fun l => some (h, l)) hidle) ?_
  refine .call (congrArg (fun l => some (h, l)) hstaging) ?_
  refine .call (congrArg (fun l => some (h, l)) hasync) (.call rfl ?_)
  rw [Config.waitCompletion, List.append_assoc]
  refine hwait (fun ch hch => List.mem_range.mp (List.mem_of_mem_filter hch)) ?_
  exact .call rfl (.call rfl (.call rfl (.nil _)))

variable {P : Loop Config.plain.backend → Prop} {n : Nat} {s : Loop Config.plain.backend}

/-- `n` slots have been popped, and nothing is under way. -/
private structure Popped (P : Loop Config.plain.backend → Prop) (n : Nat) (s : Loop Config.plain.backend) :
    Prop where
  reachable : Reachable Loop.openStep Always P s
  readIdx : s.readIdx = n
  running : s.running = true
  pc : s.pc = .top
  batch : s.batch = []
  todo : s.backend.todo = []
  settled : Settled s.backend.data

private theorem popped_zero : Popped (· = Config.plain.start zeros) 0 (Config.plain.start zeros) :=
  ⟨.initial rfl, rfl, rfl, rfl, rfl, rfl, rfl, rfl, rfl, rfl⟩

/-- The next slot is popped and flushed. -/
private theorem Popped.succ (hs : Popped P n s) :
    ∃ t, Popped P (n + 1) t ∧ t.backend.data.poller.hasAsyncDma = true ∧
      t.backend.data.poller.latestAsyncRead = n + 1 := by
  obtain ⟨u, hu, he, hready, hflag, hnext⟩ := Loop.exists_urgent hs.reachable
  obtain ⟨t, d, f, ht, hr, hrun, hpc, hb⟩ := Loop.exists_flushing hu (by rw [he]; exact hs.pc)
    (by rw [he]; exact hs.running) hready (by rw [he]; exact hs.batch) hflag rfl hnext
  have hdata : u.backend.data = s.backend.data := by rw [he]
  have hread : u.readIdx = n := by rw [he]; exact hs.readIdx
  have hsettled : Settled u.backend.data := hdata ▸ hs.settled
  rw [hread] at hr hb
  have h1 := (leads_flush hsettled d f (n + 1)).reachable ht hb
  have h2 := h1.step (.loop .poll) trivial (t := ({ t with
    backend := (show Config.plain.backend.State from ⟨copied u.backend.data d (n + 1), []⟩) } :
      Loop Config.plain.backend).returned .top) (by
        simp only [Loop.openStep, Loop.step, Loop.poll, hpc]
        rfl)
  exact ⟨_, ⟨h2, hr, hrun, rfl, rfl, rfl, settled_copied hsettled d _⟩, rfl, rfl⟩

private theorem Popped.add (hs : Popped P n s) (k : Nat) : ∃ t, Popped P (n + k) t := by
  induction k with
  | zero => exact ⟨s, hs⟩
  | succ k ih =>
    obtain ⟨u, hu⟩ := ih
    obtain ⟨t, ht, -⟩ := hu.succ
    exact ⟨t, ht⟩

/-- After the next pop an idle iteration publishes the number of slots popped. -/
private theorem Popped.published (hs : Popped P n s) :
    ∃ t, Popped P (n + 1) t ∧ t.backend.data.doneIdx = word (n + 1) := by
  obtain ⟨u, hu, ha, hl⟩ := hs.succ
  obtain ⟨v, hv, he, hready⟩ := Loop.exists_uncommitted hu.reachable
  have hdata : v.backend.data = u.backend.data := by rw [he]
  have hsettled : Settled v.backend.data := hdata ▸ hu.settled
  have h1 := Loop.reachable_idling hv (by rw [he]; exact hu.pc) (by rw [he]; exact hu.running) hready
    (by rw [he]; exact hu.batch)
  have h2 := (leads_idle hsettled (hdata ▸ ha)).reachable h1 rfl
  have h3 := Loop.reachable_top h2 rfl rfl (decide_eq_false (by
    show ¬ 0 < v.backend.data.poller.tileEventsInflight
    rw [hsettled.tiles]
    exact Nat.lt_irrefl 0))
  refine ⟨_, ⟨h3, ?_, ?_, rfl, ?_, rfl, hsettled.drained, hsettled.complete, hsettled.inflight,
    hsettled.tiles⟩, congrArg word (hdata ▸ hl)⟩
  · rw [he]; exact hu.readIdx
  · rw [he]; exact hu.running
  · rw [he]; exact hu.batch

/-- One slot is popped, and published. -/
theorem completes_of_reachable_one : ∃ s : Loop Config.plain.backend, s.readIdx = 1 ∧
    s.backend.data.doneIdx = 1 ∧ Completes s := by
  obtain ⟨s, hs, hdone⟩ := popped_zero.published
  exact ⟨s, hs.readIdx, hdone, completes_of_reachable ⟨rfl, rfl, rfl⟩ hs.reachable
    (by rw [hs.readIdx]; decide)⟩

/-- When `2 ^ 64` slots have been popped, the `done_idx` published is 0. -/
theorem exists_lowered : ∃ cfg : Config, cfg.Plain ∧ ∃ h s t,
    ReachableFrom Loop.openStep (cfg.start h) s ∧ ReachableFrom Loop.openStep s t ∧
      t.backend.data.doneIdx < s.backend.data.doneIdx := by
  obtain ⟨s, hs, hdone⟩ := popped_zero.published
  have hself : Popped (· = s) 1 s := { hs with reachable := .self s }
  obtain ⟨u, hu⟩ := hself.add (2 ^ 64 - 2)
  obtain ⟨t, ht, hlast⟩ := hu.published
  refine ⟨Config.plain, ⟨rfl, rfl, rfl⟩, zeros, s, t, hs.reachable, ht.reachable, ?_⟩
  rw [hdone, hlast]
  decide

end Example

end Completion
end Gfd
