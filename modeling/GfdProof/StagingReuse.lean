import GfdProof.CallBodies
import GfdProof.DeferredSignals
import GfdProof.StagingInflight

/-! # When a staging buffer is written again

The copies of a staged batch are spread over the channels, and the event that its buffer is waited
for by is recorded on one of them, the channel used last.  A batch of one run uses one channel, so
its event is behind its copy.  A batch of several runs uses several, and the copies on the others
may still be queued when the event is complete: the next batch that takes the buffer then gathers
into it under them (`exists_gather_under_copy`).

Where, whenever the event of a buffer is recorded, the other channels have no copy from the buffer
left to perform (`Keeps`), no gather starts under a pending copy (`unread_of_reachable`).
-/
namespace Gfd
namespace StagingReuse

open WorkStreams Script.Machine Transition
open StagingInflight (ReadsStaging not_readsStaging)

/-! ## The condition -/

/-- The copies of channel `ch` that have not been performed. -/
def outstanding (s : Host) (ch : Nat) : List Copy :=
  ((s.device.log (.ce ch)).drop (s.device.done (.ce ch))).filterMap Item.work?

/-- The staging buffer a copy reads from. -/
def bufferOf : Copy → Option Nat
  | .data e _ =>
    match e.src with
    | .staging b _ => some b
    | .user _ => none
  | .tileSignal .. | .listSignal _ => none

theorem readsStaging_iff (b : Nat) (c : Copy) : ReadsStaging b c ↔ bufferOf c = some b := by
  cases c with
  | data e ds =>
    obtain ⟨dst, src, size⟩ := e
    cases src <;> simp [ReadsStaging, SGEntry.FromStaging, bufferOf]
  | tileSignal | listSignal => simp [ReadsStaging, bufferOf]

instance (b : Nat) (c : Copy) : Decidable (ReadsStaging b c) :=
  decidable_of_iff _ (readsStaging_iff b c).symm

/-- When the event of a staging buffer is recorded, the channels other than the one it is recorded
on have no copy from the buffer left to perform. -/
def Keeps (cfg : Config) : Call → Host → Prop
  | .recordEventOnLastStream (.staging b), s => ∀ ch < cfg.channels, ch ≠ cfg.lastChannel s.poller →
      ∀ c ∈ outstanding s ch, ¬ ReadsStaging b c
  | _, _ => True

instance (cfg : Config) (c : Call) (s : Host) : Decidable (Keeps cfg c s) := by
  rcases c with _ | _
  case recordEventOnLastStream e => rcases e with _ | _ | _ <;> dsimp only [Keeps] <;> infer_instance
  all_goals exact instDecidableTrue

/-- Every copy from staging buffer `b` has been performed. -/
def Unread (b : Nat) (s : Host) : Prop :=
  ∀ st i c, s.device.WorkAt st i c → ReadsStaging b c → i < s.device.done st

/-- The pending event of buffer `b` is behind every copy from it. -/
def Guarded (b : Nat) (s : Host) : Prop :=
  ∀ st i c, s.device.WorkAt st i c → ReadsStaging b c →
    i < s.device.done st ∨
      s.poller.stagingEventPending b = true ∧ s.device.Marked (.staging b) st i

/-- The copies from staging buffers are on channels. -/
def OnChannels (s : Host) : Prop :=
  ∀ b st i c, s.device.WorkAt st i c → ReadsStaging b c → ∃ ch, st = .ce ch

/-- Between batches. -/
structure Books (s : Host) : Prop where
  channels : OnChannels s
  guarded : ∀ b, Guarded b s

/-- In the middle of a staged batch that takes buffer `b`. -/
structure Midway (b : Nat) (s : Host) : Prop where
  channels : OnChannels s
  guarded : ∀ b' ≠ b, Guarded b' s

/-- What is asked of a call about to be made: the buffer of a gather is not read. -/
def Ready : Call → Host → Prop
  | .parallelGather _ b _, s => Unread b s
  | _, _ => True

/-- Only that. -/
def promise : Spec Host Call := ⟨fun _ => True, Ready⟩

/-! ## What other calls leave alone -/

/-- The calls that neither touch the flags and events of the staging buffers nor gather, and that
submit copies from the buffers of `B` only. -/
def Leaves (B : Nat → Prop) : Call → Prop
  | .copyAsync st c => ∀ b, ReadsStaging b c → B b ∧ ∃ ch, st = .ce ch
  | .submit cs => ∀ c ∈ cs, ∀ b, ReadsStaging b c → B b
  | .eventRecord e _ | .recordEventOnLastStream e => ∀ b, e ≠ .staging b
  | .flushBatch .. | .processBatch _ | .stagingWait _ | .stagingDone _ | .stagingSent _
  | .parallelGather .. => False
  | _ => True

variable {cfg : Config} {B : Nat → Prop} {s t : Host}

theorem leaves_expands {c c' : Call} (h : c.Expands c') (hc : Leaves B c) : Leaves B c' := by
  have hnot : ∀ {e : SGEntry} {ds : List Descriptor} {b : Nat}, e.FromUser →
      ReadsStaging b (.data e ds) → False := fun he hr => not_readsStaging he _ _ hr
  cases h with
  | copyAsync ch hx => exact fun b hb => ⟨hc _ hx b hb, ch, rfl⟩
  | recordChannel | recordWaited => exact fun b h => by cases h
  | direct | stagingWait | parallelGather | gatherWait | staged | recordStaging | stagingSent
  | syncStaging | stagingDone | processBatchSg | processBatchTiled | processBatch | processBatchNoCe
  | setAsync | pushTileEvent | storeDone | tileStep => exact hc.elim
  | tileData h | sgData h =>
    exact List.forall_mem_map.mpr fun e he b hb => (hnot (h e he) hb).elim
  | tileSignals => exact List.forall_mem_map.mpr fun _ _ b hb => hb.elim
  | tileSignal | listSignal => exact fun b hb => hb.elim
  | _ => trivial

/-- The difference such a call can make. -/
structure Left (B : Nat → Prop) (s t : Host) : Prop where
  pending : t.poller.stagingEventPending = s.poller.stagingEventPending
  mark : ∀ b, t.device.mark (.staging b) = s.device.mark (.staging b)
  done : t.device.done = s.device.done
  work : ∀ st i c, t.device.WorkAt st i c → s.device.WorkAt st i c ∨
    ∀ b, ReadsStaging b c → B b ∧ ∃ ch, st = .ce ch

theorem leaves_perform {c : Call} {m : List Call} (hc : Leaves B c)
    (hp : cfg.perform s c = some (t, m)) : Left B s t where
  pending := pending_perform hp (fun b h => by subst h; exact hc) fun b h => by subst h; exact hc
  mark b := by
    refine mark_perform hp fun hr => ?_
    cases c with
    | eventRecord | recordEventOnLastStream => exact hc b hr
    | pushTileEvent => obtain ⟨slot, h⟩ := hr; cases h
    | _ => exact hr.elim
  done := done_perform hp
  work st i x hw := (workAt_perform hp hw).imp_right fun h => by subst h; exact hc

/-- **The frame of the other calls.** -/
theorem leaves_triple {P : Host → Prop} (hP : cfg.machine.Stable P)
    (hleft : ∀ s t, Left B s t → P s → P t) {l : List Call} (hl : ∀ c ∈ l, Leaves B c) :
    cfg.machine.Triple promise P l P := by
  refine Triple.closed (K := Leaves B) hP (fun _ _ => trivial) (fun c hc => .inr fun s hs => ⟨?_, ?_⟩) hl
  · cases c with
    | parallelGather => exact hc.elim
    | _ => trivial
  · exact fun t m hp => ⟨hleft s t (leaves_perform hc hp) hs, fun c' hm =>
      leaves_expands (expands_perform hp c' hm) hc⟩

/-! ## A staged batch -/

theorem Unread.env {b : Nat} (hs : Unread b s) (h : s.EnvStep t) : Unread b t := by
  intro st i c hw hr
  unfold Device.WorkAt at hw
  rw [h.log] at hw
  exact Nat.lt_of_lt_of_le (hs st i c hw hr) (h.done_le st)

theorem Guarded.env {b : Nat} (hs : Guarded b s) (h : s.EnvStep t) : Guarded b t := by
  intro st i c hw hr
  unfold Device.WorkAt at hw
  rw [h.log] at hw
  rcases hs st i c hw hr with hd | ⟨hp, n, hm, hi⟩
  · exact .inl (Nat.lt_of_lt_of_le hd (h.done_le st))
  · exact .inr ⟨by rw [h.poller]; exact hp, n, by rw [h.mark]; exact hm, hi⟩

theorem OnChannels.env (hs : OnChannels s) (h : s.EnvStep t) : OnChannels t := by
  intro b st i c hw hr
  unfold Device.WorkAt at hw
  rw [h.log] at hw
  exact hs b st i c hw hr

theorem Unread.left {b : Nat} (hs : Unread b s) (h : Left B s t) (hb : ¬ B b) : Unread b t := by
  intro st i c hw hr
  rw [h.done]
  rcases h.work st i c hw with hw | hnew
  · exact hs st i c hw hr
  · exact absurd (hnew b hr).1 hb

theorem Guarded.left {b : Nat} (hs : Guarded b s) (h : Left B s t) (hb : ¬ B b) : Guarded b t := by
  intro st i c hw hr
  rw [h.done, h.pending]
  rcases h.work st i c hw with hw | hnew
  · exact (hs st i c hw hr).imp_right fun ⟨hp, n, hm, hi⟩ => ⟨hp, n, by rw [h.mark]; exact hm, hi⟩
  · exact absurd (hnew b hr).1 hb

theorem OnChannels.left (hs : OnChannels s) (h : Left B s t) : OnChannels t := by
  intro b st i c hw hr
  rcases h.work st i c hw with hw | hnew
  · exact hs b st i c hw hr
  · exact (hnew b hr).2

/-- Nothing reads the buffer that a staged batch has taken. -/
structure Taken (b : Nat) (s : Host) : Prop extends Midway b s where
  unread : Unread b s

/-- The event of the buffer that a staged batch has taken is behind its copies. -/
structure Recorded (b : Nat) (s : Host) : Prop extends Midway b s where
  marked : ∀ st i c, s.device.WorkAt st i c → ReadsStaging b c →
    i < s.device.done st ∨ s.device.Marked (.staging b) st i

theorem Midway.env {b : Nat} (hs : Midway b s) (h : s.EnvStep t) : Midway b t :=
  ⟨hs.channels.env h, fun b' hne => (hs.guarded b' hne).env h⟩

theorem stable_books : cfg.machine.Stable Books := stable_env cfg fun _ _ h hs =>
  ⟨hs.channels.env h, fun b => (hs.guarded b).env h⟩

theorem stable_midway (b : Nat) : cfg.machine.Stable (Midway b) :=
  stable_env cfg fun _ _ h hs => hs.env h

theorem stable_taken (b : Nat) : cfg.machine.Stable (Taken b) :=
  stable_env cfg fun _ _ h hs => ⟨hs.toMidway.env h, hs.unread.env h⟩

theorem stable_recorded (b : Nat) : cfg.machine.Stable (Recorded b) := by
  refine stable_env cfg fun s t h hs => ⟨hs.toMidway.env h, fun st i c hw hr => ?_⟩
  unfold Device.WorkAt at hw
  rw [h.log] at hw
  rcases hs.marked st i c hw hr with hd | ⟨n, hm, hi⟩
  · exact .inl (Nat.lt_of_lt_of_le hd (h.done_le st))
  · exact .inr ⟨n, by rw [h.mark]; exact hm, hi⟩

theorem Books.left (hs : Books s) (h : Left (fun _ => False) s t) : Books t :=
  ⟨hs.channels.left h, fun b => (hs.guarded b).left h id⟩

theorem Midway.left {b : Nat} (hs : Midway b s) (h : Left (· = b) s t) : Midway b t :=
  ⟨hs.channels.left h, fun b' hne => (hs.guarded b' hne).left h hne⟩

theorem Taken.left {b : Nat} (hs : Taken b s) (h : Left (fun _ => False) s t) : Taken b t :=
  ⟨⟨hs.channels.left h, fun b' hne => (hs.guarded b' hne).left h id⟩, hs.unread.left h id⟩

/-- The buffer is waited for if its event is pending; so nothing reads it. -/
theorem books_stagingWait (b : Nat) : cfg.machine.Triple promise Books [.stagingWait b] (Taken b) := by
  refine Triple.expand stable_books (fun _ _ => trivial) (fun _ _ => trivial) (fun _ => rfl) fun s hs => ?_
  by_cases hpend : s.poller.stagingEventPending b = true
  · have hst : cfg.machine.Stable fun s : Host => Books s ∧ Unread b s :=
      stable_books.and (stable_env cfg fun _ _ h hs => hs.env h)
    have hpending : cfg.machine.Stable fun s : Host => Books s ∧ s.poller.stagingEventPending b = true :=
      stable_books.and (stable_env cfg fun _ _ h hs => by rw [h.poller]; exact hs)
    have hwait : cfg.machine.Triple promise
        (fun s => Books s ∧ s.poller.stagingEventPending b = true) [.eventSynchronize (.staging b)]
        (fun s => Books s ∧ Unread b s) := by
      refine Triple.atom hpending (fun _ _ => trivial) (fun _ _ => trivial) hst (fun _ _ => trivial)
        fun s t m hs hp => ?_
      have hp : (if s.device.complete (.staging b) then some (s, []) else none) = some (t, m) := hp
      split at hp
      · rename_i hcomplete
        cases hp
        refine ⟨rfl, hs.1, fun st i c hw hr => ?_⟩
        rcases hs.1.guarded b st i c hw hr with hd | ⟨-, hm⟩
        · exact hd
        · exact Device.done_of_marked hm hcomplete
      · cases hp
    have hdone : cfg.machine.Triple promise (fun s => Books s ∧ Unread b s) [.stagingDone b]
        (Taken b) := by
      refine Triple.atom hst (fun _ _ => trivial) (fun _ _ => trivial) (stable_taken b)
        (fun _ _ => trivial) fun s t m hs hp => ?_
      cases hp
      refine ⟨rfl, ⟨hs.1.channels, fun b' hne st i c hw hr => ?_⟩, hs.2⟩
      dsimp only
      rw [Function.update_of_ne hne]
      exact hs.1.guarded b' st i c hw hr
    rw [if_pos hpend]
    exact Triple.cons hwait hdone s ⟨hs, hpend⟩
  · rw [if_neg hpend]
    refine Triple.nil (stable_taken b) (fun _ _ => trivial) s ⟨⟨hs.channels, fun b' _ => hs.guarded b'⟩,
      fun st i c hw hr => ?_⟩
    exact (hs.guarded b st i c hw hr).resolve_right fun h => hpend h.1

theorem taken_parallelGather (es : List SGEntry) (b base : Nat) :
    cfg.machine.Triple promise (Taken b) [.parallelGather es b base] (Taken b) := by
  refine Triple.atom (stable_taken b) (fun _ _ => trivial) (fun _ hs => hs.unread) (stable_taken b)
    (fun _ _ => trivial) fun s t m hs hp => ?_
  cases hp
  exact ⟨rfl, ⟨hs.channels, hs.guarded⟩, hs.unread⟩

/-- From the wait for the buffer to the submission. -/
theorem books_gathered (batch : List Descriptor) {es rs : List SGEntry} {b base : Nat}
    (hrs : ∀ e ∈ rs, e.FromStaging b) :
    cfg.machine.Triple promise Books
      [.stagingWait b, .parallelGather es b base, .gatherWait, .submit (Config.dataCopies batch rs)]
      (Midway b) := by
  have hwait : cfg.machine.Triple promise (Taken b) [.gatherWait] (Taken b) :=
    leaves_triple (B := fun _ => False) (stable_taken b) (fun _ _ h hs => hs.left h)
      (List.forall_mem_singleton.mpr trivial)
  have hsubmit : cfg.machine.Triple promise (Midway b) [.submit (Config.dataCopies batch rs)]
      (Midway b) := by
    refine leaves_triple (B := (· = b)) (stable_midway b) (fun _ _ h hs => hs.left h)
      (List.forall_mem_singleton.mpr (List.forall_mem_map.mpr fun e he b' hb' => ?_))
    obtain ⟨off, hoff⟩ := hrs e he
    obtain ⟨off', hoff'⟩ := hb'
    cases hoff.symm.trans hoff'
    rfl
  exact Triple.cons (books_stagingWait b) (Triple.cons (taken_parallelGather es b base)
    (Triple.cons (hwait.conseq (fun _ h => h) fun _ h => h.toMidway) hsubmit))

theorem mem_outstanding {ch i : Nat} {c : Copy} (hw : s.device.WorkAt (.ce ch) i c)
    (hi : s.device.done (.ce ch) ≤ i) : c ∈ outstanding s ch := by
  refine List.mem_filterMap.mpr ⟨.work c, List.mem_iff_getElem?.mpr ⟨i - s.device.done (.ce ch), ?_⟩, rfl⟩
  rw [List.getElem?_drop, Nat.add_sub_cancel' hi]
  exact hw

/-- The event is recorded; where the condition holds, it is behind every copy that is left. -/
theorem midway_record (b : Nat) : (cfg.machine.only (Keeps cfg)).Triple promise
    (fun s => s.Quiet cfg ∧ Midway b s) [.recordEventOnLastStream (.staging b)] (Recorded b) := by
  have hmid : cfg.machine.Stable (Midway b) := stable_midway b
  have hrec : cfg.machine.Stable (Recorded b) := stable_recorded b
  refine Triple.atom ((stable_covered cfg).and hmid) (fun _ _ => trivial) (fun _ _ => trivial) hrec
    (fun _ _ => trivial) fun s t m hs hp => ?_
  obtain ⟨hk, hp⟩ := perform_only hp
  cases hp
  obtain ⟨hquiet, hmid⟩ := hs
  refine ⟨rfl, ⟨hmid.channels, fun b' hne st i c hw hr => ?_⟩, fun st i c hw hr => ?_⟩
  · refine (hmid.guarded b' hne st i c hw hr).imp_right fun h => ⟨h.1, ?_⟩
    obtain ⟨n, hm, hi⟩ := h.2
    exact ⟨n, (s.device.record_mark_of_ne (fun h => hne (by cases h; rfl)) _).trans hm, hi⟩
  · obtain ⟨ch, rfl⟩ := hmid.channels b st i c hw hr
    by_cases hlast : ch = cfg.lastChannel s.poller
    · subst hlast
      exact .inr (Device.marked_record hw.lt)
    · left
      by_contra hnot
      have hle : s.device.done (.ce ch) ≤ i := Nat.le_of_not_lt hnot
      by_cases hch : ch < cfg.channels
      · exact hk ch hch hlast c (mem_outstanding hw hle) hr
      · exact hnot (hquiet.drained (fun hd => absurd (hquiet.dirty_lt ch hd) hch) i hw.lt)

theorem recorded_stagingSent (b : Nat) :
    cfg.machine.Triple promise (Recorded b) [.stagingSent b] Books := by
  refine Triple.atom (stable_recorded b) (fun _ _ => trivial) (fun _ _ => trivial) stable_books
    (fun _ _ => trivial) fun s t m hs hp => ?_
  cases hp
  refine ⟨rfl, hs.channels, fun b' st i c hw hr => ?_⟩
  dsimp only
  by_cases hb : b' = b
  · subst hb
    rw [Function.update_self]
    exact (hs.marked st i c hw hr).imp_right fun h => ⟨rfl, h⟩
  · rw [Function.update_of_ne hb]
    exact hs.guarded b' hb st i c hw hr

/-- **`process_batch`**, staged or not. -/
theorem books_processBatch (batch : List Descriptor) : (cfg.machine.only (Keeps cfg)).Triple promise
    (fun s => s.Quiet cfg ∧ Books s) [.processBatch batch] Books := by
  have hst : cfg.machine.Stable Books := stable_books
  refine Triple.expand ((stable_covered cfg).and hst) (fun _ _ => trivial) (fun _ _ => trivial)
    (fun s => perform_only_of (A := Keeps cfg) trivial) fun s hs => ?_
  have hsrc := batchPlan_sourced cfg.std cfg.staging s.poller.stagingCur batch
  unfold Config.processBatch
  dsimp only
  split
  · rename_i es hplan
    rw [hplan] at hsrc
    have hdirect : cfg.machine.Triple promise Books [.submit (Config.dataCopies batch es)] Books :=
      leaves_triple (B := fun _ => False) hst (fun _ _ h hs => hs.left h)
        (List.forall_mem_singleton.mpr (List.forall_mem_map.mpr fun e he b hb =>
          absurd hb (not_readsStaging (hsrc e he) batch b)))
    exact hdirect.only s hs.2
  · rename_i es base rs hplan
    rw [hplan] at hsrc
    have hquiet := covered_calls cfg
      (l := [.stagingWait s.poller.stagingCur, .parallelGather es s.poller.stagingCur base, .gatherWait,
        .submit (Config.dataCopies batch rs)]) (by
          simp only [List.forall_mem_cons]
          exact ⟨trivial, trivial, trivial, trivial, List.forall_mem_nil _⟩)
    have hbooks : (cfg.machine.only (Keeps cfg)).Triple _ _ _ _ :=
      (hquiet.and (books_gathered batch hsrc.2)).only
    have hgathered := hbooks.weaken (T := promise) (fun _ _ => trivial) fun _ _ h => h.2
    exact hgathered.append (Triple.cons (midway_record s.poller.stagingCur)
      (recorded_stagingSent s.poller.stagingCur).only) s hs

/-! ## The calls of the loop -/

def Rest (cfg : Config) (s : Host) : Prop := s.Quiet cfg ∧ Books s

theorem stable_rest (cfg : Config) : cfg.machine.Stable (Rest cfg) :=
  (stable_covered cfg).and stable_books

theorem rest_call {c : Call} (ho : c.Outer)
    (h : (cfg.machine.only (Keeps cfg)).Triple promise (Rest cfg) [c] Books) :
    (cfg.machine.only (Keeps cfg)).Triple promise (Rest cfg) [c] (Rest cfg) := by
  have hquiet := covered_calls cfg (l := [c]) (List.forall_mem_singleton.mpr ho)
  exact ((hquiet.only.and h).weaken (fun _ _ => trivial) fun _ _ h => h.2).conseq
    (fun _ hs => ⟨hs.1, hs⟩) fun _ hs => hs

/-- Every call other than those of a staged batch. -/
theorem rest_leaves {c : Call} (ho : c.Outer) (hc : Leaves (fun _ => False) c) :
    (cfg.machine.only (Keeps cfg)).Triple promise (Rest cfg) [c] (Rest cfg) := by
  have hbooks : cfg.machine.Triple promise Books [c] Books :=
    leaves_triple stable_books (fun _ _ h hs => hs.left h) (List.forall_mem_singleton.mpr hc)
  exact rest_call ho (hbooks.only.conseq (fun _ hs => hs.2) fun _ hs => hs)

theorem rest_flush (batch : List Descriptor) (orFlags curRead : Nat) :
    (cfg.machine.only (Keeps cfg)).Triple promise (Rest cfg) [.flushBatch batch orFlags curRead]
      (Rest cfg) := by
  have hbody : (cfg.machine.only (Keeps cfg)).Triple promise (Rest cfg)
      (cfg.flushBatch batch orFlags curRead) (Rest cfg) := by
    refine Triple.all (stable_rest cfg) (fun _ _ => trivial) fun c hc => ?_
    have ho := outer_flushBatch cfg batch orFlags curRead c hc
    cases Call.Expands.of_flushBatch c hc with
    | processBatch => exact rest_call ho (books_processBatch batch)
    | _ => exact rest_leaves ho trivial
  exact Triple.expand (stable_rest cfg) (fun _ _ => trivial) (fun _ _ => trivial)
    (fun s => perform_only_of (A := Keeps cfg) trivial) fun s hs => hbody s hs

theorem duty (cfg : Config) : DutyOn cfg (cfg.machine.only (Keeps cfg)) (fun _ => True)
    (fun _ _ => promise) fun _ => Rest cfg where
  stable _ := stable_rest cfg
  inv _ _ _ _ := trivial
  flush t _ _ _ _ _ _ hs := (rest_flush t.batch t.orFlags t.readIdx).outlined hs
  idle _ _ hs := (rest_leaves (c := .idle) trivial trivial).outlined hs
  finish _ _ hs := (rest_leaves (c := .finish) trivial trivial).outlined hs

/-! ## Every run -/

theorem rest_init (cfg : Config) (user : Nat → UInt8) (staging : Nat → Nat → UInt8)
    (gpu : Nat → UInt8) : Rest cfg (.init user staging gpu) where
  left := Host.covered_init cfg user staging gpu
  right := {
    channels := fun _ _ _ _ hw => by cases hw
    guarded := fun _ _ _ _ hw => by cases hw }

/-- **No gather starts under a pending copy**, in a run that keeps to `Keeps`: when the thread is about
to gather into a staging buffer, every copy submitted from the buffer has been performed, whatever
batches are flushed, staged or not, over however many channels, and however the device and the
gather threads move. -/
theorem unread_of_reachable {user : Nat → UInt8} {staging : Nat → Nat → UInt8} {gpu : Nat → UInt8}
    {s : Loop cfg.backend}
    (hs : Reachable Loop.openStep (cfg.Allowed (Keeps cfg))
      (· = cfg.start (.init user staging gpu)) s)
    {es : List SGEntry} {b base : Nat} {rest : List Call}
    (hb : s.backend.todo = .parallelGather es b base :: rest) : Unread b s.backend.data := by
  have hatt := (duty cfg).attended_allowed (rest_init cfg user staging gpu)
    (fun _ _ => trivial) (fun _ _ hc => hc) hs
  exact hatt.2.pre hb

section Example

open Deferred (memory commit poll loads perform copied)

/-- Two channels, one staging buffer, no gather worker. -/
private def spread : Config :=
  { Config.plain with
    channels := 2
    staging := ⟨1, 4096⟩
    channels_pos := Nat.two_pos
    channels_le := two_le_maxCeChannels
    bufs_le := one_le_numStagingBufs }

/-- The polling thread gathers `n` entries. -/
private def gathered (n : Nat) : List (Loop.OpenAct spread.backend) :=
  List.replicate n (.loop (.backend (show spread.backend.Act from .env (.gather 0))))

/-- `n` descriptors are committed from slot `k` on, for destinations `stride` apart, and popped as
one batch. -/
private def batch (k n stride : Nat) : List (Loop.OpenAct spread.backend) :=
  ((List.range n).flatMap fun i => commit (k + i) (65536 - 32 * i) (131072 + stride * i)
    (if i + 1 = n then flagUrgent else 0)) ++
  poll 2 ++ (List.replicate n (loads ++ poll 5)).flatten

/-- The buffer about to be gathered into. -/
private def gathering (s : Loop spread.backend) : Option Nat :=
  s.backend.todo.head?.bind fun
    | .parallelGather _ b _ => some b
    | _ => none

private theorem exists_gathering {s : Loop spread.backend} {b : Nat} (h : gathering s = some b) :
    ∃ es base rest, s.backend.todo = .parallelGather es b base :: rest := by
  obtain ⟨c, hc, hb⟩ := Option.bind_eq_some_iff.mp h
  obtain ⟨rest, htodo⟩ := List.head?_eq_some_iff.mp hc
  cases c with
  | parallelGather es b' base =>
    cases hb
    exact ⟨es, base, rest, htodo⟩
  | _ => cases hb

/-- Two descriptors are gathered into the buffer and sent as one run, and the next two follow when
the run has been copied. -/
theorem unread_of_reachable_two : ∃ s,
    Reachable Loop.openStep (spread.Allowed (Keeps spread)) (· = spread.start memory) s ∧
      (∃ es base rest, s.backend.todo = .parallelGather es 0 base :: rest) ∧
      Unread 0 s.backend.data := by
  have h : (runWhile Loop.openStep (spread.Allowed (Keeps spread)) (spread.start memory)
      (batch 0 2 16 ++ perform spread 4 ++ gathered 2 ++ perform spread 8 ++ poll 1 ++
        copied spread 0 ++ batch 2 2 16 ++ perform spread 5)).map gathering = some (some 0) := by
    decide +kernel
  obtain ⟨s, hs, hout⟩ := Option.map_eq_some_iff.mp h
  obtain ⟨es, base, rest, htodo⟩ := exists_gathering hout
  have hreach := (Reachable.self (spread.start memory)).runWhile hs
  exact ⟨s, hreach, ⟨es, base, rest, htodo⟩, unread_of_reachable hreach htodo⟩

/-- What the first copy of channel 0 reads from. -/
private def firstBuffer (s : Loop spread.backend) : Option (Option Nat) :=
  ((s.backend.data.device.log (.ce 0))[0]?.bind Item.work?).map bufferOf

/-- 33 descriptors are gathered, and sent as 33 runs over both channels.  When channel 1 has
performed its share the next batch takes the buffer, and channel 0 has performed nothing. -/
theorem exists_gather_under_copy : ∃ s,
    Reachable Loop.openStep Always (· = spread.start memory) s ∧
      ∃ es base rest, s.backend.todo = .parallelGather es 0 base :: rest ∧
        ¬ Unread 0 s.backend.data := by
  have h : (run Loop.openStep (spread.start memory)
      (batch 0 33 32 ++ perform spread 4 ++ gathered 33 ++ perform spread 41 ++ poll 1 ++
        (List.replicate 16 (copied spread 1)).flatten ++ batch 33 2 16 ++ perform spread 5)).map
      (fun s => (gathering s, s.backend.data.device.done (.ce 0), firstBuffer s)) =
      some (some 0, 0, some (some 0)) := by
    decide +kernel
  obtain ⟨s, hs, hout⟩ := Option.map_eq_some_iff.mp h
  simp only [Prod.mk.injEq] at hout
  obtain ⟨hgather, hdone, hfirst⟩ := hout
  obtain ⟨es, base, rest, htodo⟩ := exists_gathering hgather
  obtain ⟨c, hc, hbuf⟩ := Option.map_eq_some_iff.mp hfirst
  have hwork := Device.workAt_of_bind hc
  refine ⟨s, (Reachable.self (spread.start memory)).run_always hs, es, base, rest, htodo, fun hread => ?_⟩
  have hlt := hread (.ce 0) 0 c hwork ((readsStaging_iff 0 c).mpr hbuf)
  rw [hdone] at hlt
  exact Nat.not_lt_zero _ hlt

end Example

end StagingReuse
end Gfd
