import Mathlib
import GfdProof.PublishedSlots
import GfdProof.TilePipeline

/-! # The destination memory in the runs of the polling thread

`flush_batch` is called again and again, and the copies of many batches are queued at once, on
several streams, some of them from a staging buffer that is used again.  What one call does to the
destination memory (`BatchDelivery`) holds of all of them together as long as no two descriptors
write the same byte and no gather overwrites a buffer that a queued copy reads
(`StagingReuse.Keeps`): the memory aimed at after some batches is that of all their descriptors, and
each batch adds its own (`flush_rest`).

`done_idx` is never above the number of slots handed to `flush_batch` (`PublishedSlots.AtMost`).
While a batch is being taken up it is not above the number of slots flushed before, so that a slot
below it is not one of those still to be submitted (`Promised`).  The bytes of a slot below it have
arrived as soon as the copies submitted for it have been performed (`transfers_of_reachable`), which
is what `done_idx` says where no tile event is pending (`arrived_of_reachable`).
-/
namespace Gfd

namespace Loop

variable {B : Backend}

theorem flushedCount_concat (fl : Flushed) (b : List Descriptor × Nat) :
    flushedCount (fl ++ [b]) = flushedCount fl + b.1.length := by
  simp [flushedCount]

/-- The slots flushed, in order. -/
theorem Base.flushed_map_slot {s : Loop B} (h : s.Base) :
    ((s.flushed.map Prod.fst).flatten).map Descriptor.slot = List.range (flushedCount s.flushed) := by
  have hslots := h.slots
  have hlen : (((s.flushed.map Prod.fst).flatten).map Descriptor.slot).length =
      (List.range (flushedCount s.flushed)).length := by
    simp [flushedCount, List.length_flatten, List.map_map, Function.comp_def]
  rw [h.readIdx_eq, List.range_add, popped, List.map_append] at hslots
  exact (List.append_inj hslots hlen).1

/-- The slots of the batch flushed last are not below the number of those before. -/
theorem Base.le_slot {s : Loop B} (h : s.Base) {earlier : Flushed}
    {b : List Descriptor × Nat} (hfl : s.flushed = earlier ++ [b]) {d : Descriptor} (hd : d ∈ b.1) :
    flushedCount earlier ≤ d.slot := by
  have hslots := h.flushed_map_slot
  have hlen : (((earlier.map Prod.fst).flatten).map Descriptor.slot).length =
      (List.range (flushedCount earlier)).length := by
    simp [flushedCount, List.length_flatten, List.map_map, Function.comp_def]
  have hcount : flushedCount s.flushed = flushedCount earlier + b.1.length := by
    rw [hfl, flushedCount_concat]
  rw [hcount, hfl, List.map_append, List.flatten_append, List.map_append, List.range_add] at hslots
  have hbatch := (List.append_inj hslots hlen).2
  have hmem : d.slot ∈ ([b].map Prod.fst).flatten.map Descriptor.slot :=
    List.mem_map_of_mem (by simpa using hd)
  rw [hbatch] at hmem
  obtain ⟨i, -, hi⟩ := List.mem_map.mp hmem
  omega

end Loop

namespace QueueDelivery

open WorkStreams Script.Machine Transition PendingCopies BatchDelivery
open Loop (flushedCount flushedCount_concat)
open PublishedSlots (AtMost UpTo always_atMost stable_atMost)
open StagingReuse (Keeps)

variable {cfg : Config} {mem user : Nat → UInt8} {n : Nat} {s t : Host} {fl : Flushed}

/-! ## The batches flushed so far -/

/-- The descriptors transferred, in order. -/
def sent (cfg : Config) (fl : Flushed) : List Descriptor := fl.flatMap fun b => transferred cfg b.1 b.2

theorem sent_concat (fl : Flushed) (b : List Descriptor × Nat) :
    sent cfg (fl ++ [b]) = sent cfg fl ++ transferred cfg b.1 b.2 := by
  unfold sent
  rw [List.flatMap_append, List.flatMap_singleton]

/-- The host between calls. -/
structure Rest (cfg : Config) (mem user : Nat → UInt8) (fl : Flushed) (s : Host) : Prop where
  reuse : StagingReuse.Rest cfg s
  emptied : Emptied s
  atMost : AtMost (flushedCount fl) s
  underway : Transferable (sent cfg fl) → Underway mem user (sent cfg fl) [] [] s

/-- What is promised at every moment.  Either every descriptor has been submitted, or a batch is
being flushed, those left are of it, and nothing of it has been published. -/
structure Promised (cfg : Config) (mem user : Nat → UInt8) (flushing : Bool) (fl : Flushed) (s : Host) :
    Prop where
  atMost : AtMost (flushedCount fl) s
  carried : Transferable (sent cfg fl) → Carried mem user (sent cfg fl) [] s ∨
    flushing = true ∧ ∃ (earlier : Flushed) (b : List Descriptor × Nat), fl = earlier ++ [b] ∧
      s.doneIdx ≤ flushedCount earlier ∧ Carried mem user (sent cfg fl) (transferred cfg b.1 b.2) s

theorem Rest.promised (hs : Rest cfg mem user fl s) (flushing : Bool) :
    Promised cfg mem user flushing fl s :=
  ⟨hs.atMost, fun hds => .inl (hs.underway hds).toCarrying.carried⟩

theorem stable_rest (fl : Flushed) : cfg.machine.Stable (Rest cfg mem user fl) := by
  intro s e t hs he
  exact ⟨StagingReuse.stable_rest cfg s e t hs.reuse he, stable_emptied s e t hs.emptied he,
    stable_atMost _ s e t hs.atMost he, fun hds => stable_underway s e t (hs.underway hds) he⟩

theorem rest_init (cfg : Config) (user : Nat → UInt8) (staging : Nat → Nat → UInt8)
    (mem : Nat → UInt8) : Rest cfg mem user [] (.init user staging mem) where
  reuse := StagingReuse.rest_init cfg user staging mem
  emptied := ⟨rfl, rfl⟩
  atMost := ⟨Nat.le_refl _, Nat.le_refl _, fun _ => Nat.le_refl _⟩
  underway _ := underway_of_settled (s := .init user staging mem) (fun _ => rfl) rfl

/-- A triple about what can be transferred. -/
theorem imp_triple {p : Prop} {I P Q : Host → Prop} {l : List Call}
    (h : p → cfg.machine.Triple (.always I) P l Q) :
    cfg.machine.Triple (.always fun s => p → I s) (fun s => p → P s) l fun s => p → Q s := by
  by_cases hp : p
  · exact ((h hp).weaken (fun _ h _ => h) fun _ _ _ => trivial).conseq (fun _ h => h hp) fun _ h _ => h
  · intro s _
    have hall : cfg.machine.Triple (.always fun s => p → I s) (fun s => p → Q s) l fun s => p → Q s :=
      Triple.closed (K := fun _ => True) (fun _ _ _ _ _ h => absurd h hp) (fun _ _ h => absurd h hp)
        (fun _ _ => .inr fun _ _ => ⟨trivial, fun _ _ _ => ⟨fun h => absurd h hp, fun _ _ => trivial⟩⟩)
        fun _ _ => trivial
    exact hall s fun h => absurd h hp

/-- Before a staged batch takes a buffer, every copy from it has been performed. -/
theorem unread_of_books (b : Nat) :
    cfg.Free StagingReuse.Books [.stagingWait b] (StagingReuse.Unread b) :=
  ((StagingReuse.books_stagingWait b).weaken (fun _ _ => trivial) fun _ _ _ => trivial).conseq
    (fun _ h => h) fun _ h => h.unread

variable (mem user fl) in
/-- The copies of a batch more are under way when `flush_batch` returns. -/
theorem carried_flush (batch : List Descriptor) (orFlags curRead v : Nat) :
    cfg.machine.Triple
      (.always fun s => Transferable (sent cfg (fl ++ [(batch, orFlags)])) →
        Flushing mem user (sent cfg (fl ++ [(batch, orFlags)])) (transferred cfg batch orFlags) v s)
      (fun s => Transferable (sent cfg (fl ++ [(batch, orFlags)])) →
        (StagingReuse.Books s ∧ Emptied s ∧ Underway mem user (sent cfg fl) [] [] s) ∧ s.doneIdx = v)
      [.flushBatch batch orFlags curRead]
      (fun s => Transferable (sent cfg (fl ++ [(batch, orFlags)])) →
        Underway mem user (sent cfg (fl ++ [(batch, orFlags)])) [] [] s) := by
  refine imp_triple fun hds => ?_
  have hconcat : sent cfg (fl ++ [(batch, orFlags)]) =
      sent cfg fl ++ transferred cfg batch orFlags := sent_concat fl (batch, orFlags)
  rw [hconcat] at hds ⊢
  exact flushing_flushBatch StagingReuse.stable_books unread_of_books curRead v rfl hds

/-- **`flush_batch`** adds the descriptors of its batch. -/
theorem flush_rest (batch : List Descriptor) (orFlags : Nat) :
    ∀ h, Rest cfg mem user fl h → Outlined (cfg.machine.only (Keeps cfg))
      (.always (Promised cfg mem user true (fl ++ [(batch, orFlags)])))
      (Rest cfg mem user (fl ++ [(batch, orFlags)]))
      ⟨h, [.flushBatch batch orFlags (flushedCount (fl ++ [(batch, orFlags)]))]⟩ := by
  intro h hr
  have hle : flushedCount fl ≤ flushedCount (fl ++ [(batch, orFlags)]) := by
    rw [flushedCount_concat]
    exact Nat.le_add_right _ _
  have hemptied : cfg.Free Emptied
      [.flushBatch batch orFlags (flushedCount (fl ++ [(batch, orFlags)]))] Emptied := emptied_calls _
  have hrest := (hemptied.and (always_atMost (List.forall_mem_singleton.mpr (Nat.le_refl _)))).and
    (carried_flush mem user fl batch orFlags (flushedCount (fl ++ [(batch, orFlags)])) h.doneIdx)
  have hall := ((StagingReuse.rest_flush batch orFlags _).and hrest.only).weaken
    (T := .always (Promised cfg mem user true (fl ++ [(batch, orFlags)])))
    (fun s hs => ⟨hs.2.1.2, fun hds => ?_⟩) fun _ _ _ => trivial
  · refine (hall.conseq (fun _ h => h) fun s hs => ?_).outlined ⟨hr.reuse, ⟨hr.emptied, hr.atMost.mono hle⟩,
      fun hds => ⟨⟨hr.reuse.2, hr.emptied, hr.underway ?_⟩, rfl⟩⟩
    · exact ⟨hs.1, hs.2.1.1, hs.2.1.2, hs.2.2⟩
    · rw [sent_concat] at hds
      exact hds.sublist (List.sublist_append_left _ _)
  · rcases hs.2.2 hds with ⟨hcarried, hdone⟩ | hcarried
    · exact .inr ⟨rfl, fl, (batch, orFlags), rfl, hdone ▸ hr.atMost.doneIdx, hcarried⟩
    · exact .inl hcarried

/-- The other calls of the loop. -/
theorem rest_call {c : Call} (ho : c.Outer) (hl : StagingReuse.Leaves (fun _ => False) c)
    (hs : Silent c) (hu : UpTo (flushedCount fl) c) :
    (cfg.machine.only (Keeps cfg)).Triple (.always (Promised cfg mem user false fl)) (Rest cfg mem user fl) [c]
      (Rest cfg mem user fl) := by
  have hcarried : cfg.machine.Triple
      (.always fun s => Transferable (sent cfg fl) → Carried mem user (sent cfg fl) [] s)
      (fun s => Transferable (sent cfg fl) → Underway mem user (sent cfg fl) [] [] s) [c]
      (fun s => Transferable (sent cfg fl) → Underway mem user (sent cfg fl) [] [] s) :=
    imp_triple fun _ => steady_silent (List.forall_mem_singleton.mpr hs)
  have hemptied : cfg.Free Emptied [c] Emptied := emptied_calls _
  have hrest := (hemptied.and (always_atMost (List.forall_mem_singleton.mpr hu))).and hcarried
  have hall := ((StagingReuse.rest_leaves ho hl).and hrest.only).weaken
    (T := .always (Promised cfg mem user false fl)) (fun s hs => ⟨hs.2.1.2, fun hds => .inl (hs.2.2 hds)⟩)
    fun _ _ _ => trivial
  exact hall.conseq (fun s h => ⟨h.reuse, ⟨h.emptied, h.atMost⟩, h.underway⟩)
    fun s h => ⟨h.1, h.2.1.1, h.2.1.2, h.2.2⟩

theorem duty (cfg : Config) (mem user : Nat → UInt8) : DutyOn cfg (cfg.machine.only (Keeps cfg))
    (fun s => s.Base) (fun flushing fl => .always (Promised cfg mem user flushing fl))
    (Rest cfg mem user) where
  stable := stable_rest
  inv flushing _ _ hs := hs.promised flushing
  flush t fl h hbase hpc _ hfl hr := by
    have hcount : flushedCount t.flushed = t.readIdx := by
      rw [hbase.readIdx_eq, if_pos hpc, Nat.add_zero]
    rw [← hcount, hfl]
    exact flush_rest t.batch t.orFlags h hr
  idle _ _ hs := (rest_call (c := .idle) trivial trivial trivial trivial).outlined hs
  finish _ _ hs := (rest_call (c := .finish) trivial trivial trivial trivial).outlined hs

/-! ## Every run -/

/-- The bytes of the descriptor are in the destination. -/
def Arrived (user : Nat → UInt8) (s : Host) (d : Descriptor) : Prop :=
  ∀ k < d.size, s.gpu (d.dstAddr + k) = user (d.srcAddr + k)

/-- Every copy submitted for the descriptor has been performed. -/
def Performed (s : Host) (d : Descriptor) : Prop :=
  ∀ st i e ds, s.device.WorkAt st i (.data e ds) → d ∈ ds → i < s.device.done st

/-- What the batches flushed so far have made of the destination memory. -/
structure Transfers {cfg : Config} (mem user : Nat → UInt8) (s : Loop cfg.backend) : Prop where
  /-- Each byte is what it was or what its own descriptor names. -/
  untorn : Untorn mem user (sent cfg s.flushed) s.backend.data
  /-- A descriptor below `done_idx` has arrived when its copies have been performed. -/
  published : ∀ d ∈ sent cfg s.flushed, d.slot < s.backend.data.doneIdx →
    Performed s.backend.data d → Arrived user s.backend.data d
  /-- Outside `flush_batch` that is true of every descriptor. -/
  arrived : s.pc.inCall ≠ some true → ∀ d ∈ sent cfg s.flushed, Performed s.backend.data d →
    Arrived user s.backend.data d
  /-- And when nothing is left to perform, nothing else has changed. -/
  delivered : s.pc.inCall ≠ some true → s.backend.data.device.Settled →
    Delivered mem user (sent cfg s.flushed) s.backend.data

theorem not_pending {d : Descriptor} (h : Performed s d) {p : Submission} (hp : Pending s p) : d ∉ p.2 := by
  obtain ⟨st, i, hw, hi⟩ := hp
  exact fun hd => absurd (h st i _ _ hw hd) (Nat.not_lt_of_le hi)

/-- A descriptor that is not of the batch being submitted. -/
theorem arrived_of_carried {batch : List Descriptor} (hds : Transferable (sent cfg fl))
    (hs : Carried mem user (sent cfg fl) batch s) {d : Descriptor} (hd : d ∈ sent cfg fl)
    (hnot : d ∉ batch) (h : Performed s d) : Arrived user s d := by
  obtain ⟨left, hcarrying⟩ := hs
  intro k hk
  refine hcarrying.delivered hds hd (fun p hp hmem => ?_) hk
  rcases hp with hp | hp
  · exact hnot (hcarrying.ours p hp d hmem)
  · exact not_pending h hp hmem

theorem transferred_sub {b : List Descriptor} {orFlags : Nat} :
    ∀ d ∈ transferred cfg b orFlags, d ∈ b := by
  unfold transferred
  split_ifs
  · exact fun d hd => List.mem_of_mem_filter hd
  · exact fun d hd => List.mem_of_mem_filter hd
  · exact fun d hd => hd

variable {staging : Nat → Nat → UInt8}

theorem attended_of_reachable {s : Loop cfg.backend}
    (hs : Reachable Loop.openStep (cfg.Allowed (Keeps cfg)) (· = cfg.start (.init user staging mem)) s) :
    AttendedOn cfg (cfg.machine.only (Keeps cfg))
      (fun flushing fl => .always (Promised cfg mem user flushing fl)) (Rest cfg mem user) s :=
  (duty cfg mem user).attended_allowed (rest_init cfg user staging mem)
    (fun _ h => Loop.base_of_reachable h) (fun _ _ hc => hc) hs

/-- A descriptor below `done_idx` has arrived when the copies submitted for it have been performed. -/
theorem arrived_of_performed {s : Loop cfg.backend}
    (hs : Reachable Loop.openStep (cfg.Allowed (Keeps cfg)) (· = cfg.start (.init user staging mem)) s)
    (hds : Transferable (sent cfg s.flushed)) {d : Descriptor} (hd : d ∈ sent cfg s.flushed)
    (hslot : d.slot < s.backend.data.doneIdx) (hperf : Performed s.backend.data d) :
    Arrived user s.backend.data d := by
  rcases (attended_of_reachable hs).2.inv.carried hds with h | ⟨-, earlier, b, hfl, hdone, h⟩
  · exact arrived_of_carried hds h hd List.not_mem_nil hperf
  · -- one still to be submitted is of a slot not below `done_idx`
    refine arrived_of_carried hds h hd (fun hmem => ?_) hperf
    have hle := (Loop.base_of_reachable hs).le_slot hfl (transferred_sub d hmem)
    exact absurd (hslot.trans_le (hdone.trans hle)) (Nat.lt_irrefl _)

/-- **Every batch is transferred**, in a run that keeps to `Keeps`, however many are under way. -/
theorem transfers_of_reachable {s : Loop cfg.backend}
    (hs : Reachable Loop.openStep (cfg.Allowed (Keeps cfg)) (· = cfg.start (.init user staging mem)) s)
    (hds : Transferable (sent cfg s.flushed)) : Transfers mem user s := by
  have hcarried := (attended_of_reachable hs).2.inv.carried hds
  have hbetween : s.pc.inCall ≠ some true → Carried mem user (sent cfg s.flushed) [] s.backend.data :=
    fun hpc => hcarried.resolve_right fun h => Bool.false_ne_true
      ((beq_eq_false_iff_ne.mpr hpc).symm.trans h.1)
  refine ⟨?_, fun d hd hslot hperf => arrived_of_performed hs hds hd hslot hperf, fun hpc d hd hperf =>
    arrived_of_carried hds (hbetween hpc) hd List.not_mem_nil hperf, fun hpc hsettled => ⟨fun d hd => ?_, fun a ha => ?_⟩⟩
  · rcases hcarried with ⟨left, h⟩ | ⟨-, _, _, -, -, left, h⟩ <;> exact untorn_of_carrying hds h
  · refine arrived_of_carried hds (hbetween hpc) hd List.not_mem_nil fun st i e ds hw _ => ?_
    have hlt := hw.lt
    rwa [← hsettled st] at hlt
  · obtain ⟨left, h⟩ := hbetween hpc
    exact h.unchanged ha

/-- With one channel there is nothing to keep to. -/
theorem keeps_of_channels (h : cfg.channels = 1) (c : Call) (s : Host) : Keeps cfg c s := by
  cases c with
  | recordEventOnLastStream e =>
    cases e with
    | staging b =>
      intro ch hch hne
      refine absurd ?_ hne
      rw [Config.lastChannel, h, Nat.mod_one]
      omega
    | _ => trivial
  | _ => trivial

theorem allowed_of_channels (h : cfg.channels = 1) (s : Loop cfg.backend) (a : Loop.OpenAct cfg.backend) :
    cfg.Allowed (Keeps cfg) s a := by
  unfold Config.Allowed
  split
  · exact fun c _ _ => keeps_of_channels h c _
  · trivial

/-! ## What a producer may rely on -/

variable {P : Type} [DecidableEq P]

/-- The thread keeps to `Keeps` at this step. -/
def Keeping (cfg : Config) (r : Ring P cfg.backend) : Ring.Act P cfg.backend → Prop
  | .loop a => cfg.Allowed (Keeps cfg) r.loop (.loop a)
  | _ => True

/-- What the producers do to the loop is to store to its ring. -/
theorem loop_step {A : Call → Host → Prop} {r r' : Ring P cfg.backend} {a : Ring.Act P cfg.backend}
    (hc : ∀ l, a = .loop l → cfg.Allowed A r.loop (.loop l)) (h : r.step a = some r') :
    r'.loop = r.loop ∨ ∃ o, cfg.Allowed A r.loop o ∧ r.loop.openStep o = some r'.loop := by
  rcases Loop.openStep_of_ring h with he | ⟨o, ha, ho⟩
  · exact .inl he
  · refine .inr ⟨o, ?_, ho⟩
    cases o with
    | loop l => exact hc l (ha l rfl)
    | _ => trivial

/-- The ids of the descriptor have entries in the tables. -/
structure Handled (cfg : Config) (d : Descriptor) : Prop where
  list : cfg.useCe = true → cfg.sgQueue = true → d.group < maxSgLists
  tile : cfg.useCe = true → cfg.tiledQueue = true → d.group < maxTiles

theorem mem_transferred {b : List Descriptor} {orFlags : Nat} {d : Descriptor} (hd : d ∈ b)
    (h : Handled cfg d) : d ∈ transferred cfg b orFlags := by
  unfold transferred
  split_ifs with hsg htiled
  · exact List.mem_filter.mpr ⟨hd, decide_eq_true (h.list hsg.1 hsg.2.1)⟩
  · exact List.mem_filter.mpr ⟨hd, decide_eq_true (h.tile htiled.1 htiled.2.1)⟩
  · exact hd

theorem transferred_sublist (b : List Descriptor) (orFlags : Nat) : (transferred cfg b orFlags).Sublist b := by
  unfold transferred
  split_ifs
  · exact List.filter_sublist
  · exact List.filter_sublist
  · exact List.Sublist.refl b

theorem sent_sublist (fl : Flushed) : (sent cfg fl).Sublist (fl.map Prod.fst).flatten := by
  unfold sent
  induction fl with
  | nil => exact List.Sublist.refl _
  | cons b fl ih =>
    rw [List.flatMap_cons, List.map_cons, List.flatten_cons]
    exact (transferred_sublist b.1 b.2).append ih

/-- What a producer that finds a slot below `done_idx` may rely on. -/
structure Fulfilled (user : Nat → UInt8) (r : Ring P cfg.backend) : Prop where
  committed : ∀ x < r.loop.backend.data.doneIdx, r.committed x = true
  /-- Every byte of the descriptor in the slot is where it asks for it. -/
  arrived : ∀ x < r.loop.backend.data.doneIdx, Handled cfg (r.descriptor x) →
    Arrived user r.loop.backend.data (r.descriptor x)

/-- **What is done has arrived.**  Producers and the polling thread over the ring, in whatever mode
without pending tile events: while no two of the descriptors popped write the same byte, a slot below
`done_idx` has been committed and its descriptor transferred. -/
theorem fulfilled_of_reachable (hu : cfg.Undeferred) {r : Ring P cfg.backend}
    (hr : Reachable Ring.step (Keeping cfg)
      (· = Ring.init (show cfg.backend.State from ⟨.init user staging mem, []⟩)) r)
    (hb : r.InWords) (hds : Transferable ((List.range r.loop.readIdx).map r.descriptor)) :
    Fulfilled user r := by
  have hv := Ring.valid_of_reachable (hr.mono fun _ _ _ => trivial) hb
  have hs : Reachable Loop.openStep (cfg.Allowed (Keeps cfg)) (· = cfg.start (.init user staging mem))
      r.loop := hr.project Ring.loop (by rintro _ rfl; rfl) fun _ _ _ hc h =>
    loop_step (fun l ha => by subst ha; exact hc) h
  have hbase := Loop.base_of_reachable hs
  have hatt := PublishedSlots.attended_of_reachable hu (hs.mono fun _ _ _ => trivial)
  obtain ⟨hle, hcopies⟩ := hatt.2.inv.1
  have hread : flushedCount r.loop.flushed ≤ r.loop.readIdx := by
    rw [hbase.readIdx_eq]
    exact Nat.le_add_right _ _
  refine ⟨fun x hx => hv.below_read x (hx.trans_le (hle.trans hread)), fun x hx hx' => ?_⟩
  have hpopped : ((r.loop.flushed.map Prod.fst).flatten).Sublist r.loop.popped :=
    List.sublist_append_left _ _
  have hsent : Transferable (sent cfg r.loop.flushed) := by
    rw [hv.popped_eq] at hpopped
    exact hds.sublist ((sent_sublist _).trans hpopped)
  -- the descriptor flushed for the slot is the one in it
  obtain ⟨d, hd, hslot⟩ : ∃ d ∈ (r.loop.flushed.map Prod.fst).flatten, d.slot = x := by
    refine List.mem_map.mp ?_
    rw [hbase.flushed_map_slot]
    exact List.mem_range.mpr (hx.trans_le hle)
  have hmem := hpopped.subset hd
  rw [hv.popped_eq] at hmem
  obtain ⟨y, -, rfl⟩ := List.mem_map.mp hmem
  have hyx : y = x := hslot
  subst hyx
  obtain ⟨b, hb', hdb⟩ := List.mem_flatten.mp hd
  obtain ⟨b, hbm, rfl⟩ := List.mem_map.mp hb'
  refine arrived_of_performed hs hsent (List.mem_flatMap.mpr ⟨b, hbm, mem_transferred hdb hx'⟩) hx ?_
  exact fun st i e ds hw hmem => hcopies st i e ds hw ⟨_, hmem, hx⟩

section Example

open Deferred (memory commit poll loads perform copied)

/-- Two channels, one staging buffer, no gather worker. -/
private def staged : Config :=
  { Config.plain with
    channels := 2
    staging := ⟨1, 4096⟩
    channels_pos := Nat.two_pos
    channels_le := two_le_maxCeChannels
    bufs_le := one_le_numStagingBufs }

/-- `n` descriptors from slot `k` on, for destinations `stride` apart. -/
private def descriptors (k n dst stride : Nat) : List Descriptor :=
  (List.range n).map fun i =>
    ⟨65536 - 32 * i, dst + stride * i, 16, if i + 1 = n then flagUrgent else 0, 0, k + i⟩

/-- They are committed, and popped as one batch. -/
private def popping (ds : List Descriptor) : List (Loop.OpenAct staged.backend) :=
  (ds.flatMap fun d => commit d.slot d.srcAddr d.dstAddr d.flags) ++ poll 2 ++
    (List.replicate ds.length (loads ++ poll 5)).flatten

/-- The polling thread gathers `n` entries. -/
private def gathering (n : Nat) : List (Loop.OpenAct staged.backend) :=
  List.replicate n (.loop (.backend (show staged.backend.Act from .env (.gather 0))))

/-- A channel performs its next `n` copies. -/
private def copying (n ch : Nat) : List (Loop.OpenAct staged.backend) :=
  (List.replicate n (copied staged ch)).flatten

/-- 33 descriptors are gathered, and sent as 33 runs over both channels. Channel 0 performs its share
before the event is recorded on channel 1. -/
private def firstBatch : List (Loop.OpenAct staged.backend) :=
  popping (descriptors 0 33 131072 32) ++ perform staged 4 ++ gathering 33 ++ perform staged 38 ++
    copying 17 0 ++ perform staged 3 ++ poll 1

/-- Two more are gathered into the same buffer, once channel 1 has performed its share, and sent as
one run. -/
private def secondBatch : List (Loop.OpenAct staged.backend) :=
  popping (descriptors 33 2 262144 16) ++ perform staged 3 ++ copying 16 1 ++ perform staged 3 ++
    gathering 2 ++ perform staged 8 ++ poll 1

private structure Outcome where
  flushed : List (List Descriptor × Nat)
  doneIdx : Nat
  bytes : List UInt8
  deriving DecidableEq

private def outcome (s : Loop staged.backend) : Outcome where
  flushed := s.flushed
  doneIdx := s.backend.data.doneIdx
  bytes := [131072, 262160].map s.backend.data.gpu

/-- Two batches go through one staging buffer. Their copies are all made, and an idle iteration
publishes them. -/
theorem transfers_of_reachable_two : ∃ s : Loop staged.backend,
    Reachable Loop.openStep (staged.Allowed (Keeps staged)) (· = staged.start memory) s ∧
      s.backend.data.doneIdx = 35 ∧ s.backend.data.gpu 131072 = 1 ∧ s.backend.data.gpu 262160 = 1 ∧
      Transfers (fun _ => 0) (fun _ => 1) s := by
  have h : (runWhile Loop.openStep (staged.Allowed (Keeps staged)) (staged.start memory)
      (firstBatch ++ secondBatch ++ copying 1 0 ++ poll 2 ++ perform staged 12)).map outcome =
      some ⟨[(descriptors 0 33 131072 32, flagUrgent), (descriptors 33 2 262144 16, flagUrgent)], 35,
        [1, 1]⟩ := by
    decide +kernel
  obtain ⟨s, hs, hout⟩ := Option.map_eq_some_iff.mp h
  simp only [outcome, Outcome.mk.injEq, List.map_cons, List.map_nil, List.cons.injEq, and_true] at hout
  obtain ⟨hflushed, hdone, hfirst, hlast⟩ := hout
  have hreach := (Reachable.self (staged.start memory)).runWhile hs
  refine ⟨s, hreach, hdone, hfirst, hlast, transfers_of_reachable hreach ?_⟩
  rw [hflushed]
  exact transferable_of_ascending (by decide +kernel) (by decide +kernel) (by decide +kernel)

private def first : Descriptor := ⟨4096, 8192, 16, flagUrgent, 0, 0⟩

private def one : Field → Nat
  | .srcAddr => 4096
  | .dstAddr => 8192
  | .size => 16
  | .flags => flagUrgent
  | .userData => 0

private def produce : List (Ring.Act Unit Config.plain.backend) :=
  [.reserve () 1 fun _ => one, .wait (), .write () 0 .srcAddr, .write () 0 .dstAddr, .write () 0 .size,
    .write () 0 .flags, .write () 0 .userData, .fence (), .commit () 0, .release ()]

private def onRing : Loop.OpenAct Config.plain.backend → List (Ring.Act Unit Config.plain.backend)
  | .loop a => [.loop a]
  | .storeField .. | .storeSequence .. => []

/-- One producer writes one descriptor, and finds it done. -/
theorem fulfilled_of_reachable_one : ∃ r : Ring Unit Config.plain.backend,
    r.loop.backend.data.doneIdx = 1 ∧ Fulfilled (fun _ => 1) r := by
  have h : (run Ring.step (Ring.init (show Config.plain.backend.State from ⟨memory, []⟩) : Ring Unit Config.plain.backend)
      (produce ++ (poll 2 ++ loads ++ poll 5 ++ perform Config.plain 7 ++ copied Config.plain 0 ++ poll 3 ++
        perform Config.plain 8).flatMap onRing)).map
      (fun r => (r.loop.backend.data.doneIdx, r.writeIdx, r.loop.readIdx, r.descriptor 0)) =
      some (1, 1, 1, first) := by
    decide +kernel
  obtain ⟨r, hr, hout⟩ := Option.map_eq_some_iff.mp h
  simp only [Prod.mk.injEq] at hout
  obtain ⟨hdone, hwrite, hread, hfirst⟩ := hout
  have hall := (Reachable.self (C := Always) (Ring.init (show Config.plain.backend.State from ⟨memory, []⟩) :
    Ring Unit Config.plain.backend)).run_always hr
  have hreach : Reachable Ring.step (Keeping Config.plain) _ r := hall.mono fun r a _ => by
    cases a with
    | loop a => exact allowed_of_channels (show Config.plain.channels = 1 from rfl) r.loop (.loop a)
    | _ => trivial
  refine ⟨r, hdone, fulfilled_of_reachable (fun _ h => absurd h (by decide)) hreach ⟨?_, ?_⟩ ?_⟩
  · rw [hwrite]; decide
  · rw [hread]; decide
  · rw [hread, List.range_one, List.map_singleton, hfirst]
    exact ⟨by decide, by decide, List.pairwise_singleton _ _⟩

end Example

end QueueDelivery
end Gfd
