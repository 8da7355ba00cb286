import Mathlib
import GfdProof.BatchMoves
import GfdProof.PendingWrites
import GfdProof.QueueCompletion
import GfdProof.StagingReuse

/-! # Copies on their way to the destination memory

The memory that the descriptors transferred so far aim at is fixed beforehand (`target`), and the
copies that are queued, or are still to be submitted, are on their way to it (`Underway`, over
`PendingWrites`).  That is kept when a copy is performed, at whatever moment and on whatever stream,
when one is submitted, and when the CPU makes one itself; and when descriptors are taken up whose
destinations no earlier one has, the memory aimed at changes by theirs (`Underway.take`).

A copy reads its source when it is performed, so a gather into a staging buffer is harmless only
where no copy that reads the buffer is left to perform (`StagingReuse.Unread`).  Then the entries
gathered may be replaced by the runs that lie in the buffer (`Filled.runs`).
-/
namespace Gfd
namespace PendingCopies

open WorkStreams Script.Machine PendingWrites
open Direct (Reaches Deliverable deliver userByte)
open StagingReuse (Unread)

/-! ## The memory aimed at -/

/-- The ranges of the descriptors end below `2^64`, and no two of them write the same byte. -/
structure Transferable (ds : List Descriptor) : Prop where
  src_lt : ∀ d ∈ ds, d.srcAddr + d.size < wordSize
  dst_lt : ∀ d ∈ ds, d.dstAddr + d.size < wordSize
  disjoint : ds.Pairwise fun d d' => ∀ a, d.Writes a → ¬ d'.Writes a

/-- What the descriptors make of the memory `mem`, copied one by one. -/
def target (mem user : Nat → UInt8) (ds : List Descriptor) : Nat → UInt8 :=
  deliver (userByte user) mem (ds.map Descriptor.entry)

section Target
variable {ds ds' : List Descriptor} {mem user : Nat → UInt8}

theorem Transferable.fits (h : Transferable ds) : ∀ e ∈ ds.map Descriptor.entry, e.Fits :=
  List.forall_mem_map.mpr fun d hd => ⟨h.dst_lt d hd, d.srcAddr, rfl, h.src_lt d hd⟩

theorem Transferable.deliverable (h : Transferable ds) : Deliverable (ds.map Descriptor.entry) where
  source e he := (h.fits e he).src
  dst_lt e he := (h.fits e he).dst_lt
  disjoint := List.pairwise_map.mpr h.disjoint

theorem Transferable.sublist (h : Transferable ds) (hs : ds'.Sublist ds) : Transferable ds' :=
  ⟨fun d hd => h.src_lt d (hs.subset hd), fun d hd => h.dst_lt d (hs.subset hd), h.disjoint.sublist hs⟩

/-- No byte is written by descriptors of both parts. -/
theorem Transferable.not_writes (h : Transferable (ds ++ ds')) {a : Nat}
    (ha : ∃ d ∈ ds, d.Writes a) : ∀ d ∈ ds', ¬ d.Writes a := by
  obtain ⟨d, hd, hw⟩ := ha
  exact fun d' hd' => (List.pairwise_append.mp h.disjoint).2.2 d hd d' hd' a hw

/-- Only one descriptor writes a byte. -/
theorem Transferable.unique (h : Transferable ds) {d d' : Descriptor} (hd : d ∈ ds) (hd' : d' ∈ ds)
    {a : Nat} (ha : d.Writes a) (ha' : d'.Writes a) : d = d' := by
  by_contra hne
  have hsymm : Std.Symm fun d d' : Descriptor => ∀ a, d.Writes a → ¬ d'.Writes a :=
    ⟨fun d d' h a ha ha' => h a ha' ha⟩
  exact h.disjoint.forall hd hd' hne a ha ha'

/-- Descriptors whose destinations lie one behind the other. -/
theorem not_writes_of_le {d d' : Descriptor} (hle : d.dstAddr + d.size ≤ d'.dstAddr)
    (hlt : d'.dstAddr + d'.size < wordSize) (a : Nat) (ha : d.Writes a) : ¬ d'.Writes a := by
  obtain ⟨k, hk, rfl⟩ := ha
  rintro ⟨k', hk', heq⟩
  rw [word_of_lt (by omega), word_of_lt (by omega)] at heq
  omega

/-- Descriptors whose ranges ascend. -/
theorem transferable_of_ascending (hsrc : ∀ d ∈ ds, d.srcAddr + d.size < wordSize)
    (hdst : ∀ d ∈ ds, d.dstAddr + d.size < wordSize)
    (h : ds.Pairwise fun d d' => d.dstAddr + d.size ≤ d'.dstAddr) : Transferable ds :=
  ⟨hsrc, hdst, h.imp_of_mem fun _ hd' hle => not_writes_of_le hle (hdst _ hd')⟩

variable (mem user) in
/-- A byte of a descriptor becomes the byte that the descriptor names. -/
theorem target_of_mem (h : Transferable ds) {d : Descriptor} (hd : d ∈ ds) {k : Nat}
    (hk : k < d.size) : target mem user ds (d.dstAddr + k) = user (d.srcAddr + k) := by
  have hdel : target mem user ds (word (d.entry.dst + k)) = userByte user (d.entry.src.plus k) :=
    Direct.deliver_of_mem h.deliverable (List.mem_map_of_mem hd) hk
  have h1 := h.src_lt d hd
  have h2 := h.dst_lt d hd
  rw [show d.entry.dst = d.dstAddr from rfl, word_of_lt (by omega)] at hdel
  refine hdel.trans ?_
  show user (word (d.srcAddr + k)) = _
  rw [word_of_lt (by omega)]

variable (mem user) in
theorem target_of_writes (h : Transferable ds) {d : Descriptor} (hd : d ∈ ds) {a : Nat}
    (ha : d.Writes a) : ∃ k < d.size, a = d.dstAddr + k ∧ target mem user ds a = user (d.srcAddr + k) := by
  obtain ⟨k, hk, rfl⟩ := ha
  have hlt := h.dst_lt d hd
  rw [word_of_lt (by omega)]
  exact ⟨k, hk, rfl, target_of_mem mem user h hd hk⟩

/-- A byte of no descriptor keeps its value. -/
theorem target_of_not_writes {a : Nat} (ha : ∀ d ∈ ds, ¬ d.Writes a) : target mem user ds a = mem a :=
  Direct.deliver_of_not_reached (List.forall_mem_map.mpr ha)

/-- More descriptors change the memory aimed at where they write and nowhere else. -/
theorem target_append (h : Transferable (ds ++ ds')) {a : Nat} (ha : ∀ d ∈ ds', ¬ d.Writes a) :
    target mem user (ds ++ ds') a = target mem user ds a := by
  by_cases hw : ∃ d ∈ ds, d.Writes a
  · obtain ⟨d, hd, hw⟩ := hw
    obtain ⟨k, hk, rfl, ht⟩ := target_of_writes mem user (h.sublist (List.sublist_append_left _ _)) hd hw
    rw [ht, target_of_mem mem user h (List.mem_append_left _ hd) hk]
  · have hnone : ∀ d ∈ ds, ¬ d.Writes a := fun d hd hd' => hw ⟨d, hd, hd'⟩
    rw [target_of_not_writes hnone, target_of_not_writes (List.forall_mem_append.mpr ⟨hnone, ha⟩)]

end Target

/-! ## Copies under way -/

/-- What the copy of an entry would write now. -/
def writes (s : Host) (p : Submission) (a : Nat) : Option UInt8 :=
  if p.1.Covers a then some (s.byte p.1.src (a - p.1.dst)) else none

theorem writes_isSome {s : Host} {p : Submission} {a : Nat} :
    (writes s p a).isSome ↔ p.1.Covers a := by
  unfold writes
  split
  · exact iff_of_true rfl ‹_›
  · exact iff_of_false Bool.false_ne_true ‹_›

theorem apply_writes (s : Host) (p : Submission) : apply (writes s p) s.gpu = s.write p.1 := by
  funext a
  unfold apply writes Host.write
  by_cases h : p.1.Covers a
  · rw [if_pos h]
    exact (if_pos h).symm
  · rw [if_neg h]
    exact (if_neg h).symm

theorem writes_congr {s t : Host} (hu : t.user = s.user) (hs : t.staging = s.staging) :
    writes t = writes s := by
  funext p a
  unfold writes Host.byte
  rw [hu, hs]

/-- A copy that is queued and has not been performed. -/
def Pending (s : Host) (p : Submission) : Prop :=
  ∃ st i, s.device.WorkAt st i (.data p.1 p.2) ∧ s.device.done st ≤ i

/-- The copies to be performed, those of `left` still to be submitted. -/
def due (left : List Submission) (s : Host) : Set Submission := {p | p ∈ left ∨ Pending s p}

/-- The copies to be performed are on their way to what the descriptors `ds` make of `mem`.  Those
still to be submitted are for descriptors of `batch`, and no byte holds anything but what it held at
first or shall hold in the end. -/
structure Carrying (mem user : Nat → UInt8) (ds batch : List Descriptor) (left : List Submission)
    (s : Host) : Prop where
  user_eq : s.user = user
  done_le : ∀ st, s.device.done st ≤ (s.device.log st).length
  toward : Toward (writes s) (target mem user ds) (due left s) s.gpu
  clean : ∀ a, s.gpu a = mem a ∨ s.gpu a = target mem user ds a
  named : ∀ p ∈ due left s, p.Named ds
  ours : ∀ p ∈ left, ∀ d ∈ p.2, d ∈ batch

/-- And nothing is being gathered. -/
structure Underway (mem user : Nat → UInt8) (ds batch : List Descriptor) (left : List Submission)
    (s : Host) : Prop extends Carrying mem user ds batch left s where
  gathering : s.gathering = none

variable {cfg : Config} {mem user : Nat → UInt8} {ds batch : List Descriptor}
  {left ps : List Submission} {s t : Host}

/-- Device, memory and sources are as they were. -/
theorem Carrying.congr (hs : Carrying mem user ds batch left s) (hu : t.user = s.user)
    (hst : t.staging = s.staging) (hg : t.gpu = s.gpu) (hd : t.device.done = s.device.done)
    (hlen : ∀ st, (s.device.log st).length ≤ (t.device.log st).length)
    (hp : ∀ p, Pending t p ↔ Pending s p) : Carrying mem user ds batch left t := by
  have hdue : due left t = due left s := Set.ext fun p => or_congr_right (hp p)
  refine ⟨hu.trans hs.user_eq, fun st => ?_, ?_, hg ▸ hs.clean, hdue ▸ hs.named, hs.ours⟩
  · rw [hd]
    exact (hs.done_le st).trans (hlen st)
  · rw [hdue, hg, writes_congr hu hst]
    exact hs.toward

/-! ### What the device does -/

/-- When a stream performs an item, the copies left are those before, but for the item. -/
theorem pending_advance {st : Stream} {p : Submission} (h : Pending s p) :
    Pending { s with device := s.device.advance st } p ∨
      s.device.next st = some (.work (.data p.1 p.2)) := by
  obtain ⟨u, i, hw, hi⟩ := h
  by_cases hu : u = st
  · subst hu
    rcases Nat.lt_or_eq_of_le hi with hlt | rfl
    · exact .inl ⟨u, i, hw, by rw [Device.advance_done_self]; exact hlt⟩
    · exact .inr hw
  · exact .inl ⟨u, i, hw, by rw [Device.advance_done_of_ne _ hu]; exact hi⟩

theorem pending_of_advance {st : Stream} {p : Submission}
    (h : Pending { s with device := s.device.advance st } p) : Pending s p := by
  obtain ⟨u, i, hw, hi⟩ := h
  exact ⟨u, i, hw, (s.device.le_advance_done st u).trans hi⟩

/-- The copy of an entry leaves no byte other than it was or shall be. -/
theorem Carrying.clean_write (hs : Carrying mem user ds batch left s) {p : Submission}
    (hp : p ∈ due left s) (a : Nat) :
    s.write p.1 a = mem a ∨ s.write p.1 a = target mem user ds a := by
  rw [← apply_writes]
  rcases hs.toward.apply_or hp a with h | h
  · rw [h]
    exact hs.clean a
  · exact .inr h

/-- **A stream performs an item.** -/
theorem Carrying.advance (hs : Carrying mem user ds batch left s) {st : Stream} (h : s.advance st = some t) :
    Carrying mem user ds batch left t := by
  obtain ⟨hr, hc⟩ := Host.advance_cases h
  have hdone : ∀ u, (s.device.advance st).done u ≤ (s.device.log u).length := by
    intro u
    by_cases hu : u = st
    · subst hu
      obtain ⟨x, hx⟩ := Device.runnable_next hr
      rw [Device.advance_done_self]
      exact Device.next_lt hx
    · rw [Device.advance_done_of_ne _ hu]
      exact hs.done_le u
  have hsub : due left { s with device := s.device.advance st } ⊆ due left s :=
    fun p hp => hp.imp_right pending_of_advance
  -- an item that is no copy of data leaves the same copies to perform
  have hsame : (∀ p : Submission, s.device.next st ≠ some (.work (.data p.1 p.2))) →
      Carrying mem user ds batch left { s with device := s.device.advance st } := by
    intro hnone
    have hdue : due left s = due left { s with device := s.device.advance st } :=
      Set.Subset.antisymm (fun p hp => hp.imp_right fun hp =>
        (pending_advance hp).resolve_right (hnone p)) hsub
    exact ⟨hs.user_eq, hdone, hs.toward.congr hdue fun _ _ => rfl, hs.clean,
      fun p hp => hs.named p (hsub hp), hs.ours⟩
  rcases hc with ⟨c, hnext, rfl⟩ | ⟨u, n, hnext, rfl⟩
  · cases c with
    | data e ds' =>
      have hmem : (e, ds') ∈ due left s := .inr ⟨st, _, hnext, Nat.le_refl _⟩
      refine ⟨hs.user_eq, hdone, ?_, hs.clean_write hmem, fun p hp => hs.named p (hsub hp), hs.ours⟩
      show Toward (writes s) _ (due left { s with device := s.device.advance st }) (s.write e)
      rw [← apply_writes s (e, ds')]
      refine hs.toward.perform hmem hsub fun p hp => ?_
      rcases hp with hp | hp
      · exact .inr (.inl hp)
      · refine (pending_advance hp).elim (fun h => .inr (.inr h)) fun h => .inl ?_
        cases hnext.symm.trans h
        rfl
    | tileSignal dev first count =>
      have hkeep := hsame fun p h => by cases hnext.symm.trans h
      cases dev <;>
        exact hkeep.congr rfl rfl rfl rfl (fun _ => Nat.le_refl _) fun _ => Iff.rfl
    | listSignal id =>
      have hkeep := hsame fun p h => by cases hnext.symm.trans h
      exact hkeep.congr rfl rfl rfl rfl (fun _ => Nat.le_refl _) fun _ => Iff.rfl
  · exact hsame fun p h => by cases hnext.symm.trans h

theorem advance_gathering {st : Stream} (h : s.advance st = some t) : t.gathering = s.gathering := by
  obtain ⟨-, ⟨c, -, rfl⟩ | ⟨u, n, -, rfl⟩⟩ := Host.advance_cases h
  · exact Host.transfer_gathering _ c
  · rfl

theorem advance_staging {st : Stream} (h : s.advance st = some t) : t.staging = s.staging := by
  obtain ⟨-, ⟨c, -, rfl⟩ | ⟨u, n, -, rfl⟩⟩ := Host.advance_cases h
  · exact Host.transfer_staging _ c
  · rfl

theorem gather_none {k : Nat} (h : s.gathering = none) : s.gather k = none := by
  unfold Host.gather
  rw [h]

theorem stable_underway : cfg.machine.Stable (Underway mem user ds batch left) := by
  intro s e t hs h
  cases e with
  | advance st => exact ⟨hs.toCarrying.advance h, (advance_gathering h).trans hs.gathering⟩
  | gather k => cases (gather_none hs.gathering).symm.trans h

/-- When nothing is left, the memory is the one aimed at. -/
theorem Carrying.gpu (hs : Carrying mem user ds batch [] s) (hd : ∀ p, ¬ Pending s p) :
    s.gpu = target mem user ds :=
  hs.toward.eq fun p hp => hp.elim List.not_mem_nil (hd p)

theorem not_pending_of_settled (hd : s.device.Settled) (p : Submission) : ¬ Pending s p := by
  rintro ⟨st, i, hw, hi⟩
  have hlt := hw.lt
  rw [← hd st] at hlt
  exact absurd hlt (Nat.not_lt_of_le hi)

/-- A byte of a descriptor has its value once every copy for the descriptor has been performed. -/
theorem Carrying.delivered (hs : Carrying mem user ds batch left s) (hds : Transferable ds)
    {d : Descriptor} (hd : d ∈ ds) (hdone : ∀ p ∈ due left s, d ∉ p.2) {k : Nat} (hk : k < d.size) :
    s.gpu (d.dstAddr + k) = user (d.srcAddr + k) := by
  rw [← target_of_mem mem user hds hd hk]
  by_contra hne
  obtain ⟨p, hp, hsome⟩ := hs.toward.left _ hne
  have hnamed := hs.named p hp
  obtain ⟨d', hd', hw⟩ := hnamed.names _ (writes_isSome.mp hsome)
  have hlt := hds.dst_lt d hd
  have hw' : d.Writes (d.dstAddr + k) := ⟨k, hk, (word_of_lt (by omega)).symm⟩
  rw [hds.unique (hnamed.sub d' hd') hd hw hw'] at hd'
  exact hdone p hp hd'

/-- A byte of no descriptor has not changed. -/
theorem Carrying.unchanged (hs : Carrying mem user ds batch left s) {a : Nat} (ha : ∀ d ∈ ds, ¬ d.Writes a) :
    s.gpu a = mem a := by
  refine (hs.clean a).elim id fun h => ?_
  rw [h, target_of_not_writes ha]

/-! ### What the thread does -/

/-- The submission next in turn is queued. -/
theorem Carrying.submit {p : Submission} (hs : Carrying mem user ds batch (p :: left) s) (st : Stream) :
    Carrying mem user ds batch left { s with device := s.device.submit st (.data p.1 p.2) } := by
  have hdue : due left { s with device := s.device.submit st (.data p.1 p.2) } = due (p :: left) s := by
    refine Set.ext fun q => ⟨fun hq => ?_, fun hq => ?_⟩
    · rcases hq with hq | ⟨u, i, hw, hi⟩
      · exact .inl (List.mem_cons_of_mem _ hq)
      · rcases s.device.workAt_push hw with hw | ⟨-, -, hx⟩
        · exact .inr ⟨u, i, hw, hi⟩
        · left
          obtain ⟨e, ds⟩ := q
          cases hx
          exact List.mem_cons_self
    · rcases hq with hq | ⟨u, i, hw, hi⟩
      · rcases List.mem_cons.mp hq with rfl | hq
        · exact .inr ⟨st, _, s.device.workAt_submit_self st _, hs.done_le st⟩
        · exact .inl hq
      · exact .inr ⟨u, i, hw.grows (s.device.grows_submit st _), hi⟩
  refine ⟨hs.user_eq, fun u => ?_, ?_, hs.clean, ?_, fun q hq => hs.ours q (List.mem_cons_of_mem _ hq)⟩
  · exact (hs.done_le u).trans (s.device.grows_submit st _ u).length_le
  · rw [hdue]
    exact hs.toward
  · rw [hdue]
    exact hs.named

/-- The CPU copies the entry next in turn. -/
theorem Carrying.memcpy {p : Submission} (hs : Carrying mem user ds batch (p :: left) s) :
    Carrying mem user ds batch left { s with gpu := s.write p.1 } := by
  have hsub : due left s ⊆ due (p :: left) s := fun q hq => hq.imp_left (List.mem_cons_of_mem _)
  refine ⟨hs.user_eq, hs.done_le, ?_, hs.clean_write (.inl List.mem_cons_self),
    fun q hq => hs.named q (hsub hq), fun q hq => hs.ours q (List.mem_cons_of_mem _ hq)⟩
  show Toward (writes s) _ (due left s) (s.write p.1)
  rw [← apply_writes]
  refine hs.toward.perform (.inl List.mem_cons_self) hsub fun q hq => ?_
  rcases hq with hq | hq
  · exact (List.mem_cons.mp hq).imp id .inl
  · exact .inr (.inr hq)

/-- **Descriptors are taken up**, with the submissions that carry them. -/
theorem Underway.take (hs : Underway mem user ds batch [] s) {ds' : List Descriptor}
    (hds : Transferable (ds ++ ds')) (hc : Carries ds' ps) :
    Underway mem user (ds ++ ds') ds' ps s := by
  have hfits := (hds.sublist (List.sublist_append_right ds ds')).fits
  have hold : ∀ a, (∃ d ∈ ds, d.Writes a) →
      target mem user (ds ++ ds') a = target mem user ds a := fun a ha =>
    target_append hds (hds.not_writes ha)
  have hpending : ∀ p, Pending s p → ∀ a, p.1.Covers a →
      target mem user (ds ++ ds') a = target mem user ds a := by
    intro p hp a ha
    have hnamed := hs.named p (.inr hp)
    obtain ⟨d, hd, hw⟩ := hnamed.names a ha
    exact hold a ⟨d, hnamed.sub d hd, hw⟩
  have hnew : ∀ p ∈ ps, ∀ a v, writes s p a = some v → v = target mem user (ds ++ ds') a := by
    intro p hp a v hv
    obtain ⟨hle, hlt⟩ := writes_isSome.mp (Option.isSome_of_eq_some hv)
    have hmem : p.1 ∈ ps.map Prod.fst := List.mem_map_of_mem hp
    obtain ⟨b, hb, -⟩ := (hc.moved.fits _ hmem).src
    obtain ⟨d, hd, j, hj, hdst, hsrc⟩ := hc.moved.exists_descriptor hfits hmem hb
      (k := a - p.1.dst) (by omega)
    rw [show a = d.dstAddr + j by omega, target_of_mem mem user hds (List.mem_append_right _ hd) hj, ← hsrc]
    rw [writes, if_pos ⟨hle, hlt⟩, hb, Option.some.injEq] at hv
    rw [← hv, ← hs.user_eq]
    rfl
  refine ⟨⟨hs.user_eq, hs.done_le, ?_, fun a => ?_, fun p hp => ?_, fun p hp => (hc.named p hp).sub⟩,
    hs.gathering⟩
  · refine hs.toward.retarget (fun p hp => .inr (hp.resolve_left List.not_mem_nil))
      (fun p hp a ha => hpending p (hp.resolve_left List.not_mem_nil) a (writes_isSome.mp ha))
      (fun p hp hnot => hnew p (hp.resolve_right fun h => hnot (.inr h))) fun a hne => ?_
    -- such a byte is one of the new descriptors', so a submission is for it
    by_contra hnone
    refine hne (target_append hds fun d hd hw => hnone ?_)
    obtain ⟨p, hp, hreach⟩ := (hc.moved.same.reaches a).mpr ⟨d.entry, List.mem_map_of_mem hd, hw⟩
    obtain ⟨q, hq, rfl⟩ := List.mem_map.mp hp
    exact ⟨q, .inl hq, writes_isSome.mpr ((hc.moved.fits _ hp).covers_iff.mpr hreach)⟩
  · by_cases hw : ∃ d ∈ ds, d.Writes a
    · rw [hold a hw]
      exact hs.clean a
    · exact .inl (hs.toCarrying.unchanged fun d hd hd' => hw ⟨d, hd, hd'⟩)
  · rcases hp with hp | hp
    · exact (hc.named p hp).mono fun _ => List.mem_append_right _
    · exact (hs.named p (.inr hp)).mono fun _ => List.mem_append_left _

/-! ## The calls that move no data -/

/-- The calls that submit no data, copy none and gather none. -/
def Silent : Call → Prop
  | .copyAsync _ c => ∀ e ds, c ≠ .data e ds
  | .submit cs => ∀ c ∈ cs, ∀ e ds, c ≠ .data e ds
  | .memcpy _ | .parallelGather .. | .gatherWait | .flushBatch .. | .processBatch _
  | .processBatchNoCe _ | .processBatchTiled _ | .processBatchSg _ => False
  | _ => True

theorem silent_expands {c c' : Call} (h : c.Expands c') (hc : Silent c) : Silent c' := by
  cases h with
  | copyAsync ch hx => exact hc _ hx
  | memcpy | direct | stagingWait | parallelGather | gatherWait | staged | recordStaging | stagingSent
  | addProgress | tileData | tileWait | tileSignal | tileSignals | sgData | sgWait | storeSignal
  | listSignal | sgSync | storeListDone | addListsCompleted | processBatchSg | processBatchTiled
  | processBatch | processBatchNoCe | setAsync | pushTileEvent | storeDone | tileStep => exact hc.elim
  | _ => trivial

/-- What such a call leaves alone. -/
structure Aside (s t : Host) : Prop where
  user : t.user = s.user
  staging : t.staging = s.staging
  gpu : t.gpu = s.gpu
  gathering : t.gathering = s.gathering

theorem aside_perform {c : Call} {m : List Call} (hc : Silent c) (hp : cfg.perform s c = some (t, m)) :
    Aside s t := by
  cases c with
  | memcpy | parallelGather | gatherWait => exact hc.elim
  | eventSynchronize e =>
    simp only [Config.perform] at hp
    split at hp
    · cases hp; exact ⟨rfl, rfl, rfl, rfl⟩
    · cases hp
  | tileStep d =>
    cases hp
    unfold Host.tileStep Host.storeTile
    dsimp only
    split_ifs <;> exact ⟨rfl, rfl, rfl, rfl⟩
  | storeTile dev id =>
    cases hp
    unfold Host.storeTile
    dsimp only
    split <;> exact ⟨rfl, rfl, rfl, rfl⟩
  | _ => cases hp; exact ⟨rfl, rfl, rfl, rfl⟩

theorem pending_perform {c : Call} {m : List Call} (hc : Silent c)
    (hp : cfg.perform s c = some (t, m)) (p : Submission) : Pending t p ↔ Pending s p := by
  unfold Pending
  rw [done_perform hp]
  constructor
  · rintro ⟨st, i, hw, hi⟩
    refine ⟨st, i, (workAt_perform hp hw).resolve_right fun h => ?_, hi⟩
    subst h
    exact hc _ _ rfl
  · rintro ⟨st, i, hw, hi⟩
    exact ⟨st, i, hw.grows (grows_perform cfg hp), hi⟩

theorem Underway.perform {c : Call} {m : List Call} (hs : Underway mem user ds batch left s) (hc : Silent c)
    (hp : cfg.perform s c = some (t, m)) : Underway mem user ds batch left t := by
  have ha := aside_perform hc hp
  exact ⟨hs.toCarrying.congr ha.user ha.staging ha.gpu (done_perform hp)
    (fun st => (grows_perform cfg hp st).length_le) (pending_perform hc hp), ha.gathering.trans hs.gathering⟩

/-- At every moment the copies are on their way, whichever are still to be submitted. -/
def Carried (mem user : Nat → UInt8) (ds batch : List Descriptor) (s : Host) : Prop :=
  ∃ left, Carrying mem user ds batch left s

/-- A triple that keeps to it. -/
abbrev Steady (cfg : Config) (mem user : Nat → UInt8) (ds batch : List Descriptor) (P : Host → Prop)
    (l : List Call) (Q : Host → Prop) : Prop :=
  cfg.machine.Triple (.always (Carried mem user ds batch)) P l Q

theorem Carrying.carried (hs : Carrying mem user ds batch left s) : Carried mem user ds batch s :=
  ⟨left, hs⟩

theorem Underway.carried (s : Host) (hs : Underway mem user ds batch left s) :
    Carried mem user ds batch s := hs.toCarrying.carried

theorem steady_atom {c : Call}
    (hdo : ∀ s t m, Underway mem user ds batch left s → cfg.perform s c = some (t, m) →
      m = [] ∧ Underway mem user ds batch ps t) :
    Steady cfg mem user ds batch (Underway mem user ds batch left) [c]
      (Underway mem user ds batch ps) :=
  Triple.atom stable_underway Underway.carried (fun _ _ => trivial) stable_underway Underway.carried hdo

theorem steady_nil : Steady cfg mem user ds batch (Underway mem user ds batch left) []
    (Underway mem user ds batch left) := Triple.nil stable_underway Underway.carried

/-- **The frame of the calls that move no data.** -/
theorem steady_silent {l : List Call} (hl : ∀ c ∈ l, Silent c) :
    Steady cfg mem user ds batch (Underway mem user ds batch left) l
      (Underway mem user ds batch left) :=
  Triple.closed stable_underway Underway.carried (fun _ hc => .inr fun _ hs => ⟨trivial,
    fun _ _ hp => ⟨hs.perform hc hp, fun c' hm => silent_expands (expands_perform hp c' hm) hc⟩⟩) hl

/-! ## Submitting and copying -/

theorem steady_copies (f : Nat → Nat) (ps left : List Submission) (n : Nat) :
    Steady cfg mem user ds batch (Underway mem user ds batch (ps ++ left))
      (((ps.map fun p => Copy.data p.1 p.2).zipIdx n).map fun c => .copyAsync (.ce (f c.2)) c.1)
      (Underway mem user ds batch left) := by
  induction ps generalizing n with
  | nil => exact steady_nil
  | cons p ps ih =>
    refine Triple.cons (steady_atom fun s t m hs hp => ?_) (ih (n + 1))
    cases hp
    exact ⟨rfl, hs.toCarrying.submit _, hs.gathering⟩

/-- `submit_scatter_gather` -/
theorem steady_submit (ps left : List Submission) :
    Steady cfg mem user ds batch (Underway mem user ds batch (ps ++ left))
      [.submit (ps.map fun p => .data p.1 p.2)] (Underway mem user ds batch left) := by
  refine Triple.expand stable_underway Underway.carried (fun _ _ => trivial) (fun _ => rfl)
    fun s hs => ?_
  unfold Config.submit
  dsimp only
  split
  · rename_i hnil
    cases List.map_eq_nil_iff.mp hnil
    exact steady_nil s hs
  · refine Triple.append (steady_copies _ ps left 0) (steady_silent ?_) s hs
    exact List.forall_mem_cons.mpr ⟨trivial, List.forall_mem_map.mpr fun _ _ => trivial⟩

/-- One submission after the other. -/
theorem steady_submits (pss : List (List Submission)) :
    Steady cfg mem user ds batch (Underway mem user ds batch pss.flatten)
      (pss.map fun ps => .submit (ps.map fun p => .data p.1 p.2)) (Underway mem user ds batch []) := by
  induction pss with
  | nil => exact steady_nil
  | cons ps pss ih => exact Triple.cons (steady_submit ps pss.flatten) ih

/-- The submissions of the entries, each for the whole batch. -/
abbrev whole (batch : List Descriptor) (es : List SGEntry) : List Submission :=
  es.map fun e => (e, batch)

theorem steady_dataCopies (es : List SGEntry) :
    Steady cfg mem user ds batch (Underway mem user ds batch (whole batch es))
      [.submit (Config.dataCopies batch es)] (Underway mem user ds batch []) := by
  have h : Steady cfg mem user ds batch _ _ _ := steady_submit (whole batch es) []
  rw [List.append_nil, List.map_map] at h
  exact h

theorem steady_memcpys (es : List SGEntry) :
    Steady cfg mem user ds batch (Underway mem user ds batch (whole batch es)) (es.map .memcpy)
      (Underway mem user ds batch []) := by
  induction es with
  | nil => exact steady_nil
  | cons e es ih =>
    refine Triple.cons (steady_atom fun s t m hs hp => ?_) ih
    cases hp
    exact ⟨rfl, hs.toCarrying.memcpy, hs.gathering⟩

/-- Between batches nothing is left to be submitted. -/
theorem Underway.rebase (hs : Underway mem user ds batch [] s) (batch' : List Descriptor) :
    Underway mem user ds batch' [] s :=
  ⟨⟨hs.user_eq, hs.done_le, hs.toward, hs.clean, hs.named, List.forall_mem_nil _⟩, hs.gathering⟩

end PendingCopies
end Gfd
