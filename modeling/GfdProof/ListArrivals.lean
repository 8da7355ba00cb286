import Mathlib
import GfdProof.TileArrivals

/-! # What the signals of a list say about its data

A batch with the last descriptor of a list is handed to `process_batch_sg`, which signals every list
it finds in the batch.  Where there is a signal stream, `d_list_done` is written by a copy queued
behind every copy of data, and `lists_completed` is raised at once; where there is none, the thread
waits for the copies and then writes both.

Here a cell of `tile_signal_buf_` is only ever set to 1, so that it does not matter when the copy
takes it, and nothing is asked of a run as for the counters of tiles (`TileArrivals`): a list with a
signal is one of a batch that has been flushed, and every descriptor popped up to the end of that
batch is in the destination (`signalled_of_reachable`).  A list of which a part was flushed earlier
is complete then, too.  `lists_completed` is a count of such lists only where the thread waits.
-/
namespace Gfd

open Loop (flushedCount flushedCount_concat)

/-- The copy engine is on, over a scatter-gather queue. -/
structure Config.Listed (cfg : Config) : Prop where
  useCe : cfg.useCe = true
  sgQueue : cfg.sgQueue = true
  tiledQueue : cfg.tiledQueue = false

/-- Lists are signalled by copies. -/
abbrev Config.Copied (cfg : Config) : Prop := cfg.dListDone = true ∧ cfg.signalStream = true

/-- Lists are signalled in `d_list_done`. -/
abbrev Config.Signals (cfg : Config) : Prop :=
  cfg.dListDone = true ∧ (cfg.signalStream = true → cfg.tileSignalBuf = true)

namespace ListArrivals

open WorkStreams Script.Machine Transition
open BatchDelivery (Emptied emptied_calls stable_emptied transferred kept)
open Completion (CopiesDone)
open PendingCopies
open QueueDelivery (sent sent_concat imp_triple Arrived Handled)
open StagingReuse (Keeps)
open TileArrivals (Ahead Later stable_behind drained_submit fenced_submit)

variable {cfg : Config} {fl : Flushed} {lo : Nat} {s t : Host}

/-! ## The lists flushed -/

/-- The lists that are signalled for a batch. -/
def listsOf (b : List Descriptor × Nat) : List Nat :=
  if hasFlag b.2 flagLastInTile then (groupBatch maxSgLists (fun _ => none) b.1).1.map Prod.fst else []

/-- The lists that are signalled for some batches. -/
def listed (fl : Flushed) : List Nat := fl.flatMap listsOf

theorem listed_concat (fl : Flushed) (b : List Descriptor × Nat) :
    listed (fl ++ [b]) = listed fl ++ listsOf b := by
  unfold listed
  rw [List.flatMap_append, List.flatMap_singleton]

/-! ## What a signal stands for -/

/-- The list is signalled for the batches up to some point, and `P` holds of the slots of these. -/
def Stands (fl : Flushed) (id : Nat) (P : Nat → Prop) : Prop :=
  ∃ p, p <+: fl ∧ id ∈ listed p ∧ P (flushedCount p)

/-- A signal stands for copies performed, and one that is queued for copies that will have been by
then. -/
structure Backing (fl : Flushed) (s : Host) : Prop where
  valid : s.device.Valid
  data : ∀ st i e ds, s.device.WorkAt st i (.data e ds) → ∃ ch, st = .ce ch
  queued : ∀ st i id, s.device.WorkAt st i (.listSignal id) →
    st = .signal ∧ s.tileSignalBuf id = 1 ∧ Stands fl id fun n => Ahead n i s
  shown : ∀ id, s.dListDone id ≠ 0 → Stands fl id fun n => CopiesDone s n

/-- `lists_completed` counts the lists of the batches up to some point; where it is raised behind a
wait, the copies of these have been performed. -/
def Completed (cfg : Config) (fl : Flushed) (s : Host) : Prop :=
  ∃ p, p <+: fl ∧ s.listsCompleted = word (listed p).length ∧
    (¬ cfg.Copied → CopiesDone s (flushedCount p))

/-- The lists have a signal, or one is queued. -/
def Told (ids : List Nat) (s : Host) : Prop :=
  ∀ id ∈ ids, s.dListDone id ≠ 0 ∨
    ∃ i, s.device.done .signal ≤ i ∧ s.device.WorkAt .signal i (.listSignal id)

theorem Stands.imp {id : Nat} {P Q : Nat → Prop} (h : Stands fl id P)
    (hPQ : ∀ n ≤ flushedCount fl, P n → Q n) : Stands fl id Q := by
  obtain ⟨p, ⟨r, rfl⟩, hid, hP⟩ := h
  refine ⟨p, List.prefix_append p r, hid, hPQ _ ?_ hP⟩
  simp [flushedCount]

theorem Stands.mono {fl' : Flushed} {id : Nat} {P : Nat → Prop} (h : Stands fl id P)
    (hfl : fl <+: fl') : Stands fl' id P := by
  obtain ⟨p, hp, hid, hP⟩ := h
  exact ⟨p, hp.trans hfl, hid, hP⟩

theorem Backing.mono {fl' : Flushed} (hs : Backing fl s) (hfl : fl <+: fl') : Backing fl' s := by
  refine { hs with queued := fun st i id hw => ?_, shown := fun id h => (hs.shown id h).mono hfl }
  obtain ⟨hst, hcell, hstands⟩ := hs.queued st i id hw
  exact ⟨hst, hcell, hstands.mono hfl⟩

theorem Completed.mono {fl' : Flushed} (hs : Completed cfg fl s) (hfl : fl <+: fl') :
    Completed cfg fl' s := by
  obtain ⟨p, hp, hrest⟩ := hs
  exact ⟨p, hp.trans hfl, hrest⟩

/-! ### What the device does -/

/-- A signal appears where a copy takes its cell. -/
theorem signal_advance {st : Stream} (id : Nat) (h : s.advance st = some t) :
    t.dListDone id = s.dListDone id ∨
      t.dListDone id = s.tileSignalBuf id ∧ t.device.done st = s.device.done st + 1 ∧
        s.device.WorkAt st (s.device.done st) (.listSignal id) := by
  obtain ⟨-, ⟨c, hc, rfl⟩ | ⟨u, m, hc, rfl⟩⟩ := Host.advance_cases h
  · cases c with
    | listSignal x =>
      by_cases hid : x ≤ id ∧ id < x + 1
      · obtain rfl : id = x := Nat.le_antisymm (Nat.le_of_lt_succ hid.2) hid.1
        exact .inr ⟨if_pos hid, s.device.advance_done_self st, hc⟩
      · exact .inl (if_neg hid)
    | tileSignal dev first count => cases dev <;> exact .inl rfl
    | data e ds => exact .inl rfl
  · exact .inl rfl

theorem Backing.advance {st : Stream} (h : s.advance st = some t) (hs : Backing fl s) : Backing fl t := by
  have henv : s.EnvStep t := Host.envStep (e := .advance st) h
  have hvalid := henv.valid hs.valid
  refine ⟨hvalid, fun st i e ds hw => hs.data st i e ds (Completion.workAt_env henv hw),
    fun st i id hw => ?_, fun id hid => ?_⟩
  · obtain ⟨hst, hcell, hstands⟩ := hs.queued st i id (Completion.workAt_env henv hw)
    exact ⟨hst, henv.tileSignalBuf ▸ hcell, hstands.imp fun n _ => Ahead.env henv⟩
  · rcases signal_advance id h with he | ⟨-, hdone, hw⟩
    · rw [he] at hid
      exact (hs.shown id hid).imp fun n _ => PublishedSlots.CopiesDone.env henv
    · -- the copy has been performed, so what comes before it has
      obtain ⟨rfl, -, hstands⟩ := hs.queued _ _ _ hw
      refine hstands.imp fun n _ ha u j e ds hw hd => ?_
      refine ((ha.env henv) u j e ds hw hd).elim (fun h => h) fun hp => hvalid.done_of_precedes hp ?_
      rw [hdone]
      exact Nat.lt_succ_self _

/-- A signal stays. -/
theorem Backing.kept {st : Stream} (h : s.advance st = some t) (hs : Backing fl s) {id : Nat}
    (hid : s.dListDone id ≠ 0) : t.dListDone id ≠ 0 := by
  rcases signal_advance id h with he | ⟨he, -, hw⟩
  · rwa [he]
  · obtain ⟨-, hcell, -⟩ := hs.queued _ _ _ hw
    rw [he, hcell]
    exact Nat.one_ne_zero

theorem Completed.env (h : s.EnvStep t) (hs : Completed cfg fl s) : Completed cfg fl t := by
  obtain ⟨p, hp, hcount, hdone⟩ := hs
  exact ⟨p, hp, h.listsCompleted.trans hcount, fun hc => PublishedSlots.CopiesDone.env h (hdone hc)⟩

/-- A queued signal stays queued until it is performed. -/
theorem queued_advance {st : Stream} {i id : Nat} (h : s.advance st = some t)
    (hw : s.device.WorkAt .signal i (.listSignal id)) (hi : s.device.done .signal ≤ i) :
    t.device.done .signal ≤ i ∨ t.dListDone id = s.tileSignalBuf id := by
  obtain ⟨-, ⟨c, hc, rfl⟩ | ⟨u, m, hc, rfl⟩⟩ := Host.advance_cases h
  · rw [Host.transfer_device]
    by_cases hst : Stream.signal = st
    · subst hst
      rcases Nat.lt_or_eq_of_le hi with hlt | rfl
      · left
        rwa [Device.advance_done_self]
      · right
        cases hc.symm.trans hw
        exact if_pos ⟨Nat.le_refl _, Nat.lt_succ_self _⟩
    · left
      rwa [Device.advance_done_of_ne _ hst]
  · left
    by_cases hst : Stream.signal = st
    · subst hst
      rcases Nat.lt_or_eq_of_le hi with hlt | rfl
      · rwa [Device.advance_done_self]
      · cases hc.symm.trans hw
    · rwa [Device.advance_done_of_ne _ hst]

theorem Told.advance {st : Stream} {ids : List Nat} (h : s.advance st = some t) (hb : Backing fl s)
    (hs : Told ids s) : Told ids t := by
  have henv : s.EnvStep t := Host.envStep (e := .advance st) h
  intro id hid
  rcases hs id hid with hshown | ⟨i, hi, hw⟩
  · exact .inl (hb.kept h hshown)
  · rcases queued_advance h hw hi with hle | he
    · refine .inr ⟨i, hle, ?_⟩
      unfold Device.WorkAt
      rw [henv.log]
      exact hw
    · left
      rw [he, (hb.queued _ _ _ hw).2.1]
      exact Nat.one_ne_zero

/-- What the signals say, with `n` lists counted and the lists `ids` told. -/
structure Lists (cfg : Config) (p : Flushed) (ids : List Nat) (n : Nat) (s : Host) : Prop where
  backing : Backing p s
  completed : Completed cfg p s
  count : s.listsCompleted = word n
  told : cfg.Signals → Told ids s

/-- What they say at every moment. -/
def Shown (cfg : Config) (p : Flushed) (s : Host) : Prop := Backing p s ∧ Completed cfg p s

theorem Shown.mono {p p' : Flushed} (hs : Shown cfg p s) (hp : p <+: p') : Shown cfg p' s :=
  ⟨hs.1.mono hp, hs.2.mono hp⟩

theorem Lists.shown {p : Flushed} {ids : List Nat} {n : Nat} (s : Host) (hs : Lists cfg p ids n s) :
    Shown cfg p s := ⟨hs.backing, hs.completed⟩

theorem lists_init (cfg : Config) (user : Nat → UInt8) (staging : Nat → Nat → UInt8) (gpu : Nat → UInt8) :
    Lists cfg [] [] 0 (Host.init user staging gpu) where
  backing := {
    valid := Device.valid_empty
    data := fun _ _ _ _ h => absurd h.lt (Nat.not_lt_zero _)
    queued := fun _ _ _ h => absurd h.lt (Nat.not_lt_zero _)
    shown := fun _ h => absurd rfl h }
  completed := ⟨[], List.prefix_refl _, rfl, fun _ _ _ _ _ h => absurd h.lt (Nat.not_lt_zero _)⟩
  count := rfl
  told _ _ h := absurd h List.not_mem_nil

theorem stable_lists (p : Flushed) (ids : List Nat) (n : Nat) : cfg.machine.Stable (Lists cfg p ids n) := by
  intro s e t hs h
  have henv : s.EnvStep t := Host.envStep h
  refine ⟨?_, hs.completed.env henv, henv.listsCompleted.trans hs.count, fun hc => ?_⟩
  · cases e with
    | advance st => exact hs.backing.advance h
    | gather k =>
      obtain ⟨g, e, es, -, -, rfl⟩ := Host.gather_cases h
      exact ⟨hs.backing.valid, hs.backing.data, hs.backing.queued, hs.backing.shown⟩
  · cases e with
    | advance st => exact (hs.told hc).advance h hs.backing
    | gather k =>
      obtain ⟨g, e, es, -, -, rfl⟩ := Host.gather_cases h
      exact hs.told hc

/-! ### What the thread does -/

/-- The calls that submit nothing and signal nothing. -/
def Leaves : Call → Prop
  | .copyAsync .. | .submit _ | .processBatch _ | .processBatchTiled _ | .processBatchSg _
  | .addProgress .. | .storeSignal _ | .storeListDone _ | .addListsCompleted _ | .flushBatch .. => False
  | _ => True

theorem leaves_expands {c c' : Call} (h : c.Expands c') (hc : Leaves c) : Leaves c' := by
  cases h with
  | copyAsync | submitted | recordChannel | direct | stagingWait | parallelGather | gatherWait | staged
  | recordStaging | stagingSent | addProgress | tileData | tileWait | tileSignal | tileSignals | sgData
  | sgWait | storeSignal | listSignal | sgSync | storeListDone | addListsCompleted | processBatchSg
  | processBatchTiled | processBatch | processBatchNoCe | setAsync | pushTileEvent | storeDone
  | tileStep => exact hc.elim
  | _ => trivial

/-- The difference a call can make that signals nothing and submits data for slots from `lo` on. -/
structure Apart (lo : Nat) (s t : Host) : Prop where
  dListDone : t.dListDone = s.dListDone
  listsCompleted : t.listsCompleted = s.listsCompleted
  tileSignalBuf : t.tileSignalBuf = s.tileSignalBuf
  done : t.device.done = s.device.done
  valid : s.device.Valid → t.device.Valid
  grows : s.device.Grows t.device
  work : ∀ st i c, t.device.WorkAt st i c → s.device.WorkAt st i c ∨ (∃ ch, st = .ce ch) ∧ Later lo c

theorem apart_of_moved (h : s.Moved (Later lo) t) : Apart lo s t :=
  ⟨h.dListDone, h.listsCompleted, h.tileSignalBuf, h.done, h.valid, h.grows, h.work⟩

theorem valid_perform {c : Call} {m : List Call} (hp : cfg.perform s c = some (t, m))
    (hs : s.device.Valid) : t.device.Valid := by
  rcases device_perform hp with h | ⟨st, x, -, h⟩ | ⟨st, e, -, h⟩ | ⟨e, st, -, h⟩ <;> rw [h]
  · exact hs
  · exact hs.submit st x
  · exact hs.waitEvent st e
  · exact hs.record e st

theorem apart_perform {c : Call} {m : List Call} (hc : Leaves c) (hp : cfg.perform s c = some (t, m)) :
    Apart lo s t := by
  have hwork : ∀ st i c', t.device.WorkAt st i c' →
      s.device.WorkAt st i c' ∨ (∃ ch, st = .ce ch) ∧ Later lo c' := fun st i c' hw =>
    (workAt_perform hp hw).imp_right fun h => by subst h; exact hc.elim
  have hdone := done_perform hp
  have hgrows := grows_perform cfg hp
  have hvalid := valid_perform hp
  cases c with
  | eventSynchronize e =>
    simp only [Config.perform] at hp
    split at hp
    · cases hp; exact ⟨rfl, rfl, rfl, hdone, hvalid, hgrows, hwork⟩
    · cases hp
  | gatherWait =>
    simp only [Config.perform] at hp
    split at hp
    · split at hp
      · cases hp; exact ⟨rfl, rfl, rfl, hdone, hvalid, hgrows, hwork⟩
      · cases hp
    · cases hp
  | tileStep d =>
    cases hp
    refine ⟨?_, ?_, ?_, hdone, hvalid, hgrows, hwork⟩ <;> unfold Host.tileStep Host.storeTile <;>
      dsimp only <;> split_ifs <;> rfl
  | storeTile dev id =>
    cases hp
    refine ⟨?_, ?_, ?_, hdone, hvalid, hgrows, hwork⟩ <;> unfold Host.storeTile <;> dsimp only <;>
      split <;> rfl
  | copyAsync | processBatchTiled | processBatchSg | addProgress | storeSignal | storeListDone
  | addListsCompleted => exact hc.elim
  | _ => cases hp; exact ⟨rfl, rfl, rfl, hdone, hvalid, hgrows, hwork⟩

theorem Lists.apart {p : Flushed} {ids : List Nat} {n : Nat} (hlo : flushedCount p ≤ lo)
    (h : Apart lo s t) (hs : Lists cfg p ids n s) : Lists cfg p ids n t := by
  -- a copy for a slot below `lo` was there before
  have hold : ∀ {st j e ds n}, n ≤ flushedCount p → t.device.WorkAt st j (.data e ds) →
      (∃ d ∈ ds, d.slot < n) → s.device.WorkAt st j (.data e ds) := by
    intro st j e ds n hn hw hd
    refine (h.work st j _ hw).resolve_right ?_
    rintro ⟨-, hlater⟩
    obtain ⟨d, hd, hlt⟩ := hd
    exact absurd (hlater d hd) (by omega)
  have hcopies : ∀ {n}, n ≤ flushedCount p → CopiesDone s n → CopiesDone t n := by
    intro n hn hdone st j e ds hw hd
    rw [h.done]
    exact hdone st j e ds (hold hn hw hd) hd
  obtain ⟨hb, ⟨q, ⟨r, hr⟩, hq, hqdone⟩, hn, htold⟩ := hs
  refine ⟨⟨h.valid hb.valid, fun st i e ds hw => ?_, fun st i id hw => ?_, fun id hid => ?_⟩,
    ⟨q, ⟨r, hr⟩, h.listsCompleted.trans hq, fun hc => hcopies ?_ (hqdone hc)⟩,
    h.listsCompleted.trans hn, fun hc id hid => ?_⟩
  · exact (h.work st i _ hw).elim (hb.data st i e ds) fun hnew => hnew.1
  · obtain ⟨rfl, hcell, hstands⟩ := hb.queued st i id ((h.work st i _ hw).resolve_right fun hnew => hnew.2)
    refine ⟨rfl, h.tileSignalBuf ▸ hcell, hstands.imp fun n hn ha st j e ds hw hd => ?_⟩
    rw [h.done]
    exact (ha st j e ds (hold hn hw hd) hd).imp_right (·.grows h.grows)
  · rw [h.dListDone] at hid
    exact (hb.shown id hid).imp fun n hn => hcopies hn
  · rw [← hr]
    simp [flushedCount]
  · rw [h.dListDone, h.done]
    exact (htold hc id hid).imp_right fun htodo => by
      obtain ⟨i, hi, hw⟩ := htodo
      exact ⟨i, hi, hw.grows h.grows⟩

/-- **The frame of signals.** -/
theorem lists_leaves (p : Flushed) (ids : List Nat) (n : Nat) (hlo : flushedCount p ≤ lo) {l : List Call}
    (hl : ∀ c ∈ l, Leaves c ∨ c.Moves (Later lo)) :
    cfg.machine.Triple (.always (Shown cfg p)) (Lists cfg p ids n) l (Lists cfg p ids n) := by
  refine Triple.closed (stable_lists p ids n) Lists.shown (fun c hc => .inr fun s hs => ⟨trivial,
    fun t m hp => ?_⟩) hl
  rcases hc with hc | hc
  · exact ⟨hs.apart hlo (apart_perform hc hp), fun c' hm => .inl (leaves_expands (expands_perform hp c' hm) hc)⟩
  · obtain ⟨hmoved, hm⟩ := moved_perform cfg hc hp
    exact ⟨hs.apart hlo (apart_of_moved hmoved), fun c' hc' => .inr (hm c' hc')⟩

/-! ### Signalling -/

/-- Everything queued on a channel has been performed, or the signal stream waits for it. -/
abbrev Behind (s : Host) : Prop := ∀ ch, s.Drained ch ∨ s.Fenced .signal ch

/-- Setting a cell. -/
theorem Lists.storeSignal {p : Flushed} {ids : List Nat} {n : Nat} (hs : Lists cfg p ids n s) (id : Nat) :
    Lists cfg p ids n { s with tileSignalBuf := Function.update s.tileSignalBuf id 1 } := by
  refine ⟨⟨hs.backing.valid, hs.backing.data, fun st i x hw => ?_, hs.backing.shown⟩, hs.completed,
    hs.count, hs.told⟩
  obtain ⟨hst, hcell, hstands⟩ := hs.backing.queued st i x hw
  refine ⟨hst, ?_, hstands⟩
  dsimp only
  by_cases hx : x = id
  · subst hx
    exact Function.update_self ..
  · rwa [Function.update_of_ne hx]

/-- Queueing the copy of a cell behind every copy of data. -/
theorem Lists.copySignal {p : Flushed} {ids : List Nat} {n id : Nat} (hs : Lists cfg p ids n s)
    (hbehind : Behind s) (hcell : s.tileSignalBuf id = 1) (hid : id ∈ listed p) :
    Lists cfg p (ids ++ [id]) n { s with device := s.device.submit .signal (.listSignal id) } := by
  have hgrows := s.device.grows_submit .signal (.listSignal id)
  -- a copy of data was there before
  have hold : ∀ {st j e ds}, (s.device.submit .signal (.listSignal id)).WorkAt st j (.data e ds) →
      s.device.WorkAt st j (.data e ds) := by
    intro st j e ds hw
    refine (s.device.workAt_push hw).resolve_right ?_
    rintro ⟨-, -, h⟩
    cases h
  obtain ⟨hb, ⟨q, hq, hcount, hdone⟩, hn, htold⟩ := hs
  refine ⟨⟨hb.valid.submit _ _, fun st i e ds hw => hb.data st i e ds (hold hw), fun st i x hw => ?_,
    fun x hx => (hb.shown x hx).imp fun n _ h st j e ds hw hd => h st j e ds (hold hw) hd⟩,
    ⟨q, hq, hcount, fun hc st j e ds hw hd => hdone hc st j e ds (hold hw) hd⟩, hn, fun hc x hx => ?_⟩
  · rcases s.device.workAt_push hw with hw | ⟨rfl, rfl, hx⟩
    · obtain ⟨hst, hcell, hstands⟩ := hb.queued st i x hw
      exact ⟨hst, hcell, hstands.imp fun n _ ha st j e ds hw hd =>
        (ha st j e ds (hold hw) hd).imp_right (·.grows hgrows)⟩
    · cases hx
      refine ⟨rfl, hcell, p, List.prefix_refl p, hid, fun st j e ds hw _ => ?_⟩
      obtain ⟨ch, rfl⟩ := hb.data st j e ds (hold hw)
      rcases hbehind ch with hd | hf
      · exact .inl (hd j (hold hw).lt)
      · exact .inr ((hf j (hold hw).lt).grows hgrows)
  · rcases List.mem_append.mp hx with hx | hx
    · refine (htold hc x hx).imp_right fun h => ?_
      obtain ⟨i, hi, hw⟩ := h
      exact ⟨i, hi, hw.grows hgrows⟩
    · obtain rfl := List.mem_singleton.mp hx
      exact .inr ⟨_, hb.valid.done_le .signal, s.device.workAt_submit_self .signal _⟩

/-- Writing the signal of a list behind every copy. -/
theorem Lists.storeListDone {p : Flushed} {ids : List Nat} {n id : Nat} (hs : Lists cfg p ids n s)
    (hd : ∀ ch, s.Drained ch) (hid : id ∈ listed p) :
    Lists cfg p (ids ++ [id]) n { s with dListDone := Function.update s.dListDone id 1 } := by
  have hkept : ∀ x, s.dListDone x ≠ 0 → Function.update s.dListDone id 1 x ≠ 0 := by
    intro x hx
    by_cases h : x = id
    · rw [h, Function.update_self]
      exact Nat.one_ne_zero
    · rwa [Function.update_of_ne h]
  obtain ⟨hb, hcompleted, hn, htold⟩ := hs
  refine ⟨⟨hb.valid, hb.data, hb.queued, fun x hx => ?_⟩, hcompleted, hn, fun hc x hx => ?_⟩
  · by_cases h : x = id
    · subst h
      refine ⟨p, List.prefix_refl p, hid, fun st i e ds hw _ => ?_⟩
      obtain ⟨ch, rfl⟩ := hb.data st i e ds hw
      exact hd ch i hw.lt
    · dsimp only at hx
      rw [Function.update_of_ne h] at hx
      exact hb.shown x hx
  · rcases List.mem_append.mp hx with hx | hx
    · exact (htold hc x hx).imp_left (hkept x)
    · obtain rfl := List.mem_singleton.mp hx
      left
      dsimp only
      rw [Function.update_self]
      exact Nat.one_ne_zero

/-- Counting the lists of a batch. -/
theorem Lists.addCompleted {p : Flushed} {ids : List Nat} {n k : Nat} (hs : Lists cfg p ids n s)
    (hk : n + k = (listed p).length) (hd : ¬ cfg.Copied → ∀ ch, s.Drained ch) :
    Lists cfg p ids (n + k) { s with listsCompleted := word (s.listsCompleted + k) } := by
  have hword : word (s.listsCompleted + k) = word (n + k) := by rw [hs.count, word_add_word]
  refine ⟨⟨hs.backing.valid, hs.backing.data, hs.backing.queued, hs.backing.shown⟩,
    ⟨p, List.prefix_refl p, hk ▸ hword, fun hc st i e ds hw _ => ?_⟩, hword, hs.told⟩
  obtain ⟨ch, rfl⟩ := hs.backing.data st i e ds hw
  exact hd hc ch i hw.lt

theorem Lists.mono {p p' : Flushed} {ids : List Nat} {n : Nat} (hs : Lists cfg p ids n s) (hp : p <+: p') :
    Lists cfg p' ids n s := ⟨hs.backing.mono hp, hs.completed.mono hp, hs.count, hs.told⟩

theorem stable_signalling (p : Flushed) (ids : List Nat) (n : Nat) :
    cfg.machine.Stable fun s => Behind s ∧ Lists cfg p ids n s :=
  stable_behind.and (stable_lists p ids n)

/-- The signals of some lists, each copied behind every copy of data. -/
theorem lists_copies {p : Flushed} {n : Nat} (hc : cfg.Copied) (gs : List (Nat × List Descriptor)) :
    ∀ ids, (∀ g ∈ gs, g.1 ∈ listed p) →
    cfg.machine.Triple (.always (Shown cfg p)) (fun s => Behind s ∧ Lists cfg p ids n s)
      (gs.flatMap fun g =>
        if cfg.tileSignalBuf then [.storeSignal g.1, .copyAsync .signal (.listSignal g.1)] else [])
      (fun s => Behind s ∧ Lists cfg p (ids ++ gs.map Prod.fst) n s) := by
  induction gs with
  | nil =>
    intro ids _
    rw [List.map_nil, List.append_nil]
    exact Triple.nil (stable_signalling p ids n) fun s hs => hs.2.shown
  | cons g gs ih =>
    intro ids hmem
    obtain ⟨hg, hgs⟩ := List.forall_mem_cons.mp hmem
    have hone : cfg.machine.Triple (.always (Shown cfg p)) (fun s => Behind s ∧ Lists cfg p ids n s)
        (if cfg.tileSignalBuf then [.storeSignal g.1, .copyAsync .signal (.listSignal g.1)] else [])
        (fun s => Behind s ∧ Lists cfg p (ids ++ [g.1]) n s) := by
      split
      · have hset : cfg.machine.Stable fun s =>
            (Behind s ∧ Lists cfg p ids n s) ∧ s.tileSignalBuf g.1 = 1 :=
          (stable_signalling p ids n).and (stable_env cfg fun _ _ h hs => by rw [h.tileSignalBuf]; exact hs)
        refine Triple.cons (Q := fun s => (Behind s ∧ Lists cfg p ids n s) ∧ s.tileSignalBuf g.1 = 1)
          (Triple.atom (stable_signalling p ids n) (fun s hs => hs.2.shown) (fun _ _ => trivial)
            hset (fun s hs => hs.1.2.shown) fun s t m hs hp => ?_)
          (Triple.atom hset (fun s hs => hs.1.2.shown) (fun _ _ => trivial)
            (stable_signalling p _ n) (fun s hs => hs.2.shown) fun s t m hs hp => ?_)
        · cases hp
          exact ⟨rfl, ⟨hs.1, hs.2.storeSignal g.1⟩, Function.update_self ..⟩
        · cases hp
          obtain ⟨⟨hbehind, hlists⟩, hcell⟩ := hs
          exact ⟨rfl, fun ch => (hbehind ch).imp drained_submit fenced_submit,
            hlists.copySignal hbehind hcell hg⟩
      · rename_i hbuf
        refine (Triple.nil (stable_signalling p ids n) fun s hs => hs.2.shown).conseq (fun _ h => h)
          fun s hs => ⟨hs.1, hs.2.backing, hs.2.completed, hs.2.count, fun h => absurd (h.2 hc.2) hbuf⟩
    have hrest := ih (ids ++ [g.1]) hgs
    rw [List.append_assoc, List.singleton_append] at hrest
    rw [List.flatMap_cons]
    exact hone.append hrest

/-- The signals of some lists, written behind every copy. -/
theorem lists_stores {p : Flushed} {n : Nat} (gs : List (Nat × List Descriptor)) :
    ∀ ids, (∀ g ∈ gs, g.1 ∈ listed p) →
    cfg.machine.Triple (.always (Shown cfg p)) (fun s => (∀ ch, s.Drained ch) ∧ Lists cfg p ids n s)
      (gs.map fun g => .storeListDone g.1)
      (fun s => (∀ ch, s.Drained ch) ∧ Lists cfg p (ids ++ gs.map Prod.fst) n s) := by
  have hst : ∀ ids, cfg.machine.Stable fun s => (∀ ch, s.Drained ch) ∧ Lists cfg p ids n s := fun ids =>
    (stable_env cfg fun _ _ h hs ch => (hs ch).env h).and (stable_lists p ids n)
  induction gs with
  | nil =>
    intro ids _
    simp only [List.map_nil, List.append_nil]
    exact Triple.nil (hst ids) fun s hs => hs.2.shown
  | cons g gs ih =>
    intro ids hmem
    obtain ⟨hg, hgs⟩ := List.forall_mem_cons.mp hmem
    have hrest := ih (ids ++ [g.1]) hgs
    rw [List.append_assoc, List.singleton_append] at hrest
    refine Triple.cons (Triple.atom (hst ids) (fun s hs => hs.2.shown) (fun _ _ => trivial)
      (hst (ids ++ [g.1])) (fun s hs => hs.2.shown) fun s t m hs hp => ?_) hrest
    cases hp
    exact ⟨rfl, hs.1, hs.2.storeListDone hs.1 hg⟩

/-- What `process_batch_sg` does once it has submitted the entries. -/
def signals (cfg : Config) (gs : List (Nat × List Descriptor)) : List Call :=
  if cfg.sgQueue ∧ cfg.dListDone ∧ cfg.signalStream then
    .makeStreamWaitOnAll .signal ::
      (gs.flatMap fun g =>
        if cfg.tileSignalBuf then [.storeSignal g.1, .copyAsync .signal (.listSignal g.1)] else []) ++
      [.addListsCompleted gs.length]
  else if cfg.sgQueue then
    .waitCompletion :: (if cfg.dListDone then gs.map fun g => .storeListDone g.1 else []) ++
      [.addListsCompleted gs.length]
  else []

theorem silent_signals (cfg : Config) (gs : List (Nat × List Descriptor)) : ∀ c ∈ signals cfg gs, Silent c := by
  unfold signals
  split
  · refine List.forall_mem_append.mpr ⟨List.forall_mem_cons.mpr ⟨trivial, fun c hc => ?_⟩,
      List.forall_mem_singleton.mpr trivial⟩
    obtain ⟨g, -, hc⟩ := List.mem_flatMap.mp hc
    split at hc
    · rcases List.mem_pair.mp hc with rfl | rfl
      · trivial
      · exact fun e ds h => by cases h
    · cases hc
  · split
    · refine List.forall_mem_append.mpr ⟨List.forall_mem_cons.mpr ⟨trivial, ?_⟩,
        List.forall_mem_singleton.mpr trivial⟩
      split
      · exact List.forall_mem_map.mpr fun _ _ => trivial
      · exact List.forall_mem_nil _
    · exact List.forall_mem_nil _

/-- **The lists of a batch are signalled.** -/
theorem lists_signals (hc : cfg.Listed) (p : Flushed) (ids : List Nat) (n : Nat)
    (gs : List (Nat × List Descriptor)) (hmem : ∀ g ∈ gs, g.1 ∈ listed p)
    (hk : n + gs.length = (listed p).length) :
    cfg.machine.Triple (.always (Shown cfg p)) (fun s => s.Quiet cfg ∧ Lists cfg p ids n s)
      (signals cfg gs) (Lists cfg p (ids ++ gs.map Prod.fst) (n + gs.length)) := by
  -- whichever the wait, the signals follow behind it and the count comes last
  have hwait : ∀ {c : Call} {W : Host → Prop}, Leaves c → cfg.Free (Host.Quiet cfg) [c] W →
      cfg.machine.Triple (.always (Shown cfg p)) (fun s => s.Quiet cfg ∧ Lists cfg p ids n s) [c]
        (fun s => W s ∧ Lists cfg p ids n s) := fun hl hw =>
    (hw.and (lists_leaves p ids n (Nat.le_refl _) (List.forall_mem_singleton.mpr (.inl hl)))).weaken
      (fun _ h => h.2) fun _ _ _ => trivial
  have hcount : ∀ {P : Host → Prop}, cfg.machine.Stable P → (∀ s, P s → ¬ cfg.Copied → ∀ ch, s.Drained ch) →
      cfg.machine.Triple (.always (Shown cfg p))
        (fun s => P s ∧ Lists cfg p (ids ++ gs.map Prod.fst) n s) [.addListsCompleted gs.length]
        (Lists cfg p (ids ++ gs.map Prod.fst) (n + gs.length)) := fun hP hd =>
    Triple.atom (hP.and (stable_lists p _ n)) (fun s hs => hs.2.shown) (fun _ _ => trivial)
      (stable_lists p _ _) Lists.shown fun s t m hs hp => by
        cases hp
        exact ⟨rfl, hs.2.addCompleted hk (hd s hs.1)⟩
  unfold signals
  rw [hc.sgQueue]
  by_cases hcopied : cfg.Copied
  · rw [if_pos ⟨rfl, hcopied⟩]
    have hfirst := (hwait (c := .makeStreamWaitOnAll .signal) trivial
      (covered_makeStreamWaitOnAll cfg)).append ((lists_copies hcopied gs ids hmem).conseq
        (fun s hs => ⟨hs.1.2, hs.2⟩) fun _ h => h)
    exact hfirst.append (hcount stable_behind fun _ _ h => absurd hcopied h)
  · rw [if_neg fun h => hcopied h.2, if_pos rfl]
    have hstable : cfg.machine.Stable fun s => ∀ ch, s.Drained ch :=
      stable_env cfg fun _ _ h hs ch => (hs ch).env h
    have hstores : cfg.machine.Triple (.always (Shown cfg p))
        (fun s => (∀ ch, s.Drained ch) ∧ Lists cfg p ids n s)
        (if cfg.dListDone then gs.map fun g => .storeListDone g.1 else [])
        (fun s => (∀ ch, s.Drained ch) ∧ Lists cfg p (ids ++ gs.map Prod.fst) n s) := by
      split
      · exact lists_stores gs ids hmem
      · rename_i hdone
        refine (Triple.nil (hstable.and (stable_lists p ids n)) fun s hs => hs.2.shown).conseq
          (fun _ h => h) fun s hs => ⟨hs.1, hs.2.backing, hs.2.completed, hs.2.count, fun h => ?_⟩
        exact absurd h.1 hdone
    have hfirst := (hwait (c := .waitCompletion) trivial (covered_waitCompletion cfg)).append
      (hstores.conseq (fun s hs => ⟨hs.1.2, hs.2⟩) fun _ h => h)
    exact hfirst.append (hcount hstable fun _ h _ => h)

theorem moves_groups {batch : List Descriptor} {groups : List (Nat × List Descriptor)}
    (hg : Grouped maxSgLists batch groups) (hlo : ∀ d ∈ batch, lo ≤ d.slot) :
    ∀ c ∈ groups.map fun g => Call.submit ((groupEntries g.2).map fun e => .data e.1 e.2),
      c.Moves (Later lo) := by
  refine List.forall_mem_map.mpr fun g hgm => List.forall_mem_map.mpr fun e he d hd => hlo d ?_
  exact PublishedSlots.mem_of_grouped hg g.2 (List.mem_map_of_mem hgm) d (mem_of_groupEntries he hd)

/-- **`process_batch_sg`**, beside what is said of the copies of data: `P` before the call, `I` while
they are submitted, `J` while the lists are signalled and `Q` in the end. -/
theorem lists_processBatchSg (hc : cfg.Listed) {b : List Descriptor × Nat}
    (hflag : hasFlag b.2 flagLastInTile = true) (hslots : ∀ d ∈ b.1, flushedCount fl ≤ d.slot)
    {P I J Q : Host → Prop} (hP : cfg.machine.Stable P) (hPI : ∀ s, P s → I s)
    (hdata : ∀ groups, Grouped maxSgLists b.1 groups → ∃ N M : Host → Prop,
      (∀ s m, P s → N { s with poller := { s.poller with sgBucketMap := m } }) ∧
      cfg.machine.Triple (.always I) N
        (groups.map fun g => .submit ((groupEntries g.2).map fun e => .data e.1 e.2)) M ∧
      cfg.machine.Triple (.always J) M (signals cfg groups) Q) :
    cfg.machine.Triple
      (.always fun s => Shown cfg fl s ∧ I s ∨ Shown cfg (fl ++ [b]) s ∧ J s)
      (fun s => s.Quiet cfg ∧ Emptied s ∧ Lists cfg fl (listed fl) (listed fl).length s ∧ P s)
      [.processBatchSg b.1]
      (fun s => Lists cfg (fl ++ [b]) (listed (fl ++ [b])) (listed (fl ++ [b])).length s ∧ Q s) := by
  refine Triple.call ((stable_covered cfg).and (stable_emptied.and ((stable_lists _ _ _).and hP)))
    (fun s hs => .inl ⟨hs.2.2.1.shown, hPI s hs.2.2.2⟩) (fun _ _ => trivial) fun s t m hs hp => ?_
  cases hp
  obtain ⟨hquiet, hemptied, hlists, hbefore⟩ := hs
  rw [hemptied.lists]
  obtain ⟨hg, -⟩ := groupBatch_spec maxSgLists b.1
  have hids : listsOf b = (groupBatch maxSgLists (fun _ => none) b.1).1.map Prod.fst := if_pos hflag
  generalize (groupBatch maxSgLists (fun _ => none) b.1).1 = groups at hg hids ⊢
  have hlisted : listed (fl ++ [b]) = listed fl ++ groups.map Prod.fst := by rw [listed_concat, hids]
  have hmoves := moves_groups hg hslots
  have houter : ∀ c ∈ groups.map fun g => Call.submit ((groupEntries g.2).map fun e => .data e.1 e.2),
      c.Outer := List.forall_mem_map.mpr fun _ _ => trivial
  obtain ⟨N, M, hN, hsubmit, hsignal⟩ := hdata groups hg
  -- the signals stand for the batches before this one while it is submitted
  have hfirst := (((covered_calls cfg houter).and (lists_leaves fl (listed fl) (listed fl).length
    (Nat.le_refl _) fun c hc => .inr (hmoves c hc))).and hsubmit).weaken
    (T := .always fun s => Shown cfg fl s ∧ I s ∨ Shown cfg (fl ++ [b]) s ∧ J s)
    (fun _ h => .inl ⟨h.1.2, h.2⟩) fun _ _ _ => trivial
  -- then they stand for this one, too
  have hsignals := lists_signals hc (fl ++ [b]) (listed fl) (listed fl).length groups
    (fun g hgm => hlisted ▸ List.mem_append_right _ (List.mem_map_of_mem hgm)) (by simp [hlisted])
  have hsecond := (hsignals.and hsignal).weaken
    (T := .always fun s => Shown cfg fl s ∧ I s ∨ Shown cfg (fl ++ [b]) s ∧ J s)
    (fun _ h => .inr h) fun _ _ _ => trivial
  refine hfirst.append (hsecond.conseq (fun s h =>
    ⟨⟨h.1.1, h.1.2.mono (List.prefix_append fl [b])⟩, h.2⟩) fun s h => ⟨?_, h.2⟩) _
    ⟨⟨hquiet.congr rfl rfl rfl, ?_⟩, hN s _ hbefore⟩
  · exact Lists.apart (s := s) (Nat.le_refl _) ⟨rfl, rfl, rfl, rfl, fun h => h, Device.Grows.refl _,
      fun _ _ _ h => .inl h⟩ hlists
  · have hdone := h.1
    rwa [← hlisted, ← List.length_map (f := Prod.fst), ← List.length_append, ← hlisted] at hdone

/-! ## With the data -/

section Data

variable {mem user : Nat → UInt8}

/-- The signals stand for batches of `p`; of the descriptors of `fl`, those of `batch` may still have
to be submitted. -/
structure Backed (cfg : Config) (mem user : Nat → UInt8) (p fl : Flushed) (batch : List Descriptor)
    (s : Host) : Prop where
  shown : Shown cfg p s
  carried : Transferable (sent cfg fl) → Carried mem user (sent cfg fl) batch s

/-- At every moment the signals stand for what has been submitted. -/
def Promised (cfg : Config) (mem user : Nat → UInt8) (fl : Flushed) (s : Host) : Prop :=
  Backed cfg mem user fl fl [] s ∨ ∃ (p : Flushed) (b : List Descriptor × Nat), fl = p ++ [b] ∧
    Backed cfg mem user p fl (transferred cfg b.1 b.2) s

/-- The lists and the copies, between calls. -/
structure Kept (cfg : Config) (mem user : Nat → UInt8) (fl : Flushed) (s : Host) : Prop where
  lists : Lists cfg fl (listed fl) (listed fl).length s
  underway : Transferable (sent cfg fl) → Underway mem user (sent cfg fl) [] [] s

/-- The host between calls. -/
structure Rest (cfg : Config) (mem user : Nat → UInt8) (fl : Flushed) (s : Host) : Prop where
  reuse : StagingReuse.Rest cfg s
  emptied : Emptied s
  kept : Kept cfg mem user fl s

theorem Kept.promised (s : Host) (hs : Kept cfg mem user fl s) : Promised cfg mem user fl s :=
  .inl ⟨hs.lists.shown, fun hds => (hs.underway hds).carried⟩

theorem stable_kept (fl : Flushed) : cfg.machine.Stable (Kept cfg mem user fl) := fun s e t hs h =>
  ⟨stable_lists _ _ _ s e t hs.lists h, fun hds => stable_underway s e t (hs.underway hds) h⟩

theorem stable_rest (fl : Flushed) : cfg.machine.Stable (Rest cfg mem user fl) := fun s e t hs h =>
  ⟨StagingReuse.stable_rest cfg s e t hs.reuse h, stable_emptied s e t hs.emptied h,
    stable_kept fl s e t hs.kept h⟩

theorem rest_init (cfg : Config) (user : Nat → UInt8) (staging : Nat → Nat → UInt8)
    (mem : Nat → UInt8) : Rest cfg mem user [] (.init user staging mem) where
  reuse := StagingReuse.rest_init cfg user staging mem
  emptied := ⟨rfl, rfl⟩
  kept := ⟨lists_init cfg user staging mem, (QueueDelivery.rest_init cfg user staging mem).underway⟩

/-- The descriptors of a batch are taken up. -/
theorem Kept.taken (b : List Descriptor × Nat) (s : Host) (hs : Kept cfg mem user fl s) :
    Promised cfg mem user (fl ++ [b]) s := by
  refine .inr ⟨fl, b, rfl, hs.lists.shown, fun hds => ?_⟩
  rw [sent_concat] at hds ⊢
  exact BatchDelivery.carried_take hds (hs.underway (hds.sublist (List.sublist_append_left _ _)))

/-- Calls that move no data. -/
theorem silent_rest (cfg : Config) (mem user : Nat → UInt8) (fl : Flushed) {l : List Call} (hl : ∀ c ∈ l, Silent c) : cfg.machine.Triple
    (.always fun s => Transferable (sent cfg fl) → Carried mem user (sent cfg fl) [] s)
    (fun s => Transferable (sent cfg fl) → Underway mem user (sent cfg fl) [] [] s) l
    (fun s => Transferable (sent cfg fl) → Underway mem user (sent cfg fl) [] [] s) :=
  imp_triple fun _ => steady_silent hl

theorem transferred_of_flag (hc : cfg.Listed) {b : List Descriptor × Nat}
    (hflag : hasFlag b.2 flagLastInTile = true) : transferred cfg b.1 b.2 = kept maxSgLists b.1 := by
  unfold transferred
  rw [if_pos ⟨hc.useCe, hc.sgQueue, hflag⟩]

/-- **`process_batch_sg`** -/
theorem kept_processBatchSg (hc : cfg.Listed) {b : List Descriptor × Nat}
    (hflag : hasFlag b.2 flagLastInTile = true) (hslots : ∀ d ∈ b.1, flushedCount fl ≤ d.slot) :
    cfg.machine.Triple (.always (Promised cfg mem user (fl ++ [b])))
      (fun s => s.Quiet cfg ∧ Emptied s ∧ Kept cfg mem user fl s) [.processBatchSg b.1]
      (Kept cfg mem user (fl ++ [b])) := by
  have hkept := transferred_of_flag hc hflag
  refine ((lists_processBatchSg hc hflag hslots
    (P := fun s => Transferable (sent cfg fl) → Underway mem user (sent cfg fl) [] [] s)
    (I := fun s => Transferable (sent cfg (fl ++ [b])) →
      Carried mem user (sent cfg (fl ++ [b])) (transferred cfg b.1 b.2) s)
    (J := fun s => Transferable (sent cfg (fl ++ [b])) → Carried mem user (sent cfg (fl ++ [b])) [] s)
    (Q := fun s => Transferable (sent cfg (fl ++ [b])) →
      Underway mem user (sent cfg (fl ++ [b])) [] [] s)
    (Stable.imp_const fun _ => stable_underway) (fun s hs hds => ?_) fun groups hg => ?_).weaken
    (T := .always (Promised cfg mem user (fl ++ [b]))) (fun s hs => ?_) fun _ _ _ => trivial).conseq
    (fun s hs => ⟨hs.1, hs.2.1, hs.2.2.lists, hs.2.2.underway⟩) fun s hs => ⟨hs.1, hs.2⟩
  · rw [sent_concat] at hds ⊢
    exact BatchDelivery.carried_take hds (hs (hds.sublist (List.sublist_append_left _ _)))
  · refine ⟨fun s => Transferable (sent cfg (fl ++ [b])) →
        Underway mem user (sent cfg (fl ++ [b])) (transferred cfg b.1 b.2)
          (groups.map (groupEntries ∘ Prod.snd)).flatten s,
      fun s => Transferable (sent cfg (fl ++ [b])) →
        Underway mem user (sent cfg (fl ++ [b])) (transferred cfg b.1 b.2) [] s,
      fun s m hs hds => ?_, imp_triple fun _ => ?_,
      (silent_rest cfg mem user (fl ++ [b]) (silent_signals cfg groups)).conseq
        (fun _ h hds => (h hds).rebase []) fun _ h => h⟩
    · rw [sent_concat] at hds ⊢
      have hcarries : Carries (transferred cfg b.1 b.2) (groups.map (groupEntries ∘ Prod.snd)).flatten := by
        rw [hkept] at hds ⊢
        have hcarries := BatchDelivery.carries_kept (hds.sublist (List.sublist_append_right _ _)) hg
          carries_groups
        rwa [List.map_map] at hcarries
      have htaken := (hs (hds.sublist (List.sublist_append_left _ _))).take hds hcarries
      exact ⟨htaken.toCarrying.congr rfl rfl rfl rfl (fun _ => Nat.le_refl _) fun _ => Iff.rfl,
        htaken.gathering⟩
    · have hsteady : Steady cfg mem user (sent cfg (fl ++ [b])) (transferred cfg b.1 b.2) _ _ _ :=
        steady_submits (groups.map (groupEntries ∘ Prod.snd))
      rw [List.map_map] at hsteady
      exact hsteady
  · rcases hs with ⟨hshown, hcarried⟩ | ⟨hshown, hcarried⟩
    · exact .inr ⟨fl, b, rfl, hshown, hcarried⟩
    · exact .inl ⟨hshown, hcarried⟩

/-- A batch without the end of a list. -/
theorem listed_of_part {b : List Descriptor × Nat} (hflag : ¬ hasFlag b.2 flagLastInTile = true) :
    listed (fl ++ [b]) = listed fl := by
  rw [listed_concat, listsOf, if_neg hflag, List.append_nil]

theorem flushBatch_of_listed (hc : cfg.Listed) {b : List Descriptor × Nat} (hne : b.1 ≠ [])
    (curRead : Nat) : cfg.flushBatch b.1 b.2 curRead =
      [if hasFlag b.2 flagLastInTile then .processBatchSg b.1 else .processBatch b.1, .setAsync curRead] := by
  by_cases hflag : hasFlag b.2 flagLastInTile = true
  · simp [Config.flushBatch, hne, hc.useCe, hc.sgQueue, hflag]
  · simp [Config.flushBatch, hne, hc.useCe, hc.tiledQueue, hflag]

/-- A batch without the end of a list tells nothing. -/
theorem lists_part (hc : cfg.Listed) {b : List Descriptor × Nat} (hne : b.1 ≠ [])
    (hflag : ¬ hasFlag b.2 flagLastInTile = true) (hslots : ∀ d ∈ b.1, flushedCount fl ≤ d.slot)
    (curRead : Nat) : cfg.machine.Triple (.always (Shown cfg fl))
      (Lists cfg fl (listed fl) (listed fl).length) [.flushBatch b.1 b.2 curRead]
      (Lists cfg fl (listed fl) (listed fl).length) := by
  refine Triple.expand (stable_lists _ _ _) Lists.shown (fun _ _ => trivial) (fun _ => rfl) ?_
  rw [flushBatch_of_listed hc hne, if_neg hflag]
  refine lists_leaves fl _ _ (Nat.le_refl _) (List.forall_mem_cons.mpr ⟨.inr fun e => hslots,
    List.forall_mem_singleton.mpr (.inl trivial)⟩)

/-- **`flush_batch`** -/
theorem rest_flush (hc : cfg.Listed) {b : List Descriptor × Nat} (hne : b.1 ≠ [])
    (hslots : ∀ d ∈ b.1, flushedCount fl ≤ d.slot) (curRead : Nat) :
    ∀ h, Rest cfg mem user fl h → Outlined (cfg.machine.only (Keeps cfg))
      (.always (Promised cfg mem user (fl ++ [b]))) (Rest cfg mem user (fl ++ [b]))
      ⟨h, [.flushBatch b.1 b.2 curRead]⟩ := by
  intro h hr
  have hcommon : (cfg.machine.only (Keeps cfg)).Triple _ (fun s => StagingReuse.Rest cfg s ∧ Emptied s)
      [.flushBatch b.1 b.2 curRead] fun s => StagingReuse.Rest cfg s ∧ Emptied s :=
    (StagingReuse.rest_flush b.1 b.2 curRead).and (emptied_calls _).only
  by_cases hflag : hasFlag b.2 flagLastInTile = true
  · have hmain : cfg.machine.Triple (.always (Promised cfg mem user (fl ++ [b])))
        (fun s => s.Quiet cfg ∧ Emptied s ∧ Kept cfg mem user fl s) [.flushBatch b.1 b.2 curRead]
        (Kept cfg mem user (fl ++ [b])) := by
      refine Triple.expand ((stable_covered cfg).and (stable_emptied.and (stable_kept fl)))
        (fun s hs => hs.2.2.taken b s) (fun _ _ => trivial) (fun _ => rfl) ?_
      rw [flushBatch_of_listed hc hne, if_pos hflag]
      refine Triple.cons (kept_processBatchSg hc hflag hslots) ?_
      -- what comes then moves no data and signals nothing
      have hset : ∀ c ∈ [Call.setAsync curRead], Silent c := List.forall_mem_singleton.mpr trivial
      have hlists : cfg.machine.Triple _ _ _ _ := lists_leaves (fl ++ [b]) (listed (fl ++ [b]))
        (listed (fl ++ [b])).length (Nat.le_refl _) (l := [.setAsync curRead])
        (List.forall_mem_singleton.mpr (.inl trivial))
      have hdata := silent_rest cfg mem user (fl ++ [b]) hset
      exact ((hlists.and hdata).weaken (T := .always (Promised cfg mem user (fl ++ [b])))
        (fun _ h => .inl ⟨h.1, h.2⟩) fun _ _ _ => trivial).conseq
        (fun _ h => ⟨h.lists, h.underway⟩) fun _ h => ⟨h.1, h.2⟩
    have hall := (hcommon.and hmain.only).weaken (T := .always (Promised cfg mem user (fl ++ [b])))
      (fun _ h => h.2) fun _ _ _ => trivial
    exact (hall.conseq (fun _ h => h) fun s hs => ⟨hs.1.1, hs.1.2, hs.2⟩).outlined
      ⟨⟨hr.reuse, hr.emptied⟩, hr.reuse.1, hr.emptied, hr.kept⟩
  · have hdata : cfg.machine.Triple _ _ _ _ :=
      QueueDelivery.carried_flush mem user fl b.1 b.2 curRead h.doneIdx
    have hall := (hcommon.and ((lists_part hc hne hflag hslots curRead).and hdata).only).weaken
      (T := .always (Promised cfg mem user (fl ++ [b]))) (fun s hs => ?_) fun _ _ _ => trivial
    · have hbefore : Transferable (sent cfg (fl ++ [b])) → Transferable (sent cfg fl) := fun hds => by
        rw [sent_concat] at hds
        exact hds.sublist (List.sublist_append_left _ _)
      refine (hall.conseq (fun _ h => h) fun s hs => ⟨hs.1.1, hs.1.2, ?_, hs.2.2⟩).outlined
        ⟨⟨hr.reuse, hr.emptied⟩, hr.kept.lists, fun hds =>
          ⟨⟨hr.reuse.2, hr.emptied, hr.kept.underway (hbefore hds)⟩, rfl⟩⟩
      rw [listed_of_part hflag]
      exact hs.2.1.mono (List.prefix_append fl [b])
    · obtain ⟨-, hshown, hflushing⟩ := hs
      by_cases hds : Transferable (sent cfg (fl ++ [b]))
      · rcases hflushing hds with ⟨hcarried, -⟩ | hcarried
        · exact .inr ⟨fl, b, rfl, hshown, fun _ => hcarried⟩
        · exact .inl ⟨hshown.mono (List.prefix_append fl [b]), fun _ => hcarried⟩
      · exact .inr ⟨fl, b, rfl, hshown, fun h => absurd h hds⟩

/-- The other calls of the loop. -/
theorem rest_call {c : Call} (ho : c.Outer) (hk : StagingReuse.Leaves (fun _ => False) c) (hs : Silent c)
    (hl : Leaves c) : (cfg.machine.only (Keeps cfg)).Triple (.always (Promised cfg mem user fl))
      (Rest cfg mem user fl) [c] (Rest cfg mem user fl) := by
  have hlists : cfg.machine.Triple _ _ _ _ := lists_leaves fl (listed fl) (listed fl).length (Nat.le_refl _)
    (List.forall_mem_singleton.mpr (.inl hl))
  have hdata := silent_rest cfg mem user fl (List.forall_mem_singleton.mpr hs)
  have hemptied : cfg.Free Emptied [c] Emptied := emptied_calls _
  have hall := ((StagingReuse.rest_leaves ho hk).and (hemptied.and (hlists.and hdata)).only).weaken
    (T := .always (Promised cfg mem user fl)) (fun s h => .inl ⟨h.2.2.1, h.2.2.2⟩) fun _ _ _ => trivial
  exact hall.conseq (fun s h => ⟨h.reuse, h.emptied, h.kept.lists, h.kept.underway⟩)
    fun s h => ⟨h.1, h.2.1, h.2.2.1, h.2.2.2⟩

theorem duty (hc : cfg.Listed) : DutyOn cfg (cfg.machine.only (Keeps cfg)) (fun s => s.Base)
    (fun _ fl => .always (Promised cfg mem user fl)) (Rest cfg mem user) where
  stable := stable_rest
  inv _ _ s hs := hs.kept.promised s
  flush t fl h hbase hpc hne hfl hr := by
    obtain ⟨-, hslots⟩ := hbase.batch_slots hpc hfl
    rw [hfl]
    exact rest_flush (b := (t.batch, t.orFlags)) hc hne (fun d hd => (hslots d hd).1) t.readIdx h hr
  idle _ _ hs := (rest_call (c := .idle) trivial trivial trivial trivial).outlined hs
  finish _ _ hs := (rest_call (c := .finish) trivial trivial trivial trivial).outlined hs

/-! ## Every run -/

/-- What was popped up to the end of the batches `p` is in the destination. -/
def AllArrived (user : Nat → UInt8) (p : Flushed) (s : Host) : Prop :=
  ∀ d ∈ (p.map Prod.fst).flatten, d.group < maxSgLists → Arrived user s d

/-- What the signals of lists say in a state of the loop. -/
structure Signalled {cfg : Config} (user : Nat → UInt8) (s : Loop cfg.backend) : Prop where
  /-- A list with a signal has been flushed, and what was popped up to its end has arrived. -/
  arrived : ∀ id, s.backend.data.dListDone id ≠ 0 →
    ∃ p, p <+: s.flushed ∧ id ∈ listed p ∧ AllArrived user p s.backend.data
  /-- It keeps its signal. -/
  stays : ∀ id, s.backend.data.dListDone id ≠ 0 → ∀ a t, s.openStep a = some t →
    t.backend.data.dListDone id ≠ 0
  /-- `lists_completed` counts the lists up to some batch; where there is no copy to wait for, what was
  popped until then has arrived. -/
  completed : ∃ p, p <+: s.flushed ∧ s.backend.data.listsCompleted = word (listed p).length ∧
    (¬ cfg.Copied → AllArrived user p s.backend.data)
  /-- Between calls that is every list flushed, -/
  counted : s.backend.todo = [] → s.backend.data.listsCompleted = word (listed s.flushed).length
  /-- and each has a signal when the device has nothing left to do. -/
  told : s.backend.todo = [] → cfg.Signals → s.backend.data.device.Settled →
    ∀ id ∈ listed s.flushed, s.backend.data.dListDone id ≠ 0

theorem Promised.backed (h : Promised cfg mem user fl s) :
    ∃ p batch, p <+: fl ∧ Backed cfg mem user p fl batch s ∧
      (batch = [] ∨ ∃ b, fl = p ++ [b] ∧ batch = transferred cfg b.1 b.2) := by
  rcases h with h | ⟨p, b, rfl, h⟩
  · exact ⟨fl, [], List.prefix_refl fl, h, .inl rfl⟩
  · exact ⟨p, _, List.prefix_append p [b], h, .inr ⟨b, rfl, rfl⟩⟩

/-- The thread takes no signal back. -/
theorem listDone_perform {c : Call} {m : List Call} (hp : cfg.perform s c = some (t, m)) {id : Nat}
    (hid : s.dListDone id ≠ 0) : t.dListDone id ≠ 0 := by
  cases c with
  | storeListDone x =>
    cases hp
    dsimp only
    by_cases h : id = x
    · rw [h, Function.update_self]
      exact Nat.one_ne_zero
    · rwa [Function.update_of_ne h]
  | tileStep d =>
    cases hp
    unfold Host.tileStep Host.storeTile
    dsimp only
    split_ifs <;> exact hid
  | storeTile dev x =>
    cases hp
    unfold Host.storeTile
    dsimp only
    split <;> exact hid
  | eventSynchronize e =>
    simp only [Config.perform] at hp
    split at hp
    · cases hp; exact hid
    · cases hp
  | gatherWait =>
    simp only [Config.perform] at hp
    split at hp
    · split at hp
      · cases hp; exact hid
      · cases hp
    · cases hp
  | _ => cases hp; exact hid

/-- Once the device has nothing left to do, no signal is queued. -/
theorem Told.settled {ids : List Nat} (hs : Told ids s) (h : s.device.Settled) :
    ∀ id ∈ ids, s.dListDone id ≠ 0 := by
  intro id hid
  refine (hs id hid).resolve_right ?_
  rintro ⟨i, hi, hw⟩
  have hlt := hw.lt
  rw [h .signal] at hi
  exact absurd hlt (Nat.not_lt_of_le hi)

variable {staging : Nat → Nat → UInt8}

theorem attended_of_reachable (hc : cfg.Listed) {s : Loop cfg.backend}
    (hs : Reachable Loop.openStep (cfg.Allowed (Keeps cfg)) (· = cfg.start (.init user staging mem)) s) :
    AttendedOn cfg (cfg.machine.only (Keeps cfg)) (fun _ fl => .always (Promised cfg mem user fl))
      (Rest cfg mem user) s :=
  (duty hc).attended_allowed (rest_init cfg user staging mem) (fun _ h => Loop.base_of_reachable h)
    (fun _ _ hc => hc) hs

/-- The copies for the slots of some batches bring their descriptors. -/
theorem allArrived_of_done (hc : cfg.Listed) {s : Loop cfg.backend} (hbase : s.Base)
    (hds : Transferable (sent cfg s.flushed)) {p q : Flushed} {batch : List Descriptor}
    (hp : p <+: s.flushed) (hcarried : Carried mem user (sent cfg s.flushed) batch s.backend.data)
    (hbatch : batch = [] ∨ ∃ b, s.flushed = p ++ [b] ∧ batch = transferred cfg b.1 b.2) (hq : q <+: p)
    (hdone : CopiesDone s.backend.data (flushedCount q)) : AllArrived user q s.backend.data := by
  intro d hd hgroup
  have hslot := TileArrivals.slot_lt_of_prefix hbase (hq.trans hp) hd
  obtain ⟨_, hb, hdb⟩ := List.mem_flatten.mp hd
  obtain ⟨b, hbq, rfl⟩ := List.mem_map.mp hb
  have hhandled : Handled cfg d :=
    ⟨fun _ _ => hgroup, fun _ h => (Bool.false_ne_true (hc.tiledQueue.symm.trans h)).elim⟩
  have hsent : d ∈ sent cfg s.flushed := List.mem_flatMap.mpr
    ⟨b, (hq.trans hp).subset hbq, QueueDelivery.mem_transferred hdb hhandled⟩
  refine QueueDelivery.arrived_of_carried hds hcarried hsent (fun hin => ?_)
    fun st i e ds hw hmem => hdone st i e ds hw ⟨d, hmem, hslot⟩
  -- one still to be submitted is of a slot that is not below
  rcases hbatch with rfl | ⟨b', hfl, rfl⟩
  · exact List.not_mem_nil hin
  · have hle := hbase.le_slot hfl (QueueDelivery.transferred_sub d hin)
    obtain ⟨r, rfl⟩ := hq
    simp only [flushedCount, List.map_append, List.sum_append] at hslot hle
    omega

theorem signalled_of_attended (hc : cfg.Listed) {s : Loop cfg.backend} (hbase : s.Base)
    (hatt : AttendedOn cfg (cfg.machine.only (Keeps cfg)) (fun _ fl => .always (Promised cfg mem user fl))
      (Rest cfg mem user) s) (hds : Transferable (sent cfg s.flushed)) : Signalled user s := by
  obtain ⟨p, batch, hp, hbacked, hbatch⟩ := Promised.backed hatt.2.inv
  have hcarried := hbacked.carried hds
  obtain ⟨hbacking, q, hq, hcount, hdone⟩ := hbacked.shown
  have hrest : s.backend.todo = [] → Rest cfg mem user s.flushed s.backend.data := fun h => hatt.2.post h
  refine ⟨fun id hid => ?_, fun id hid a t hst => ?_, ⟨q, hq.trans hp, hcount, fun hcopied => ?_⟩,
    fun h => (hrest h).kept.lists.count, fun h hsig => ((hrest h).kept.lists.told hsig).settled⟩
  · obtain ⟨r, hr, hlisted, hcopies⟩ := hbacking.shown id hid
    exact ⟨r, hr.trans hp, hlisted, allArrived_of_done hc hbase hds hp hcarried hbatch hr hcopies⟩
  · rcases openStep_backend hbase hst with he | ⟨b, rfl, hb⟩
    · rwa [he]
    · cases b with
      | env e =>
        obtain ⟨u, hu, hut⟩ := Option.map_eq_some_iff.mp hb
        rw [← hut]
        cases e with
        | advance st => exact hbacking.kept hu hid
        | gather k =>
          obtain ⟨g, e, es, -, -, rfl⟩ := Host.gather_cases hu
          exact hid
      | perform =>
        cases htodo : s.backend.todo with
        | nil => simp only [Script.Machine.step, htodo] at hb; cases hb
        | cons c rest =>
          obtain ⟨m, hm⟩ := perform_of_openStep htodo hst
          exact listDone_perform hm hid
  · exact allArrived_of_done hc hbase hds hp hcarried hbatch hq (hdone hcopied)

/-- **The signals of lists**, in a run that keeps to `Keeps`. -/
theorem signalled_of_reachable (hc : cfg.Listed) {s : Loop cfg.backend}
    (hs : Reachable Loop.openStep (cfg.Allowed (Keeps cfg)) (· = cfg.start (.init user staging mem)) s)
    (hds : Transferable (sent cfg s.flushed)) : Signalled user s :=
  signalled_of_attended hc (Loop.base_of_reachable hs) (attended_of_reachable hc hs) hds

end Data

section Example

open Deferred (memory commit poll loads perform copied)

/-- One channel, and a scatter-gather queue whose lists are signalled by copies. -/
def copying : Config :=
  { Config.plain with
    tileSignalBuf := true
    sgQueue := true
    dListDone := true
    signalStream := true }

private def part : Descriptor := ⟨4096, 8192, 16, flagUrgent, 0, 0⟩
private def tail : Descriptor := ⟨20480, 8208, 16, flagLastInTile, 0, 1⟩

/-- The two descriptors of a list are flushed one after the other. -/
private def halves : List (Loop.OpenAct copying.backend) :=
  commit 0 4096 8192 flagUrgent ++ poll 2 ++ loads ++ poll 5 ++ perform copying 7 ++
    commit 1 20480 8208 flagLastInTile ++ poll 3 ++ loads ++ poll 4 ++ perform copying 13

private def raised : List (Loop.OpenAct copying.backend) :=
  [.loop (.backend (show copying.backend.Act from .env (.advance .signal)))]

theorem signalled_of_reachable_one : ∃ s : Loop copying.backend,
    Reachable Loop.openStep (copying.Allowed (Keeps copying)) (· = copying.start memory) s ∧
      s.flushed = [([part], flagUrgent), ([tail], flagLastInTile)] ∧
      s.backend.data.dListDone 0 = 1 ∧ Signalled (fun _ => 1) s := by
  have h : (run Loop.openStep (copying.start memory)
      (halves ++ copied copying 0 ++ copied copying 0 ++ raised ++ raised)).map
      (fun s => (s.flushed, s.backend.data.dListDone 0)) =
      some ([([part], flagUrgent), ([tail], flagLastInTile)], 1) := by
    decide +kernel
  obtain ⟨s, hs, hout⟩ := Option.map_eq_some_iff.mp h
  obtain ⟨hflushed, hsignal⟩ := Prod.mk.inj hout
  have hreach : Reachable Loop.openStep (copying.Allowed (Keeps copying)) (· = copying.start memory) s :=
    ((Reachable.self (copying.start memory)).run_always hs).mono fun t a _ =>
      QueueDelivery.allowed_of_channels rfl t a
  refine ⟨s, hreach, hflushed, hsignal, signalled_of_reachable ⟨rfl, rfl, rfl⟩ hreach ?_⟩
  rw [hflushed]
  exact transferable_of_ascending (by decide) (by decide) (by decide)

/-- `lists_completed` is raised before anything has been copied. -/
theorem exists_completed_ahead : ∃ s : Loop copying.backend,
    Reachable Loop.openStep Always (· = copying.start memory) s ∧ s.backend.data.listsCompleted = 1 ∧
      listed s.flushed = [0] ∧ ¬ Arrived (fun _ => 1) s.backend.data part := by
  have h : (run Loop.openStep (copying.start memory) halves).map
      (fun s => (listed s.flushed, s.backend.data.listsCompleted, s.backend.data.gpu 8192)) =
      some ([0], 1, 0) := by
    decide +kernel
  obtain ⟨s, hs, hout⟩ := Option.map_eq_some_iff.mp h
  simp only [Prod.mk.injEq] at hout
  obtain ⟨hlisted, hcompleted, hbyte⟩ := hout
  refine ⟨s, (Reachable.self _).run_always hs, hcompleted, hlisted, fun harrived => ?_⟩
  have hone : s.backend.data.gpu 8192 = 1 := harrived 0 (by decide)
  rw [hbyte] at hone
  cases hone

end Example

end ListArrivals
end Gfd
