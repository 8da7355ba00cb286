import Mathlib
import GfdProof.TileSignals
import GfdProof.QueueDelivery

/-! # What a tile counter of the device says about the data

A copy of a cell of `tile_signal_buf_` takes what the cell holds when it is performed.  It is queued
behind the data copies of its own batch but not behind those of later ones, so that the counter runs
ahead of the data where a tile is counted again while a copy of its cell is still queued.

In a run in which that does not happen (`Fresh`) each counter stands for the batches up to some
point, all of whose data copies have been performed, and so does each cell that a queued copy is to
take (`Backing`).  The descriptors of a tile are in the destination, in the order popped, as many of
them as the tile's counter says (`counted_of_reachable`).
-/
namespace Gfd
namespace TileArrivals

open WorkStreams Script.Machine Transition
open BatchDelivery (Emptied emptied_calls stable_emptied transferred kept)
open Completion (CopiesDone)
open Loop (flushedCount)
open PendingCopies
open QueueDelivery (sent sent_concat imp_triple Arrived Performed)
open TileSignals (Counting)

variable {cfg : Config} {fl earlier : Flushed} {pending : Nat → Prop} {s t : Host}

/-! ## The condition -/

/-- The copies of the signal stream that have not been performed. -/
def signalling (s : Host) : List Copy :=
  ((s.device.log .signal).drop (s.device.done .signal)).filterMap Item.work?

/-- The copy takes the tile's cell. -/
def Takes (tile : Nat) : Copy → Prop
  | .tileSignal true first count => first ≤ tile ∧ tile < first + count
  | _ => False

instance (tile : Nat) (c : Copy) : Decidable (Takes tile c) := by
  rcases c with _ | ⟨_ | _, _, _⟩ | _ <;> dsimp only [Takes] <;> infer_instance

/-- A tile is counted when no copy of its cell is queued. -/
def Fresh : Call → Host → Prop
  | .addProgress tile _, s => ∀ c ∈ signalling s, ¬ Takes tile c
  | _, _ => True

instance (c : Call) (s : Host) : Decidable (Fresh c s) := by
  rcases c with _ | _
  case addProgress => dsimp only [Fresh]; infer_instance
  all_goals exact instDecidableTrue

theorem mem_signalling {i : Nat} {c : Copy} (hw : s.device.WorkAt .signal i c)
    (hi : s.device.done .signal ≤ i) : c ∈ signalling s := by
  refine List.mem_filterMap.mpr ⟨.work c, List.mem_iff_getElem?.mpr ⟨i - s.device.done .signal, ?_⟩, rfl⟩
  rw [List.getElem?_drop, Nat.add_sub_cancel' hi]
  exact hw

/-! ## What a counter stands for -/

/-- Every data copy for a slot below `n` has been performed, or is to be before item `i` of the
signal stream. -/
def Ahead (n i : Nat) (s : Host) : Prop :=
  ∀ st j e ds, s.device.WorkAt st j (.data e ds) → (∃ d ∈ ds, d.slot < n) →
    j < s.device.done st ∨ s.device.Precedes st j .signal i

/-- The value counts the tile in the batches up to some point, and `P` holds of the slots of these. -/
def Stands (fl : Flushed) (tile v : Nat) (P : Nat → Prop) : Prop :=
  ∃ p, p <+: fl ∧ v = word (tileCount p tile) ∧ P (flushedCount p)

/-- The counters stand for copies performed, and the cells for copies that will have been when they
are taken. -/
structure Backing (fl : Flushed) (s : Host) : Prop where
  valid : s.device.Valid
  data : ∀ st i e ds, s.device.WorkAt st i (.data e ds) → ∃ ch, st = .ce ch
  cells : ∀ st i first count, s.device.WorkAt st i (.tileSignal true first count) → st = .signal
  shown : ∀ tile < maxTiles, Stands fl tile (s.dTileChunkDone tile) fun n => CopiesDone s n
  queued : ∀ i c, s.device.done .signal ≤ i → s.device.WorkAt .signal i c → ∀ tile < maxTiles,
    Takes tile c → Stands fl tile (s.tileSignalBuf tile) fun n => Ahead n i s

theorem Stands.imp {tile v : Nat} {P Q : Nat → Prop} (h : Stands fl tile v P)
    (hPQ : ∀ n ≤ flushedCount fl, P n → Q n) : Stands fl tile v Q := by
  obtain ⟨p, ⟨r, rfl⟩, hv, hP⟩ := h
  refine ⟨p, List.prefix_append p r, hv, hPQ _ ?_ hP⟩
  simp [flushedCount]

theorem Stands.mono {fl' : Flushed} {tile v : Nat} {P : Nat → Prop} (h : Stands fl tile v P)
    (hfl : fl <+: fl') : Stands fl' tile v P := by
  obtain ⟨p, hp, hv, hP⟩ := h
  exact ⟨p, hp.trans hfl, hv, hP⟩

theorem Backing.mono {fl' : Flushed} (hs : Backing fl s) (hfl : fl <+: fl') : Backing fl' s :=
  { hs with
    shown := fun tile ht => (hs.shown tile ht).mono hfl
    queued := fun i c hi hw tile ht hc => (hs.queued i c hi hw tile ht hc).mono hfl }

theorem backing_init (user : Nat → UInt8) (staging : Nat → Nat → UInt8) (gpu : Nat → UInt8) :
    Backing [] (Host.init user staging gpu) where
  valid := Device.valid_empty
  data _ _ _ _ h := absurd h.lt (Nat.not_lt_zero _)
  cells _ _ _ _ h := absurd h.lt (Nat.not_lt_zero _)
  shown _ _ := ⟨[], List.prefix_refl _, rfl, fun _ _ _ _ h => absurd h.lt (Nat.not_lt_zero _)⟩
  queued _ _ _ h := absurd h.lt (Nat.not_lt_zero _)

/-! ### What the device does -/

theorem Ahead.env {n i : Nat} (h : s.EnvStep t) (hs : Ahead n i s) : Ahead n i t := by
  intro st j e ds hw hd
  refine (hs st j e ds (Completion.workAt_env h hw) hd).imp (·.trans_le (h.done_le st)) fun hp => ?_
  unfold Device.Precedes
  rw [h.log]
  exact hp

/-- A counter changes where a copy takes its cell. -/
theorem counter_advance {st : Stream} {tile : Nat} (h : s.advance st = some t) :
    t.dTileChunkDone tile = s.dTileChunkDone tile ∨
      t.dTileChunkDone tile = s.tileSignalBuf tile ∧ t.device.done st = s.device.done st + 1 ∧
        ∃ first count, s.device.WorkAt st (s.device.done st) (.tileSignal true first count) ∧
          Takes tile (.tileSignal true first count) := by
  obtain ⟨-, ⟨c, hc, rfl⟩ | ⟨u, m, hc, rfl⟩⟩ := Host.advance_cases h
  · cases c with
    | tileSignal dev first count =>
      cases dev with
      | false => exact .inl rfl
      | true =>
        by_cases htile : first ≤ tile ∧ tile < first + count
        · exact .inr ⟨if_pos htile, s.device.advance_done_self st, first, count, hc, htile⟩
        · exact .inl (if_neg htile)
    | data e ds => exact .inl rfl
    | listSignal id => exact .inl rfl
  · exact .inl rfl

theorem Backing.advance {st : Stream} (h : s.advance st = some t) (hs : Backing fl s) : Backing fl t := by
  have henv : s.EnvStep t := Host.envStep (e := .advance st) h
  have hvalid := henv.valid hs.valid
  refine ⟨hvalid, fun st i e ds hw => hs.data st i e ds (Completion.workAt_env henv hw),
    fun st i f n hw => hs.cells st i f n (Completion.workAt_env henv hw), fun tile ht => ?_,
    fun i c hi hw tile ht hc => ?_⟩
  · rcases counter_advance h with he | ⟨he, hdone, first, count, hw, htile⟩
    · rw [he]
      exact (hs.shown tile ht).imp fun n _ => PublishedSlots.CopiesDone.env henv
    · -- the copy has been performed, so what comes before it has
      obtain rfl := hs.cells _ _ _ _ hw
      rw [he]
      refine (hs.queued _ _ (Nat.le_refl _) hw tile ht htile).imp fun n _ ha u j e ds hw hd => ?_
      refine ((ha.env henv) u j e ds hw hd).elim id fun hp => hvalid.done_of_precedes hp ?_
      rw [hdone]
      exact Nat.lt_succ_self _
  · rw [henv.tileSignalBuf]
    exact (hs.queued i c ((henv.done_le .signal).trans hi) (Completion.workAt_env henv hw) tile ht hc).imp
      fun n _ => Ahead.env henv

theorem stable_backing (fl : Flushed) : cfg.machine.Stable (Backing fl) := by
  intro s e t hs h
  cases e with
  | advance st => exact hs.advance h
  | gather k =>
    obtain ⟨g, e, es, -, -, rfl⟩ := Host.gather_cases h
    exact ⟨hs.valid, hs.data, hs.cells, hs.shown, hs.queued⟩

/-! ### What the thread does -/

/-- A data copy for slots from `lo` on. -/
def Later (lo : Nat) : Copy → Prop
  | .data _ ds => ∀ d ∈ ds, lo ≤ d.slot
  | _ => False

theorem Backing.moved {lo : Nat} (hlo : flushedCount fl ≤ lo) (h : s.Moved (Later lo) t)
    (hs : Backing fl s) : Backing fl t := by
  -- a copy for a slot below `lo` was there before
  have hold : ∀ {st j e ds n}, n ≤ flushedCount fl → t.device.WorkAt st j (.data e ds) →
      (∃ d ∈ ds, d.slot < n) → s.device.WorkAt st j (.data e ds) := by
    intro st j e ds n hn hw hd
    refine (h.work st j _ hw).resolve_right ?_
    rintro ⟨-, hlater⟩
    obtain ⟨d, hd, hlt⟩ := hd
    exact absurd (hlater d hd) (by omega)
  refine ⟨h.valid hs.valid, fun st i e ds hw => ?_, fun st i f n hw => ?_, fun tile ht => ?_,
    fun i c hi hw tile ht hc => ?_⟩
  · exact (h.work st i _ hw).elim (hs.data st i e ds) fun hnew => hnew.1
  · exact (h.work st i _ hw).elim (hs.cells st i f n) fun hnew => hnew.2.elim
  · rw [h.dTileChunkDone]
    refine (hs.shown tile ht).imp fun n hn hdone st j e ds hw hd => ?_
    rw [h.done]
    exact hdone st j e ds (hold hn hw hd) hd
  · rw [h.tileSignalBuf]
    rw [h.done] at hi
    have hw' : s.device.WorkAt .signal i c := by
      refine (h.work _ i c hw).resolve_right ?_
      rintro ⟨⟨ch, hch⟩, -⟩
      cases hch
    refine (hs.queued i c hi hw' tile ht hc).imp fun n hn ha st j e ds hw hd => ?_
    rw [h.done]
    exact (ha st j e ds (hold hn hw hd) hd).imp_right (·.grows h.grows)

/-- Counting a tile, when no copy of its cell is queued. -/
theorem Backing.addProgress (hs : Backing fl s) {tile k : Nat} (hfresh : Fresh (.addProgress tile k) s)
    (p : Poller) (v : Nat) : Backing fl
      { s with poller := p, tileSignalBuf := Function.update s.tileSignalBuf tile v } where
  valid := hs.valid
  data := hs.data
  cells := hs.cells
  shown := hs.shown
  queued i c hi hw x hx hc := by
    have hne : x ≠ tile := by
      rintro rfl
      exact hfresh c (mem_signalling hw hi) hc
    dsimp only
    rw [Function.update_of_ne hne]
    exact hs.queued i c hi hw x hx hc

/-- Queueing a copy of some cells behind every copy, when all have been counted. -/
theorem Backing.signal (hs : Backing fl s)
    (hcells : ∀ tile < maxTiles, s.tileSignalBuf tile = word (tileCount fl tile))
    (hbehind : ∀ ch, s.Drained ch ∨ s.Fenced .signal ch) (first count : Nat) : Backing fl
      { s with device := s.device.submit .signal (.tileSignal true first count) } := by
  have hgrows := s.device.grows_submit .signal (.tileSignal true first count)
  -- a data copy was there before
  have hold : ∀ {st j e ds}, (s.device.submit .signal (.tileSignal true first count)).WorkAt st j
      (.data e ds) → s.device.WorkAt st j (.data e ds) := by
    intro st j e ds hw
    refine (s.device.workAt_push hw).resolve_right ?_
    rintro ⟨-, -, h⟩
    cases h
  refine ⟨hs.valid.submit _ _, fun st i e ds hw => hs.data st i e ds (hold hw), fun st i f n hw => ?_,
    fun tile ht => ?_, fun i c hi hw tile ht hc => ?_⟩
  · rcases s.device.workAt_push hw with hw | ⟨rfl, -, -⟩
    · exact hs.cells st i f n hw
    · rfl
  · exact (hs.shown tile ht).imp fun n _ hdone st j e ds hw hd => hdone st j e ds (hold hw) hd
  · rcases s.device.workAt_push hw with hw | ⟨-, rfl, -⟩
    · refine (hs.queued i c hi hw tile ht hc).imp fun n _ ha st j e ds hw hd => ?_
      exact (ha st j e ds (hold hw) hd).imp_right (·.grows hgrows)
    · refine ⟨fl, List.prefix_refl _, hcells tile ht, fun st j e ds hw _ => ?_⟩
      obtain ⟨ch, rfl⟩ := hs.data st j e ds (hold hw)
      rcases hbehind ch with hd | hf
      · exact .inl (hd j (hold hw).lt)
      · exact .inr ((hf j (hold hw).lt).grows hgrows)

/-- Only the device, the counters and the cells matter. -/
theorem Backing.congr (hs : Backing fl s) (hd : t.device = s.device)
    (hc : t.dTileChunkDone = s.dTileChunkDone) (hb : t.tileSignalBuf = s.tileSignalBuf) :
    Backing fl t := by
  obtain ⟨hvalid, hdata, hcells, hshown, hqueued⟩ := hs
  unfold CopiesDone at hshown
  unfold Ahead at hqueued
  refine ⟨hd ▸ hvalid, hd ▸ hdata, hd ▸ hcells, ?_, ?_⟩
  · unfold CopiesDone
    rw [hd, hc]
    exact hshown
  · unfold Ahead
    rw [hd, hb]
    exact hqueued

/-! ## Flushing a batch -/

/-- The tiles have been counted as `n` says. -/
def Cells (n : Nat → Nat) (s : Host) : Prop :=
  ∀ tile < maxTiles, s.poller.tileProgress tile = word (n tile) ∧ s.tileSignalBuf tile = word (n tile)

/-- The counters stand for batches of `p`, and the cells are past these but not past `fl`. -/
structure Filed (p fl : Flushed) (s : Host) : Prop where
  backing : Backing p s
  cells : ∀ tile < maxTiles, ∃ n, s.tileSignalBuf tile = word n ∧ tileCount p tile ≤ n ∧
    n ≤ tileCount fl tile

/-- The groups in `rest` are still to be counted. -/
structure Tally (p fl : Flushed) (rest : List (Nat × List Descriptor)) (s : Host) : Prop where
  backing : Backing p s
  cells : ∃ n, Cells n s ∧ ∀ tile < maxTiles, tileCount p tile ≤ n tile ∧
    n tile + groupCount rest tile = tileCount fl tile

/-- All have been counted. -/
structure Tallied (fl : Flushed) (s : Host) : Prop where
  backing : Backing fl s
  cells : Cells (tileCount fl) s

theorem Tally.filed {p : Flushed} {rest : List (Nat × List Descriptor)} (s : Host)
    (hs : Tally p fl rest s) : Filed p fl s := by
  obtain ⟨hb, n, hn, hcount⟩ := hs
  refine ⟨hb, fun tile ht => ⟨n tile, (hn tile ht).2, (hcount tile ht).1, ?_⟩⟩
  have := (hcount tile ht).2
  omega

theorem Tallied.filed (s : Host) (hs : Tallied fl s) : Filed fl fl s :=
  ⟨hs.backing, fun tile ht => ⟨_, (hs.cells tile ht).2, Nat.le_refl _, Nat.le_refl _⟩⟩

theorem Cells.env {n : Nat → Nat} (h : s.EnvStep t) (hs : Cells n s) : Cells n t := by
  intro tile ht
  rw [h.poller, h.tileSignalBuf]
  exact hs tile ht

theorem stable_tally (cfg : Config) {p : Flushed} (rest : List (Nat × List Descriptor)) :
    cfg.machine.Stable (Tally p fl rest) := by
  intro s e t hs h
  obtain ⟨hb, n, hn, hcount⟩ := hs
  exact ⟨stable_backing p s e t hb h, n, hn.env (Host.envStep h), hcount⟩

theorem stable_tallied (fl : Flushed) : cfg.machine.Stable (Tallied fl) := fun s e t hs h =>
  ⟨stable_backing fl s e t hs.backing h, hs.cells.env (Host.envStep h)⟩

/-- The groups are counted, each while no copy of its cell is queued. -/
theorem tally_addProgress {p : Flushed} (groups : List (Nat × List Descriptor)) :
    (cfg.machine.only Fresh).Triple (.always (Filed p fl)) (Tally p fl groups)
      (groups.map fun g => .addProgress g.1 g.2.length) (Tally p fl []) := by
  induction groups with
  | nil => exact Triple.nil (stable_tally cfg []) Tally.filed
  | cons g groups ih =>
    refine Triple.cons (Triple.atom (stable_tally cfg _) Tally.filed (fun _ _ => trivial)
      (stable_tally cfg groups) Tally.filed fun s t m hs hp => ?_) ih
    obtain ⟨hfresh, hp⟩ := perform_only hp
    cases hp
    obtain ⟨hb, n, hn, hcount⟩ := hs
    refine ⟨rfl, hb.addProgress hfresh _ _, Function.update n g.1 (n g.1 + g.2.length), ?_, ?_⟩
    · intro tile ht
      dsimp only
      by_cases h : tile = g.1
      · subst h
        simp only [Function.update_self]
        rw [(hn _ ht).1, word_add_word]
        exact ⟨rfl, rfl⟩
      · rw [Function.update_of_ne h, Function.update_of_ne h, Function.update_of_ne h]
        exact hn tile ht
    · intro tile ht
      obtain ⟨hle, heq⟩ := hcount tile ht
      rw [groupCount_cons] at heq
      by_cases h : tile = g.1
      · subst h
        rw [if_pos rfl] at heq
        rw [Function.update_self]
        omega
      · rw [if_neg (Ne.symm h), Nat.zero_add] at heq
        rw [Function.update_of_ne h]
        exact ⟨hle, heq⟩

theorem Cells.moved {φ : Copy → Prop} {n : Nat → Nat} (h : s.Moved φ t) (hs : Cells n s) : Cells n t := by
  intro tile ht
  rw [h.tileProgress, h.tileSignalBuf]
  exact hs tile ht

/-- The data of the batch is submitted. -/
theorem tally_moves {p : Flushed} {l : List Call} (hl : ∀ c ∈ l, c.Moves (Later (flushedCount p))) :
    cfg.machine.Triple (.always (Filed p fl)) (Tally p fl []) l (Tally p fl []) := by
  refine moved_triple cfg (stable_tally cfg []) Tally.filed (fun _ _ _ _ => trivial) ?_ hl
  rintro s t hmoved ⟨hb, n, hn, hcount⟩
  exact ⟨hb.moved (Nat.le_refl _) hmoved, n, hn.moved hmoved, hcount⟩

theorem Tally.tallied {p : Flushed} (hp : p <+: fl) (s : Host) (hs : Tally p fl [] s) : Tallied fl s := by
  obtain ⟨hb, n, hn, hcount⟩ := hs
  refine ⟨hb.mono hp, fun tile ht => ?_⟩
  have hall : n tile = tileCount fl tile := (hcount tile ht).2
  rw [← hall]
  exact hn tile ht

/-- The signal stream waits for every copy. -/
theorem tallied_wait (fl : Flushed) :
    cfg.machine.Triple (.always (Filed fl fl)) (fun s => s.Quiet cfg ∧ Tallied fl s)
      [.makeStreamWaitOnAll .signal]
      (fun s => (s.Quiet cfg ∧ ∀ ch, s.Drained ch ∨ s.Fenced .signal ch) ∧ Tallied fl s) := by
  have hmoves : cfg.machine.Triple (.always (Filed fl fl)) (Tallied fl) [.makeStreamWaitOnAll .signal]
      (Tallied fl) :=
    moved_triple cfg (stable_tallied fl) Tallied.filed (fun _ _ _ _ => trivial)
      (fun _ _ hm hs => ⟨hs.backing.moved (Nat.le_refl _) hm, hs.cells.moved hm⟩)
      (List.forall_mem_singleton.mpr rfl)
  exact ((covered_makeStreamWaitOnAll cfg).and hmoves).weaken (fun _ h => h.2) fun _ _ _ => trivial

theorem fenced_submit {ch : Nat} {c : Copy} (h : s.Fenced .signal ch) :
    ({ s with device := s.device.submit .signal c } : Host).Fenced .signal ch := by
  intro i hi
  have hlog : (s.device.submit .signal c).log (.ce ch) = s.device.log (.ce ch) :=
    s.device.submit_log_of_ne (fun h : Stream.ce ch = .signal => by cases h) c
  have hgrows := s.device.grows_submit .signal c
  exact ((h i (hlog ▸ hi)).grows hgrows).mono (hgrows .signal).length_le

theorem drained_submit {ch : Nat} {c : Copy} (h : s.Drained ch) :
    ({ s with device := s.device.submit .signal c } : Host).Drained ch := by
  intro i hi
  have hlog : (s.device.submit .signal c).log (.ce ch) = s.device.log (.ce ch) :=
    s.device.submit_log_of_ne (fun h : Stream.ce ch = .signal => by cases h) c
  exact h i (hlog ▸ hi)

theorem stable_behind : cfg.machine.Stable fun s => ∀ ch, s.Drained ch ∨ s.Fenced .signal ch :=
  stable_env cfg fun _ _ h hs ch => (hs ch).imp (·.env h) (·.env h)

/-- The copies of the cells are queued behind every copy. -/
theorem tallied_tileSignals (fl : Flushed) (tiles : List Nat) :
    cfg.machine.Triple (.always (Filed fl fl))
      (fun s => (∀ ch, s.Drained ch ∨ s.Fenced .signal ch) ∧ Tallied fl s) (Config.tileSignals tiles)
      (fun s => (∀ ch, s.Drained ch ∨ s.Fenced .signal ch) ∧ Tallied fl s) := by
  have hst : cfg.machine.Stable fun s => (∀ ch, s.Drained ch ∨ s.Fenced .signal ch) ∧ Tallied fl s :=
    stable_behind.and (stable_tallied fl)
  have hone : ∀ first count, cfg.machine.Triple (.always (Filed fl fl))
      (fun s => (∀ ch, s.Drained ch ∨ s.Fenced .signal ch) ∧ Tallied fl s)
      [.copyAsync .signal (.tileSignal true first count)]
      (fun s => (∀ ch, s.Drained ch ∨ s.Fenced .signal ch) ∧ Tallied fl s) := by
    intro first count
    refine Triple.atom hst (fun s hs => hs.2.filed) (fun _ _ => trivial) hst (fun s hs => hs.2.filed)
      fun s t m hs hp => ?_
    cases hp
    obtain ⟨hbehind, hb, hn⟩ := hs
    exact ⟨rfl, fun ch => (hbehind ch).imp drained_submit fenced_submit,
      hb.signal (fun tile ht => (hn tile ht).2) hbehind first count, hn⟩
  have heach : cfg.machine.Triple (.always (Filed fl fl)) _
      (tiles.map fun tile => Call.copyAsync .signal (.tileSignal true tile 1)) _ :=
    Triple.map hst (fun s hs => hs.2.filed) fun tile _ => hone tile 1
  unfold Config.tileSignals
  dsimp only
  split
  · exact heach
  · split
    · exact hone _ _
    · exact heach

/-! ### With the data -/

section Data

variable {mem user : Nat → UInt8}

/-- The counters stand for batches of `p`; of the descriptors of `fl`, those of `batch` may still have
to be submitted. -/
structure Backed (cfg : Config) (mem user : Nat → UInt8) (p fl : Flushed) (batch : List Descriptor)
    (s : Host) : Prop where
  filed : Filed p fl s
  carried : Transferable (sent cfg fl) → Carried mem user (sent cfg fl) batch s

/-- At every moment the counters stand for what has been submitted. -/
def Promised (cfg : Config) (mem user : Nat → UInt8) (fl : Flushed) (s : Host) : Prop :=
  Backed cfg mem user fl fl [] s ∨ ∃ (p : Flushed) (b : List Descriptor × Nat), fl = p ++ [b] ∧
    Backed cfg mem user p fl (transferred cfg b.1 b.2) s

/-- The host between calls. -/
structure Rest (cfg : Config) (mem user : Nat → UInt8) (fl : Flushed) (s : Host) : Prop where
  quiet : s.Quiet cfg
  counting : TileSignals.Rest fl s
  tallied : Tallied fl s
  underway : Transferable (sent cfg fl) → Underway mem user (sent cfg fl) [] [] s

theorem Rest.promised (s : Host) (hs : Rest cfg mem user fl s) : Promised cfg mem user fl s :=
  .inl ⟨hs.tallied.filed, fun hds => (hs.underway hds).carried⟩

theorem stable_rest (fl : Flushed) : cfg.machine.Stable (Rest cfg mem user fl) := fun s e t hs h =>
  ⟨stable_covered cfg s e t hs.quiet h, TileSignals.stable_counting _ _ s e t hs.counting h,
    stable_tallied fl s e t hs.tallied h,
    fun hds => stable_underway s e t (hs.underway hds) h⟩

theorem moves_submits {lo : Nat} {batch : List Descriptor} {groups : List (Nat × List Descriptor)}
    (hg : Grouped maxTiles batch groups) (hlo : ∀ d ∈ batch, lo ≤ d.slot) :
    ∀ c ∈ (tiledEntries (groups.map Prod.snd)).map fun es => Call.submit (es.map fun e => .data e.1 e.2),
      c.Moves (Later lo) := by
  refine List.forall_mem_map.mpr fun es hes => List.forall_mem_map.mpr fun e he d hd => hlo d ?_
  exact PublishedSlots.mem_of_tiledEntries (PublishedSlots.mem_of_grouped hg) es hes e he d hd

theorem transferred_of_tiled (hc : cfg.Tiled) (batch : List Descriptor) (orFlags : Nat) :
    transferred cfg batch orFlags = kept maxTiles batch := by
  unfold transferred
  rw [hc.sgQueue, hc.useCe, hc.tiledQueue, hc.tileSignalBuf]
  simp

/-- The descriptors of a batch are taken up. -/
theorem Rest.taken (b : List Descriptor × Nat) (s : Host) (hs : Rest cfg mem user fl s) :
    Promised cfg mem user (fl ++ [b]) s := by
  refine .inr ⟨fl, b, rfl, ⟨hs.tallied.backing, fun tile ht => ?_⟩, fun hds => ?_⟩
  · refine ⟨_, (hs.tallied.cells tile ht).2, Nat.le_refl _, ?_⟩
    rw [tileCount_append]
    exact Nat.le_add_right _ _
  · rw [sent_concat] at hds ⊢
    exact BatchDelivery.carried_take hds (hs.underway (hds.sublist (List.sublist_append_left _ _)))

/-- **`process_batch_tiled`** -/
theorem backed_processBatchTiled (hc : cfg.Tiled) {fl : Flushed} (b : List Descriptor × Nat)
    (hslots : ∀ d ∈ b.1, flushedCount fl ≤ d.slot) :
    (cfg.machine.only Fresh).Triple (.always (Promised cfg mem user (fl ++ [b]))) (Rest cfg mem user fl)
      [.processBatchTiled b.1]
      (fun s => Tallied (fl ++ [b]) s ∧
        (Transferable (sent cfg (fl ++ [b])) → Underway mem user (sent cfg (fl ++ [b])) [] [] s)) := by
  have hprefix : fl <+: fl ++ [b] := List.prefix_append fl [b]
  have hsent : sent cfg (fl ++ [b]) = sent cfg fl ++ transferred cfg b.1 b.2 := sent_concat fl b
  have hkept := transferred_of_tiled hc b.1 b.2
  refine Triple.call (stable_rest fl) (Rest.taken b) (fun _ _ => trivial) fun s t m hs hp => ?_
  obtain ⟨-, hp⟩ := perform_only hp
  cases hp
  rw [hs.counting.buckets]
  obtain ⟨hg, -⟩ := groupBatch_spec maxTiles b.1
  generalize (groupBatch maxTiles (fun _ => none) b.1).1 = groups at hg ⊢
  generalize hes : tiledEntries (groups.map Prod.snd) = ess
  have hbody : cfg.processBatchTiled groups =
      ((groups.map fun g => .addProgress g.1 g.2.length) ++
        ess.map fun es => .submit (es.map fun e => .data e.1 e.2)) ++
      ([.makeStreamWaitOnAll .signal] ++ Config.tileSignals (groups.map Prod.fst)) := by
    simp [Config.processBatchTiled, hc.tileSignalBuf, hc.tiledQueue, hc.dTileChunkDone,
      hc.signalStream, hes]
  rw [hbody]
  have houter : ∀ c ∈ (groups.map fun g => Call.addProgress g.1 g.2.length) ++
      ess.map fun es => .submit (es.map fun e => .data e.1 e.2), c.Outer :=
    List.forall_mem_append.mpr ⟨List.forall_mem_map.mpr fun _ _ => trivial,
      List.forall_mem_map.mpr fun _ _ => trivial⟩
  -- the counters stand for the batches before this one while it is counted and submitted
  have hcount : (cfg.machine.only Fresh).Triple (.always (Filed fl (fl ++ [b])))
      (Tally fl (fl ++ [b]) groups) _ (Tally fl (fl ++ [b]) []) :=
    (tally_addProgress groups).append (tally_moves (hes ▸ moves_submits hg hslots)).only
  have hprogress : ∀ c ∈ groups.map fun g => Call.addProgress g.1 g.2.length, Silent c :=
    List.forall_mem_map.mpr fun _ _ => trivial
  have hsubmit : cfg.machine.Triple
      (.always fun s => Transferable (sent cfg (fl ++ [b])) →
        Carried mem user (sent cfg (fl ++ [b])) (transferred cfg b.1 b.2) s)
      (fun s => Transferable (sent cfg (fl ++ [b])) →
        Underway mem user (sent cfg (fl ++ [b])) (transferred cfg b.1 b.2) ess.flatten s)
      ((groups.map fun g => .addProgress g.1 g.2.length) ++
        ess.map fun es => .submit (es.map fun e => .data e.1 e.2))
      (fun s => Transferable (sent cfg (fl ++ [b])) →
        Underway mem user (sent cfg (fl ++ [b])) (transferred cfg b.1 b.2) [] s) :=
    imp_triple fun _ => (steady_silent hprogress).append (steady_submits ess)
  have hfirst := (((covered_calls cfg houter).only.and hcount).and hsubmit.only).weaken
    (T := .always (Promised cfg mem user (fl ++ [b])))
    (fun _ h => .inr ⟨fl, b, rfl, h.1.2, h.2⟩) fun _ _ _ => trivial
  -- then they may stand for this one, too
  have hsignals : cfg.machine.Triple (.always (Filed (fl ++ [b]) (fl ++ [b]))) _ _ _ :=
    (tallied_wait (fl ++ [b])).append ((tallied_tileSignals (fl ++ [b]) (groups.map Prod.fst)).conseq
      (fun _ h => ⟨h.1.2, h.2⟩) fun _ h => h.2)
  have hsilent : cfg.machine.Triple
      (.always fun s => Transferable (sent cfg (fl ++ [b])) → Carried mem user (sent cfg (fl ++ [b])) [] s)
      (fun s => Transferable (sent cfg (fl ++ [b])) → Underway mem user (sent cfg (fl ++ [b])) [] [] s)
      ([.makeStreamWaitOnAll .signal] ++ Config.tileSignals (groups.map Prod.fst))
      (fun s => Transferable (sent cfg (fl ++ [b])) → Underway mem user (sent cfg (fl ++ [b])) [] [] s) :=
    imp_triple fun _ => steady_silent (List.forall_mem_cons.mpr ⟨trivial,
      BatchDelivery.silent_tileSignals _⟩)
  have hsecond := ((hsignals.and hsilent).only (A := Fresh)).weaken
    (T := .always (Promised cfg mem user (fl ++ [b]))) (fun _ h => .inl ⟨h.1, h.2⟩) fun _ _ _ => trivial
  refine hfirst.append (hsecond.conseq (fun s h => ⟨⟨h.1.1, h.1.2.tallied hprefix s⟩, fun hds =>
    (h.2 hds).rebase []⟩) fun _ h => h) _ ⟨⟨hs.quiet.congr rfl rfl rfl, ?_⟩, fun hds => ?_⟩
  · refine ⟨hs.tallied.backing.congr rfl rfl rfl, _, hs.tallied.cells, fun tile ht => ⟨Nat.le_refl _, ?_⟩⟩
    rw [tileCount_append, hg.count ht]
  · rw [hsent] at hds ⊢
    have hcarries : Carries (transferred cfg b.1 b.2) ess.flatten := by
      rw [← hes, hkept]
      rw [hkept] at hds
      exact BatchDelivery.carries_kept (hds.sublist (List.sublist_append_right _ _)) hg carries_tiledEntries
    have htaken := (hs.underway (hds.sublist (List.sublist_append_left _ _))).take hds hcarries
    exact ⟨htaken.toCarrying.congr rfl rfl rfl rfl (fun _ => Nat.le_refl _) fun _ => Iff.rfl,
      htaken.gathering⟩

/-! ### The calls of the loop -/

/-- The calls that store to a counter. -/
def Stores : Call → Prop
  | .tileStep _ | .storeTile .. => True
  | _ => False

/-- The calls that neither do so nor expand into such. -/
def Unstored : Call → Prop
  | .tileStep _ | .storeTile .. | .flushBatch .. | .pollTileEvents | .drainTileEvents | .idle | .finish => False
  | _ => True

theorem unstored_expands {c c' : Call} (h : c.Expands c') (hc : Unstored c) : Unstored c' := by
  cases h with
  | tileStep | pollStore | drainStore | pollAgain | drainAgain | idlePoll | finishDrain => exact hc.elim
  | _ => trivial

/-- What is promised of every call. -/
def promise (cfg : Config) (mem user : Nat → UInt8) (fl : Flushed) : Spec Host Call :=
  ⟨Promised cfg mem user fl, fun c _ => ¬ Stores c⟩

/-- Only that no call stores to a counter. -/
abbrev storeless : Spec Host Call := ⟨fun _ => True, fun c _ => ¬ Stores c⟩

theorem not_stores {c : Call} (h : Unstored c) : ¬ Stores c := by
  intro hs
  cases c <;> first | exact hs | exact h

theorem storeless_triple {l : List Call} (hl : ∀ c ∈ l, Unstored c) :
    cfg.machine.Triple storeless (fun _ => True) l fun _ => True :=
  Triple.closed (fun _ _ _ _ _ => trivial) (fun _ _ => trivial) (fun _ hc => .inr fun _ _ =>
    ⟨not_stores hc, fun _ _ hp => ⟨trivial, fun c' hm => unstored_expands (expands_perform hp c' hm) hc⟩⟩) hl

theorem flushBatch_of_tiled (hc : cfg.Tiled) {batch : List Descriptor} (hne : batch ≠ [])
    (orFlags curRead : Nat) :
    cfg.flushBatch batch orFlags curRead = [.processBatchTiled batch, .setAsync curRead] := by
  simp [Config.flushBatch, hne, hc.useCe, hc.tiledQueue, hc.tileSignalBuf, hc.sgQueue]

/-- **`flush_batch`** -/
theorem rest_flush (hc : cfg.Tiled) {fl : Flushed} (b : List Descriptor × Nat) (hne : b.1 ≠ [])
    (hslots : ∀ d ∈ b.1, flushedCount fl ≤ d.slot) (curRead : Nat) :
    (cfg.machine.only Fresh).Triple (promise cfg mem user (fl ++ [b])) (Rest cfg mem user fl)
      [.flushBatch b.1 b.2 curRead] (Rest cfg mem user (fl ++ [b])) := by
  have hbody := flushBatch_of_tiled hc hne b.2 curRead
  have hset : cfg.machine.Triple (.always (Promised cfg mem user (fl ++ [b])))
      (fun s => Tallied (fl ++ [b]) s ∧
        (Transferable (sent cfg (fl ++ [b])) → Underway mem user (sent cfg (fl ++ [b])) [] [] s))
      [.setAsync curRead]
      (fun s => Tallied (fl ++ [b]) s ∧
        (Transferable (sent cfg (fl ++ [b])) → Underway mem user (sent cfg (fl ++ [b])) [] [] s)) := by
    have hst : cfg.machine.Stable fun s => Tallied (fl ++ [b]) s ∧
        (Transferable (sent cfg (fl ++ [b])) → Underway mem user (sent cfg (fl ++ [b])) [] [] s) :=
      (stable_tallied _).and (Stable.imp_const fun _ => stable_underway)
    have hinv : ∀ s : Host, Tallied (fl ++ [b]) s ∧
        (Transferable (sent cfg (fl ++ [b])) → Underway mem user (sent cfg (fl ++ [b])) [] [] s) →
        Promised cfg mem user (fl ++ [b]) s := fun s hs =>
      .inl ⟨hs.1.filed, fun hds => (hs.2 hds).carried⟩
    refine Triple.atom hst hinv (fun _ _ => trivial) hst hinv fun s t m hs hp => ?_
    have hp : cfg.perform s (.setAsync curRead) = some (t, m) := hp
    have hsilent : Silent (.setAsync curRead) := trivial
    have hunder := fun hds => (hs.2 hds).perform hsilent hp
    cases hp
    exact ⟨rfl, ⟨hs.1.backing.congr rfl rfl rfl, hs.1.cells⟩, hunder⟩
  have hmain : (cfg.machine.only Fresh).Triple (.always (Promised cfg mem user (fl ++ [b])))
      (Rest cfg mem user fl) [.flushBatch b.1 b.2 curRead] _ :=
    Triple.expand (stable_rest fl) (Rest.taken b) (fun _ _ => trivial)
      (fun s => perform_only_of (A := Fresh) trivial) fun s hs => by
        rw [hbody]
        exact (Triple.cons (backed_processBatchTiled hc b hslots) hset.only) s hs
  have hstores : cfg.machine.Triple storeless (fun _ => True) [.flushBatch b.1 b.2 curRead] fun _ => True :=
    Triple.expand (fun _ _ _ _ _ => trivial) (fun _ _ => trivial) (fun _ _ => not_false)
      (fun _ => rfl) fun s _ => by
        have hunstored : ∀ c ∈ [Call.processBatchTiled b.1, .setAsync curRead], Unstored c :=
          List.forall_mem_cons.mpr ⟨trivial, List.forall_mem_singleton.mpr trivial⟩
        rw [hbody]
        exact storeless_triple hunstored s trivial
  have hquiet : cfg.Free (Host.Quiet cfg) [.flushBatch b.1 b.2 curRead] (Host.Quiet cfg) :=
    covered_calls cfg (List.forall_mem_singleton.mpr trivial)
  have hcounting := TileSignals.free_flushBatch hc fl hne b.2 curRead
  have hall := (((hquiet.and hcounting).and hstores).only (A := Fresh)).and hmain
  refine (hall.weaken (T := promise cfg mem user (fl ++ [b])) (fun _ h => h.2) fun _ _ h => h.1.2).conseq
    (fun s hs => ⟨⟨⟨hs.quiet, hs.counting⟩, trivial⟩, hs⟩) fun s hs => ?_
  exact ⟨hs.1.1.1, hs.1.1.2, hs.2.1, hs.2.2⟩

/-- The calls that wait for copies and publish `done_idx` leave all this alone. -/
theorem waits_frame {c : Call} {m : List Call} (hc : TileSignals.Waits c)
    (hp : cfg.perform s c = some (t, m)) :
    t.device = s.device ∧ t.dTileChunkDone = s.dTileChunkDone ∧ t.tileSignalBuf = s.tileSignalBuf := by
  cases c with
  | eventSynchronize e =>
    simp only [Config.perform] at hp
    split at hp
    · cases hp; exact ⟨rfl, rfl, rfl⟩
    · cases hp
  | settleStaging | settleAsync | waitCompletion | clearDirty | clearInflight | publishDone | clearAsync =>
    cases hp
    exact ⟨rfl, rfl, rfl⟩
  | _ => exact hc.elim

theorem silent_of_waits {c : Call} (h : TileSignals.Waits c) : Silent c := by
  cases c <;> trivial

theorem unstored_of_waits {c : Call} (h : TileSignals.Waits c) : Unstored c := by
  cases c <;> trivial

/-- The assertion but for the manager. -/
def Kept (cfg : Config) (mem user : Nat → UInt8) (fl : Flushed) (s : Host) : Prop :=
  TileSignals.Rest fl s ∧ Tallied fl s ∧
    (Transferable (sent cfg fl) → Underway mem user (sent cfg fl) [] [] s)

theorem Kept.promised (s : Host) (hs : Kept cfg mem user fl s) : Promised cfg mem user fl s :=
  .inl ⟨hs.2.1.filed, fun hds => (hs.2.2 hds).carried⟩

theorem stable_kept (fl : Flushed) : cfg.machine.Stable (Kept cfg mem user fl) :=
  (TileSignals.stable_counting _ _).and ((stable_tallied fl).and (Stable.imp_const fun _ => stable_underway))

theorem kept_waits (fl : Flushed) {l : List Call} (hl : ∀ c ∈ l, TileSignals.Waits c) :
    cfg.machine.Triple (promise cfg mem user fl) (Kept cfg mem user fl) l (Kept cfg mem user fl) := by
  refine Triple.closed (stable_kept fl) Kept.promised (fun c hc => .inr fun s hs =>
    ⟨not_stores (unstored_of_waits hc), fun t m hp => ?_⟩) hl
  obtain ⟨hcounting, hm⟩ := TileSignals.waits_perform hc hs.1 hp
  obtain ⟨hdevice, hcounters, hcells⟩ := waits_frame hc hp
  refine ⟨⟨hcounting, ⟨hs.2.1.backing.congr hdevice hcounters hcells, fun tile ht => ?_⟩, fun hds => ?_⟩, hm⟩
  · exact ⟨hcounting.progress tile ht, hcounting.buffer tile ht⟩
  · exact (hs.2.2 hds).perform (silent_of_waits hc) hp

/-- The idle branch, and the end of the thread. -/
theorem rest_call (fl : Flushed) {c : Call} {body : Poller → List Call} (ho : c.Outer) (hc : ¬ Stores c)
    (hp : ∀ s, cfg.perform s c = some (s, body s.poller))
    (hbody : ∀ p : Poller, p.tileEventsInflight = 0 → ∀ c' ∈ body p, TileSignals.Waits c') :
    cfg.machine.Triple (promise cfg mem user fl) (Rest cfg mem user fl) [c] (Rest cfg mem user fl) := by
  have hkept : cfg.machine.Triple (promise cfg mem user fl) (Kept cfg mem user fl) [c]
      (Kept cfg mem user fl) :=
    Triple.expand (stable_kept fl) Kept.promised (fun _ _ => hc) hp fun s hs =>
      kept_waits fl (hbody s.poller hs.1.noEvents) s hs
  have hquiet : cfg.Free (Host.Quiet cfg) [c] (Host.Quiet cfg) :=
    covered_calls cfg (List.forall_mem_singleton.mpr ho)
  exact ((hquiet.and hkept).weaken (T := promise cfg mem user fl) (fun _ h => h.2) fun _ _ h => h.2).conseq
    (fun s hs => ⟨hs.quiet, hs.counting, hs.tallied, hs.underway⟩) fun s hs =>
      ⟨hs.1, hs.2.1, hs.2.2.1, hs.2.2.2⟩

theorem waits_idle {p : Poller} (h : p.tileEventsInflight = 0) :
    ∀ c ∈ Config.idle p, TileSignals.Waits c := by
  unfold Config.idle
  rw [if_neg (by rw [h]; exact Nat.lt_irrefl 0)]
  split
  · exact List.forall_mem_cons.mpr ⟨trivial, List.forall_mem_singleton.mpr trivial⟩
  · exact List.forall_mem_nil _

theorem waits_finish {p : Poller} (h : p.tileEventsInflight = 0) :
    ∀ c ∈ Config.finish p, TileSignals.Waits c := by
  unfold Config.finish
  rw [if_neg (by rw [h]; exact Nat.lt_irrefl 0)]
  exact List.forall_mem_cons.mpr ⟨trivial, List.forall_mem_singleton.mpr trivial⟩

theorem rest_init (cfg : Config) (user : Nat → UInt8) (staging : Nat → Nat → UInt8)
    (mem : Nat → UInt8) : Rest cfg mem user [] (.init user staging mem) where
  quiet := Host.covered_init cfg user staging mem
  counting := TileSignals.rest_init user staging mem
  tallied := ⟨backing_init user staging mem, fun _ _ => ⟨rfl, rfl⟩⟩
  underway hds := (QueueDelivery.rest_init cfg user staging mem).underway hds

theorem duty (hc : cfg.Tiled) : DutyOn cfg (cfg.machine.only Fresh) (fun s => s.Base)
    (fun _ fl => promise cfg mem user fl) (Rest cfg mem user) where
  stable := stable_rest
  inv _ _ s hs := hs.promised s
  flush t fl h hbase hpc hne hfl hr := by
    obtain ⟨-, hslots⟩ := hbase.batch_slots hpc hfl
    rw [hfl]
    exact (rest_flush hc (t.batch, t.orFlags) hne (fun d hd => (hslots d hd).1) t.readIdx).outlined hr
  idle fl _ hr := (rest_call fl (c := .idle) trivial not_false (fun _ => rfl) fun _ =>
    waits_idle).only.outlined hr
  finish fl _ hr := (rest_call fl (c := .finish) trivial not_false (fun _ => rfl) fun _ =>
    waits_finish).only.outlined hr

/-! ## Every run -/

/-- The descriptors of a tile among those flushed, in the order popped. -/
def ofTile (fl : Flushed) (tile : Nat) : List Descriptor :=
  ((fl.map Prod.fst).flatten).filter (·.group == tile)

theorem length_ofTile (fl : Flushed) (tile : Nat) : (ofTile fl tile).length = tileCount fl tile :=
  List.countP_eq_length_filter.symm

/-- The first descriptors of a tile are those of the first batches. -/
theorem take_ofTile {p : Flushed} (hp : p <+: fl) (tile : Nat) :
    (ofTile fl tile).take (tileCount p tile) = ofTile p tile := by
  obtain ⟨r, rfl⟩ := hp
  unfold ofTile
  rw [List.map_append, List.flatten_append, List.filter_append, ← length_ofTile]
  exact List.take_left

theorem tileCount_le {p : Flushed} (hp : p <+: fl) (tile : Nat) : tileCount p tile ≤ tileCount fl tile := by
  rw [← length_ofTile, ← take_ofTile hp, ← length_ofTile fl]
  exact List.length_take_le' _ _

/-- The slots of the first batches are the first. -/
theorem slot_lt_of_prefix {s : Loop cfg.backend} (h : s.Base) {p : Flushed} (hp : p <+: s.flushed)
    {d : Descriptor} (hd : d ∈ (p.map Prod.fst).flatten) : d.slot < flushedCount p := by
  obtain ⟨r, hr⟩ := hp
  have hslots := h.flushed_map_slot
  have hlen : (((p.map Prod.fst).flatten).map Descriptor.slot).length =
      (List.range (flushedCount p)).length := by
    simp [flushedCount, List.length_flatten, List.map_map, Function.comp_def]
  have hcount : flushedCount (p ++ r) = flushedCount p + flushedCount r := by simp [flushedCount]
  rw [← hr, hcount, List.map_append, List.flatten_append, List.map_append, List.range_add] at hslots
  have hmem : d.slot ∈ ((p.map Prod.fst).flatten).map Descriptor.slot := List.mem_map_of_mem hd
  rw [(List.append_inj hslots hlen).1] at hmem
  exact List.mem_range.mp hmem

/-- What the counters of the device say in a state of the loop. -/
structure Counted {cfg : Config} (user : Nat → UInt8) (s : Loop cfg.backend) : Prop where
  le : ∀ tile < maxTiles, s.backend.data.dTileChunkDone tile ≤ (ofTile s.flushed tile).length
  /-- They are not lowered while the count is a word. -/
  mono : ∀ tile < maxTiles, (ofTile s.flushed tile).length < wordSize → ∀ a t, s.openStep a = some t →
    s.backend.data.dTileChunkDone tile ≤ t.backend.data.dTileChunkDone tile
  /-- As many descriptors of the tile as its counter says are in the destination. -/
  arrived : ∀ tile < maxTiles, ∀ d ∈ (ofTile s.flushed tile).take (s.backend.data.dTileChunkDone tile),
    Arrived user s.backend.data d

theorem Promised.filed (h : Promised cfg mem user fl s) :
    ∃ p batch, p <+: fl ∧ Backed cfg mem user p fl batch s ∧
      (batch = [] ∨ ∃ b, fl = p ++ [b] ∧ batch = transferred cfg b.1 b.2) := by
  rcases h with h | ⟨p, b, rfl, h⟩
  · exact ⟨fl, [], List.prefix_refl fl, h, .inl rfl⟩
  · exact ⟨p, _, List.prefix_append p [b], h, .inr ⟨b, rfl, rfl⟩⟩

/-- A call that stores to no counter leaves them alone. -/
theorem counter_perform {c : Call} {m : List Call} (hc : ¬ Stores c)
    (hp : cfg.perform s c = some (t, m)) : t.dTileChunkDone = s.dTileChunkDone := by
  cases c with
  | tileStep | storeTile => exact absurd trivial hc
  | eventSynchronize e =>
    simp only [Config.perform] at hp
    split at hp
    · cases hp; rfl
    · cases hp
  | gatherWait =>
    simp only [Config.perform] at hp
    split at hp
    · split at hp
      · cases hp; rfl
      · cases hp
    · cases hp
  | _ => cases hp; rfl

/-- A copy of a cell does not lower the counter. -/
theorem le_of_filed {p : Flushed} {st : Stream} {tile : Nat} (hs : Filed p fl s)
    (ht : tile < maxTiles) (hlt : tileCount fl tile < wordSize) (h : s.advance st = some t) :
    s.dTileChunkDone tile ≤ t.dTileChunkDone tile := by
  rcases counter_advance h with he | ⟨he, -⟩
  · rw [he]
  · obtain ⟨q, hq, hv, -⟩ := hs.backing.shown tile ht
    obtain ⟨n, hn, hle, hnle⟩ := hs.cells tile ht
    rw [he, hv, hn, word_of_lt (hnle.trans_lt hlt)]
    exact (Nat.mod_le _ _).trans ((tileCount_le hq tile).trans hle)

variable {staging : Nat → Nat → UInt8}

theorem attended_of_reachable (hc : cfg.Tiled) {s : Loop cfg.backend}
    (hs : Reachable Loop.openStep (cfg.Allowed Fresh) (· = cfg.start (.init user staging mem)) s) :
    AttendedOn cfg (cfg.machine.only Fresh) (fun _ fl => promise cfg mem user fl) (Rest cfg mem user) s :=
  (duty hc).attended_allowed (rest_init cfg user staging mem) (fun _ h => Loop.base_of_reachable h)
    (fun _ _ hc => hc) hs

theorem counted_of_attended (hc : cfg.Tiled) {s : Loop cfg.backend} (hbase : s.Base)
    (hatt : AttendedOn cfg (cfg.machine.only Fresh) (fun _ fl => promise cfg mem user fl)
      (Rest cfg mem user) s) (hds : Transferable (sent cfg s.flushed)) : Counted user s := by
  obtain ⟨p, batch, hp, hbacked, hbatch⟩ := Promised.filed hatt.2.inv
  refine ⟨fun tile ht => ?_, fun tile ht hlt a t hst => ?_, fun tile ht d hd => ?_⟩
  · obtain ⟨q, hq, hv, -⟩ := hbacked.filed.backing.shown tile ht
    rw [hv, length_ofTile]
    exact (Nat.mod_le _ _).trans (tileCount_le (hq.trans hp) tile)
  · rw [length_ofTile] at hlt
    rcases openStep_backend hbase hst with he | ⟨b, rfl, hb⟩
    · rw [he]
    · cases b with
      | env e =>
        obtain ⟨u, hu, hut⟩ := Option.map_eq_some_iff.mp hb
        rw [← hut]
        cases e with
        | advance st => exact le_of_filed hbacked.filed ht hlt hu
        | gather k =>
          obtain ⟨g, e, es, -, -, rfl⟩ := Host.gather_cases hu
          exact Nat.le_refl _
      | perform =>
        cases htodo : s.backend.todo with
        | nil => simp only [Script.Machine.step, htodo] at hb; cases hb
        | cons c rest =>
          obtain ⟨m, hm⟩ := perform_of_openStep htodo hst
          rw [counter_perform (hatt.2.pre htodo) hm]
  · obtain ⟨q, hq, hv, hdone⟩ := hbacked.filed.backing.shown tile ht
    -- it is one of the batches that the counter stands for
    have hmem : d ∈ ofTile q tile := by
      rw [← take_ofTile (hq.trans hp)]
      rw [hv] at hd
      exact List.take_subset_take_left _ (Nat.mod_le _ _) hd
    obtain ⟨hflat, hgroup⟩ := List.mem_filter.mp hmem
    have hgroup : d.group = tile := beq_iff_eq.mp hgroup
    have hslot := slot_lt_of_prefix hbase (hq.trans hp) hflat
    obtain ⟨_, hb, hdb⟩ := List.mem_flatten.mp hflat
    obtain ⟨b, hbq, rfl⟩ := List.mem_map.mp hb
    have hhandled : QueueDelivery.Handled cfg d :=
      ⟨fun _ hsg => (Bool.false_ne_true (hc.sgQueue.symm.trans hsg)).elim, fun _ _ => hgroup ▸ ht⟩
    have hsent : d ∈ sent cfg s.flushed := List.mem_flatMap.mpr
      ⟨b, (hq.trans hp).subset hbq, QueueDelivery.mem_transferred hdb hhandled⟩
    refine QueueDelivery.arrived_of_carried hds (hbacked.carried hds) hsent (fun hin => ?_)
      fun st i e ds hw hmem => hdone st i e ds hw ⟨d, hmem, hslot⟩
    rcases hbatch with rfl | ⟨b', hfl, rfl⟩
    · exact List.not_mem_nil hin
    · have hle := hbase.le_slot hfl (QueueDelivery.transferred_sub d hin)
      obtain ⟨r, rfl⟩ := hq
      simp only [flushedCount, List.map_append, List.sum_append] at hslot hle
      omega

/-- **The counters do not run ahead of the data**, in a run in which no tile is counted while a copy of
its cell is queued: as many descriptors of a tile as its counter says are in the destination. -/
theorem counted_of_reachable (hc : cfg.Tiled) {s : Loop cfg.backend}
    (hs : Reachable Loop.openStep (cfg.Allowed Fresh) (· = cfg.start (.init user staging mem)) s)
    (hds : Transferable (sent cfg s.flushed)) : Counted user s :=
  counted_of_attended hc (Loop.base_of_reachable hs) (attended_of_reachable hc hs) hds

end Data

section Example

open Deferred (memory commit poll loads perform copied)

private def signalled : List (Loop.OpenAct Config.plainTiled.backend) :=
  [.loop (.backend (show Config.plainTiled.backend.Act from .env (.advance .signal)))]

private def chunk : Descriptor := ⟨4096, 8192, 16, flagUrgent, 0, 0⟩
private def next : Descriptor := ⟨20480, 8208, 16, flagUrgent, 0, 1⟩

/-- Two batches of one tile are flushed; the copies of the first are performed in between. -/
private def twice (between : List (Loop.OpenAct Config.plainTiled.backend)) : List (Loop.OpenAct Config.plainTiled.backend) :=
  commit 0 4096 8192 flagUrgent ++ poll 2 ++ loads ++ poll 5 ++ perform Config.plainTiled 12 ++ between ++
    commit 1 20480 8208 flagUrgent ++ poll 3 ++ loads ++ poll 5 ++ perform Config.plainTiled 12

/-- The copy of the first count is performed before the second is made. -/
theorem counted_of_reachable_two : ∃ s : Loop Config.plainTiled.backend,
    Reachable Loop.openStep (Config.plainTiled.Allowed Fresh) (· = Config.plainTiled.start memory) s ∧
      s.flushed = [([chunk], flagUrgent), ([next], flagUrgent)] ∧
      s.backend.data.dTileChunkDone 0 = 1 ∧ Counted (fun _ => 1) s := by
  have h : (runWhile Loop.openStep (Config.plainTiled.Allowed Fresh) (Config.plainTiled.start memory)
      (twice (copied Config.plainTiled 0 ++ signalled ++ signalled))).map
      (fun s => (s.flushed, s.backend.data.dTileChunkDone 0)) =
      some ([([chunk], flagUrgent), ([next], flagUrgent)], 1) := by
    decide +kernel
  obtain ⟨s, hs, hout⟩ := Option.map_eq_some_iff.mp h
  obtain ⟨hflushed, hcounter⟩ := Prod.mk.inj hout
  have hreach := (Reachable.self (Config.plainTiled.start memory)).runWhile hs
  refine ⟨s, hreach, hflushed, hcounter, counted_of_reachable ⟨rfl, rfl, rfl, rfl, rfl, rfl⟩ hreach ?_⟩
  rw [hflushed]
  exact transferable_of_ascending (by decide) (by decide) (by decide)

/-- The copy of the first count is performed after the second has been made, and takes it: the counter
says that both descriptors are in place while the second has not been copied. -/
theorem exists_ahead : ∃ s : Loop Config.plainTiled.backend,
    Reachable Loop.openStep Always (· = Config.plainTiled.start memory) s ∧ s.backend.data.dTileChunkDone 0 = 2 ∧
      next ∈ ofTile s.flushed 0 ∧ ¬ Arrived (fun _ => 1) s.backend.data next := by
  have h : (run Loop.openStep (Config.plainTiled.start memory)
      (twice (copied Config.plainTiled 0 ++ signalled) ++ signalled)).map
      (fun s => (s.flushed, s.backend.data.dTileChunkDone 0, s.backend.data.gpu 8208)) =
      some ([([chunk], flagUrgent), ([next], flagUrgent)], 2, 0) := by
    decide +kernel
  obtain ⟨s, hs, hout⟩ := Option.map_eq_some_iff.mp h
  simp only [Prod.mk.injEq] at hout
  obtain ⟨hflushed, hcounter, hbyte⟩ := hout
  refine ⟨s, (Reachable.self _).run_always hs, hcounter, ?_, fun harrived => ?_⟩
  · rw [hflushed]
    decide
  · have hone : s.backend.data.gpu 8208 = 1 := harrived 0 (by decide)
    rw [hbyte] at hone
    cases hone

end Example

end TileArrivals
end Gfd
