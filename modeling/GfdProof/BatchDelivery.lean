import Mathlib
import GfdProof.PendingCopies

/-! # The destination memory after `flush_batch`

`flush_batch` hands a batch to `process_batch`, which submits it as it is, sorted and merged, or by
way of a staging buffer; to `process_batch_tiled` or `process_batch_sg`, which group it first; or to
`process_batch_no_ce`, which copies it with the CPU.  The memory this leaves is the same whichever
it is, but for the descriptors that the grouping leaves out (`delivered_of_reachable`).

Each of them takes the descriptors up at its start and has submitted or copied what carries them at
its end (`flushing_flushBatch`).  A gather is over when every entry lies at its place in the buffer
(`Filled`), whichever thread copied it and when.
-/
namespace Gfd
namespace BatchDelivery

open WorkStreams Script.Machine Transition PendingCopies
open PendingWrites (Toward)
open Direct (Reaches)
open StagingReuse (Unread)

variable {cfg : Config} {mem user : Nat → UInt8} {ds batch : List Descriptor} {es rs : List SGEntry}
  {b base : Nat} {s t : Host}

/-! ## Gathering into a staging buffer -/

/-- The bytes of the entry lie in the buffer, at its offset from `base`. -/
def Lies (T : Nat → UInt8) (b base : Nat) (s : Host) (e : SGEntry) : Prop :=
  ∀ k < e.size, s.staging b (e.dst - base + k) = T (e.dst + k)

/-- An entry of the gather has not been copied. -/
def Waits (g : Gathering) (e : SGEntry) : Prop :=
  ∃ (i : Nat) (c : List SGEntry), g.chunks[i]? = some c ∧ e ∈ c

/-- The entries to be gathered are carried, and lie at or behind `base`. -/
structure Gatherable (es : List SGEntry) (base : Nat) : Prop where
  fits : ∀ e ∈ es, e.Fits
  base_le : ∀ e ∈ es, base ≤ e.dst

/-- The entries are being gathered into a buffer that nothing reads; one that is not in its place is
waiting. -/
structure Filling (mem user : Nat → UInt8) (ds batch : List Descriptor) (es : List SGEntry)
    (b base : Nat) (s : Host) : Prop extends Carrying mem user ds batch (whole batch es) s where
  unread : Unread b s
  gathering : ∃ g, s.gathering = some g ∧ g.buf = b ∧ g.base = base ∧ (∀ e, Waits g e → e ∈ es) ∧
    ∀ e ∈ es, Waits g e ∨ Lies (target mem user ds) b base s e

/-- They all lie in the buffer. -/
structure Filled (mem user : Nat → UInt8) (ds batch : List Descriptor) (es : List SGEntry)
    (b base : Nat) (s : Host) : Prop extends Underway mem user ds batch (whole batch es) s where
  unread : Unread b s
  lies : ∀ e ∈ es, Lies (target mem user ds) b base s e

/-- An entry to be gathered reads what the bytes it stands for shall hold. -/
theorem supplied (hs : Carrying mem user ds batch (whole batch es) s) {e : SGEntry} (he : e ∈ es) {k : Nat}
    (hk : k < e.size) : s.byte e.src k = target mem user ds (e.dst + k) := by
  refine hs.toward.agree (e, batch) (.inl (List.mem_map_of_mem he)) _ _ ?_
  unfold writes
  rw [if_pos ⟨Nat.le_add_right _ _, Nat.add_lt_add_left hk _⟩, Nat.add_sub_cancel_left]

/-- The copy of an entry puts it in its place, and leaves the others in theirs. -/
theorem lies_stage (hg : Gatherable es base) (hs : Carrying mem user ds batch (whole batch es) s)
    {g : Gathering} (hb : g.buf = b) (hbase : g.base = base) {e : SGEntry} (he : e ∈ es)
    {e' : SGEntry} (he' : e' ∈ es) (hl : e' = e ∨ Lies (target mem user ds) b base s e')
    {chunks : Option Gathering} :
    Lies (target mem user ds) b base { s with staging := s.stage g e, gathering := chunks } e' := by
  intro k hk
  have hle := hg.base_le e he
  have hle' := hg.base_le e' he'
  have hoff : subWord e.dst base = e.dst - base :=
    subWord_of_le (Nat.lt_of_le_of_lt (Nat.le_add_right _ _) (hg.fits e he).dst_lt) hle
  simp only [Host.stage, hb, hbase, Function.update_self, hoff]
  split_ifs with hin
  · have hk' := supplied hs he (k := e'.dst - base + k - (e.dst - base)) (by omega)
    rw [hk']
    congr 1
    omega
  · rcases hl with rfl | hl
    · exact absurd ⟨Nat.le_add_right _ _, Nat.add_lt_add_left hk _⟩ hin
    · exact hl k hk

/-- No copy to be performed reads the buffer, so writing to it changes none of them. -/
theorem carrying_stage (hg : Gatherable es base) (hs : Carrying mem user ds batch (whole batch es) s)
    (hun : Unread b s) {g : Gathering} (hb : g.buf = b) (e : SGEntry) {chunks : Option Gathering} :
    Carrying mem user ds batch (whole batch es)
      { s with staging := s.stage g e, gathering := chunks } := by
  refine ⟨hs.user_eq, hs.done_le, hs.toward.congr rfl fun p hp => ?_, hs.clean, hs.named, hs.ours⟩
  have hsrc : ∀ off, p.1.src ≠ .staging b off := by
    intro off hoff
    rcases hp with hp | ⟨st, i, hw, hi⟩
    · obtain ⟨e', he', rfl⟩ := List.mem_map.mp hp
      obtain ⟨a, ha, -⟩ := (hg.fits e' he').src
      cases ha.symm.trans hoff
    · exact absurd (hun st i _ hw ⟨off, hoff⟩) (Nat.not_lt_of_le hi)
  funext a
  unfold writes Host.byte Host.stage
  split
  · dsimp only
    split
    · rfl
    · rename_i b' off hoff
      have hne : b' ≠ b := fun h => hsrc off (h ▸ hoff)
      rw [hb, Function.update_of_ne hne]
  · rfl

theorem waits_set {g : Gathering} {i : Nat} {e e' : SGEntry} {es : List SGEntry}
    (hi : g.chunks[i]? = some (e :: es)) :
    (Waits { g with chunks := g.chunks.set i es } e' → Waits g e') ∧
      (Waits g e' → e' = e ∨ Waits { g with chunks := g.chunks.set i es } e') := by
  have hlt : i < g.chunks.length := (List.getElem?_eq_some_iff.mp hi).1
  constructor
  · rintro ⟨j, c, hj, hc⟩
    rw [List.getElem?_set] at hj
    split at hj
    · rename_i heq
      subst heq
      cases hj
      exact ⟨i, e :: es, hi, List.mem_cons_of_mem _ hc⟩
    · exact ⟨j, c, hj, hc⟩
  · rintro ⟨j, c, hj, hc⟩
    by_cases heq : i = j
    · subst heq
      cases hi.symm.trans hj
      refine (List.mem_cons.mp hc).imp_right fun hc => ⟨i, es, ?_, hc⟩
      exact List.getElem?_set_self hlt
    · exact .inr ⟨j, c, by rw [List.getElem?_set_ne heq]; exact hj, hc⟩

theorem stable_unread (b : Nat) : cfg.machine.Stable (Unread b) :=
  stable_env cfg fun _ _ h hs => hs.env h

theorem stable_filling (hg : Gatherable es base) :
    cfg.machine.Stable (Filling mem user ds batch es b base) := by
  intro s e t hs he
  cases e with
  | advance st =>
    obtain ⟨g, hgath, hb, hbase, hmem, hall⟩ := hs.gathering
    refine ⟨hs.toCarrying.advance he, hs.unread.env (Host.envStep (e := .advance st) he), g,
      (advance_gathering he).trans hgath, hb, hbase, hmem, fun e' he' => ?_⟩
    unfold Lies
    rw [advance_staging he]
    exact hall e' he'
  | gather k =>
    obtain ⟨g, e, rest, hgath, hk, rfl⟩ := Host.gather_cases he
    obtain ⟨g', hgath', hb, hbase, hmem, hall⟩ := hs.gathering
    cases hgath.symm.trans hgath'
    have he : e ∈ es := hmem e ⟨k, e :: rest, hk, List.mem_cons_self⟩
    refine ⟨carrying_stage hg hs.toCarrying hs.unread hb e, hs.unread, _, rfl, hb, hbase,
      fun e' hw => hmem e' ((waits_set hk).1 hw), fun e' he' => ?_⟩
    rcases hall e' he' with hw | hl
    · exact ((waits_set hk).2 hw).symm.imp_right fun heq =>
        lies_stage hg hs.toCarrying hb hbase he he' (.inl heq)
    · exact .inr (lies_stage hg hs.toCarrying hb hbase he he' (.inr hl))

theorem stable_filled : cfg.machine.Stable (Filled mem user ds batch es b base) := by
  intro s e t hs he
  have hunderway := stable_underway s e t hs.toUnderway he
  refine ⟨hunderway, hs.unread.env (Host.envStep he), ?_⟩
  cases e with
  | advance st =>
    unfold Lies
    rw [advance_staging he]
    exact hs.lies
  | gather k => cases (gather_none hs.gathering).symm.trans he

/-! ### Which thread copies which entry -/

theorem mem_slice {es : List SGEntry} {i lo hi : Nat} {e : SGEntry} (he : es[i]? = some e)
    (hlo : lo ≤ i) (hhi : i < hi) : e ∈ slice es lo hi := by
  refine List.mem_iff_getElem?.mpr ⟨i - lo, ?_⟩
  rw [slice, List.getElem?_take_of_lt (by omega), List.getElem?_drop, Nat.add_sub_cancel' hlo]
  exact he

theorem mem_of_mem_slice {es : List SGEntry} {lo hi : Nat} {e : SGEntry} (h : e ∈ slice es lo hi) :
    e ∈ es := List.mem_of_mem_drop (List.mem_of_mem_take h)

/-- Every entry is in somebody's chunk. -/
theorem exists_gatherChunks (workers : Nat) {es : List SGEntry} {e : SGEntry} (he : e ∈ es) :
    ∃ (i : Nat) (c : List SGEntry), (gatherChunks workers es)[i]? = some c ∧ e ∈ c := by
  obtain ⟨i, hi⟩ := List.mem_iff_getElem?.mp he
  have hlt : i < es.length := (List.getElem?_eq_some_iff.mp hi).1
  have hle : i / Gather.chunk workers es.length ≤ workers := Gather.div_chunk_le hlt
  cases hq : i / Gather.chunk workers es.length with
  | zero =>
    exact ⟨0, _, rfl, mem_slice hi (Nat.zero_le _) ((Gather.div_chunk_eq_zero hlt).mp hq)⟩
  | succ w =>
    obtain ⟨hlo, hhi⟩ := (Gather.div_chunk_eq_succ hlt).mp hq
    refine ⟨w + 1, slice es (Gather.start workers es.length w) (Gather.stop workers es.length w),
      ?_, mem_slice hi hlo hhi⟩
    rw [gatherChunks, List.getElem?_cons_succ, List.getElem?_map,
      List.getElem?_range (by omega), Option.map_some]

theorem mem_of_mem_gatherChunks {workers : Nat} {es c : List SGEntry} {e : SGEntry}
    (hc : c ∈ gatherChunks workers es) (he : e ∈ c) : e ∈ es := by
  rcases List.mem_cons.mp hc with rfl | hc
  · exact mem_of_mem_slice he
  · obtain ⟨w, -, rfl⟩ := List.mem_map.mp hc
    exact mem_of_mem_slice he

/-- `parallel_gather` puts the entries in their places. -/
theorem filled_gather (hg : Gatherable es base) :
    Steady cfg mem user ds batch (fun s => Unread b s ∧ Underway mem user ds batch (whole batch es) s)
      [.parallelGather es b base, .gatherWait] (Filled mem user ds batch es b base) := by
  have hfilling : ∀ s, Filling mem user ds batch es b base s → Carried mem user ds batch s :=
    fun _ hs => hs.toCarrying.carried
  have hstart : Steady cfg mem user ds batch
      (fun s => Unread b s ∧ Underway mem user ds batch (whole batch es) s)
      [.parallelGather es b base] (Filling mem user ds batch es b base) := by
    refine Triple.atom ((stable_unread b).and stable_underway) (fun s hs => hs.2.carried)
      (fun _ _ => trivial) (stable_filling hg) hfilling fun s t m hs hp => ?_
    cases hp
    obtain ⟨hun, hu⟩ := hs
    refine ⟨rfl, hu.toCarrying.congr rfl rfl rfl rfl (fun _ => Nat.le_refl _) fun _ => Iff.rfl, hun, _,
      rfl, rfl, rfl, ?_, fun e he => .inl (exists_gatherChunks cfg.workers he)⟩
    rintro e ⟨i, c, hi, he⟩
    exact mem_of_mem_gatherChunks (List.mem_of_getElem? hi) he
  have hwait : Steady cfg mem user ds batch (Filling mem user ds batch es b base) [.gatherWait]
      (Filled mem user ds batch es b base) := by
    refine Triple.atom (stable_filling hg) hfilling (fun _ _ => trivial) stable_filled
      (fun s hs => hs.toUnderway.carried) fun s t m hs hp => ?_
    obtain ⟨g, hgath, -, -, -, hall⟩ := hs.gathering
    have hp : cfg.perform s .gatherWait = some (t, m) := hp
    simp only [Config.perform, hgath] at hp
    split at hp
    · rename_i hempty
      cases hp
      refine ⟨rfl, ⟨hs.toCarrying.congr rfl rfl rfl rfl (fun _ => Nat.le_refl _) fun _ => Iff.rfl, rfl⟩,
        hs.unread, fun e he => (hall e he).resolve_left ?_⟩
      rintro ⟨i, c, hi, hc⟩
      cases List.isEmpty_iff.mp (List.all_eq_true.mp hempty c (List.mem_of_getElem? hi))
      cases hc
    · cases hp
  exact Triple.cons hstart hwait

/-- A run has in the buffer what the bytes it is for shall hold. -/
theorem Filled.supplied (hs : Filled mem user ds batch es b base s) (hg : Gatherable es base)
    (hr : Runs b base es rs) {r : SGEntry} (h : r ∈ rs) {k : Nat} (hk : k < r.size) :
    s.byte r.src k = target mem user ds (r.dst + k) := by
  have hcover : ∀ j < r.size, ∃ e ∈ es, ∃ i < e.size, r.dst + j = e.dst + i := by
    intro j hj
    have hlt := hr.dst_lt r h
    obtain ⟨e, he, i, hi, heq⟩ := (hr.reaches (r.dst + j)).mp
      ⟨r, h, j, hj, (word_of_lt (by omega)).symm⟩
    have := (hg.fits e he).dst_lt
    rw [word_of_lt (by omega)] at heq
    exact ⟨e, he, i, hi, heq⟩
  obtain ⟨e₀, he₀, i₀, -, h₀⟩ := hcover 0 (by omega)
  obtain ⟨e, he, i, hi, heq⟩ := hcover k hk
  have hle₀ := hg.base_le e₀ he₀
  have hle := hg.base_le e he
  have hlt := hr.dst_lt r h
  rw [hr.src r h, subWord_of_le (by omega) (by omega), heq, ← hs.lies e he i hi]
  unfold Host.byte
  dsimp only
  congr 1
  omega

/-- **The runs take the place of the entries.** -/
theorem Filled.runs (hs : Filled mem user ds batch es b base s) (hg : Gatherable es base)
    (hr : Runs b base es rs) (hsub : ∀ d ∈ batch, d ∈ ds) : Underway mem user ds batch (whole batch rs) s := by
  have hcover : ∀ e ∈ es, ∀ a, e.Covers a → ∃ r ∈ rs, r.Covers a := by
    intro e he a ha
    obtain ⟨r, h, hreach⟩ := (hr.reaches a).mpr ⟨e, he, (hg.fits e he).covers_iff.mp ha⟩
    exact ⟨r, h, (covers_iff_reaches (hr.dst_lt r h)).mpr hreach⟩
  refine ⟨⟨hs.user_eq, hs.done_le, hs.toward.replace ?_ ?_, hs.clean, ?_, ?_⟩, hs.gathering⟩
  · intro p hp a v hv
    rcases hp with hp | hp
    · obtain ⟨r, h, rfl⟩ := List.mem_map.mp hp
      have hcov : r.Covers a := writes_isSome.mp (Option.isSome_of_eq_some hv)
      obtain ⟨hle, hlt⟩ := hcov
      have hk := hs.supplied hg hr h (k := a - r.dst) (by omega)
      rw [writes, if_pos ⟨hle, hlt⟩, Option.some.injEq] at hv
      rw [← hv, hk, Nat.add_sub_cancel' hle]
    · exact hs.toward.agree p (.inr hp) a v hv
  · intro p hp a ha
    rcases hp with hp | hp
    · obtain ⟨e, he, rfl⟩ := List.mem_map.mp hp
      obtain ⟨r, h, hcov⟩ := hcover e he a (writes_isSome.mp ha)
      exact ⟨(r, batch), .inl (List.mem_map_of_mem h), writes_isSome.mpr hcov⟩
    · exact ⟨p, .inr hp, ha⟩
  · intro p hp
    rcases hp with hp | hp
    · -- what a run writes, an entry that was gathered wrote
      obtain ⟨r, h, rfl⟩ := List.mem_map.mp hp
      refine ⟨hsub, fun a ha => ?_⟩
      obtain ⟨e, he, hreach⟩ := (hr.reaches a).mp ⟨r, h, (covers_iff_reaches (hr.dst_lt r h)).mp ha⟩
      exact (hs.named (e, batch) (.inl (List.mem_map_of_mem he))).names a
        ((hg.fits e he).covers_iff.mpr hreach)
    · exact hs.named p (.inr hp)
  · exact List.forall_mem_map.mpr fun _ _ _ hd => hd

/-! ## The functions -/

/-- What the taking up of descriptors keeps to. -/
theorem carried_take {ds' : List Descriptor} (hds : Transferable (ds ++ ds'))
    (hs : Underway mem user ds batch [] s) : Carried mem user (ds ++ ds') ds' s :=
  (hs.take hds (carries_each (hds.sublist (List.sublist_append_right ds ds')).fits)).carried

/-- **`process_batch`**, where the wait for a staging buffer leaves nothing that reads it. -/
theorem steady_processBatch {P : Host → Prop} (hP : cfg.machine.Stable P)
    (hwait : ∀ b, cfg.Free P [.stagingWait b] (Unread b)) (hds : Transferable (ds ++ batch)) :
    Steady cfg mem user (ds ++ batch) batch (fun s => P s ∧ Underway mem user ds [] [] s)
      [.processBatch batch] (Underway mem user (ds ++ batch) batch []) := by
  have hfits := (hds.sublist (List.sublist_append_right ds batch)).fits
  refine Triple.expand (hP.and stable_underway) (fun s hs => carried_take hds hs.2)
    (fun _ _ => trivial) (fun _ => rfl) fun s hs => ?_
  have hmoves := batchPlan_moves cfg.std cfg.staging s.poller.stagingCur hfits
  unfold Config.processBatch
  dsimp only
  split
  · rename_i es hplan
    rw [hplan] at hmoves
    exact steady_dataCopies es s (hs.2.take hds (carries_of_moved hfits hmoves))
  · rename_i es base rs hplan
    rw [hplan] at hmoves
    obtain ⟨hm, hr⟩ := hmoves
    have hg : Gatherable es base := ⟨hm.fits, hr.base_le⟩
    have hsilent : Steady cfg mem user (ds ++ batch) batch
        (Underway mem user (ds ++ batch) batch (whole batch es)) [.stagingWait s.poller.stagingCur]
        (Underway mem user (ds ++ batch) batch (whole batch es)) :=
      steady_silent (List.forall_mem_singleton.mpr trivial)
    have hwaited := ((hwait s.poller.stagingCur).and hsilent).weaken
      (T := .always (Carried mem user (ds ++ batch) batch)) (fun _ h => h.2) fun _ _ _ => trivial
    have hsent : Steady cfg mem user (ds ++ batch) batch (Underway mem user (ds ++ batch) batch [])
        [.recordEventOnLastStream (.staging s.poller.stagingCur), .stagingSent s.poller.stagingCur]
        (Underway mem user (ds ++ batch) batch []) :=
      steady_silent (List.forall_mem_cons.mpr ⟨trivial, List.forall_mem_singleton.mpr trivial⟩)
    have hruns : Steady cfg mem user (ds ++ batch) batch
        (Filled mem user (ds ++ batch) batch es s.poller.stagingCur base)
        [.submit (Config.dataCopies batch rs)] (Underway mem user (ds ++ batch) batch []) :=
      (steady_dataCopies rs).conseq (fun s hs => hs.runs hg hr fun _ => List.mem_append_right _) fun _ h => h
    exact Triple.cons hwaited (Triple.append (filled_gather hg) (Triple.cons hruns hsent)) s
      ⟨hs.1, hs.2.take hds (carries_of_moved hfits hm)⟩

theorem steady_processBatchNoCe (hds : Transferable (ds ++ batch)) :
    Steady cfg mem user (ds ++ batch) batch (Underway mem user ds [] []) [.processBatchNoCe batch]
      (Underway mem user (ds ++ batch) batch []) := by
  have hfits := (hds.sublist (List.sublist_append_right ds batch)).fits
  refine Triple.expand stable_underway (fun s hs => carried_take hds hs) (fun _ _ => trivial)
    (fun _ => rfl) fun s hs => ?_
  exact steady_memcpys _ s
    (hs.take hds (carries_of_moved hfits (Moved.of_perm hfits (cfg.std.perm _ _))))

/-- The bucket maps are empty. -/
structure Emptied (s : Host) : Prop where
  tiles : s.poller.bucketMap = fun _ => none
  lists : s.poller.sgBucketMap = fun _ => none

/-- No call leaves anything in them. -/
theorem Emptied.perform (hs : Emptied s) {c : Call} {m : List Call} (hp : cfg.perform s c = some (t, m)) :
    Emptied t := by
  obtain ⟨htiles, hlists⟩ := hs
  cases c with
  | processBatchTiled batch =>
    cases hp
    exact ⟨by rw [htiles]; exact (groupBatch_spec maxTiles batch).2, hlists⟩
  | processBatchSg batch =>
    cases hp
    exact ⟨htiles, by rw [hlists]; exact (groupBatch_spec maxSgLists batch).2⟩
  | eventSynchronize e =>
    simp only [Config.perform] at hp
    split at hp
    · cases hp; exact ⟨htiles, hlists⟩
    · cases hp
  | gatherWait =>
    simp only [Config.perform] at hp
    split at hp
    · split at hp
      · cases hp; exact ⟨htiles, hlists⟩
      · cases hp
    · cases hp
  | tileStep d =>
    cases hp
    unfold Host.tileStep Host.storeTile
    dsimp only
    split_ifs <;> exact ⟨htiles, hlists⟩
  | storeTile dev id =>
    cases hp
    unfold Host.storeTile
    dsimp only
    split <;> exact ⟨htiles, hlists⟩
  | _ => cases hp; exact ⟨htiles, hlists⟩

theorem stable_emptied : cfg.machine.Stable Emptied := stable_env cfg fun _ _ h hs =>
  ⟨by rw [h.poller]; exact hs.tiles, by rw [h.poller]; exact hs.lists⟩

theorem emptied_calls (l : List Call) : cfg.Free Emptied l Emptied :=
  Triple.closed (K := fun _ => True) stable_emptied (fun _ _ => trivial)
    (fun _ _ => .inr fun _ hs => ⟨trivial, fun _ _ hp => ⟨hs.perform hp, fun _ _ => trivial⟩⟩)
    fun _ _ => trivial

/-- The descriptors of ids that have a table entry. -/
def kept (bound : Nat) (batch : List Descriptor) : List Descriptor :=
  batch.filter fun d => d.group < bound

/-- Submissions that carry the groups of a batch carry the descriptors kept. -/
theorem carries_kept {bound : Nat} {groups : List (Nat × List Descriptor)}
    (hds : Transferable (kept bound batch)) (hg : Grouped bound batch groups)
    (hc : (∀ e ∈ (groups.map Prod.snd).flatten.map Descriptor.entry, e.Fits) →
      Carries (groups.map Prod.snd).flatten ps) : Carries (kept bound batch) ps := by
  refine (hc fun e he => ?_).of_perm hg.perm
  exact hds.fits e (((hg.perm.map _).mem_iff).mp he)

theorem silent_tileSignals (tiles : List Nat) : ∀ c ∈ Config.tileSignals tiles, Silent c := by
  have heach : ∀ c ∈ tiles.map fun t => Call.copyAsync .signal (.tileSignal true t 1), Silent c :=
    List.forall_mem_map.mpr fun t _ e ds h => by cases h
  unfold Config.tileSignals
  dsimp only
  split
  · exact heach
  · split
    · exact List.forall_mem_singleton.mpr fun e ds h => by cases h
    · exact heach

/-- **`process_batch_tiled`** -/
theorem steady_processBatchTiled {ds' : List Descriptor} (hkept : ds' = kept maxTiles batch)
    (hds : Transferable (ds ++ ds')) :
    Steady cfg mem user (ds ++ ds') ds' (fun s => Emptied s ∧ Underway mem user ds [] [] s)
      [.processBatchTiled batch] (Underway mem user (ds ++ ds') ds' []) := by
  refine Triple.call (stable_emptied.and stable_underway) (fun s hs => carried_take hds hs.2)
    (fun _ _ => trivial) fun s t m hs hp => ?_
  cases hp
  obtain ⟨⟨htiles, -⟩, hs⟩ := hs
  rw [htiles]
  obtain ⟨hg, -⟩ := groupBatch_spec maxTiles batch
  generalize (groupBatch maxTiles (fun _ => none) batch).1 = groups at hg ⊢
  have hcarries : Carries ds' (tiledEntries (groups.map Prod.snd)).flatten := by
    subst hkept
    exact carries_kept (hds.sublist (List.sublist_append_right _ _)) hg carries_tiledEntries
  have hprogress : Steady cfg mem user (ds ++ ds') ds'
      (Underway mem user (ds ++ ds') ds' (tiledEntries (groups.map Prod.snd)).flatten)
      (if cfg.tileSignalBuf then groups.map fun g => .addProgress g.1 g.2.length else [])
      (Underway mem user (ds ++ ds') ds' (tiledEntries (groups.map Prod.snd)).flatten) := by
    refine steady_silent ?_
    split
    · exact List.forall_mem_map.mpr fun _ _ => trivial
    · exact List.forall_mem_nil _
  have hsignals : Steady cfg mem user (ds ++ ds') ds' (Underway mem user (ds ++ ds') ds' [])
      (if cfg.tileSignalBuf then
        if cfg.tiledQueue ∧ cfg.dTileChunkDone ∧ cfg.signalStream then
          .makeStreamWaitOnAll .signal :: Config.tileSignals (groups.map Prod.fst)
        else [.submit ((groups.map Prod.fst).map fun t => .tileSignal false t 1)]
      else []) (Underway mem user (ds ++ ds') ds' []) := by
    refine steady_silent ?_
    split
    · split
      · exact List.forall_mem_cons.mpr ⟨trivial, silent_tileSignals _⟩
      · exact List.forall_mem_singleton.mpr (List.forall_mem_map.mpr fun t _ e ds h => by cases h)
    · exact List.forall_mem_nil _
  have htaken := hs.take hds hcarries
  unfold Config.processBatchTiled
  dsimp only
  refine Triple.append (Triple.append hprogress (steady_submits _)) hsignals _ ?_
  exact ⟨htaken.toCarrying.congr rfl rfl rfl rfl (fun _ => Nat.le_refl _) fun _ => Iff.rfl,
    htaken.gathering⟩

/-- **`process_batch_sg`** -/
theorem steady_processBatchSg {ds' : List Descriptor} (hkept : ds' = kept maxSgLists batch)
    (hds : Transferable (ds ++ ds')) :
    Steady cfg mem user (ds ++ ds') ds' (fun s => Emptied s ∧ Underway mem user ds [] [] s)
      [.processBatchSg batch] (Underway mem user (ds ++ ds') ds' []) := by
  refine Triple.call (stable_emptied.and stable_underway) (fun s hs => carried_take hds hs.2)
    (fun _ _ => trivial) fun s t m hs hp => ?_
  cases hp
  obtain ⟨⟨-, hlists⟩, hs⟩ := hs
  rw [hlists]
  obtain ⟨hg, -⟩ := groupBatch_spec maxSgLists batch
  generalize (groupBatch maxSgLists (fun _ => none) batch).1 = groups at hg ⊢
  have hcarries : Carries ds' ((groups.map Prod.snd).map groupEntries).flatten := by
    subst hkept
    exact carries_kept (hds.sublist (List.sublist_append_right _ _)) hg carries_groups
  have htaken := hs.take hds hcarries
  have hsubmits : Steady cfg mem user (ds ++ ds') ds' _ _ _ :=
    steady_submits ((groups.map Prod.snd).map groupEntries)
  rw [List.map_map, List.map_map] at hsubmits
  rw [List.map_map] at htaken
  unfold Config.processBatchSg
  refine Triple.append hsubmits (steady_silent ?_) _ ?_
  · split
    · refine List.forall_mem_append.mpr ⟨List.forall_mem_cons.mpr ⟨trivial, fun c hc => ?_⟩,
        List.forall_mem_singleton.mpr trivial⟩
      obtain ⟨g, -, hc⟩ := List.mem_flatMap.mp hc
      split at hc
      · rcases List.mem_pair.mp hc with rfl | rfl
        · trivial
        · exact fun e ds h => by cases h
      · cases hc
    · split
      · refine List.forall_mem_append.mpr ⟨List.forall_mem_cons.mpr ⟨trivial, ?_⟩,
          List.forall_mem_singleton.mpr trivial⟩
        split
        · exact List.forall_mem_map.mpr fun _ _ => trivial
        · exact List.forall_mem_nil _
      · exact List.forall_mem_nil _
  · exact ⟨htaken.toCarrying.congr rfl rfl rfl rfl (fun _ => Nat.le_refl _) fun _ => Iff.rfl,
      htaken.gathering⟩

/-- The descriptors of a batch that `flush_batch` transfers. -/
def transferred (cfg : Config) (batch : List Descriptor) (orFlags : Nat) : List Descriptor :=
  if cfg.useCe ∧ cfg.sgQueue ∧ hasFlag orFlags flagLastInTile then kept maxSgLists batch
  else if cfg.useCe ∧ cfg.tiledQueue ∧ cfg.tileSignalBuf then kept maxTiles batch
  else batch

theorem transferred_nil (cfg : Config) (orFlags : Nat) : transferred cfg [] orFlags = [] := by
  unfold transferred
  split_ifs <;> rfl

/-- `flush_batch` hands a batch to one function, and what it does then moves no data. -/
theorem flushBatch_cases (cfg : Config) {batch : List Descriptor} (hne : batch ≠ [])
    (orFlags curRead : Nat) : ∃ c rest, cfg.flushBatch batch orFlags curRead = c :: rest ∧
      (∀ c' ∈ rest, Silent c') ∧
      (c = .processBatchSg batch ∧ transferred cfg batch orFlags = kept maxSgLists batch ∨
        c = .processBatchTiled batch ∧ transferred cfg batch orFlags = kept maxTiles batch ∨
        (c = .processBatch batch ∨ c = .processBatchNoCe batch) ∧
          transferred cfg batch orFlags = batch) := by
  unfold Config.flushBatch transferred
  dsimp only
  rw [if_neg hne]
  by_cases hsg : (cfg.sgQueue ∧ hasFlag orFlags flagLastInTile) ∧ cfg.useCe
  · rw [if_pos hsg, if_pos ⟨hsg.2, hsg.1⟩]
    exact ⟨_, _, rfl, List.forall_mem_singleton.mpr trivial, .inl ⟨rfl, rfl⟩⟩
  · have hnotsg : ¬ (cfg.useCe ∧ cfg.sgQueue ∧ hasFlag orFlags flagLastInTile) :=
      fun h => hsg ⟨h.2, h.1⟩
    rw [if_neg hsg, if_neg hnotsg]
    by_cases hce : cfg.useCe = true
    · rw [if_pos hce]
      by_cases htiled : cfg.tiledQueue ∧ cfg.tileSignalBuf
      · rw [if_pos htiled, if_pos ⟨hce, htiled⟩]
        exact ⟨_, _, rfl, List.forall_mem_singleton.mpr trivial, .inr (.inl ⟨rfl, rfl⟩)⟩
      · have hnottiled : ¬ (cfg.useCe ∧ cfg.tiledQueue ∧ cfg.tileSignalBuf) := fun h => htiled h.2
        rw [if_neg htiled, if_neg hnottiled]
        refine ⟨_, _, rfl, List.forall_mem_cons.mpr ⟨trivial, ?_⟩, .inr (.inr ⟨.inl rfl, rfl⟩)⟩
        split
        · exact List.forall_mem_singleton.mpr trivial
        · exact List.forall_mem_nil _
    · have hnotce : ¬ (cfg.useCe ∧ cfg.tiledQueue ∧ cfg.tileSignalBuf) := fun h => hce h.1
      rw [if_neg hce, if_neg hnotce]
      refine ⟨_, _, rfl, List.forall_mem_cons.mpr ⟨trivial, ?_⟩, .inr (.inr ⟨.inr rfl, rfl⟩)⟩
      split
      · exact List.forall_mem_map.mpr fun _ _ => trivial
      · exact List.forall_mem_nil _

/-- The calls that neither store `done_idx` nor expand into such that do. -/
def Unpublished : Call → Prop
  | .storeDone _ | .publishDone | .raiseDone _ | .flushBatch .. | .pollTileEvents | .drainTileEvents
  | .idle | .finish | .settleAsync => False
  | _ => True

theorem unpublished_expands {c c' : Call} (h : c.Expands c') (hc : Unpublished c) : Unpublished c' := by
  cases h with
  | processBatchSg | processBatchTiled | processBatch | processBatchNoCe | setAsync | pushTileEvent
  | storeDone | tileStep | pollStore | pollRaise | pollRetire | pollAsync | pollAgain | drainStore
  | drainRaise | drainRetire | drainAgain | idlePoll | idleStaging | idleAsync | finishSync | finishDrain
  | finishClear | finishStaging | finishAsync | asyncSync | publishDone | clearAsync => exact hc.elim
  | _ => trivial

theorem doneIdx_unpublished {c : Call} {m : List Call} (hc : Unpublished c)
    (hp : cfg.perform s c = some (t, m)) : t.doneIdx = s.doneIdx := by
  refine Completion.doneIdx_perform (n := 0) hp ?_ ?_
  · cases c with
    | storeDone | publishDone | raiseDone => exact hc.elim
    | _ => trivial
  · rintro rfl
    exact hc

theorem stable_doneIdx (v : Nat) : cfg.machine.Stable fun s => s.doneIdx = v :=
  stable_env cfg fun _ _ h hs => h.doneIdx.trans hs

theorem always_doneIdx (v : Nat) {l : List Call} (hl : ∀ c ∈ l, Unpublished c) :
    cfg.machine.Triple (.always fun s => s.doneIdx = v) (fun s => s.doneIdx = v) l
      fun s => s.doneIdx = v :=
  Triple.closed (stable_doneIdx v) (fun _ h => h) (fun _ hc => .inr fun _ hs => ⟨trivial,
    fun _ _ hp => ⟨(doneIdx_unpublished hc hp).trans hs, fun c' hm =>
      unpublished_expands (expands_perform hp c' hm) hc⟩⟩) hl

/-- While a batch is flushed: `done_idx` is as it was, or everything has been submitted. -/
def Flushing (mem user : Nat → UInt8) (ds batch : List Descriptor) (v : Nat) (s : Host) : Prop :=
  Carried mem user ds batch s ∧ s.doneIdx = v ∨ Carried mem user ds [] s

/-- **`flush_batch`**, whichever function it hands the batch to. -/
theorem flushing_flushBatch {P : Host → Prop} (hP : cfg.machine.Stable P)
    (hwait : ∀ b, cfg.Free P [.stagingWait b] (Unread b)) {orFlags : Nat} (curRead v : Nat)
    {ds' : List Descriptor} (hds' : ds' = transferred cfg batch orFlags)
    (hds : Transferable (ds ++ ds')) :
    cfg.machine.Triple (.always (Flushing mem user (ds ++ ds') ds' v))
      (fun s => (P s ∧ Emptied s ∧ Underway mem user ds [] [] s) ∧ s.doneIdx = v)
      [.flushBatch batch orFlags curRead] (Underway mem user (ds ++ ds') [] []) := by
  have hst : cfg.machine.Stable fun s => P s ∧ Emptied s ∧ Underway mem user ds [] [] s :=
    hP.and (stable_emptied.and stable_underway)
  refine Triple.expand (hst.and (stable_doneIdx v)) (fun s hs => .inl ⟨carried_take hds hs.1.2.2, hs.2⟩)
    (fun _ _ => trivial) (fun _ => rfl) fun s hs => ?_
  -- what comes once everything has been submitted
  have hlast : ∀ {l : List Call}, (∀ c ∈ l, Silent c) →
      cfg.machine.Triple (.always (Flushing mem user (ds ++ ds') ds' v))
        (Underway mem user (ds ++ ds') [] []) l (Underway mem user (ds ++ ds') [] []) := fun hl =>
    (steady_silent hl).weaken (fun _ h => .inr h) fun _ _ _ => trivial
  by_cases hne : batch = []
  · subst hne
    rw [transferred_nil] at hds'
    subst hds'
    exact hlast (List.forall_mem_nil _) s (hs.1.2.2.take hds carries_nil)
  obtain ⟨c, rest, hbody, hrest, hc⟩ := flushBatch_cases cfg hne orFlags curRead
  have hunpublished : ∀ c' ∈ [c], Unpublished c' := by
    refine List.forall_mem_singleton.mpr ?_
    rcases hc with ⟨rfl, -⟩ | ⟨rfl, -⟩ | ⟨rfl | rfl, -⟩ <;> trivial
  have hfirst : Steady cfg mem user (ds ++ ds') ds'
      (fun s => P s ∧ Emptied s ∧ Underway mem user ds [] [] s) [c]
      (Underway mem user (ds ++ ds') ds' []) := by
    rcases hc with ⟨rfl, heq⟩ | ⟨rfl, heq⟩ | ⟨rfl | rfl, heq⟩ <;> rw [heq] at hds'
    · exact (steady_processBatchSg hds' hds).conseq (fun s hs => hs.2) fun _ h => h
    · exact (steady_processBatchTiled hds' hds).conseq (fun s hs => hs.2) fun _ h => h
    · subst hds'
      exact (steady_processBatch hP hwait hds).conseq (fun s hs => ⟨hs.1, hs.2.2⟩) fun _ h => h
    · subst hds'
      exact (steady_processBatchNoCe hds).conseq (fun s hs => hs.2.2) fun _ h => h
  have hboth := ((hfirst.and (always_doneIdx v hunpublished)).weaken
    (T := .always (Flushing mem user (ds ++ ds') ds' v)) (fun _ h => .inl h) fun _ _ _ => trivial).conseq
    (fun _ h => h) fun _ h => h.1.rebase []
  rw [hbody]
  exact Triple.cons hboth (hlast hrest) s hs

/-! ## A call on its own -/

/-- Each byte of the destination is what it was, or what its own descriptor names. -/
def Untorn (mem user : Nat → UInt8) (ds : List Descriptor) (t : Host) : Prop :=
  ∀ a, t.gpu a = mem a ∨ ∃ d ∈ ds, ∃ k < d.size, a = d.dstAddr + k ∧ t.gpu a = user (d.srcAddr + k)

/-- Every byte of a descriptor is in the destination, and no other byte has changed. -/
structure Delivered (mem user : Nat → UInt8) (ds : List Descriptor) (t : Host) : Prop where
  delivered : ∀ d ∈ ds, ∀ k < d.size, t.gpu (d.dstAddr + k) = user (d.srcAddr + k)
  unchanged : ∀ a, (∀ d ∈ ds, ¬ d.Writes a) → t.gpu a = mem a

theorem untorn_of_carrying {left : List Submission} (hds : Transferable ds)
    (hs : Carrying mem user ds batch left s) : Untorn mem user ds s := by
  intro a
  by_cases hw : ∃ d ∈ ds, d.Writes a
  · obtain ⟨d, hd, hw⟩ := hw
    obtain ⟨k, hk, heq, htarget⟩ := target_of_writes mem user hds hd hw
    refine (hs.clean a).imp_right fun h => ⟨d, hd, k, hk, heq, h.trans htarget⟩
  · exact .inl (hs.unchanged fun d hd hd' => hw ⟨d, hd, hd'⟩)

theorem delivered_of_carrying (hds : Transferable ds) (hs : Carrying mem user ds batch [] s)
    (hdone : s.device.Settled) : Delivered mem user ds s := by
  refine ⟨fun d hd k hk => hs.delivered hds hd (fun p hp => ?_) hk, fun a ha => hs.unchanged ha⟩
  exact absurd hp (not_or_intro List.not_mem_nil (not_pending_of_settled hdone p))

/-- No copy is queued, and nothing is being gathered or grouped. -/
structure Idle (s : Host) : Prop extends Emptied s where
  gathering : s.gathering = none
  settled : s.device.Settled

theorem stable_settled : cfg.machine.Stable fun s => s.device.Settled := by
  intro s e t hs he
  cases e with
  | advance st =>
    obtain ⟨x, hx⟩ := Device.runnable_next (Host.advance_cases he).1
    exact absurd (hs st) (Device.next_lt hx).ne
  | gather k =>
    obtain ⟨g, e, es, -, -, rfl⟩ := Host.gather_cases he
    exact hs

/-- With nothing queued there is nothing to wait for. -/
theorem unread_stagingWait (b : Nat) :
    cfg.Free (fun s => s.device.Settled) [.stagingWait b] (Unread b) := by
  have hst : cfg.machine.Stable fun s => s.device.Settled := stable_settled
  have hunread : ∀ s : Host, s.device.Settled → Unread b s := fun s hs st i c hw _ => by
    rw [hs st]
    exact hw.lt
  refine free_expand cfg hst (fun _ => rfl) fun s hs => ?_
  split
  · have hsync : cfg.Free (fun s => s.device.Settled) [.eventSynchronize (.staging b)]
        fun s => s.device.Settled := by
      refine free_atom cfg hst hst fun s t m hs hp => ?_
      simp only [Config.perform] at hp
      split at hp
      · cases hp
        exact ⟨rfl, hs⟩
      · cases hp
    have hdone : cfg.Free (fun s => s.device.Settled) [.stagingDone b] (Unread b) := by
      refine free_atom cfg hst (stable_unread b) fun s t m hs hp => ?_
      cases hp
      exact ⟨rfl, hunread s hs⟩
    exact Triple.cons hsync hdone s hs
  · exact Triple.nil (stable_unread b) (fun _ _ => trivial) s (hunread s hs)

theorem underway_of_settled (hs : s.device.Settled) (hg : s.gathering = none) :
    Underway s.gpu s.user [] [] [] s := by
  have hnone : ∀ p, p ∉ due [] s := fun p =>
    not_or_intro List.not_mem_nil (not_pending_of_settled hs p)
  exact ⟨⟨rfl, fun st => (hs st).le, ⟨fun p hp => absurd hp (hnone p), fun _ hne => absurd rfl hne⟩,
    fun _ => .inl rfl, fun p hp => absurd hp (hnone p), List.forall_mem_nil _⟩, hg⟩

/-- **The batch is delivered**, whatever function and whatever strategy it takes.  At no moment does a
byte of the destination hold anything but what it held before or what its own descriptor names; and
when the call has returned and every copy has been performed, every byte of a descriptor holds that,
and no other byte has changed. -/
theorem delivered_of_reachable {orFlags curRead : Nat} (hs : Idle s)
    (hb : Transferable (transferred cfg batch orFlags)) {t : Script.State Host Call}
    (ht : Reachable cfg.machine.step Always (· = ⟨s, [.flushBatch batch orFlags curRead]⟩) t) :
    Untorn s.gpu s.user (transferred cfg batch orFlags) t.data ∧
      (t.todo = [] → t.data.device.Settled →
        Delivered s.gpu s.user (transferred cfg batch orFlags) t.data) := by
  have htriple : cfg.machine.Triple
      (.always (Flushing s.gpu s.user ([] ++ transferred cfg batch orFlags)
        (transferred cfg batch orFlags) s.doneIdx))
      (fun t => (t.device.Settled ∧ Emptied t ∧ Underway s.gpu s.user [] [] [] t) ∧ t.doneIdx = s.doneIdx)
      [.flushBatch batch orFlags curRead]
      (Underway s.gpu s.user ([] ++ transferred cfg batch orFlags) [] []) :=
    flushing_flushBatch stable_settled unread_stagingWait curRead s.doneIdx rfl hb
  rw [List.nil_append] at htriple
  have hout : Script.Machine.Outlined cfg.machine
      (.always (Flushing s.gpu s.user (transferred cfg batch orFlags) (transferred cfg batch orFlags)
        s.doneIdx)) (Underway s.gpu s.user (transferred cfg batch orFlags) [] []) t := by
    refine ht.invariant ?_ fun _ _ _ hu _ hstep => hu.step hstep
    rintro _ rfl
    exact htriple.outlined ⟨⟨hs.settled, hs.toEmptied,
      underway_of_settled hs.settled hs.gathering⟩, rfl⟩
  refine ⟨?_, fun htodo hdone => delivered_of_carrying hb (hout.post htodo).toCarrying hdone⟩
  rcases hout.inv with ⟨⟨left, hcarrying⟩, -⟩ | ⟨left, hcarrying⟩ <;>
    exact untorn_of_carrying hb hcarrying

/-! ### One strategy or another -/

/-- No copy is queued and nothing is being gathered. -/
structure AtRest (s : Host) : Prop where
  gathering : s.gathering = none
  settled : s.device.Settled
  valid : s.device.Valid
  layered : s.device.Layered Channel

section Example

private def pair : List Descriptor := [⟨4096, 65536, 16, 0, 0, 0⟩, ⟨20480, 65552, 16, 0, 0, 1⟩]

/-- One channel, one staging buffer, no gather worker. -/
private def oneBuffer : Config :=
  { Config.plain with
    staging := ⟨1, 4096⟩
    bufs_le := one_le_numStagingBufs }

private def halves : Host := .init (fun a => if a < 20480 then 1 else 2) (fun _ _ => 0) fun _ => 0

/-- The thread's calls, the gather of two entries and the copy of the run. -/
private def moves : List (Script.Act HostEnv) :=
  [List.replicate 4 .perform, List.replicate 2 (.env (.gather 0)), List.replicate 8 .perform,
    [.env (.advance (.ce 0))]].flatten

/-- Two descriptors next to each other in the destination, but not in the source, are gathered and
copied as one run. -/
theorem delivered_of_reachable_two : ∃ t : Script.State Host Call,
    Reachable oneBuffer.machine.step Always (· = ⟨halves, [.flushBatch pair 0 2]⟩) t ∧
      Delivered halves.gpu halves.user pair t.data := by
  obtain ⟨t, hrun, htodo, hdone⟩ : ∃ t : Script.State Host Call,
      run oneBuffer.machine.step (⟨halves, [.flushBatch pair 0 2]⟩ : Script.State Host Call) moves =
        some t ∧ t.todo = [] ∧ t.data.device.Settled := by
    refine ⟨_, rfl, rfl, fun st => ?_⟩
    cases st with
    | signal => rfl
    | ce ch => cases ch <;> rfl
  have hidle : Idle halves := ⟨⟨rfl, rfl⟩, rfl, fun _ => rfl⟩
  have hpair : Transferable (transferred oneBuffer pair 0) := by
    exact transferable_of_ascending (by decide) (by decide) (by decide)
  have ht := (Reachable.self (C := Always) (⟨halves, [.flushBatch pair 0 2]⟩ :
    Script.State Host Call)).run_always hrun
  exact ⟨t, ht, (delivered_of_reachable hidle hpair ht).2 htodo hdone⟩

/-- Two channels and no staging buffer. -/
private def twoChannels : Config :=
  { Config.plain with channels := 2, channels_pos := Nat.two_pos, channels_le := two_le_maxCeChannels }

/-- The second and the third descriptor lie one behind the other, the first behind a hole. -/
private def three : List Descriptor :=
  [⟨20480, 65584, 16, 0, 0, 0⟩, ⟨4096, 65536, 16, 0, 0, 1⟩, ⟨4112, 65552, 16, 0, 0, 2⟩]

end Example

end BatchDelivery
end Gfd
