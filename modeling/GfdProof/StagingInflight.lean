import GfdProof.DeferredEvents

/-! # Staging copies in flight

The polling thread keeps an event for each staging buffer, with a flag that says that it is
pending, and beside them the number of staging copies in flight.  A staged batch waits for the
event of the buffer that it takes, if it is pending, and both flag and number are taken back; after
the submission both are set again.

The idle branch and the end of the loop take back the number alone.  So it is the number of pending
flags, and positive while a staging copy may be outstanding, in the runs in which these two never
find a positive number (`inflight_of_reachable`); after an idle iteration that finds one, the number
stays behind the flags and falls below zero (`exists_drifted`).
-/
namespace Gfd
namespace StagingInflight

open WorkStreams Script.Machine Transition

/-! ## The books -/

/-- The copy reads from staging buffer `b`. -/
def ReadsStaging (b : Nat) : Copy → Prop
  | .data e _ => e.FromStaging b
  | .tileSignal .. | .listSignal _ => False

/-- A copy from staging buffer `b` has been submitted. -/
def Used (s : Host) (b : Nat) : Prop := ∃ st i c, s.device.WorkAt st i c ∧ ReadsStaging b c

/-- The staging buffers whose event is pending. -/
def pendingCount (cfg : Config) (p : Poller) : Nat :=
  (List.range cfg.staging.bufs).countP p.stagingEventPending

/-- The number in flight is that of the pending flags. -/
structure Counted (cfg : Config) (s : Host) : Prop where
  cur_lt : 0 < cfg.staging.bufs → s.poller.stagingCur < cfg.staging.bufs
  count : s.poller.stagingInflightCount = pendingCount cfg s.poller

/-- Between batches, a buffer that a copy has ever been submitted from is pending. -/
structure Books (cfg : Config) (s : Host) : Prop extends Counted cfg s where
  used : ∀ b, Used s b → b < cfg.staging.bufs ∧ s.poller.stagingEventPending b = true

/-- In the middle of a staged batch: no copy from its buffer is waited for. -/
structure Midway (cfg : Config) (b : Nat) (s : Host) : Prop extends Counted cfg s where
  lt : b < cfg.staging.bufs
  idle : s.poller.stagingEventPending b = false
  used : ∀ b' ≠ b, Used s b' → b' < cfg.staging.bufs ∧ s.poller.stagingEventPending b' = true

/-- The number is not cleared: whoever waits for staging copies finds none in flight. -/
def Keeps : Call → Host → Prop
  | .settleStaging, s => s.poller.stagingInflightCount ≤ 0
  | _, _ => True

instance (c : Call) (s : Host) : Decidable (Keeps c s) := by
  rcases c with _ | _ <;> dsimp only [Keeps] <;> infer_instance

/-! ## Flags -/

/-- One flag more or less. -/
theorem countP_update {f : Nat → Bool} {b n : Nat} (hb : b < n) :
    (List.range n).countP (Function.update f b true) =
      (List.range n).countP (Function.update f b false) + 1 := by
  induction n with
  | zero => cases hb
  | succ n ih =>
    rw [List.range_succ, List.countP_append, List.countP_append]
    rcases Nat.lt_succ_iff_lt_or_eq.mp hb with hlt | rfl
    · have hne : n ≠ b := Nat.ne_of_gt hlt
      simp only [ih hlt, List.countP_singleton, Function.update_of_ne hne]
      omega
    · have hsame : ∀ v, (List.range b).countP (Function.update f b v) = (List.range b).countP f := by
        intro v
        refine List.countP_congr fun k hk => ?_
        rw [Function.update_of_ne (Nat.ne_of_lt (List.mem_range.mp hk))]
      simp [hsame]

theorem countP_set {f : Nat → Bool} {b n : Nat} (hb : b < n) (hf : f b = false) :
    (List.range n).countP (Function.update f b true) = (List.range n).countP f + 1 := by
  rw [countP_update hb, ← hf, Function.update_eq_self]

theorem countP_clear {f : Nat → Bool} {b n : Nat} (hb : b < n) (hf : f b = true) :
    (List.range n).countP (Function.update f b false) + 1 = (List.range n).countP f := by
  rw [← countP_update hb, ← hf, Function.update_eq_self]

/-! ## What other calls leave alone -/

/-- The calls that leave the flags and the number alone and submit only copies that meet `ψ`. -/
def Leaves (ψ : Copy → Prop) : Call → Prop
  | .copyAsync _ c => ψ c
  | .submit cs => ∀ c ∈ cs, ψ c
  | .processBatchTiled _ | .processBatchSg _ => ∀ c, (∀ b, ¬ ReadsStaging b c) → ψ c
  | .flushBatch .. | .processBatch _ | .stagingWait _ | .stagingDone _ | .stagingSent _
  | .clearInflight => False
  | _ => True

/-- The difference one such call can make. -/
structure Left (ψ : Copy → Prop) (s t : Host) : Prop where
  cur : t.poller.stagingCur = s.poller.stagingCur
  pending : t.poller.stagingEventPending = s.poller.stagingEventPending
  count : t.poller.stagingInflightCount = s.poller.stagingInflightCount
  work : ∀ st i c, t.device.WorkAt st i c → s.device.WorkAt st i c ∨ ψ c

variable {cfg : Config} {ψ : Copy → Prop} {s t : Host}

theorem Left.of_poller (hp : t.poller = s.poller) (hd : t.device = s.device) : Left ψ s t :=
  ⟨by rw [hp], by rw [hp], by rw [hp], fun _ _ _ h => .inl (hd ▸ h)⟩

theorem not_readsStaging {e : SGEntry} (he : e.FromUser) (ds : List Descriptor) (b : Nat) :
    ¬ ReadsStaging b (.data e ds) := by
  obtain ⟨a, ha⟩ := he
  rintro ⟨off, hoff⟩
  cases ha.symm.trans hoff

theorem leaves_submit {p : Poller} {cs : List Copy} (h : ∀ c ∈ cs, ψ c) :
    ∀ c ∈ cfg.submit p cs, Leaves ψ c := by
  unfold Config.submit
  dsimp only
  split
  · exact List.forall_mem_nil _
  · refine List.forall_mem_append.mpr ⟨List.forall_mem_map.mpr fun c hc => ?_,
      List.forall_mem_cons.mpr ⟨trivial, List.forall_mem_map.mpr fun _ _ => trivial⟩⟩
    exact h c.1 (List.fst_mem_of_mem_zipIdx hc)

theorem leaves_tileSignals (hψ : ∀ c, (∀ b, ¬ ReadsStaging b c) → ψ c) (tiles : List Nat) :
    ∀ c ∈ Config.tileSignals tiles, Leaves ψ c := by
  have heach : ∀ c ∈ tiles.map fun t => Call.copyAsync .signal (.tileSignal true t 1), Leaves ψ c :=
    List.forall_mem_map.mpr fun _ _ => hψ _ fun _ => id
  unfold Config.tileSignals
  dsimp only
  split
  · exact heach
  · split
    · exact List.forall_mem_singleton.mpr (hψ _ fun _ => id)
    · exact heach

theorem leaves_processBatchTiled (hψ : ∀ c, (∀ b, ¬ ReadsStaging b c) → ψ c)
    (groups : List (Nat × List Descriptor)) : ∀ c ∈ cfg.processBatchTiled groups, Leaves ψ c := by
  have hdata : ∀ c ∈ (tiledEntries (groups.map Prod.snd)).map
      (fun es => Call.submit (es.map fun e => .data e.1 e.2)), Leaves ψ c :=
    List.forall_mem_map.mpr fun es hes => List.forall_mem_map.mpr fun e he =>
      hψ _ (not_readsStaging (fromUser_tiledEntries _ es hes e he) e.2)
  unfold Config.processBatchTiled
  dsimp only
  refine List.forall_mem_append.mpr ⟨List.forall_mem_append.mpr ⟨?_, hdata⟩, ?_⟩
  · split
    · exact List.forall_mem_map.mpr fun _ _ => trivial
    · exact List.forall_mem_nil _
  · split
    · split
      · exact List.forall_mem_cons.mpr ⟨trivial, leaves_tileSignals hψ _⟩
      · exact List.forall_mem_singleton.mpr (List.forall_mem_map.mpr fun _ _ => hψ _ fun _ => id)
    · exact List.forall_mem_nil _

theorem leaves_processBatchSg (hψ : ∀ c, (∀ b, ¬ ReadsStaging b c) → ψ c)
    (groups : List (Nat × List Descriptor)) : ∀ c ∈ cfg.processBatchSg groups, Leaves ψ c := by
  have hdata : ∀ c ∈ groups.map
      (fun g => Call.submit ((groupEntries g.2).map fun e => .data e.1 e.2)), Leaves ψ c :=
    List.forall_mem_map.mpr fun g _ => List.forall_mem_map.mpr fun e he =>
      hψ _ (not_readsStaging (fromUser_groupEntries g.2 e he) e.2)
  unfold Config.processBatchSg
  refine List.forall_mem_append.mpr ⟨hdata, ?_⟩
  split
  · refine List.forall_mem_append.mpr ⟨List.forall_mem_cons.mpr ⟨trivial, ?_⟩,
      List.forall_mem_singleton.mpr trivial⟩
    intro c hc
    obtain ⟨g, -, hc⟩ := List.mem_flatMap.mp hc
    split at hc
    · rcases List.mem_pair.mp hc with rfl | rfl
      · trivial
      · exact hψ _ fun _ => id
    · cases hc
  · split
    · refine List.forall_mem_append.mpr ⟨List.forall_mem_cons.mpr ⟨trivial, ?_⟩,
        List.forall_mem_singleton.mpr trivial⟩
      split
      · exact List.forall_mem_map.mpr fun _ _ => trivial
      · exact List.forall_mem_nil _
    · exact List.forall_mem_nil _

theorem leaves_nil : ∀ c ∈ ([] : List Call), Leaves ψ c := List.forall_mem_nil _

/-- What such a call does, and that it expands into such calls. -/
theorem leaves_perform {c : Call} {m : List Call} (hc : Leaves ψ c) (hk : Keeps c s)
    (hp : cfg.perform s c = some (t, m)) : Left ψ s t ∧ ∀ c' ∈ m, Leaves ψ c' := by
  have same : Left ψ s s := .of_poller rfl rfl
  cases c with
  | flushBatch | processBatch | stagingWait | stagingDone | stagingSent | clearInflight =>
    exact hc.elim
  | copyAsync st c =>
    cases hp
    refine ⟨⟨rfl, rfl, rfl, fun _ _ c' h => ?_⟩, leaves_nil⟩
    exact (s.device.workAt_push h).imp_right fun ⟨_, _, hc'⟩ => by cases hc'; exact hc
  | streamWaitEvent st e =>
    cases hp
    exact ⟨⟨rfl, rfl, rfl, fun _ _ _ h => .inl (s.device.workAt_waitEvent h)⟩, leaves_nil⟩
  | eventRecord | recordEventOnLastStream | pushTileEvent =>
    cases hp
    exact ⟨⟨rfl, rfl, rfl, fun _ _ _ h => .inl h⟩, leaves_nil⟩
  | eventSynchronize e =>
    simp only [Config.perform] at hp
    split at hp
    · cases hp; exact ⟨same, leaves_nil⟩
    · cases hp
  | gatherWait =>
    simp only [Config.perform] at hp
    split at hp
    · split at hp
      · cases hp; exact ⟨.of_poller rfl rfl, leaves_nil⟩
      · cases hp
    · cases hp
  | submit cs => cases hp; exact ⟨same, leaves_submit hc⟩
  | waitCompletion =>
    cases hp
    exact ⟨same, List.forall_mem_append.mpr ⟨List.forall_mem_map.mpr fun _ _ => trivial,
      List.forall_mem_singleton.mpr trivial⟩⟩
  | makeStreamWaitOnAll st =>
    cases hp
    refine ⟨same, fun c hc' => ?_⟩
    obtain ⟨ch, -, h⟩ := List.mem_flatMap.mp hc'
    rcases List.mem_pair.mp h with rfl | rfl <;> trivial
  | processBatchNoCe batch =>
    cases hp
    exact ⟨same, List.forall_mem_map.mpr fun _ _ => trivial⟩
  | processBatchTiled batch =>
    cases hp
    exact ⟨⟨rfl, rfl, rfl, fun _ _ _ h => .inl h⟩, leaves_processBatchTiled hc _⟩
  | processBatchSg batch =>
    cases hp
    exact ⟨⟨rfl, rfl, rfl, fun _ _ _ h => .inl h⟩, leaves_processBatchSg hc _⟩
  | tileStep d =>
    cases hp
    refine ⟨?_, leaves_nil⟩
    unfold Host.tileStep
    dsimp only
    split
    · split
      · obtain ⟨hd, hp⟩ := Host.storeTile_frame { s with
          poller := { s.poller with
            tileProgress := Function.update s.poller.tileProgress d.group
              (word (s.poller.tileProgress d.group + 1)) } } cfg.dTileChunkDone d.group
        exact ⟨by rw [hp], by rw [hp], by rw [hp], fun _ _ _ h => .inl (by rwa [hd] at h)⟩
      · exact ⟨rfl, rfl, rfl, fun _ _ _ h => .inl h⟩
    · exact same
  | storeTile dev id =>
    cases hp
    obtain ⟨hd, hp⟩ := s.storeTile_frame dev id
    exact ⟨.of_poller hp hd, leaves_nil⟩
  | pollTileEvents =>
    cases hp
    refine ⟨same, ?_⟩
    unfold Config.pollTileEvents
    dsimp only
    split
    · refine List.forall_mem_append.mpr ⟨List.forall_mem_map.mpr fun _ _ => trivial, ?_⟩
      simp only [List.forall_mem_cons]
      exact ⟨trivial, trivial, trivial, trivial, leaves_nil⟩
    · exact leaves_nil
  | drainTileEvents =>
    cases hp
    refine ⟨same, ?_⟩
    unfold Config.drainTileEvents
    dsimp only
    split
    · refine List.forall_mem_append.mpr ⟨List.forall_mem_map.mpr fun _ _ => trivial, ?_⟩
      simp only [List.forall_mem_cons]
      exact ⟨trivial, trivial, trivial, leaves_nil⟩
    · exact leaves_nil
  | idle =>
    cases hp
    refine ⟨same, ?_⟩
    unfold Config.idle
    split
    · exact List.forall_mem_singleton.mpr trivial
    · split
      · simp only [List.forall_mem_cons]
        exact ⟨trivial, trivial, leaves_nil⟩
      · exact leaves_nil
  | finish =>
    cases hp
    refine ⟨same, ?_⟩
    unfold Config.finish
    split <;> simp only [List.forall_mem_append, List.forall_mem_cons]
    · exact ⟨⟨trivial, trivial, trivial, leaves_nil⟩, trivial, trivial, leaves_nil⟩
    · exact ⟨leaves_nil, trivial, trivial, leaves_nil⟩
  | settleStaging =>
    -- nothing is in flight, so nothing is cleared
    cases hp
    refine ⟨same, ?_⟩
    unfold Config.settleStaging
    rw [if_neg (Int.not_lt.mpr hk)]
    exact leaves_nil
  | settleAsync =>
    cases hp
    refine ⟨same, ?_⟩
    unfold Config.settleAsync
    split
    · simp only [List.forall_mem_cons]
      exact ⟨trivial, trivial, trivial, leaves_nil⟩
    · exact leaves_nil
  | submitted | clearDirty | parallelGather | memcpy | addProgress | storeSignal | storeListDone
  | addListsCompleted | setAsync | clearAsync | storeDone | publishDone | raiseDone
  | retireTileEvent | asyncWhileInflight =>
    cases hp
    exact ⟨⟨rfl, rfl, rfl, fun _ _ _ h => .inl h⟩, leaves_nil⟩

/-- **The frame of the other calls.** -/
theorem leaves_triple {S : Spec Host Call} {P : Host → Prop} (hP : cfg.machine.Stable P)
    (hinv : ∀ s, P s → S.inv s) (hpre : ∀ c s, S.pre c s)
    (hleft : ∀ s t, Left ψ s t → P s → P t) {l : List Call} (hl : ∀ c ∈ l, Leaves ψ c) :
    (cfg.machine.only Keeps).Triple S P l P := by
  refine Triple.closed (M := cfg.machine.only Keeps) (K := Leaves ψ) hP hinv
    (fun c hc => .inr fun s hs => ⟨hpre c s, fun t m hp => ?_⟩) hl
  obtain ⟨hk, hp⟩ := perform_only hp
  obtain ⟨hleave, hm⟩ := leaves_perform hc hk hp
  exact ⟨hleft s t hleave hs, hm⟩

/-! ## A staged batch -/

/-- Other copies than those from the staging buffers. -/
def Apart (c : Copy) : Prop := ∀ b, ¬ ReadsStaging b c

/-- Other copies than those from the staging buffers other than `b`. -/
def ApartBut (b : Nat) (c : Copy) : Prop := ∀ b' ≠ b, ¬ ReadsStaging b' c

theorem Counted.left (hs : Counted cfg s) (h : Left ψ s t) : Counted cfg t where
  cur_lt := by rw [h.cur]; exact hs.cur_lt
  count := by rw [h.count, pendingCount, h.pending]; exact hs.count

theorem Counted.env (hs : Counted cfg s) (h : Host.EnvStep s t) : Counted cfg t where
  cur_lt := by rw [h.poller]; exact hs.cur_lt
  count := by rw [h.poller]; exact hs.count

theorem Used.env {b : Nat} (hu : Used t b) (h : Host.EnvStep s t) : Used s b := by
  obtain ⟨st, i, c, hw, hr⟩ := hu
  unfold Device.WorkAt at hw
  rw [h.log] at hw
  exact ⟨st, i, c, hw, hr⟩

theorem Used.left {b : Nat} (hu : Used t b) (h : Left ψ s t) (hψ : ∀ c, ψ c → ¬ ReadsStaging b c) :
    Used s b := by
  obtain ⟨st, i, c, hw, hr⟩ := hu
  rcases h.work st i c hw with hw | hc
  · exact ⟨st, i, c, hw, hr⟩
  · exact absurd hr (hψ c hc)

theorem Books.env (hs : Books cfg s) (h : Host.EnvStep s t) : Books cfg t where
  toCounted := hs.toCounted.env h
  used b hu := by rw [h.poller]; exact hs.used b (hu.env h)

theorem Books.left (hs : Books cfg s) (h : Left Apart s t) : Books cfg t where
  toCounted := hs.toCounted.left h
  used b hu := by rw [h.pending]; exact hs.used b (hu.left h fun _ hc => hc b)

theorem Midway.env {b : Nat} (hs : Midway cfg b s) (h : Host.EnvStep s t) : Midway cfg b t where
  toCounted := hs.toCounted.env h
  lt := hs.lt
  idle := by rw [h.poller]; exact hs.idle
  used b' hne hu := by rw [h.poller]; exact hs.used b' hne (hu.env h)

theorem Midway.left {b : Nat} (hs : Midway cfg b s) (h : Left (ApartBut b) s t) :
    Midway cfg b t where
  toCounted := hs.toCounted.left h
  lt := hs.lt
  idle := by rw [h.pending]; exact hs.idle
  used b' hne hu := by rw [h.pending]; exact hs.used b' hne (hu.left h fun _ hc => hc b' hne)

theorem stable_books : cfg.machine.Stable (Books cfg) := stable_env cfg fun _ _ h hs => hs.env h

theorem stable_midway (b : Nat) : cfg.machine.Stable (Midway cfg b) :=
  stable_env cfg fun _ _ h hs => hs.env h

/-- The buffer that is taken is, or becomes, free: its event is waited for if it is pending. -/
theorem books_stagingWait {S : Spec Host Call} (hinv : ∀ s, Counted cfg s → S.inv s)
    (hpre : ∀ c s, S.pre c s) {b : Nat} (hb : b < cfg.staging.bufs) :
    (cfg.machine.only Keeps).Triple S (Books cfg) [.stagingWait b] (Midway cfg b) := by
  refine Triple.expand stable_books (fun s hs => hinv s hs.toCounted) (fun s _ => hpre _ s)
    (fun s => perform_only_of (A := Keeps) trivial) fun s hs => ?_
  by_cases hpend : s.poller.stagingEventPending b = true
  · have hst : cfg.machine.Stable fun s => Books cfg s ∧ s.poller.stagingEventPending b = true :=
      stable_books.and (stable_env cfg fun _ _ h hs => by rw [h.poller]; exact hs)
    have hwait : (cfg.machine.only Keeps).Triple S
        (fun s => Books cfg s ∧ s.poller.stagingEventPending b = true)
        [.eventSynchronize (.staging b)]
        (fun s => Books cfg s ∧ s.poller.stagingEventPending b = true) :=
      leaves_triple hst (fun s hs => hinv s hs.1.toCounted) hpre
        (fun s t h hs => ⟨hs.1.left h, by rw [h.pending]; exact hs.2⟩)
        (List.forall_mem_singleton.mpr trivial)
    have hdone : (cfg.machine.only Keeps).Triple S
        (fun s => Books cfg s ∧ s.poller.stagingEventPending b = true) [.stagingDone b]
        (Midway cfg b) := by
      refine Triple.atom hst (fun s hs => hinv s hs.1.toCounted) (fun s _ => hpre _ s)
        (stable_midway b) (fun s hs => hinv s hs.toCounted) fun s t m hs hp => ?_
      obtain ⟨-, hp⟩ := perform_only hp
      cases hp
      obtain ⟨hs, hpend⟩ := hs
      have hclear := countP_clear hb hpend
      refine ⟨rfl, ⟨hs.cur_lt, ?_⟩, hb, Function.update_self .., fun b' hne hu => ?_⟩
      · have hcount := hs.count
        unfold pendingCount at hcount ⊢
        dsimp only
        omega
      · dsimp only
        rw [Function.update_of_ne hne]
        exact hs.used b' hu
    rw [if_pos hpend]
    exact Triple.cons hwait hdone s ⟨hs, hpend⟩
  · have hnil : (cfg.machine.only Keeps).Triple S (Midway cfg b) [] (Midway cfg b) :=
      Triple.nil (stable_midway b) fun s hs => hinv s hs.toCounted
    rw [if_neg hpend]
    exact hnil s ⟨hs.toCounted, hb, eq_false_of_ne_true hpend, fun b' _ hu => hs.used b' hu⟩

/-- After the submission, the buffer's event is pending again. -/
theorem books_stagingSent {S : Spec Host Call} (hinv : ∀ s, Counted cfg s → S.inv s)
    (hpre : ∀ c s, S.pre c s) (b : Nat) :
    (cfg.machine.only Keeps).Triple S (Midway cfg b) [.stagingSent b] (Books cfg) := by
  refine Triple.atom (stable_midway b) (fun s hs => hinv s hs.toCounted) (fun s _ => hpre _ s)
    stable_books (fun s hs => hinv s hs.toCounted) fun s t m hs hp => ?_
  obtain ⟨-, hp⟩ := perform_only hp
  cases hp
  have hset := countP_set hs.lt hs.idle
  refine ⟨rfl, ⟨fun hpos => Nat.mod_lt _ hpos, ?_⟩, fun b' hu => ?_⟩
  · have hcount := hs.count
    unfold pendingCount at hcount ⊢
    dsimp only
    omega
  · dsimp only
    by_cases hb : b' = b
    · rw [hb, Function.update_self]
      exact ⟨hs.lt, rfl⟩
    · rw [Function.update_of_ne hb]
      exact hs.used b' hb hu

/-- **`process_batch`**, staged or not. -/
theorem books_processBatch {S : Spec Host Call} (hinv : ∀ s, Counted cfg s → S.inv s)
    (hpre : ∀ c s, S.pre c s) (batch : List Descriptor) :
    (cfg.machine.only Keeps).Triple S (Books cfg) [.processBatch batch] (Books cfg) := by
  refine Triple.expand stable_books (fun s hs => hinv s hs.toCounted) (fun s _ => hpre _ s)
    (fun s => perform_only_of (A := Keeps) trivial) fun s hs => ?_
  have hsrc := batchPlan_sourced cfg.std cfg.staging s.poller.stagingCur batch
  unfold Config.processBatch
  dsimp only
  split
  · rename_i es hplan
    rw [hplan] at hsrc
    have hl : ∀ c ∈ [Call.submit (Config.dataCopies batch es)], Leaves Apart c :=
      List.forall_mem_singleton.mpr (List.forall_mem_map.mpr fun e he =>
        not_readsStaging (hsrc e he) batch)
    exact leaves_triple stable_books (fun s hs => hinv s hs.toCounted) hpre
      (fun _ _ h hs => hs.left h) hl s hs
  · rename_i es base rs hplan
    rw [hplan] at hsrc
    have hl : ∀ c ∈ [Call.parallelGather es s.poller.stagingCur base, .gatherWait,
        .submit (Config.dataCopies batch rs),
        .recordEventOnLastStream (.staging s.poller.stagingCur)],
        Leaves (ApartBut s.poller.stagingCur) c := by
      simp only [List.forall_mem_cons]
      refine ⟨trivial, trivial, List.forall_mem_map.mpr fun e he b' hne => ?_, trivial, leaves_nil⟩
      obtain ⟨off, hoff⟩ := hsrc.2 e he
      rintro ⟨off', hoff'⟩
      cases hoff.symm.trans hoff'
      exact hne rfl
    have hmid := leaves_triple (S := S) (stable_midway s.poller.stagingCur)
      (fun s hs => hinv s hs.toCounted) hpre (fun _ _ h hs => hs.left h) hl
    exact Triple.cons (books_stagingWait hinv hpre (hs.cur_lt hsrc.1))
      (hmid.append (books_stagingSent hinv hpre s.poller.stagingCur)) s hs

/-! ## The calls of the loop -/

/-- The books agree at every moment outside `flush_batch`, and the number with the flags always. -/
def promise (cfg : Config) (flushing : Bool) : Spec Host Call :=
  .always fun s => Counted cfg s ∧ (flushing = false → Books cfg s)

theorem Books.promised (hs : Books cfg s) (flushing : Bool) : (promise cfg flushing).inv s :=
  ⟨hs.toCounted, fun _ => hs⟩

/-- Every call other than those of a staged batch. -/
theorem books_leaves (flushing : Bool) {l : List Call} (hl : ∀ c ∈ l, Leaves Apart c) :
    (cfg.machine.only Keeps).Triple (promise cfg flushing) (Books cfg) l (Books cfg) :=
  leaves_triple stable_books (fun _ hs => hs.promised flushing) (fun _ _ => trivial)
    (fun _ _ h hs => hs.left h) hl

theorem books_flush (batch : List Descriptor) (orFlags curRead : Nat) :
    (cfg.machine.only Keeps).Triple (promise cfg true) (Books cfg)
      [.flushBatch batch orFlags curRead] (Books cfg) := by
  refine Triple.expand stable_books (fun _ hs => hs.promised true) (fun _ _ => trivial)
    (fun s => perform_only_of (A := Keeps) trivial) fun s hs => ?_
  have happart : ∀ c, (∀ b, ¬ ReadsStaging b c) → Apart c := fun _ h => h
  have hbatch : (cfg.machine.only Keeps).Triple (promise cfg true) (Books cfg)
      [.processBatch batch] (Books cfg) :=
    books_processBatch (fun s hs => show Counted cfg s ∧ _ from ⟨hs, by simp⟩)
      (fun _ _ => trivial) batch
  unfold Config.flushBatch
  dsimp only
  split
  · exact books_leaves true leaves_nil s hs
  · split
    · refine books_leaves true ?_ s hs
      simp only [List.forall_mem_cons]
      exact ⟨happart, trivial, leaves_nil⟩
    · split
      · split
        · refine books_leaves true ?_ s hs
          simp only [List.forall_mem_cons]
          exact ⟨happart, trivial, leaves_nil⟩
        · refine Triple.cons hbatch (books_leaves true ?_) s hs
          refine List.forall_mem_append.mpr ⟨List.forall_mem_singleton.mpr trivial, ?_⟩
          split
          · exact List.forall_mem_singleton.mpr trivial
          · exact leaves_nil
      · refine books_leaves true ?_ s hs
        refine List.forall_mem_append.mpr ⟨?_, ?_⟩
        · simp only [List.forall_mem_cons]
          exact ⟨trivial, trivial, leaves_nil⟩
        · split
          · exact List.forall_mem_map.mpr fun _ _ => trivial
          · exact leaves_nil

theorem duty (cfg : Config) : DutyOn cfg (cfg.machine.only Keeps) (fun _ => True)
    (fun flushing _ => promise cfg flushing) fun _ => Books cfg where
  stable _ := stable_books
  inv flushing _ _ hs := hs.promised flushing
  flush t _ _ _ _ _ _ hs := (books_flush t.batch t.orFlags t.readIdx).outlined hs
  idle _ _ hs := by
    have hl : ∀ c ∈ [Call.idle], Leaves Apart c := List.forall_mem_singleton.mpr trivial
    exact (books_leaves false hl).outlined hs
  finish _ _ hs := by
    have hl : ∀ c ∈ [Call.finish], Leaves Apart c := List.forall_mem_singleton.mpr trivial
    exact (books_leaves false hl).outlined hs

/-! ## Every run -/

/-- A copy from a staging buffer has not been performed yet. -/
def Outstanding (s : Host) : Prop :=
  ∃ b st i c, s.device.WorkAt st i c ∧ ReadsStaging b c ∧ s.device.done st ≤ i

/-- The number in flight is what the flags say. -/
structure InFlight {cfg : Config} (s : Loop cfg.backend) : Prop where
  count : s.backend.data.poller.stagingInflightCount = pendingCount cfg s.backend.data.poller
  nonneg : 0 ≤ s.backend.data.poller.stagingInflightCount
  le_bufs : s.backend.data.poller.stagingInflightCount ≤ cfg.staging.bufs
  /-- Outside `flush_batch`. -/
  positive : s.pc.inCall ≠ some true → Outstanding s.backend.data →
    0 < s.backend.data.poller.stagingInflightCount

theorem pendingCount_le (cfg : Config) (p : Poller) : pendingCount cfg p ≤ cfg.staging.bufs := by
  unfold pendingCount
  calc _ ≤ (List.range cfg.staging.bufs).length := List.countP_le_length
    _ = cfg.staging.bufs := List.length_range

theorem Books.positive (hs : Books cfg s) (ho : Outstanding s) :
    0 < s.poller.stagingInflightCount := by
  obtain ⟨b, st, i, c, hw, hr, -⟩ := ho
  obtain ⟨hlt, hpend⟩ := hs.used b ⟨st, i, c, hw, hr⟩
  have hpos : 0 < pendingCount cfg s.poller :=
    List.countP_pos_iff.mpr ⟨b, List.mem_range.mpr hlt, hpend⟩
  rw [hs.count]
  omega

theorem books_init (cfg : Config) (user : Nat → UInt8) (staging : Nat → Nat → UInt8)
    (gpu : Nat → UInt8) : Books cfg (.init user staging gpu) where
  cur_lt hpos := hpos
  count := by simp [Host.init, Poller.init, pendingCount]
  used b hu := by
    obtain ⟨st, i, c, hw, -⟩ := hu
    cases hw

/-- **The number in flight is that of the pending flags**, in every state of a run that keeps to
`Keeps`: whatever batches are flushed, staged or not, however the device and the gather threads
move, and however often the thread is stopped and started again. -/
theorem inflight_of_reachable {user : Nat → UInt8} {staging : Nat → Nat → UInt8} {gpu : Nat → UInt8}
    {s : Loop cfg.backend}
    (hs : Reachable Loop.openStep (cfg.Allowed Keeps) (· = cfg.start (.init user staging gpu)) s) :
    InFlight s := by
  have hatt := (duty cfg).attended_allowed (books_init cfg user staging gpu)
    (fun _ _ => trivial) (fun _ _ hc => hc) hs
  obtain ⟨hcounted, hbooks⟩ := hatt.2.inv
  have hle := pendingCount_le cfg s.backend.data.poller
  have hcount := hcounted.count
  refine ⟨hcount, by omega, by omega, fun hpc ho => ?_⟩
  exact (hbooks (beq_eq_false_iff_ne.mpr hpc)).positive ho

section Example

open Deferred (memory commit poll loads perform copied)

/-- One channel, one staging buffer, no gather worker. -/
private def oneBuffer : Config :=
  { Config.plain with
    staging := ⟨1, 64⟩
    bufs_le := one_le_numStagingBufs }

private def gathered : List (Loop.OpenAct oneBuffer.backend) :=
  [.loop (.backend (show oneBuffer.backend.Act from .env (.gather 0)))]

/-- Two descriptors for neighbouring destinations, from slot `k` on, popped and flushed as one
staged batch, up to the wait for its gather. -/
private def stagedBatch (k calls : Nat) : List (Loop.OpenAct oneBuffer.backend) :=
  commit k 4096 8192 0 ++ commit (k + 1) 0 8208 flagUrgent ++ poll 2 ++ loads ++ poll 5 ++ loads ++
    poll 5 ++ perform oneBuffer calls ++ gathered ++ gathered

private structure Flags where
  count : Int
  pending : Bool
  outstanding : Bool
  returned : Bool
  deriving DecidableEq

private def flags (s : Loop oneBuffer.backend) : Flags where
  count := s.backend.data.poller.stagingInflightCount
  pending := s.backend.data.poller.stagingEventPending 0
  outstanding := decide (s.backend.data.device.done (.ce 0) <
    (s.backend.data.device.log (.ce 0)).length)
  returned := s.backend.todo.isEmpty

/-- A batch of one descriptor, an idle iteration and a staged batch. -/
theorem inflight_of_reachable_two : ∃ s,
    Reachable Loop.openStep (oneBuffer.Allowed Keeps) (· = oneBuffer.start memory) s ∧
      s.backend.data.poller.stagingInflightCount = 1 ∧ InFlight s := by
  have h : (runWhile Loop.openStep (oneBuffer.Allowed Keeps) (oneBuffer.start memory)
      (commit 0 4096 8192 flagUrgent ++ poll 2 ++ loads ++ poll 5 ++ perform oneBuffer 7 ++
        copied oneBuffer 0 ++ poll 3 ++ perform oneBuffer 8 ++ poll 1 ++
        stagedBatch 1 4 ++ perform oneBuffer 8 ++ poll 1)).map flags =
      some ⟨1, true, true, true⟩ := by decide +kernel
  obtain ⟨s, hs, hf⟩ := Option.map_eq_some_iff.mp h
  have hreach := (Reachable.self (oneBuffer.start memory)).runWhile hs
  exact ⟨s, hreach, congrArg Flags.count hf, inflight_of_reachable hreach⟩

/-- Behind a staged batch, the idle iteration clears the number and leaves the flag.  The next
staged batch takes it below zero, and ends with it at zero while its copy is outstanding. -/
theorem exists_drifted : ∃ s,
    Reachable Loop.openStep Always (· = oneBuffer.start memory) s ∧ s.backend.todo = [] ∧
      s.backend.data.poller.stagingInflightCount = 0 ∧
      s.backend.data.poller.stagingEventPending 0 = true ∧
      s.backend.data.device.done (.ce 0) < (s.backend.data.device.log (.ce 0)).length ∧
      ¬ InFlight s := by
  have h : (run Loop.openStep (oneBuffer.start memory)
      (stagedBatch 0 4 ++ perform oneBuffer 8 ++ copied oneBuffer 0 ++ poll 3 ++
        perform oneBuffer 11 ++ poll 1 ++ stagedBatch 2 6 ++ perform oneBuffer 8 ++ poll 1)).map
      flags = some ⟨0, true, true, true⟩ := by decide +kernel
  obtain ⟨s, hs, hf⟩ := Option.map_eq_some_iff.mp h
  simp only [flags, Flags.mk.injEq] at hf
  obtain ⟨hcount, hpend, hout, hret⟩ := hf
  refine ⟨s, (Reachable.self (oneBuffer.start memory)).run_always hs, List.isEmpty_iff.mp hret,
    hcount, hpend, of_decide_eq_true hout, fun hi => ?_⟩
  have hsum := hi.count
  rw [hcount] at hsum
  have hpos : 0 < pendingCount oneBuffer s.backend.data.poller :=
    List.countP_pos_iff.mpr ⟨0, by decide, hpend⟩
  omega

end Example

end StagingInflight
end Gfd
