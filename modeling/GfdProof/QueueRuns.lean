import GfdProof.CopyEngine
import GfdProof.DescriptorRing

/-! # The polling loop over the polling thread's calls

The polling loop of `PollingLoop` with the calls of `HostThread` as its backend,
beside producers that may store anything to any ring cell at any time.

`Duty` is what a mode of operation has to show of the three calls the loop
makes, given what has been flushed so far: each leads from the resting
assertion back to it, and keeps the mode's promise along the way.
`Duty.outlined` is the run lemma: in every state of every run the rest of the
call the thread is in, if any, is safe.
-/
namespace Gfd

open Transition Script.Machine

namespace Loop

variable {B : Backend}

/-- A step of the loop or its backend, or a store to a ring cell by whoever. -/
inductive OpenAct (B : Backend)
  | loop (a : Act B)
  | storeField (c : Nat) (f : Field) (v : Nat)
  | storeSequence (c v : Nat)

def openStep (s : Loop B) : OpenAct B → Option (Loop B)
  | .loop a => s.step a
  | .storeField c f v => some (s.storeField c f v)
  | .storeSequence c v => some (s.storeSequence c v)

/-- What holds of the loop whatever the backend and the producers do: the popped
descriptors are those of the slots below `read_idx`, in order. -/
structure Base (s : Loop B) : Prop where
  batchOk : s.BatchOk
  filled : s.Filled
  slots : s.popped.map Descriptor.slot = List.range s.readIdx

theorem base_init (b : B.State) : (init b).Base := ⟨batchOk_init b, trivial, rfl⟩

theorem slots_effect {s t : Loop B} (h : Effect s t)
    (hs : s.popped.map Descriptor.slot = List.range s.readIdx) :
    t.popped.map Descriptor.slot = List.range t.readIdx := by
  cases h with
  | published drain got he hr hp hs' ht =>
    rw [hp, hr, List.map_append, hs, List.range_succ]
    rfl
  | _ => simp_all only

theorem base_openStep {s t : Loop B} {a : OpenAct B} (hs : s.Base) (h : s.openStep a = some t) :
    t.Base := by
  cases a with
  | loop a =>
    exact ⟨batchOk_step hs.batchOk h, filled_step hs.filled hs.batchOk h,
      slots_effect (step_effect hs.batchOk h) hs.slots⟩
  | storeField c f v => cases h; exact ⟨hs.batchOk, hs.filled, hs.slots⟩
  | storeSequence c v => cases h; exact ⟨hs.batchOk, hs.filled, hs.slots⟩

theorem base_of_reachable {C : Loop B → OpenAct B → Prop} {b : B.State} {s : Loop B}
    (h : Reachable openStep C (· = init b) s) : s.Base :=
  h.invariant (fun _ hs => hs ▸ base_init b) fun _ _ _ hs _ hst => base_openStep hs hst

/-- The number of slots whose descriptors have been handed to `flush_batch`. -/
def flushedCount (fl : List (List Descriptor × Nat)) : Nat := (fl.map fun b => b.1.length).sum

theorem Base.readIdx_eq {s : Loop B} (h : s.Base) :
    s.readIdx = flushedCount s.flushed +
      if s.pc.inCall = some true then 0 else s.batch.length := by
  have hlen := congrArg List.length h.slots
  rw [List.length_map, List.length_range] at hlen
  rw [← hlen]
  unfold popped flushedCount
  rw [List.length_append, List.length_flatten, List.map_map]
  cases s.pc <;> rfl

/-- The batch being flushed holds the slots from the end of the earlier ones on, in order. -/
theorem Base.batch_map_slot {s : Loop B} (h : s.Base) (hpc : s.pc.inCall = some true)
    {fl : List (List Descriptor × Nat)} (hfl : s.flushed = fl ++ [(s.batch, s.orFlags)]) :
    s.readIdx = flushedCount fl + s.batch.length ∧
      s.batch.map Descriptor.slot = (List.range s.batch.length).map (flushedCount fl + ·) := by
  have hread := h.readIdx_eq
  rw [if_pos hpc, hfl] at hread
  have hcount : s.readIdx = flushedCount fl + s.batch.length := by simpa [flushedCount] using hread
  refine ⟨hcount, ?_⟩
  have hslots := h.slots
  have hpopped : s.popped = (fl.map Prod.fst).flatten ++ s.batch := by
    unfold popped
    rw [hfl]
    cases hp : s.pc <;> simp_all [Pc.inCall]
  rw [hpopped, List.map_append, hcount, List.range_add] at hslots
  have hlen : (((fl.map Prod.fst).flatten).map Descriptor.slot).length =
      (List.range (flushedCount fl)).length := by
    simp [flushedCount, List.length_flatten, List.map_map, Function.comp_def]
  exact (List.append_inj hslots hlen).2

theorem Base.batch_slots {s : Loop B} (h : s.Base) (hpc : s.pc.inCall = some true)
    {fl : List (List Descriptor × Nat)} (hfl : s.flushed = fl ++ [(s.batch, s.orFlags)]) :
    s.readIdx = flushedCount fl + s.batch.length ∧
      ∀ d ∈ s.batch, flushedCount fl ≤ d.slot ∧ d.slot < s.readIdx := by
  obtain ⟨hcount, hbatch⟩ := h.batch_map_slot hpc hfl
  refine ⟨hcount, fun d hd => ?_⟩
  have hmem : d.slot ∈ s.batch.map Descriptor.slot := List.mem_map_of_mem hd
  rw [hbatch] at hmem
  obtain ⟨i, hi, hd'⟩ := List.mem_map.mp hmem
  rw [List.mem_range] at hi
  omega

/-- The batch being flushed is not empty. -/
theorem Base.not_flushing {s : Loop B} (h : s.Base) (hnil : s.batch = []) :
    s.pc.inCall ≠ some true := fun hpc => by
  have hfilled := h.filled
  unfold Filled at hfilled
  split at hfilled
  · exact hfilled hnil
  · exact hfilled hnil
  · exact hfilled hnil
  · exact hfilled hnil
  · cases hp : s.pc <;> simp_all [Pc.inCall]

/-- Every slot from there on has its descriptor in the batch. -/
theorem Base.exists_mem_batch {s : Loop B} (h : s.Base) (hpc : s.pc.inCall = some true)
    {fl : List (List Descriptor × Nat)} (hfl : s.flushed = fl ++ [(s.batch, s.orFlags)]) {k : Nat}
    (hlo : flushedCount fl ≤ k) (hhi : k < s.readIdx) : ∃ d ∈ s.batch, d.slot = k := by
  obtain ⟨hcount, hbatch⟩ := h.batch_map_slot hpc hfl
  have hmem : k ∈ s.batch.map Descriptor.slot := by
    rw [hbatch]
    exact List.mem_map.mpr ⟨k - flushedCount fl, List.mem_range.mpr (by omega), by omega⟩
  exact List.mem_map.mp hmem

/-- What the producers of a ring do to the loop is to store to its cells. -/
theorem openStep_of_ring {P : Type} [DecidableEq P] {r r' : Ring P B} {a : Ring.Act P B}
    (h : r.step a = some r') : r'.loop = r.loop ∨
      ∃ o, (∀ l, o = .loop l → a = .loop l) ∧ r.loop.openStep o = some r'.loop := by
  cases a with
  | loop a =>
    obtain ⟨l, hl, rfl⟩ := Option.map_eq_some_iff.mp h
    exact .inr ⟨.loop a, fun l hl => by cases hl; rfl, hl⟩
  | reserve p count vals =>
    simp only [Ring.step] at h
    split at h <;> cases h
    exact .inl rfl
  | write p i f =>
    simp only [Ring.step] at h
    split at h
    · split at h <;> cases h
      exact .inr ⟨.storeField _ f _, (fun l hl => by cases hl), rfl⟩
    · cases h
  | commit p i =>
    simp only [Ring.step] at h
    split at h
    · split at h <;> cases h
      exact .inr ⟨.storeSequence _ _, (fun l hl => by cases hl), rfl⟩
    · cases h
  | wait p | fence p | release p =>
    simp only [Ring.step] at h
    split at h
    · split at h <;> cases h
      exact .inl rfl
    · cases h

end Loop

/-! ## What a mode has to show -/

/-- The batches handed to `flush_batch` so far, with their `or_flags`. -/
abbrev Flushed := List (List Descriptor × Nat)

/-- The obligations of a mode: `W` holds of the loop in every state, `R` of the
host between calls, and `S` is kept during `flush_batch` (`true`) and during the
other calls (`false`). -/
structure Duty (cfg : Config) (W : Loop cfg.backend → Prop) (S : Bool → Flushed → Spec Host Call)
    (R : Flushed → Host → Prop) : Prop where
  stable : ∀ fl, cfg.machine.Stable (R fl)
  inv : ∀ b fl s, R fl s → (S b fl).inv s
  flush : ∀ (t : Loop cfg.backend) (fl : Flushed) (h : Host), W t → t.pc.inCall = some true →
    t.batch ≠ [] → t.flushed = fl ++ [(t.batch, t.orFlags)] → R fl h →
    Outlined cfg.machine (S true t.flushed) (R t.flushed)
      ⟨h, [.flushBatch t.batch t.orFlags t.readIdx]⟩
  idle : ∀ (fl : Flushed) (h : Host), R fl h →
    Outlined cfg.machine (S false fl) (R fl) ⟨h, [.idle]⟩
  finish : ∀ (fl : Flushed) (h : Host), R fl h →
    Outlined cfg.machine (S false fl) (R fl) ⟨h, [.finish]⟩

/-- The same obligations where the thread makes its calls as `M` does. -/
structure DutyOn (cfg : Config) (M : Script.Machine Host Call HostEnv)
    (W : Loop cfg.backend → Prop) (S : Bool → Flushed → Spec Host Call)
    (R : Flushed → Host → Prop) : Prop where
  stable : ∀ fl, M.Stable (R fl)
  inv : ∀ b fl s, R fl s → (S b fl).inv s
  flush : ∀ (t : Loop cfg.backend) (fl : Flushed) (h : Host), W t → t.pc.inCall = some true →
    t.batch ≠ [] → t.flushed = fl ++ [(t.batch, t.orFlags)] → R fl h →
    Outlined M (S true t.flushed) (R t.flushed) ⟨h, [.flushBatch t.batch t.orFlags t.readIdx]⟩
  idle : ∀ (fl : Flushed) (h : Host), R fl h → Outlined M (S false fl) (R fl) ⟨h, [.idle]⟩
  finish : ∀ (fl : Flushed) (h : Host), R fl h → Outlined M (S false fl) (R fl) ⟨h, [.finish]⟩

theorem Duty.on {cfg : Config} {W : Loop cfg.backend → Prop} {S : Bool → Flushed → Spec Host Call}
    {R : Flushed → Host → Prop} (hd : Duty cfg W S R) : DutyOn cfg cfg.machine W S R :=
  ⟨hd.stable, hd.inv, hd.flush, hd.idle, hd.finish⟩

/-- The call the thread is in is safe; outside a call nothing is left to do. -/
def Attended (cfg : Config) (S : Bool → Flushed → Spec Host Call) (R : Flushed → Host → Prop)
    (s : Loop cfg.backend) : Prop :=
  (s.pc.inCall = none → s.backend.todo = []) ∧
    Outlined cfg.machine (S (s.pc.inCall == some true) s.flushed) (R s.flushed) s.backend

/-- The same for `M`. -/
def AttendedOn (cfg : Config) (M : Script.Machine Host Call HostEnv)
    (S : Bool → Flushed → Spec Host Call) (R : Flushed → Host → Prop) (s : Loop cfg.backend) : Prop :=
  (s.pc.inCall = none → s.backend.todo = []) ∧
    Outlined M (S (s.pc.inCall == some true) s.flushed) (R s.flushed) s.backend

/-- The polling thread just started over an empty queue. -/
def Config.start (cfg : Config) (h : Host) : Loop cfg.backend :=
  Loop.init (show cfg.backend.State from ⟨h, []⟩)

variable {cfg : Config} {W : Loop cfg.backend → Prop} {S : Bool → Flushed → Spec Host Call}
  {R : Flushed → Host → Prop}

variable {M : Script.Machine Host Call HostEnv}

theorem DutyOn.resting (hd : DutyOn cfg M W S R) {fl : Flushed} {b : Bool} {s : Script.State Host Call}
    (hs : s.todo = []) (hr : R fl s.data) : Outlined M (S b fl) (R fl) s := by
  intro n
  rw [hs]
  exact Safe.nil (hd.stable fl) (hd.inv b fl) hr n

/-- Between calls, the resting assertion holds. -/
theorem AttendedOn.rest {s : Loop cfg.backend} (hs : AttendedOn cfg M S R s)
    (h : s.pc.inCall = none ∨ cfg.backend.busy s.backend = false) :
    s.backend.todo = [] ∧ R s.flushed s.backend.data := by
  have htodo : s.backend.todo = [] := h.elim hs.1 fun hb => by simpa [Config.backend] using hb
  exact ⟨htodo, hs.2.post htodo⟩

theorem Attended.rest {s : Loop cfg.backend} (hs : Attended cfg S R s)
    (h : s.pc.inCall = none ∨ cfg.backend.busy s.backend = false) :
    s.backend.todo = [] ∧ R s.flushed s.backend.data := AttendedOn.rest hs h

/-- `hM` says that `M` allows the step. -/
theorem DutyOn.step (hd : DutyOn cfg M W S R) {s t : Loop cfg.backend} {a : Loop.OpenAct cfg.backend}
    (hs : AttendedOn cfg M S R s) (hbase : s.Base) (hW : W t)
    (hM : ∀ b u, a = .loop (.backend b) → cfg.machine.step s.backend b = some u →
      M.step s.backend b = some u) (h : s.openStep a = some t) : AttendedOn cfg M S R t := by
  cases a with
  | storeField c f v => cases h; exact hs
  | storeSequence c v => cases h; exact hs
  | loop a =>
    cases a with
    | start =>
      simp only [Loop.openStep, Loop.step] at h
      split at h
      · rename_i hpc
        cases h
        have hrest := hs.rest (.inl (by simp [hpc, Pc.inCall]))
        exact ⟨fun _ => hrest.1, hd.resting hrest.1 hrest.2⟩
      · cases h
    | stop => cases h; exact hs
    | load f =>
      simp only [Loop.openStep, Loop.step] at h
      split at h
      · rename_i drain todo got hpc
        split at h
        · cases h
          have hrest := hs.rest (.inl (by simp [hpc, Pc.inCall]))
          exact ⟨fun _ => hrest.1, hd.resting hrest.1 hrest.2⟩
        · cases h
      · cases h
    | backend b =>
      obtain ⟨u, hu, rfl⟩ := Option.map_eq_some_iff.mp h
      refine ⟨fun hpc => ?_, hs.2.step (hM b u rfl hu)⟩
      -- outside a call only the environment can move
      have htodo := hs.1 hpc
      cases b with
      | perform =>
        have hnone : cfg.machine.step s.backend .perform = none := by
          simp only [Script.Machine.step]
          rw [htodo]
        rw [show cfg.backend.act s.backend .perform = cfg.machine.step s.backend .perform from rfl,
          hnone] at hu
        cases hu
      | env e =>
        obtain ⟨v, -, rfl⟩ := Option.map_eq_some_iff.mp hu
        exact htodo
    | poll =>
      rcases (Loop.poll_calls hbase.filled hbase.batchOk h).1 with
        ⟨hb, hf, ht, hc⟩ | ⟨hb, hf, hne, ht, hc⟩ | ⟨hb, hf, -, ht, hc⟩ | ⟨hb, hf, -, ht, hc⟩
      · obtain ⟨htodo, hr⟩ := hs.rest hc
        unfold AttendedOn
        rw [hb, hf]
        exact ⟨fun _ => htodo, hd.resting htodo hr⟩
      · obtain ⟨htodo, hr⟩ := hs.rest (.inl hc)
        unfold AttendedOn
        rw [hb, ht]
        exact ⟨fun hp => (by cases hp), hd.flush t s.flushed s.backend.data hW ht hne hf hr⟩
      · obtain ⟨htodo, hr⟩ := hs.rest (.inl hc)
        unfold AttendedOn
        rw [hb, hf, ht]
        exact ⟨fun hp => (by cases hp), hd.idle s.flushed s.backend.data hr⟩
      · obtain ⟨htodo, hr⟩ := hs.rest hc
        unfold AttendedOn
        rw [hb, hf, ht]
        exact ⟨fun hp => (by cases hp), hd.finish s.flushed s.backend.data hr⟩

/-- **The run lemma**, for runs whose steps `M` allows. -/
theorem DutyOn.attended (hd : DutyOn cfg M W S R)
    {C : Loop cfg.backend → Loop.OpenAct cfg.backend → Prop} {h : Host} (h0 : R [] h)
    (hW : ∀ s, Reachable Loop.openStep C (· = cfg.start h) s → W s)
    (hC : ∀ s b u, C s (.loop (.backend b)) → cfg.machine.step s.backend b = some u →
      M.step s.backend b = some u) {s : Loop cfg.backend}
    (hs : Reachable Loop.openStep C (· = cfg.start h) s) : AttendedOn cfg M S R s := by
  induction hs with
  | initial hs =>
    subst hs
    exact ⟨fun _ => rfl, hd.resting rfl h0⟩
  | @step s t hs a hc hst ih =>
    refine hd.step ih (Loop.base_of_reachable hs) (hW _ (hs.step a hc hst)) (fun b u ha hu => ?_) hst
    subst ha
    exact hC s b u hc hu

/-- **The end of a run.**  When the thread has stopped, what its last call leads to holds. -/
theorem DutyOn.ended (hd : DutyOn cfg M W S R) {Q : Flushed → Host → Prop}
    (hQ : ∀ fl, M.Stable (Q fl))
    (hfin : ∀ fl h, R fl h → Outlined M (S false fl) (Q fl) ⟨h, [.finish]⟩)
    {C : Loop cfg.backend → Loop.OpenAct cfg.backend → Prop} {h : Host} (h0 : R [] h)
    (hW : ∀ s, Reachable Loop.openStep C (· = cfg.start h) s → W s)
    (hC : ∀ s b u, C s (.loop (.backend b)) → cfg.machine.step s.backend b = some u →
      M.step s.backend b = some u) {s : Loop cfg.backend}
    (hs : Reachable Loop.openStep C (· = cfg.start h) s) :
    (s.pc = .finishing → Outlined M (S false s.flushed) (Q s.flushed) s.backend) ∧
      (s.pc = .stopped → s.backend.todo = [] ∧ Q s.flushed s.backend.data) := by
  induction hs with
  | initial hs =>
    subst hs
    exact ⟨fun hp => (by cases hp), fun hp => (by cases hp)⟩
  | @step s t hs a hc hst ih =>
    have hatt := hd.attended h0 hW hC hs
    have hbase := Loop.base_of_reachable hs
    cases a with
    | storeField c f v => cases hst; exact ih
    | storeSequence c v => cases hst; exact ih
    | loop a =>
      cases a with
      | start =>
        simp only [Loop.openStep, Loop.step] at hst
        split at hst
        · cases hst; exact ⟨fun hp => (by cases hp), fun hp => (by cases hp)⟩
        · cases hst
      | stop => cases hst; exact ih
      | load f =>
        simp only [Loop.openStep, Loop.step] at hst
        split at hst
        · split at hst
          · cases hst; exact ⟨fun hp => (by cases hp), fun hp => (by cases hp)⟩
          · cases hst
        · cases hst
      | backend b =>
        obtain ⟨u, hu, rfl⟩ := Option.map_eq_some_iff.mp hst
        have hu := hC s b u hc hu
        refine ⟨fun hpc => (ih.1 hpc).step hu, fun hpc => ?_⟩
        obtain ⟨htodo, hq⟩ := ih.2 hpc
        cases b with
        | perform =>
          simp only [Script.Machine.step, htodo] at hu
          cases hu
        | env e =>
          obtain ⟨v, hv, rfl⟩ := Option.map_eq_some_iff.mp hu
          exact ⟨htodo, hQ _ _ _ _ hq hv⟩
      | poll =>
        obtain ⟨hfinish, hstop⟩ := Loop.poll_ends hst
        refine ⟨fun hpc => ?_, fun hpc => ?_⟩
        · rcases (Loop.poll_calls hbase.filled hbase.batchOk hst).1 with
            ⟨-, -, ht, -⟩ | ⟨-, -, -, ht, -⟩ | ⟨-, hf, -, -, hc⟩ | ⟨-, hf, -, -, hc⟩
          · rw [hpc] at ht; cases ht
          · rw [hpc] at ht; cases ht
          · obtain ⟨-, hr⟩ := hatt.rest (.inl hc)
            rw [hf, hfinish hpc]
            exact hfin _ _ hr
          · obtain ⟨-, hr⟩ := hatt.rest hc
            rw [hf, hfinish hpc]
            exact hfin _ _ hr
        · obtain ⟨hs', hbusy, hb, hf⟩ := hstop hpc
          have htodo : s.backend.todo = [] := by simpa [Config.backend] using hbusy
          rw [hb, hf]
          exact ⟨htodo, (ih.1 hs').post htodo⟩

/-- The run lemma for all runs. -/
theorem Duty.attended (hd : Duty cfg W S R)
    {C : Loop cfg.backend → Loop.OpenAct cfg.backend → Prop} {h : Host} (h0 : R [] h)
    (hW : ∀ s, Reachable Loop.openStep C (· = cfg.start h) s → W s) {s : Loop cfg.backend}
    (hs : Reachable Loop.openStep C (· = cfg.start h) s) : Attended cfg S R s :=
  hd.on.attended h0 hW (fun _ _ _ _ hu => hu) hs

/-- The thread's next call is one that `A` allows. -/
def Config.Allowed (cfg : Config) (A : Call → Host → Prop) (s : Loop cfg.backend) :
    Loop.OpenAct cfg.backend → Prop
  | .loop (.backend .perform) => ∀ c rest, s.backend.todo = c :: rest → A c s.backend.data
  | _ => True

instance {A : Call → Host → Prop} [∀ c s, Decidable (A c s)] (s : Loop cfg.backend)
    (a : Loop.OpenAct cfg.backend) : Decidable (cfg.Allowed A s a) :=
  match a with
  | .loop (.backend .perform) =>
    match h : s.backend.todo with
    | [] => .isTrue fun c rest hc => by rw [h] at hc; cases hc
    | c :: rest =>
      decidable_of_iff (A c s.backend.data)
        ⟨fun ha c' rest' hc => by rw [h] at hc; cases hc; exact ha, fun ha => ha c rest h⟩
  | .loop (.backend (.env _)) | .loop .start | .loop .stop | .loop .poll | .loop (.load _) |
    .storeField .. | .storeSequence .. => .isTrue trivial

/-- The run lemma for runs in which every call made is allowed. -/
theorem DutyOn.attended_allowed {A : Call → Host → Prop} [∀ c s, Decidable (A c s)]
    (hd : DutyOn cfg (cfg.machine.only A) W S R)
    {C : Loop cfg.backend → Loop.OpenAct cfg.backend → Prop} {h : Host} (h0 : R [] h)
    (hW : ∀ s, Reachable Loop.openStep C (· = cfg.start h) s → W s)
    (hC : ∀ s a, C s a → cfg.Allowed A s a) {s : Loop cfg.backend}
    (hs : Reachable Loop.openStep C (· = cfg.start h) s) :
    AttendedOn cfg (cfg.machine.only A) S R s :=
  hd.attended h0 hW (fun s _ _ hc hu => step_only hu fun hb => by subst hb; exact hC s _ hc) hs

/-- A step makes or leaves a call, which changes no data, or is a step of the call. -/
theorem openStep_backend {s t : Loop cfg.backend} {a : Loop.OpenAct cfg.backend} (hbase : s.Base)
    (h : s.openStep a = some t) :
    t.backend.data = s.backend.data ∨
      ∃ b, a = .loop (.backend b) ∧ cfg.machine.step s.backend b = some t.backend := by
  cases a with
  | storeField c f v => cases h; exact .inl rfl
  | storeSequence c v => cases h; exact .inl rfl
  | loop a =>
    cases a with
    | start =>
      simp only [Loop.openStep, Loop.step] at h
      split at h
      · cases h; exact .inl rfl
      · cases h
    | stop => cases h; exact .inl rfl
    | load f =>
      simp only [Loop.openStep, Loop.step] at h
      split at h
      · split at h
        · cases h; exact .inl rfl
        · cases h
      · cases h
    | backend b =>
      obtain ⟨u, hu, rfl⟩ := Option.map_eq_some_iff.mp h
      exact .inr ⟨b, rfl, hu⟩
    | poll =>
      left
      rcases (Loop.poll_calls hbase.filled hbase.batchOk h).1 with
        ⟨hb, -, -, -⟩ | ⟨hb, -, -, -, -⟩ | ⟨hb, -, -, -, -⟩ | ⟨hb, -, -, -, -⟩
      · rw [hb]
      · rw [hb]; rfl
      · rw [hb]; rfl
      · rw [hb]; rfl

/-- The thread's next step makes its next call. -/
theorem perform_of_openStep {s t : Loop cfg.backend} {c : Call} {rest : List Call}
    (hc : s.backend.todo = c :: rest) (h : s.openStep (.loop (.backend .perform)) = some t) :
    ∃ m, cfg.perform s.backend.data c = some (t.backend.data, m) := by
  obtain ⟨u, hu, rfl⟩ := Option.map_eq_some_iff.mp h
  have hu : cfg.machine.step s.backend .perform = some u := hu
  simp only [Script.Machine.step, hc] at hu
  obtain ⟨⟨v, m⟩, hp, rfl⟩ := Option.map_eq_some_iff.mp hu
  exact ⟨m, hp⟩

/-- Every other step leaves the data alone, or is one of the environment. -/
theorem env_of_openStep {s t : Loop cfg.backend} {a : Loop.OpenAct cfg.backend} (hbase : s.Base)
    (ha : a ≠ .loop (.backend .perform)) (h : s.openStep a = some t) :
    t.backend.data = s.backend.data ∨ s.backend.data.EnvStep t.backend.data := by
  rcases openStep_backend hbase h with he | ⟨b, rfl, hb⟩
  · exact .inl he
  · cases b with
    | perform => exact absurd rfl ha
    | env e =>
      obtain ⟨u, hu, hut⟩ := Option.map_eq_some_iff.mp hb
      rw [← hut]
      exact .inr (Host.envStep hu)

/-- Keeping track of every copy is all that is asked. -/
theorem quietDuty (cfg : Config) :
    Duty cfg (fun _ => True) (fun _ _ => .free) fun _ => Host.Quiet cfg where
  stable _ := stable_covered cfg
  inv _ _ _ _ := trivial
  flush t _ _ _ _ _ _ hr := (covered_calls cfg (l := [.flushBatch t.batch t.orFlags t.readIdx])
    (List.forall_mem_singleton.mpr trivial)).outlined hr
  idle _ _ hr :=
    (covered_calls cfg (l := [.idle]) (List.forall_mem_singleton.mpr trivial)).outlined hr
  finish _ _ hr :=
    (covered_calls cfg (l := [.finish]) (List.forall_mem_singleton.mpr trivial)).outlined hr

/-- A state in which fewer than `n` slots have been popped is reached by steps that keep it so. -/
theorem Loop.reachable_bounded {B : Backend} {C : Loop B → Loop.OpenAct B → Prop} {b : B.State}
    {n : Nat} {s : Loop B} (h : Reachable Loop.openStep C (· = Loop.init b) s) (hs : s.readIdx < n) :
    Reachable Loop.openStep (fun s a => C s a ∧ ∀ t, s.openStep a = some t → t.readIdx < n)
      (· = Loop.init b) s := by
  induction h with
  | initial h => exact .initial h
  | @step s t h a hc hst ih =>
    have hle : s.readIdx ≤ t.readIdx := by
      cases a with
      | loop a => exact Loop.readIdx_le hst
      | storeField c f v => cases hst; exact Nat.le_refl _
      | storeSequence c v => cases hst; exact Nat.le_refl _
    refine (ih (Nat.lt_of_le_of_lt hle hs)).step a ⟨hc, fun u hu => ?_⟩ hst
    rw [hst] at hu
    cases hu
    exact hs

/-- In such a run, fewer than `n` slots have been popped. -/
theorem Loop.readIdx_lt_of_bounded {B : Backend} {C : Loop B → Loop.OpenAct B → Prop} {b : B.State}
    {n : Nat} (hn : 0 < n) {s : Loop B}
    (h : Reachable Loop.openStep (fun s a => C s a ∧ ∀ t, s.openStep a = some t → t.readIdx < n)
      (· = Loop.init b) s) : s.readIdx < n := by
  cases h with
  | initial h => subst h; exact hn
  | step _ a hc hst => exact hc.2 _ hst

end Gfd
