import GfdProof.DirectEntries
import GfdProof.Script

/-! # Every run of `submit_direct`

At every moment of a call, a byte of the destination memory is what the call is to
leave there, or a copy that will write it is queued, or is still to be queued
(`Mid`); and while a gather is under way no queued copy reads the buffer it writes.
Each function of the call keeps this (`triple_function`), and a gather that has
returned has filled its buffer (`triple_gather`), so that what is submitted next
supplies what its entries ask for.
-/
namespace Gfd.Direct

open Transition Script WorkStreams
open CopyEngineManager (Sized Alike)

variable {cfg : Config} {mem : Nat → UInt8} {s t : Submitter} {es : List SGEntry}
  {cur : Option (List SGEntry)}

/-! ## Invariants -/

/-- The entries fit into staging buffer `b`, relative to `minDst`. -/
def Config.Inside (cfg : Config) (es : List SGEntry) (b minDst : Nat) : Prop :=
  b < cfg.staging.bufs ∧ ∀ e ∈ es, subWord e.dst minDst + e.size ≤ cfg.staging.size

/-- No queued copy reads buffer `b`. -/
def Unread (s : Submitter) (b : Nat) : Prop := ∀ e, s.Pending e → ¬ ReadsBuf e b

/-- A gather under way writes a buffer that holds its entries, and that nobody reads. -/
def Guarded (cfg : Config) (s : Submitter) : Prop :=
  s.gather.dispatcher ≠ .idle → ∃ g, s.gathers.getLast? = some g ∧
    cfg.Inside g.entries g.buf g.minDst ∧ Unread s g.buf

/-- What holds at every moment. -/
structure Base (cfg : Config) (s : Submitter) : Prop where
  gather : ReachableFrom (Gather.step cfg.workers) Gather.init s.gather
  gathers : s.gather.counts = s.gathers.map fun g => g.entries.length
  valid : s.manager.Valid cfg.channels
  accepted : ∀ es ∈ s.submitted, Deliverable es ∧ cfg.Exact es
  guarded : Guarded cfg s

/-- In the middle of the call with the entries `cur`: `todo` are the bytes that copies still to be
queued will write, and `read` the buffers that queued copies may read. -/
structure Mid (cfg : Config) (mem : Nat → UInt8) (cur : Option (List SGEntry))
    (todo read : Nat → Prop) (s : Submitter) : Prop extends Base cfg s where
  current : s.submitted.getLast? = cur
  supplied : ∀ e, s.Pending e → Supplies s (s.expected mem) e
  reached : ∀ a, s.gpu a = s.expected mem a ∨ (∃ e, s.Pending e ∧ Reaches e a) ∨ todo a
  readers : ∀ e, s.Pending e → ∀ b, ReadsBuf e b → read b

/-- What is required at every moment, and of a copy into a staging buffer. -/
def Config.spec (cfg : Config) : Machine.Spec Submitter Call where
  inv := Base cfg
  pre c s := match c with
    | .memcpy b minDst e => cfg.Inside [e] b minDst ∧ Unread s b
    | _ => True

/-! ## The steps of a gather -/

/-- A step of a gather copies nothing, or one entry of the call being made. -/
theorem gathered_cases (hb : Base cfg s) {a : Gather.Act} {g : Gather.State}
    (h : Gather.step cfg.workers s.gather a = some g) :
    g.log = s.gather.log ∧ s.gathered g = { s with gather := g } ∨
      s.gather.dispatcher ≠ .idle ∧ ∃ c i e, s.gathers.getLast? = some c ∧ c.entries[i]? = some e ∧
        g.log = s.gather.log ++ [(s.gather.call, i)] ∧
        s.gathered g = { s.stage c.buf c.minDst e with gather := g } := by
  have htasked := Gather.tasked_of_reachable hb.gather
  rcases Gather.log_step htasked h with hlog | ⟨hd, -, i, hi, hlog⟩
  · refine .inl ⟨hlog, ?_⟩
    rw [Submitter.gathered, hlog, List.drop_length]
    rfl
  · have hne := htasked.counts hd
    obtain ⟨c, hc⟩ : ∃ c, s.gathers.getLast? = some c := by
      refine Option.ne_none_iff_exists'.mp fun hnone => hne ?_
      rw [hb.gathers, List.getLast?_eq_none_iff.mp hnone]
      rfl
    have hlen : s.gather.counts.length = s.gathers.length := by rw [hb.gathers, List.length_map]
    have hat : s.gathers[s.gather.call]? = some c := by
      rw [← hc, List.getLast?_eq_getElem?, Gather.State.call, hlen]
    have hcount : s.gather.count = c.entries.length := by
      have hlast : s.gather.counts.getLast? = some c.entries.length := by
        rw [hb.gathers, List.getLast?_map, hc]
        rfl
      rw [Gather.State.count, List.getLastD_eq_getLast?, hlast]
      rfl
    have hi' : i < c.entries.length := hcount ▸ hi
    refine .inr ⟨hd, c, i, c.entries[i], hc, List.getElem?_eq_getElem hi', hlog, ?_⟩
    rw [Submitter.gathered, hlog, List.drop_left, List.foldl_cons, List.foldl_nil,
      Submitter.stageTask, hat]
    dsimp only
    rw [List.getElem?_eq_getElem hi']

/-- A copy into a buffer that nobody reads changes nothing for the queued copies. -/
theorem supplies_stage {target : Nat → UInt8} {e e' : SGEntry} {b minDst : Nat}
    (hb : ¬ ReadsBuf e' b) (h : Supplies s target e') : Supplies (s.stage b minDst e) target e' := by
  intro k hk
  rw [← h k hk]
  cases hsrc : e'.src with
  | user a => rfl
  | staging c off =>
    have hne : c ≠ b := fun hc => hb ⟨off, hc ▸ hsrc⟩
    simp only [HostPtr.plus, Submitter.byte, Submitter.stage, Function.update_of_ne hne]

theorem base_gather (hb : Base cfg s) {a : Gather.Act} {g : Gather.State}
    (h : Gather.step cfg.workers s.gather a = some g) (ha : ∀ n, a ≠ .call n) :
    ReachableFrom (Gather.step cfg.workers) Gather.init g ∧
      g.counts = s.gathers.map fun c => c.entries.length := by
  refine ⟨hb.gather.step a trivial h, ?_⟩
  rw [Gather.counts_step h, hb.gathers]
  cases a with
  | call n => exact absurd rfl (ha n)
  | dispatch | work w => exact List.append_nil _

/-- What a step of a gather, under way or not, does to the invariant. -/
theorem Mid.gathered {todo read : Nat → Prop} (hm : Mid cfg mem cur todo read s) {a : Gather.Act}
    {g : Gather.State} (h : Gather.step cfg.workers s.gather a = some g) (ha : ∀ n, a ≠ .call n)
    (hidle : g.dispatcher ≠ .idle → s.gather.dispatcher ≠ .idle) :
    Mid cfg mem cur todo read (s.gathered g) := by
  obtain ⟨hreach, hcounts⟩ := base_gather hm.toBase h ha
  rcases gathered_cases hm.toBase h with ⟨-, heq⟩ | ⟨hd, c, i, e, hc, he, -, heq⟩ <;> rw [heq]
  · exact { hm with gather := hreach, gathers := hcounts, guarded := fun hne => hm.guarded (hidle hne) }
  · obtain ⟨c', hc', hin, hun⟩ := hm.guarded hd
    cases hc.symm.trans hc'
    exact {
      gather := hreach
      gathers := hcounts
      valid := hm.valid
      accepted := hm.accepted
      guarded := fun _ => ⟨c, hc, hin, hun⟩
      current := hm.current
      supplied := fun e' he' => supplies_stage (hun e' he') (hm.supplied e' he')
      reached := hm.reached
      readers := hm.readers }

/-! ## The device -/

theorem pending_advance {ch : Nat} {d : Device EngineStream EngineEvent SGEntry}
    (hd : d = s.manager.device.advance (.channel ch)) (ht : t.manager.device = d) {e : SGEntry} :
    (t.Pending e → s.Pending e) ∧
      (s.Pending e → t.Pending e ∨ s.manager.device.next (.channel ch) = some (.work e)) := by
  subst hd
  constructor
  · rintro ⟨c, i, hi, hw⟩
    rw [ht] at hi hw
    exact ⟨c, i, (Device.le_advance_done _ _ _).trans hi, hw⟩
  · rintro ⟨c, i, hi, hw⟩
    by_cases hlt : (s.manager.device.advance (.channel ch)).done (.channel c) ≤ i
    · exact .inl ⟨c, i, ht ▸ hlt, ht ▸ hw⟩
    · right
      by_cases hc : c = ch
      · subst hc
        simp only [Device.advance, Function.update_self] at hlt
        have hi' : i = s.manager.device.done (.channel c) := by omega
        rw [Device.next, ← hi']
        exact hw
      · have hne : EngineStream.channel c ≠ .channel ch := fun he => hc (EngineStream.channel.inj he)
        rw [Device.advance_done_of_ne _ hne] at hlt
        exact absurd hi hlt

/-- A copy writes what the memory is to have. -/
theorem writeMoves_supplies {byte : HostPtr → UInt8} {target : Nat → UInt8} (gpu : Nat → UInt8)
    {ms : List (Nat × HostPtr)} (h : ∀ m ∈ ms, byte m.2 = target m.1) (a : Nat) :
    writeMoves byte gpu ms a = target a ∨ a ∉ ms.map Prod.fst ∧ writeMoves byte gpu ms a = gpu a := by
  induction ms generalizing gpu with
  | nil => exact .inr ⟨List.not_mem_nil, rfl⟩
  | cons m ms ih =>
    have hrest := ih (Function.update gpu m.1 (byte m.2)) fun m' hm' =>
      h m' (List.mem_cons_of_mem _ hm')
    rcases hrest with hr | ⟨hnot, hr⟩
    · exact .inl hr
    · by_cases ha : a = m.1
      · refine .inl (hr.trans ?_)
        rw [ha, Function.update_self, h m List.mem_cons_self]
      · rw [Function.update_of_ne ha] at hr
        exact .inr ⟨by simp [ha, hnot], hr⟩

theorem Mid.advance {todo read : Nat → Prop} (hm : Mid cfg mem cur todo read s) {ch : Nat}
    (h : cfg.env s (.advance ch) = some t) : Mid cfg mem cur todo read t := by
  simp only [Config.env] at h
  split at h
  · rename_i hrun
    have hkeep : ∀ e, (Submitter.Pending { s with
          manager := { s.manager with device := s.manager.device.advance (.channel ch) } } e →
            s.Pending e) ∧ _ := fun e => pending_advance (s := s) rfl rfl (e := e)
    have hbase : Base cfg { s with
        manager := { s.manager with device := s.manager.device.advance (.channel ch) } } :=
      { hm.toBase with
        valid := hm.valid.advance hrun
        guarded := fun hd => by
          obtain ⟨c, hc, hin, hun⟩ := hm.guarded hd
          exact ⟨c, hc, hin, fun e he => hun e ((hkeep e).1 he)⟩ }
    obtain ⟨x, hx⟩ := Device.runnable_next hrun
    rw [hx] at h
    cases x with
    | work e =>
      cases h
      have hpend : s.Pending e := ⟨ch, _, le_rfl, hx⟩
      refine { hbase with
        guarded := hbase.guarded
        current := hm.current
        supplied := fun e' he' => hm.supplied e' ((hkeep e').1 he')
        reached := fun a => ?_
        readers := fun e' he' => hm.readers e' ((hkeep e').1 he') }
      have hsupp : ∀ m ∈ e.moves, s.byte m.2 = s.expected mem m.1 := by
        intro m hmem
        obtain ⟨k, hk, rfl⟩ := List.mem_map.mp hmem
        exact hm.supplied e hpend k (List.mem_range.mp hk)
      rcases writeMoves_supplies s.gpu hsupp a with hw | ⟨hnot, hw⟩
      · exact .inl hw
      · rcases hm.reached a with hr | ⟨e', he', hr⟩ | hr
        · exact .inl (hw.trans hr)
        · rcases (hkeep e').2 he' with hp | hnext
          · exact .inr (.inl ⟨e', hp, hr⟩)
          · cases hx.symm.trans hnext
            exact absurd (mem_moves_fst.mpr hr) hnot
        · exact .inr (.inr hr)
    | _ =>
      cases h
      refine { hbase with
        guarded := hbase.guarded
        current := hm.current
        supplied := fun e' he' => hm.supplied e' ((hkeep e').1 he')
        reached := fun a => ?_
        readers := fun e' he' => hm.readers e' ((hkeep e').1 he') }
      refine (hm.reached a).imp_right (Or.imp_left fun ⟨e', he', hr⟩ => ⟨e', ?_, hr⟩)
      rcases (hkeep e').2 he' with hp | hnext
      · exact hp
      · cases hx.symm.trans hnext
  · cases h

/-- **The invariant is stable**: whatever the channels and the workers do, it stays. -/
theorem stable_mid (todo read : Nat → Prop) : cfg.machine.Stable (Mid cfg mem cur todo read) := by
  intro s e t hm h
  cases e with
  | advance ch => exact hm.advance h
  | work w =>
    obtain ⟨g, hg, rfl⟩ := Option.map_eq_some_iff.mp h
    refine hm.gathered hg nofun fun hne => ?_
    simp only [Gather.step] at hg
    split at hg
    · exact (Gather.frame_work hg).2 ▸ hne
    · cases hg

/-! ## Between two gathers -/

/-- What the channels and the workers do between two gathers. -/
structure Quiet (s t : Submitter) : Prop where
  user : t.user = s.user
  staging : t.staging = s.staging
  submitted : t.submitted = s.submitted
  gathers : t.gathers = s.gathers
  idle : t.gather.dispatcher = .idle
  alike : t.manager.Alike s.manager
  pending : ∀ e, t.Pending e → s.Pending e

theorem quiet_env {todo read : Nat → Prop} (hm : Mid cfg mem cur todo read s)
    (hidle : s.gather.dispatcher = .idle) {e : Env} (h : cfg.env s e = some t) : Quiet s t := by
  cases e with
  | advance ch =>
    simp only [Config.env] at h
    split at h
    · split at h <;> cases h <;>
        exact ⟨rfl, rfl, rfl, rfl, hidle, (Alike.refl _).advance _,
          fun e => (pending_advance (s := s) rfl rfl).1⟩
    · cases h
  | work w =>
    obtain ⟨g, hg, rfl⟩ := Option.map_eq_some_iff.mp h
    have hd : g.dispatcher = .idle := by
      have hg' := hg
      simp only [Gather.step] at hg'
      split at hg'
      · exact (Gather.frame_work hg').2.trans hidle
      · cases hg'
    rcases gathered_cases hm.toBase hg with ⟨-, heq⟩ | ⟨hne, -⟩
    · rw [heq]
      exact ⟨rfl, rfl, rfl, rfl, hd, .refl _, fun _ h => h⟩
    · exact absurd hidle hne

theorem Quiet.supplies (h : Quiet s t) {e : SGEntry} (he : Supplies s (s.expected mem) e) :
    Supplies t (t.expected mem) e := by
  intro k hk
  rw [Submitter.expected, h.submitted, h.user]
  refine Eq.trans ?_ (he k hk)
  cases e.src.plus k with
  | user a => exact congrFun h.user a
  | staging b off => exact congrFun (congrFun h.staging b) off

/-- Between two functions of a call. -/
structure Calm (cfg : Config) (mem : Nat → UInt8) (cur : Option (List SGEntry))
    (todo read : Nat → Prop) (s : Submitter) : Prop extends Mid cfg mem cur todo read s where
  idle : s.gather.dispatcher = .idle
  consistent : s.manager.Consistent

/-- What holds between two gathers as long as the memory they share does not change. -/
theorem stable_calm {todo read : Nat → Prop} {P : Submitter → Prop}
    (hP : ∀ s t, Quiet s t → P s → P t) :
    cfg.machine.Stable fun s => Calm cfg mem cur todo read s ∧ P s := by
  rintro s e t ⟨hc, hp⟩ h
  have hq := quiet_env hc.toMid hc.idle h
  exact ⟨⟨stable_mid _ _ s e t hc.toMid h, hq.idle, hq.alike.consistent hc.consistent⟩, hP s t hq hp⟩

theorem stable_calm' (todo read : Nat → Prop) : cfg.machine.Stable (Calm cfg mem cur todo read) :=
  fun s e t hc h => (stable_calm (P := fun _ => True) (fun _ _ _ h => h) s e t ⟨hc, trivial⟩ h).1

/-! ## The functions of the copy engine manager -/

/-- The step queues a copy of the entry. -/
def Queues (e : SGEntry) (x : CopyEngineManager.Step SGEntry) : Prop :=
  ∃ ch, x = .call (.memcpyHtoDAsync ch e)

theorem done_perform (m : CopyEngineManager SGEntry) (x : CopyEngineManager.Step SGEntry) :
    (x.perform m).device.done = m.device.done := by
  cases x with
  | call d =>
    cases d with
    | eventSynchronize e =>
      simp only [CopyEngineManager.Step.perform, CopyEngineManager.DriverCall.effect]
      split <;> rfl
    | _ => simp [CopyEngineManager.Step.perform, CopyEngineManager.DriverCall.effect]
  | _ => rfl

theorem copyOn_eq_some {x : CopyEngineManager.Step SGEntry} {ch : Nat} {e : SGEntry} :
    x.copyOn ch = some e ↔ x = .call (.memcpyHtoDAsync ch e) := by
  cases x with
  | call d =>
    cases d with
    | memcpyHtoDAsync c e' =>
      simp only [CopyEngineManager.Step.copyOn, CopyEngineManager.Step.call.injEq,
        CopyEngineManager.DriverCall.memcpyHtoDAsync.injEq]
      split <;> simp [*]
    | _ => simp [CopyEngineManager.Step.copyOn]
  | _ => simp [CopyEngineManager.Step.copyOn]

theorem pending_perform (hv : s.manager.Valid cfg.channels) {x : CopyEngineManager.Step SGEntry}
    {e : SGEntry} : Submitter.Pending { s with manager := x.perform s.manager } e ↔
      s.Pending e ∨ Queues e x := by
  have hlog := CopyEngineManager.log_perform s.manager x
  constructor
  · rintro ⟨ch, i, hi, hw⟩
    simp only [done_perform] at hi
    simp only [Device.WorkAt, hlog] at hw
    rcases Nat.lt_or_ge i (s.manager.device.log (.channel ch)).length with hlt | hge
    · rw [List.getElem?_append_left hlt] at hw
      exact .inl ⟨ch, i, hi, hw⟩
    · rw [List.getElem?_append_right hge] at hw
      have hmem := List.mem_of_getElem? hw
      obtain ⟨e', he', heq⟩ := List.mem_map.mp hmem
      cases heq
      exact .inr ⟨ch, copyOn_eq_some.mp (Option.mem_toList.mp he')⟩
  · rintro (⟨ch, i, hi, hw⟩ | ⟨ch, rfl⟩)
    · refine ⟨ch, i, ?_, ?_⟩
      · simpa only [done_perform] using hi
      · simp only [Device.WorkAt, hlog]
        rw [List.getElem?_append_left hw.lt]
        exact hw
    · refine ⟨ch, (s.manager.device.log (.channel ch)).length, ?_, ?_⟩
      · simpa only [done_perform] using hv.device.done_le _
      · simp only [Device.WorkAt, hlog]
        rw [List.getElem?_append_right le_rfl, Nat.sub_self, copyOn_eq_some.mpr rfl]
        rfl

/-- A step of a function that queues at most what is still to be queued. -/
theorem Mid.perform {todo todo' read : Nat → Prop} (hm : Mid cfg mem cur todo read s)
    {x : CopyEngineManager.Step SGEntry} (hs : x.Sound cfg.channels)
    (hidle : s.gather.dispatcher = .idle) (hb : x.blocked s.manager = false)
    (hx : ∀ e, Queues e x → Supplies s (s.expected mem) e ∧ ∀ b, ReadsBuf e b → read b)
    (htodo : ∀ a, todo a → todo' a ∨ ∃ e, Queues e x ∧ Reaches e a) :
    Mid cfg mem cur todo' read { s with manager := x.perform s.manager } where
  gather := hm.gather
  gathers := hm.gathers
  valid := hm.valid.perform hs hb
  accepted := hm.accepted
  guarded hd := absurd hidle hd
  current := hm.current
  supplied e he := by
    rcases (pending_perform hm.valid).mp he with he | he
    · exact hm.supplied e he
    · exact (hx e he).1
  reached a := by
    rcases hm.reached a with hr | ⟨e, he, hr⟩ | hr
    · exact .inl hr
    · exact .inr (.inl ⟨e, (pending_perform hm.valid).mpr (.inl he), hr⟩)
    · rcases htodo a hr with hr | ⟨e, he, hr⟩
      · exact .inr (.inr hr)
      · exact .inr (.inl ⟨e, (pending_perform hm.valid).mpr (.inr he), hr⟩)
  readers e he b hb := by
    rcases (pending_perform hm.valid).mp he with he | he
    · exact hm.readers e he b hb
    · exact (hx e he).2 b hb

/-- In the middle of a function that was called with the manager `m`, before its `k`-th step. -/
structure Under (cfg : Config) (mem : Nat → UInt8) (cur : Option (List SGEntry))
    (todo read : Nat → Prop) (m : CopyEngineManager SGEntry)
    (l : List (CopyEngineManager.Step SGEntry)) (k : Nat) (s : Submitter) : Prop
    extends Mid cfg mem cur (fun a => todo a ∨ ∃ e, (∃ x ∈ l.drop k, Queues e x) ∧ Reaches e a) read s where
  idle : s.gather.dispatcher = .idle
  alike : s.manager.Alike (m.performAll (l.take k))
  next : ∀ e, (∃ x ∈ l.drop k, Queues e x) → Supplies s (s.expected mem) e ∧
    ∀ b, ReadsBuf e b → read b

theorem Alike.trans {m m' m'' : CopyEngineManager SGEntry} (h : m.Alike m') (h' : m'.Alike m'') :
    m.Alike m'' where
  contextPinned := h.contextPinned.trans h'.contextPinned
  nextChannel := h.nextChannel.trans h'.nextChannel
  dirtyMask := h.dirtyMask.trans h'.dirtyMask
  depth := h.depth.trans h'.depth
  known := h.known.trans h'.known
  mark := h.mark.trans h'.mark
  log ch := (h.log ch).trans (h'.log ch)

theorem stable_under (todo read : Nat → Prop) (m : CopyEngineManager SGEntry)
    (l : List (CopyEngineManager.Step SGEntry)) (k : Nat) :
    cfg.machine.Stable (Under cfg mem cur todo read m l k) := by
  intro s e t hu h
  have hq := quiet_env hu.toMid hu.idle h
  exact ⟨stable_mid _ _ s e t hu.toMid h, hq.idle, Direct.Alike.trans hq.alike hu.alike,
    fun e he => (hu.next e he).imp_left hq.supplies⟩

/-- The steps of a function, one after the other. -/
theorem triple_steps (todo read : Nat → Prop) (m : CopyEngineManager SGEntry)
    {l : List (CopyEngineManager.Step SGEntry)} (hsound : ∀ x ∈ l, x.Sound cfg.channels) :
    cfg.machine.Triple cfg.spec (Under cfg mem cur todo read m l 0) (l.map .step)
      (Under cfg mem cur todo read m l l.length) := by
  have hinv : ∀ k s, Under cfg mem cur todo read m l k s → cfg.spec.inv s := fun _ _ hu => hu.toBase
  rw [List.map_eq_flatMap]
  refine Machine.Triple.flatMap (P := Under cfg mem cur todo read m l) (stable_under todo read m l _)
    (hinv _) fun k x hx => ?_
  have hlt := (List.getElem?_eq_some_iff.mp hx).1
  have hdrop : l.drop k = x :: l.drop (k + 1) := by
    rw [List.drop_eq_getElem_cons hlt, (List.getElem?_eq_some_iff.mp hx).2]
  have htake : l.take (k + 1) = l.take k ++ [x] := by rw [List.take_add_one, hx]; rfl
  refine Machine.Triple.atom (stable_under todo read m l k) (hinv k) (fun _ _ => trivial)
    (stable_under todo read m l _) (hinv (k + 1)) fun s t r hu hp => ?_
  simp only [Config.machine, Config.perform] at hp
  split at hp
  · cases hp
  · rename_i hb
    cases hp
    have hhead : ∀ e, Queues e x → ∃ y ∈ l.drop k, Queues e y := fun e he =>
      ⟨x, hdrop ▸ List.mem_cons_self, he⟩
    refine ⟨rfl, hu.toMid.perform (hsound x (List.mem_of_getElem? hx)) hu.idle
      (Bool.eq_false_iff.mpr hb) (fun e he => hu.next e (hhead e he)) fun a ha => ?_, hu.idle, ?_,
      fun e he => ?_⟩
    · rcases ha with ha | ⟨e, ⟨y, hy, he⟩, hr⟩
      · exact .inl (.inl ha)
      · rw [hdrop] at hy
        rcases List.mem_cons.mp hy with rfl | hy
        · exact .inr ⟨e, he, hr⟩
        · exact .inl (.inr ⟨e, ⟨y, hy, he⟩, hr⟩)
    · rw [htake, CopyEngineManager.performAll_append]
      exact hu.alike.perform x
    · obtain ⟨y, hy, he⟩ := he
      exact hu.next e ⟨y, hdrop ▸ List.mem_cons_of_mem _ hy, he⟩

/-- The entries a function submits. -/
def entriesOf : CopyEngineManager.Function SGEntry → List SGEntry
  | .submitScatterGather es => es
  | _ => []

/-- The rounding of a submission, where it makes one, stays below `2^31`. -/
def Config.Rounds (cfg : Config) (es : List SGEntry) : Prop :=
  es.length ≤ cfg.channels ∨ Sized cfg.channels es

theorem map_snd_distribute {next : Nat} (hnext : next < cfg.channels) (h : cfg.Rounds es) :
    (CopyEngineManager.distribute cfg.channels next es).map Prod.snd = es := by
  rcases h with h | h
  · rw [CopyEngineManager.distribute, if_pos h]
    have hrr := CopyEngineManager.roundRobin_eq next 0 es (n := cfg.channels)
    rw [Nat.add_zero, Nat.mod_eq_of_lt hnext] at hrr
    rw [hrr, List.map_map]
    exact List.zipIdx_map_fst 0 es
  · rw [CopyEngineManager.distribute_eq h cfg.channels_pos hnext, List.map_map]
    exact List.zipIdx_map_fst 0 es

/-- A function queues the entries it submits. -/
theorem queues_body {m : CopyEngineManager SGEntry} (hm : m.Valid cfg.channels)
    {f : CopyEngineManager.Function SGEntry} (hf : cfg.Rounds (entriesOf f)) {e : SGEntry} :
    (∃ x ∈ f.body cfg.channels m, Queues e x) ↔ e ∈ entriesOf f := by
  have hcopies : (f.copies cfg.channels m).map Prod.snd = entriesOf f := by
    cases f with
    | submitScatterGather es => exact map_snd_distribute hm.next_lt hf
    | _ => rfl
  have hshare : ∀ ch, .call (.memcpyHtoDAsync ch e) ∈ f.body cfg.channels m ↔
      (ch, e) ∈ f.copies cfg.channels m := by
    intro ch
    have h := CopyEngineManager.copyOn_body cfg.channels m f ch
    have hmem : e ∈ (f.body cfg.channels m).filterMap (CopyEngineManager.Step.copyOn ch) ↔
        .call (.memcpyHtoDAsync ch e) ∈ f.body cfg.channels m := by
      simp [List.mem_filterMap, copyOn_eq_some]
    rw [← hmem, h]
    simp [CopyEngineManager.share, BucketScatter.bucket]
  rw [← hcopies]
  constructor
  · rintro ⟨x, hx, ch, rfl⟩
    exact List.mem_map.mpr ⟨(ch, e), (hshare ch).mp hx, rfl⟩
  · intro he
    obtain ⟨⟨ch, e'⟩, hc, rfl⟩ := List.mem_map.mp he
    exact ⟨_, (hshare ch).mpr hc, ch, rfl⟩

/-- After `wait_completion` nothing is pending. -/
theorem not_pending_of_waited {m : CopyEngineManager SGEntry} (hm : m.Valid cfg.channels)
    (hc : m.Consistent) (hv : s.manager.Valid cfg.channels)
    (ha : s.manager.Alike (m.performAll (CopyEngineManager.Function.waitCompletion.body cfg.channels m))) :
    ∀ e, ¬ s.Pending e := by
  rintro e ⟨ch, i, hi, hw⟩
  have hknown := CopyEngineManager.known_waitCompletion hm hc ch
  have hlog := CopyEngineManager.log_body cfg.channels m .waitCompletion ch
  have hcopies : (CopyEngineManager.Function.waitCompletion : CopyEngineManager.Function SGEntry).copies
      cfg.channels m = [] := rfl
  rw [hcopies] at hlog
  have hlen : s.manager.device.log (.channel ch) = m.device.log (.channel ch) := by
    rw [ha.log, hlog]
    exact List.append_nil _
  have hlt := hw.lt
  have hle := hv.known_le ch
  rw [hlen] at hlt
  rw [ha.known] at hle
  omega

/-- **A function of the copy engine manager** takes over from what is still to be queued the
entries it submits, provided they supply what is asked for. -/
theorem triple_function {todo todo' read read' : Nat → Prop}
    {f : CopyEngineManager.Function SGEntry} (hf : cfg.Rounds (entriesOf f))
    (hread : ∀ b, read b → read' b)
    (htodo : ∀ a, todo a → todo' a ∨ ∃ e ∈ entriesOf f, Reaches e a) :
    cfg.machine.Triple cfg.spec
      (fun s => Calm cfg mem cur todo read s ∧ ∀ e ∈ entriesOf f,
        Supplies s (s.expected mem) e ∧ ∀ b, ReadsBuf e b → read' b)
      [.function f]
      (fun s => Calm cfg mem cur todo' read' s ∧ (f = .waitCompletion → ∀ e, ¬ s.Pending e)) := by
  refine Machine.Triple.expand (stable_calm fun s t hq h e he => (h e he).imp_left hq.supplies)
    (fun _ h => h.1.toBase) (fun _ _ => trivial) (fun _ => rfl) fun s hs => ?_
  obtain ⟨hc, hnew⟩ := hs
  have hm := hc.valid
  have hu : Under cfg mem cur todo' read' s.manager (f.body cfg.channels s.manager) 0 s := by
    refine ⟨{ hc.toMid with reached := fun a => ?_, readers := fun e he b hb => ?_ }, hc.idle, .refl _,
      fun e he => hnew e ((queues_body hm hf).mp he)⟩
    · refine (hc.reached a).imp_right (Or.imp_right fun ha => ?_)
      refine (htodo a ha).imp_right fun ⟨e, he, hr⟩ => ⟨e, ?_, hr⟩
      rw [List.drop_zero]
      exact (queues_body hm hf).mpr he
    · exact hread b (hc.readers e he b hb)
  have hbody := @triple_steps cfg mem cur todo' read' s.manager _
    (CopyEngineManager.sound_body hm f)
  refine fun n => (hbody s hu n).conseq (fun t ht => ?_) (fun _ h => h) fun _ _ h => h
  have hall := ht.alike
  rw [List.take_length] at hall
  refine ⟨⟨{ ht.toMid with reached := fun a => ?_ }, ht.idle, ?_⟩, fun hw => ?_⟩
  · refine (ht.reached a).imp_right (Or.imp_right fun ha => ha.resolve_right ?_)
    rw [List.drop_length]
    rintro ⟨e, ⟨x, hx, -⟩, -⟩
    cases hx
  · exact hall.consistent (CopyEngineManager.consistent_body hm hc.consistent f)
  · subst hw
    exact not_pending_of_waited hm hc.consistent ht.valid hall

/-! ## A gather -/

/-- The entries a gather can stage in buffer `b`. -/
structure Stageable (cfg : Config) (es : List SGEntry) (b : Nat) : Prop where
  source : ∀ e ∈ es, ∃ a, e.src = .user a
  dst_lt : ∀ e ∈ es, e.dst + e.size < wordSize
  chained : Chained es
  inside : cfg.Inside es b (es.headD default).dst

/-- The call a gather is made with. -/
def gatherCall (es : List SGEntry) (b : Nat) : GatherCall := ⟨es, b, (es.headD default).dst⟩

/-- While the gather of `es` into buffer `b` is under way. -/
structure Gathering (cfg : Config) (mem : Nat → UInt8) (cur : Option (List SGEntry))
    (todo read : Nat → Prop) (es : List SGEntry) (b : Nat) (s : Submitter) : Prop extends Mid cfg mem cur todo read s where
  running : s.gather.dispatcher ≠ .idle
  last : s.gathers.getLast? = some (gatherCall es b)
  consistent : s.manager.Consistent
  copied : ∀ i, (s.gather.call, i) ∈ s.gather.log → StagedAt s es b i

/-- The entries copied so far stay where they are. -/
theorem Gathering.copied_gathered {todo read : Nat → Prop} {b : Nat}
    (hg : Gathering cfg mem cur todo read es b s) (hst : Stageable cfg es b) {a : Gather.Act}
    {g : Gather.State} (h : Gather.step cfg.workers s.gather a = some g) (ha : ∀ n, a ≠ .call n) :
    ∀ i, (g.call, i) ∈ g.log → StagedAt (s.gathered g) es b i := by
  have hcall : g.call = s.gather.call := by
    have hcounts := (base_gather hg.toBase h ha).2
    rw [Gather.State.call, Gather.State.call, hcounts, hg.gathers]
  rw [hcall]
  rcases gathered_cases hg.toBase h with ⟨hlog, heq⟩ | ⟨-, c, j, e, hc, he, hlog, heq⟩
  · rw [hlog, heq]
    exact hg.copied
  · cases hg.last.symm.trans hc
    rw [hlog, heq]
    intro i hi
    refine stagedAt_stage hst.dst_lt hst.chained hst.source he b ?_
    rcases List.mem_append.mp hi with hi | hi
    · exact .inr (hg.copied i hi)
    · cases List.mem_singleton.mp hi
      exact .inl rfl

theorem gathers_gathered (hb : Base cfg s) {a : Gather.Act} {g : Gather.State}
    (h : Gather.step cfg.workers s.gather a = some g) :
    (s.gathered g).gathers = s.gathers ∧ (s.gathered g).manager = s.manager ∧
      (s.gathered g).gather = g := by
  rcases gathered_cases hb h with ⟨-, heq⟩ | ⟨-, c, j, e, -, -, -, heq⟩ <;> rw [heq] <;>
    exact ⟨rfl, rfl, rfl⟩

theorem Gathering.gathered {todo read : Nat → Prop} {b : Nat}
    (hg : Gathering cfg mem cur todo read es b s) (hst : Stageable cfg es b) {a : Gather.Act}
    {g : Gather.State} (h : Gather.step cfg.workers s.gather a = some g) (ha : ∀ n, a ≠ .call n)
    (hrun : g.dispatcher ≠ .idle) : Gathering cfg mem cur todo read es b (s.gathered g) := by
  obtain ⟨hgathers, hmanager, hgather⟩ := gathers_gathered hg.toBase h
  refine ⟨hg.toMid.gathered h ha fun _ => hg.running, ?_, ?_, ?_, ?_⟩
  · rwa [hgather]
  · rw [hgathers]
    exact hg.last
  · rw [hmanager]
    exact hg.consistent
  · rw [hgather]
    exact hg.copied_gathered hst h ha

theorem stable_gathering {todo read : Nat → Prop} {b : Nat} (hst : Stageable cfg es b) :
    cfg.machine.Stable (Gathering cfg mem cur todo read es b) := by
  intro s e t hg h
  cases e with
  | advance ch =>
    have hm := hg.toMid.advance h
    simp only [Config.machine, Config.env] at h
    split at h
    · split at h <;> cases h <;>
        exact ⟨hm, hg.running, hg.last, ((Alike.refl _).advance _).consistent hg.consistent,
          hg.copied⟩
    · cases h
  | work w =>
    obtain ⟨g, hw, rfl⟩ := Option.map_eq_some_iff.mp h
    refine hg.gathered hst hw nofun ?_
    simp only [Gather.step] at hw
    split at hw
    · rw [(Gather.frame_work hw).2]
      exact hg.running
    · cases hw

theorem Quiet.staged (hq : Quiet s t) {b : Nat} (h : Staged s es b) : Staged t es b := by
  intro i e he k hk
  rw [hq.staging, h i e he k hk]
  cases e.src.plus k with
  | user a => exact (congrFun hq.user a).symm
  | staging c off => exact (congrFun (congrFun hq.staging c) off).symm

/-- **A gather that returns has filled its buffer.** -/
theorem triple_gather {todo read : Nat → Prop} {b : Nat} (hst : Stageable cfg es b)
    (hread : ¬ read b) :
    cfg.machine.Triple cfg.spec (Calm cfg mem cur todo read)
      [.parallelGather es b (es.headD default).dst]
      (fun s => Calm cfg mem cur todo read s ∧ Staged s es b) := by
  have hstable : cfg.machine.Stable fun s => Calm cfg mem cur todo read s ∧ Staged s es b :=
    stable_calm fun _ _ hq h => hq.staged h
  refine Machine.Triple.call (stable_calm' _ _) (fun _ h => h.toBase) (fun _ _ => trivial)
    fun s t m hc hp => ?_
  simp only [Config.machine, Config.perform, Option.map_eq_some_iff, Prod.mk.injEq] at hp
  obtain ⟨g, hg, rfl, rfl⟩ := hp
  have hcounts := Gather.counts_step hg
  have hlog := hc.gather.step (.call es.length) trivial hg
  simp only [Gather.step, hc.idle] at hg
  cases hg
  -- the call has been made, and nothing of it has been copied
  have hstart : Gathering cfg mem cur todo read es b { s with
      gather := { s.gather with counts := s.gather.counts ++ [es.length], dispatcher := .assign 0 }
      gathers := s.gathers ++ [gatherCall es b] } := by
    refine ⟨{ hc.toMid with
      gather := hlog
      gathers := ?_
      guarded := fun _ => ⟨gatherCall es b, List.getLast?_concat .., hst.inside, fun e he hr => ?_⟩ },
      by simp, List.getLast?_concat .., hc.consistent, fun i hi => ?_⟩
    · rw [List.map_append, ← hc.gathers]
      rfl
    · exact hread (hc.readers e he b hr)
    · have := Gather.lt_of_mem_log hc.gather _ hi
      simp [Gather.State.call] at this
  refine Machine.Triple.loop (stable_gathering hst) (fun _ h => h.toBase) (fun _ _ => trivial) hstable
    (fun _ h => h.1.toBase) (fun u v m hu hp => ?_) _ hstart
  simp only [Config.machine, Config.perform, Option.map_eq_some_iff, Prod.mk.injEq] at hp
  obtain ⟨g', hg', rfl, rfl⟩ := hp
  by_cases hd : g'.dispatcher = .idle
  · refine .inl ⟨if_pos hd, ?_⟩
    obtain ⟨hgathers, hmanager, hgather⟩ := gathers_gathered hu.toBase hg'
    have hreach := hu.gather.step .dispatch trivial hg'
    have hcopied := hu.copied_gathered hst hg' (by simp)
    refine ⟨⟨hu.toMid.gathered hg' (by simp) fun hne => absurd hd hne, ?_, ?_⟩, fun i e he => ?_⟩
    · rwa [hgather]
    · rw [hmanager]
      exact hu.consistent
    · refine hcopied i (Gather.mem_log_of_idle hreach hd (n := es.length) ?_ ?_) e he
      · have hcg := (base_gather hu.toBase hg' (by simp)).2
        rw [Gather.State.call, hcg, ← List.getLast?_eq_getElem?, List.getLast?_map, hu.last]
        rfl
      · exact (List.getElem?_eq_some_iff.mp he).1
  · exact .inr ⟨if_neg hd, hu.gathered hst hg' (by simp) hd⟩

/-- **A serial gather** fills its buffer entry by entry. -/
theorem triple_serial {todo read : Nat → Prop} {b : Nat} (hst : Stageable cfg es b)
    (hread : ¬ read b) :
    cfg.machine.Triple cfg.spec (Calm cfg mem cur todo read)
      (es.map (.memcpy b (es.headD default).dst))
      (fun s => Calm cfg mem cur todo read s ∧ Staged s es b) := by
  -- the entries before the `k`-th have been copied
  let P : Nat → Submitter → Prop := fun k s =>
    Calm cfg mem cur todo read s ∧ ∀ i < k, StagedAt s es b i
  have hstable : ∀ k, cfg.machine.Stable (P k) := fun k =>
    stable_calm fun s t hq h i hi e he j hj => by
      rw [hq.staging, h i hi e he j hj]
      cases e.src.plus j with
      | user a => exact (congrFun hq.user a).symm
      | staging c off => exact (congrFun (congrFun hq.staging c) off).symm
  have hinv : ∀ k s, P k s → cfg.spec.inv s := fun _ _ h => h.1.toBase
  have hloop : cfg.machine.Triple cfg.spec (P 0) (es.flatMap fun e =>
      [.memcpy b (es.headD default).dst e]) (P es.length) := by
    refine Machine.Triple.flatMap (P := P) (hstable _) (hinv _) fun k e he => ?_
    refine Machine.Triple.atom (hstable k) (hinv k) (fun s hs => ⟨?_, ?_⟩) (hstable (k + 1))
      (hinv (k + 1)) fun s t r hs hp => ?_
    · exact ⟨hst.inside.1, List.forall_mem_singleton.mpr (hst.inside.2 e (List.mem_of_getElem? he))⟩
    · exact fun e' he' hr => hread (hs.1.readers e' he' b hr)
    · obtain ⟨hc, hcopied⟩ := hs
      cases hp
      refine ⟨rfl, ?_, fun i hi => ?_⟩
      · exact { hc with
          supplied := fun e' he' =>
            supplies_stage (fun hr => hread (hc.readers e' he' b hr)) (hc.supplied e' he') }
      · refine stagedAt_stage hst.dst_lt hst.chained hst.source he b ?_
        exact (Nat.lt_succ_iff_lt_or_eq.mp hi).symm.imp_right (hcopied i)
  rw [List.map_eq_flatMap]
  refine hloop.conseq (fun s hs => ⟨hs, fun i hi => absurd hi (Nat.not_lt_zero i)⟩) fun s hs => ?_
  refine ⟨hs.1, fun i e he => hs.2 i (List.getElem?_eq_some_iff.mp he).1 e he⟩

/-! ## A call -/

/-- What is asked for is what the user's memory holds. -/
theorem Mid.asked {todo read : Nat → Prop} (hm : Mid cfg mem (some es) todo read s) :
    ∀ e ∈ es, Supplies s (s.expected mem) e := by
  intro e he k hk
  have hacc := (hm.accepted es (List.mem_of_getLast? hm.current)).1
  obtain ⟨init, hinit⟩ := List.getLast?_eq_some_iff.mp hm.current
  obtain ⟨a, ha, -⟩ := hacc.source e he
  rw [Submitter.expected, hinit, List.foldl_append, List.foldl_cons, List.foldl_nil,
    deliver_of_mem hacc he hk, ha]
  rfl

/-- Only the device of the manager matters to the invariant. -/
theorem Calm.manager {todo read : Nat → Prop} (hc : Calm cfg mem cur todo read s) (pinned : Bool)
    (depth : Nat) : Calm cfg mem cur todo read { s with
      manager := { s.manager with contextPinned := pinned, depth := depth } } :=
  { hc with
    valid := ⟨hc.valid.device, hc.valid.next_lt, hc.valid.dirty_lt, hc.valid.known_le,
      hc.valid.mark_le⟩ }

theorem triple_pinContext (todo read : Nat → Prop) :
    cfg.machine.Triple cfg.spec (Calm cfg mem cur todo read) [.pinContext]
      (Calm cfg mem cur todo read) := by
  refine Machine.Triple.atom (stable_calm' _ _) (fun _ h => h.toBase) (fun _ _ => trivial)
    (stable_calm' _ _) (fun _ h => h.toBase) fun s t m hc hp => ?_
  simp only [Config.machine, Config.perform] at hp
  split at hp <;> cases hp
  · exact ⟨rfl, hc⟩
  · exact ⟨rfl, hc.manager _ _⟩

/-- Nothing of the call is left. -/
def Done (cfg : Config) (mem : Nat → UInt8) (cur : Option (List SGEntry)) (s : Submitter) : Prop :=
  Calm cfg mem cur (fun _ => False) (fun _ => True) s ∧ ∀ e, ¬ s.Pending e

theorem stable_done : cfg.machine.Stable (Done cfg mem cur) :=
  stable_calm fun _ _ hq h e he => h e (hq.pending e he)

theorem triple_unpinContext :
    cfg.machine.Triple cfg.spec (Done cfg mem cur) [.unpinContext] (Done cfg mem cur) := by
  refine Machine.Triple.atom stable_done (fun _ h => h.1.toBase) (fun _ _ => trivial)
    stable_done (fun _ h => h.1.toBase) fun s t m hc hp => ?_
  simp only [Config.machine, Config.perform] at hp
  split at hp <;> cases hp
  · exact ⟨rfl, hc.1.manager _ _, hc.2⟩
  · exact ⟨rfl, hc⟩

/-- The records of pending events do not matter to the invariant. -/
theorem triple_setPending {P : Submitter → Prop} (hstable : cfg.machine.Stable P)
    (hinv : ∀ s, P s → Base cfg s) (b : Nat) (v : Bool)
    (hP : ∀ s f, P s → P { s with stagingEventPending := f }) :
    cfg.machine.Triple cfg.spec P [.setPending b v] P := by
  refine Machine.Triple.atom hstable hinv (fun _ _ => trivial) hstable hinv fun s t m hs hp => ?_
  cases hp
  exact ⟨rfl, hP s _ hs⟩

/-! ## The strategies -/

theorem strategy_merged (h : cfg.strategy es = .merged) :
    dstContiguous es = true ∧ srcContiguous es = true := by
  unfold Config.strategy at h
  split_ifs at h with hm
  exact ⟨hm.1, hm.2.1⟩

/-- The strategies that use a staging buffer have one that is large enough. -/
theorem strategy_staged
    (h : cfg.strategy es = .pipelined ∨ cfg.strategy es = .parallel ∨ cfg.strategy es = .serial) :
    dstContiguous es = true ∧ 0 < cfg.staging.bufs ∧ sizeOf es ≤ cfg.staging.size := by
  unfold Config.strategy at h
  split_ifs at h with hm hs <;> first | exact ⟨hs.1, hs.2.2⟩ | simp at h

theorem strategy_pipelined (h : cfg.strategy es = .pipelined) :
    pipelineMinEntries ≤ es.length ∧ 2 ≤ cfg.staging.bufs := by
  unfold Config.strategy at h
  split_ifs at h with hm hs hp
  exact ⟨hp.1, hp.2.1⟩

/-- A piece of entries that follow one another can be staged where all of them fit. -/
theorem stageable {l : List SGEntry} (hd : Deliverable es) (hdst : dstContiguous es = true)
    (hsize : sizeOf es ≤ cfg.staging.size) (hl : l <:+: es) {b : Nat} (hb : b < cfg.staging.bufs) :
    Stageable cfg l b := by
  have hchain := chained_of_dstContiguous hd.dst_lt hdst
  have hlt : ∀ e ∈ l, e.dst + e.size < wordSize := fun e he => hd.dst_lt e (hl.subset he)
  have hchain' : Chained l := hchain.infix hl
  refine ⟨fun e he => ?_, hlt, hchain', hb, fun e he => ?_⟩
  · obtain ⟨a, ha, -⟩ := hd.source e (hl.subset he)
    exact ⟨a, ha⟩
  · obtain ⟨i, he⟩ := List.mem_iff_getElem?.mp he
    have hsum := offset_add_le he
    have htotal := totalSize_le_of_infix hl
    rw [sizeOf_of_chained hd.dst_lt hchain] at hsize
    rw [subWord_dst hlt hchain' he]
    omega

/-- **What has been staged is submitted.** -/
theorem triple_single {l : List SGEntry} {todo todo' read read' : Nat → Prop} {b : Nat}
    (hst : Stageable cfg l b) (hl : ∀ e ∈ l, e ∈ es) (hread : ∀ c, read c ∨ c = b → read' c)
    (htodo : ∀ a, todo a → todo' a ∨ ∃ e ∈ l, Reaches e a) :
    cfg.machine.Triple cfg.spec (fun s => Calm cfg mem (some es) todo read s ∧ Staged s l b)
      [.function (.submitScatterGather [single l (.staging b 0)])]
      (Calm cfg mem (some es) todo' read') := by
  have hone : [single l (.staging b 0)].length ≤ cfg.channels := cfg.channels_pos
  refine (triple_function (f := .submitScatterGather [single l (.staging b 0)]) (.inl hone)
    (fun c hc => hread c (.inl hc)) fun a ha => ?_).conseq (fun s hs => ⟨hs.1, ?_⟩) fun s hs => hs.1
  · refine (htodo a ha).imp_right fun ⟨e, he, hr⟩ => ⟨_, List.mem_singleton_self _, ?_⟩
    exact reaches_single hst.dst_lt hst.chained he hr
  · refine List.forall_mem_singleton.mpr ⟨?_, fun c hc => ?_⟩
    · exact supplies_single hst.dst_lt hst.chained hs.2 fun e he => hs.1.asked e (hl e he)
    · obtain ⟨off, hoff⟩ := hc
      cases hoff
      exact hread _ (.inr rfl)

/-- The bytes that are asked for. -/
def Asked (es : List SGEntry) (a : Nat) : Prop := ∃ e ∈ es, Reaches e a

/-- The chunks of a pipeline, one after the other: the first `k` staging buffers may be read. -/
theorem triple_pipelined (hd : Deliverable es) (he : cfg.Exact es)
    (hs : cfg.strategy es = .pipelined) :
    cfg.machine.Triple cfg.spec (Calm cfg mem (some es) (Asked es) fun _ => False)
      ((cfg.chunks es).flatMap cfg.chunkCalls)
      (Calm cfg mem (some es) (fun _ => False) fun _ => True) := by
  obtain ⟨hdst, hbufs, hsize⟩ := strategy_staged (.inl hs)
  obtain ⟨hmin, hbufs2⟩ := strategy_pipelined hs
  unfold Config.Exact at he
  rw [hs] at he
  have hn : 0 < cfg.numChunks := Nat.lt_min.mpr ⟨by decide, hbufs⟩
  have hnum : cfg.numChunks ≤ cfg.staging.bufs := Nat.min_le_right _ _
  have hlen : cfg.numChunks < es.length :=
    (Nat.min_le_left _ _).trans_lt (Nat.lt_of_lt_of_le (by decide) hmin)
  have hall : (cfg.chunks es).flatMap Prod.snd = es := chunks_flatMap hn he.1 hlen
  let P : Nat → Submitter → Prop := fun k =>
    Calm cfg mem (some es) (fun a => ∃ c ∈ (cfg.chunks es).drop k, Asked c.2 a) fun b => b < k
  have hstable : ∀ k, cfg.machine.Stable (P k) := fun k => stable_calm' _ _
  have hinv : ∀ k s, P k s → cfg.spec.inv s := fun _ _ h => h.toBase
  have hloop : cfg.machine.Triple cfg.spec (P 0) ((cfg.chunks es).flatMap cfg.chunkCalls)
      (P (cfg.chunks es).length) := by
    refine Machine.Triple.flatMap (hstable _) (hinv _) fun k c hc => ?_
    obtain ⟨hck, hk⟩ := fst_of_getElem?_chunks hc
    have hkb : k < cfg.staging.bufs := hk.trans_le hnum
    have hinfix : c.2 <:+: es := by
      have := infix_of_mem_chunks (List.mem_of_getElem? hc)
      rwa [hall] at this
    have hst : Stageable cfg c.2 k := stageable hd hdst hsize hinfix hkb
    have hdrop : (cfg.chunks es).drop k = c :: (cfg.chunks es).drop (k + 1) := by
      rw [List.drop_eq_getElem_cons (List.getElem?_eq_some_iff.mp hc).1,
        (List.getElem?_eq_some_iff.mp hc).2]
    have hsubmit : cfg.machine.Triple cfg.spec (P k)
        [.parallelGather c.2 k (c.2.headD default).dst,
          .function (.submitScatterGather [single c.2 (.staging k 0)])] (P (k + 1)) := by
      have hgather : cfg.machine.Triple cfg.spec (P k)
          [.parallelGather c.2 k (c.2.headD default).dst] (fun s => P k s ∧ Staged s c.2 k) :=
        triple_gather hst (lt_irrefl k)
      refine hgather.cons (triple_single hst (fun e he => hinfix.subset he) (fun b hb => ?_)
        fun a ha => ?_)
      · rcases hb with hb | rfl
        · exact Nat.lt_succ_of_lt hb
        · exact Nat.lt_succ_self _
      · obtain ⟨c', hc', ha⟩ := ha
        rw [hdrop] at hc'
        rcases List.mem_cons.mp hc' with rfl | hc'
        · exact .inr ha
        · exact .inl ⟨c', hc', ha⟩
    have hrecord : cfg.machine.Triple cfg.spec (P (k + 1))
        (if c.1 + 1 < cfg.numChunks then
          [.function (.recordEventOnLastStream k), .setPending k true] else []) (P (k + 1)) := by
      split
      · refine Machine.Triple.cons ?_ (triple_setPending (hstable _) (hinv _) _ _
          fun s f h => { h with })
        exact (triple_function (.inl (Nat.zero_le _)) (fun _ h => h) fun _ h => .inl h).conseq
          (fun s hs => ⟨hs, List.forall_mem_nil _⟩) fun s hs => hs.1
      · exact Machine.Triple.nil (hstable _) (hinv _)
    rw [hck] at hrecord
    simp only [Config.chunkCalls, hck, Nat.mod_eq_of_lt hkb, if_neg (not_le.mpr hkb),
      List.nil_append]
    exact hsubmit.append hrecord
  refine hloop.conseq (fun s hs => ?_) fun s hs => ?_
  · refine { hs with
      reached := fun a => (hs.reached a).imp_right (Or.imp_right fun ⟨e, he, hr⟩ => ?_)
      readers := fun e he b hb => (hs.readers e he b hb).elim }
    rw [← hall] at he
    obtain ⟨c, hc, he⟩ := List.mem_flatMap.mp he
    exact ⟨c, hc, e, he, hr⟩
  · refine { hs with
      reached := fun a => (hs.reached a).imp_right (Or.imp_right fun ⟨c, hc, _⟩ => ?_)
      readers := fun _ _ _ _ => trivial }
    rw [List.drop_length] at hc
    cases hc

/-- **Whatever the strategy**, everything that is asked for is queued. -/
theorem triple_transfer (hd : Deliverable es) (he : cfg.Exact es) :
    cfg.machine.Triple cfg.spec (Calm cfg mem (some es) (Asked es) fun _ => False) (cfg.transfer es)
      (Calm cfg mem (some es) (fun _ => False) fun _ => True) := by
  unfold Config.transfer
  cases hs : cfg.strategy es with
  | merged =>
    obtain ⟨hdst, hsrc⟩ := strategy_merged hs
    have hchain := chained_of_dstContiguous hd.dst_lt hdst
    have hone : [single es (es.headD default).src].length ≤ cfg.channels := cfg.channels_pos
    refine (triple_function (f := .submitScatterGather [single es (es.headD default).src]) (.inl hone)
      (fun _ _ => trivial) fun a ha => ?_).conseq (fun s hc => ⟨hc, ?_⟩) fun s hc => hc.1
    · obtain ⟨e, he, hr⟩ := ha
      exact .inr ⟨_, List.mem_singleton_self _, reaches_single hd.dst_lt hchain he hr⟩
    · exact List.forall_mem_singleton.mpr
        ⟨supplies_merged hd.dst_lt hchain hsrc hc.asked, fun _ _ => trivial⟩
  | pipelined => exact triple_pipelined hd he hs
  | parallel =>
    obtain ⟨hdst, hbufs, hsize⟩ := strategy_staged (.inr (.inl hs))
    have hst : Stageable cfg es 0 := stageable hd hdst hsize List.infix_rfl hbufs
    exact (triple_gather hst id).cons (triple_single hst (fun _ h => h) (fun _ _ => trivial)
      fun _ h => .inr h)
  | serial =>
    obtain ⟨hdst, hbufs, hsize⟩ := strategy_staged (.inr (.inr hs))
    have hst : Stageable cfg es 0 := stageable hd hdst hsize List.infix_rfl hbufs
    exact (triple_serial hst id).append (triple_single hst (fun _ h => h) (fun _ _ => trivial)
      fun _ h => .inr h)
  | raw =>
    unfold Config.Exact at he
    rw [hs] at he
    exact (triple_function (f := .submitScatterGather es) he (fun _ _ => trivial)
      fun _ h => .inr h).conseq (fun s hc => ⟨hc, fun e h => ⟨hc.asked e h, fun _ _ => trivial⟩⟩)
      fun s hc => hc.1

/-- Between two calls. -/
def Rest (cfg : Config) (mem : Nat → UInt8) (s : Submitter) : Prop := ∃ cur, Done cfg mem cur s

theorem stable_rest : cfg.machine.Stable (Rest cfg mem) :=
  fun s e t ⟨cur, hd⟩ h => ⟨cur, stable_done s e t hd h⟩

/-- Between two calls the memory is as expected. -/
theorem Rest.gpu (h : Rest cfg mem s) : s.gpu = s.expected mem := by
  obtain ⟨cur, hc, hnone⟩ := h
  funext a
  rcases hc.reached a with hr | ⟨e, he, -⟩ | hr
  · exact hr
  · exact absurd he (hnone e)
  · exact hr.elim

/-- The body of a call. -/
theorem triple_body (hd : Deliverable es) (he : cfg.Exact es) :
    cfg.machine.Triple cfg.spec (Calm cfg mem (some es) (Asked es) fun _ => False)
      (.pinContext :: cfg.transfer es ++ .function .waitCompletion ::
        (List.range cfg.staging.bufs).map (.setPending · false) ++ [.unpinContext])
      (Done cfg mem (some es)) := by
  have hinv : ∀ s, Done cfg mem (some es) s → cfg.spec.inv s := fun _ h => h.1.toBase
  have hwait : cfg.machine.Triple cfg.spec (Calm cfg mem (some es) (fun _ => False) fun _ => True)
      [.function .waitCompletion] (Done cfg mem (some es)) :=
    (triple_function (.inl (Nat.zero_le _)) (fun _ h => h) fun _ h => .inl h).conseq
      (fun s hc => ⟨hc, List.forall_mem_nil _⟩) fun s hs => ⟨hs.1, hs.2 rfl⟩
  have hclear : cfg.machine.Triple cfg.spec (Done cfg mem (some es))
      ((List.range cfg.staging.bufs).map (.setPending · false)) (Done cfg mem (some es)) :=
    Machine.Triple.map stable_done hinv fun b _ =>
      triple_setPending stable_done hinv b false fun s f h => ⟨{ h.1 with }, h.2⟩
  exact (((triple_pinContext _ _).cons (triple_transfer hd he)).append (hwait.cons hclear)).append
    triple_unpinContext

/-- The bytes a new call asks for are to be queued; the others are as they are. -/
theorem Rest.accept (h : Rest cfg mem s) (hd : Deliverable es) (he : cfg.Exact es) :
    Calm cfg mem (some es) (Asked es) (fun _ => False) { s with submitted := s.submitted ++ [es] } := by
  have hgpu := h.gpu
  obtain ⟨cur, hc, hnone⟩ := h
  refine { hc with
    accepted := List.forall_mem_append.mpr ⟨hc.accepted, List.forall_mem_singleton.mpr ⟨hd, he⟩⟩
    current := List.getLast?_concat ..
    supplied := fun e he => absurd he (hnone e)
    reached := fun a => ?_
    readers := fun e he => absurd he (hnone e) }
  by_cases ha : Asked es a
  · exact .inr (.inr ha)
  · left
    have hnot : ∀ e ∈ es, ¬ Reaches e a := fun e he hr => ha ⟨e, he, hr⟩
    simp only [Submitter.expected, List.foldl_append, List.foldl_cons, List.foldl_nil]
    rw [deliver_of_not_reached hnot]
    exact congrFun hgpu a

theorem triple_submitDirect (hd : Deliverable es) (he : cfg.Exact es) :
    cfg.machine.Triple cfg.spec (Rest cfg mem) [.submitDirect es] (Rest cfg mem) := by
  have hinv : ∀ s, Rest cfg mem s → cfg.spec.inv s := fun _ ⟨_, h⟩ => h.1.toBase
  refine Machine.Triple.call stable_rest hinv (fun _ _ => trivial) fun s t m hs hp => ?_
  cases hp
  have hc := hs.accept hd he
  unfold Config.submitDirect
  split
  · -- without entries the call returns at once
    refine Machine.Safe.nil stable_rest hinv ⟨some es, { hc with
      reached := fun a => (hc.reached a).imp_right (Or.imp_right fun ⟨e, he, _⟩ => ?_)
      readers := fun _ _ _ _ => trivial }, ?_⟩
    · subst ‹es = []›
      cases he
    · obtain ⟨_, _, hnone⟩ := hs
      exact hnone
  · exact ((triple_body hd he).conseq (fun _ h => h) fun u hu => ⟨some es, hu⟩) _ hc

/-! ## Every run -/

/-- The calls of a run are submissions of entries that meet `P`. -/
def Calls (P : List SGEntry → Prop) (_ : Script.State Submitter Call) :
    Call ⊕ Script.Act Env → Prop
  | .inl (.submitDirect es) => P es
  | .inl _ => False
  | .inr _ => True

/-- A store into a staging buffer is inside it, and nobody reads the buffer. -/
theorem stores_stage {c : GatherCall} {e : SGEntry} (hin : cfg.Inside [e] c.buf c.minDst)
    (hun : Unread s c.buf) {b i : Nat}
    (hne : (s.stage c.buf c.minDst e).staging b i ≠ s.staging b i) :
    b < cfg.staging.bufs ∧ i < cfg.staging.size ∧ ∀ e, s.Pending e → ¬ ReadsBuf e b := by
  have hb : b = c.buf := by
    by_contra hb
    exact hne (by simp only [Submitter.stage, Function.update_of_ne hb])
  subst hb
  have hfit := hin.2 e (List.mem_singleton_self e)
  refine ⟨hin.1, ?_, hun⟩
  by_contra hi
  refine hne ?_
  simp only [Submitter.stage, Function.update_self]
  exact if_neg fun h => by omega

theorem stores_gathered (hb : Base cfg s) {a : Gather.Act} {g : Gather.State}
    (h : Gather.step cfg.workers s.gather a = some g) {b i : Nat}
    (hne : (s.gathered g).staging b i ≠ s.staging b i) :
    b < cfg.staging.bufs ∧ i < cfg.staging.size ∧ ∀ e, s.Pending e → ¬ ReadsBuf e b := by
  rcases gathered_cases hb h with ⟨-, heq⟩ | ⟨hd, c, j, e, hc, he, -, heq⟩ <;> rw [heq] at hne
  · exact absurd rfl hne
  · obtain ⟨c', hc', hin, hun⟩ := hb.guarded hd
    cases hc.symm.trans hc'
    have hin' : cfg.Inside [e] c.buf c.minDst :=
      ⟨hin.1, List.forall_mem_singleton.mpr (hin.2 e (List.mem_of_getElem? he))⟩
    exact stores_stage hin' hun hne

theorem stores_perform (hb : Base cfg s) {c : Call} (hpre : cfg.spec.pre c s) {m : List Call}
    (h : cfg.perform s c = some (t, m)) {b i : Nat} (hne : t.staging b i ≠ s.staging b i) :
    b < cfg.staging.bufs ∧ i < cfg.staging.size ∧ ∀ e, s.Pending e → ¬ ReadsBuf e b := by
  cases c with
  | submitDirect es => cases h; exact absurd rfl hne
  | pinContext => simp only [Config.perform] at h; split at h <;> cases h <;> exact absurd rfl hne
  | unpinContext => simp only [Config.perform] at h; split at h <;> cases h <;> exact absurd rfl hne
  | function f => cases h; exact absurd rfl hne
  | step x => simp only [Config.perform] at h; split at h <;> cases h; exact absurd rfl hne
  | parallelGather es b' d =>
    obtain ⟨g, -, hg⟩ := Option.map_eq_some_iff.mp h
    cases hg
    exact absurd rfl hne
  | dispatch =>
    obtain ⟨g, hg, hgm⟩ := Option.map_eq_some_iff.mp h
    cases hgm
    exact stores_gathered hb hg hne
  | memcpy b' d e =>
    cases h
    exact stores_stage (c := ⟨[e], b', d⟩) hpre.1 hpre.2 hne
  | stagingWait b' => cases h; exact absurd rfl hne
  | setPending b' v => cases h; exact absurd rfl hne

/-- **`submit_direct` delivers what copying each entry by itself would**, through whatever strategy
it takes, in every run whose submissions are deliverable and whose roundings are exact. -/
theorem delivers_of_reachable {depth : Nat} {pending : Nat → Bool} {user : Nat → UInt8}
    {staging : Nat → Nat → UInt8} {gpu : Nat → UInt8} {s : Script.State Submitter Call}
    (h : Reachable cfg.machine.drive (Calls fun es => Deliverable es ∧ cfg.Exact es)
      (· = ⟨.init depth pending user staging gpu, []⟩) s) : Delivers cfg gpu s := by
  have hrest : Rest cfg gpu (.init depth pending user staging gpu) := by
    have hnone : ∀ e, ¬ (Submitter.init depth pending user staging gpu).Pending e := by
      rintro e ⟨ch, i, -, hw⟩
      cases hw
    refine ⟨none, ⟨⟨⟨.initial rfl, rfl, CopyEngineManager.valid_init cfg.channels_pos _ _,
      List.forall_mem_nil _, fun hd => absurd rfl hd⟩, rfl, fun e he => absurd he (hnone e),
      fun a => .inl rfl, fun e he => absurd he (hnone e)⟩, rfl,
      CopyEngineManager.consistent_init _ _⟩, hnone⟩
  have hout : Machine.Outlined cfg.machine cfg.spec (Rest cfg gpu) s := by
    refine Machine.outlined_of_drive (fun s hs => ?_) stable_rest (fun _ ⟨_, hr⟩ => hr.1.toBase)
      (fun s c hc hr _ => ?_) h
    · subst hs
      exact ⟨rfl, hrest⟩
    · cases c with
      | submitDirect es => exact (triple_submitDirect hc.1 hc.2).outlined hr
      | _ => exact hc.elim
  have hbase : Base cfg s.data := hout.inv
  refine ⟨fun htodo => (hout.post htodo).gpu, fun es hes hp => ?_, fun a t ht b i hne => ?_⟩
  · obtain ⟨-, hexact⟩ := hbase.accepted es hes
    obtain ⟨-, hbufs, -⟩ := strategy_staged (.inl hp)
    obtain ⟨hmin, -⟩ := strategy_pipelined hp
    unfold Config.Exact at hexact
    rw [hp] at hexact
    refine chunks_flatMap (Nat.lt_min.mpr ⟨by decide, hbufs⟩) hexact.1 ?_
    exact (Nat.min_le_left _ _).trans_lt (Nat.lt_of_lt_of_le (by decide) hmin)
  · cases a with
    | inl c =>
      simp only [Machine.drive] at ht
      split at ht <;> cases ht
      exact absurd rfl hne
    | inr a =>
      cases a with
      | env e =>
        obtain ⟨u, hu, rfl⟩ := Option.map_eq_some_iff.mp ht
        cases e with
        | advance ch =>
          simp only [Config.machine, Config.env] at hu
          split at hu
          · split at hu <;> cases hu <;> exact absurd rfl hne
          · cases hu
        | work w =>
          obtain ⟨g, hg, rfl⟩ := Option.map_eq_some_iff.mp hu
          exact stores_gathered hbase hg hne
      | perform =>
        simp only [Machine.drive, Machine.step] at ht
        cases htodo : s.todo with
        | nil => rw [htodo] at ht; cases ht
        | cons c rest =>
          rw [htodo] at ht
          obtain ⟨⟨u, m⟩, hp, rfl⟩ := Option.map_eq_some_iff.mp ht
          exact stores_perform hbase (hout.pre htodo) hp hne

/-! ## Two runs -/

/-- The user's memory, byte by byte. -/
private def counting (a : Nat) : UInt8 := a.toUInt8

/-- Two channels, two staging buffers and a gather worker. -/
private def twoBuffers : Config := ⟨2, ⟨2, 512⟩, 1, by decide, by decide, by decide⟩

/-- Bytes that follow one another in the destination, but not in the source. -/
private def spread (n : Nat) : List SGEntry := (List.range n).map fun i => ⟨i, .user (2 * i), 1⟩

private theorem deliverable_spread {n : Nat} (hn : n ≤ pipelineMinEntries) :
    Deliverable (spread n) where
  source e he := by
    obtain ⟨i, hi, rfl⟩ := List.mem_map.mp he
    rw [List.mem_range] at hi
    exact ⟨2 * i, rfl, by unfold pipelineMinEntries at hn; unfold wordSize; dsimp only; omega⟩
  dst_lt e he := by
    obtain ⟨i, hi, rfl⟩ := List.mem_map.mp he
    rw [List.mem_range] at hi
    unfold pipelineMinEntries at hn
    unfold wordSize
    dsimp only
    omega
  disjoint := by
    refine List.pairwise_map.mpr (List.pairwise_lt_range.imp_of_mem fun hi hj hlt a => ?_)
    rw [List.mem_range] at hi hj
    unfold pipelineMinEntries at hn
    rintro ⟨k, hk, rfl⟩ ⟨k', hk', h⟩
    dsimp only at hk hk' h
    rw [word_of_lt (by unfold wordSize; omega), word_of_lt (by unfold wordSize; omega)] at h
    omega

/-- What the memory holds when their submission has returned. -/
private theorem gpu_spread {cfg : Config} {n i : Nat} (hn : n ≤ pipelineMinEntries)
    {s : Script.State Submitter Call} (hdelivers : Delivers cfg (fun _ => 0) s) (htodo : s.todo = [])
    (hsubmitted : s.data.submitted = [spread n]) (hi : i < n) : s.data.gpu i = s.data.user (2 * i) := by
  have hmem : (⟨i, .user (2 * i), 1⟩ : SGEntry) ∈ spread n :=
    List.mem_map.mpr ⟨i, List.mem_range.mpr hi, rfl⟩
  have hword : ∀ j ≤ 2 * i, word (j + 0) = j := fun j hj =>
    word_of_lt (by unfold pipelineMinEntries at hn; unfold wordSize; omega)
  have hdeliver : deliver (userByte s.data.user) (fun _ => 0) (spread n) (word (i + 0)) =
      s.data.user (word (2 * i + 0)) :=
    deliver_of_mem (deliverable_spread hn) hmem (k := 0) Nat.one_pos
  rw [hword i (by omega), hword (2 * i) (Nat.le_refl _)] at hdeliver
  rw [hdelivers.returned htodo, Submitter.expected, hsubmitted]
  exact hdeliver

private theorem sized_spread : Sized twoBuffers.numChunks (spread 512) := by
  unfold Sized
  decide +kernel

/-- A call that takes the pipeline can be made. -/
private theorem reachable_pipelined {cfg : Config} {es : List SGEntry} (hd : Deliverable es)
    (hs : cfg.strategy es = .pipelined) (hsized : Sized cfg.numChunks es)
    (hchunks : ∀ c ∈ cfg.chunks es, c.2.length + cfg.workers < 2 ^ 31) :
    Reachable cfg.machine.drive (Calls fun es => Deliverable es ∧ cfg.Exact es)
      (· = ⟨.init 0 (fun _ => false) counting (fun _ _ => 0) fun _ => 0, []⟩)
      ⟨.init 0 (fun _ => false) counting (fun _ _ => 0) fun _ => 0, [.submitDirect es]⟩ := by
  have hexact : cfg.Exact es := by
    unfold Config.Exact
    rw [hs]
    exact ⟨hsized, hchunks⟩
  exact (Reachable.self _).step (.inl (.submitDirect es)) ⟨hd, hexact⟩ rfl

/-- A step of the gather writes to the staging buffers only. -/
private theorem gathered_eq (s : Submitter) (g : Gather.State) :
    s.gathered g = { s with staging := (s.gathered g).staging, gather := g } := by
  have hfold : ∀ (l : List (Nat × Nat)) (s : Submitter),
      l.foldl Submitter.stageTask s = { s with staging := (l.foldl Submitter.stageTask s).staging } := by
    intro l
    induction l with
    | nil => exact fun _ => rfl
    | cons x l ih =>
      intro s
      have hstage : s.stageTask x = { s with staging := (s.stageTask x).staging } := by
        unfold Submitter.stageTask
        split
        · rfl
        · split <;> rfl
      rw [List.foldl_cons, ih, hstage]
  unfold Submitter.gathered
  rw [hfold]

/-- A step that leaves what the gather writes unevaluated. -/
private def lazily (cfg : Config) (s : Script.State Submitter Call) :
    Call ⊕ Script.Act Env → Option (Script.State Submitter Call)
  | .inr (.env (.work w)) =>
    (Gather.step cfg.workers s.data.gather (.work w)).map fun g =>
      { s with data := { s.data with staging := (s.data.gathered g).staging, gather := g } }
  | .inr .perform =>
    match s.todo with
    | .dispatch :: rest =>
      (Gather.step cfg.workers s.data.gather .dispatch).map fun g =>
        ⟨{ s.data with staging := (s.data.gathered g).staging, gather := g },
          (if g.dispatcher = .idle then [] else [.dispatch]) ++ rest⟩
    | _ => cfg.machine.drive s (.inr .perform)
  | a => cfg.machine.drive s a

private theorem drive_eq_lazily (cfg : Config) : cfg.machine.drive = lazily cfg := by
  funext s a
  rcases a with c | _ | e | w
  · rfl
  · obtain ⟨data, todo⟩ := s
    rcases todo with _ | ⟨c, rest⟩
    · rfl
    · cases c with
      | dispatch =>
        simp only [Machine.drive, Machine.step, Config.machine, Config.perform, lazily, Option.map_map]
        exact congrArg (Option.map · _) (funext fun g => by
          simp only [Function.comp, ← gathered_eq])
      | _ => rfl
  · rfl
  · simp only [Machine.drive, Machine.step, Config.machine, Config.env, lazily, Option.map_map]
    exact congrArg (Option.map · _) (funext fun g => by simp only [Function.comp, ← gathered_eq])

private def performs (n : Nat) : List (Call ⊕ Script.Act Env) := List.replicate n (.inr .perform)

private def works (n : Nat) : List (Call ⊕ Script.Act Env) :=
  List.replicate n (.inr (.env (.work 0)))

private def performed (ch : Nat) : List (Call ⊕ Script.Act Env) := [.inr (.env (.advance ch))]

/-- A gather into each buffer, and the first copy performed during the second gather. -/
private def pipeline : List (Call ⊕ Script.Act Env) :=
  performs 6 ++ works 132 ++ performs 144 ++ performed 0 ++ works 132 ++ performs 138 ++
    performed 1 ++ performs 6

/-- 512 entries go through the pipeline, half of them through each staging buffer. The bytes are
those of the last entry of the first half and the second entry of the other one. -/
theorem delivers_of_reachable_pipelined : ∃ s, Delivers twoBuffers (fun _ => 0) s ∧ s.todo = [] ∧
    twoBuffers.strategy (spread 512) = .pipelined ∧ s.data.gpu 255 = 254 ∧ s.data.gpu 257 = 2 := by
  have hstrategy : twoBuffers.strategy (spread 512) = .pipelined := by decide +kernel
  have hchunks : ∀ c ∈ twoBuffers.chunks (spread 512), c.2.length + twoBuffers.workers < 2 ^ 31 := by
    decide +kernel
  have hrun : (runWhile twoBuffers.machine.drive (fun _ a => a.isRight = true)
      ⟨.init 0 (fun _ => false) counting (fun _ _ => 0) fun _ => 0, [.submitDirect (spread 512)]⟩
      pipeline).map (fun s => (s.todo.isEmpty, s.data.submitted, s.data.user 510, s.data.user 514)) =
      some (true, [spread 512], 254, 2) := by
    rw [drive_eq_lazily]
    decide +kernel
  obtain ⟨s, hs, hl⟩ := Option.map_eq_some_iff.mp hrun
  simp only [Prod.mk.injEq, List.isEmpty_iff] at hl
  obtain ⟨htodo, hsubmitted, hfirst, hsecond⟩ := hl
  have hdeliverable : Deliverable (spread 512) := deliverable_spread (Nat.le_refl _)
  have hcall := reachable_pipelined hdeliverable hstrategy sized_spread hchunks
  have hdelivers : Delivers twoBuffers (fun _ => 0) s := by
    refine delivers_of_reachable (hcall.runWhile_of (fun s a ha => ?_) hs)
    cases a with
    | inl c => cases ha
    | inr a => trivial
  exact ⟨s, hdelivers, htodo, hstrategy,
    (gpu_spread (Nat.le_refl _) hdelivers htodo hsubmitted (i := 255) (by decide)).trans hfirst,
    (gpu_spread (Nat.le_refl _) hdelivers htodo hsubmitted (i := 257) (by decide)).trans hsecond⟩

private def noBuffer : Config := ⟨3, ⟨0, 0⟩, 0, by decide, by decide, by decide⟩

/-- Two bytes apart from one another, and `n` entries without bytes. -/
private def apart (n : Nat) : List SGEntry :=
  ⟨0, .user 10, 1⟩ :: ⟨2, .user 20, 1⟩ :: List.replicate n ⟨0, .user 0, 0⟩

private theorem length_apart (n : Nat) : (apart n).length = n + 2 := by
  simp [apart]

private theorem deliverable_apart (n : Nat) : Deliverable (apart n) where
  source := by
    simp only [apart, List.forall_mem_cons]
    refine ⟨⟨10, rfl, by decide⟩, ⟨20, rfl, by decide⟩, fun e he => ?_⟩
    rw [List.eq_of_mem_replicate he]
    exact ⟨0, rfl, by decide⟩
  dst_lt := by
    simp only [apart, List.forall_mem_cons]
    refine ⟨by decide, by decide, fun e he => ?_⟩
    rw [List.eq_of_mem_replicate he]
    decide
  disjoint := by
    have hempty : ∀ a, ¬ Reaches ⟨0, .user 0, 0⟩ a := fun a ⟨k, hk, _⟩ => Nat.not_lt_zero k hk
    refine .cons (fun e he a ha ha' => ?_) (.cons (fun e he a _ ha' => ?_) ?_)
    · rcases List.mem_cons.mp he with rfl | he
      · obtain ⟨k, hk, rfl⟩ := ha
        obtain ⟨k', hk', h⟩ := ha'
        obtain rfl : k = 0 := by simpa using hk
        obtain rfl : k' = 0 := by simpa using hk'
        exact absurd h (by decide)
      · rw [List.eq_of_mem_replicate he] at ha'
        exact hempty a ha'
    · rw [List.eq_of_mem_replicate he] at ha'
      exact hempty a ha'
    · exact List.pairwise_replicate.mpr (.inr fun a ha => (hempty a ha).elim)

private theorem strategy_apart (n : Nat) : noBuffer.strategy (apart n) = .raw := by
  have hdst : dstContiguous (apart n) = false := by
    simp [apart, dstContiguous, SGEntry.dContig, word, wordSize]
  simp [Config.strategy, hdst]

/-- The chunk size of `2^31 - 2` entries is negative, and every channel gets nothing. -/
private theorem chunks_overflow {es : List SGEntry} (h : es.length = 2147483646) :
    CopyEngineManager.chunks 3 es = [(0, []), (1, []), (2, [])] := by
  have hsize : (CopyEngineManager.int32 ((es.length : Int) + (3 : Nat) - 1)).tdiv (3 : Nat) =
      -715827882 := by
    rw [h]
    decide
  have hnone : ∀ start stop : Int, stop ≤ start →
      CopyEngineManager.entriesFrom es start stop = [] := fun start stop h => by
    rw [CopyEngineManager.entriesFrom, Int.toNat_of_nonpos (by omega), List.take_zero]
  rw [CopyEngineManager.chunks, hsize, show List.range 3 = [0, 1, 2] from rfl]
  simp only [CopyEngineManager.chunkLoop, h]
  rw [if_neg (by decide), if_neg (by decide), if_neg (by decide), hnone _ _ (by decide),
    hnone _ _ (by decide), hnone _ _ (by decide)]

/-- The steps of such a submission: no copy among them. -/
private theorem body_overflow {es : List SGEntry} (h : es.length = 2147483646)
    {m : CopyEngineManager SGEntry} (hp : m.contextPinned = true) :
    (CopyEngineManager.Function.submitScatterGather es).body 3 m =
      .setNextChannel 0 :: .orDirtyMask [0, 1, 2] :: CopyEngineManager.recordSteps [0, 1, 2] := by
  have hne : es ≠ [] := List.ne_nil_of_length_pos (by omega)
  have hlong : ¬ es.length ≤ 3 := by omega
  have hmask : CopyEngineManager.thisMask 3 m.nextChannel es = [0, 1, 2] := by
    simp only [CopyEngineManager.thisMask, if_neg hlong, chunks_overflow h]
    decide
  simp only [CopyEngineManager.Function.body, if_neg hne, CopyEngineManager.withContext, if_pos hp,
    hmask, CopyEngineManager.copySteps, if_neg hlong, chunks_overflow h]
  rfl

/-- `2^31 - 2` entries for three channels: the chunk size of the submission overflows, nothing is
copied, and the call returns. -/
theorem exists_undelivered : ∃ s, Reachable noBuffer.machine.drive (Calls Deliverable)
    (· = ⟨.init 0 (fun _ => false) counting (fun _ _ => 0) fun _ => 0, []⟩) s ∧
    ¬ Delivers noBuffer (fun _ => 0) s := by
  obtain ⟨es, hes, hmem, hlen, hstrategy⟩ : ∃ es : List SGEntry, Deliverable es ∧
      (⟨0, .user 10, 1⟩ : SGEntry) ∈ es ∧ es.length = 2147483646 ∧ noBuffer.strategy es = .raw :=
    ⟨apart 2147483644, deliverable_apart _, List.mem_cons_self, length_apart _, strategy_apart _⟩
  let start : Submitter := .init 0 (fun _ => false) counting (fun _ _ => 0) fun _ => 0
  let pinned : Submitter := { start with
    manager := { start.manager with contextPinned := true, depth := 1 }
    submitted := [es] }
  have hcalls : noBuffer.submitDirect es = [.pinContext, .function (.submitScatterGather es),
      .function .waitCompletion, .unpinContext] := by
    rw [Config.submitDirect, if_neg (List.ne_nil_of_mem hmem), Config.transfer, hstrategy]
    rfl
  have hcalled : Reachable noBuffer.machine.drive (Calls Deliverable) (· = ⟨start, []⟩)
      ⟨start, [.submitDirect es]⟩ :=
    (Reachable.self _).step (.inl (.submitDirect es)) hes rfl
  have hstarted : noBuffer.machine.drive ⟨start, [.submitDirect es]⟩ (.inr .perform) =
      some ⟨{ start with submitted := [es] }, noBuffer.submitDirect es⟩ := by
    simp [Machine.drive, Machine.step, Config.machine, Config.perform, start, Submitter.init]
  rw [hcalls] at hstarted
  have hpinned := (hcalled.step (.inr .perform) trivial hstarted).step (.inr .perform) trivial
    (t := ⟨pinned, _⟩) rfl
  have hsubmitted : noBuffer.machine.drive ⟨pinned, [.function (.submitScatterGather es),
      .function .waitCompletion, .unpinContext]⟩ (.inr .perform) = some ⟨pinned,
        (Call.step (.setNextChannel 0) :: .step (.orDirtyMask [0, 1, 2]) ::
          (CopyEngineManager.recordSteps [0, 1, 2]).map Call.step) ++
            [.function .waitCompletion, .unpinContext]⟩ := by
    simp only [Machine.drive, Machine.step, Config.machine, Config.perform, Option.map_some]
    rw [show noBuffer.channels = 3 from rfl, body_overflow hlen rfl]
    rfl
  have hentered := hpinned.step (.inr .perform) trivial hsubmitted
  have hrun : (runWhile noBuffer.machine.drive (fun _ a => a.isRight = true) ⟨pinned,
      (Call.step (.setNextChannel 0) :: .step (.orDirtyMask [0, 1, 2]) ::
        (CopyEngineManager.recordSteps [0, 1, 2]).map Call.step) ++
          [.function .waitCompletion, .unpinContext]⟩ (List.replicate 11 (.inr .perform))).map
        (fun t => (t.todo, t.data.gpu 0, t.data.submitted, t.data.user 10)) =
      some ([], 0, [es], 10) := rfl
  obtain ⟨s, hs, hl⟩ := Option.map_eq_some_iff.mp hrun
  simp only [Prod.mk.injEq] at hl
  refine ⟨s, hentered.runWhile_of (fun s a ha => ?_) hs, fun hd => ?_⟩
  · cases a with
    | inl c => cases ha
    | inr a => trivial
  · have hgpu := congrFun (hd.returned hl.1) 0
    have hbyte : deliver (userByte s.data.user) (fun _ => 0) es 0 = s.data.user 10 :=
      deliver_of_mem hes hmem (k := 0) Nat.one_pos
    rw [Submitter.expected, hl.2.2.1] at hgpu
    have : s.data.gpu 0 = s.data.user 10 := hgpu.trans hbyte
    rw [hl.2.1, hl.2.2.2] at this
    exact absurd this (by decide)

end Gfd.Direct
