import GfdProof.HostThread

/-! # What the copy engine manager keeps track of

`Covered` is what `wait_completion` and `make_stream_wait_on_all` rely on: every
copy queued on a channel has been performed, or the channel is dirty and its
event was recorded behind the copy.  A submission breaks it for the channels it
uses until it has recorded their events again (`busy`).

Every call of the polling thread keeps `Covered` (`covered_calls`), so that at
any time a wait leaves no copy unperformed (`covered_waitCompletion`) and a
stream made to wait is behind every copy (`covered_makeStreamWaitOnAll`).
-/
namespace Gfd

open WorkStreams Script.Machine

/-! ## What the environment does -/

namespace Host

section Transfer
variable (s : Host) (c : Copy)

@[simp] theorem transfer_poller : (s.transfer c).poller = s.poller := by
  unfold transfer; split <;> rfl
@[simp] theorem transfer_device : (s.transfer c).device = s.device := by
  unfold transfer; split <;> rfl
@[simp] theorem transfer_gathering : (s.transfer c).gathering = s.gathering := by
  unfold transfer; split <;> rfl
@[simp] theorem transfer_user : (s.transfer c).user = s.user := by
  unfold transfer; split <;> rfl
@[simp] theorem transfer_staging : (s.transfer c).staging = s.staging := by
  unfold transfer; split <;> rfl
@[simp] theorem transfer_doneIdx : (s.transfer c).doneIdx = s.doneIdx := by
  unfold transfer; split <;> rfl
@[simp] theorem transfer_tileSignalBuf : (s.transfer c).tileSignalBuf = s.tileSignalBuf := by
  unfold transfer; split <;> rfl
@[simp] theorem transfer_listsCompleted : (s.transfer c).listsCompleted = s.listsCompleted := by
  unfold transfer; split <;> rfl

end Transfer

/-- What the device and the gather threads leave alone. -/
structure EnvStep (s t : Host) : Prop where
  poller : t.poller = s.poller
  log : t.device.log = s.device.log
  mark : t.device.mark = s.device.mark
  done_le : ∀ st, s.device.done st ≤ t.device.done st
  valid : s.device.Valid → t.device.Valid
  user : t.user = s.user
  doneIdx : t.doneIdx = s.doneIdx
  tileSignalBuf : t.tileSignalBuf = s.tileSignalBuf
  listsCompleted : t.listsCompleted = s.listsCompleted

/-- What a stream does when it performs its next item. -/
theorem advance_cases {s t : Host} {st : Stream} (h : s.advance st = some t) :
    s.device.runnable st = true ∧
      ((∃ c, s.device.next st = some (Item.work c) ∧
          t = { s with device := s.device.advance st }.transfer c) ∨
        ∃ u n, s.device.next st = some (.wait u n) ∧
          t = { s with device := s.device.advance st }) := by
  unfold advance at h
  split at h
  · rename_i hr
    refine ⟨hr, ?_⟩
    obtain ⟨x, hx⟩ := Device.runnable_next hr
    cases x with
    | work c => rw [hx] at h; exact .inl ⟨c, hx, (Option.some.inj h).symm⟩
    | wait u n => rw [hx] at h; exact .inr ⟨u, n, hx, (Option.some.inj h).symm⟩
  · cases h

theorem envStep_advance (s : Host) {st : Stream} (hr : s.device.runnable st = true) :
    EnvStep s { s with device := s.device.advance st } where
  poller := rfl
  log := rfl
  mark := rfl
  done_le u := s.device.le_advance_done st u
  valid hv := hv.advance hr
  user := rfl
  doneIdx := rfl
  tileSignalBuf := rfl
  listsCompleted := rfl

theorem EnvStep.transfer {s t : Host} (h : EnvStep s t) (c : Copy) : EnvStep s (t.transfer c) where
  poller := by rw [transfer_poller, h.poller]
  log := by rw [transfer_device, h.log]
  mark := by rw [transfer_device, h.mark]
  done_le u := by rw [transfer_device]; exact h.done_le u
  valid hv := by rw [transfer_device]; exact h.valid hv
  user := by rw [transfer_user, h.user]
  doneIdx := by rw [transfer_doneIdx, h.doneIdx]
  tileSignalBuf := by rw [transfer_tileSignalBuf, h.tileSignalBuf]
  listsCompleted := by rw [transfer_listsCompleted, h.listsCompleted]

theorem gather_cases {s t : Host} {k : Nat} (h : s.gather k = some t) :
    ∃ g e es, s.gathering = some g ∧ g.chunks[k]? = some (e :: es) ∧
      t = { s with
        staging := s.stage g e
        gathering := some { g with chunks := g.chunks.set k es } } := by
  unfold gather at h
  split at h
  · cases h
  · rename_i g hg
    split at h
    · rename_i e es he
      exact ⟨g, e, es, hg, he, (Option.some.inj h).symm⟩
    · cases h

theorem envStep {s t : Host} {e : HostEnv} (h : s.env e = some t) : EnvStep s t := by
  cases e with
  | advance st =>
    obtain ⟨hr, ⟨c, -, rfl⟩ | ⟨u, n, -, rfl⟩⟩ := advance_cases h
    · exact (s.envStep_advance hr).transfer c
    · exact s.envStep_advance hr
  | gather k =>
    obtain ⟨g, e, es, -, -, rfl⟩ := gather_cases h
    exact ⟨rfl, rfl, rfl, fun _ => Nat.le_refl _, id, rfl, rfl, rfl, rfl⟩

/-! ## Copies that will be waited for -/

/-- Item `i` of channel `ch` has been performed, or a wait for the dirty channels
waits for it. -/
def Tracked (s : Host) (ch i : Nat) : Prop :=
  i < s.device.done (.ce ch) ∨
    s.poller.dirtyMask ch = true ∧ s.device.Marked (.ce ch) (.ce ch) i

/-- Every item of channel `ch` has been performed. -/
def Drained (s : Host) (ch : Nat) : Prop :=
  ∀ i, i < (s.device.log (.ce ch)).length → i < s.device.done (.ce ch)

/-- Every item on a channel is tracked, except on the channels of a submission
under way. -/
structure Covered (cfg : Config) (busy : Nat → Prop) (s : Host) : Prop where
  valid : s.device.Valid
  next_lt : s.poller.nextChannel < cfg.channels
  dirty_lt : ∀ ch, s.poller.dirtyMask ch = true → ch < cfg.channels
  tracked : ∀ ch i, i < (s.device.log (.ce ch)).length → s.Tracked ch i ∨ busy ch

/-- No submission is under way. -/
abbrev Quiet (cfg : Config) (s : Host) : Prop := s.Covered cfg fun _ => False

variable {cfg : Config} {s t : Host} {busy busy' : Nat → Prop}

theorem Tracked.env (h : EnvStep s t) {ch i : Nat} (ht : s.Tracked ch i) : t.Tracked ch i := by
  rcases ht with hd | ⟨hd, n, hm, hi⟩
  · exact .inl (Nat.lt_of_lt_of_le hd (h.done_le _))
  · exact .inr ⟨by rw [h.poller]; exact hd, n, by rw [h.mark]; exact hm, hi⟩

theorem Drained.env (h : EnvStep s t) {ch : Nat} (hd : s.Drained ch) : t.Drained ch := by
  intro i hi
  rw [h.log] at hi
  exact Nat.lt_of_lt_of_le (hd i hi) (h.done_le _)

theorem Covered.env (h : EnvStep s t) (hs : s.Covered cfg busy) : t.Covered cfg busy where
  valid := h.valid hs.valid
  next_lt := by rw [h.poller]; exact hs.next_lt
  dirty_lt := by rw [h.poller]; exact hs.dirty_lt
  tracked ch i hi := by
    rw [h.log] at hi
    exact (hs.tracked ch i hi).imp_left (Tracked.env h)

theorem Covered.mono (hs : s.Covered cfg busy) (h : ∀ ch, busy ch → busy' ch) :
    s.Covered cfg busy' :=
  { hs with tracked := fun ch i hi => (hs.tracked ch i hi).imp_right (h ch) }

theorem covered_init (cfg : Config) (user : Nat → UInt8) (staging : Nat → Nat → UInt8)
    (gpu : Nat → UInt8) : (Host.init user staging gpu).Quiet cfg where
  valid := Device.valid_empty
  next_lt := cfg.channels_pos
  dirty_lt _ h := by cases h
  tracked _ _ hi := absurd hi (Nat.not_lt_zero _)

/-- Only the device and the manager's variables matter. -/
theorem Covered.congr (hs : s.Covered cfg busy) (hd : t.device = s.device)
    (hn : t.poller.nextChannel = s.poller.nextChannel)
    (hm : t.poller.dirtyMask = s.poller.dirtyMask) : t.Covered cfg busy where
  valid := hd ▸ hs.valid
  next_lt := hn ▸ hs.next_lt
  dirty_lt := hm ▸ hs.dirty_lt
  tracked := by
    unfold Tracked
    rw [hd, hm]
    exact hs.tracked

/-- Appending to a stream that is busy, or not a channel. -/
theorem Covered.push (hs : s.Covered cfg busy) {st : Stream} (hst : ∀ ch, st = .ce ch → busy ch)
    (x : Item Stream Copy) : ({ s with device := s.device.push st x } : Host).Covered cfg busy where
  valid := hs.valid.push st x
  next_lt := hs.next_lt
  dirty_lt := hs.dirty_lt
  tracked ch i hi := by
    by_cases h : st = .ce ch
    · exact .inr (hst ch h)
    · have hlog : (s.device.push st x).log (.ce ch) = s.device.log (.ce ch) :=
        s.device.push_log_of_ne (Ne.symm h) x
      rw [show ({ s with device := s.device.push st x } : Host).device.log (.ce ch) =
        s.device.log (.ce ch) from hlog] at hi
      exact hs.tracked ch i hi

/-- Recording an event behind everything queued on its own channel, or another event. -/
theorem Covered.record (hs : s.Covered cfg busy) {e : Event} {st : Stream}
    (he : ∀ ch, e = .ce ch → st = .ce ch) :
    ({ s with device := s.device.record e st } : Host).Covered cfg busy where
  valid := hs.valid.record e st
  next_lt := hs.next_lt
  dirty_lt := hs.dirty_lt
  tracked ch i hi := by
    refine (hs.tracked ch i hi).imp_left fun ht => ?_
    rcases ht with hd | ⟨hd, hm⟩
    · exact .inl hd
    · refine .inr ⟨hd, ?_⟩
      by_cases h : e = .ce ch
      · subst h
        rw [he ch rfl]
        exact Device.marked_record hi
      · obtain ⟨n, hm, hn⟩ := hm
        exact ⟨n, by rw [Device.record_mark_of_ne _ (Ne.symm h)]; exact hm, hn⟩

/-- Recording a dirty channel's event ends the submission to it. -/
theorem Covered.record_busy (hs : s.Covered cfg busy) {ch : Nat}
    (hd : s.poller.dirtyMask ch = true) :
    ({ s with device := s.device.record (.ce ch) (.ce ch) } : Host).Covered cfg
      fun c => busy c ∧ c ≠ ch :=
  { hs.record (fun _ h => by cases h; rfl) with
    tracked := fun c i hi => by
      by_cases h : c = ch
      · subst h
        exact .inl (.inr ⟨hd, Device.marked_record hi⟩)
      · exact ((hs.record (e := .ce ch) fun _ h => by cases h; rfl).tracked c i hi).imp_right
          fun hb => ⟨hb, h⟩ }

/-- A tracked item of a channel whose event is complete has been performed. -/
theorem Covered.drained (hs : s.Quiet cfg) {ch : Nat}
    (h : s.poller.dirtyMask ch = true → s.device.complete (.ce ch) = true) : s.Drained ch := by
  intro i hi
  rcases hs.tracked ch i hi with (hd | ⟨hd, hm⟩) | hb
  · exact hd
  · exact Device.done_of_marked hm (h hd)
  · exact hb.elim

end Host

open Host

/-! ## The channels of a submission -/

variable (cfg : Config)

theorem channelOf_lt {n next count i : Nat} (hn : 0 < n) (hi : i < count) :
    channelOf n next count i < n := by
  unfold channelOf
  split
  · exact Nat.mod_lt _ hn
  · rename_i hc
    have hpos : 0 < chunkSize n count := Nat.div_pos (by omega) hn
    rw [Nat.div_lt_iff_lt_mul hpos]
    have h := Nat.lt_div_mul_add (a := count + n - 1) hn
    unfold chunkSize
    rw [Nat.mul_comm]
    omega

theorem mem_usedChannels {n next count ch : Nat} :
    ch ∈ usedChannels n next count ↔ ch < n ∧ ∃ i < count, channelOf n next count i = ch := by
  simp [usedChannels]

theorem nextAfter_lt {n next count : Nat} (hn : 0 < n) : nextAfter n next count < n := by
  unfold nextAfter
  split
  · exact Nat.mod_lt _ hn
  · exact hn

theorem mem_dirtyChannels {p : Poller} {n ch : Nat} :
    ch ∈ p.dirtyChannels n ↔ ch < n ∧ p.dirtyMask ch = true := by simp [Poller.dirtyChannels]

/-! ## The manager's functions -/

variable {busy : Nat → Prop}

theorem stable_env {P : Host → Prop} (h : ∀ s t, Host.EnvStep s t → P s → P t) :
    cfg.machine.Stable P := fun s _ t hs he => h s t (envStep he) hs

theorem stable_covered : cfg.machine.Stable (Host.Covered cfg busy) :=
  stable_env cfg fun _ _ h hs => hs.env h

theorem stable_poller (p : Poller) : cfg.machine.Stable fun s => s.poller = p :=
  stable_env cfg fun _ _ h hs => by rw [h.poller, hs]

/-- A triple that requires nothing along the way. -/
abbrev Config.Free (P : Host → Prop) (l : List Call) (Q : Host → Prop) : Prop :=
  cfg.machine.Triple .free P l Q

theorem free_atom {P Q : Host → Prop} {c : Call} (hP : cfg.machine.Stable P)
    (hQ : cfg.machine.Stable Q)
    (hdo : ∀ s t m, P s → cfg.perform s c = some (t, m) → m = [] ∧ Q t) : cfg.Free P [c] Q :=
  Triple.atom hP (fun _ _ => trivial) (fun _ _ => trivial) hQ (fun _ _ => trivial) hdo

/-- A function call: the body is safe from wherever it is made. -/
theorem free_expand {P Q : Host → Prop} {c : Call} {body : Host → List Call}
    (hP : cfg.machine.Stable P) (hc : ∀ s, cfg.perform s c = some (s, body s))
    (hbody : ∀ s, P s → ∀ n, cfg.machine.Safe .free Q n (body s) s) : cfg.Free P [c] Q :=
  Triple.expand hP (fun _ _ => trivial) (fun _ _ => trivial) hc hbody

/-- The copies of a submission, each to a channel of the submission. -/
theorem covered_copies (busy : Nat → Prop) (cs : List (Stream × Copy))
    (h : ∀ c ∈ cs, ∀ ch, c.1 = .ce ch → busy ch) :
    cfg.Free (Host.Covered cfg busy) (cs.map fun c => .copyAsync c.1 c.2)
      (Host.Covered cfg busy) := by
  refine Triple.map (stable_covered cfg) (fun _ _ => trivial) fun c hc => ?_
  refine free_atom cfg (stable_covered cfg) (stable_covered cfg) fun s t m hs hp => ?_
  cases hp
  exact ⟨rfl, hs.push (h c hc) _⟩

/-- Recording the events of dirty channels ends the submissions to them. -/
theorem covered_records (used : List Nat) :
    cfg.Free
      (fun s => s.Covered cfg (· ∈ used) ∧ ∀ ch ∈ used, s.poller.dirtyMask ch = true)
      (used.map fun ch => .eventRecord (.ce ch) (.ce ch)) (Host.Quiet cfg) := by
  induction used with
  | nil =>
    refine (Triple.nil (stable_covered cfg) fun _ _ => trivial).conseq (fun s hs => ?_) fun _ h => h
    exact hs.1.mono fun ch h => absurd h List.not_mem_nil
  | cons ch used ih =>
    have hP : ∀ l : List Nat, cfg.machine.Stable fun s : Host =>
        s.Covered cfg (· ∈ l) ∧ ∀ ch ∈ l, s.poller.dirtyMask ch = true := fun l =>
      stable_env cfg fun _ _ h hs => ⟨hs.1.env h, by rw [h.poller]; exact hs.2⟩
    refine Triple.cons (free_atom cfg (hP _) (hP _) fun s t m hs hp => ?_) ih
    cases hp
    refine ⟨rfl, (hs.1.record_busy (hs.2 ch (List.mem_cons_self ..))).mono fun c hc => ?_,
      fun c hc => hs.2 c (List.mem_cons_of_mem _ hc)⟩
    exact (List.mem_cons.mp hc.1).resolve_left hc.2

/-- `submit_scatter_gather` -/
theorem covered_submit (cs : List Copy) :
    cfg.Free (Host.Quiet cfg) [.submit cs] (Host.Quiet cfg) := by
  refine free_expand cfg (stable_covered cfg) (fun _ => rfl) fun s hs => ?_
  unfold Config.submit
  dsimp only
  split
  · exact Triple.nil (stable_covered cfg) (fun _ _ => trivial) s hs
  · have hn := cfg.channels_pos
    have hbusy : s.Covered cfg (· ∈ usedChannels cfg.channels s.poller.nextChannel cs.length) :=
      hs.mono fun _ h => h.elim
    refine Triple.append (Q := Host.Covered cfg
      (· ∈ usedChannels cfg.channels s.poller.nextChannel cs.length)) ?_
      (Triple.cons ?_ (covered_records cfg _)) s hbusy
    · have h := covered_copies cfg (· ∈ usedChannels cfg.channels s.poller.nextChannel cs.length)
        (cs.zipIdx.map fun c =>
          (Stream.ce (channelOf cfg.channels s.poller.nextChannel cs.length c.2), c.1)) ?_
      · rwa [List.map_map] at h
      · intro c hc ch hch
        obtain ⟨⟨x, i⟩, hx, rfl⟩ := List.mem_map.mp hc
        have hi : i < cs.length := by
          have := List.mem_zipIdx hx
          omega
        cases hch
        exact mem_usedChannels.mpr ⟨channelOf_lt hn hi, i, hi, rfl⟩
    · refine free_atom cfg (stable_covered cfg) (stable_env cfg fun _ _ h hs =>
        ⟨hs.1.env h, by rw [h.poller]; exact hs.2⟩) fun u t m hu hp => ?_
      cases hp
      refine ⟨rfl, ⟨hu.valid, nextAfter_lt hn, fun ch hch => ?_, fun ch i hi => ?_⟩, ?_⟩
      · rcases Bool.or_eq_true_iff.mp hch with h | h
        · exact hu.dirty_lt ch h
        · exact (mem_usedChannels.mp (by simpa using h)).1
      · refine (hu.tracked ch i hi).imp_left fun ht => ht.imp_right fun h => ⟨?_, h.2⟩
        simp [h.1]
      · intro ch hch
        simp only [Bool.or_eq_true, List.contains_iff_mem]
        exact .inr hch

/-- Waiting for channels one after the other. -/
theorem drained_sync (p : Poller) (waited chs : List Nat) :
    cfg.Free (fun s => s.Quiet cfg ∧ s.poller = p ∧ ∀ ch ∈ waited, s.Drained ch)
      (chs.map fun ch => .eventSynchronize (.ce ch))
      (fun s => s.Quiet cfg ∧ s.poller = p ∧ ∀ ch ∈ waited ++ chs, s.Drained ch) := by
  have hP : ∀ l : List Nat, cfg.machine.Stable fun s : Host =>
      s.Quiet cfg ∧ s.poller = p ∧ ∀ ch ∈ l, s.Drained ch := fun l =>
    stable_env cfg fun _ _ h hs =>
      ⟨hs.1.env h, h.poller.trans hs.2.1, fun ch hch => (hs.2.2 ch hch).env h⟩
  induction chs generalizing waited with
  | nil => rw [List.append_nil]; exact Triple.nil (hP _) fun _ _ => trivial
  | cons ch chs ih =>
    have := ih (waited ++ [ch])
    rw [List.append_assoc, List.singleton_append] at this
    refine Triple.cons (free_atom cfg (hP _) (hP _) fun s t m hs hp => ?_) this
    simp only [Config.perform] at hp
    split at hp
    · rename_i hc
      cases hp
      refine ⟨rfl, hs.1, hs.2.1, fun c hc' => ?_⟩
      rcases List.mem_append.mp hc' with h | h
      · exact hs.2.2 c h
      · rw [List.mem_singleton.mp h]
        exact hs.1.drained fun _ => hc
    · cases hp

/-- **`wait_completion` waits for every copy.** -/
theorem covered_waitCompletion :
    cfg.Free (Host.Quiet cfg) [.waitCompletion] fun s => s.Quiet cfg ∧ ∀ ch, s.Drained ch := by
  refine free_expand cfg (stable_covered cfg) (fun _ => rfl) fun s hs => ?_
  refine Triple.append (drained_sync cfg s.poller [] _) ?_ s ⟨hs, rfl, fun _ h => absurd h List.not_mem_nil⟩
  refine free_atom cfg ?_ ?_ fun u t m hu hp => ?_
  · exact stable_env cfg fun _ _ h hs =>
      ⟨hs.1.env h, h.poller.trans hs.2.1, fun ch hch => (hs.2.2 ch hch).env h⟩
  · exact stable_env cfg fun _ _ h hs => ⟨hs.1.env h, fun ch => (hs.2 ch).env h⟩
  · obtain ⟨hq, hpoller, hdrained⟩ := hu
    have hall : ∀ ch, u.Drained ch := fun ch => by
      by_cases hd : u.poller.dirtyMask ch = true
      · exact hdrained ch (mem_dirtyChannels.mpr ⟨hq.dirty_lt ch hd, hpoller ▸ hd⟩)
      · exact hq.drained fun h => absurd h hd
    cases hp
    exact ⟨rfl, ⟨hq.valid, hq.next_lt, nofun, fun ch i hi => .inl (.inl (hall ch i hi))⟩, hall⟩

/-! ### A stream behind every copy -/

/-- Every item of channel `ch` comes before what is queued on `st` from now on. -/
def Host.Fenced (s : Host) (st : Stream) (ch : Nat) : Prop :=
  ∀ i, i < (s.device.log (.ce ch)).length →
    s.device.Precedes (.ce ch) i st (s.device.log st).length

theorem Host.Fenced.env {s t : Host} (h : Host.EnvStep s t) {st : Stream} {ch : Nat}
    (hf : s.Fenced st ch) : t.Fenced st ch := by
  intro i hi
  unfold Device.Precedes
  rw [h.log] at hi ⊢
  exact hf i hi

theorem Host.waitEvent_log_ce (s : Host) (e : Event) (ch : Nat) :
    (s.device.waitEvent .signal e).log (.ce ch) = s.device.log (.ce ch) :=
  s.device.waitEvent_log_of_ne (fun h : Stream.ce ch = .signal => by cases h) e

theorem Host.Fenced.wait {s : Host} {c ch : Nat} (hf : s.Fenced .signal ch) (e : Event) :
    ({ s with device := s.device.waitEvent .signal e } : Host).Fenced .signal c ∨ c ≠ ch := by
  by_cases h : c = ch
  · subst h
    left
    intro i hi
    have hi' : i < (s.device.log (.ce c)).length := by rw [← s.waitEvent_log_ce e]; exact hi
    exact ((hf i hi').grows (s.device.grows_waitEvent .signal e)).mono
      (s.device.grows_waitEvent .signal e .signal).length_le
  · exact .inr h

/-- Making the signal stream wait for channels one after the other. -/
theorem fenced_waits (p : Poller) (fenced chs : List Nat) :
    cfg.Free (fun s => s.Quiet cfg ∧ s.poller = p ∧ ∀ ch ∈ fenced, s.Fenced .signal ch)
      (chs.flatMap fun ch => [.eventRecord (.ce ch) (.ce ch), .streamWaitEvent .signal (.ce ch)])
      (fun s => s.Quiet cfg ∧ s.poller = p ∧ ∀ ch ∈ fenced ++ chs, s.Fenced .signal ch) := by
  have hP : ∀ l : List Nat, cfg.machine.Stable fun s : Host =>
      s.Quiet cfg ∧ s.poller = p ∧ ∀ ch ∈ l, s.Fenced .signal ch := fun l =>
    stable_env cfg fun _ _ h hs =>
      ⟨hs.1.env h, h.poller.trans hs.2.1, fun ch hch => (hs.2.2 ch hch).env h⟩
  induction chs generalizing fenced with
  | nil => rw [List.append_nil]; exact Triple.nil (hP _) fun _ _ => trivial
  | cons ch chs ih =>
    have hrest := ih (fenced ++ [ch])
    rw [List.append_assoc, List.singleton_append] at hrest
    -- between the two calls, the event marks the end of the channel
    have hMid : cfg.machine.Stable fun s : Host =>
        (s.Quiet cfg ∧ s.poller = p ∧ ∀ c ∈ fenced, s.Fenced .signal c) ∧
          ∀ i, i < (s.device.log (.ce ch)).length → s.device.Marked (.ce ch) (.ce ch) i :=
      (hP fenced).and (stable_env cfg fun s t h hs i hi => by
        rw [h.log] at hi
        obtain ⟨n, hm, hn⟩ := hs i hi
        exact ⟨n, by rw [h.mark]; exact hm, hn⟩)
    refine Triple.cons (free_atom cfg (hP _) hMid fun s t m hs hp => ?_)
      (Triple.cons (free_atom cfg hMid (hP _) fun s t m hs hp => ?_) hrest)
    · cases hp
      exact ⟨rfl, ⟨hs.1.record fun _ h => by cases h; rfl, hs.2.1, hs.2.2⟩,
        fun i hi => Device.marked_record hi⟩
    · obtain ⟨⟨hq, hpoller, hfenced⟩, hmark⟩ := hs
      cases hp
      refine ⟨rfl, ⟨hq.valid.waitEvent _ _, hq.next_lt, hq.dirty_lt, fun c i hi => ?_⟩, hpoller,
        fun c hc => ?_⟩
      · have := hq.tracked c i (by rw [← s.waitEvent_log_ce (.ce ch)]; exact hi)
        simpa [Host.Tracked, Device.Marked] using this
      · rcases List.mem_append.mp hc with h | h
        · exact ((hfenced c h).wait (c := c) _).resolve_right fun hne => hne rfl
        · rw [List.mem_singleton.mp h]
          intro i hi
          have hi' : i < (s.device.log (.ce ch)).length := by
            rw [← s.waitEvent_log_ce (.ce ch)]; exact hi
          obtain ⟨n, hm, hn⟩ := hmark i hi'
          have hd : s.device.waitEvent .signal (.ce ch) = s.device.push .signal (.wait (.ce ch) n) := by
            unfold Device.waitEvent
            rw [hm]
          refine .inr ⟨(s.device.log .signal).length, n, ?_, ?_, hn⟩
          · show _ < ((s.device.waitEvent .signal (.ce ch)).log .signal).length
            rw [hd]
            simp
          · show ((s.device.waitEvent .signal (.ce ch)).log .signal)[_]? = _
            rw [hd]
            simp

/-- **`make_stream_wait_on_all` puts the signal stream behind every copy.** -/
theorem covered_makeStreamWaitOnAll :
    cfg.Free (Host.Quiet cfg) [.makeStreamWaitOnAll .signal] fun s =>
      s.Quiet cfg ∧ ∀ ch, s.Drained ch ∨ s.Fenced .signal ch := by
  refine free_expand cfg (stable_covered cfg) (fun _ => rfl) fun s hs => ?_
  refine (fenced_waits cfg s.poller [] _).conseq (fun _ h => h) (fun u hu => ?_) s
    ⟨hs, rfl, fun _ h => absurd h List.not_mem_nil⟩
  obtain ⟨hq, hpoller, hfenced⟩ := hu
  refine ⟨hq, fun ch => ?_⟩
  by_cases hd : u.poller.dirtyMask ch = true
  · exact .inr (hfenced ch (mem_dirtyChannels.mpr ⟨hq.dirty_lt ch hd, hpoller ▸ hd⟩))
  · -- a channel that is not dirty has nothing left to perform
    exact .inl (hq.drained fun h => absurd h hd)

/-! ## Every call of the thread -/

/-- The calls made outside a submission. -/
def Call.Outer : Call → Prop
  | .copyAsync st _ => st = .signal
  | .eventRecord e st => ∀ ch, e = .ce ch → st = .ce ch
  | .recordEventOnLastStream e => ∀ ch, e ≠ .ce ch
  | .makeStreamWaitOnAll st => st = .signal
  | .streamWaitEvent _ _ | .submitted _ _ | .clearDirty => False
  | _ => True

theorem outer_tileSignals (tiles : List Nat) : ∀ c ∈ Config.tileSignals tiles, c.Outer := by
  have heach : ∀ c ∈ tiles.map fun t => Call.copyAsync .signal (.tileSignal true t 1), c.Outer := by
    intro c hc
    obtain ⟨t, -, rfl⟩ := List.mem_map.mp hc
    exact rfl
  unfold Config.tileSignals
  dsimp only
  split
  · exact heach
  · split
    · intro c hc
      rw [List.mem_singleton.mp hc]
      exact rfl
    · exact heach

theorem outer_processBatchTiled (groups : List (Nat × List Descriptor)) :
    ∀ c ∈ cfg.processBatchTiled groups, c.Outer := by
  intro c hc
  unfold Config.processBatchTiled at hc
  dsimp only at hc
  rcases List.mem_append.mp hc with h | h
  · rcases List.mem_append.mp h with h | h
    · split at h
      · obtain ⟨g, -, rfl⟩ := List.mem_map.mp h; trivial
      · cases h
    · obtain ⟨es, -, rfl⟩ := List.mem_map.mp h; trivial
  · split at h
    · split at h
      · rcases List.mem_cons.mp h with rfl | h
        · exact rfl
        · exact outer_tileSignals _ c h
      · rw [List.mem_singleton.mp h]; trivial
    · cases h

theorem outer_processBatchSg (groups : List (Nat × List Descriptor)) :
    ∀ c ∈ cfg.processBatchSg groups, c.Outer := by
  intro c hc
  unfold Config.processBatchSg at hc
  rcases List.mem_append.mp hc with h | h
  · obtain ⟨g, -, rfl⟩ := List.mem_map.mp h; trivial
  · split at h
    · rcases List.mem_append.mp h with h | h
      · rcases List.mem_cons.mp h with rfl | h
        · exact rfl
        · obtain ⟨g, -, h⟩ := List.mem_flatMap.mp h
          split at h
          · rcases List.mem_pair.mp h with rfl | rfl
            · trivial
            · exact rfl
          · cases h
      · rw [List.mem_singleton.mp h]; trivial
    · split at h
      · rcases List.mem_append.mp h with h | h
        · rcases List.mem_cons.mp h with rfl | h
          · trivial
          · split at h
            · obtain ⟨g, -, rfl⟩ := List.mem_map.mp h; trivial
            · cases h
        · rw [List.mem_singleton.mp h]; trivial
      · cases h

theorem outer_flushBatch (batch : List Descriptor) (orFlags curRead : Nat) :
    ∀ c ∈ cfg.flushBatch batch orFlags curRead, c.Outer := by
  intro c hc
  unfold Config.flushBatch at hc
  dsimp only at hc
  split at hc
  · cases hc
  · split at hc
    · rcases List.mem_pair.mp hc with rfl | rfl <;> trivial
    · split at hc
      · split at hc
        · rcases List.mem_pair.mp hc with rfl | rfl <;> trivial
        · rcases List.mem_append.mp hc with h | h
          · rcases List.mem_pair.mp h with rfl | rfl <;> trivial
          · split at h
            · rw [List.mem_singleton.mp h]; trivial
            · cases h
      · rcases List.mem_append.mp hc with h | h
        · rcases List.mem_pair.mp h with rfl | rfl <;> trivial
        · split at h
          · obtain ⟨d, -, rfl⟩ := List.mem_map.mp h; trivial
          · cases h

theorem Host.storeTile_frame (s : Host) (dev : Bool) (t : Nat) :
    (s.storeTile dev t).device = s.device ∧ (s.storeTile dev t).poller = s.poller := by
  cases dev <;> exact ⟨rfl, rfl⟩

theorem Host.Covered.tileStep {s : Host} (hs : s.Quiet cfg) (dev : Bool) (d : Descriptor) :
    (s.tileStep dev d).Quiet cfg := by
  unfold Host.tileStep
  dsimp only
  split
  · split
    · obtain ⟨hd, hp⟩ := Host.storeTile_frame { s with
        poller := { s.poller with
          tileProgress := Function.update s.poller.tileProgress d.group
            (word (s.poller.tileProgress d.group + 1)) } } dev d.group
      exact hs.congr hd (by rw [hp]) (by rw [hp])
    · exact hs.congr rfl rfl rfl
  · exact hs

/-- A call whose first step keeps `Quiet` and expands into calls made outside a submission. -/
theorem outer_step {c : Call}
    (h : ∀ s t m, s.Quiet cfg → cfg.perform s c = some (t, m) → t.Quiet cfg ∧ ∀ c' ∈ m, c'.Outer) :
    cfg.Free (Host.Quiet cfg) [c] (Host.Quiet cfg) ∨ ∀ s, s.Quiet cfg →
      (.free : Spec Host Call).pre c s ∧
        ∀ t m, cfg.machine.perform s c = some (t, m) → t.Quiet cfg ∧ ∀ c' ∈ m, c'.Outer :=
  .inr fun s hs => ⟨trivial, fun t m hp => h s t m hs hp⟩

/-- **Every call of the thread keeps track of every copy.** -/
theorem covered_calls {l : List Call} (hl : ∀ c ∈ l, c.Outer) :
    cfg.Free (Host.Quiet cfg) l (Host.Quiet cfg) := by
  refine Triple.closed (stable_covered cfg) (fun _ _ => trivial) (fun c hc => ?_) hl
  cases c with
  | submit cs => exact .inl (covered_submit cfg cs)
  | waitCompletion => exact .inl ((covered_waitCompletion cfg).conseq (fun _ h => h) fun _ h => h.1)
  | makeStreamWaitOnAll st =>
    obtain rfl : st = .signal := hc
    exact .inl ((covered_makeStreamWaitOnAll cfg).conseq (fun _ h => h) fun _ h => h.1)
  | streamWaitEvent | submitted | clearDirty => exact hc.elim
  | copyAsync st c =>
    obtain rfl : st = .signal := hc
    refine outer_step cfg fun s t m hs hp => ?_
    cases hp
    exact ⟨hs.push (fun _ h => by cases h) _, List.forall_mem_nil _⟩
  | eventRecord e st =>
    refine outer_step cfg fun s t m hs hp => ?_
    cases hp
    exact ⟨hs.record hc, List.forall_mem_nil _⟩
  | recordEventOnLastStream e =>
    refine outer_step cfg fun s t m hs hp => ?_
    cases hp
    exact ⟨hs.record fun ch h => absurd h (hc ch), List.forall_mem_nil _⟩
  | eventSynchronize e =>
    refine outer_step cfg fun s t m hs hp => ?_
    simp only [Config.perform] at hp
    split at hp
    · cases hp; exact ⟨hs, List.forall_mem_nil _⟩
    · cases hp
  | gatherWait =>
    refine outer_step cfg fun s t m hs hp => ?_
    simp only [Config.perform] at hp
    split at hp
    · split at hp
      · cases hp; exact ⟨hs.congr rfl rfl rfl, List.forall_mem_nil _⟩
      · cases hp
    · cases hp
  | processBatch batch =>
    refine outer_step cfg fun s t m hs hp => ?_
    cases hp
    refine ⟨hs, ?_⟩
    unfold Config.processBatch
    dsimp only
    split <;> simp only [List.forall_mem_cons]
    · exact ⟨trivial, List.forall_mem_nil _⟩
    · exact ⟨trivial, trivial, trivial, trivial, (fun _ h => by cases h), trivial, List.forall_mem_nil _⟩
  | stagingWait b =>
    refine outer_step cfg fun s t m hs hp => ?_
    cases hp
    refine ⟨hs, ?_⟩
    split
    · simp only [List.forall_mem_cons]
      exact ⟨trivial, trivial, List.forall_mem_nil _⟩
    · exact List.forall_mem_nil _
  | processBatchNoCe batch =>
    refine outer_step cfg fun s t m hs hp => ?_
    cases hp
    exact ⟨hs, List.forall_mem_map.mpr fun _ _ => trivial⟩
  | processBatchTiled batch =>
    refine outer_step cfg fun s t m hs hp => ?_
    cases hp
    exact ⟨hs.congr rfl rfl rfl, outer_processBatchTiled cfg _⟩
  | processBatchSg batch =>
    refine outer_step cfg fun s t m hs hp => ?_
    cases hp
    exact ⟨hs.congr rfl rfl rfl, outer_processBatchSg cfg _⟩
  | flushBatch batch orFlags curRead =>
    refine outer_step cfg fun s t m hs hp => ?_
    cases hp
    exact ⟨hs, outer_flushBatch cfg batch orFlags curRead⟩
  | pushTileEvent batch curRead =>
    refine outer_step cfg fun s t m hs hp => ?_
    cases hp
    exact ⟨(hs.record fun _ h => by cases h).congr rfl rfl rfl, List.forall_mem_nil _⟩
  | tileStep d =>
    refine outer_step cfg fun s t m hs hp => ?_
    cases hp
    exact ⟨hs.tileStep cfg _ d, List.forall_mem_nil _⟩
  | storeTile dev id =>
    refine outer_step cfg fun s t m hs hp => ?_
    cases hp
    obtain ⟨hd, hpoller⟩ := s.storeTile_frame dev id
    exact ⟨hs.congr hd (by rw [hpoller]) (by rw [hpoller]), List.forall_mem_nil _⟩
  | pollTileEvents =>
    refine outer_step cfg fun s t m hs hp => ?_
    cases hp
    refine ⟨hs, ?_⟩
    unfold Config.pollTileEvents
    dsimp only
    split
    · refine List.forall_mem_append.mpr ⟨List.forall_mem_map.mpr fun _ _ => trivial, ?_⟩
      simp only [List.forall_mem_cons]
      exact ⟨trivial, trivial, trivial, trivial, List.forall_mem_nil _⟩
    · exact List.forall_mem_nil _
  | drainTileEvents =>
    refine outer_step cfg fun s t m hs hp => ?_
    cases hp
    refine ⟨hs, ?_⟩
    unfold Config.drainTileEvents
    dsimp only
    split
    · refine List.forall_mem_append.mpr ⟨List.forall_mem_map.mpr fun _ _ => trivial, ?_⟩
      simp only [List.forall_mem_cons]
      exact ⟨trivial, trivial, trivial, List.forall_mem_nil _⟩
    · exact List.forall_mem_nil _
  | idle =>
    refine outer_step cfg fun s t m hs hp => ?_
    cases hp
    refine ⟨hs, ?_⟩
    unfold Config.idle
    split
    · exact List.forall_mem_singleton.mpr trivial
    · split
      · simp only [List.forall_mem_cons]
        exact ⟨trivial, trivial, List.forall_mem_nil _⟩
      · exact List.forall_mem_nil _
  | finish =>
    refine outer_step cfg fun s t m hs hp => ?_
    cases hp
    refine ⟨hs, ?_⟩
    unfold Config.finish
    split <;> simp only [List.forall_mem_append, List.forall_mem_cons]
    · exact ⟨⟨trivial, trivial, trivial, List.forall_mem_nil _⟩, trivial, trivial, List.forall_mem_nil _⟩
    · exact ⟨List.forall_mem_nil _, trivial, trivial, List.forall_mem_nil _⟩
  | settleStaging =>
    refine outer_step cfg fun s t m hs hp => ?_
    cases hp
    refine ⟨hs, ?_⟩
    unfold Config.settleStaging
    split
    · simp only [List.forall_mem_cons]
      exact ⟨trivial, trivial, List.forall_mem_nil _⟩
    · exact List.forall_mem_nil _
  | settleAsync =>
    refine outer_step cfg fun s t m hs hp => ?_
    cases hp
    refine ⟨hs, ?_⟩
    unfold Config.settleAsync
    split
    · simp only [List.forall_mem_cons]
      exact ⟨trivial, trivial, trivial, List.forall_mem_nil _⟩
    · exact List.forall_mem_nil _
  | stagingDone | stagingSent | parallelGather | memcpy | addProgress | storeSignal | storeListDone
  | addListsCompleted | setAsync | clearAsync | storeDone | publishDone | raiseDone
  | retireTileEvent | asyncWhileInflight | clearInflight =>
    refine outer_step cfg fun s t m hs hp => ?_
    cases hp
    exact ⟨hs.congr rfl rfl rfl, List.forall_mem_nil _⟩

/-! ## What is queued stays queued -/

theorem grows_perform {s t : Host} {c : Call} {m : List Call} (hp : cfg.perform s c = some (t, m)) :
    s.device.Grows t.device := by
  cases c with
  | copyAsync st c => cases hp; exact s.device.grows_submit st c
  | streamWaitEvent st e => cases hp; exact s.device.grows_waitEvent st e
  | eventSynchronize e =>
    simp only [Config.perform] at hp
    split at hp
    · cases hp; exact Device.Grows.refl _
    · cases hp
  | gatherWait =>
    simp only [Config.perform] at hp
    split at hp
    · split at hp
      · cases hp; exact Device.Grows.refl _
      · cases hp
    · cases hp
  | tileStep d =>
    cases hp
    unfold Host.tileStep
    dsimp only
    split
    · split
      · rw [(Host.storeTile_frame _ _ _).1]
      · exact Device.Grows.refl _
    · exact Device.Grows.refl _
  | storeTile dev t => cases hp; rw [(s.storeTile_frame dev t).1]
  | _ => cases hp; exact Device.Grows.refl _

/-- What can only be gained as logs grow is kept by every call. -/
theorem upward_calls {P : Host → Prop} (hP : ∀ s t : Host, s.device.Grows t.device → P s → P t)
    (l : List Call) : cfg.Free P l P := by
  have hst : cfg.machine.Stable P :=
    stable_env cfg fun s t h hs => hP s t (fun st => by rw [h.log]) hs
  refine Triple.closed (K := fun _ => True) hst (fun _ _ => trivial) (fun c _ => .inr fun s hs =>
    ⟨trivial, fun t m hp => ⟨hP s t (grows_perform cfg hp) hs, fun _ _ => trivial⟩⟩)
    fun _ _ => trivial

/-- The copy has been queued on a channel. -/
def Host.Queued (s : Host) (c : Copy) : Prop :=
  ∃ ch i, s.device.WorkAt (.ce ch) i c

theorem Host.Queued.grows {s t : Host} {c : Copy} (h : s.device.Grows t.device) (hq : s.Queued c) :
    t.Queued c := by
  obtain ⟨ch, i, hi⟩ := hq
  exact ⟨ch, i, hi.grows h⟩

/-- A submission queues each of its copies. -/
theorem queued_submit {cs : List Copy} {c : Copy} (hc : c ∈ cs) :
    cfg.Free (fun _ => True) [.submit cs] fun s => s.Queued c := by
  refine free_expand cfg (stable_env cfg fun _ _ _ _ => trivial) (fun _ => rfl) fun s _ => ?_
  unfold Config.submit
  dsimp only
  rw [if_neg fun h => by rw [h] at hc; cases hc]
  obtain ⟨i, hi⟩ := List.mem_iff_getElem?.mp hc
  obtain ⟨pre, post, hsplit⟩ := List.append_of_mem
    (show (c, i) ∈ cs.zipIdx from List.mem_zipIdx_iff_getElem?.mpr hi)
  rw [hsplit, List.map_append, List.map_cons, List.append_assoc, List.cons_append]
  refine Triple.append (upward_calls cfg (P := fun _ => True) (fun _ _ _ h => h) _)
    (Triple.cons ?_ (upward_calls cfg (fun _ _ h hq => hq.grows h) _)) s trivial
  refine free_atom cfg (stable_env cfg fun _ _ _ _ => trivial)
    (stable_env cfg fun _ _ h hq => hq.grows fun st => by rw [h.log]) fun u t m _ hp => ?_
  cases hp
  exact ⟨rfl, _, _, u.device.workAt_submit_self _ c⟩

/-! ## What moving data leaves alone -/

/-- The calls that only queue copies that meet `φ`, on channels, and use the events and
staging buffers. -/
def Call.Moves (φ : Copy → Prop) : Call → Prop
  | .copyAsync st c => (∃ ch, st = .ce ch) ∧ φ c
  | .eventRecord e _ | .recordEventOnLastStream e => ∀ slot, e ≠ .tile slot
  | .submit cs => ∀ c ∈ cs, φ c
  | .processBatch batch => ∀ e, φ (.data e batch)
  | .streamWaitEvent st _ | .makeStreamWaitOnAll st => st = .signal
  | .eventSynchronize _ | .submitted _ _ | .waitCompletion | .clearDirty | .stagingWait _
  | .stagingDone _ | .stagingSent _ | .parallelGather _ _ _ | .gatherWait => True
  | _ => False

/-- The difference one such call can make. -/
structure Host.Moved (φ : Copy → Prop) (s t : Host) : Prop where
  user : t.user = s.user
  gpu : t.gpu = s.gpu
  doneIdx : t.doneIdx = s.doneIdx
  tileSignalBuf : t.tileSignalBuf = s.tileSignalBuf
  tileChunkDone : t.tileChunkDone = s.tileChunkDone
  dTileChunkDone : t.dTileChunkDone = s.dTileChunkDone
  dListDone : t.dListDone = s.dListDone
  listsCompleted : t.listsCompleted = s.listsCompleted
  hasAsyncDma : t.poller.hasAsyncDma = s.poller.hasAsyncDma
  latestAsyncRead : t.poller.latestAsyncRead = s.poller.latestAsyncRead
  tileProgress : t.poller.tileProgress = s.poller.tileProgress
  tileEventsInflight : t.poller.tileEventsInflight = s.poller.tileEventsInflight
  bucketMap : t.poller.bucketMap = s.poller.bucketMap
  sgBucketMap : t.poller.sgBucketMap = s.poller.sgBucketMap
  done : t.device.done = s.device.done
  valid : s.device.Valid → t.device.Valid
  grows : s.device.Grows t.device
  work : ∀ st i c, t.device.WorkAt st i c →
    s.device.WorkAt st i c ∨ (∃ ch, st = .ce ch) ∧ φ c

variable {φ : Copy → Prop}

theorem Host.Moved.refl (s : Host) : s.Moved φ s where
  user := rfl
  gpu := rfl
  doneIdx := rfl
  tileSignalBuf := rfl
  tileChunkDone := rfl
  dTileChunkDone := rfl
  dListDone := rfl
  listsCompleted := rfl
  hasAsyncDma := rfl
  latestAsyncRead := rfl
  tileProgress := rfl
  tileEventsInflight := rfl
  bucketMap := rfl
  sgBucketMap := rfl
  done := rfl
  valid := id
  grows := Device.Grows.refl _
  work _ _ _ h := .inl h

/-- Appending an item, which is no work or work that meets `φ` on a channel. -/
theorem Host.Moved.push (s : Host) {st : Stream} {x : Item Stream Copy}
    (hx : ∀ c, x = .work c → (∃ ch, st = .ce ch) ∧ φ c) :
    s.Moved φ { s with device := s.device.push st x } :=
  { (Host.Moved.refl s : s.Moved φ s) with
    valid := fun hv => hv.push st x
    grows := s.device.grows_push st x
    work := fun _ _ c h => (s.device.workAt_push h).imp_right fun ⟨hu, _, hc⟩ => hu ▸ hx c hc }

theorem Host.Moved.record (s : Host) (e : Event) (st : Stream) :
    s.Moved φ { s with device := s.device.record e st } :=
  { (Host.Moved.refl s : s.Moved φ s) with valid := fun hv => hv.record e st }

theorem Host.Moved.waitEvent (s : Host) (e : Event) (st : Stream) :
    s.Moved φ { s with device := s.device.waitEvent st e } :=
  { (Host.Moved.refl s : s.Moved φ s) with
    done := s.device.waitEvent_done st e
    valid := fun hv => hv.waitEvent st e
    grows := s.device.grows_waitEvent st e
    work := fun _ _ _ h => .inl (s.device.workAt_waitEvent h) }

/-- The variables the manager and the staging buffers use. -/
theorem Host.Moved.setPoller (s : Host) (next : Nat) (mask : Nat → Bool) (cur : Nat)
    (pending : Nat → Bool) (inflight : Int) :
    s.Moved φ { s with
      poller := { s.poller with
        nextChannel := next
        dirtyMask := mask
        stagingCur := cur
        stagingEventPending := pending
        stagingInflightCount := inflight } } :=
  { (Host.Moved.refl s : s.Moved φ s) with }

theorem moves_submit {p : Poller} {cs : List Copy} (h : ∀ c ∈ cs, φ c) :
    ∀ c ∈ cfg.submit p cs, c.Moves φ := by
  unfold Config.submit
  dsimp only
  split
  · exact List.forall_mem_nil _
  · refine List.forall_mem_append.mpr ⟨List.forall_mem_map.mpr fun c hc => ?_,
      List.forall_mem_cons.mpr ⟨trivial, List.forall_mem_map.mpr fun _ _ => nofun⟩⟩
    exact ⟨⟨_, rfl⟩, h c.1 (List.fst_mem_of_mem_zipIdx hc)⟩

/-- What a moving call does, and that it expands into moving calls. -/
theorem moved_perform {s t : Host} {c : Call} {m : List Call} (hc : c.Moves φ)
    (hp : cfg.perform s c = some (t, m)) : s.Moved φ t ∧ ∀ c' ∈ m, c'.Moves φ := by
  cases c with
  | copyAsync st c =>
    cases hp
    exact ⟨.push s fun c' h => by cases h; exact hc, List.forall_mem_nil _⟩
  | eventRecord e st => cases hp; exact ⟨.record s e st, List.forall_mem_nil _⟩
  | recordEventOnLastStream e => cases hp; exact ⟨.record s e _, List.forall_mem_nil _⟩
  | streamWaitEvent st e => cases hp; exact ⟨.waitEvent s e st, List.forall_mem_nil _⟩
  | eventSynchronize e =>
    simp only [Config.perform] at hp
    split at hp
    · cases hp; exact ⟨.refl s, List.forall_mem_nil _⟩
    · cases hp
  | submit cs => cases hp; exact ⟨.refl s, moves_submit cfg hc⟩
  | waitCompletion =>
    cases hp
    refine ⟨.refl s, ?_⟩
    exact List.forall_mem_append.mpr ⟨List.forall_mem_map.mpr fun _ _ => trivial,
      List.forall_mem_singleton.mpr trivial⟩
  | makeStreamWaitOnAll st =>
    cases hp
    refine ⟨.refl s, fun c hc' => ?_⟩
    obtain ⟨ch, -, h⟩ := List.mem_flatMap.mp hc'
    rcases List.mem_pair.mp h with rfl | rfl
    · exact nofun
    · exact hc
  | processBatch batch =>
    cases hp
    refine ⟨.refl s, ?_⟩
    have hdata : ∀ es, ∀ c ∈ Config.dataCopies batch es, φ c := fun es =>
      List.forall_mem_map.mpr fun e _ => hc e
    unfold Config.processBatch
    dsimp only
    split
    · exact List.forall_mem_singleton.mpr (hdata _)
    · simp only [List.forall_mem_cons]
      exact ⟨trivial, trivial, trivial, hdata _, nofun, trivial, List.forall_mem_nil _⟩
  | stagingWait b =>
    cases hp
    refine ⟨.refl s, ?_⟩
    split
    · simp only [List.forall_mem_cons]
      exact ⟨trivial, trivial, List.forall_mem_nil _⟩
    · exact List.forall_mem_nil _
  | gatherWait =>
    simp only [Config.perform] at hp
    split at hp
    · split at hp
      · cases hp; exact ⟨{ (Host.Moved.refl s : s.Moved φ s) with }, List.forall_mem_nil _⟩
      · cases hp
    · cases hp
  | parallelGather es b base =>
    cases hp
    exact ⟨{ (Host.Moved.refl s : s.Moved φ s) with }, List.forall_mem_nil _⟩
  | submitted | clearDirty | stagingDone | stagingSent =>
    cases hp
    exact ⟨.setPoller s _ _ _ _ _, List.forall_mem_nil _⟩
  | _ => exact hc.elim

/-- **The frame of moving data.**  An assertion kept by the environment and by every difference a
moving call can make is kept by moving calls. -/
theorem moved_triple {S : Spec Host Call} {P : Host → Prop} (hP : cfg.machine.Stable P)
    (hinv : ∀ s, P s → S.inv s) (hpre : ∀ c s, c.Moves φ → P s → S.pre c s)
    (hmove : ∀ s t, s.Moved φ t → P s → P t) {l : List Call} (hl : ∀ c ∈ l, c.Moves φ) :
    cfg.machine.Triple S P l P := by
  refine Triple.closed hP hinv (fun c hc => .inr fun s hs => ⟨hpre c s hc hs, fun t m hp => ?_⟩) hl
  obtain ⟨hmoved, hm⟩ := moved_perform cfg hc hp
  exact ⟨hmove s t hmoved hs, hm⟩

end Gfd
