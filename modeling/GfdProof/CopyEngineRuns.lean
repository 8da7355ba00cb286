import GfdProof.CopyEngineFailure

/-! # Runs of the copy engine manager

Any sequence of calls, with the streams and the caller's own work in between.
What a function under way has done is what its steps so far do
(`Progress`), whatever the streams did meanwhile.  From that come what a function
that has returned guarantees (`synchronised_of_reachable`), and what a function
leaves behind that returns early (`restored_of_fail`).
-/
namespace Gfd.CopyEngineManager

open WorkStreams Transition

variable {α : Type} {n : Nat} {m : CopyEngineManager α}

/-! ## What one step does -/

theorem Valid.perform (hv : m.Valid n) {x : Step α} (hs : x.Sound n) (hb : x.blocked m = false) :
    (x.perform m).Valid n := by
  cases x with
  | call d =>
    cases d with
    | ctxPushCurrent => exact ⟨hv.device, hv.next_lt, hv.dirty_lt, hv.known_le, hv.mark_le⟩
    | ctxPopCurrent => exact ⟨hv.device, hv.next_lt, hv.dirty_lt, hv.known_le, hv.mark_le⟩
    | memcpyHtoDAsync c e =>
      refine ⟨hv.device.submit _ _, hv.next_lt, hv.dirty_lt, hv.known_le, fun ch st k hk => ?_⟩
      obtain ⟨hst, hle⟩ := hv.mark_le ch st k hk
      exact ⟨hst, hle.trans (m.device.grows_submit _ _ _).length_le⟩
    | streamWaitEvent st e =>
      refine ⟨hv.device.waitEvent _ _, hv.next_lt, hv.dirty_lt, fun ch => ?_, fun ch s k hk => ?_⟩
      · simpa [Step.perform, DriverCall.effect] using hv.known_le ch
      · have hk' : m.device.mark (.channel ch) = some (s, k) := by
          simpa [Step.perform, DriverCall.effect] using hk
        obtain ⟨hst, hle⟩ := hv.mark_le ch s k hk'
        exact ⟨hst, hle.trans (m.device.grows_waitEvent _ _ _).length_le⟩
    | eventRecord e c =>
      refine ⟨hv.device.record _ _, hv.next_lt, hv.dirty_lt, hv.known_le, fun ch st k hk => ?_⟩
      by_cases hec : e = .channel ch
      · subst hec
        simp only [Step.perform, DriverCall.effect, Device.record_mark_self, Option.some.injEq,
          Prod.mk.injEq] at hk
        obtain ⟨rfl, rfl⟩ := hk
        rw [hs ch rfl]
        exact ⟨rfl, Nat.le_refl _⟩
      · refine hv.mark_le ch st k ?_
        rw [← hk]
        exact (Device.record_mark_of_ne _ (Ne.symm hec) _).symm
    | eventSynchronize e =>
      simp only [Step.perform, DriverCall.effect]
      split
      · rename_i c k hm
        have hcomplete : m.device.complete e = true := by simpa [Step.blocked] using hb
        simp only [Device.complete, hm, decide_eq_true_eq] at hcomplete
        refine { hv with known_le := fun ch => ?_ }
        dsimp only
        by_cases hch : ch = c
        · subst hch
          rw [Function.update_self]
          exact Nat.max_le.mpr ⟨hv.known_le ch, hcomplete⟩
        · rw [Function.update_of_ne hch]
          exact hv.known_le ch
      · exact hv
  | setNextChannel ch => exact { hv with next_lt := hs }
  | orDirtyMask mask =>
    refine { hv with dirty_lt := fun ch hd => ?_ }
    rcases Bool.or_eq_true_iff.mp hd with hd | hd
    · exact hv.dirty_lt ch hd
    · exact hs ch (List.contains_iff_mem.mp hd)
  | clearDirtyMask => exact { hv with dirty_lt := fun _ hd => by cases hd }

/-- The same to the thread: all but how far the streams are, and the caller's streams. -/
structure Alike (m m' : CopyEngineManager α) : Prop where
  contextPinned : m.contextPinned = m'.contextPinned
  nextChannel : m.nextChannel = m'.nextChannel
  dirtyMask : m.dirtyMask = m'.dirtyMask
  depth : m.depth = m'.depth
  known : m.known = m'.known
  mark : m.device.mark = m'.device.mark
  log : ∀ ch, m.device.log (.channel ch) = m'.device.log (.channel ch)

variable {m' : CopyEngineManager α}

theorem Alike.refl (m : CopyEngineManager α) : m.Alike m := ⟨rfl, rfl, rfl, rfl, rfl, rfl, fun _ => rfl⟩

theorem Alike.consistent (h : m.Alike m') (hc : m'.Consistent) : m.Consistent := by
  intro ch i hi
  rw [h.log] at hi
  unfold Tracked Device.Marked
  rw [h.known, h.dirtyMask, h.mark]
  exact hc ch i hi

theorem Alike.perform (h : m.Alike m') (x : Step α) : (x.perform m).Alike (x.perform m') := by
  have hlog : ∀ ch, (x.perform m).device.log (.channel ch) = (x.perform m').device.log (.channel ch) :=
    fun ch => by rw [log_perform, log_perform, h.log]
  cases x with
  | call d =>
    cases d with
    | ctxPushCurrent => exact { h with depth := congrArg (· + 1) h.depth }
    | ctxPopCurrent => exact { h with depth := congrArg (· - 1) h.depth }
    | memcpyHtoDAsync c e => exact { h with log := hlog }
    | streamWaitEvent st e =>
      refine { h with mark := ?_, log := hlog }
      simpa [Step.perform, DriverCall.effect] using h.mark
    | eventRecord e c =>
      refine { h with mark := ?_, log := hlog }
      simp only [Step.perform, DriverCall.effect, Device.record, h.mark, h.log]
    | eventSynchronize e =>
      simp only [Step.perform, DriverCall.effect, h.mark, h.known]
      split
      · exact { h with known := rfl }
      · exact h
  | setNextChannel ch => exact { h with nextChannel := rfl }
  | orDirtyMask mask => exact { h with dirtyMask := by simp only [Step.perform, h.dirtyMask] }
  | clearDirtyMask => exact { h with dirtyMask := rfl }

theorem Alike.advance (h : m.Alike m') (st : EngineStream) :
    Alike { m with device := m.device.advance st } m' := { h with }

theorem Alike.enqueue (h : m.Alike m') (st : Nat) (work : α) :
    Alike { m with device := m.device.submit (.caller st) work } m' := by
  have hne : ∀ ch, EngineStream.channel ch ≠ .caller st := nofun
  exact { h with log := fun ch => (Device.submit_log_of_ne _ (hne ch) _).trans (h.log ch) }

theorem Valid.advance (hv : m.Valid n) {st : EngineStream} (hr : m.device.runnable st = true) :
    Valid n { m with device := m.device.advance st } :=
  { hv with
    device := hv.device.advance hr
    known_le := fun ch => (hv.known_le ch).trans (m.device.le_advance_done st _) }

theorem Valid.enqueue (hv : m.Valid n) (st : Nat) (work : α) :
    Valid n { m with device := m.device.submit (.caller st) work } where
  device := hv.device.submit _ _
  next_lt := hv.next_lt
  dirty_lt := hv.dirty_lt
  known_le := hv.known_le
  mark_le ch s k hk := by
    obtain ⟨hst, hle⟩ := hv.mark_le ch s k hk
    exact ⟨hst, hle.trans (m.device.grows_submit _ _ _).length_le⟩

/-! ## A function under way -/

/-- What has been done of the function under way; between functions the manager is consistent. -/
structure Progress (n : Nat) (s : State α) : Prop where
  valid : s.manager.Valid n
  idle : s.running = none → s.todo = [] ∧ s.manager.Consistent
  under : ∀ f m, s.running = some (f, m) → f.Typed ∧ m.Valid n ∧ m.Consistent ∧
    ∃ pre, f.body n m = pre ++ s.todo ∧ s.made = pre.countP Step.isCall ∧
      s.manager.Alike (m.performAll pre)

/-- The function under way can fail at the call at hand. -/
def State.FailsSafely (n : Nat) (s : State α) : Prop :=
  ∀ f m, s.running = some (f, m) → f.FailsSafely n m s.made

/-- Calls of functions with an `int`, and failures that are harmless. -/
def Tolerated (n : Nat) (s : State α) : Act α → Prop
  | .call f => f.Typed
  | .fail => s.FailsSafely n
  | _ => True

variable {s t : State α}

theorem progress_idle (hv : m.Valid n) (hc : m.Consistent) : Progress n (State.idle m) where
  valid := hv
  idle _ := ⟨rfl, hc⟩
  under _ _ h := by cases h

/-- What a function leaves behind when its call at hand fails. -/
theorem Progress.restored_iff (hn : n ≤ maxCeChannels) (hp : Progress n s) {f : Function α}
    (hr : s.running = some (f, m)) (ht : step n s .fail = some t) :
    t.manager.depth = m.depth ∧ t.manager.Consistent ↔ f.FailsSafely n m s.made := by
  obtain ⟨htyped, hv, hc, pre, hbody, hmade, halike⟩ := hp.under f m hr
  simp only [step] at ht
  split at ht
  · rename_i d post htodo
    cases ht
    rw [htodo] at hbody
    rw [hmade, ← CopyEngineManager.restored_iff hn hv hc htyped hbody, halike.depth]
    refine and_congr_right fun _ => ⟨fun h => ?_, halike.consistent⟩
    exact Alike.consistent ⟨halike.contextPinned.symm, halike.nextChannel.symm, halike.dirtyMask.symm,
      halike.depth.symm, halike.known.symm, halike.mark.symm, fun ch => (halike.log ch).symm⟩ h
  · cases ht

theorem progress_step (hn : n ≤ maxCeChannels) (hp : Progress n s) {a : Act α} (ha : Tolerated n s a)
    (h : step n s a = some t) : Progress n t := by
  cases a with
  | call f =>
    simp only [step] at h
    split at h
    · rename_i hidle
      cases h
      have hc := (hp.idle (Option.isNone_iff_eq_none.mp hidle)).2
      refine ⟨hp.valid, nofun, fun f' m' hr => ?_⟩
      cases hr
      exact ⟨ha, hp.valid, hc, [], rfl, rfl, .refl _⟩
    · cases h
  | go =>
    simp only [step] at h
    split at h
    · cases h
    · rename_i x rest htodo
      split at h
      · cases h
      · rename_i hb
        cases h
        have hrun : s.running ≠ none := fun hr => by
          rw [(hp.idle hr).1] at htodo
          cases htodo
        obtain ⟨⟨f, m⟩, hr⟩ := Option.ne_none_iff_exists'.mp hrun
        obtain ⟨htyped, hv, hc, pre, hbody, hmade, halike⟩ := hp.under f m hr
        have hx : x ∈ f.body n m := by
          rw [hbody, htodo]
          exact List.mem_append_right _ (List.mem_cons_self ..)
        refine ⟨hp.valid.perform (sound_body hv f x hx) (Bool.eq_false_iff.mpr hb),
          fun hnone => absurd hnone hrun, fun f' m' hr' => ?_⟩
        rw [hr] at hr'
        cases hr'
        refine ⟨htyped, hv, hc, pre ++ [x], ?_, ?_, ?_⟩
        · rw [hbody, htodo, List.append_assoc]
          rfl
        · rw [List.countP_append, List.countP_singleton, ← hmade]
          dsimp only
          split <;> rfl
        · rw [performAll_append]
          exact halike.perform x
  | fail =>
    have hfail := h
    simp only [step] at h
    split at h
    · rename_i d post htodo
      cases h
      refine ⟨hp.valid, fun _ => ⟨rfl, ?_⟩, nofun⟩
      have hrun : s.running ≠ none := fun hr => by
        rw [(hp.idle hr).1] at htodo
        cases htodo
      obtain ⟨⟨f, m⟩, hr⟩ := Option.ne_none_iff_exists'.mp hrun
      exact ((hp.restored_iff hn hr hfail).mpr (ha f m hr)).2
    · cases h
  | ret =>
    simp only [step] at h
    split at h
    · rename_i f m hr htodo
      cases h
      obtain ⟨-, hv, hc, pre, hbody, -, halike⟩ := hp.under f m hr
      rw [htodo, List.append_nil] at hbody
      refine ⟨hp.valid, fun _ => ⟨htodo, halike.consistent ?_⟩, nofun⟩
      rw [← hbody]
      exact consistent_body hv hc f
    · cases h
  | advance st =>
    simp only [step] at h
    split at h
    · rename_i hrun
      cases h
      refine ⟨hp.valid.advance hrun, fun hr => ⟨(hp.idle hr).1, ?_⟩, fun f m hr => ?_⟩
      · exact (Alike.refl s.manager).advance st |>.consistent (hp.idle hr).2
      · obtain ⟨h1, h2, h3, pre, h4, h5, h6⟩ := hp.under f m hr
        exact ⟨h1, h2, h3, pre, h4, h5, h6.advance st⟩
    · cases h
  | enqueue st work =>
    cases h
    refine ⟨hp.valid.enqueue st work, fun hr => ⟨(hp.idle hr).1, ?_⟩, fun f m hr => ?_⟩
    · exact (Alike.refl s.manager).enqueue st work |>.consistent (hp.idle hr).2
    · obtain ⟨h1, h2, h3, pre, h4, h5, h6⟩ := hp.under f m hr
      exact ⟨h1, h2, h3, pre, h4, h5, h6.enqueue st work⟩

/-! ## What a function that has returned guarantees -/

/-- The first `k` items of channel `ch` are performed before item `j` of the caller's stream `st`. -/
def Behind (d : Device EngineStream EngineEvent α) (st ch k j : Nat) : Prop :=
  ∀ i < k, i < d.done (.channel ch) ∨ d.Precedes (.channel ch) i (.caller st) j

/-- What the calls that have returned promise. -/
structure State.Synchronised (n : Nat) (s : State α) : Prop where
  /-- A submission has queued each entry on one valid channel. -/
  submitted : ∀ r ∈ s.returned, ∀ entries, r.function = .submitScatterGather entries →
    ∃ part : Nat → List α, (∀ ch, r.after.log (.channel ch) =
        r.before.log (.channel ch) ++ (part ch).map .work) ∧
      (∀ ch, n ≤ ch → part ch = []) ∧ ((List.range n).flatMap part).Perm entries
  /-- When `wait_completion` has returned, every earlier copy has been performed. -/
  waited : ∀ r ∈ s.returned, r.function = .waitCompletion →
    ∀ ch i, i < (r.before.log (.channel ch)).length → i < r.after.done (.channel ch)
  /-- What is queued on a stream after `make_stream_wait_on_all` is performed after every copy
  submitted before. -/
  fenced : ∀ r ∈ s.returned, ∀ st, r.function = .makeStreamWaitOnAll st →
    ∀ ch i j, i < (r.before.log (.channel ch)).length → (r.after.log (.caller st)).length ≤ j →
      j < s.manager.device.done (.caller st) → i < s.manager.device.done (.channel ch)

/-- Every submission is sized. -/
def AllSized (n : Nat) : Act α → Prop
  | .call (.submitScatterGather entries) => Sized n entries
  | _ => True

/-- The same, with the reason why a stream is behind the copies. -/
structure Fences (n : Nat) (s : State α) : Prop where
  submitted : ∀ r ∈ s.returned, ∀ entries, r.function = .submitScatterGather entries →
    ∃ part : Nat → List α, (∀ ch, r.after.log (.channel ch) =
        r.before.log (.channel ch) ++ (part ch).map .work) ∧
      (∀ ch, n ≤ ch → part ch = []) ∧ ((List.range n).flatMap part).Perm entries
  waited : ∀ r ∈ s.returned, r.function = .waitCompletion →
    ∀ ch i, i < (r.before.log (.channel ch)).length → i < r.after.done (.channel ch)
  behind : ∀ r ∈ s.returned, ∀ st, r.function = .makeStreamWaitOnAll st → ∀ ch,
    Behind s.manager.device st ch (r.before.log (.channel ch)).length (r.after.log (.caller st)).length
  /-- The function under way has queued the waits it has no longer to queue. -/
  under : ∀ st m, s.running = some (.makeStreamWaitOnAll st, m) → ∀ ch ∈ dirtyChannels n m,
    .call (.streamWaitEvent st (.channel ch)) ∈ s.todo ∨
      Behind s.manager.device st ch (m.device.log (.channel ch)).length
        (s.manager.device.log (.caller st)).length
  sized : ∀ entries m, s.running = some (.submitScatterGather entries, m) → Sized n entries

theorem Behind.grows {d d' : Device EngineStream EngineEvent α} (h : d.Grows d')
    (hd : ∀ st, d.done st ≤ d'.done st) {st ch k j j' : Nat} (hj : j ≤ j') (hb : Behind d st ch k j) :
    Behind d' st ch k j' := fun i hi =>
  (hb i hi).imp (fun h' => Nat.lt_of_lt_of_le h' (hd _)) fun h' => (h'.grows h).mono hj

/-- Queueing the wait for a channel's event. -/
theorem behind_wait (hv : m.Valid n) (hc : m.Consistent) (st ch : Nat) :
    Behind (m.device.waitEvent (.caller st) (.channel ch)) st ch (m.device.log (.channel ch)).length
      ((m.device.waitEvent (.caller st) (.channel ch)).log (.caller st)).length := by
  intro i hi
  rw [Device.waitEvent_done]
  refine (hc ch i hi).imp (fun hk => Nat.lt_of_lt_of_le hk (hv.known_le ch)) fun ⟨_, hm⟩ =>
    hm.precedes_wait ?_
  obtain ⟨k, hk, -⟩ := hm
  unfold Device.waitEvent
  rw [hk]
  simp

/-- The device only goes on. -/
theorem device_step {a : Act α} (h : step n s a = some t) :
    s.manager.device.Grows t.manager.device ∧
      ∀ st, s.manager.device.done st ≤ t.manager.device.done st := by
  have hstep : ∀ (m : CopyEngineManager α) (x : Step α), m.device.Grows (x.perform m).device ∧
      (x.perform m).device.done = m.device.done := by
    intro m x
    cases x with
    | call d =>
      cases d with
      | memcpyHtoDAsync c e => exact ⟨m.device.grows_submit _ _, rfl⟩
      | streamWaitEvent st e => exact ⟨m.device.grows_waitEvent _ _, m.device.waitEvent_done _ _⟩
      | eventSynchronize e =>
        simp only [Step.perform, DriverCall.effect]
        split <;> exact ⟨.refl _, rfl⟩
      | _ => exact ⟨.refl _, rfl⟩
    | _ => exact ⟨.refl _, rfl⟩
  cases a with
  | go =>
    simp only [step] at h
    split at h
    · cases h
    · split at h
      · cases h
      · cases h
        exact ⟨(hstep _ _).1, fun st => Nat.le_of_eq (congrFun (hstep _ _).2 st).symm⟩
  | advance st =>
    simp only [step] at h
    split at h
    · cases h
      exact ⟨.refl _, s.manager.device.le_advance_done st⟩
    · cases h
  | enqueue st work =>
    cases h
    exact ⟨s.manager.device.grows_submit _ _, fun _ => Nat.le_refl _⟩
  | call f | fail | ret =>
    simp only [step] at h
    split at h <;> cases h
    exact ⟨.refl _, fun _ => Nat.le_refl _⟩

theorem fences_idle (m : CopyEngineManager α) : Fences n (State.idle m) where
  submitted _ h := absurd h List.not_mem_nil
  waited _ h := absurd h List.not_mem_nil
  behind _ h := absurd h List.not_mem_nil
  under _ _ h := by cases h
  sized _ _ h := by cases h

/-- What has been promised stays so, if no more has returned. -/
theorem Fences.keep (hf : Fences n s) (hg : s.manager.device.Grows t.manager.device)
    (hd : ∀ st, s.manager.device.done st ≤ t.manager.device.done st) (hret : t.returned = s.returned)
    (hunder : ∀ st m, t.running = some (.makeStreamWaitOnAll st, m) → ∀ ch ∈ dirtyChannels n m,
      .call (.streamWaitEvent st (.channel ch)) ∈ t.todo ∨
        Behind t.manager.device st ch (m.device.log (.channel ch)).length
          (t.manager.device.log (.caller st)).length)
    (hsized : ∀ entries m, t.running = some (.submitScatterGather entries, m) → Sized n entries) :
    Fences n t where
  submitted := hret ▸ hf.submitted
  waited := hret ▸ hf.waited
  behind r hr st hrf ch := (hf.behind r (hret ▸ hr) st hrf ch).grows hg hd (Nat.le_refl _)
  under := hunder
  sized := hsized

/-- The returned calls and the one under way, when the device goes on. -/
theorem Fences.mono (hf : Fences n s) (hg : s.manager.device.Grows t.manager.device)
    (hd : ∀ st, s.manager.device.done st ≤ t.manager.device.done st) (hret : t.returned = s.returned)
    (hrun : t.running = s.running) (htodo : t.todo = s.todo) : Fences n t :=
  hf.keep hg hd hret (fun st m hr ch hch => by
    rw [htodo]
    exact (hf.under st m (hrun ▸ hr) ch hch).imp_right fun hb =>
      hb.grows hg hd (hg (.caller st)).length_le) fun entries m hr => hf.sized entries m (hrun ▸ hr)

/-- In `make_stream_wait_on_all` the manager stays consistent, and no copy is queued. -/
theorem Progress.waiting (hp : Progress n s) {st : Nat}
    (hr : s.running = some (.makeStreamWaitOnAll st, m)) : s.manager.Consistent ∧
      ∀ ch, s.manager.device.log (.channel ch) = m.device.log (.channel ch) := by
  obtain ⟨-, hv, hc, pre, hbody, -, halike⟩ := hp.under _ m hr
  have hmem : ∀ x ∈ pre, x ∈ (Function.makeStreamWaitOnAll st).body n m := fun x hx =>
    hbody ▸ List.mem_append_left _ hx
  have hneutral : ∀ x ∈ pre, x.Neutral := fun x hx => neutral_makeStreamWaitOnAll n m st x (hmem x hx)
  refine ⟨halike.consistent (consistent_neutral (n := n) hc hneutral fun x hx =>
    sound_body hv _ x (hmem x hx)), fun ch => ?_⟩
  rw [halike.log, log_performAll,
    List.filterMap_eq_nil_iff.mpr fun x hx => copyOn_of_neutral (hneutral x hx) ch]
  exact List.append_nil _

/-- A channel that was not dirty had nothing left to perform. -/
theorem Progress.clean (hp : Progress n s) {f : Function α} (hr : s.running = some (f, m)) {ch : Nat}
    (hd : ch ∉ dirtyChannels n m) {i : Nat} (hi : i < (m.device.log (.channel ch)).length) :
    i < s.manager.device.done (.channel ch) := by
  obtain ⟨-, hv, hc, pre, -, -, halike⟩ := hp.under f m hr
  rcases hc ch i hi with hk | ⟨hk, -⟩
  · refine Nat.lt_of_lt_of_le hk ((known_performAll m pre ch).trans ?_)
    rw [← halike.known]
    exact hp.valid.known_le ch
  · exact absurd (mem_dirtyChannels.mpr ⟨hv.dirty_lt ch hk, hk⟩) hd

/-- A function that returns keeps its promise. -/
theorem fences_ret (hp : Progress n s) (hf : Fences n s) {f : Function α}
    (hr : s.running = some (f, m)) (htodo : s.todo = []) :
    Fences n { s with running := none, returned := s.returned ++ [⟨f, m.device, s.manager.device⟩] } := by
  obtain ⟨-, hv, hc, pre, hbody, -, halike⟩ := hp.under f m hr
  rw [htodo, List.append_nil] at hbody
  subst hbody
  have hn : 0 < n := Nat.zero_lt_of_lt hv.next_lt
  refine ⟨fun r hmem entries hrf => ?_, fun r hmem hrf => ?_, fun r hmem st hrf ch => ?_, nofun, nofun⟩
  · rcases List.mem_append.mp hmem with hmem | hmem
    · exact hf.submitted r hmem entries hrf
    · rw [List.mem_singleton.mp hmem] at hrf ⊢
      dsimp only at hrf ⊢
      subst hrf
      have hsized := hf.sized entries m hr
      refine ⟨share (distribute n m.nextChannel entries), fun ch => ?_, fun ch hch => ?_,
        perm_distribute hsized hn hv.next_lt⟩
      · rw [halike.log, log_body]
        rfl
      · refine List.map_eq_nil_iff.mpr (List.filter_eq_nil_iff.mpr fun c hcm hce => ?_)
        have hlt := ((mem_thisMask hsized hn hv.next_lt).mp
          (mem_thisMask_of_distribute hn hv.next_lt hcm)).1
        rw [beq_iff_eq.mp hce] at hlt
        omega
  · rcases List.mem_append.mp hmem with hmem | hmem
    · exact hf.waited r hmem hrf
    · rw [List.mem_singleton.mp hmem] at hrf ⊢
      dsimp only at hrf ⊢
      subst hrf
      intro ch i hi
      have hknown := known_waitCompletion hv hc ch
      rw [← halike.known] at hknown
      exact Nat.lt_of_lt_of_le hi (hknown.trans (hp.valid.known_le ch))
  · rcases List.mem_append.mp hmem with hmem | hmem
    · exact hf.behind r hmem st hrf ch
    · rw [List.mem_singleton.mp hmem] at hrf ⊢
      dsimp only at hrf ⊢
      subst hrf
      by_cases hd : ch ∈ dirtyChannels n m
      · refine (hf.under st m hr ch hd).resolve_left fun h => ?_
        rw [htodo] at h
        cases h
      · exact fun i hi => .inl (hp.clean hr hd hi)

theorem fences_step (hp : Progress n s) (hf : Fences n s) {a : Act α} (ha : AllSized n a)
    (h : step n s a = some t) : Fences n t := by
  obtain ⟨hg, hd⟩ := device_step h
  cases a with
  | call f =>
    simp only [step] at h
    split at h
    · cases h
      refine hf.keep hg hd rfl (fun st m hr ch hch => ?_) fun entries m hr => ?_
      · cases hr
        left
        show _ ∈ Function.body n s.manager (.makeStreamWaitOnAll st)
        simp only [Function.body]
        rw [if_neg (List.ne_nil_of_mem hch)]
        have hmem : (Step.call (.streamWaitEvent st (.channel ch)) : Step α) ∈
            (dirtyChannels n s.manager).flatMap fun ch => [Step.call (.eventRecord (.channel ch) ch),
              .call (.streamWaitEvent st (.channel ch))] :=
          List.mem_flatMap.mpr ⟨ch, hch, by simp⟩
        unfold withContext
        split
        · exact hmem
        · exact List.mem_append_left _ (List.mem_cons_of_mem _ hmem)
      · cases hr
        exact ha
    · cases h
  | go =>
    simp only [step] at h
    split at h
    · cases h
    · rename_i x rest htodo
      split at h
      · cases h
      · cases h
        refine hf.keep hg hd rfl (fun st m hr ch hch => ?_) hf.sized
        rcases hf.under st m hr ch hch with hmem | hb
        · rw [htodo] at hmem
          rcases List.mem_cons.mp hmem with rfl | hmem
          · obtain ⟨hc, hlog⟩ := hp.waiting hr
            have hwait := behind_wait hp.valid hc st ch
            rw [hlog] at hwait
            exact .inr hwait
          · exact .inl hmem
        · exact .inr (hb.grows hg hd (hg (.caller st)).length_le)
  | fail =>
    simp only [step] at h
    split at h
    · cases h
      exact hf.keep hg hd rfl (by simp) (by simp)
    · cases h
  | ret =>
    simp only [step] at h
    split at h
    · rename_i f m hr htodo
      cases h
      exact fences_ret hp hf hr htodo
    · cases h
  | advance st =>
    simp only [step] at h
    split at h
    · cases h
      exact hf.mono hg hd rfl rfl rfl
    · cases h
  | enqueue st work =>
    cases h
    exact hf.mono hg hd rfl rfl rfl

theorem Fences.synchronised (hf : Fences n s) (hv : s.manager.Valid n) : s.Synchronised n where
  submitted := hf.submitted
  waited := hf.waited
  fenced r hr st hrf ch i j hi hj hdone := by
    rcases hf.behind r hr st hrf ch i hi with h | h
    · exact h
    · exact hv.device.done_of_precedes (h.mono hj) hdone

/-! ## Every run -/

theorem valid_init (hn : 0 < n) (pinned : Bool) (depth : Nat) :
    Valid n (init pinned depth : CopyEngineManager α) where
  device := Device.valid_empty
  next_lt := hn
  dirty_lt := nofun
  known_le _ := Nat.le_refl _
  mark_le _ _ _ h := by cases h

theorem consistent_init (pinned : Bool) (depth : Nat) :
    (init pinned depth : CopyEngineManager α).Consistent := fun _ _ h => absurd h (Nat.not_lt_zero _)

theorem progress_of_tolerated (hn : n ≤ maxCeChannels) (hv : m.Valid n) (hc : m.Consistent)
    (h : Reachable (step n) (Tolerated n) (· = State.idle m) s) : Progress n s :=
  h.invariant (fun _ hs => hs ▸ progress_idle hv hc) fun _ _ _ hp ha hst => progress_step hn hp ha hst

/-- As long as the failures so far were harmless, what has returned keeps its promise. -/
theorem synchronised_of_tolerated (hn : n ≤ maxCeChannels) (hv : m.Valid n) (hc : m.Consistent)
    (h : Reachable (step n) (fun s a => Tolerated n s a ∧ AllSized n a) (· = State.idle m) s) :
    s.Synchronised n := by
  have hinv := h.invariant (I := fun s => Progress n s ∧ Fences n s)
    (fun _ hs => hs ▸ ⟨progress_idle hv hc, fences_idle m⟩) fun _ _ _ hi ha hst =>
      ⟨progress_step hn hi.1 ha.1 hst, fences_step hi.1 hi.2 ha.2 hst⟩
  exact hinv.2.synchronised hinv.1.valid

/-- Calls that succeed, each submission sized. -/
def Successful (n : Nat) (_ : State α) : Act α → Prop
  | .call (.submitScatterGather entries) => Sized n entries
  | .fail => False
  | _ => True

theorem tolerated_of_successful (hpos : 0 < n) {a : Act α} (ha : Successful n s a) :
    Tolerated n s a ∧ AllSized n a := by
  cases a with
  | call f =>
    cases f with
    | submitScatterGather entries =>
      refine ⟨?_, ha⟩
      have hle : entries.length + n ≤ 2 ^ 31 := ha
      show entries.length < 2 ^ 31
      omega
    | _ => exact ⟨trivial, trivial⟩
  | fail => exact ha.elim
  | _ => exact ⟨trivial, trivial⟩

/-- **Synchronisation covers every outstanding copy**, over any sequence of successful calls whose
submissions are sized. -/
theorem synchronised_of_reachable (hpos : 0 < n) (hn : n ≤ maxCeChannels) {pinned : Bool} {depth : Nat}
    (h : Reachable (step n) (Successful n) (· = State.idle (init pinned depth)) s) : s.Synchronised n := by
  exact synchronised_of_tolerated hn (valid_init hpos pinned depth) (consistent_init pinned depth)
    (h.mono fun _ _ ha => tolerated_of_successful hpos ha)

/-- **A failing driver call leaves the manager consistent**, with the context stack as before the
call, if and only if it is the first of its function, or the context is pinned and the function
queues no copies. -/
theorem restored_of_fail (hn : n ≤ maxCeChannels) {m₀ : CopyEngineManager α} (hv : m₀.Valid n)
    (hc : m₀.Consistent) (h : Reachable (step n) (Tolerated n) (· = State.idle m₀) s) {f : Function α}
    (hr : s.running = some (f, m)) (ht : step n s .fail = some t) :
    t.manager.depth = m.depth ∧ t.manager.Consistent ↔ f.FailsSafely n m s.made :=
  (progress_of_tolerated hn hv hc h).restored_iff hn hr ht

/-! ## Fixed runs -/

/-- A function that does not wait can run to its end. -/
theorem reachable_go {C : State α → Act α → Prop} {init : State α → Prop} (hC : ∀ s, C s .go)
    {l : List (Step α)} (hl : ∀ x ∈ l, ∀ m, x.blocked m = false) {s : State α}
    (h : Reachable (step n) C init s) (htodo : s.todo = l) :
    ∃ t, Reachable (step n) C init t ∧ t.todo = [] ∧ t.running = s.running ∧
      t.returned = s.returned ∧ t.manager = s.manager.performAll l := by
  induction l generalizing s with
  | nil => exact ⟨s, h, htodo, rfl, rfl, rfl⟩
  | cons x l ih =>
    have hstep : step n s .go = some { s with
        manager := x.perform s.manager
        todo := l
        made := if x.isCall then s.made + 1 else s.made } := by
      simp only [step, htodo, hl x (List.mem_cons_self ..)]
      rfl
    exact ih (fun y hy => hl y (List.mem_cons_of_mem _ hy)) (h.step .go (hC s) hstep) rfl

/-- A submission of so many entries that `chunk_size` overflows is not queued. -/
theorem exists_dropped : ∃ s : State Unit, Reachable (step 3) (fun _ a => a ≠ .fail)
    (· = State.idle (init true 0)) s ∧ ¬ s.Synchronised 3 := by
  let entries := List.replicate 2147483646 ()
  have hlen : entries.length = 2147483646 := List.length_replicate
  have hcopies : (Function.submitScatterGather entries).copies 3 (init true 0) = [] :=
    distribute_overflow (by decide) (by rw [hlen]; decide) (by unfold Sized; rw [hlen]; decide)
  have hwait : ∀ x ∈ (Function.submitScatterGather entries).body 3 (init true 0),
      ∀ m, x.blocked m = false := by
    intro x hx m
    simp only [Function.body] at hx
    split at hx
    · cases hx
    · rw [withContext_pinned rfl] at hx
      rcases List.mem_append.mp hx with hx | hx
      · rcases mem_copySteps (by decide) hx with ⟨ch, -, rfl⟩ | ⟨c, -, rfl⟩ <;> rfl
      · rcases List.mem_cons.mp hx with rfl | hx
        · rfl
        · obtain ⟨ch, -, rfl⟩ := List.mem_map.mp hx
          rfl
  have hcall : Reachable (step 3) (fun _ a => a ≠ .fail) (· = State.idle (init true 0))
      { State.idle (init true 0 : CopyEngineManager Unit) with
        running := some (.submitScatterGather entries, init true 0)
        todo := (Function.submitScatterGather entries).body 3 (init true 0) } :=
    (Reachable.self _).step (.call (.submitScatterGather entries)) (by simp) rfl
  obtain ⟨s, hs, htodo, hrun, -, hmanager⟩ := reachable_go (fun _ => by simp) hwait hcall rfl
  have hmanager : s.manager = (init true 0).performAll
      ((Function.submitScatterGather entries).body 3 (init true 0)) := hmanager
  have hstep : step 3 s .ret = some { s with
      running := none
      returned := s.returned ++
        [⟨.submitScatterGather entries, (init true 0 : CopyEngineManager Unit).device,
          s.manager.device⟩] } := by
    simp only [step, hrun, htodo]
  refine ⟨_, hs.step .ret (by simp) hstep, fun hsync => ?_⟩
  obtain ⟨part, hlog, -, hperm⟩ :=
    hsync.submitted _ (List.mem_append_right _ (List.mem_singleton.mpr rfl)) entries rfl
  have hpart : ∀ ch, part ch = [] := fun ch => by
    have h := hlog ch
    dsimp only at h
    rw [hmanager, log_body, hcopies] at h
    exact List.map_eq_nil_iff.mp (List.append_right_eq_self.mp h.symm)
  have hnil : (List.range 3).flatMap part = [] := List.flatMap_eq_nil_iff.mpr fun ch _ => hpart ch
  rw [hnil] at hperm
  rw [← hperm.length_eq] at hlen
  cases hlen

instance (s : State α) (a : Act α) : Decidable (Successful n s a) := by
  unfold Successful Sized
  split <;> infer_instance

/-- A submission to two channels, a stream made to wait for it, and a wait. -/
private def calls : List (Act Nat) :=
  Act.call (.submitScatterGather [0, 1, 2]) :: List.replicate 7 Act.go ++
    Act.ret :: Act.call (.makeStreamWaitOnAll 0) :: List.replicate 4 Act.go ++
    Act.ret :: Act.advance (.channel 0) :: Act.advance (.channel 0) :: Act.advance (.channel 1) ::
      Act.call .waitCompletion :: List.replicate 3 Act.go ++ [Act.ret]

theorem synchronised_of_reachable_two : ∃ s : State Nat,
    (s.returned.map Returned.function = [.submitScatterGather [0, 1, 2], .makeStreamWaitOnAll 0,
      .waitCompletion] ∧ s.manager.device.done (.channel 0) = 2) ∧ s.Synchronised 2 := by
  have h : (runWhile (step 2) (Successful 2) (State.idle (init true 0)) calls).map
      (fun s => (s.returned.map Returned.function, s.manager.device.done (.channel 0))) =
      some ([.submitScatterGather [0, 1, 2], .makeStreamWaitOnAll 0, .waitCompletion], 2) := by
    decide +kernel
  obtain ⟨s, hs, hout⟩ := Option.map_eq_some_iff.mp h
  exact ⟨s, Prod.mk.inj hout,
    synchronised_of_reachable (by decide) (by decide) ((Reachable.self _).runWhile hs)⟩

/-- The second copy of a submission fails with the context not pinned: the context stays pushed, and
the first copy is on a channel that is not dirty. -/
theorem exists_leaked : ∃ s t : State Nat, Reachable (step 1) (Tolerated 1)
    (· = State.idle (init false 0)) s ∧
    s.running = some (.submitScatterGather [0, 1], init false 0) ∧ step 1 s .fail = some t ∧
    ¬ t.manager.depth = 0 ∧ ¬ t.manager.Consistent := by
  have htyped : (Function.submitScatterGather [0, 1]).Typed := by
    show 2 < 2 ^ 31
    decide
  refine ⟨_, _, (((Reachable.self (State.idle (init false 0))).step
    (.call (.submitScatterGather [0, 1])) htyped rfl).step .go trivial rfl).step .go trivial rfl, rfl,
    rfl, nofun, fun hc => ?_⟩
  rcases hc 0 0 (by decide) with h | h
  · cases h
  · cases h.1

private structure Attempt where
  function : Option (Function Nat)
  pinned : Option Bool
  depth : Option Nat
  made : Nat
  fails : Bool
  left : List Nat
  deriving DecidableEq

private def attempt (s : State Nat) : Attempt where
  function := s.running.map Prod.fst
  pinned := s.running.map fun r => r.2.contextPinned
  depth := s.running.map fun r => r.2.depth
  made := s.made
  fails := (step 2 s .fail).isSome
  left := [0, 1].map fun ch =>
    (s.manager.device.log (.channel ch)).length - s.manager.device.done (.channel ch)

/-- With the context pinned and three copies outstanding on two channels, a stream is made to wait
for them, and the fourth driver call of that function fails. -/
theorem restored_of_fail_two : ∃ (s t : State Nat) (m : CopyEngineManager Nat),
    s.running = some (.makeStreamWaitOnAll 0, m) ∧ s.made = 3 ∧
      s.manager.device.done (.channel 0) < (s.manager.device.log (.channel 0)).length ∧
      s.manager.device.done (.channel 1) < (s.manager.device.log (.channel 1)).length ∧
      step 2 s .fail = some t ∧ t.manager.depth = 5 ∧ t.manager.Consistent := by
  have h : (runWhile (step 2) (Successful 2) (State.idle (init true 5))
      (Act.call (.submitScatterGather [0, 1, 2]) :: List.replicate 7 Act.go ++
        Act.ret :: Act.call (.makeStreamWaitOnAll 0) :: List.replicate 3 Act.go)).map attempt =
      some ⟨some (.makeStreamWaitOnAll 0), some true, some 5, 3, true, [2, 1]⟩ := by
    decide +kernel
  obtain ⟨s, hs, hout⟩ := Option.map_eq_some_iff.mp h
  simp only [attempt, Attempt.mk.injEq, List.map_cons, List.map_nil, List.cons.injEq,
    and_true] at hout
  obtain ⟨hfunction, hpinned, hdepth, hmade, hfails, hzero, hone⟩ := hout
  obtain ⟨⟨f, m⟩, hrun, hf⟩ := Option.map_eq_some_iff.mp hfunction
  obtain rfl : f = .makeStreamWaitOnAll 0 := hf
  rw [hrun] at hpinned hdepth
  obtain ⟨t, ht⟩ := Option.isSome_iff_exists.mp hfails
  have hreach : Reachable (step 2) (Tolerated 2) (· = State.idle (init true 5)) s :=
    ((Reachable.self _).runWhile hs).mono fun _ _ ha => (tolerated_of_successful (by decide) ha).1
  have hsafe : (Function.makeStreamWaitOnAll 0).FailsSafely 2 m s.made :=
    .inr ⟨Option.some.inj hpinned, rfl⟩
  obtain ⟨hrestored, hconsistent⟩ := (restored_of_fail (by decide) (valid_init (by decide) true 5)
    (consistent_init true 5) hreach hrun ht).mpr hsafe
  exact ⟨s, t, m, hrun, hmade, by omega, by omega, ht, hrestored.trans (Option.some.inj hdepth),
    hconsistent⟩

end Gfd.CopyEngineManager
