import GfdProof.CopyEngineManager

/-! # A driver call that fails

`GFD_CU_CHECK` returns from the middle of a function: the steps before the
failing call have been performed, those after it are not (`restored_iff`).  The
context stack is as before the call, and every copy is tracked, if and only if the
failing driver call is the first, or the context is pinned and the function queues
no copies.  Otherwise a context that was pushed is not popped, or a copy has been
queued whose channel's event has not been recorded again.
-/
namespace Gfd.CopyEngineManager

open WorkStreams

variable {α : Type} {n : Nat} {m : CopyEngineManager α} {x : Step α} {f : Function α}

/-- `count` is an `int`. -/
def Function.Typed : Function α → Prop
  | .submitScatterGather entries => entries.length < 2 ^ 31
  | _ => True

/-- The failing driver call is the first, or neither a context nor a copy precedes it. -/
def Function.FailsSafely (n : Nat) (m : CopyEngineManager α) (f : Function α) (made : Nat) : Prop :=
  made = 0 ∨ m.contextPinned = true ∧ f.copies n m = []

/-! ## A submission too large -/

/-- Where `chunk_size` overflows, no entry is queued. -/
theorem chunks_overflow {entries : List α} (hn : n ≤ maxCeChannels) (hc : entries.length < 2 ^ 31)
    (hs : ¬ Sized n entries) : ∀ c ∈ chunks n entries, c.2 = [] := by
  unfold Sized at hs
  unfold maxCeChannels at hn
  have hcases : n = 2 ∧ entries.length = 2147483647 ∨
      n = 3 ∧ (entries.length = 2147483646 ∨ entries.length = 2147483647) := by omega
  rcases hcases with ⟨rfl, h⟩ | ⟨rfl, h | h⟩ <;>
    simp [chunks, chunkLoop, h, List.range_succ, int32, entriesFrom, Int.bmod]

theorem distribute_overflow {next : Nat} {entries : List α} (hn : n ≤ maxCeChannels)
    (hc : entries.length < 2 ^ 31) (hs : ¬ Sized n entries) : distribute n next entries = [] := by
  have hlarge : ¬ entries.length ≤ n := fun h => hs (by
    unfold Sized
    unfold maxCeChannels at hn
    omega)
  unfold distribute
  rw [if_neg hlarge]
  refine List.flatMap_eq_nil_iff.mpr fun c hcm => ?_
  rw [chunks_overflow hn hc hs c hcm]
  rfl

/-- A submission queues nothing, or something on each channel of `this_mask`. -/
theorem copies_of_mask {next : Nat} {entries : List α} (hn : n ≤ maxCeChannels) (hnext : next < n)
    (hc : entries.length < 2 ^ 31) :
    distribute n next entries = [] ∨
      ∀ ch ∈ thisMask n next entries, ∃ e, (ch, e) ∈ distribute n next entries := by
  have hpos : 0 < n := Nat.zero_lt_of_lt hnext
  by_cases hs : Sized n entries
  · right
    intro ch hch
    obtain ⟨-, i, hi, hci⟩ := (mem_thisMask hs hpos hnext).mp hch
    rw [distribute_eq hs hpos hnext]
    exact ⟨entries[i], List.mem_map.mpr ⟨(entries[i], i),
      List.mk_mem_zipIdx_iff_getElem?.mpr (List.getElem?_eq_getElem hi), by rw [hci]⟩⟩
  · exact .inl (distribute_overflow hn hc hs)

/-! ## What a part of a function leaves behind -/

/-- The steps between the two calls that change the context stack. -/
def Step.Inner (x : Step α) : Prop := x ≠ .call .ctxPushCurrent ∧ x ≠ .call .ctxPopCurrent

theorem depth_inner {l : List (Step α)} (hl : ∀ x ∈ l, x.Inner) : (m.performAll l).depth = m.depth := by
  refine performAll_invariant (P := fun m' => m'.depth = m.depth) (fun x hx m' h => ?_) rfl
  obtain ⟨h1, h2⟩ := hl x hx
  cases x with
  | call d =>
    cases d with
    | ctxPushCurrent => exact absurd rfl h1
    | ctxPopCurrent => exact absurd rfl h2
    | eventSynchronize e =>
      simp only [Step.perform, DriverCall.effect]
      split <;> exact h
    | _ => exact h
  | _ => exact h

/-- Every function makes its driver calls in the context. -/
theorem body_cases (hv : m.Valid n) (f : Function α) :
    f.body n m = [] ∨ (∃ x, f.body n m = [x]) ∨
      ∃ l, f.body n m = m.withContext l ∧ ∀ x ∈ l, x.Inner := by
  have hn : 0 < n := Nat.zero_lt_of_lt hv.next_lt
  cases f with
  | submitScatterGather entries =>
    simp only [Function.body]
    split
    · exact .inl rfl
    · refine .inr (.inr ⟨_, rfl, List.forall_mem_append.mpr ⟨fun x hx => ?_,
        List.forall_mem_cons.mpr ⟨⟨by simp, by simp⟩, List.forall_mem_map.mpr fun _ _ => ⟨by simp, by simp⟩⟩⟩⟩)
      rcases mem_copySteps hn hx with ⟨ch, -, rfl⟩ | ⟨c, -, rfl⟩ <;> exact ⟨by simp, by simp⟩
  | waitCompletion =>
    simp only [Function.body]
    split
    · exact .inl rfl
    · exact .inr (.inr ⟨_, rfl, List.forall_mem_append.mpr
        ⟨List.forall_mem_map.mpr fun _ _ => ⟨by simp, by simp⟩,
          List.forall_mem_singleton.mpr ⟨by simp, by simp⟩⟩⟩)
  | recordEventOnLastStream e => exact .inr (.inl ⟨_, rfl⟩)
  | makeStreamWaitOnAll st =>
    simp only [Function.body]
    split
    · exact .inl rfl
    · refine .inr (.inr ⟨_, rfl, fun x hx => ?_⟩)
      obtain ⟨ch, -, hx⟩ := List.mem_flatMap.mp hx
      simp only [List.mem_cons, List.not_mem_nil, or_false] at hx
      rcases hx with rfl | rfl <;> exact ⟨by simp, by simp⟩

/-- What is performed before a step is a part of what comes before the last. -/
theorem prefix_of_concat {l pre post : List (Step α)} {y : Step α} (h : l ++ [y] = pre ++ x :: post) :
    pre <+: l := by
  have hpre : pre <+: l ++ [y] := ⟨x :: post, h.symm⟩
  rcases List.prefix_concat_iff.mp hpre with hp | hp
  · rw [hp] at h
    have := congrArg List.length h
    simp at this
  · exact hp

theorem mark_performAll {ch : Nat} {l : List (Step α)}
    (hl : ∀ c, Step.call (.eventRecord (.channel ch) c) ∉ l) :
    (m.performAll l).device.mark (.channel ch) = m.device.mark (.channel ch) := by
  refine performAll_invariant
    (P := fun m' => m'.device.mark (.channel ch) = m.device.mark (.channel ch)) (fun x hx m' h => ?_) rfl
  rw [← h]
  cases x with
  | call d =>
    cases d with
    | eventRecord e c =>
      refine Device.record_mark_of_ne _ (fun he => ?_) _
      exact hl c (he ▸ hx)
    | memcpyHtoDAsync c e => simp [Step.perform, DriverCall.effect]
    | streamWaitEvent st e => simp [Step.perform, DriverCall.effect]
    | eventSynchronize e =>
      simp only [Step.perform, DriverCall.effect]
      split <;> rfl
    | _ => rfl
  | _ => rfl

theorem known_inner {l : List (Step α)} (hl : ∀ e, Step.call (.eventSynchronize e) ∉ l) :
    (m.performAll l).known = m.known := by
  refine performAll_invariant (P := fun m' => m'.known = m.known) (fun x hx m' h => ?_) rfl
  cases x with
  | call d => cases d <;> first | exact absurd hx (hl _) | exact h
  | _ => exact h

/-- A copy queued since the channel's event was recorded is not tracked. -/
theorem not_consistent (hv : m.Valid n) {ch : Nat} {e : α} {l : List (Step α)}
    (hcopy : e ∈ l.filterMap (Step.copyOn ch))
    (hrecord : ∀ c, Step.call (.eventRecord (.channel ch) c) ∉ l)
    (hsync : ∀ e, Step.call (.eventSynchronize e) ∉ l) : ¬ (m.performAll l).Consistent := by
  intro hc
  have hlen : (m.device.log (.channel ch)).length < ((m.performAll l).device.log (.channel ch)).length := by
    rw [log_performAll, List.length_append, List.length_map]
    have := List.length_pos_of_mem hcopy
    omega
  rcases hc ch _ hlen with hk | ⟨-, k, hk, hlt⟩
  · rw [known_inner hsync] at hk
    have := hv.known_le ch
    have := hv.device.done_le (.channel ch)
    omega
  · rw [mark_performAll hrecord] at hk
    have := (hv.mark_le ch _ k hk).2
    omega

theorem withContext_pinned (hp : m.contextPinned = true) (l : List (Step α)) : m.withContext l = l :=
  if_pos hp

/-- Where the failure is harmless, the steps before it queue nothing and forget nothing. -/
theorem neutral_of_failsSafely (hv : m.Valid n) (hp : m.contextPinned = true) {pre post : List (Step α)}
    {d : DriverCall α} (h : f.body n m = pre ++ .call d :: post)
    (hf : f.FailsSafely n m (pre.countP Step.isCall)) : ∀ x ∈ pre, x.Neutral := by
  have hn : 0 < n := Nat.zero_lt_of_lt hv.next_lt
  have hmem : ∀ x ∈ pre, x ∈ f.body n m := fun x hx => h ▸ List.mem_append_left _ hx
  intro x hx
  cases f with
  | submitScatterGather entries =>
    have hb := hmem x hx
    simp only [Function.body, withContext_pinned hp] at hb
    split at hb
    · cases hb
    · rcases List.mem_append.mp hb with hb | hb
      · rcases mem_copySteps hn hb with ⟨ch, -, rfl⟩ | ⟨c, hc, rfl⟩
        · trivial
        · rcases hf with hmade | ⟨-, hnil⟩
          · exact absurd rfl (List.countP_eq_zero.mp hmade _ hx)
          · rw [Function.copies] at hnil
            rw [hnil] at hc
            cases hc
      · rcases List.mem_cons.mp hb with rfl | hb
        · trivial
        · obtain ⟨ch, -, rfl⟩ := List.mem_map.mp hb
          trivial
  | waitCompletion =>
    simp only [Function.body, withContext_pinned hp] at h
    split at h
    · exact absurd h.symm (List.append_ne_nil_of_right_ne_nil _ (List.cons_ne_nil _ _))
    · obtain ⟨ch, -, rfl⟩ := List.mem_map.mp ((prefix_of_concat h).subset hx)
      trivial
  | recordEventOnLastStream e =>
    have hlen := congrArg List.length h
    simp only [Function.body, List.length_append, List.length_cons, List.length_nil] at hlen
    have hpre : pre = [] := List.eq_nil_of_length_eq_zero (by omega)
    rw [hpre] at hx
    cases hx
  | makeStreamWaitOnAll st => exact neutral_makeStreamWaitOnAll n m st x (hmem x hx)

/-- Where a submission fails after its first copy, a copy is not tracked. -/
theorem not_consistent_submit (hn : n ≤ maxCeChannels) (hv : m.Valid n) (hp : m.contextPinned = true)
    {entries : List α} (hc : entries.length < 2 ^ 31) {pre post : List (Step α)} {d : DriverCall α}
    (h : (Function.submitScatterGather entries).body n m = pre ++ .call d :: post)
    (hmade : pre.countP Step.isCall ≠ 0) (hne : distribute n m.nextChannel entries ≠ []) :
    ¬ (m.performAll pre).Consistent := by
  have hpos : 0 < n := Nat.zero_lt_of_lt hv.next_lt
  simp only [Function.body, withContext_pinned hp] at h
  split at h
  · exact absurd h.symm (List.append_ne_nil_of_right_ne_nil _ (List.cons_ne_nil _ _))
  · have hsteps : ∀ x ∈ copySteps n m entries, (∀ e c, x ≠ .call (.eventRecord e c)) ∧
        ∀ e, x ≠ .call (.eventSynchronize e) := fun x hx => by
      rcases mem_copySteps hpos hx with ⟨ch, -, rfl⟩ | ⟨c, -, rfl⟩ <;> exact ⟨by simp, by simp⟩
    rcases List.append_eq_append_iff.mp h with ⟨l, hpre, hrest⟩ | ⟨l, hcopy, hrest⟩
    · -- all copies have been queued; the event of some channel has not been recorded
      cases l with
      | nil => cases hrest
      | cons y l =>
        obtain ⟨hy, hrecords⟩ := List.cons_eq_cons.mp hrest
        obtain ⟨chs, rest, hmask, hl, hcons⟩ := List.map_eq_append_iff.mp hrecords
        obtain ⟨ch, chs', hchs, -, -⟩ := List.map_eq_cons_iff.mp hcons
        rw [hchs] at hmask
        have hnodup : (chs ++ ch :: chs').Nodup := hmask ▸ List.nodup_range.filter _
        have hch : ch ∈ thisMask n m.nextChannel entries :=
          hmask ▸ List.mem_append_right _ (List.mem_cons_self ..)
        obtain ⟨e, he⟩ := ((copies_of_mask hn hv.next_lt hc).resolve_left hne) ch hch
        have hmem : ∀ x ∈ pre, x ∈ copySteps n m entries ∨ x = y ∨ x ∈ recordSteps chs := fun x hx => by
          rw [hpre] at hx
          rcases List.mem_append.mp hx with hx | hx
          · exact .inl hx
          · rw [← hl] at hx
            exact .inr (List.mem_cons.mp hx)
        refine not_consistent hv (?_ : e ∈ pre.filterMap (Step.copyOn ch)) (fun c hr => ?_)
          fun c hr => ?_
        · rw [hpre, List.filterMap_append, copyOn_copySteps]
          exact List.mem_append_left _
            (List.mem_map.mpr ⟨(ch, e), List.mem_filter.mpr ⟨he, beq_self_eq_true _⟩, rfl⟩)
        · rcases hmem _ hr with hx | hx | hx
          · exact (hsteps _ hx).1 _ _ rfl
          · rw [← hy] at hx
            cases hx
          · obtain ⟨k, hk, hx⟩ := List.mem_map.mp hx
            obtain rfl : k = ch := by cases hx; rfl
            exact (List.nodup_append.mp hnodup).2.2 k hk k (List.mem_cons_self ..) rfl
        · rcases hmem _ hr with hx | hx | hx
          · exact (hsteps _ hx).2 _ rfl
          · rw [← hy] at hx
            cases hx
          · obtain ⟨k, -, hx⟩ := List.mem_map.mp hx
            cases hx
    · -- not all copies have been queued, and no event has been recorded
      obtain ⟨x, hx, hcall⟩ := List.countP_pos_iff.mp (Nat.pos_of_ne_zero hmade)
      have hmem : ∀ x ∈ pre, x ∈ copySteps n m entries := fun x hx => hcopy ▸ List.mem_append_left _ hx
      rcases mem_copySteps hpos (hmem x hx) with ⟨ch, -, rfl⟩ | ⟨c, -, rfl⟩
      · cases hcall
      · exact not_consistent hv (List.mem_filterMap.mpr ⟨_, hx, if_pos rfl⟩) (fun _ hr => (hsteps _ (hmem _ hr)).1 _ _ rfl)
          fun _ hr => (hsteps _ (hmem _ hr)).2 _ rfl

/-- **An early return restores the manager** if and only if the failing driver call is the first,
or neither a context nor a copy precedes it. -/
theorem restored_iff (hn : n ≤ maxCeChannels) (hv : m.Valid n) (hc : m.Consistent) (ht : f.Typed)
    {pre post : List (Step α)} {d : DriverCall α} (h : f.body n m = pre ++ .call d :: post) :
    (m.performAll pre).depth = m.depth ∧ (m.performAll pre).Consistent ↔
      f.FailsSafely n m (pre.countP Step.isCall) := by
  have hsingle : ∀ x, f.body n m = [x] → pre = [] := fun x hx => by
    have hlen := congrArg List.length (hx.symm.trans h)
    simp only [List.length_append, List.length_cons, List.length_nil] at hlen
    exact List.eq_nil_of_length_eq_zero (by omega)
  have hnil : f.body n m ≠ [] := fun h' => by
    rw [h'] at h
    exact absurd h.symm (List.append_ne_nil_of_right_ne_nil _ (List.cons_ne_nil _ _))
  by_cases hpre : pre = []
  · subst hpre
    exact iff_of_true ⟨rfl, hc⟩ (.inl rfl)
  · obtain ⟨l, hl, hinner⟩ :=
      ((body_cases hv f).resolve_left hnil).resolve_left fun hx => hx.elim fun x hx => hpre (hsingle x hx)
    by_cases hp : m.contextPinned = true
    · rw [withContext_pinned hp] at hl
      have hdepth : (m.performAll pre).depth = m.depth := depth_inner fun x hx =>
        hinner x (hl ▸ h ▸ List.mem_append_left _ hx)
      refine ⟨fun hr => ?_, fun hf => ⟨hdepth, ?_⟩⟩
      · have hcons := hr.2
        by_contra hf
        unfold Function.FailsSafely at hf
        push Not at hf
        obtain ⟨hmade, hcopies⟩ := hf
        cases f with
        | submitScatterGather entries =>
          exact not_consistent_submit hn hv hp ht h hmade (hcopies hp) hcons
        | _ => exact hcopies hp rfl
      · exact consistent_neutral (n := n) hc (neutral_of_failsSafely hv hp h hf) fun x hx =>
          sound_body hv f x (h ▸ List.mem_append_left _ hx)
    · -- the context has been pushed, and is not popped
      have hbody : f.body n m = .call .ctxPushCurrent :: (l ++ [.call .ctxPopCurrent]) := by
        rw [hl, withContext, if_neg hp]
        rfl
      obtain ⟨y, pre, rfl⟩ := List.exists_cons_of_ne_nil hpre
      rw [hbody, List.cons_append] at h
      obtain ⟨rfl, hrest⟩ := List.cons_eq_cons.mp h
      have hpart := prefix_of_concat hrest
      refine iff_of_false (fun hr => ?_) fun hf => ?_
      · have hdepth := hr.1
        rw [performAll_cons, depth_inner fun x hx => hinner x (hpart.subset hx)] at hdepth
        exact absurd hdepth (Nat.succ_ne_self _)
      · rcases hf with hmade | ⟨hpin, -⟩
        · rw [List.countP_cons_of_pos rfl] at hmade
          cases hmade
        · exact hp hpin

end Gfd.CopyEngineManager
