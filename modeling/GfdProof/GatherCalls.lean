import GfdProof.GatherHandshake

/-! # What a call to `parallel_gather` guarantees when it returns

`GatherHandshake` is about the runs in which no dispatch is erased.  This module is
about all runs.  A dispatch that is erased leaves its worker polling and the
dispatcher waiting for it for ever (`Forgotten`), so whenever the dispatcher is
between two calls nothing has been erased yet, and every entry of every call so
far has been copied (`mem_log_of_idle`).  And whoever copies, copies an entry of
the call being made (`log_step`).
-/
namespace Gfd.Gather

open Transition State

variable {workers : Nat} {s t : State}

/-! ## An erased dispatch -/

/-- Worker `w` is executing its task, or will find it. -/
def Active (s : State) (w : Nat) : Prop :=
  match s.worker w with
  | .poll => s.hasWork w = true
  | .copy _ | .setDone => True
  | .clearWork => False

/-- The dispatcher will wait for a worker that does not know of its task. -/
def Forgotten (workers : Nat) (s : State) : Prop :=
  ∃ w < workers, s.Owes workers w ∧ s.done w = false ∧ ¬ Active s w

theorem not_forgotten_of_idle (h : s.dispatcher = .idle) : ¬ Forgotten workers s := by
  rintro ⟨w, -, ⟨-, -, hafter⟩, -⟩
  rw [h] at hafter
  exact hafter trivial

/-- The dispatcher gets no further than to wait for the worker. -/
theorem forgotten_dispatch (hf : Forgotten workers s) (h : s.dispatch workers = some t) :
    Forgotten workers t := by
  obtain ⟨w, hw, ⟨hbusy, hbefore, hafter⟩, hdone, hidle⟩ := hf
  refine ⟨w, hw, ?_⟩
  unfold dispatch at h
  split at h
  · cases h
  · rename_i v hd
    rw [hd] at hbefore hafter
    split at h
    · split at h <;> cases h
      · exact ⟨⟨hbusy, hbefore, hafter⟩, hdone, hidle⟩
      · exact ⟨⟨hbusy, fun hle => hbefore (Nat.le_of_succ_le hle), hafter⟩, hdone, hidle⟩
    · cases h
      exact ⟨⟨hbusy, id, id⟩, hdone, hidle⟩
  · rename_i v hd
    rw [hd] at hbefore hafter
    cases h
    have hne : w ≠ v := fun he => hbefore (Nat.le_of_eq he.symm)
    exact ⟨⟨hbusy, hbefore, hafter⟩, (Function.update_of_ne hne _ _).trans hdone, hidle⟩
  · rename_i v hd
    rw [hd] at hbefore hafter
    cases h
    have hne : w ≠ v := fun he => hbefore (Nat.le_of_eq he.symm)
    refine ⟨⟨hbusy, fun hle => hbefore (Nat.le_of_succ_le hle), hafter⟩, hdone, ?_⟩
    unfold Active at hidle ⊢
    dsimp only
    rwa [Function.update_of_ne hne]
  · rename_i i hd
    split at h <;> cases h
    · exact ⟨⟨hbusy, id, id⟩, hdone, hidle⟩
    · exact ⟨⟨hbusy, id, Nat.not_lt_zero _⟩, hdone, hidle⟩
  · rename_i v hd
    rw [hd] at hbefore hafter
    split at h
    · split at h
      · cases h
      · rename_i hv hwait
        cases h
        refine ⟨⟨hbusy, id, fun hlt => ?_⟩, hdone, hidle⟩
        rcases Nat.lt_succ_iff_lt_or_eq.mp hlt with hlt | rfl
        · exact hafter hlt
        · exact hwait ⟨hbusy, hdone⟩
    · exact absurd (Nat.lt_of_lt_of_le hw (not_lt.mp ‹_›)) hafter

theorem forgotten_work (hf : Forgotten workers s) {v : Nat} (h : s.work v = some t) :
    Forgotten workers t := by
  obtain ⟨w, hw, howes, hdone, hidle⟩ := hf
  by_cases hv : w = v
  · -- the worker itself: it polls in vain, or has yet to clear `has_work`
    subst hv
    unfold work at h
    unfold Active at hidle
    split at h <;> rename_i hpc <;> rw [hpc] at hidle
    · rw [if_neg hidle] at h
      cases h
    · exact absurd trivial hidle
    · exact absurd trivial hidle
    · cases h
      refine ⟨w, hw, howes, hdone, ?_⟩
      simp [Active, setWorker]
  · have hsame : t.dispatcher = s.dispatcher ∧ t.counts = s.counts ∧ t.done w = s.done w ∧
        t.worker w = s.worker w ∧ t.hasWork w = s.hasWork w := by
      unfold work at h
      split at h
      · split at h <;> cases h
        simp [setWorker, Function.update_of_ne hv]
      · split at h <;> cases h <;> simp [setWorker, Function.update_of_ne hv]
      · cases h
        simp [setWorker, Function.update_of_ne hv]
      · cases h
        simp [setWorker, Function.update_of_ne hv]
    obtain ⟨hd, hc, hdn, hwk, hhw⟩ := hsame
    refine ⟨w, hw, ?_, hdn.trans hdone, ?_⟩
    · simpa only [Owes, Busy, State.count, hd, hc] using howes
    · simpa only [Active, hwk, hhw] using hidle

theorem forgotten_step {a : Act} (hf : Forgotten workers s) (h : step workers s a = some t) :
    Forgotten workers t := by
  cases a with
  | call n =>
    simp only [step] at h
    split at h
    · exact absurd hf (not_forgotten_of_idle ‹_›)
    · cases h
  | dispatch => exact forgotten_dispatch hf h
  | work w =>
    simp only [step] at h
    split at h
    · exact forgotten_work hf h
    · cases h

/-- The store of `has_work` that the worker is about to erase. -/
theorem forgotten_of_not_clear (hv : s.Valid workers) {a : Act} (hc : ¬ Clear s a)
    (h : step workers s a = some t) : Forgotten workers t := by
  cases a with
  | call _ | work _ => exact absurd trivial hc
  | dispatch =>
    simp only [step, dispatch] at h
    unfold Clear at hc
    cases hd : s.dispatcher with
    | setWork w =>
      rw [hd] at h hc
      cases h
      obtain ⟨hw, hbusy, -⟩ := hv.assigned w (.inr hd)
      have hrest := hv.resting w hw fun ho => ho.2.1 (by rw [hd]; exact Nat.le_refl w)
      refine ⟨w, hw, ⟨hbusy, Nat.not_succ_le_self w, id⟩, hv.cleared w hd, ?_⟩
      rcases hrest with ⟨-, hno⟩ | ⟨hpc, -⟩
      · exact absurd hno hc
      · simp [Active, hpc]
    | _ => rw [hd] at hc; exact absurd trivial hc

/-- Either no dispatch has been erased, or the dispatcher is stuck in the call that lost it. -/
theorem clear_or_forgotten (h : ReachableFrom (step workers) init s) :
    Reachable (step workers) Clear (· = init) s ∨ Forgotten workers s := by
  induction h with
  | initial h => exact .inl (.initial h)
  | @step s t _ a _ hs ih =>
    rcases ih with ih | ih
    · by_cases hc : Clear s a
      · exact .inl (ih.step a hc hs)
      · exact .inr (forgotten_of_not_clear (valid_of_reachable ih) hc hs)
    · exact .inr (forgotten_step ih hs)

/-- **A call that returns has copied all its entries.** -/
theorem mem_log_of_idle (h : ReachableFrom (step workers) init s) (hd : s.dispatcher = .idle)
    {k n i : Nat} (hk : s.counts[k]? = some n) (hi : i < n) : (k, i) ∈ s.log := by
  rcases clear_or_forgotten h with hc | hf
  · exact ((valid_of_reachable hc).log k i).mpr ⟨n, hk, hi, fun _ hne => absurd hd hne⟩
  · exact absurd hf (not_forgotten_of_idle hd)

/-! ## Who copies -/

/-- A worker that is executing a task executes that of the call being made. -/
structure Tasked (workers : Nat) (s : State) : Prop where
  counts : s.dispatcher ≠ .idle → s.counts ≠ []
  active : ∀ w < workers, Active s w →
    s.Owes workers w ∧ s.done w = false ∧ s.task w = s.taskOf workers w
  assigned : ∀ w, s.dispatcher = .clearDone w ∨ s.dispatcher = .setWork w →
    w < workers ∧ s.Busy workers w ∧ s.task w = s.taskOf workers w
  cleared : ∀ w, s.dispatcher = .setWork w → s.done w = false

theorem tasked_init (workers : Nat) : Tasked workers Gather.init where
  counts h := absurd rfl h
  active w _ h := by simp [Active, Gather.init] at h
  assigned w h := by simp [Gather.init] at h
  cleared w h := by cases h

theorem Tasked.not_active_of_idle (hs : Tasked workers s) (hd : s.dispatcher = .idle) {w : Nat}
    (hw : w < workers) : ¬ Active s w := fun ha => by
  obtain ⟨⟨-, -, hafter⟩, -⟩ := hs.active w hw ha
  rw [hd] at hafter
  exact hafter trivial

/-- A step of the dispatcher that leaves the workers that have their task alone. -/
theorem Tasked.dispatched (hs : Tasked workers s) (hc : t.counts = s.counts)
    (hd : s.dispatcher ≠ .idle)
    (hactive : ∀ w < workers, Active t w → s.Busy workers w ∧ ¬ t.dispatcher.before w ∧
      ¬ t.dispatcher.after w ∧ t.done w = false ∧ t.task w = s.taskOf workers w)
    (hassigned : ∀ w, t.dispatcher = .clearDone w ∨ t.dispatcher = .setWork w →
      w < workers ∧ s.Busy workers w ∧ t.task w = s.taskOf workers w)
    (hcleared : ∀ w, t.dispatcher = .setWork w → t.done w = false) : Tasked workers t := by
  have hcount : t.count = s.count := by rw [State.count, State.count, hc]
  have htask : ∀ w, t.taskOf workers w = s.taskOf workers w := fun w => by
    rw [taskOf, taskOf, call, call, hcount, hc]
  have hbusy : ∀ w, t.Busy workers w ↔ s.Busy workers w := fun w => by rw [Busy, Busy, hcount]
  refine ⟨fun _ => hc ▸ hs.counts hd, fun w hw ha => ?_, fun w h => ?_, hcleared⟩
  · obtain ⟨hb, hbefore, hafter, hdone, htk⟩ := hactive w hw ha
    exact ⟨⟨(hbusy w).mpr hb, hbefore, hafter⟩, hdone, htk.trans (htask w).symm⟩
  · obtain ⟨hw, hb, htk⟩ := hassigned w h
    exact ⟨hw, (hbusy w).mpr hb, htk.trans (htask w).symm⟩

theorem tasked_dispatch (hs : Tasked workers s) (h : s.dispatch workers = some t) :
    Tasked workers t := by
  unfold dispatch at h
  split at h
  · cases h
  · rename_i v hd
    -- the dispatcher goes on from a worker it has not handed its task
    have hother : ∀ w < workers, Active s w → w ≠ v ∧ s.Busy workers w ∧ ¬ v ≤ w ∧
        s.done w = false ∧ s.task w = s.taskOf workers w := by
      intro w hw ha
      obtain ⟨⟨hb, hbefore, -⟩, hdone, htask⟩ := hs.active w hw ha
      rw [hd] at hbefore
      exact ⟨fun he => hbefore (Nat.le_of_eq he.symm), hb, hbefore, hdone, htask⟩
    have hne : s.dispatcher ≠ .idle := by rw [hd]; nofun
    split at h
    · split at h <;> cases h
      · refine hs.dispatched rfl hne (fun w hw ha => ?_) (fun w hw => ?_) nofun
        · obtain ⟨hwv, hb, hlt, hdone, htask⟩ := hother w hw ha
          exact ⟨hb, hlt, id, hdone, (Function.update_of_ne hwv _ _).trans htask⟩
        · obtain rfl : v = w := by simpa using hw
          exact ⟨‹_›, ‹_›, Function.update_self ..⟩
      · refine hs.dispatched rfl hne (fun w hw ha => ?_) (fun w hw => by simp at hw) nofun
        obtain ⟨-, hb, hlt, hdone, htask⟩ := hother w hw ha
        exact ⟨hb, fun hle => hlt (Nat.le_of_succ_le hle), id, hdone, htask⟩
    · cases h
      refine hs.dispatched rfl hne (fun w hw ha => ?_) (fun w hw => by simp at hw) nofun
      obtain ⟨-, hb, -, hdone, htask⟩ := hother w hw ha
      exact ⟨hb, id, id, hdone, htask⟩
  · rename_i v hd
    cases h
    obtain ⟨hv, hb, htask⟩ := hs.assigned v (.inl hd)
    refine hs.dispatched rfl (by rw [hd]; nofun) (fun w hw ha => ?_) (fun w hw => ?_) fun w hw => ?_
    · obtain ⟨⟨hb, hbefore, -⟩, hdone, htask⟩ := hs.active w hw ha
      rw [hd] at hbefore
      have hwv : w ≠ v := fun he => hbefore (Nat.le_of_eq he.symm)
      exact ⟨hb, hbefore, id, (Function.update_of_ne hwv _ _).trans hdone, htask⟩
    · obtain rfl : v = w := by simpa using hw
      exact ⟨hv, hb, htask⟩
    · obtain rfl : v = w := by simpa using hw
      exact Function.update_self ..
  · rename_i v hd
    cases h
    obtain ⟨hv, hb, htask⟩ := hs.assigned v (.inr hd)
    refine hs.dispatched rfl (by rw [hd]; nofun) (fun w hw ha => ?_) (fun w hw => by simp at hw) nofun
    by_cases hwv : w = v
    · subst hwv
      exact ⟨hb, Nat.not_succ_le_self w, id, hs.cleared w hd, htask⟩
    · have ha' : Active s w := by
        unfold Active at ha ⊢
        dsimp only at ha
        rwa [Function.update_of_ne hwv] at ha
      obtain ⟨⟨hb, hbefore, -⟩, hdone, htask⟩ := hs.active w hw ha'
      rw [hd] at hbefore
      exact ⟨hb, fun hle => hbefore (Nat.le_of_succ_le hle), id, hdone, htask⟩
  · rename_i i hd
    have hsame : ∀ w < workers, Active s w → s.Busy workers w ∧ s.done w = false ∧
        s.task w = s.taskOf workers w := fun w hw ha => by
      obtain ⟨⟨hb, -⟩, hdone, htask⟩ := hs.active w hw ha
      exact ⟨hb, hdone, htask⟩
    split at h <;> cases h <;>
      refine hs.dispatched rfl (by rw [hd]; nofun) (fun w hw ha => ?_) (fun w hw => by simp at hw) nofun
    · obtain ⟨hb, hdone, htask⟩ := hsame w hw ha
      exact ⟨hb, id, id, hdone, htask⟩
    · obtain ⟨hb, hdone, htask⟩ := hsame w hw ha
      exact ⟨hb, id, Nat.not_lt_zero _, hdone, htask⟩
  · rename_i v hd
    have hsame : ∀ w < workers, Active s w → s.Busy workers w ∧ ¬ w < v ∧ s.done w = false ∧
        s.task w = s.taskOf workers w := fun w hw ha => by
      obtain ⟨⟨hb, -, hafter⟩, hdone, htask⟩ := hs.active w hw ha
      rw [hd] at hafter
      exact ⟨hb, hafter, hdone, htask⟩
    split at h
    · split at h
      · cases h
      · rename_i hv hwait
        cases h
        refine hs.dispatched rfl (by rw [hd]; nofun) (fun w hw ha => ?_) (fun w hw => by simp at hw)
          nofun
        obtain ⟨hb, hlt, hdone, htask⟩ := hsame w hw ha
        refine ⟨hb, id, fun hlt' => ?_, hdone, htask⟩
        rcases Nat.lt_succ_iff_lt_or_eq.mp hlt' with hlt' | rfl
        · exact hlt hlt'
        · exact hwait ⟨hb, hdone⟩
    · cases h
      refine hs.dispatched rfl (by rw [hd]; nofun) (fun w hw ha => ?_) (fun w hw => by simp at hw) nofun
      exact absurd (Nat.lt_of_lt_of_le hw (not_lt.mp ‹_›)) (hsame w hw ha).2.1

/-- A step of worker `v` that makes nobody active. -/
theorem Tasked.worked (hs : Tasked workers s) {v : Nat} (hc : t.counts = s.counts)
    (hd : t.dispatcher = s.dispatcher) (htask : t.task = s.task)
    (hother : ∀ w ≠ v, t.worker w = s.worker w ∧ t.hasWork w = s.hasWork w ∧ t.done w = s.done w)
    (hv : Active t v → Active s v ∧ t.done v = s.done v)
    (hdone : s.dispatcher = .setWork v → t.done v = s.done v) : Tasked workers t := by
  have hcount : t.count = s.count := by rw [State.count, State.count, hc]
  have htaskOf : ∀ w, t.taskOf workers w = s.taskOf workers w := fun w => by
    rw [taskOf, taskOf, call, call, hcount, hc]
  refine ⟨fun h => hc ▸ hs.counts (hd ▸ h), fun w hw ha => ?_, fun w h => ?_, fun w h => ?_⟩
  · have hold : Active s w ∧ t.done w = s.done w := by
      by_cases hwv : w = v
      · exact hwv ▸ hv (hwv ▸ ha)
      · obtain ⟨hwk, hhw, hdn⟩ := hother w hwv
        exact ⟨by simpa only [Active, hwk, hhw] using ha, hdn⟩
    obtain ⟨howes, hdn, htk⟩ := hs.active w hw hold.1
    refine ⟨?_, hold.2.trans hdn, by rw [htaskOf, htask, htk]⟩
    simpa only [Owes, Busy, hcount, hd] using howes
  · obtain ⟨hw, hb, htk⟩ := hs.assigned w (hd ▸ h)
    refine ⟨hw, ?_, by rw [htaskOf, htask, htk]⟩
    simpa only [Busy, hcount] using hb
  · by_cases hwv : w = v
    · subst hwv
      exact (hdone (hd ▸ h)).trans (hs.cleared w (hd ▸ h))
    · exact (hother w hwv).2.2.trans (hs.cleared w (hd ▸ h))

theorem tasked_work (hs : Tasked workers s) {v : Nat} (hv : v < workers) (h : s.work v = some t) :
    Tasked workers t := by
  have hupd : ∀ (x : Worker), ∀ w ≠ v, (s.setWorker v x).worker w = s.worker w :=
    fun x w hw => Function.update_of_ne hw _ _
  unfold work at h
  split at h
  · rename_i hpc
    split at h <;> cases h
    refine hs.worked (v := v) rfl rfl rfl (fun w hw => ⟨hupd _ w hw, rfl, rfl⟩) (fun _ => ⟨?_, rfl⟩)
      fun _ => rfl
    rw [Active, hpc]
    assumption
  · rename_i i hpc
    split at h <;> cases h <;>
      exact hs.worked (v := v) rfl rfl rfl (fun w hw => ⟨hupd _ w hw, rfl, rfl⟩)
        (fun _ => ⟨by rw [Active, hpc]; trivial, rfl⟩) fun _ => rfl
  · rename_i hpc
    cases h
    have hact : Active s v := by rw [Active, hpc]; trivial
    refine hs.worked (v := v) rfl rfl rfl
      (fun w hw => ⟨hupd _ w hw, rfl, Function.update_of_ne hw _ _⟩) (fun ha => ?_) fun hd => ?_
    · simp [Active] at ha
    · -- the dispatcher has handed the worker its task already
      have hbefore := (hs.active v hv hact).1.2.1
      rw [hd] at hbefore
      exact absurd (Nat.le_refl v) hbefore
  · rename_i hpc
    cases h
    refine hs.worked (v := v) rfl rfl rfl
      (fun w hw => ⟨hupd _ w hw, Function.update_of_ne hw _ _, rfl⟩) (fun ha => ?_) fun _ => rfl
    simp [Active] at ha

theorem tasked_step {a : Act} (hs : Tasked workers s) (h : step workers s a = some t) :
    Tasked workers t := by
  cases a with
  | call n =>
    simp only [step] at h
    split at h
    · rename_i hd
      cases h
      refine ⟨fun _ => by simp, fun w hw ha => ?_, fun w h => by simp at h, by simp⟩
      exact absurd ha (hs.not_active_of_idle hd hw)
    · cases h
  | dispatch => exact tasked_dispatch hs h
  | work w =>
    simp only [step] at h
    split at h
    · exact tasked_work hs ‹_› h
    · cases h

theorem tasked_of_reachable (h : ReachableFrom (step workers) init s) : Tasked workers s :=
  h.invariant (by rintro _ rfl; exact tasked_init workers) fun _ _ _ hs _ h => tasked_step hs h

theorem stop_le (workers count w : Nat) : stop workers count w ≤ count := Nat.min_le_right _ _

/-- **Only entries of the call being made are copied**, one by one. -/
theorem log_step (hs : Tasked workers s) {a : Act} (h : step workers s a = some t) :
    t.log = s.log ∨ s.dispatcher ≠ .idle ∧ t.counts = s.counts ∧
      ∃ i < s.count, t.log = s.log ++ [(s.call, i)] := by
  cases a with
  | call n =>
    simp only [step] at h
    split at h <;> cases h
    exact .inl rfl
  | dispatch =>
    simp only [step, dispatch] at h
    split at h
    · cases h
    · split at h
      · split at h <;> cases h <;> exact .inl rfl
      · cases h; exact .inl rfl
    · cases h; exact .inl rfl
    · cases h; exact .inl rfl
    · rename_i i hd
      split at h <;> cases h
      · have hi : i < s.count := Nat.lt_of_lt_of_le ‹_› (Nat.min_le_right _ _)
        exact .inr ⟨by rw [hd]; simp, rfl, i, hi, rfl⟩
      · exact .inl rfl
    · split at h
      · split at h <;> cases h
        exact .inl rfl
      · cases h; exact .inl rfl
  | work w =>
    simp only [step] at h
    split at h
    · rename_i hw
      unfold work at h
      split at h
      · split at h <;> cases h
        exact .inl rfl
      · rename_i i hpc
        split at h <;> cases h
        · rename_i hi
          obtain ⟨⟨-, -, hafter⟩, -, htask⟩ := hs.active w hw (by rw [Active, hpc]; trivial)
          rw [htask] at hi ⊢
          refine .inr ⟨fun hd => hafter (by rw [hd]; trivial), rfl, i, ?_, rfl⟩
          exact Nat.lt_of_lt_of_le hi (stop_le ..)
        · exact .inl rfl
      · cases h; exact .inl rfl
      · cases h; exact .inl rfl
    · cases h

/-- What has been copied belongs to a call that has been made. -/
theorem lt_of_mem_log (h : ReachableFrom (step workers) init s) :
    ∀ x ∈ s.log, x.1 < s.counts.length := by
  induction h with
  | initial h =>
    subst h
    exact List.forall_mem_nil _
  | @step s t h a _ hs ih =>
    have hlen : s.counts.length ≤ t.counts.length := by
      rw [counts_step hs, List.length_append]
      exact Nat.le_add_right _ _
    have hold : ∀ x ∈ s.log, x.1 < t.counts.length := fun x hx => (ih x hx).trans_le hlen
    have htasked := tasked_of_reachable h
    rcases log_step htasked hs with hl | ⟨hd, hc, i, -, hl⟩
    · exact hl ▸ hold
    · rw [hl]
      refine List.forall_mem_append.mpr ⟨hold, List.forall_mem_singleton.mpr ?_⟩
      have := List.length_pos_of_ne_nil (htasked.counts hd)
      simp only [State.call, hc]
      omega

end Gfd.Gather
