import GfdProof.CallProgress

/-! # The polling thread while it searches

Between two pops the thread reads the sequence of one entry again and again: at
the top of its loop, in the gap wait, in the idle branch.  `Futile` is a step of
such a search that finds the entry not ready and does not flush.  This module
says what is known of a thread that is never stopped while it searches
(`Main`), where it cuts a batch (`Marked`, `Cut`), and that at any other point
it, or what it waits for, can move (`exists_useful`).
-/
namespace Gfd

open Transition Script.Machine

/-- Looking for the next entry, or inside the idle branch. -/
def Pc.searching : Pc → Bool
  | .top | .peek _ | .next | .gap _ | .idling | .idleSeq => true
  | _ => false

/-- A thread that looks for a slot is in no `flush_batch`. -/
theorem Pc.not_flushing_of_searching {pc : Pc} (h : pc.searching = true) : pc.inCall ≠ some true := by
  cases pc <;> simp_all [searching, inCall]

/-- Nor is it popping one. -/
theorem Pc.not_popping_of_searching {pc : Pc} (h : pc.searching = true) : pc.popping = false := by
  cases pc <;> simp_all [searching, popping]

/-- In the main loop. -/
def Pc.main : Pc → Bool
  | .peek true | .copy true .. | .clear true _ | .publish true _ | .flushing true | .flushingLast
  | .finishing | .stopped => false
  | _ => true

namespace Loop

variable {B : Backend} {s t : Loop B}

/-- Running, and in the main loop. -/
def Main (s : Loop B) : Prop := s.running = true ∧ s.pc.main = true

theorem main_init (b : B.State) : (init b).Main := ⟨rfl, rfl⟩

/-- After the pops the thread is in its main loop. -/
theorem afterPops_main (s : Loop B) : s.afterPops.running = s.running ∧ s.afterPops.pc.main = true := by
  unfold afterPops
  split <;> exact ⟨rfl, rfl⟩

theorem afterPublish_main (s : Loop B) :
    s.afterPublish.running = s.running ∧ s.afterPublish.pc.main = true := by
  unfold afterPublish
  dsimp only
  split
  · exact afterPops_main _
  · exact ⟨rfl, rfl⟩

theorem main_poll (hs : s.Main) (h : s.poll = some t) : t.Main := by
  obtain ⟨hrun, hpc⟩ := hs
  unfold poll at h
  split at h
  case h_1 =>
    cases h
    exact ⟨hrun, by rw [hrun]; rfl⟩
  case h_2 =>
    split at h
    · cases h; exact ⟨hrun, rfl⟩
    · split at h <;> cases h <;> exact ⟨hrun, rfl⟩
  case h_3 hp => rw [hp] at hpc; cases hpc
  case h_4 drain todo got hp =>
    split at h
    · cases h
      rw [hp] at hpc
      cases drain
      · exact ⟨hrun, rfl⟩
      · cases hpc
    · cases h
  case h_5 => cases h; exact ⟨hrun, rfl⟩
  case h_6 drain got hp =>
    cases h
    rw [hp] at hpc
    cases drain
    · exact ⟨hrun, rfl⟩
    · cases hpc
  case h_7 drain got hp =>
    rw [hp] at hpc
    cases drain
    · cases h
      obtain ⟨hr, hm⟩ := afterPublish_main (s.pop got)
      exact ⟨hr.trans hrun, hm⟩
    · cases hpc
  case h_8 =>
    cases h
    split
    · exact ⟨hrun, rfl⟩
    · obtain ⟨hr, hm⟩ := afterPops_main s
      exact ⟨hr.trans hrun, hm⟩
  case h_9 =>
    cases h
    split
    · exact ⟨hrun, rfl⟩
    · split <;> exact ⟨hrun, rfl⟩
  case h_10 drain hp =>
    rw [hp] at hpc
    split at h
    · cases h
    · cases h
      cases drain
      · exact ⟨hrun, rfl⟩
      · cases hpc
  case h_11 =>
    split at h
    · cases h
    · cases h
      refine ⟨hrun, ?_⟩
      dsimp only
      split <;> rfl
  case h_12 =>
    cases h
    split <;> exact ⟨hrun, rfl⟩
  case h_13 hp => rw [hp] at hpc; cases hpc
  case h_14 hp => rw [hp] at hpc; cases hpc
  case h_15 => cases h

/-- Only `stop` takes the thread out of its main loop. -/
theorem main_step (hs : s.Main) {a : Act B} (h : s.step a = some t) (ha : a ≠ .stop) : t.Main := by
  cases a with
  | start =>
    simp only [step] at h
    split at h
    · rename_i hpc
      have := hs.2
      rw [hpc] at this
      cases this
    · cases h
  | stop => exact absurd rfl ha
  | poll => exact main_poll hs h
  | load f =>
    simp only [step] at h
    split at h
    · rename_i drain todo got hpc
      split at h
      · cases h
        have := hs.2
        rw [hpc] at this
        cases drain
        · exact ⟨hs.1, rfl⟩
        · cases this
      · cases h
    · cases h
  | backend b =>
    obtain ⟨b', -, rfl⟩ := Option.map_eq_some_iff.mp h
    exact hs

/-! ## Where the thread cuts a batch -/

/-- No descriptor of the batch ends a chunk. -/
def Open (batch : List Descriptor) : Prop := ∀ d ∈ batch, hasFlag d.flags flagLastInTile = false

theorem open_nil : Open [] := List.forall_mem_nil _

/-- The last descriptor of a batch carries the flag, and no other does. -/
def Ends (batch : List Descriptor) : Prop :=
  ∃ ds d, batch = ds ++ [d] ∧ Open ds ∧ hasFlag d.flags flagLastInTile = true

/-- A batch that is handed over with the flag ends a list. -/
def Cut (b : List Descriptor × Nat) : Prop := hasFlag b.2 flagLastInTile = true → Ends b.1

/-- One that is handed over without it ends none. -/
def Whole (b : List Descriptor × Nat) : Prop := hasFlag b.2 flagLastInTile = false → Open b.1

/-- In the main loop the partial batch and `or_flags` are without the flag, but for that of the entry
at hand; in the drain loop `or_flags` is. -/
def Marked (s : Loop B) : Prop :=
  match s.pc with
  | .flushing _ | .flushingLast | .finishing | .stopped => True
  | .clear false got | .publish false got => Open s.batch ∧
      hasFlag s.orFlags flagLastInTile = hasFlag (got .flags) flagLastInTile
  | .peek true | .copy true .. | .clear true _ | .publish true _ =>
    hasFlag s.orFlags flagLastInTile = false
  | _ => Open s.batch ∧ hasFlag s.orFlags flagLastInTile = false

/-- The step hands over no batch, or one that is cut where a list ends; in the main loop it is cut
nowhere else. -/
def Hands (s t : Loop B) : Prop :=
  t.flushed = s.flushed ∨
    ∃ b, t.flushed = s.flushed ++ [b] ∧ Cut b ∧ (s.pc.main = true → Whole b)

theorem hands_of_whole (h : t.flushed = s.flushed ∨ ∃ b, t.flushed = s.flushed ++ [b] ∧ Cut b ∧ Whole b) :
    s.Hands t := by
  rcases h with h | ⟨b, hb, hcut, hwhole⟩
  · exact .inl h
  · exact .inr ⟨b, hb, hcut, fun _ => hwhole⟩

theorem hands_of_drain (hpc : s.pc.main = false)
    (h : t.flushed = s.flushed ∨ ∃ b, t.flushed = s.flushed ++ [b] ∧ Cut b) : s.Hands t := by
  rcases h with h | ⟨b, hb, hcut⟩
  · exact .inl h
  · exact .inr ⟨b, hb, hcut, fun hm => Bool.noConfusion (hpc.symm.trans hm)⟩

theorem marked_init (b : B.State) : (init b).Marked := ⟨open_nil, hasFlag_zero _⟩

theorem cut_of_unflagged {b : List Descriptor × Nat} (h : hasFlag b.2 flagLastInTile = false) : Cut b :=
  fun hf => Bool.noConfusion (h.symm.trans hf)

theorem marked_afterPops (hflag : hasFlag s.orFlags flagLastInTile = false → Open s.batch)
    (hcut : Cut (s.batch, s.orFlags)) : s.afterPops.Marked ∧ (s.afterPops.flushed = s.flushed ∨
      ∃ b, s.afterPops.flushed = s.flushed ++ [b] ∧ Cut b ∧ Whole b) := by
  unfold afterPops
  split
  · exact ⟨trivial, .inr ⟨_, rfl, hcut, hflag⟩⟩
  · rename_i hn
    have hfalse : hasFlag s.orFlags flagLastInTile = false := by
      refine Bool.eq_false_iff.mpr fun hf => hn (.inr ?_)
      rw [hasFlag_mask_or, hf, Bool.or_true]
    exact ⟨⟨hflag hfalse, hfalse⟩, .inl rfl⟩

theorem marked_afterPublish (hB : B.inTiles = true)
    (hflag : hasFlag s.orFlags flagLastInTile = false → Open s.batch)
    (hcut : Cut (s.batch, s.orFlags)) : s.afterPublish.Marked ∧ (s.afterPublish.flushed = s.flushed ∨
      ∃ b, s.afterPublish.flushed = s.flushed ++ [b] ∧ Cut b ∧ Whole b) := by
  unfold afterPublish
  dsimp only
  split
  · exact marked_afterPops (s := { s with threshold := adapt s.batch s.threshold }) hflag hcut
  · rename_i hn
    have hfalse : hasFlag s.orFlags flagLastInTile = false :=
      Bool.eq_false_iff.mpr fun hf => hn (.inr (.inr ⟨hB, hf⟩))
    exact ⟨⟨hflag hfalse, hfalse⟩, .inl rfl⟩

theorem marked_afterDrain (hflag : hasFlag s.orFlags flagLastInTile = false) :
    s.afterDrain.Marked ∧ (s.afterDrain.flushed = s.flushed ∨
      ∃ b, s.afterDrain.flushed = s.flushed ++ [b] ∧ Cut b) := by
  unfold afterDrain
  split
  · exact ⟨trivial, .inr ⟨_, rfl, cut_of_unflagged hflag⟩⟩
  · exact ⟨hflag, .inl rfl⟩

/-- The batch with the entry at hand. -/
theorem cut_pop {got : Field → Nat} (hopen : Open s.batch) (hflag :
    hasFlag s.orFlags flagLastInTile = hasFlag (got .flags) flagLastInTile) :
    (hasFlag (s.pop got).orFlags flagLastInTile = false → Open (s.pop got).batch) ∧
      Cut ((s.pop got).batch, (s.pop got).orFlags) := by
  refine ⟨fun hf => List.forall_mem_append.mpr ⟨hopen, List.forall_mem_singleton.mpr ?_⟩,
    fun hf => ⟨s.batch, _, rfl, hopen, ?_⟩⟩
  · exact hflag.symm.trans hf
  · exact hflag.symm.trans hf

theorem marked_poll (hB : B.inTiles = true)
    (hmerge : ∀ got, s.pc = .mergeFlags got → s.entry.field .flags = got .flags)
    (hs : s.Marked) (h : s.poll = some t) : t.Marked ∧ s.Hands t := by
  unfold Marked at hs
  unfold poll at h
  split at h <;> rename_i hpc <;> rw [hpc] at hs
  case h_1 => -- `running_` is loaded
    cases h
    cases s.running
    · exact ⟨hs.2, .inl rfl⟩
    · exact ⟨hs, .inl rfl⟩
  case h_2 =>
    split at h
    · cases h; exact ⟨hs, .inl rfl⟩
    · split at h <;> cases h <;> exact ⟨hs, .inl rfl⟩
  case h_3 =>
    split at h
    · cases h; exact ⟨hs, .inl rfl⟩
    · split at h <;> cases h
      · exact ⟨trivial, hands_of_drain (by rw [hpc]; rfl) (.inr ⟨_, rfl, cut_of_unflagged hs⟩)⟩
      · exact ⟨trivial, .inl rfl⟩
  case h_4 drain todo got =>
    split at h <;> cases h
    cases drain <;> exact ⟨hs, .inl rfl⟩
  case h_5 got => -- the flags of the entry are merged
    cases h
    refine ⟨⟨hs.1, ?_⟩, .inl rfl⟩
    show hasFlag (s.orFlags ||| s.entry.field .flags) flagLastInTile = _
    rw [hasFlag_or, hs.2, Bool.false_or, hmerge got hpc]
  case h_6 drain got =>
    cases h
    cases drain <;> exact ⟨hs, .inl rfl⟩
  case h_7 drain got =>
    cases drain <;> cases h
    · obtain ⟨hopen, hcut⟩ := cut_pop (s := s) hs.1 hs.2
      obtain ⟨hmarked, hhands⟩ := marked_afterPublish (s := s.pop got) hB hopen hcut
      exact ⟨hmarked, hands_of_whole hhands⟩
    · obtain ⟨hmarked, hhands⟩ := marked_afterDrain (s := s.pop got) hs
      exact ⟨hmarked, hands_of_drain (by rw [hpc]; rfl) hhands⟩
  case h_8 =>
    cases h
    split
    · exact ⟨hs, .inl rfl⟩
    · obtain ⟨hmarked, hhands⟩ := marked_afterPops (fun _ => hs.1) (cut_of_unflagged hs.2)
      exact ⟨hmarked, hands_of_whole hhands⟩
  case h_9 spin =>
    cases h
    split
    · exact ⟨hs, .inl rfl⟩
    · split
      · exact ⟨hs, .inl rfl⟩
      · exact ⟨trivial, .inr ⟨_, rfl, cut_of_unflagged hs.2, fun _ _ => hs.1⟩⟩
  case h_10 drain =>
    split at h <;> cases h
    cases drain
    · exact ⟨⟨open_nil, hasFlag_zero _⟩, .inl rfl⟩
    · exact ⟨hasFlag_zero _, .inl rfl⟩
  case h_11 =>
    split at h <;> cases h
    unfold Marked
    cases B.eventsInflight s.backend <;> exact ⟨hs, .inl rfl⟩
  case h_12 =>
    cases h
    split <;> exact ⟨hs, .inl rfl⟩
  case h_13 =>
    split at h <;> cases h
    exact ⟨trivial, .inl rfl⟩
  case h_14 =>
    split at h <;> cases h
    exact ⟨trivial, .inl rfl⟩
  case h_15 => cases h

theorem marked_step (hB : B.inTiles = true)
    (hmerge : ∀ got, s.pc = .mergeFlags got → s.entry.field .flags = got .flags)
    (hs : s.Marked) {a : Act B} (h : s.step a = some t) : t.Marked ∧ s.Hands t := by
  cases a with
  | start =>
    simp only [step] at h
    split at h <;> cases h
    exact ⟨⟨open_nil, hasFlag_zero _⟩, .inl rfl⟩
  | stop => cases h; exact ⟨hs, .inl rfl⟩
  | poll => exact marked_poll hB hmerge hs h
  | load f =>
    simp only [step] at h
    split at h
    · rename_i drain todo got hpc
      split at h <;> cases h
      unfold Marked at hs ⊢
      rw [hpc] at hs
      cases drain <;> exact ⟨hs, .inl rfl⟩
    · cases h
  | backend b =>
    obtain ⟨b', -, rfl⟩ := Option.map_eq_some_iff.mp h
    exact ⟨hs, .inl rfl⟩

/-- Outside `flush_batch` the partial batch of the main loop is without the flag. -/
theorem Marked.open_batch (hs : s.Marked) (hm : s.Main) (hpc : s.pc.inCall ≠ some true) :
    Open s.batch := by
  obtain ⟨-, hmain⟩ := hm
  unfold Marked at hs
  cases hp : s.pc with
  | flushing | flushingLast =>
    rw [hp] at hpc
    exact absurd rfl hpc
  | peek drain | copy drain | clear drain | publish drain =>
    rw [hp] at hs hmain
    cases drain
    · exact hs.1
    · cases hmain
  | finishing | stopped =>
    rw [hp] at hmain
    cases hmain
  | _ =>
    rw [hp] at hs
    exact hs.1

/-! ## What the thread can do -/

variable {cfg : Config}

theorem unblocked_start (h : Host) (hd : h.device = .empty) : Unblocked (cfg.start h).backend where
  valid := by
    show h.device.Valid
    rw [hd]
    exact WorkStreams.Device.valid_empty
  layered := by
    show h.device.Layered Channel
    rw [hd]
    exact WorkStreams.Device.layered_empty
  ordered := trivial

/-- No step of the loop blocks it for good. -/
theorem unblocked_openStep {s t : Loop cfg.backend} (hbase : s.Base) (hs : Unblocked s.backend)
    {a : OpenAct cfg.backend} (h : s.openStep a = some t) : Unblocked t.backend := by
  cases a with
  | storeField c f v => cases h; exact hs
  | storeSequence c v => cases h; exact hs
  | loop a =>
    cases a with
    | start =>
      simp only [openStep, step] at h
      split at h
      · cases h; exact hs
      · cases h
    | stop => cases h; exact hs
    | load f =>
      simp only [openStep, step] at h
      split at h
      · split at h
        · cases h; exact hs
        · cases h
      · cases h
    | backend b =>
      obtain ⟨u, hu, rfl⟩ := Option.map_eq_some_iff.mp h
      exact unblocked_step hs hu
    | poll =>
      cases (poll_calls hbase.filled hbase.batchOk h).1 with
      | plain hb => rw [hb]; exact hs
      | flush hb => rw [hb]; exact ⟨hs.valid, hs.layered, trivial, trivial⟩
      | idle hb => rw [hb]; exact ⟨hs.valid, hs.layered, trivial, trivial⟩
      | finish hb => rw [hb]; exact ⟨hs.valid, hs.layered, trivial, trivial⟩

/-- A step of the thread by which a search goes on: the entry is not ready, and no batch is
flushed. -/
def Futile (s : Loop cfg.backend) : Act cfg.backend → Prop
  | .poll => s.pc.searching = true ∧ s.ready = false ∧ ∀ t, s.poll = some t → t.flushed = s.flushed
  | .backend a =>
    match (show Script.Act HostEnv from a) with
    | .perform => s.pc.searching = true ∧ s.ready = false
    | .env _ => False
  | _ => False

/-- The thread or its environment can do something that is not part of a vain search. -/
def Useful (s : Loop cfg.backend) : Prop :=
  ∃ a t, a ≠ .start ∧ a ≠ .stop ∧ s.step a = some t ∧ ¬ s.Futile a

theorem step_backend {s : Loop cfg.backend} {a : Script.Act HostEnv} {u : Script.State Host Call}
    (h : cfg.machine.step s.backend a = some u) :
    s.step (.backend a) = some { s with backend := u } := by
  show Option.map (fun b : cfg.backend.State => { s with backend := b })
    (cfg.machine.step s.backend a) = _
  rw [h]
  rfl

/-- While the host moves, something useful can happen. -/
theorem useful_of_moving {s : Loop cfg.backend} (h : s.backend.data.Moving) : s.Useful := by
  obtain ⟨e, t, he⟩ := h
  have hstep : cfg.machine.step s.backend (.env e) = some ⟨t, s.backend.todo⟩ :=
    congrArg (Option.map _) he
  exact ⟨.backend (.env e), _, nofun, nofun, step_backend hstep, id⟩

/-- So it can while the poll is not in vain. -/
theorem useful_of_poll {s t : Loop cfg.backend} (h : s.poll = some t)
    (hn : ¬ (s.pc.searching = true ∧ s.ready = false)) : s.Useful :=
  ⟨.poll, t, nofun, nofun, h, fun hf => hn ⟨hf.1, hf.2.1⟩⟩

/-- A call goes on. -/
theorem useful_of_call {s : Loop cfg.backend} (hu : Unblocked s.backend) (hne : s.backend.todo ≠ [])
    (hn : ¬ (s.pc.searching = true ∧ s.ready = false)) : s.Useful := by
  have hmove : s.backend.data.Moving ∨ ∃ t, cfg.machine.step s.backend .perform = some t :=
    hu.exists_step hne
  rcases hmove with hm | ⟨t, ht⟩
  · exact useful_of_moving hm
  · exact ⟨.backend .perform, _, nofun, nofun, step_backend ht, hn⟩

/-- **A thread in its main loop** can move, or its environment can, unless it searches for an entry
that is not ready. -/
theorem exists_useful {s : Loop cfg.backend} (hm : s.Main) (hu : Unblocked s.backend)
    (hn : ¬ (s.pc.searching = true ∧ s.ready = false)) : s.Useful := by
  have hready : s.pc.searching = true → s.ready = true := fun hs => by
    by_contra hr
    exact hn ⟨hs, Bool.eq_false_iff.mpr hr⟩
  have hmain := hm.2
  -- a call that has returned lets the thread go on
  have hreturned : ∀ {u : Loop cfg.backend}, (s.backend.todo = [] → s.poll = some u) → s.Useful := by
    intro u h
    by_cases htodo : s.backend.todo = []
    · exact useful_of_poll (h htodo) hn
    · exact useful_of_call hu htodo hn
  have hbusy : s.backend.todo = [] → cfg.backend.busy s.backend = false := fun h => by
    show (!s.backend.todo.isEmpty) = false
    rw [h]
    rfl
  cases hpc : s.pc with
  | top => exact useful_of_poll (by rw [poll, hpc]) hn
  | peek drain =>
    cases drain
    · exact useful_of_poll (by rw [poll, hpc]; exact if_pos (hready (by rw [hpc]; rfl))) hn
    · rw [hpc] at hmain
      cases hmain
  | copy drain todo got =>
    by_cases h : todo = ∅
    · exact useful_of_poll (by rw [poll, hpc]; exact if_pos h) hn
    · obtain ⟨f, hf⟩ := Finset.nonempty_iff_ne_empty.mpr h
      have hstep : s.step (.load f) = some { s with
          pc := .copy drain (todo.erase f) (Function.update got f (s.entry.field f)) } := by
        rw [step, hpc]
        exact if_pos hf
      exact ⟨.load f, _, by simp, by simp, hstep, id⟩
  | mergeFlags got => exact useful_of_poll (by rw [poll, hpc]) hn
  | clear drain got => exact useful_of_poll (by rw [poll, hpc]) hn
  | publish drain got => exact useful_of_poll (by rw [poll, hpc]) hn
  | next => exact useful_of_poll (by rw [poll, hpc]) hn
  | gap spin => exact useful_of_poll (by rw [poll, hpc]) hn
  | flushing drain =>
    exact hreturned fun h => by
      rw [poll, hpc]
      exact if_neg (Bool.eq_false_iff.mp (hbusy h))
  | idling =>
    exact hreturned fun h => by
      rw [poll, hpc]
      exact if_neg (Bool.eq_false_iff.mp (hbusy h))
  | idleSeq => exact useful_of_poll (by rw [poll, hpc]) hn
  | flushingLast | finishing | stopped =>
    rw [hpc] at hmain
    cases hmain

end Loop
end Gfd
