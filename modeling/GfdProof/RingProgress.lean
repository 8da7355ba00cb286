import GfdProof.DescriptorRing

/-! # Every slot of the ring is accounted for

A slot that has been reserved is held by a producer or committed, and a committed
slot that is still to be popped shows its sequence.  So while `read_idx` is
behind `write_idx` and the entry there is not ready, the producer that holds this
slot can go on: its range starts at or before `read_idx`, so that nothing keeps it
from passing the backpressure test (`Accounted.exists_store`).
-/
namespace Gfd.Ring

open Transition

variable {P : Type} {B : Backend} [DecidableEq P] {s t : Ring P B}

structure Accounted (s : Ring P B) : Prop where
  owned : ∀ x, x < s.writeIdx → s.committed x = true ∨ ∃ p, (s.producer p).Holds x
  /-- Unless its sequence has just been cleared. -/
  marked : ∀ x, s.loop.readIdx ≤ x → s.committed x = true →
    (x = s.loop.readIdx → ∀ drain got, s.loop.pc ≠ .publish drain got) →
    (s.loop.entries (x % queueSize)).sequence = x + 1

omit [DecidableEq P] in
theorem accounted_init (b : B.State) : (init b : Ring P B).Accounted where
  owned _ h := absurd h (Nat.not_lt_zero _)
  marked _ _ h := by cases h

/-- A producer goes on without giving up a slot. -/
theorem Accounted.keep (hs : s.Accounted) {p : P} {q : Producer}
    (hq : ∀ x, (s.producer p).Holds x → q.Holds x) :
    Accounted { s with producer := Function.update s.producer p q } := by
  refine ⟨fun x hx => (hs.owned x hx).imp_right fun ⟨r, hr⟩ => ⟨r, ?_⟩, hs.marked⟩
  dsimp only
  by_cases h : r = p
  · subst h
    rw [Function.update_self]
    exact hq x hr
  · rwa [Function.update_of_ne h]

theorem accounted_reserve (hs : s.Accounted) {p : P} {count : Nat} {plan : Nat → Field → Nat}
    (hp : s.producer p = .idle) :
    Accounted { s with
      writeIdx := s.writeIdx + count
      producer := Function.update s.producer p (.waiting s.writeIdx count)
      plan := plan } := by
  refine ⟨fun x hx => ?_, hs.marked⟩
  by_cases hold : x < s.writeIdx
  · refine (hs.owned x hold).imp_right fun ⟨r, hr⟩ => ⟨r, ?_⟩
    have hne : r ≠ p := fun h => by
      rw [h, hp] at hr
      exact hr
    dsimp only
    rwa [Function.update_of_ne hne]
  · refine .inr ⟨p, ?_⟩
    dsimp only
    rw [Function.update_self]
    exact ⟨Nat.le_of_not_lt hold, hx⟩

omit [DecidableEq P] in
/-- Storing a field leaves the sequences alone. -/
theorem accounted_storeField (hs : s.Accounted) (c : Nat) (f : Field) (v : Nat) :
    Accounted { s with loop := s.loop.storeField c f v } := by
  refine ⟨hs.owned, fun x hx hc hpc => ?_⟩
  have hseq : ((s.loop.storeField c f v).entries (x % queueSize)).sequence =
      (s.loop.entries (x % queueSize)).sequence := by
    simp only [Loop.storeField, Function.update_apply]
    split <;> simp [*]
  exact hseq.trans (hs.marked x hx hc hpc)

theorem accounted_commit (hv : s.Valid) (hb : s.InWords) (hs : s.Accounted) {p : P} {base count : Nat}
    {todo : Finset Nat} (hp : s.producer p = .committing base count todo) {i : Nat} (hi : i ∈ todo) :
    Accounted { s with
      loop := s.loop.storeSequence (word (base + i) % queueSize) (word (base + i + 1))
      producer := Function.update s.producer p (.committing base count (todo.erase i))
      committed := Function.update s.committed (base + i) true } := by
  have hh : (s.producer p).Holds (base + i) := by rw [hp]; exact ⟨i, hi, rfl⟩
  have hwin := hv.window p (base + i) (by rw [hp]; rfl) hh
  obtain ⟨hlo, hhi, -⟩ := hv.held p _ hh
  rw [word_mod_queueSize, word_of_lt (show base + i + 1 < wordSize from Nat.lt_of_le_of_lt hhi hb.1)]
  refine ⟨fun x hx => ?_, fun x hx hc hpc => ?_⟩
  · by_cases hxi : x = base + i
    · subst hxi
      exact .inl (Function.update_self ..)
    · rcases hs.owned x hx with hc | ⟨r, hr⟩
      · exact .inl ((Function.update_of_ne hxi ..).trans hc)
      · refine .inr ⟨r, ?_⟩
        dsimp only
        by_cases h : r = p
        · subst h
          rw [hp] at hr
          obtain ⟨j, hj, rfl⟩ := hr
          rw [Function.update_self]
          exact ⟨j, Finset.mem_erase.mpr ⟨fun h => hxi (by rw [h]), hj⟩, rfl⟩
        · rwa [Function.update_of_ne h]
  · by_cases hxi : x = base + i
    · subst hxi
      simp [Loop.storeSequence]
    · have hc' : s.committed x = true := (Function.update_of_ne hxi ..).symm.trans hc
      have hcell : x % queueSize ≠ (base + i) % queueSize := fun h =>
        hxi (cell_inj hx (hv.committed_lt x hc').2 hlo hwin h)
      have := hs.marked x hx hc' hpc
      simpa [Loop.storeSequence, hcell] using this

omit [DecidableEq P] in
theorem accounted_loop (hv : s.Valid) (hs : s.Accounted) {l : Loop B} {a : Loop.Act B}
    (h : s.loop.step a = some l) : Accounted { s with loop := l } := by
  refine ⟨hs.owned, fun x hx hc hpc => ?_⟩
  have hnot : s.loop.pc.popping = false → ∀ drain got, s.loop.pc ≠ .publish drain got :=
    fun hp drain got he => by rw [he] at hp; cases hp
  dsimp only at hx hpc ⊢
  cases Loop.step_effect hv.batchOk h with
  | stay he hr hp hpc' =>
    rw [hr] at hx
    rw [he]
    exact hs.marked x hx hc fun hxr => by rw [← hpc']; exact hpc (hxr.trans hr.symm)
  | plain he hr hp hs' ht =>
    rw [hr] at hx
    rw [he]
    exact hs.marked x hx hc fun _ => hnot hs'
  | begin drain he hr hp hready hs' ht =>
    rw [hr] at hx
    rw [he]
    exact hs.marked x hx hc fun _ => hnot hs'
  | load drain todo got f he hr hp hs' ht =>
    rw [hr] at hx
    rw [he]
    exact hs.marked x hx hc fun _ => by rw [hs']; exact nofun
  | copied drain got he hr hp hs' ht =>
    rw [hr] at hx
    rw [he]
    exact hs.marked x hx hc fun _ => by rw [hs']; exact nofun
  | merged got he hr hp hs' ht =>
    rw [hr] at hx
    rw [he]
    exact hs.marked x hx hc fun _ => by rw [hs']; exact nofun
  | cleared drain got he hr hp hs' ht =>
    rw [hr] at hx hpc
    have hne : x ≠ s.loop.readIdx := fun hxr => hpc hxr drain got ht
    have hcell : x % queueSize ≠ s.loop.readIdx % queueSize := fun h =>
      hne (cell_inj hx (hv.committed_lt x hc).2 (Nat.le_refl _)
        (Nat.lt_add_of_pos_right (by decide)) h)
    rw [he]
    have := hs.marked x hx hc fun _ => by rw [hs']; exact nofun
    simpa [Loop.storeSequence, hcell] using this
  | published drain got he hr hp hs' ht =>
    rw [he]
    exact hs.marked x (by omega) hc fun hxr => by omega

theorem accounted_step (hv : s.Valid) (hb : s.InWords) (hs : s.Accounted) {a : Act P B}
    (h : s.step a = some t) : t.Accounted := by
  cases a with
  | reserve p count vals =>
    simp only [step] at h
    split at h
    · cases h; exact accounted_reserve hs ‹_›
    · cases h
  | wait p =>
    simp only [step] at h
    split at h
    · rename_i base count hp
      split at h
      · cases h; exact hs.keep fun x hx => by rw [hp] at hx; exact hx
      · cases h
    · cases h
  | write p i f =>
    simp only [step] at h
    split at h
    · rename_i base count todo hp
      split at h
      · cases h
        exact (accounted_storeField hs _ f _).keep fun x hx => by
          have hx : (s.producer p).Holds x := hx
          rw [hp] at hx
          exact hx
      · cases h
    · cases h
  | fence p =>
    simp only [step] at h
    split at h
    · rename_i base count todo hp
      split at h
      · cases h
        refine hs.keep fun x hx => ?_
        rw [hp] at hx
        exact ⟨x - base, Finset.mem_range.mpr (by have := hx.1; have := hx.2; omega),
          (Nat.add_sub_of_le hx.1).symm⟩
      · cases h
    · cases h
  | commit p i =>
    simp only [step] at h
    split at h
    · split at h
      · cases h; exact accounted_commit hv hb hs ‹_› ‹_›
      · cases h
    · cases h
  | release p =>
    simp only [step] at h
    split at h
    · rename_i base count todo hp
      split at h
      · rename_i htodo
        cases h
        refine hs.keep fun x hx => ?_
        rw [hp, htodo] at hx
        obtain ⟨i, hi, -⟩ := hx
        exact absurd hi (Finset.notMem_empty i)
      · cases h
    · cases h
  | loop a =>
    obtain ⟨l, hl, rfl⟩ := Option.map_eq_some_iff.mp h
    exact accounted_loop hv hs hl

/-! ## Progress -/

/-- A step of a producer that has reserved its slots. -/
def Act.stores : Act P B → Bool
  | .wait _ | .write _ _ _ | .fence _ | .commit _ _ => true
  | _ => false

/-- **Backpressure does not block for good.**  While `read_idx` is behind `write_idx` and the entry
there is not ready, the producer of that slot can go on. -/
theorem Accounted.exists_store (hs : s.Accounted) (hv : s.Valid) (hb : s.InWords)
    (hpc : s.loop.pc.popping = false) (hready : s.loop.ready = false)
    (hlt : s.loop.readIdx < s.writeIdx)
    (hfit : ∀ p base count, s.producer p = .waiting base count → count ≤ queueSize) :
    ∃ a t, s.step a = some t ∧ a.stores = true := by
  rcases hs.owned _ hlt with hc | ⟨p, hp⟩
  · -- a committed entry would be ready
    have hseq := hs.marked _ (Nat.le_refl _) hc fun _ drain got h => by
      rw [h] at hpc
      cases hpc
    have : s.loop.ready = true := by
      unfold Loop.ready Loop.entry
      rw [hseq, word_of_lt hb.2]
      exact beq_self_eq_true _
    rw [this] at hready
    cases hready
  · cases hprod : s.producer p with
    | idle =>
      rw [hprod] at hp
      exact hp.elim
    | waiting base count =>
      rw [hprod] at hp
      have hlast := (hv.held p (base + count - 1) (by
        rw [hprod]
        have := hp.1
        have := hp.2
        exact ⟨by omega, by omega⟩)).2.1
      have hle := hfit p base count hprod
      refine ⟨.wait p, _, step_wait hprod ?_, rfl⟩
      rw [subWord_of_le (Nat.lt_of_le_of_lt (by omega) hb.1) (Nat.le_of_lt hp.2)]
      have := hp.1
      omega
    | writing base count todo =>
      by_cases h : todo = ∅
      · subst h
        exact ⟨.fence p, _, step_fence hprod, rfl⟩
      · obtain ⟨⟨i, f⟩, hi⟩ := Finset.nonempty_iff_ne_empty.mpr h
        exact ⟨.write p i f, _, step_write hprod hi, rfl⟩
    | committing base count todo =>
      rw [hprod] at hp
      obtain ⟨i, hi, -⟩ := hp
      exact ⟨.commit p i, _, step_commit hprod hi, rfl⟩

omit [DecidableEq P] in
/-- When everything reserved has been popped, nobody holds a slot. -/
theorem Valid.none_held (hv : s.Valid) (h : s.loop.readIdx = s.writeIdx) (p : P) (x : Nat) :
    ¬ (s.producer p).Holds x := fun hp => by
  obtain ⟨h1, h2, -⟩ := hv.held p x hp
  omega

end Gfd.Ring
