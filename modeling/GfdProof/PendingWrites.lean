import Mathlib

/-! # Writes on their way to a memory

A memory, and writes that have not been performed.  A write gives values to some cells.  The writes
left are on their way to the memory `T` when each of them gives its cells what `T` has, and a cell
in which the memory still differs from `T` is a cell of one of them (`Toward`).  Performing one of
them keeps it so, whichever it is (`Toward.perform`), and when none is left the memory is `T`
(`Toward.eq`).  So their order does not matter, and cells written more than once do not either.
-/
namespace PendingWrites

variable {ι κ α β : Type*}

/-- The memory after a write. -/
def apply (w : α → Option β) (m : α → β) (a : α) : β := (w a).getD (m a)

theorem apply_of_none {w : α → Option β} {m : α → β} {a : α} (h : w a = none) : apply w m a = m a := by
  rw [apply, h, Option.getD_none]

theorem apply_of_some {w : α → Option β} {m : α → β} {a : α} {v : β} (h : w a = some v) :
    apply w m a = v := by
  rw [apply, h, Option.getD_some]

/-- Write `i` of those left is `f i`. -/
structure Toward (f : ι → α → Option β) (T : α → β) (W : Set ι) (m : α → β) : Prop where
  agree : ∀ i ∈ W, ∀ a v, f i a = some v → v = T a
  left : ∀ a, m a ≠ T a → ∃ i ∈ W, (f i a).isSome

namespace Toward

variable {f g : ι → α → Option β} {T T' m : α → β} {W W' : Set ι}

/-- When no write is left the memory is the one aimed at. -/
theorem eq (h : Toward f T W m) (hW : ∀ i, i ∉ W) : m = T := by
  funext a
  by_contra hne
  obtain ⟨i, hi, -⟩ := h.left a hne
  exact hW i hi

/-- **A write is performed**; the others are left. -/
theorem perform (h : Toward f T W m) {i : ι} (hi : i ∈ W) (hsub : W' ⊆ W) (hW : W ⊆ insert i W') :
    Toward f T W' (apply (f i) m) := by
  refine ⟨fun j hj => h.agree j (hsub hj), fun a hne => ?_⟩
  cases hv : f i a with
  | some v =>
    rw [apply_of_some hv] at hne
    exact absurd (h.agree i hi a v hv) hne
  | none =>
    rw [apply_of_none hv] at hne
    obtain ⟨j, hj, hsome⟩ := h.left a hne
    rcases hW hj with rfl | hj
    · rw [hv] at hsome
      cases hsome
    · exact ⟨j, hj, hsome⟩

/-- What it writes is what the memory aimed at has. -/
theorem apply_or (h : Toward f T W m) {i : ι} (hi : i ∈ W) (a : α) :
    apply (f i) m a = m a ∨ apply (f i) m a = T a := by
  cases hv : f i a with
  | none => exact .inl (apply_of_none hv)
  | some v => exact .inr ((apply_of_some hv).trans (h.agree i hi a v hv))

/-- The same memory, and the same writes left, described in another way. -/
theorem congr (h : Toward f T W m) (hW : W = W') (hf : ∀ i ∈ W, g i = f i) : Toward g T W' m := by
  subst hW
  refine ⟨fun i hi a v hv => h.agree i hi a v (by rw [← hf i hi]; exact hv), fun a hne => ?_⟩
  obtain ⟨i, hi, hsome⟩ := h.left a hne
  exact ⟨i, hi, by rw [hf i hi]; exact hsome⟩

/-- Other writes of the same values to at least the same cells. -/
theorem replace {g : κ → α → Option β} {V : Set κ} (h : Toward f T W m)
    (hagree : ∀ j ∈ V, ∀ a v, g j a = some v → v = T a)
    (hleft : ∀ i ∈ W, ∀ a, (f i a).isSome → ∃ j ∈ V, (g j a).isSome) : Toward g T V m := by
  refine ⟨hagree, fun a hne => ?_⟩
  obtain ⟨i, hi, hsome⟩ := h.left a hne
  exact hleft i hi a hsome

/-- Writes are added, and the memory aimed at changes in their cells only. -/
theorem retarget (h : Toward f T W m) (hsub : W ⊆ W')
    (hold : ∀ i ∈ W, ∀ a, (f i a).isSome → T' a = T a)
    (hnew : ∀ i ∈ W', i ∉ W → ∀ a v, f i a = some v → v = T' a)
    (hleft : ∀ a, T' a ≠ T a → ∃ i ∈ W', (f i a).isSome) : Toward f T' W' m := by
  refine ⟨fun i hi a v hv => ?_, fun a hne => ?_⟩
  · by_cases hW : i ∈ W
    · rw [hold i hW a (by rw [hv]; rfl)]
      exact h.agree i hW a v hv
    · exact hnew i hi hW a v hv
  · by_cases hT : T' a = T a
    · rw [hT] at hne
      obtain ⟨i, hi, hsome⟩ := h.left a hne
      exact ⟨i, hsub hi, hsome⟩
    · exact hleft a hT

end Toward

end PendingWrites
