import Mathlib
import GfdProof.Transition

/-! # A pool of cells in which regions have owners

A region is a run of cells, counted modulo the size of the pool, with what they
are to hold.  Owners take regions, write them cell by cell, pass them on to one
another, and give them up.

As long as a region is taken only where nobody owns a cell (`Orderly`), the
regions stay apart, and a cell once written holds what was written there until
its owner gives it up.
-/
namespace RegionPool

open Transition

/-- `count` cells from `base` on, and what they are to hold. -/
structure Region (F V : Type*) where
  base : Nat
  count : Nat
  data : Nat → F → V

/-- The pool, with what each owner has, and has not written yet. -/
@[ext]
structure Pool (O F V : Type*) where
  cells : Nat → F → V
  owned : O → Option (Region F V × Finset (Nat × F))

inductive Act (O F V : Type*)
  | take (o : O) (x : Region F V)
  | write (o : O) (i : Nat) (f : F)
  | handOver (o o' : O)
  | free (o : O)

variable {O F V : Type*} {size : Nat}

namespace Region

/-- The cell of the `i`-th place. -/
def cell (size : Nat) (x : Region F V) (i : Nat) : Nat := (x.base + i) % size

/-- Regions without a common cell. -/
def Apart (size : Nat) (x y : Region F V) : Prop :=
  ∀ i j, i < x.count → j < y.count → x.cell size i ≠ y.cell size j

theorem Apart.symm {x y : Region F V} (h : x.Apart size y) : y.Apart size x :=
  fun i j hi hj => (h j i hj hi).symm

/-- A region that fits into the pool does not run into itself. -/
theorem cell_inj {x : Region F V} (hx : x.count ≤ size) {i j : Nat} (hi : i < x.count)
    (hj : j < x.count) (h : x.cell size i = x.cell size j) : i = j := by
  have hm : i ≡ j [MOD size] := Nat.ModEq.add_left_cancel' x.base h
  exact hm.eq_of_lt_of_lt (hi.trans_le hx) (hj.trans_le hx)

end Region

/-- What is to be written of a region. -/
def Region.todo [Fintype F] (x : Region F V) : Finset (Nat × F) :=
  Finset.range x.count ×ˢ Finset.univ

def step [DecidableEq O] [DecidableEq F] [Fintype F] (size : Nat) (s : Pool O F V) :
    Act O F V → Option (Pool O F V)
  | .take o x =>
    match s.owned o with
    | none => some { s with owned := Function.update s.owned o (some (x, x.todo)) }
    | some _ => none
  | .write o i f =>
    match s.owned o with
    | some (x, todo) =>
      if (i, f) ∈ todo then
        some {
          cells := Function.update s.cells (x.cell size i)
            (Function.update (s.cells (x.cell size i)) f (x.data i f))
          owned := Function.update s.owned o (some (x, todo.erase (i, f))) }
      else none
    | none => none
  | .handOver o o' =>
    match s.owned o, s.owned o' with
    | some x, none =>
      some { s with owned := Function.update (Function.update s.owned o none) o' (some x) }
    | _, _ => none
  | .free o => some { s with owned := Function.update s.owned o none }

/-- A region is taken only if it fits into the pool and none of its cells is
owned. -/
def Orderly (size : Nat) (s : Pool O F V) : Act O F V → Prop
  | .take _ x => x.count ≤ size ∧ ∀ o y todo, s.owned o = some (y, todo) → x.Apart size y
  | _ => True

/-- The invariant of a pool. -/
structure Valid (size : Nat) (s : Pool O F V) : Prop where
  fits : ∀ o x todo, s.owned o = some (x, todo) → x.count ≤ size
  todo : ∀ o x todo i f, s.owned o = some (x, todo) → (i, f) ∈ todo → i < x.count
  held : ∀ o x todo i f, s.owned o = some (x, todo) → i < x.count → (i, f) ∉ todo →
    s.cells (x.cell size i) f = x.data i f
  apart : ∀ o o' x y t t', o ≠ o' → s.owned o = some (x, t) → s.owned o' = some (y, t') →
    x.Apart size y

variable {s s' : Pool O F V}

theorem valid_of_unowned (h : ∀ o, s.owned o = none) : Valid size s where
  fits o x todo ho := by cases (h o).symm.trans ho
  todo o x todo i f ho := by cases (h o).symm.trans ho
  held o x todo i f ho := by cases (h o).symm.trans ho
  apart o o' x y t t' _ ho := by cases (h o).symm.trans ho

/-- Ownership changes, and every region of the new owners is one of the old. -/
theorem Valid.reassign (hv : Valid size s) {owned : O → Option (Region F V × Finset (Nat × F))}
    {g : O → O} (hg : ∀ o x, owned o = some x → s.owned (g o) = some x)
    (hinj : ∀ o o' x y, owned o = some x → owned o' = some y → g o = g o' → o = o') :
    Valid size { s with owned := owned } where
  fits o x todo ho := hv.fits _ x todo (hg o _ ho)
  todo o x todo i f ho := hv.todo _ x todo i f (hg o _ ho)
  held o x todo i f ho := hv.held _ x todo i f (hg o _ ho)
  apart o o' x y t t' hne ho ho' :=
    hv.apart _ _ x y t t' (fun h => hne (hinj o o' _ _ ho ho' h)) (hg o _ ho) (hg o' _ ho')

variable [DecidableEq O] [DecidableEq F] [Fintype F]

theorem valid_take (hv : Valid size s) {o : O} {x : Region F V} (ho : Orderly size s (.take o x))
    (hs : step size s (.take o x) = some s') : Valid size s' := by
  simp only [step] at hs
  split at hs <;> cases hs
  obtain ⟨hfit, hapart⟩ := ho
  have hcase : ∀ p y t, Function.update s.owned o (some (x, x.todo)) p = some (y, t) →
      p = o ∧ y = x ∧ t = x.todo ∨ p ≠ o ∧ s.owned p = some (y, t) := by
    intro p y t hp
    by_cases hpo : p = o
    · subst hpo
      cases (Function.update_self ..).symm.trans hp
      exact .inl ⟨rfl, rfl, rfl⟩
    · exact .inr ⟨hpo, (Function.update_of_ne hpo _ _).symm.trans hp⟩
  refine ⟨fun p y t hp => ?_, fun p y t i f hp hi => ?_, fun p y t i f hp hi hf => ?_,
    fun p q y z t u hne hp hq => ?_⟩
  · rcases hcase p y t hp with ⟨-, rfl, -⟩ | ⟨-, hp⟩
    · exact hfit
    · exact hv.fits p y t hp
  · rcases hcase p y t hp with ⟨-, rfl, rfl⟩ | ⟨-, hp⟩
    · exact Finset.mem_range.mp (Finset.mem_product.mp hi).1
    · exact hv.todo p y t i f hp hi
  · rcases hcase p y t hp with ⟨-, rfl, rfl⟩ | ⟨-, hp⟩
    · exact absurd (Finset.mem_product.mpr ⟨Finset.mem_range.mpr hi, Finset.mem_univ f⟩) hf
    · exact hv.held p y t i f hp hi hf
  · rcases hcase p y t hp with ⟨rfl, rfl, -⟩ | ⟨-, hp'⟩ <;>
      rcases hcase q z u hq with ⟨rfl, rfl, -⟩ | ⟨-, hq'⟩
    · exact absurd rfl hne
    · exact hapart q z u hq'
    · exact (hapart p y t hp').symm
    · exact hv.apart p q y z t u hne hp' hq'

theorem valid_write (hv : Valid size s) {o : O} {i : Nat} {f : F}
    (hs : step size s (.write o i f) = some s') : Valid size s' := by
  simp only [step] at hs
  split at hs
  case h_2 => cases hs
  rename_i x todo ho
  split at hs <;> cases hs
  rename_i hif
  have hi := hv.todo o x todo i f ho hif
  have hfit := hv.fits o x todo ho
  have hcase : ∀ p y t, Function.update s.owned o (some (x, todo.erase (i, f))) p = some (y, t) →
      p = o ∧ y = x ∧ t = todo.erase (i, f) ∨ p ≠ o ∧ s.owned p = some (y, t) := by
    intro p y t hp
    by_cases hpo : p = o
    · subst hpo
      cases (Function.update_self ..).symm.trans hp
      exact .inl ⟨rfl, rfl, rfl⟩
    · exact .inr ⟨hpo, (Function.update_of_ne hpo _ _).symm.trans hp⟩
  refine ⟨fun p y t hp => ?_, fun p y t j g hp hj => ?_, fun p y t j g hp hj hg => ?_,
    fun p q y z t u hne hp hq => ?_⟩
  · rcases hcase p y t hp with ⟨-, rfl, -⟩ | ⟨-, hp⟩
    · exact hfit
    · exact hv.fits p y t hp
  · rcases hcase p y t hp with ⟨-, rfl, rfl⟩ | ⟨-, hp⟩
    · exact hv.todo o y todo j g ho (Finset.mem_of_mem_erase hj)
    · exact hv.todo p y t j g hp hj
  · rcases hcase p y t hp with ⟨-, rfl, rfl⟩ | ⟨hpo, hp⟩
    · -- another place of the same region, or another field, is as it was
      by_cases hji : y.cell size j = y.cell size i
      · have hji' := Region.cell_inj hfit hj hi hji
        subst hji'
        dsimp only
        rw [Function.update_self]
        by_cases hgf : g = f
        · subst hgf
          exact Function.update_self ..
        · rw [Function.update_of_ne hgf]
          refine hv.held o y todo j g ho hj fun h => hg (Finset.mem_erase.mpr ⟨?_, h⟩)
          simpa only [ne_eq, Prod.mk.injEq, true_and] using hgf
      · dsimp only
        rw [Function.update_of_ne hji]
        refine hv.held o y todo j g ho hj fun h => hg (Finset.mem_erase.mpr ⟨fun heq => ?_, h⟩)
        cases heq
        exact hji rfl
    · dsimp only
      rw [Function.update_of_ne (hv.apart p o y x t todo hpo hp ho j i hj hi)]
      exact hv.held p y t j g hp hj hg
  · have hback : ∀ p y t, Function.update s.owned o (some (x, todo.erase (i, f))) p = some (y, t) →
        ∃ t, s.owned p = some (y, t) := by
      intro p y t hp
      rcases hcase p y t hp with ⟨rfl, rfl, -⟩ | ⟨-, hp⟩
      · exact ⟨_, ho⟩
      · exact ⟨_, hp⟩
    obtain ⟨t, hp⟩ := hback p y t hp
    obtain ⟨u, hq⟩ := hback q z u hq
    exact hv.apart p q y z t u hne hp hq

theorem valid_handOver (hv : Valid size s) {o o' : O}
    (hs : step size s (.handOver o o') = some s') : Valid size s' := by
  simp only [step] at hs
  split at hs
  case h_2 => cases hs
  rename_i x ho ho'
  cases hs
  have hne : o' ≠ o := by
    rintro rfl
    cases ho.symm.trans ho'
  have hcase : ∀ p y, Function.update (Function.update s.owned o none) o' (some x) p = some y →
      p ≠ o ∧ s.owned (if p = o' then o else p) = some y := by
    intro p y hp
    by_cases hpo' : p = o'
    · subst hpo'
      cases (Function.update_self ..).symm.trans hp
      exact ⟨hne, by rw [if_pos rfl]; exact ho⟩
    · rw [Function.update_of_ne hpo'] at hp
      by_cases hpo : p = o
      · subst hpo
        cases (Function.update_self ..).symm.trans hp
      · rw [Function.update_of_ne hpo] at hp
        exact ⟨hpo, by rw [if_neg hpo']; exact hp⟩
  refine hv.reassign (g := fun p => if p = o' then o else p) (fun p y hp => (hcase p y hp).2)
    fun p q y z hp hq hpq => ?_
  have hpo := (hcase p y hp).1
  have hqo := (hcase q z hq).1
  split at hpq <;> split at hpq
  · exact ‹p = o'›.trans ‹q = o'›.symm
  · exact absurd hpq.symm hqo
  · exact absurd hpq hpo
  · exact hpq

theorem valid_free (hv : Valid size s) {o : O} (hs : step size s (.free o) = some s') :
    Valid size s' := by
  cases hs
  refine hv.reassign (g := id) (fun p y hp => ?_) fun _ _ _ _ _ _ h => h
  by_cases hpo : p = o
  · subst hpo
    cases (Function.update_self ..).symm.trans hp
  · exact (Function.update_of_ne hpo _ _).symm.trans hp

theorem valid_step (hv : Valid size s) {a : Act O F V} (ho : Orderly size s a)
    (hs : step size s a = some s') : Valid size s' := by
  cases a with
  | take o x => exact valid_take hv ho hs
  | write o i f => exact valid_write hv hs
  | handOver o o' => exact valid_handOver hv hs
  | free o => exact valid_free hv hs

end RegionPool
