import Mathlib

/-! # Arrays whose accesses are checked

A local array of a function has a fixed number of cells, which hold nothing until
they are written.  `read` and `write` fail outside the array, and `read` fails at
a cell that has not been written, so a computation that succeeds has made no such
access.

What an array holds is said by a function on some of its cells (`Holds`), or by a
list in its first ones (`Lists`).
-/

structure Scratch (size : Nat) (α : Type*) where
  cell : Nat → Option α

namespace Scratch

variable {α β : Type*} {size : Nat}

def fresh : Scratch size α := ⟨fun _ => none⟩

def filled (x : α) : Scratch size α := ⟨fun _ => some x⟩

def read (a : Scratch size α) (i : Nat) : Option α := if i < size then a.cell i else none

def write (a : Scratch size α) (i : Nat) (x : α) : Option (Scratch size α) :=
  if i < size then some ⟨Function.update a.cell i (some x)⟩ else none

/-- `count` cells from `start` on. -/
def readRange (a : Scratch size α) (start count : Nat) : Option (List α) :=
  (List.range count).mapM fun i => a.read (start + i)

/-- The cells in `p` hold `f`. -/
def Holds (a : Scratch size α) (p : Nat → Prop) (f : Nat → α) : Prop :=
  ∀ i, p i → i < size ∧ a.cell i = some (f i)

/-- The first cells hold `l`. -/
def Lists (a : Scratch size α) (l : List α) : Prop :=
  ∀ i x, l[i]? = some x → i < size ∧ a.cell i = some x

variable {a b : Scratch size α} {p q : Nat → Prop} {f g : Nat → α} {l : List α} {i : Nat} {x : α}

theorem holds_filled (x : α) : (filled x : Scratch size α).Holds (· < size) fun _ => x :=
  fun _ hi => ⟨hi, rfl⟩

theorem lists_nil (a : Scratch size α) : a.Lists [] := nofun

theorem Holds.read (h : a.Holds p f) (hi : p i) : a.read i = some (f i) := by
  obtain ⟨hlt, hcell⟩ := h i hi
  rw [Scratch.read, if_pos hlt, hcell]

theorem Lists.read (h : a.Lists l) (hi : l[i]? = some x) : a.read i = some x := by
  obtain ⟨hlt, hcell⟩ := h i x hi
  rw [Scratch.read, if_pos hlt, hcell]

theorem Holds.mono (h : a.Holds p f) (hq : ∀ i, q i → p i) : a.Holds q f :=
  fun i hi => h i (hq i hi)

theorem Holds.congr (h : a.Holds p f) (hg : ∀ i, p i → f i = g i) : a.Holds p g :=
  fun i hi => ⟨(h i hi).1, by rw [(h i hi).2, hg i hi]⟩

/-- A write inside the array. -/
theorem Holds.write (h : a.Holds p f) (hi : i < size) (x : α) :
    ∃ b, a.write i x = some b ∧ b.Holds (fun j => p j ∨ j = i) (Function.update f i x) := by
  refine ⟨_, if_pos hi, fun j hj => ?_⟩
  by_cases hji : j = i
  · subst hji
    exact ⟨hi, by simp only [Function.update_self]⟩
  · obtain ⟨hlt, hcell⟩ := h j (hj.resolve_right hji)
    exact ⟨hlt, by simp only [Function.update_of_ne hji, hcell]⟩

/-- A write to a cell in `p`. -/
theorem Holds.overwrite (h : a.Holds p f) (hi : p i) (x : α) :
    ∃ b, a.write i x = some b ∧ b.Holds p (Function.update f i x) := by
  obtain ⟨b, hb, hv⟩ := h.write (h i hi).1 x
  exact ⟨b, hb, hv.mono fun _ => .inl⟩

/-- A write that extends a prefix. -/
theorem Holds.extend (h : a.Holds (· < i) f) (hi : i < size) :
    ∃ b, a.write i (f i) = some b ∧ b.Holds (· < i + 1) f := by
  obtain ⟨b, hb, hv⟩ := h.write hi (f i)
  rw [Function.update_eq_self] at hv
  exact ⟨b, hb, hv.mono fun j (hj : j < i + 1) => by omega⟩

/-- A write behind the list. -/
theorem Lists.push (h : a.Lists l) (hl : l.length < size) (x : α) :
    ∃ b, a.write l.length x = some b ∧ b.Lists (l ++ [x]) := by
  refine ⟨_, if_pos hl, fun j y hj => ?_⟩
  by_cases hji : j = l.length
  · subst hji
    obtain rfl : x = y := by simpa using hj
    exact ⟨hl, by simp only [Function.update_self]⟩
  · have hlt : j < (l ++ [x]).length := (List.getElem?_eq_some_iff.mp hj).1
    rw [List.length_append, List.length_singleton] at hlt
    rw [List.getElem?_append_left (by omega)] at hj
    obtain ⟨hsize, hcell⟩ := h j y hj
    exact ⟨hsize, by simp only [Function.update_of_ne hji, hcell]⟩

theorem mapM_range_length {f : Nat → Option α} (l : List α) (h : ∀ i x, l[i]? = some x → f i = some x) :
    (List.range l.length).mapM f = some l := by
  induction l using List.reverseRecOn with
  | nil => rfl
  | append_singleton l x ih =>
    have hinit : (List.range l.length).mapM f = some l := ih fun i y hi => h i y (by
      rw [List.getElem?_append_left (List.getElem?_eq_some_iff.mp hi).1]
      exact hi)
    rw [List.length_append, List.length_singleton, List.range_succ, List.mapM_append, hinit,
      List.mapM_cons, h l.length x (by simp), List.mapM_nil]
    rfl

theorem Holds.readRange (h : a.Holds p f) {start count : Nat} (hp : ∀ i < count, p (start + i)) :
    a.readRange start count = some ((List.range count).map fun i => f (start + i)) := by
  have hlen := mapM_range_length (f := fun i => a.read (start + i))
    ((List.range count).map fun i => f (start + i)) fun i x hx => by
      obtain ⟨hi, rfl⟩ := List.getElem?_eq_some_iff.mp hx
      rw [List.length_map, List.length_range] at hi
      rw [h.read (hp i hi), List.getElem_map, List.getElem_range]
  rwa [List.length_map, List.length_range] at hlen

/-- A part of the list read back. -/
theorem Lists.readRange {l₁ l₂ l₃ : List α} (h : a.Lists (l₁ ++ l₂ ++ l₃)) :
    a.readRange l₁.length l₂.length = some l₂ := by
  refine mapM_range_length l₂ fun i x hx => h.read ?_
  have hi := (List.getElem?_eq_some_iff.mp hx).1
  rw [List.getElem?_append_left (by simp; omega), List.getElem?_append_right (by omega),
    Nat.add_sub_cancel_left, hx]

/-! ## Counted loops -/

/-- A loop whose steps succeed and keep an invariant. -/
theorem foldlM_range {f : β → Nat → Option β} (Inv : Nat → β → Prop) {n : Nat} {s : β}
    (h0 : Inv 0 s) (hstep : ∀ i < n, ∀ s, Inv i s → ∃ t, f s i = some t ∧ Inv (i + 1) t) :
    ∃ t, (List.range n).foldlM f s = some t ∧ Inv n t := by
  induction n with
  | zero => exact ⟨s, rfl, h0⟩
  | succ n ih =>
    obtain ⟨t, ht, hinv⟩ := ih fun i hi => hstep i (Nat.lt_succ_of_lt hi)
    obtain ⟨u, hu, hinv'⟩ := hstep n (Nat.lt_succ_self n) t hinv
    refine ⟨u, ?_, hinv'⟩
    rw [List.range_succ, List.foldlM_append, ht]
    simpa using hu

end Scratch
