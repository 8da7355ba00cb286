import Mathlib

/-! # Descriptors, queue constants and 64-bit indices

The constants and the descriptor record of `descriptor_queue.h`,
`tiled_queue.h` and `sg_task_queue.h`.

Ring indices are 64-bit words in the source.  The model keeps the number of
increments made so far and reduces it (`word`) wherever the source compares or
stores the word, so that what the code sees is the word and what the proofs
count is the number.
-/
namespace Gfd

def queueSize : Nat := 16384
def maxBatchSize : Nat := 8192
def batchThreshold : Nat := 4096
def batchThresholdSmall : Nat := 1024
def maxTiles : Nat := 1024
def maxSgLists : Nat := 512

def flagNone : Nat := 0
def flagLastInBatch : Nat := 1
def flagUrgent : Nat := 2
def flagLastInTile : Nat := 4
def flagLastChunkInTile : Nat := 8

/-- `flags & mask` is nonzero. -/
def hasFlag (flags mask : Nat) : Bool := flags &&& mask != 0

@[simp] theorem hasFlag_zero (mask : Nat) : hasFlag 0 mask = false := by simp [hasFlag]

theorem hasFlag_or (a b mask : Nat) : hasFlag (a ||| b) mask = (hasFlag a mask || hasFlag b mask) := by
  rw [Bool.eq_iff_iff]
  simp only [hasFlag, Nat.and_or_distrib_right, bne_iff_ne, ne_eq, Nat.or_eq_zero_iff,
    Bool.or_eq_true]
  exact not_and_or

theorem hasFlag_mask_or (flags a b : Nat) :
    hasFlag flags (a ||| b) = (hasFlag flags a || hasFlag flags b) := by
  rw [Bool.eq_iff_iff]
  simp only [hasFlag, Nat.and_or_distrib_left, bne_iff_ne, ne_eq, Nat.or_eq_zero_iff,
    Bool.or_eq_true]
  exact not_and_or

/-- The number of values of a 64-bit word. -/
def wordSize : Nat := 2 ^ 64

/-- The 64-bit word an unbounded count is seen as. -/
def word (n : Nat) : Nat := n % wordSize

/-- Subtraction of 64-bit words. -/
def subWord (a b : Nat) : Nat := word (word a + wordSize - word b)

theorem word_of_lt {n : Nat} (h : n < wordSize) : word n = n := Nat.mod_eq_of_lt h

theorem word_add_word (a b : Nat) : word (word a + b) = word (a + b) := by
  unfold word
  rw [Nat.mod_add_mod]

/-- The ring size divides the word size, so a cell index survives the wrap. -/
theorem word_mod_queueSize (n : Nat) : word n % queueSize = n % queueSize :=
  Nat.mod_mod_of_dvd n (by decide)

theorem subWord_of_le {a b : Nat} (ha : a < wordSize) (h : b ≤ a) : subWord a b = a - b := by
  unfold subWord word
  rw [Nat.mod_eq_of_lt ha, Nat.mod_eq_of_lt (Nat.lt_of_le_of_lt h ha)]
  unfold wordSize at *
  omega

theorem subWord_add_left {n k : Nat} (h : k < wordSize) : subWord (n + k) n = k := by
  unfold subWord word wordSize at *
  omega

/-- The fields of a ring entry besides its commit marker. -/
inductive Field
  | srcAddr | dstAddr | size | flags | userData
  deriving DecidableEq, Repr

instance : Fintype Field where
  elems := {.srcAddr, .dstAddr, .size, .flags, .userData}
  complete f := by cases f <;> simp

/-- One ring entry: its fields and its commit marker `sequence`, which is
`slot + 1` when the entry is ready and `0` once it has been consumed. -/
structure Cell where
  field : Field → Nat
  sequence : Nat

/-- A zeroed entry. -/
def Cell.zero : Cell := ⟨fun _ => 0, 0⟩

/-- A descriptor as the polling thread holds it after popping it.  `slot` is the
ring position it was popped from; no code reads it. -/
structure Descriptor where
  srcAddr : Nat
  dstAddr : Nat
  size : Nat
  flags : Nat
  userData : Nat
  slot : Nat
  deriving DecidableEq, Repr, Inhabited

/-- The descriptor popped from `slot` whose fields read `v`. -/
def Descriptor.ofFields (slot : Nat) (v : Field → Nat) : Descriptor where
  srcAddr := v .srcAddr
  dstAddr := v .dstAddr
  size := v .size
  flags := v .flags
  userData := v .userData
  slot := slot

/-- The upper 32 bits of `user_data`: the tile id, or the list id. -/
def Descriptor.group (d : Descriptor) : Nat := d.userData / 2 ^ 32 % 2 ^ 32

@[simp] theorem Descriptor.ofFields_slot (slot : Nat) (v : Field → Nat) :
    (Descriptor.ofFields slot v).slot = slot := rfl

end Gfd
