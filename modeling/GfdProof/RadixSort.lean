import Mathlib
import GfdProof.BucketScatter

/-! # `radix_sort_sg`

The sort that `process_batch` applies to its scatter-gather entries: `std::sort`
up to 64 entries, else four byte-wise passes from `arr` to `tmp` and back, over
the low 32 bits of the key.

`std::sort` leaves the order of equal keys open, so it is a parameter
(`StdSort`) that carries what it promises.
-/
namespace Gfd

open BucketScatter

variable {α : Type*}

/-- `std::sort` by a key: a rearrangement in the order of the keys. -/
structure StdSort (α : Type*) where
  sort : (α → Nat) → List α → List α
  perm : ∀ key l, (sort key l).Perm l
  sorted : ∀ key l, (sort key l).Pairwise fun x y => key x ≤ key y

/-- A `std::sort` by insertion. -/
def StdSort.insertion : StdSort α where
  sort key l := List.insertionSort (fun x y => key x ≤ key y) l
  perm _ _ := List.perm_insertionSort _ _
  sorted key _ :=
    haveI : Std.Total fun x y => key x ≤ key y := ⟨fun x y => Nat.le_total (key x) (key y)⟩
    haveI : IsTrans α fun x y => key x ≤ key y := ⟨fun _ _ _ => Nat.le_trans⟩
    List.pairwise_insertionSort _ _

namespace RadixSort

def radixBits : Nat := 8
def radixSize : Nat := 2 ^ radixBits

/-- The first `count` entries of an array. -/
def read (count : Nat) (arr : Nat → α) : List α := (List.range count).map arr

/-- An array whose first entries have been overwritten. -/
def overwrite (l : List α) (arr : Nat → α) (i : Nat) : α := l[i]?.getD (arr i)

/-- `(key >> pass * RADIX_BITS) & RADIX_MASK`. -/
def digit (key : α → Nat) (pass : Nat) (x : α) : Nat := key x / radixSize ^ pass % radixSize

/-- One pass: count, prefix sums, and scatter from `src` to `dst`. -/
def radixPass (key : α → Nat) (count pass : Nat) (src dst : Nat → α) : Nat → α :=
  let l := read count src
  scatter (digit key pass) l (offsets (counts (digit key pass) l)) dst

/-- The passes below `n`, with the two arrays exchanged after each. -/
def radixPasses (key : α → Nat) (count : Nat) : Nat → (Nat → α) × (Nat → α) → (Nat → α) × (Nat → α)
  | 0, arrs => arrs
  | n + 1, arrs =>
    let arrs := radixPasses key count n arrs
    (radixPass key count n arrs.1 arrs.2, arrs.1)

/-- `radix_sort_sg(arr, count, tmp, key_fn)`: the contents of `arr` and `tmp` afterwards. -/
def radixSortSg (std : StdSort α) (key : α → Nat) (arr : Nat → α) (count : Nat) (tmp : Nat → α) :
    (Nat → α) × (Nat → α) :=
  if count ≤ 64 then (overwrite (std.sort key (read count arr)) arr, tmp)
  -- after four exchanges `src` is `arr` again, so the final `memcpy` is never made
  else radixPasses key count 4 (arr, tmp)

@[simp] theorem length_read (count : Nat) (arr : Nat → α) : (read count arr).length = count := by
  simp [read]

theorem read_overwrite {l : List α} {count : Nat} (h : l.length = count) (arr : Nat → α) :
    read count (overwrite l arr) = l := by
  refine List.ext_getElem (by simp [h]) fun i h1 h2 => ?_
  simp [read, overwrite, List.getElem?_eq_getElem h2]

theorem digit_lt (key : α → Nat) (pass : Nat) (x : α) : digit key pass x < radixSize :=
  Nat.mod_lt _ (by decide)

/-- A pass leaves the stable partition by its digit. -/
theorem read_radixPass (key : α → Nat) (count pass : Nat) (src dst : Nat → α) :
    read count (radixPass key count pass src dst) =
      partition (digit key pass) radixSize (read count src) := by
  have hlen : offsets (counts (digit key pass) (read count src)) radixSize = count := by
    rw [offsets_length fun x _ => digit_lt key pass x, length_read]
  have h := map_scatter_offsets (digit key pass) (read count src) dst radixSize
  rw [hlen] at h
  exact h

theorem radixPass_other (key : α → Nat) {count : Nat} (pass : Nat) (src dst : Nat → α) {i : Nat}
    (hi : count ≤ i) : radixPass key count pass src dst i = dst i :=
  scatter_offsets_other (fun x _ => digit_lt key pass x) dst (by rwa [length_read])

theorem radixPasses_perm (key : α → Nat) (count n : Nat) (arrs : (Nat → α) × (Nat → α)) :
    (read count (radixPasses key count n arrs).1).Perm (read count arrs.1) := by
  induction n with
  | zero => exact .refl _
  | succ n ih =>
    rw [radixPasses, read_radixPass]
    exact (partition_perm fun x _ => digit_lt key n x).trans ih

/-- In the order of the lowest `p` digits, and of `R` where these agree. -/
def ByDigits (key : α → Nat) (p : Nat) (R : α → α → Prop) (x y : α) : Prop :=
  key x % radixSize ^ p < key y % radixSize ^ p ∨
    key x % radixSize ^ p = key y % radixSize ^ p ∧ R x y

theorem mod_succ (key : α → Nat) (p : Nat) (x : α) :
    key x % radixSize ^ (p + 1) =
      key x % radixSize ^ p + radixSize ^ p * digit key p x := by
  rw [Nat.pow_succ, Nat.mod_mul, digit]

theorem byDigits_succ {key : α → Nat} {p : Nat} {R : α → α → Prop} {x y : α}
    (h : digit key p x < digit key p y ∨ digit key p x = digit key p y ∧ ByDigits key p R x y) :
    ByDigits key (p + 1) R x y := by
  unfold ByDigits at *
  rw [mod_succ, mod_succ]
  rcases h with hlt | ⟨heq, hlt | ⟨hmod, hr⟩⟩
  · left
    have hx : key x % radixSize ^ p < radixSize ^ p := Nat.mod_lt _ (Nat.pow_pos (by decide))
    have hd : radixSize ^ p * (digit key p x + 1) ≤ radixSize ^ p * digit key p y :=
      Nat.mul_le_mul_left _ hlt
    rw [Nat.mul_succ] at hd
    calc key x % radixSize ^ p + radixSize ^ p * digit key p x
        < radixSize ^ p * digit key p x + radixSize ^ p := by omega
      _ ≤ radixSize ^ p * digit key p y := hd
      _ ≤ key y % radixSize ^ p + radixSize ^ p * digit key p y := Nat.le_add_left _ _
  · left; rw [heq]; omega
  · right; rw [heq, hmod]; exact ⟨rfl, hr⟩

theorem radixPasses_pairwise (key : α → Nat) (count n : Nat) (arrs : (Nat → α) × (Nat → α))
    {R : α → α → Prop} (h : (read count arrs.1).Pairwise R) :
    (read count (radixPasses key count n arrs).1).Pairwise (ByDigits key n R) := by
  induction n with
  | zero => exact h.imp fun hr => .inr ⟨by simp [Nat.mod_one], hr⟩
  | succ n ih =>
    rw [radixPasses, read_radixPass]
    exact (pairwise_partition radixSize ih).imp byDigits_succ

/-- Elements that agree in the lowest digits agree in each of them. -/
theorem digit_of_low {key : α → Nat} {p n v : Nat} (hp : p < n) {x : α}
    (hx : key x % radixSize ^ n = v) : digit key p x = v / radixSize ^ p % radixSize := by
  have hdvd : radixSize ^ (p + 1) ∣ radixSize ^ n := Nat.pow_dvd_pow _ hp
  rw [digit, ← Nat.mod_mul_right_div_self, ← Nat.mod_mul_right_div_self, ← Nat.pow_succ, ← hx,
    Nat.mod_mod_of_dvd _ hdvd]

/-- The passes leave elements that agree in all their digits in order. -/
theorem radixPasses_filter (key : α → Nat) (count n : Nat) {N : Nat} (hn : n ≤ N)
    (arrs : (Nat → α) × (Nat → α)) (v : Nat) :
    (read count (radixPasses key count n arrs).1).filter (fun x => key x % radixSize ^ N == v) =
      (read count arrs.1).filter fun x => key x % radixSize ^ N == v := by
  induction n with
  | zero => rfl
  | succ n ih =>
    rw [radixPasses, read_radixPass, filter_partition (b := v / radixSize ^ n % radixSize),
      ih (Nat.le_of_succ_le hn)]
    · exact fun x hx => digit_of_low hn (beq_iff_eq.mp hx)
    · exact Nat.mod_lt _ (by decide)

/-- `radix_sort_sg` rearranges its entries. -/
theorem radixSortSg_perm (std : StdSort α) (key : α → Nat) (arr : Nat → α) (count : Nat)
    (tmp : Nat → α) :
    (read count (radixSortSg std key arr count tmp).1).Perm (read count arr) := by
  unfold radixSortSg
  split
  · rw [read_overwrite (by rw [(std.perm _ _).length_eq, length_read])]
    exact std.perm _ _
  · exact radixPasses_perm key count 4 (arr, tmp)

/-- Keys that agree above their low 32 bits come out in order. -/
theorem radixSortSg_sorted (std : StdSort α) (key : α → Nat) (arr : Nat → α) (count : Nat)
    (tmp : Nat → α) {w : Nat} (hw : ∀ x ∈ read count arr, key x / 2 ^ 32 = w) :
    (read count (radixSortSg std key arr count tmp).1).Pairwise fun x y => key x ≤ key y := by
  have hperm := radixSortSg_perm std key arr count tmp
  unfold radixSortSg at *
  split at hperm
  · rename_i hc
    rw [if_pos hc, read_overwrite (by rw [(std.perm _ _).length_eq, length_read])]
    exact std.sorted _ _
  · rename_i hc
    rw [if_neg hc]
    have hpw : (read count (arr, tmp).1).Pairwise fun _ _ => True :=
      List.pairwise_of_forall fun _ _ => trivial
    refine (radixPasses_pairwise key count 4 (arr, tmp) hpw).imp_of_mem fun {x y} hx hy h => ?_
    have hwx := hw x (hperm.mem_iff.mp hx)
    have hwy := hw y (hperm.mem_iff.mp hy)
    have hsize : radixSize ^ 4 = 2 ^ 32 := by decide
    unfold ByDigits at h
    rw [hsize] at h
    omega

end RadixSort

variable [Inhabited α]

/-- The entries in an array, sorted by `radix_sort_sg` with a fresh `tmp`. -/
def radixSort (std : StdSort α) (key : α → Nat) (l : List α) : List α :=
  RadixSort.read l.length
    (RadixSort.radixSortSg std key (fun i => l.getD i default) l.length fun _ => default).1

theorem read_getD (l : List α) : RadixSort.read l.length (fun i => l.getD i default) = l := by
  refine List.ext_getElem (by simp) fun i h1 h2 => ?_
  simp [RadixSort.read, List.getElem?_eq_getElem h2]

theorem radixSort_perm (std : StdSort α) (key : α → Nat) (l : List α) :
    (radixSort std key l).Perm l := by
  have h := RadixSort.radixSortSg_perm std key (fun i => l.getD i default) l.length
    fun _ => default
  rwa [read_getD] at h

theorem radixSort_sorted (std : StdSort α) (key : α → Nat) {l : List α} {w : Nat}
    (hw : ∀ x ∈ l, key x / 2 ^ 32 = w) :
    (radixSort std key l).Pairwise fun x y => key x ≤ key y :=
  RadixSort.radixSortSg_sorted std key (fun i => l.getD i default) l.length (fun _ => default)
    (by rwa [read_getD])

end Gfd
