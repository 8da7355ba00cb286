import GfdProof.RadixSort

/-! # `radix_sort_sg`, write by write

`RadixSort` says what the sort computes; here are its loops, over the two arrays that `src` and
`dst` point to in turn, with a log of the places written.  The loops compute what `RadixSort` says
and write only to the first `count` places of the arrays (`radixSortSg_spec`), so that `arr` is left
sorted, stably, by the low 32 bits of the key, or, up to 64 entries, by all of it
(`radixSortSg_sorts`).
-/
namespace Gfd
namespace RadixArrays

open BucketScatter RadixSort

variable {α : Type*}

/-! ## The loops -/

/-- The two arrays. -/
inductive Buf
  | arr
  | tmp
  deriving DecidableEq, Repr

/-- Their contents, and the places written so far. -/
structure Arrays (α : Type*) where
  cells : Buf → Nat → α
  writes : List (Buf × Nat)

namespace Arrays

/-- `b[i] = x` -/
def write (m : Arrays α) (b : Buf) (i : Nat) (x : α) : Arrays α where
  cells := Function.update m.cells b (Function.update (m.cells b) i x)
  writes := m.writes ++ [(b, i)]

/-- The contents as `RadixSort` has them. -/
def pair (m : Arrays α) (src dst : Buf) : (Nat → α) × (Nat → α) := (m.cells src, m.cells dst)

@[simp] theorem write_self (m : Arrays α) (b : Buf) (i : Nat) (x : α) :
    (m.write b i x).cells b = Function.update (m.cells b) i x := Function.update_self ..

theorem write_of_ne (m : Arrays α) {b b' : Buf} (h : b' ≠ b) (i : Nat) (x : α) :
    (m.write b i x).cells b' = m.cells b' := Function.update_of_ne h _ _

end Arrays

/-- The loop that counts the buckets. -/
def countLoop (key : α → Nat) (src : Buf) (count : Nat) (m : Arrays α) : Nat → Nat :=
  (List.range count).foldl
    (fun counts i =>
      let bucket := key (m.cells src i)
      Function.update counts bucket (counts bucket + 1))
    fun _ => 0

/-- The loop that scatters from `src` to `dst`: the arrays, and `offsets`. -/
def scatterLoop (key : α → Nat) (src dst : Buf) (is : List Nat) (m : Arrays α)
    (offsets : Nat → Nat) : Arrays α × (Nat → Nat) :=
  is.foldl
    (fun r i =>
      let bucket := key (r.1.cells src i)
      (r.1.write dst (r.2 bucket) (r.1.cells src i),
        Function.update r.2 bucket (r.2 bucket + 1)))
    (m, offsets)

/-- Where the passes are: `src`, `dst` and the arrays. -/
structure Passing (α : Type*) where
  src : Buf
  dst : Buf
  arrays : Arrays α

/-- One pass, with the exchange of `src` and `dst`. -/
def Passing.pass (key : α → Nat) (count pass : Nat) (s : Passing α) : Passing α where
  src := s.dst
  dst := s.src
  arrays := (scatterLoop (digit key pass) s.src s.dst (List.range count) s.arrays
    (offsets (countLoop (digit key pass) s.src count s.arrays))).1

/-- The passes below `n`. -/
def Passing.passes (key : α → Nat) (count : Nat) (s : Passing α) : Nat → Passing α
  | 0 => s
  | n + 1 => (s.passes key count n).pass key count n

/-- `b[i] = f(i)` for each of the places. -/
def fill (b : Buf) (f : Nat → α) (is : List Nat) (m : Arrays α) : Arrays α :=
  is.foldl (fun m i => m.write b i (f i)) m

/-- `radix_sort_sg(arr, count, tmp, key_fn)` -/
def radixSortSg (std : StdSort α) (key : α → Nat) (count : Nat) (m : Arrays α) : Arrays α :=
  if count ≤ 64 then
    fill .arr (overwrite (std.sort key (read count (m.cells .arr))) (m.cells .arr))
      (List.range count) m
  else
    let s := Passing.passes key count ⟨.arr, .tmp, m⟩ 4
    if s.src ≠ .arr then fill .arr (s.arrays.cells s.src) (List.range count) s.arrays
    else s.arrays

/-! ## What the loops do -/

/-- Only the first `count` places of the two arrays are written. -/
structure Within (count : Nat) (m r : Arrays α) : Prop where
  inside : ∃ is, r.writes = m.writes ++ is ∧ ∀ w ∈ is, w.2 < count
  outside : ∀ b i, count ≤ i → r.cells b i = m.cells b i

theorem Within.refl (count : Nat) (m : Arrays α) : Within count m m :=
  ⟨⟨[], (List.append_nil _).symm, List.forall_mem_nil _⟩, fun _ _ _ => rfl⟩

theorem Within.trans {count : Nat} {m r u : Arrays α} (h : Within count m r)
    (h' : Within count r u) : Within count m u := by
  obtain ⟨is, his, hlt⟩ := h.inside
  obtain ⟨js, hjs, hjlt⟩ := h'.inside
  refine ⟨⟨is ++ js, by rw [hjs, his, List.append_assoc], List.forall_mem_append.mpr ⟨hlt, hjlt⟩⟩,
    fun b i hi => (h'.outside b i hi).trans (h.outside b i hi)⟩

section
variable {src dst : Buf}

theorem countLoop_eq (key : α → Nat) (src : Buf) (count : Nat) (m : Arrays α) :
    countLoop key src count m = counts key (read count (m.cells src)) := by
  unfold countLoop counts RadixSort.read
  rw [List.foldl_map]

/-- The scatter loop reads one array and writes the other. -/
theorem scatterLoop_spec (key : α → Nat) (m : Arrays α) (hne : src ≠ dst) (is : List Nat)
    (pos : Nat → Nat) :
    (scatterLoop key src dst is m pos).1.cells src = m.cells src ∧
      (scatterLoop key src dst is m pos).1.cells dst =
        scatter key (is.map (m.cells src)) pos (m.cells dst) ∧
      (scatterLoop key src dst is m pos).1.writes =
        m.writes ++ (slots key (is.map (m.cells src)) pos).map (dst, ·) := by
  induction is generalizing m pos with
  | nil => simp [scatterLoop, scatter, slots]
  | cons i is ih =>
    have hsrc := m.write_of_ne hne (pos (key (m.cells src i))) (m.cells src i)
    obtain ⟨h1, h2, h3⟩ := @ih (m.write dst (pos (key (m.cells src i))) (m.cells src i))
      (Function.update pos (key (m.cells src i)) (pos (key (m.cells src i)) + 1))
    rw [hsrc] at h1 h2 h3
    rw [Arrays.write_self] at h2
    refine ⟨h1, h2, ?_⟩
    rw [List.map_cons, slots, List.map_cons, List.append_cons]
    exact h3

/-- A filled array. -/
theorem fill_spec (b : Buf) (f : Nat → α) (count : Nat) (m : Arrays α) :
    (∀ b' ≠ b, (fill b f (List.range count) m).cells b' = m.cells b') ∧
      (∀ i, (fill b f (List.range count) m).cells b i = if i < count then f i else m.cells b i) ∧
      (fill b f (List.range count) m).writes = m.writes ++ (List.range count).map (b, ·) := by
  induction count with
  | zero => simp [fill]
  | succ n ih =>
    obtain ⟨hother, hself, hwrites⟩ := ih
    have hstep : fill b f (List.range (n + 1)) m = (fill b f (List.range n) m).write b n (f n) := by
      rw [fill, List.range_succ, List.foldl_append]
      rfl
    rw [hstep]
    refine ⟨fun b' hb => ?_, fun i => ?_, ?_⟩
    · rw [Arrays.write_of_ne _ hb, hother b' hb]
    · rw [Arrays.write_self]
      by_cases hi : i = n
      · subst hi
        simp
      · rw [Function.update_of_ne hi, hself]
        have hiff : i < n + 1 ↔ i < n := by omega
        simp only [hiff]
    · rw [List.range_succ, List.map_append, ← List.append_assoc, ← hwrites]
      rfl

/-- One pass does what `RadixSort` says, within the first `count` places. -/
theorem pass_spec {s : Passing α} (hne : s.src ≠ s.dst) (key : α → Nat) (count pass : Nat) :
    (s.pass key count pass).arrays.pair s.dst s.src =
        (radixPass key count pass (s.arrays.cells s.src) (s.arrays.cells s.dst),
          s.arrays.cells s.src) ∧
      Within count s.arrays (s.pass key count pass).arrays := by
  obtain ⟨hsrc, hdst, hwrites⟩ := scatterLoop_spec (digit key pass) s.arrays hne
    (List.range count) (offsets (countLoop (digit key pass) s.src count s.arrays))
  rw [countLoop_eq] at hsrc hdst hwrites
  have hpair : (s.pass key count pass).arrays.pair s.dst s.src =
      (radixPass key count pass (s.arrays.cells s.src) (s.arrays.cells s.dst),
        s.arrays.cells s.src) := by
    rw [Arrays.pair, Passing.pass, countLoop_eq, hsrc, hdst]
    rfl
  have hinside : ∃ is, (s.pass key count pass).arrays.writes = s.arrays.writes ++ is ∧
      ∀ w ∈ is, w.2 < count := by
    refine ⟨(slots (digit key pass) (read count (s.arrays.cells s.src))
      (offsets (counts (digit key pass) (read count (s.arrays.cells s.src))))).map (s.dst, ·), ?_, ?_⟩
    · rw [Passing.pass, countLoop_eq]
      exact hwrites
    · refine List.forall_mem_map.mpr fun i hi => ?_
      obtain ⟨b, hb⟩ := fills_of_mem_slots hi
      have hlt := fills_lt (fun x _ => digit_lt key pass x) hb
      rwa [length_read] at hlt
  refine ⟨hpair, hinside, fun b i hi => ?_⟩
  obtain ⟨h1, h2⟩ := Prod.ext_iff.mp hpair
  have hb : b = s.dst ∨ b = s.src := by
    revert hne
    cases b <;> cases s.src <;> cases s.dst <;> decide
  rcases hb with rfl | rfl
  · exact (congrFun h1 i).trans (radixPass_other key pass _ _ hi)
  · exact congrFun h2 i

/-- **The passes**: `src` and `dst` are the two arrays in turn, their contents are those of
`RadixSort`, and only the first `count` places are written. -/
theorem passes_spec (key : α → Nat) (count : Nat) (m : Arrays α) (n : Nat) :
    let s := Passing.passes key count ⟨.arr, .tmp, m⟩ n
    (s.src, s.dst) = (if n % 2 = 0 then (Buf.arr, Buf.tmp) else (Buf.tmp, Buf.arr)) ∧
      s.arrays.pair s.src s.dst = radixPasses key count n (m.pair .arr .tmp) ∧
      Within count m s.arrays := by
  induction n with
  | zero => exact ⟨rfl, rfl, .refl count m⟩
  | succ n ih =>
    obtain ⟨hbufs, hpair, hwithin⟩ := ih
    set s := Passing.passes key count ⟨.arr, .tmp, m⟩ n with hs
    obtain ⟨hsrc, hdst⟩ := Prod.ext_iff.mp hbufs
    dsimp only at hsrc hdst
    have hne : s.src ≠ s.dst := by
      rw [hsrc, hdst]
      split_ifs <;> decide
    obtain ⟨hpass, hin⟩ := pass_spec hne key count n
    refine ⟨?_, ?_, hwithin.trans hin⟩
    · show (s.dst, s.src) = _
      rw [hsrc, hdst]
      by_cases hn : n % 2 = 0
      · rw [if_pos hn, if_neg (by omega : ¬ (n + 1) % 2 = 0)]
      · rw [if_neg hn, if_pos (by omega : (n + 1) % 2 = 0)]
    · rw [radixPasses, ← hpair]
      exact hpass

/-- **The loops compute the sort**, and write only to the first `count` places. -/
theorem radixSortSg_spec (std : StdSort α) (key : α → Nat) (count : Nat) (m : Arrays α) :
    (radixSortSg std key count m).pair .arr .tmp =
        RadixSort.radixSortSg std key (m.cells .arr) count (m.cells .tmp) ∧
      Within count m (radixSortSg std key count m) := by
  unfold radixSortSg RadixSort.radixSortSg
  by_cases hc : count ≤ 64
  · rw [if_pos hc, if_pos hc]
    set l := std.sort key (read count (m.cells .arr)) with hl
    obtain ⟨hother, hself, hwrites⟩ := fill_spec .arr (overwrite l (m.cells .arr)) count m
    have hlen : l.length = count := by rw [hl, (std.perm _ _).length_eq, length_read]
    have hbehind : ∀ i, count ≤ i → overwrite l (m.cells .arr) i = m.cells .arr i := by
      intro i hi
      have hnone : l[i]? = none := List.getElem?_eq_none (by omega)
      unfold overwrite
      rw [hnone]
      rfl
    refine ⟨Prod.ext (funext fun i => ?_) (hother .tmp (by decide)), ⟨_, hwrites,
      List.forall_mem_map.mpr fun i hi => List.mem_range.mp hi⟩, fun b i hi => ?_⟩
    · refine (hself i).trans ?_
      split_ifs with hi
      · rfl
      · exact (hbehind i (Nat.not_lt.mp hi)).symm
    · cases b with
      | arr => rw [hself, if_neg (Nat.not_lt.mpr hi)]
      | tmp => rw [hother .tmp (by decide)]
  · obtain ⟨hbufs, hpair, hwithin⟩ := passes_spec key count m 4
    -- after an even number of passes `src` is `arr`
    obtain ⟨hsrc, hdst⟩ := Prod.mk.inj (hbufs.trans (if_pos rfl))
    rw [if_neg hc, if_neg hc]
    dsimp only
    rw [if_neg (not_not.mpr hsrc)]
    rw [hsrc, hdst] at hpair
    exact ⟨hpair, hwithin⟩

end

/-! ## The sort -/

/-- `radix_sort_sg` on the arrays `m`, with the arrays and the places written afterwards. -/
structure Sorts (key : α → Nat) (count : Nat) (m r : Arrays α) : Prop where
  perm : (read count (r.cells .arr)).Perm (read count (m.cells .arr))
  /-- In the order of the low 32 bits. -/
  low : 64 < count → (read count (r.cells .arr)).Pairwise fun x y =>
    key x % 2 ^ 32 ≤ key y % 2 ^ 32
  /-- Entries with the same low 32 bits stay in order. -/
  stable : 64 < count → ∀ v, (read count (r.cells .arr)).filter (fun x => key x % 2 ^ 32 == v) =
    (read count (m.cells .arr)).filter fun x => key x % 2 ^ 32 == v
  full : count ≤ 64 → (read count (r.cells .arr)).Pairwise fun x y => key x ≤ key y
  within : Within count m r

/-- **The radix sort is correct**, for every key, every contents of the two arrays and every number
of entries. -/
theorem radixSortSg_sorts (std : StdSort α) (key : α → Nat) (count : Nat) (m : Arrays α) :
    Sorts key count m (radixSortSg std key count m) := by
  obtain ⟨hpair, hwithin⟩ := radixSortSg_spec std key count m
  obtain ⟨harr, -⟩ := Prod.ext_iff.mp hpair
  dsimp only [Arrays.pair] at harr
  have hsize : radixSize ^ 4 = 2 ^ 32 := by decide
  refine ⟨?_, fun hc => ?_, fun hc v => ?_, fun hc => ?_, hwithin⟩
  · rw [harr]
    exact radixSortSg_perm std key (m.cells .arr) count (m.cells .tmp)
  · have hpw : (read count (m.cells .arr)).Pairwise fun _ _ => True :=
      List.pairwise_of_forall fun _ _ => trivial
    rw [harr, RadixSort.radixSortSg, if_neg (Nat.not_le.mpr hc), ← hsize]
    refine (radixPasses_pairwise key count 4 (m.cells .arr, m.cells .tmp) hpw).imp fun h => ?_
    rcases h with hlt | ⟨heq, -⟩
    · exact Nat.le_of_lt hlt
    · exact Nat.le_of_eq heq
  · rw [harr, RadixSort.radixSortSg, if_neg (Nat.not_le.mpr hc), ← hsize]
    exact radixPasses_filter key count 4 (Nat.le_refl 4) (m.cells .arr, m.cells .tmp) v
  · have hlen : (std.sort key (read count (m.cells .arr))).length = count := by
      rw [(std.perm _ _).length_eq, length_read]
    rw [harr, RadixSort.radixSortSg, if_pos hc, read_overwrite hlen]
    exact std.sorted _ _

end RadixArrays
end Gfd
