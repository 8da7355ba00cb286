import Mathlib

/-! # Counting, prefix sums and scattering

The three passes of a counting sort over bucket numbers: count the elements of
each bucket, turn the counts into the buckets' first positions, and put each
element at the next free position of its bucket.

Arrays are functions from positions, so that what is not written is visibly left
alone.  `scatter_offsets` says that the passes compute the stable partition of
the input by bucket, in the first positions of the output, and touch nothing
else.
-/
namespace BucketScatter

variable {α : Type*}

/-- The number of elements of each bucket. -/
def counts (key : α → Nat) (l : List α) : Nat → Nat :=
  l.foldl (fun c x => Function.update c (key x) (c (key x) + 1)) fun _ => 0

/-- Exclusive prefix sums: the first position of each bucket. -/
def offsets (c : Nat → Nat) : Nat → Nat
  | 0 => 0
  | b + 1 => offsets c b + c b

/-- Put each element at the next free position of its bucket. -/
def scatter (key : α → Nat) : List α → (Nat → Nat) → (Nat → α) → Nat → α
  | [], _, out => out
  | x :: xs, pos, out =>
    scatter key xs (Function.update pos (key x) (pos (key x) + 1))
      (Function.update out (pos (key x)) x)

/-- The elements of bucket `b`, in order. -/
def bucket (key : α → Nat) (l : List α) (b : Nat) : List α := l.filter fun x => key x == b

/-- The buckets below `m` one after the other, each in order. -/
def partition (key : α → Nat) (m : Nat) (l : List α) : List α :=
  (List.range m).flatMap (bucket key l)

theorem counts_foldl (key : α → Nat) (l : List α) (c : Nat → Nat) (b : Nat) :
    l.foldl (fun c x => Function.update c (key x) (c (key x) + 1)) c b =
      c b + (bucket key l b).length := by
  induction l generalizing c with
  | nil => rfl
  | cons x xs ih =>
    rw [List.foldl_cons, ih]
    by_cases h : key x = b
    · subst h; simp [bucket]; omega
    · simp [bucket, h, Ne.symm h]

theorem counts_eq (key : α → Nat) (l : List α) (b : Nat) :
    counts key l b = (bucket key l b).length := by
  rw [counts, counts_foldl, Nat.zero_add]

theorem bucket_cons_self (key : α → Nat) (x : α) (xs : List α) :
    bucket key (x :: xs) (key x) = x :: bucket key xs (key x) := by simp [bucket]

theorem bucket_cons_of_ne {key : α → Nat} {x : α} {b : Nat} (h : key x ≠ b) (xs : List α) :
    bucket key (x :: xs) b = bucket key xs b := by simp [bucket, h]

theorem offsets_mono (c : Nat → Nat) {a b : Nat} (h : a ≤ b) : offsets c a ≤ offsets c b := by
  induction h with
  | refl => exact Nat.le_refl _
  | step _ ih => exact Nat.le_trans ih (Nat.le_add_right _ _)

/-! ## The scatter pass -/

/-- Position `i` is one that `scatter key l pos` fills. -/
def Fills (key : α → Nat) (l : List α) (pos : Nat → Nat) (b i : Nat) : Prop :=
  pos b ≤ i ∧ i < pos b + (bucket key l b).length

/-- No position is filled from two buckets. -/
def Apart (key : α → Nat) (l : List α) (pos : Nat → Nat) : Prop :=
  ∀ a b i, Fills key l pos a i → Fills key l pos b i → a = b

theorem Fills.of_cons {key : α → Nat} {x : α} {xs : List α} {pos : Nat → Nat} {b i : Nat}
    (h : Fills key xs (Function.update pos (key x) (pos (key x) + 1)) b i) :
    Fills key (x :: xs) pos b i := by
  unfold Fills at *
  by_cases hb : key x = b
  · subst hb
    rw [Function.update_self] at h
    rw [bucket_cons_self, List.length_cons]
    omega
  · rw [Function.update_of_ne (Ne.symm hb)] at h
    rwa [bucket_cons_of_ne hb]

theorem scatter_other {key : α → Nat} {l : List α} {pos : Nat → Nat} (out : Nat → α) {i : Nat}
    (h : ∀ b, ¬Fills key l pos b i) : scatter key l pos out i = out i := by
  induction l generalizing pos out with
  | nil => rfl
  | cons x xs ih =>
    have hne : i ≠ pos (key x) := by
      rintro rfl
      exact h (key x) ⟨Nat.le_refl _, by rw [bucket_cons_self]; simp⟩
    rw [scatter, ih _ fun b hb => h b hb.of_cons, Function.update_of_ne hne]

theorem scatter_bucket {key : α → Nat} {l : List α} {pos : Nat → Nat} (out : Nat → α)
    (hap : Apart key l pos) {b j : Nat} {x : α} (hx : (bucket key l b)[j]? = some x) :
    scatter key l pos out (pos b + j) = x := by
  induction l generalizing pos out j with
  | nil => cases hx
  | cons y ys ih =>
    have hap' : Apart key ys (Function.update pos (key y) (pos (key y) + 1)) :=
      fun a b i ha hb => hap a b i ha.of_cons hb.of_cons
    rw [scatter]
    by_cases hb : key y = b
    · subst hb
      rw [bucket_cons_self] at hx
      cases j with
      | zero =>
        -- the first position of the bucket is filled by `y` and never again
        have hhead : Fills key (y :: ys) pos (key y) (pos (key y)) :=
          ⟨Nat.le_refl _, by rw [bucket_cons_self]; simp⟩
        show scatter key ys _ _ (pos (key y)) = x
        rw [scatter_other, Function.update_self]
        · simpa using hx
        · intro a ha
          have hae : a = key y := hap _ _ _ ha.of_cons hhead
          subst hae
          have := ha.1
          rw [Function.update_self] at this
          omega
      | succ j =>
        have := ih (Function.update out (pos (key y)) y) hap' (j := j) (by simpa using hx)
        rw [Function.update_self] at this
        rwa [show pos (key y) + (j + 1) = pos (key y) + 1 + j by omega]
    · rw [bucket_cons_of_ne hb] at hx
      have := ih (Function.update out (pos (key y)) y) hap' hx
      rwa [Function.update_of_ne (Ne.symm hb)] at this

/-- The positions handed out by the prefix sums are apart. -/
theorem apart_offsets (key : α → Nat) (l : List α) : Apart key l (offsets (counts key l)) := by
  intro a b i ha hb
  unfold Fills at ha hb
  rw [← counts_eq] at ha hb
  rcases Nat.lt_trichotomy a b with h | h | h
  · have : offsets (counts key l) (a + 1) ≤ _ := offsets_mono _ h
    rw [offsets] at this
    omega
  · exact h
  · have : offsets (counts key l) (b + 1) ≤ _ := offsets_mono _ h
    rw [offsets] at this
    omega

theorem flatMap_range_offsets (c : Nat → Nat) (m : Nat) :
    (List.range m).flatMap (fun b => (List.range (c b)).map (offsets c b + ·)) =
      List.range (offsets c m) := by
  induction m with
  | zero => rfl
  | succ m ih => rw [List.range_succ, List.flatMap_append, ih, offsets, List.range_add]; simp

theorem map_scatter_bucket (key : α → Nat) (l : List α) (out : Nat → α) (b : Nat) :
    (List.range (counts key l b)).map
        (fun j => scatter key l (offsets (counts key l)) out (offsets (counts key l) b + j)) =
      bucket key l b := by
  refine List.ext_getElem (by simp [counts_eq]) fun j h1 h2 => ?_
  rw [List.getElem_map, List.getElem_range]
  exact scatter_bucket out (apart_offsets key l) (List.getElem?_eq_getElem h2)

/-- **The three passes compute the stable partition by bucket.** -/
theorem map_scatter_offsets (key : α → Nat) (l : List α) (out : Nat → α) (m : Nat) :
    (List.range (offsets (counts key l) m)).map (scatter key l (offsets (counts key l)) out) =
      partition key m l := by
  rw [← flatMap_range_offsets, List.map_flatMap, partition]
  refine congrArg (List.flatMap · (List.range m)) (funext fun b => ?_)
  rw [List.map_map]
  exact map_scatter_bucket key l out b

/-! ## The partition -/

theorem mem_bucket {key : α → Nat} {l : List α} {b : Nat} {x : α} :
    x ∈ bucket key l b ↔ x ∈ l ∧ key x = b := by simp [bucket]

theorem partition_succ (key : α → Nat) (m : Nat) (l : List α) :
    partition key (m + 1) l = partition key m l ++ bucket key l m := by
  simp [partition, List.range_succ]

theorem partition_perm_filter (key : α → Nat) (m : Nat) (l : List α) :
    (partition key m l).Perm (l.filter fun x => decide (key x < m)) := by
  induction m with
  | zero => simp [partition]
  | succ m ih =>
    rw [partition_succ]
    refine (ih.append_right _).trans ?_
    -- the elements below `m + 1` are those below `m` and those of bucket `m`
    have hlow : l.filter (fun x => decide (key x < m)) =
        (l.filter fun x => decide (key x < m + 1)).filter fun x => decide (key x < m) := by
      rw [List.filter_filter]
      refine List.filter_congr fun x _ => ?_
      rw [Bool.eq_iff_iff]
      simp only [decide_eq_true_eq, Bool.and_eq_true]
      omega
    have hhigh : bucket key l m =
        (l.filter fun x => decide (key x < m + 1)).filter fun x => !decide (key x < m) := by
      rw [List.filter_filter, bucket]
      refine List.filter_congr fun x _ => ?_
      rw [Bool.eq_iff_iff]
      simp only [beq_iff_eq, Bool.and_eq_true, Bool.not_eq_true', decide_eq_false_iff_not,
        decide_eq_true_eq]
      omega
    rw [hlow, hhigh]
    exact List.filter_append_perm _ _

/-- The partition rearranges the input. -/
theorem partition_perm {key : α → Nat} {m : Nat} {l : List α} (h : ∀ x ∈ l, key x < m) :
    (partition key m l).Perm l := by
  refine (partition_perm_filter key m l).trans ?_
  rw [List.filter_eq_self.mpr fun x hx => by simpa using h x hx]

/-- The elements of each of some buckets, one bucket after the other, are those of all of them. -/
theorem flatMap_filter_perm {κ : Type*} [DecidableEq κ] (key : α → κ) (l : List α) {ks : List κ}
    (hks : ks.Nodup) :
    (ks.flatMap fun k => l.filter fun x => key x == k).Perm (l.filter fun x => decide (key x ∈ ks)) := by
  induction ks with
  | nil => simp
  | cons k ks ih =>
    obtain ⟨hk, hks⟩ := List.nodup_cons.mp hks
    have hhead : (l.filter fun x => decide (key x ∈ k :: ks)).filter (fun x => key x == k) =
        l.filter fun x => key x == k := by
      rw [List.filter_filter]
      refine List.filter_congr fun x _ => ?_
      by_cases h : key x = k <;> simp [h]
    have htail : (l.filter fun x => decide (key x ∈ k :: ks)).filter (fun x => !(key x == k)) =
        l.filter fun x => decide (key x ∈ ks) := by
      rw [List.filter_filter]
      refine List.filter_congr fun x _ => ?_
      by_cases h : key x = k
      · simp [h, hk]
      · simp [h]
    rw [List.flatMap_cons]
    refine ((ih hks).append_left _).trans ?_
    rw [← hhead, ← htail]
    exact List.filter_append_perm _ _

/-- The first positions of the buckets below `m` add up to the whole length. -/
theorem offsets_length {key : α → Nat} {m : Nat} {l : List α} (h : ∀ x ∈ l, key x < m) :
    offsets (counts key l) m = l.length := by
  have := congrArg List.length (flatMap_range_offsets (counts key l) m)
  rw [List.length_range] at this
  rw [← this, ← (partition_perm h).length_eq, partition, List.length_flatMap, List.length_flatMap]
  simp [counts_eq]

/-- The positions handed out by the prefix sums are the first `l.length` ones. -/
theorem fills_lt {key : α → Nat} {m : Nat} {l : List α} (h : ∀ x ∈ l, key x < m) {b i : Nat}
    (hb : Fills key l (offsets (counts key l)) b i) : i < l.length := by
  have hlt : b < m := by
    obtain ⟨x, hx⟩ : ∃ x, x ∈ bucket key l b := List.exists_mem_of_length_pos (by
      have := hb.1; have := hb.2; omega)
    obtain ⟨hmem, rfl⟩ := mem_bucket.mp hx
    exact h x hmem
  have hle : offsets (counts key l) (b + 1) ≤ _ := offsets_mono _ hlt
  rw [offsets_length h, offsets, counts_eq] at hle
  have := hb.2
  omega

/-- Outside the first `l.length` positions nothing is written. -/
theorem scatter_offsets_other {key : α → Nat} {m : Nat} {l : List α} (h : ∀ x ∈ l, key x < m)
    (out : Nat → α) {i : Nat} (hi : l.length ≤ i) :
    scatter key l (offsets (counts key l)) out i = out i :=
  scatter_other out fun _ hb => absurd (fills_lt h hb) (Nat.not_lt.mpr hi)

/-- The positions the scatter pass writes to, in order. -/
def slots (key : α → Nat) : List α → (Nat → Nat) → List Nat
  | [], _ => []
  | x :: xs, pos => pos (key x) :: slots key xs (Function.update pos (key x) (pos (key x) + 1))

theorem fills_of_mem_slots {key : α → Nat} {l : List α} {pos : Nat → Nat} {i : Nat}
    (h : i ∈ slots key l pos) : ∃ b, Fills key l pos b i := by
  induction l generalizing pos with
  | nil => cases h
  | cons x xs ih =>
    rcases List.mem_cons.mp h with rfl | h
    · exact ⟨key x, Nat.le_refl _, by rw [bucket_cons_self]; simp⟩
    · obtain ⟨b, hb⟩ := ih h
      exact ⟨b, hb.of_cons⟩

/-- Elements that all belong to one bucket stay in order. -/
theorem filter_partition {key : α → Nat} {b m : Nat} {p : α → Bool}
    (hp : ∀ x, p x = true → key x = b) (hb : b < m) (l : List α) :
    (partition key m l).filter p = l.filter p := by
  -- the bucket `b` has them all, and the other buckets none
  have hbucket : (bucket key l b).filter p = l.filter p := by
    rw [bucket, List.filter_filter]
    refine List.filter_congr fun x _ => ?_
    by_cases hx : p x = true
    · simp [hx, hp x hx]
    · simp [hx]
  have hnone : ∀ b' ≠ b, (bucket key l b').filter p = [] := by
    intro b' hne
    refine List.filter_eq_nil_iff.mpr fun x hx hpx => hne ?_
    exact (mem_bucket.mp hx).2.symm.trans (hp x hpx)
  have hlow : ∀ n ≤ b, (partition key n l).filter p = [] := by
    intro n hn
    refine List.filter_eq_nil_iff.mpr fun x hx hpx => ?_
    have hlt := (List.mem_filter.mp ((partition_perm_filter key n l).mem_iff.mp hx)).2
    have := of_decide_eq_true hlt
    have := hp x hpx
    omega
  induction m with
  | zero => cases hb
  | succ m ih =>
    rw [partition_succ, List.filter_append]
    rcases Nat.lt_succ_iff_lt_or_eq.mp hb with hlt | rfl
    · rw [ih hlt, hnone m (Nat.ne_of_gt hlt), List.append_nil]
    · rw [hlow b (Nat.le_refl b), hbucket, List.nil_append]

/-- The partition orders by bucket, and within a bucket as the input was. -/
theorem pairwise_partition {key : α → Nat} {R : α → α → Prop} (m : Nat) {l : List α}
    (h : l.Pairwise R) :
    (partition key m l).Pairwise fun x y => key x < key y ∨ key x = key y ∧ R x y := by
  induction m with
  | zero => simp [partition]
  | succ m ih =>
    rw [partition_succ]
    refine List.pairwise_append.mpr ⟨ih, ?_, fun x hx y hy => ?_⟩
    · refine (h.filter fun x => key x == m).imp_of_mem fun hx hy hr => .inr ⟨?_, hr⟩
      rw [(mem_bucket.mp hx).2, (mem_bucket.mp hy).2]
    · left
      have hlow := (List.mem_filter.mp ((partition_perm_filter key m l).mem_iff.mp hx)).2
      rw [(mem_bucket.mp hy).2]
      simpa using hlow

end BucketScatter
