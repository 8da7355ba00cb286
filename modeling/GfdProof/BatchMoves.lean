import Mathlib
import GfdProof.BatchGroups
import GfdProof.DirectEntries

/-! # The bytes the entries of a batch move

`BatchPlan` gives the entries that `process_batch` submits, and the entries that it gathers into
a staging buffer first.  However they are sorted and merged, the entries submitted or gathered
make the moves of the batch in another order (`batchPlan_moves`), and the runs submitted from the
staging buffer reach the bytes that the gathered entries reach, at their offset in the buffer.
The submissions of `process_batch_tiled` and `process_batch_sg` make the moves of the descriptors
they have grouped (`carries_tiledEntries`, `carries_groups`).

Only that the sort permutes is used of it: a merge is always correct, so which entries come to
stand side by side decides how many are submitted and not what they move.
-/
namespace Gfd

open Direct (Reaches)

/-- The entry reads the user's memory and ends below `2^64`, there and in the destination. -/
structure SGEntry.Fits (e : SGEntry) : Prop where
  dst_lt : e.dst + e.size < wordSize
  src : ∃ a, e.src = .user a ∧ a + e.size < wordSize

/-- The entries make the same moves, in any order. -/
def SameMoves (es es' : List SGEntry) : Prop :=
  (es.flatMap SGEntry.moves).Perm (es'.flatMap SGEntry.moves)

theorem SameMoves.of_perm {es es' : List SGEntry} (h : es.Perm es') : SameMoves es es' :=
  h.flatMap_right _

theorem SameMoves.trans {es es' es'' : List SGEntry} (h : SameMoves es es')
    (h' : SameMoves es' es'') : SameMoves es es'' := List.Perm.trans h h'

/-- What reaches a byte is a move to it. -/
theorem reaches_iff_moves {es : List SGEntry} {a : Nat} :
    (∃ e ∈ es, Reaches e a) ↔ ∃ p, (a, p) ∈ es.flatMap SGEntry.moves := by
  constructor
  · rintro ⟨e, he, k, hk, rfl⟩
    exact ⟨e.src.plus k, List.mem_flatMap.mpr
      ⟨e, he, List.mem_map.mpr ⟨k, List.mem_range.mpr hk, rfl⟩⟩⟩
  · rintro ⟨p, hp⟩
    obtain ⟨e, he, hp⟩ := List.mem_flatMap.mp hp
    obtain ⟨k, hk, heq⟩ := List.mem_map.mp hp
    cases heq
    exact ⟨e, he, k, List.mem_range.mp hk, rfl⟩

/-- The same bytes are reached. -/
theorem SameMoves.reaches {es es' : List SGEntry} (h : SameMoves es es') (a : Nat) :
    (∃ e ∈ es, Reaches e a) ↔ ∃ e ∈ es', Reaches e a := by
  simp only [reaches_iff_moves, h.mem_iff]

/-! ## Merging -/

theorem HostPtr.plus_zero {e : SGEntry} (he : e.Fits) : e.src.plus 0 = e.src := by
  obtain ⟨a, ha, hlt⟩ := he.src
  rw [ha, HostPtr.plus, Nat.add_zero, word_of_lt (Nat.lt_of_le_of_lt (Nat.le_add_right _ _) hlt)]

/-- An entry that is continued by one that fits. -/
theorem SGEntry.Fits.extend {prev e : SGEntry} (hp : prev.Fits) (he : e.Fits)
    (hd : prev.dContig e = true) (hs : prev.sContig e = true) :
    SGEntry.Fits { prev with size := prev.size + e.size } := by
  obtain ⟨a, ha, ha'⟩ := hp.src
  obtain ⟨b, hb, hb'⟩ := he.src
  have hdst : e.dst = prev.dst + prev.size := (beq_iff_eq.mp hd).trans (word_of_lt hp.dst_lt)
  have hsrc : b = a + prev.size := by
    have h : e.src = prev.src.plus prev.size := beq_iff_eq.mp hs
    rw [ha, hb, HostPtr.plus, word_of_lt ha'] at h
    exact HostPtr.user.inj h
  have hlt := he.dst_lt
  refine ⟨?_, a, ha, ?_⟩
  · dsimp only
    omega
  · dsimp only
    omega

/-- Joining an entry to the one before moves the same bytes. -/
theorem moves_coalesceFrom (prev : SGEntry) (es : List SGEntry) :
    (coalesceFrom prev es).flatMap SGEntry.moves = prev.moves ++ es.flatMap SGEntry.moves := by
  induction es generalizing prev with
  | nil => simp [coalesceFrom]
  | cons e es ih =>
    rw [coalesceFrom]
    split
    · rename_i h
      obtain ⟨hd, hs⟩ := Bool.and_eq_true_iff.mp h
      rw [ih, ← SGEntry.moves_append hd hs e.size, List.flatMap_cons, List.append_assoc]
    · rw [List.flatMap_cons, ih, List.flatMap_cons]

/-- `coalesce` moves the same bytes. -/
theorem sameMoves_coalesce (es : List SGEntry) : SameMoves (coalesce es) es := by
  cases es with
  | nil => exact List.Perm.refl _
  | cons e es =>
    unfold SameMoves
    rw [coalesce, moves_coalesceFrom, List.flatMap_cons]

/-- What is joined stays in the address range. -/
theorem fits_coalesceFrom {prev : SGEntry} {es : List SGEntry} (hp : prev.Fits)
    (h : ∀ e ∈ es, e.Fits) : ∀ e ∈ coalesceFrom prev es, e.Fits := by
  induction es generalizing prev with
  | nil => exact List.forall_mem_singleton.mpr hp
  | cons e es ih =>
    obtain ⟨he, hes⟩ := List.forall_mem_cons.mp h
    rw [coalesceFrom]
    split
    · rename_i hc
      obtain ⟨hd, hs⟩ := Bool.and_eq_true_iff.mp hc
      exact ih (hp.extend he hd hs) hes
    · exact List.forall_mem_cons.mpr ⟨hp, ih he hes⟩

theorem fits_coalesce {es : List SGEntry} (h : ∀ e ∈ es, e.Fits) : ∀ e ∈ coalesce es, e.Fits := by
  cases es with
  | nil => exact List.forall_mem_nil _
  | cons e es =>
    obtain ⟨he, hes⟩ := List.forall_mem_cons.mp h
    exact fits_coalesceFrom he hes

/-- Entries that all continue one another are merged into one; `last` is the end of `prev`. -/
theorem coalesceFrom_of_contiguous {n k : Nat} {prev last : SGEntry} {es : List SGEntry}
    (hsrc : last.src = prev.src.plus k) (hk : k + last.size = prev.size)
    (hd : dstContiguousFrom n (word (prev.dst + prev.size)) es = true)
    (hs : srcContiguous (last :: es) = true) :
    coalesceFrom prev es = [{ prev with size := prev.size + es.length * n }] := by
  induction es generalizing prev last k with
  | nil => simp [coalesceFrom]
  | cons e es ih =>
    simp only [dstContiguousFrom, Bool.and_eq_true, beq_iff_eq] at hd
    obtain ⟨⟨hdst, hsize⟩, hd⟩ := hd
    rw [srcContiguous, Bool.and_eq_true] at hs
    have hsrc' : e.src = prev.src.plus prev.size := by
      rw [beq_iff_eq.mp hs.1, hsrc, HostPtr.plus_plus, hk]
    have hcontig : (prev.dContig e && prev.sContig e) = true :=
      Bool.and_eq_true_iff.mpr ⟨beq_iff_eq.mpr hdst, beq_iff_eq.mpr hsrc'⟩
    have hd : dstContiguousFrom n (word (prev.dst + (prev.size + e.size))) es = true := by
      rw [hsize, ← Nat.add_assoc, ← word_add_word]
      exact hd
    rw [coalesceFrom, if_pos hcontig]
    refine Eq.trans (ih hsrc' rfl hd hs.2) ?_
    rw [List.length_cons, Nat.succ_mul, hsize, Nat.add_assoc, Nat.add_comm n]

/-! ## Runs -/

/-- A run is copied from its own offset in the staging buffer. -/
theorem mem_runsFrom {buf base start size : Nat} {es : List SGEntry} :
    ∀ r ∈ runsFrom buf base start size es, r.src = .staging buf (subWord r.dst base) := by
  induction es generalizing start size with
  | nil => exact List.forall_mem_singleton.mpr rfl
  | cons e es ih =>
    rw [runsFrom]
    split
    · exact ih
    · exact List.forall_mem_cons.mpr ⟨rfl, ih⟩

theorem mem_runs {buf base : Nat} {es : List SGEntry} :
    ∀ r ∈ runs buf base es, r.src = .staging buf (subWord r.dst base) := by
  cases es with
  | nil => exact List.forall_mem_nil _
  | cons e es => exact mem_runsFrom

theorem runsFrom_lt {buf base start size : Nat} {es : List SGEntry} (hlt : start + size < wordSize)
    (h : ∀ e ∈ es, e.dst + e.size < wordSize) :
    ∀ r ∈ runsFrom buf base start size es, r.dst + r.size < wordSize := by
  induction es generalizing start size with
  | nil => exact List.forall_mem_singleton.mpr hlt
  | cons e es ih =>
    obtain ⟨he, hes⟩ := List.forall_mem_cons.mp h
    rw [runsFrom]
    split
    · rename_i hdst
      rw [beq_iff_eq, word_of_lt hlt] at hdst
      exact ih (by omega) hes
    · exact List.forall_mem_cons.mpr ⟨hlt, ih he hes⟩

/-- Runs stay in the address range. -/
theorem runs_lt {buf base : Nat} {es : List SGEntry} (h : ∀ e ∈ es, e.dst + e.size < wordSize) :
    ∀ r ∈ runs buf base es, r.dst + r.size < wordSize := by
  cases es with
  | nil => exact List.forall_mem_nil _
  | cons e es =>
    obtain ⟨he, hes⟩ := List.forall_mem_cons.mp h
    exact runsFrom_lt he hes

/-- A run is extended by the bytes of the entry that continues it. -/
theorem runsFrom_reaches {buf base start size a : Nat} {es : List SGEntry} :
    (∃ r ∈ runsFrom buf base start size es, Reaches r a) ↔
      (∃ k < size, a = word (start + k)) ∨ ∃ e ∈ es, Reaches e a := by
  induction es generalizing start size with
  | nil => simp [runsFrom, stagedRun, Reaches]
  | cons e es ih =>
    rw [runsFrom]
    split
    · rename_i hdst
      rw [beq_iff_eq] at hdst
      have hsplit : (∃ k < size + e.size, a = word (start + k)) ↔
          (∃ k < size, a = word (start + k)) ∨ Reaches e a := by
        have hword : ∀ k, word (e.dst + k) = word (start + (size + k)) := fun k => by
          rw [hdst, word_add_word, Nat.add_assoc]
        constructor
        · rintro ⟨k, hk, rfl⟩
          by_cases hlt : k < size
          · exact .inl ⟨k, hlt, rfl⟩
          · refine .inr ⟨k - size, by omega, ?_⟩
            rw [hword, Nat.add_sub_cancel' (Nat.le_of_not_lt hlt)]
        · rintro (⟨k, hk, rfl⟩ | ⟨k, hk, rfl⟩)
          · exact ⟨k, Nat.lt_add_right _ hk, rfl⟩
          · exact ⟨size + k, Nat.add_lt_add_left hk _, hword k⟩
      rw [ih, hsplit, or_assoc]
      simp only [List.mem_cons, or_and_right, exists_or, exists_eq_left]
    · simp only [List.mem_cons, or_and_right, exists_or, exists_eq_left, ih]
      rfl

/-- Runs reach what their entries reach, and nothing between. -/
theorem runs_reaches {buf base a : Nat} {es : List SGEntry} :
    (∃ r ∈ runs buf base es, Reaches r a) ↔ ∃ e ∈ es, Reaches e a := by
  cases es with
  | nil => exact Iff.rfl
  | cons e es =>
    rw [runs, runsFrom_reaches]
    simp only [List.mem_cons, or_and_right, exists_or, exists_eq_left]
    rfl

/-- A contiguous batch is one run. -/
theorem runsFrom_of_contiguous {n buf base start size : Nat} {es : List SGEntry}
    (h : dstContiguousFrom n (word (start + size)) es = true) :
    runsFrom buf base start size es = [stagedRun buf base start (size + es.length * n)] := by
  induction es generalizing size with
  | nil => simp [runsFrom]
  | cons e es ih =>
    simp only [dstContiguousFrom, Bool.and_eq_true, beq_iff_eq] at h
    obtain ⟨⟨hdst, hsize⟩, h⟩ := h
    have h : dstContiguousFrom n (word (start + (size + e.size))) es = true := by
      rw [hsize, ← Nat.add_assoc, ← word_add_word]
      exact h
    rw [runsFrom, if_pos (beq_iff_eq.mpr hdst), ih h, List.length_cons, Nat.succ_mul, hsize,
      Nat.add_assoc, Nat.add_comm n]

/-! ## The base of a gather -/

/-- Entries that follow one another begin at or after the first. -/
theorem le_of_dstContiguousFrom {n base expected : Nat} {es : List SGEntry} (hbase : base ≤ expected)
    (hlt : ∀ e ∈ es, e.dst + e.size < wordSize) (h : dstContiguousFrom n expected es = true) :
    ∀ e ∈ es, base ≤ e.dst := by
  induction es generalizing expected with
  | nil => exact List.forall_mem_nil _
  | cons e es ih =>
    simp only [dstContiguousFrom, Bool.and_eq_true, beq_iff_eq] at h
    obtain ⟨⟨hdst, hsize⟩, h⟩ := h
    obtain ⟨he, hes⟩ := List.forall_mem_cons.mp hlt
    rw [hdst, hsize] at he
    rw [word_of_lt he] at h
    refine List.forall_mem_cons.mpr ⟨hbase.trans hdst.ge, ih ?_ hes h⟩
    exact hbase.trans (Nat.le_add_right _ _)

theorem minDst_foldl_le (es : List SGEntry) (m : Nat) :
    es.foldl (fun m e => if e.dst < m then e.dst else m) m ≤ m ∧
      ∀ e ∈ es, es.foldl (fun m e => if e.dst < m then e.dst else m) m ≤ e.dst := by
  induction es generalizing m with
  | nil => exact ⟨Nat.le_refl _, List.forall_mem_nil _⟩
  | cons e es ih =>
    rw [List.foldl_cons]
    obtain ⟨hm, hes⟩ := ih (if e.dst < m then e.dst else m)
    refine ⟨hm.trans ?_, List.forall_mem_cons.mpr ⟨hm.trans ?_, hes⟩⟩
    · split <;> omega
    · split <;> omega

/-- No entry begins before the least destination. -/
theorem minDst_le {es : List SGEntry} : ∀ e ∈ es, minDst es ≤ e.dst := by
  cases es with
  | nil => exact List.forall_mem_nil _
  | cons e es => exact List.forall_mem_cons.mpr (minDst_foldl_le es e.dst)

/-! ## Plans -/

/-- The entries make the moves of the batch. -/
structure Moved (batch es : List SGEntry) : Prop where
  fits : ∀ e ∈ es, e.Fits
  same : SameMoves es batch

/-- The gathered entries do, the buffer starts at or before each of them, and the runs reach what
they reach, from where it lies in the buffer. -/
structure Runs (buf base : Nat) (es rs : List SGEntry) : Prop where
  base_le : ∀ e ∈ es, base ≤ e.dst
  src : ∀ r ∈ rs, r.src = .staging buf (subWord r.dst base)
  dst_lt : ∀ r ∈ rs, r.dst + r.size < wordSize
  reaches : ∀ a, (∃ r ∈ rs, Reaches r a) ↔ ∃ e ∈ es, Reaches e a

/-- What is known of a plan for a batch. -/
def Plan.Moves (buf : Nat) (batch : List SGEntry) : Plan → Prop
  | .direct es => Moved batch es
  | .staged es base rs => Moved batch es ∧ Runs buf base es rs

variable {batch : List SGEntry}

theorem Moved.self (h : ∀ e ∈ batch, e.Fits) : Moved batch batch := ⟨h, List.Perm.refl _⟩

theorem Moved.of_perm {es : List SGEntry} (h : ∀ e ∈ batch, e.Fits) (hp : es.Perm batch) :
    Moved batch es := ⟨fun e he => h e (hp.mem_iff.mp he), .of_perm hp⟩

theorem Moved.coalesce {es : List SGEntry} (h : Moved batch es) : Moved batch (coalesce es) :=
  ⟨fits_coalesce h.fits, (sameMoves_coalesce es).trans h.same⟩

theorem runs_of_perm {buf base : Nat} {es es' : List SGEntry} (hfits : ∀ e ∈ es, e.Fits)
    (hbase : ∀ e ∈ es, base ≤ e.dst) (hp : es'.Perm es) : Runs buf base es (runs buf base es') where
  base_le := hbase
  src := mem_runs
  dst_lt := runs_lt fun e he => (hfits e (hp.mem_iff.mp he)).dst_lt
  reaches a := by
    rw [runs_reaches]
    simp only [hp.mem_iff]

/-- Whatever the plan is, it moves what the batch names. -/
theorem genericPlan_moves (std : StdSort SGEntry) (st : Staging) (buf : Nat)
    (h : ∀ e ∈ batch, e.Fits) : (genericPlan std st buf batch).Moves buf batch := by
  have hmoved : Moved batch (coalesce (radixSort std (fun e => e.src.addr) batch)) :=
    (Moved.of_perm h (radixSort_perm std _ batch)).coalesce
  unfold genericPlan
  dsimp only
  split
  · exact ⟨hmoved, runs_of_perm hmoved.fits minDst_le (radixSort_perm std _ _)⟩
  · exact hmoved

/-- **A plan makes the moves of its batch.** -/
theorem batchPlan_moves (std : StdSort SGEntry) (st : Staging) (buf : Nat) {ds : List Descriptor}
    (h : ∀ e ∈ ds.map Descriptor.entry, e.Fits) :
    (batchPlan std st buf ds).Moves buf (ds.map Descriptor.entry) := by
  unfold batchPlan
  split
  · rename_i hnil
    rw [hnil] at h ⊢
    exact .self h
  · rename_i e hone
    rw [hone] at h ⊢
    exact .self h
  · rename_i e es _ hcons
    rw [hcons] at h ⊢
    obtain ⟨he, hes⟩ := List.forall_mem_cons.mp h
    split
    · rename_i hd
      have hd : dstContiguousFrom e.size (word (e.dst + e.size)) es = true := hd.1
      have hlen : (e :: es).length * e.size = e.size + es.length * e.size := by
        rw [List.length_cons, Nat.succ_mul, Nat.add_comm]
      split
      · rename_i hs
        have hone := coalesceFrom_of_contiguous (HostPtr.plus_zero he).symm (Nat.zero_add _) hd hs
        have hmoved : Moved (e :: es) (coalesce (e :: es)) := (Moved.self h).coalesce
        rw [coalesce, hone, ← hlen] at hmoved
        exact hmoved
      · split
        · have hbase : ∀ x ∈ e :: es, e.dst ≤ x.dst := by
            refine List.forall_mem_cons.mpr ⟨Nat.le_refl _,
              le_of_dstContiguousFrom ?_ (fun x hx => (hes x hx).dst_lt) hd⟩
            rw [word_of_lt he.dst_lt]
            exact Nat.le_add_right _ _
          have hruns : Runs buf e.dst (e :: es) (runs buf e.dst (e :: es)) :=
            runs_of_perm h hbase (List.Perm.refl (e :: es))
          have hlt : e.dst < wordSize := Nat.lt_of_le_of_lt (Nat.le_add_right _ _) he.dst_lt
          have hoff : subWord e.dst e.dst = 0 := by rw [subWord_of_le hlt (Nat.le_refl _), Nat.sub_self]
          rw [runs, runsFrom_of_contiguous hd, ← hlen, stagedRun, hoff] at hruns
          exact ⟨.self h, hruns⟩
        · exact genericPlan_moves std st buf h
    · exact genericPlan_moves std st buf h

/-! ## What the entries are for -/

/-- The copy of the entry writes byte `a`. -/
def SGEntry.Covers (e : SGEntry) (a : Nat) : Prop := e.dst ≤ a ∧ a < e.dst + e.size

instance (e : SGEntry) (a : Nat) : Decidable (e.Covers a) := inferInstanceAs (Decidable (_ ∧ _))

/-- Without a wrap, the two ways to say which bytes an entry writes agree. -/
theorem covers_iff_reaches {e : SGEntry} (h : e.dst + e.size < wordSize) {a : Nat} :
    e.Covers a ↔ Reaches e a := by
  constructor
  · rintro ⟨hle, hlt⟩
    refine ⟨a - e.dst, by omega, ?_⟩
    rw [Nat.add_sub_cancel' hle, word_of_lt (hlt.trans h)]
  · rintro ⟨k, hk, rfl⟩
    rw [word_of_lt (by omega)]
    exact ⟨Nat.le_add_right _ _, Nat.add_lt_add_left hk _⟩

theorem SGEntry.Fits.covers_iff {e : SGEntry} (h : e.Fits) {a : Nat} : e.Covers a ↔ Reaches e a :=
  covers_iff_reaches h.dst_lt

/-- Every byte of an entry is a byte of one of the descriptors whose moves are made. -/
theorem Moved.exists_descriptor {ds : List Descriptor} {es : List SGEntry}
    (hds : ∀ e ∈ ds.map Descriptor.entry, e.Fits) (hm : Moved (ds.map Descriptor.entry) es)
    {e : SGEntry} (he : e ∈ es) {a k : Nat} (ha : e.src = .user a) (hk : k < e.size) :
    ∃ d ∈ ds, ∃ j < d.size, e.dst + k = d.dstAddr + j ∧ a + k = d.srcAddr + j := by
  have hmem : (word (e.dst + k), e.src.plus k) ∈ es.flatMap SGEntry.moves :=
    List.mem_flatMap.mpr ⟨e, he, List.mem_map.mpr ⟨k, List.mem_range.mpr hk, rfl⟩⟩
  obtain ⟨e', he', hmem⟩ := List.mem_flatMap.mp (hm.same.mem_iff.mp hmem)
  obtain ⟨j, hj, heq⟩ := List.mem_map.mp hmem
  obtain ⟨d, hd, rfl⟩ := List.mem_map.mp he'
  obtain ⟨hdst, hsrc⟩ := Prod.mk.inj heq
  have hj : j < d.size := List.mem_range.mp hj
  have hfit := hm.fits e he
  have hfit' := hds _ he'
  obtain ⟨b, hb, hlt⟩ := hfit.src
  obtain ⟨b', hb', hlt'⟩ := hfit'.src
  cases ha.symm.trans hb
  cases hb'
  have h1 := hfit.dst_lt
  have h2 := hfit'.dst_lt
  refine ⟨d, hd, j, hj, ?_, ?_⟩
  · rw [word_of_lt (by dsimp only [Descriptor.entry] at h2 ⊢; omega), word_of_lt (by omega)] at hdst
    exact hdst.symm
  · rw [ha] at hsrc
    have hsrc : word (d.srcAddr + j) = word (a + k) := HostPtr.user.inj hsrc
    rw [word_of_lt (by dsimp only [Descriptor.entry] at hlt'; omega), word_of_lt (by omega)] at hsrc
    exact hsrc.symm

/-- An entry with the descriptors it is submitted for. -/
abbrev Submission := SGEntry × List Descriptor

/-- It is submitted for descriptors of `ds`, and every byte it writes is a byte of one of them. -/
structure Submission.Named (ds : List Descriptor) (p : Submission) : Prop where
  sub : ∀ d ∈ p.2, d ∈ ds
  names : ∀ a, p.1.Covers a → ∃ d ∈ p.2, d.Writes a

/-- Submissions that make the moves of the descriptors. -/
structure Carries (ds : List Descriptor) (ps : List Submission) : Prop where
  moved : Moved (ds.map Descriptor.entry) (ps.map Prod.fst)
  named : ∀ p ∈ ps, p.Named ds

theorem Submission.Named.mono {ds ds' : List Descriptor} {p : Submission} (h : p.Named ds)
    (hsub : ∀ d ∈ ds, d ∈ ds') : p.Named ds' := ⟨fun d hd => hsub d (h.sub d hd), h.names⟩

section Carries
variable {ds ds' : List Descriptor} {ps ps' : List Submission}

/-- A byte that is moved is one of some descriptor. -/
theorem Moved.covered {es : List SGEntry} (hds : ∀ e ∈ ds.map Descriptor.entry, e.Fits)
    (hm : Moved (ds.map Descriptor.entry) es) {e : SGEntry} (he : e ∈ es) {a : Nat}
    (ha : e.Covers a) : ∃ d ∈ ds, d.Writes a := by
  obtain ⟨hle, hlt⟩ := ha
  obtain ⟨b, hb, -⟩ := (hm.fits e he).src
  obtain ⟨d, hd, j, hj, hdst, -⟩ := hm.exists_descriptor hds he hb (k := a - e.dst) (by omega)
  have hdlt := (hds _ (List.mem_map_of_mem hd)).dst_lt
  refine ⟨d, hd, j, hj, ?_⟩
  rw [word_of_lt (by dsimp only [Descriptor.entry] at hdlt; omega)]
  omega

/-- The entries of a batch, each said to be for all its descriptors, carry the batch. -/
theorem carries_of_moved {es : List SGEntry} (hds : ∀ e ∈ ds.map Descriptor.entry, e.Fits)
    (hm : Moved (ds.map Descriptor.entry) es) : Carries ds (es.map fun e => (e, ds)) where
  moved := by rwa [List.map_map, show (Prod.fst ∘ fun e => (e, ds)) = id from rfl, List.map_id]
  named := List.forall_mem_map.mpr fun e he => ⟨fun _ hd => hd, fun _ ha => hm.covered hds he ha⟩

theorem carries_single (d : Descriptor) (h : d.entry.Fits) : Carries [d] [(d.entry, [d])] :=
  have hfits : ∀ e ∈ [d].map Descriptor.entry, e.Fits := List.forall_mem_singleton.mpr h
  carries_of_moved hfits (.self hfits)

theorem carries_nil : Carries [] [] :=
  ⟨.self (List.forall_mem_nil _), List.forall_mem_nil _⟩

/-- Two batches are carried by what carries each. -/
theorem Carries.append (h : Carries ds ps) (h' : Carries ds' ps') :
    Carries (ds ++ ds') (ps ++ ps') where
  moved := by
    refine ⟨?_, ?_⟩
    · rw [List.map_append]
      exact List.forall_mem_append.mpr ⟨h.moved.fits, h'.moved.fits⟩
    · unfold SameMoves
      simp only [List.map_append, List.flatMap_append]
      exact List.Perm.append h.moved.same h'.moved.same
  named := List.forall_mem_append.mpr
    ⟨fun p hp => (h.named p hp).mono fun _ => List.mem_append_left _,
      fun p hp => (h'.named p hp).mono fun _ => List.mem_append_right _⟩

theorem Carries.of_perm (h : Carries ds ps) (hp : ds.Perm ds') : Carries ds' ps where
  moved := ⟨h.moved.fits, h.moved.same.trans (.of_perm (hp.map _))⟩
  named p hmem := (h.named p hmem).mono fun _ => hp.mem_iff.mp

theorem fits_mergeAll {es : List SGEntry} (hc : contiguous es = true) (h : ∀ e ∈ es, e.Fits) :
    (mergeAll es).Fits := by
  induction es with
  | nil => exact ⟨by decide, 0, rfl, by decide⟩
  | cons e es ih =>
    obtain ⟨he, hes⟩ := List.forall_mem_cons.mp h
    cases es with
    | nil => exact he
    | cons e' es =>
      rw [contiguous, Bool.and_eq_true, Bool.and_eq_true] at hc
      obtain ⟨⟨hd, hs⟩, hrest⟩ := hc
      exact SGEntry.Fits.extend he (ih hrest hes) hd hs

/-- A contiguous list is submitted as one entry. -/
theorem carries_mergeAll (hds : ∀ e ∈ ds.map Descriptor.entry, e.Fits)
    (hc : contiguous (ds.map Descriptor.entry) = true) :
    Carries ds [(mergeAll (ds.map Descriptor.entry), ds)] := by
  have hsame : SameMoves [mergeAll (ds.map Descriptor.entry)] (ds.map Descriptor.entry) := by
    unfold SameMoves
    rw [List.flatMap_singleton]
    cases ds with
    | nil => exact List.Perm.refl _
    | cons d ds => rw [moves_mergeAll hc (List.cons_ne_nil _ _)]
  exact carries_of_moved hds ⟨List.forall_mem_singleton.mpr (fits_mergeAll hc hds), hsame⟩

theorem carries_each (hds : ∀ e ∈ ds.map Descriptor.entry, e.Fits) :
    Carries ds (ds.map fun d => (d.entry, [d])) := by
  induction ds with
  | nil => exact carries_nil
  | cons d ds ih =>
    obtain ⟨hd, hds⟩ := List.forall_mem_cons.mp hds
    exact (carries_single d hd).append (ih hds)

/-- The merged entry of a group carries the group. -/
theorem carries_groupEntries (hds : ∀ e ∈ ds.map Descriptor.entry, e.Fits) :
    Carries ds (groupEntries ds) := by
  unfold groupEntries
  split
  · exact carries_single _ (List.forall_mem_singleton.mp hds)
  · split
    · rename_i hc
      exact carries_mergeAll hds hc
    · exact carries_each hds

/-- The submissions group by group. -/
theorem carries_groups {groups : List (List Descriptor)}
    (hds : ∀ e ∈ groups.flatten.map Descriptor.entry, e.Fits) :
    Carries groups.flatten (groups.map groupEntries).flatten := by
  induction groups with
  | nil => exact carries_nil
  | cons ds groups ih =>
    rw [List.flatten_cons, List.map_append] at hds
    obtain ⟨hd, hds⟩ := List.forall_mem_append.mp hds
    exact (carries_groupEntries hd).append (ih hds)

/-- The entries of all groups carry the batch. -/
theorem carries_tiledEntries {groups : List (List Descriptor)}
    (hds : ∀ e ∈ groups.flatten.map Descriptor.entry, e.Fits) :
    Carries groups.flatten (tiledEntries groups).flatten := by
  unfold tiledEntries
  dsimp only
  split
  · rename_i hc
    exact carries_mergeAll hds hc.2
  · exact carries_groups hds

/-- The groups together are the descriptors with an id below the bound. -/
theorem Grouped.perm {bound : Nat} {batch : List Descriptor} {groups : List (Nat × List Descriptor)}
    (h : Grouped bound batch groups) :
    (groups.map Prod.snd).flatten.Perm (batch.filter fun d => d.group < bound) := by
  have hsnd : groups.map Prod.snd =
      (groups.map Prod.fst).map fun id => batch.filter fun d => d.group == id := by
    rw [List.map_map]
    exact List.map_congr_left fun g hg => (h.group g hg).2
  rw [hsnd, ← List.flatMap_def]
  refine (BucketScatter.flatMap_filter_perm Descriptor.group batch h.nodup).trans (.of_eq ?_)
  refine List.filter_congr fun d hd => decide_eq_decide.mpr ⟨fun hmem => ?_, h.complete d hd⟩
  obtain ⟨g, hg, heq⟩ := List.mem_map.mp hmem
  rw [← heq]
  exact (h.group g hg).1

end Carries

end Gfd
