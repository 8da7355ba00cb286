import Mathlib
import GfdProof.DirectSubmit

/-! # The entries of a direct submission

What a submission asks for, byte by byte (`deliver_of_mem`), and where its entries
lie when each starts where the one before it ends (`dst_of_chained`), in the
staging buffer as well (`Staged`): then one copy of the whole buffer supplies what
the entries ask for (`supplies_single`).  The chunks of a pipeline are such entries
again (`chunks_flatMap`, `infix_of_mem_chunks`).
-/
namespace Gfd.Direct

open CopyEngineManager (Sized)

variable {es : List SGEntry} {byte : HostPtr → UInt8} {mem : Nat → UInt8}

/-! ## Delivery -/

theorem writeMoves_of_notMem {ms : List (Nat × HostPtr)} {a : Nat} (h : a ∉ ms.map Prod.fst) :
    writeMoves byte mem ms a = mem a := by
  induction ms generalizing mem with
  | nil => rfl
  | cons m ms ih =>
    obtain ⟨hne, h⟩ := not_or.mp (mt List.mem_cons.mpr h)
    exact (ih h).trans (Function.update_of_ne hne _ _)

theorem writeMoves_of_mem {ms : List (Nat × HostPtr)} (hnodup : (ms.map Prod.fst).Nodup)
    {m : Nat × HostPtr} (h : m ∈ ms) : writeMoves byte mem ms m.1 = byte m.2 := by
  induction ms generalizing mem with
  | nil => cases h
  | cons m' ms ih =>
    obtain ⟨hnot, hnodup⟩ := List.nodup_cons.mp hnodup
    rcases List.mem_cons.mp h with rfl | h
    · exact (writeMoves_of_notMem hnot).trans (Function.update_self ..)
    · exact ih hnodup h

/-- An entry writes the bytes it reaches. -/
theorem mem_moves_fst {e : SGEntry} {a : Nat} : a ∈ e.moves.map Prod.fst ↔ Reaches e a := by
  simp [SGEntry.moves, Reaches, eq_comm]

theorem deliver_eq (byte : HostPtr → UInt8) (mem : Nat → UInt8) (es : List SGEntry) :
    deliver byte mem es = writeMoves byte mem (es.flatMap SGEntry.moves) := by
  induction es generalizing mem with
  | nil => rfl
  | cons e es ih =>
    rw [List.flatMap_cons, deliver, List.foldl_cons, ← deliver, ih]
    exact List.foldl_append.symm

theorem nodup_destinations (h : Deliverable es) : ((es.flatMap SGEntry.moves).map Prod.fst).Nodup := by
  rw [List.map_flatMap, List.nodup_flatMap]
  refine ⟨fun e he => ?_, h.disjoint.imp fun hd a ha ha' =>
    hd a (mem_moves_fst.mp ha) (mem_moves_fst.mp ha')⟩
  rw [SGEntry.moves, List.map_map]
  refine List.nodup_range.map_on fun i hi j hj hij => ?_
  have hlt := h.dst_lt e he
  rw [List.mem_range] at hi hj
  rw [Function.comp_apply, Function.comp_apply, word_of_lt (by omega), word_of_lt (by omega)] at hij
  omega

/-- **Every byte of an entry is delivered.** -/
theorem deliver_of_mem (h : Deliverable es) {e : SGEntry} (he : e ∈ es) {k : Nat} (hk : k < e.size) :
    deliver byte mem es (word (e.dst + k)) = byte (e.src.plus k) := by
  rw [deliver_eq]
  refine writeMoves_of_mem (nodup_destinations h) (m := (word (e.dst + k), e.src.plus k)) ?_
  exact List.mem_flatMap.mpr ⟨e, he, List.mem_map.mpr ⟨k, List.mem_range.mpr hk, rfl⟩⟩

/-- Nothing else is. -/
theorem deliver_of_not_reached {a : Nat} (h : ∀ e ∈ es, ¬ Reaches e a) :
    deliver byte mem es a = mem a := by
  rw [deliver_eq]
  refine writeMoves_of_notMem fun ha => ?_
  rw [List.map_flatMap, List.mem_flatMap] at ha
  obtain ⟨e, he, ha⟩ := ha
  exact h e he (mem_moves_fst.mp ha)

/-! ## Entries that follow one another -/

theorem totalSize_cons (e : SGEntry) (es : List SGEntry) :
    totalSize (e :: es) = e.size + totalSize es := rfl

/-- Each entry starts where the one before it ends. -/
def Chained (es : List SGEntry) : Prop := es.IsChain fun e e' => e'.dst = e.dst + e.size

theorem chained_of_dstContiguous (hlt : ∀ e ∈ es, e.dst + e.size < wordSize)
    (h : dstContiguous es = true) : Chained es := by
  induction es with
  | nil => exact .nil
  | cons e es ih =>
    cases es with
    | nil => exact .singleton _
    | cons e' es =>
      rw [dstContiguous, Bool.and_eq_true] at h
      refine .cons_cons ?_ (ih (fun x hx => hlt x (List.mem_cons_of_mem _ hx)) h.2)
      rw [← word_of_lt (hlt e List.mem_cons_self)]
      exact beq_iff_eq.mp h.1

/-- Where an entry lies relative to the first. -/
def offset (es : List SGEntry) (i : Nat) : Nat := totalSize (es.take i)

theorem dst_of_chained (h : Chained es) {i : Nat} {e : SGEntry} (he : es[i]? = some e) :
    e.dst = (es.headD default).dst + offset es i := by
  induction es generalizing i with
  | nil => cases he
  | cons x es ih =>
    cases i with
    | zero =>
      cases he
      rfl
    | succ i =>
      cases es with
      | nil => cases he
      | cons y es =>
        have hstep : y.dst = x.dst + x.size := (List.isChain_cons_cons.mp h).1
        rw [ih h.tail he, List.headD_cons, List.headD_cons, hstep, offset, offset, List.take_succ_cons,
          totalSize_cons, Nat.add_assoc]

theorem offset_add_le {i : Nat} {e : SGEntry} (he : es[i]? = some e) :
    offset es i + e.size ≤ totalSize es := by
  induction es generalizing i with
  | nil => cases he
  | cons x es ih =>
    cases i with
    | zero =>
      cases he
      rw [offset, List.take_zero, totalSize_cons]
      exact (Nat.zero_add _).trans_le (Nat.le_add_right _ _)
    | succ i =>
      have := ih (i := i) he
      rw [offset, List.take_succ_cons, totalSize_cons, totalSize_cons]
      unfold offset at this
      omega

theorem offset_succ {i : Nat} {e : SGEntry} (he : es[i]? = some e) :
    offset es (i + 1) = offset es i + e.size := by
  rw [offset, List.take_add_one, he, offset, totalSize, List.map_append, List.sum_append]
  rfl

theorem offset_mono (es : List SGEntry) {i j : Nat} (h : i ≤ j) : offset es i ≤ offset es j := by
  obtain ⟨k, rfl⟩ := Nat.exists_eq_add_of_le h
  rw [offset, offset, List.take_add, totalSize, totalSize, List.map_append, List.sum_append]
  exact Nat.le_add_right _ _

/-- Two entries have no offset in common. -/
theorem eq_of_offset {i j k : Nat} {e e' : SGEntry} (he : es[i]? = some e) (he' : es[j]? = some e')
    (hi : offset es i ≤ k ∧ k < offset es i + e.size)
    (hj : offset es j ≤ k ∧ k < offset es j + e'.size) : i = j := by
  by_contra hne
  rcases Nat.lt_or_gt_of_ne hne with h | h
  · have := offset_mono es h
    rw [Nat.succ_eq_add_one, offset_succ he] at this
    omega
  · have := offset_mono es h
    rw [Nat.succ_eq_add_one, offset_succ he'] at this
    omega

/-- Every offset is that of some entry. -/
theorem exists_of_lt_totalSize {k : Nat} (h : k < totalSize es) :
    ∃ i e j, es[i]? = some e ∧ j < e.size ∧ k = offset es i + j := by
  induction es generalizing k with
  | nil => cases h
  | cons x es ih =>
    by_cases hk : k < x.size
    · exact ⟨0, x, k, rfl, hk, (Nat.zero_add k).symm⟩
    · rw [totalSize_cons] at h
      obtain ⟨i, e, j, he, hj, hkj⟩ := ih (k := k - x.size) (by omega)
      refine ⟨i + 1, e, j, he, hj, ?_⟩
      rw [offset, List.take_succ_cons, totalSize_cons]
      unfold offset at hkj
      omega

/-- The entries end below `2^64`, all together. -/
theorem sizeOf_of_chained (hlt : ∀ e ∈ es, e.dst + e.size < wordSize) (h : Chained es) :
    sizeOf es = totalSize es := by
  refine word_of_lt ?_
  rcases Nat.eq_zero_or_pos (totalSize es) with h0 | hpos
  · rw [h0]
    decide
  · obtain ⟨i, e, j, he, hj, hk⟩ := exists_of_lt_totalSize (Nat.sub_lt hpos Nat.one_pos)
    have hdst := dst_of_chained h he
    have := hlt e (List.mem_of_getElem? he)
    omega

/-- The offset the code computes. -/
theorem subWord_dst (hlt : ∀ e ∈ es, e.dst + e.size < wordSize) (h : Chained es) {i : Nat}
    {e : SGEntry} (he : es[i]? = some e) :
    subWord e.dst (es.headD default).dst = offset es i := by
  have hdst := dst_of_chained h he
  have := hlt e (List.mem_of_getElem? he)
  rw [subWord_of_le (by omega) (by omega), hdst, Nat.add_sub_cancel_left]

/-! ## Staged entries -/

/-- Entry `i` lies at its offset in staging buffer `b`. -/
def StagedAt (s : Submitter) (es : List SGEntry) (b i : Nat) : Prop :=
  ∀ e, es[i]? = some e → ∀ k < e.size, s.staging b (offset es i + k) = s.byte (e.src.plus k)

/-- All entries do. -/
def Staged (s : Submitter) (es : List SGEntry) (b : Nat) : Prop := ∀ i, StagedAt s es b i

/-- What is read of the user's memory does not depend on the staging buffers. -/
theorem byte_plus {s t : Submitter} (hu : t.user = s.user) {e : SGEntry}
    (he : ∃ a, e.src = .user a) (k : Nat) : t.byte (e.src.plus k) = s.byte (e.src.plus k) := by
  obtain ⟨a, ha⟩ := he
  rw [ha]
  exact congrFun hu _

@[simp] theorem stage_user (s : Submitter) (b minDst : Nat) (e : SGEntry) :
    (s.stage b minDst e).user = s.user := rfl

/-- The copy of an entry puts it at its offset, and leaves the others where they are. -/
theorem stagedAt_stage {s : Submitter} (hlt : ∀ e ∈ es, e.dst + e.size < wordSize) (h : Chained es)
    (hsrc : ∀ e ∈ es, ∃ a, e.src = .user a) {i : Nat} {e : SGEntry} (he : es[i]? = some e) (b : Nat)
    {j : Nat} (hj : j = i ∨ StagedAt s es b j) :
    StagedAt (s.stage b (es.headD default).dst e) es b j := by
  intro e' he' k hk
  have hbyte : (s.stage b (es.headD default).dst e).byte (e'.src.plus k) = s.byte (e'.src.plus k) :=
    byte_plus (stage_user s b _ e) (hsrc e' (List.mem_of_getElem? he')) k
  rw [hbyte]
  simp only [Submitter.stage, subWord_dst hlt h he, Function.update_self]
  split_ifs with hin
  · obtain rfl := eq_of_offset he he' hin ⟨Nat.le_add_right _ _, Nat.add_lt_add_left hk _⟩
    rw [he] at he'
    cases he'
    rw [Nat.add_sub_cancel_left]
  · rcases hj with rfl | hj
    · rw [he] at he'
      cases he'
      exact absurd ⟨Nat.le_add_right _ _, Nat.add_lt_add_left hk _⟩ hin
    · exact hj e' he' k hk

/-- What the copy of entry `e` would write is what `target` has there. -/
def Supplies (s : Submitter) (target : Nat → UInt8) (e : SGEntry) : Prop :=
  ∀ k < e.size, s.byte (e.src.plus k) = target (word (e.dst + k))

/-- **One copy of the buffer does for all its entries**: it writes what they ask for, and reaches
what they reach. -/
theorem supplies_single {s : Submitter} (hlt : ∀ e ∈ es, e.dst + e.size < wordSize)
    (h : Chained es) {b : Nat} {target : Nat → UInt8} (hst : Staged s es b)
    (htarget : ∀ e ∈ es, Supplies s target e) : Supplies s target (single es (.staging b 0)) := by
  intro k hk
  rw [single, sizeOf_of_chained hlt h] at hk
  obtain ⟨i, e, j, he, hj, rfl⟩ := exists_of_lt_totalSize hk
  have hmem := List.mem_of_getElem? he
  simp only [single, HostPtr.plus, Submitter.byte, Nat.zero_add]
  rw [hst i e he j hj, htarget e hmem j hj, dst_of_chained h he, Nat.add_assoc]

theorem reaches_single {src : HostPtr} (hlt : ∀ e ∈ es, e.dst + e.size < wordSize) (h : Chained es)
    {e : SGEntry} (he : e ∈ es) {a : Nat} (ha : Reaches e a) : Reaches (single es src) a := by
  obtain ⟨j, hj, rfl⟩ := ha
  obtain ⟨i, he⟩ := List.mem_iff_getElem?.mp he
  refine ⟨offset es i + j, ?_, ?_⟩
  · rw [single, sizeOf_of_chained hlt h]
    exact (Nat.add_lt_add_left hj _).trans_le (offset_add_le he)
  · rw [single, dst_of_chained h he, Nat.add_assoc]

/-- Entries that continue one another in the source as well need no staging. -/
theorem supplies_merged {s : Submitter} {target : Nat → UInt8}
    (hlt : ∀ e ∈ es, e.dst + e.size < wordSize) (h : Chained es) (hsrc : srcContiguous es = true)
    (htarget : ∀ e ∈ es, Supplies s target e) :
    Supplies s target (single es (es.headD default).src) := by
  -- the source of an entry, relative to the first
  have hat : ∀ {l : List SGEntry}, srcContiguous l = true → ∀ {i e}, l[i]? = some e →
      ∀ j, e.src.plus j = (l.headD default).src.plus (offset l i + j) := by
    intro l
    induction l with
    | nil => intro _ i e he; cases he
    | cons x l ih =>
      intro hl i e he j
      cases i with
      | zero =>
        cases he
        rw [offset, List.take_zero, totalSize, List.map_nil, List.sum_nil, Nat.zero_add, List.headD_cons]
      | succ i =>
        cases l with
        | nil => cases he
        | cons y l =>
          rw [srcContiguous, Bool.and_eq_true] at hl
          have hy : y.src = x.src.plus x.size := beq_iff_eq.mp hl.1
          rw [ih hl.2 he j, List.headD_cons, List.headD_cons, hy, HostPtr.plus_plus, offset, offset,
            List.take_succ_cons, totalSize_cons, Nat.add_assoc]
  intro k hk
  rw [single, sizeOf_of_chained hlt h] at hk
  obtain ⟨i, e, j, he, hj, rfl⟩ := exists_of_lt_totalSize hk
  have hmem := List.mem_of_getElem? he
  rw [single, ← hat hsrc he j, htarget e hmem j hj, dst_of_chained h he, Nat.add_assoc]

/-! ## The chunks of a pipeline -/

theorem chunkLoop_fst_prefix {α : Type} (entries : List α) (size : Int) (chs : List Nat) :
    (CopyEngineManager.chunkLoop entries size chs).map Prod.fst <+: chs := by
  induction chs with
  | nil => exact List.prefix_rfl
  | cons ch chs ih =>
    rw [CopyEngineManager.chunkLoop]
    split
    · exact List.nil_prefix
    · rw [List.map_cons]
      exact (List.prefix_cons_inj ch).mpr ih

/-- The chunks are numbered in order, and there are no more than `n`. -/
theorem fst_of_getElem?_chunks {α : Type} {n : Nat} {entries : List α} {k : Nat} {c : Nat × List α}
    (h : (CopyEngineManager.chunks n entries)[k]? = some c) : c.1 = k ∧ k < n := by
  have hfst : ((CopyEngineManager.chunks n entries).map Prod.fst)[k]? = some c.1 := by
    rw [List.getElem?_map, h]
    rfl
  have hlen := (List.getElem?_eq_some_iff.mp hfst).1
  have hprefix : (CopyEngineManager.chunks n entries).map Prod.fst <+: List.range n :=
    chunkLoop_fst_prefix ..
  obtain ⟨rest, hrest⟩ := hprefix
  have hrange : (List.range n)[k]? = some c.1 := by
    rw [← hrest, List.getElem?_append_left hlen, hfst]
  obtain ⟨hk, hc⟩ := List.getElem?_eq_some_iff.mp hrange
  rw [List.getElem_range] at hc
  exact ⟨hc.symm, by simpa using hk⟩

/-- **The chunks are the entries cut into pieces.** -/
theorem chunks_flatMap {α : Type} {n : Nat} {entries : List α} (hn : 0 < n) (hs : Sized n entries)
    (hlt : n < entries.length) : (CopyEngineManager.chunks n entries).flatMap Prod.snd = entries := by
  obtain ⟨-, hcover, -⟩ := CopyEngineManager.chunkSize_bounds hn hlt
  have h := (CopyEngineManager.chunkLoop_eq hs hn hlt n 0 (by omega)).1
  rw [← List.range_eq_range', Nat.zero_mul, List.drop_zero, List.take_of_length_le hcover] at h
  have hsnd := congrArg (List.map Prod.snd) h
  rw [List.map_flatMap, List.map_map] at hsnd
  rw [CopyEngineManager.chunks, CopyEngineManager.intChunkSize_eq hs hn hlt]
  simpa [Function.comp_def] using hsnd

/-- A chunk is a piece of the entries. -/
theorem infix_of_mem_chunks {α : Type} {l : List (Nat × List α)} {c : Nat × List α} (h : c ∈ l) :
    c.2 <:+: l.flatMap Prod.snd := by
  obtain ⟨l₁, l₂, rfl⟩ := List.append_of_mem h
  rw [List.flatMap_append, List.flatMap_cons]
  exact ⟨l₁.flatMap Prod.snd, l₂.flatMap Prod.snd, List.append_assoc ..⟩

/-- What a piece of the entries takes in the staging buffer. -/
theorem totalSize_le_of_infix {l : List SGEntry} (h : l <:+: es) : totalSize l ≤ totalSize es := by
  obtain ⟨l₁, l₂, rfl⟩ := h
  simp only [totalSize, List.map_append, List.sum_append]
  omega

end Gfd.Direct
