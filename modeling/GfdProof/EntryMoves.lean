import Mathlib
import GfdProof.BatchPlan

/-! # The bytes an entry moves

An entry asks for its bytes to be moved one by one, each from a byte of host
memory to a byte of destination memory.  Merging contiguous entries does not
change what is moved (`moves_mergeAll`), and where no destination byte occurs
twice the moves may be made in any order (`writeMoves_perm`), which is what the
channels of the copy engine need.
-/
namespace Gfd

/-! ## Moves -/

/-- The moves of an entry: destination byte, source byte. -/
def SGEntry.moves (e : SGEntry) : List (Nat × HostPtr) :=
  (List.range e.size).map fun k => (word (e.dst + k), e.src.plus k)

theorem HostPtr.plus_plus (p : HostPtr) (a b : Nat) : (p.plus a).plus b = p.plus (a + b) := by
  cases p with
  | user addr => rw [plus, plus, plus, word_add_word, Nat.add_assoc]
  | staging buf off => rw [plus, plus, plus, Nat.add_assoc]

/-- An entry and one that continues it move what one entry of both sizes does. -/
theorem SGEntry.moves_append {e e' : SGEntry} (hd : e.dContig e' = true) (hs : e.sContig e' = true)
    (size : Nat) : e.moves ++ { e' with size := size }.moves = { e with size := e.size + size }.moves := by
  have hdst : e'.dst = word (e.dst + e.size) := beq_iff_eq.mp hd
  have hsrc : e'.src = e.src.plus e.size := beq_iff_eq.mp hs
  simp only [moves, List.range_add, List.map_append, List.map_map, List.append_cancel_left_eq]
  refine List.map_congr_left fun k _ => ?_
  rw [Function.comp_apply, hdst, hsrc, word_add_word, HostPtr.plus_plus, Nat.add_assoc]

theorem moves_mergeAll {es : List SGEntry} (h : contiguous es = true) (hne : es ≠ []) :
    (mergeAll es).moves = es.flatMap SGEntry.moves := by
  induction es with
  | nil => exact absurd rfl hne
  | cons e es ih =>
    cases es with
    | nil => simp [mergeAll, totalSize]
    | cons e' es =>
      rw [contiguous, Bool.and_eq_true, Bool.and_eq_true] at h
      obtain ⟨⟨hd, hs⟩, hrest⟩ := h
      rw [List.flatMap_cons, ← ih hrest (List.cons_ne_nil _ _), mergeAll, mergeAll,
        SGEntry.moves_append hd hs]
      rfl

/-- The submissions for a group move the bytes of its descriptors. -/
theorem moves_groupEntries (ds : List Descriptor) :
    (groupEntries ds).flatMap (fun e => e.1.moves) = ds.flatMap fun d => d.entry.moves := by
  have heach : (ds.map fun d => (d.entry, [d])).flatMap (fun e => e.1.moves) =
      ds.flatMap fun d => d.entry.moves := by rw [List.flatMap_map]
  unfold groupEntries
  split
  · rw [List.flatMap_singleton, List.flatMap_singleton]
  · split
    · rename_i hc
      rw [List.flatMap_singleton]
      by_cases hnil : ds = []
      · subst hnil
        rfl
      · rw [moves_mergeAll hc fun h => hnil (List.map_eq_nil_iff.mp h), List.flatMap_map]
    · exact heach

/-- The submissions of `process_batch_tiled` move the bytes of its groups' descriptors. -/
theorem moves_tiledEntries (groups : List (List Descriptor)) :
    (tiledEntries groups).flatten.flatMap (fun e => e.1.moves) =
      groups.flatten.flatMap fun d => d.entry.moves := by
  unfold tiledEntries
  dsimp only
  split
  · rename_i hc
    have hne : groups.flatten.map Descriptor.entry ≠ [] := fun h => by
      rw [List.map_eq_nil_iff.mp h] at hc
      exact absurd hc.1 (by decide)
    rw [List.flatten_singleton, List.flatMap_singleton, moves_mergeAll hc.2 hne, List.flatMap_map]
  · rw [List.flatten_eq_flatMap, List.flatMap_map, List.flatMap_assoc, List.flatten_eq_flatMap,
      List.flatMap_assoc]
    exact List.flatMap_congr fun ds _ => moves_groupEntries ds

/-! ## Memory -/

/-- Make the moves, one after the other. -/
def writeMoves (byte : HostPtr → UInt8) (mem : Nat → UInt8) (ms : List (Nat × HostPtr)) :
    Nat → UInt8 :=
  ms.foldl (fun m p => Function.update m p.1 (byte p.2)) mem

/-- Moves to different bytes may be made in any order. -/
theorem writeMoves_perm (byte : HostPtr → UInt8) (mem : Nat → UInt8) {ms ms' : List (Nat × HostPtr)}
    (h : ms.Perm ms') (hnodup : (ms.map Prod.fst).Nodup) :
    writeMoves byte mem ms = writeMoves byte mem ms' := by
  refine h.foldl_eq' (fun p hp q hq m => ?_) mem
  by_cases hpq : p.1 = q.1
  · rw [List.inj_on_of_nodup_map hnodup hp hq hpq]
  · exact Function.update_comm hpq _ _ _

/-- Copy the bytes of one descriptor. -/
def Descriptor.copy (byte : HostPtr → UInt8) (mem : Nat → UInt8) (d : Descriptor) : Nat → UInt8 :=
  writeMoves byte mem d.entry.moves

/-- The moves of a batch are its descriptors' copies. -/
theorem writeMoves_flatMap (byte : HostPtr → UInt8) (mem : Nat → UInt8) (batch : List Descriptor) :
    writeMoves byte mem (batch.flatMap fun d => d.entry.moves) =
      batch.foldl (Descriptor.copy byte) mem := by
  induction batch generalizing mem with
  | nil => rfl
  | cons d ds ih =>
    rw [List.flatMap_cons, List.foldl_cons, ← ih]
    exact List.foldl_append

/-- A destination byte of a descriptor. -/
def Descriptor.Writes (d : Descriptor) (a : Nat) : Prop := ∃ k < d.size, a = word (d.dstAddr + k)

/-- No destination byte occurs twice among the moves of descriptors with disjoint destinations. -/
theorem nodup_moves {batch : List Descriptor} (hsize : ∀ d ∈ batch, d.size < 2 ^ 32)
    (hdisj : batch.Pairwise fun d d' => ∀ a, d.Writes a → ¬ d'.Writes a) :
    ((batch.flatMap fun d => d.entry.moves).map Prod.fst).Nodup := by
  have hmem : ∀ (d : Descriptor) a, a ∈ d.entry.moves.map Prod.fst ↔ d.Writes a := by
    intro d a
    simp [Descriptor.entry, SGEntry.moves, Descriptor.Writes, eq_comm]
  rw [List.map_flatMap, List.nodup_flatMap]
  refine ⟨fun d hd => ?_, hdisj.imp fun h a ha ha' => h a ((hmem _ a).mp ha) ((hmem _ a).mp ha')⟩
  rw [SGEntry.moves, List.map_map]
  refine List.nodup_range.map_on fun i hi j hj hij => ?_
  have hd' : d.entry.size < 2 ^ 32 := hsize d hd
  have hi := List.mem_range.mp hi
  have hj := List.mem_range.mp hj
  change word (d.entry.dst + i) = word (d.entry.dst + j) at hij
  unfold word wordSize at hij
  omega

end Gfd
