import Mathlib
import GfdProof.SessionConfig

/-! # Where the token of a chunk lies

Six places compute it: `write_chunk` and `submit_tile`, which store descriptors;
`linear_to_sg_entries`, which fills in scatter-gather entries; and the views the
compute warps get, built by the tile loops or by `TileContext::get_chunk`.  They
mix 32-bit and 64-bit arithmetic, and the views take the index of a token, and
`get_chunk` that of a chunk, as an `int`.

As long as the tile ends below `2^32` all six agree on every token whose index,
and on every chunk whose id, an `int` can hold (`agree_of_int`).
-/
namespace Gfd

/-! ## Machine integers -/

/-- A `uint32_t` -/
def word32 (n : Nat) : Nat := n % 2 ^ 32

/-- An unsigned word passed where an `int` is expected. -/
def toInt (n : Nat) : Int := (n : Int).bmod (2 ^ 32)

/-- `(uint64_t)i`, for an `int`. -/
def ofInt64 (i : Int) : Nat := (i % 2 ^ 64).toNat

/-- `(uint32_t)i`, for an `int`. -/
def ofInt32 (i : Int) : Nat := (i % 2 ^ 32).toNat

theorem word32_of_lt {n : Nat} (h : n < 2 ^ 32) : word32 n = n := Nat.mod_eq_of_lt h

theorem word32_lt (n : Nat) : word32 n < 2 ^ 32 := Nat.mod_lt _ (by decide)

theorem toInt_of_lt {n : Nat} (h : n < 2 ^ 31) : toInt n = n := by
  unfold toInt
  rw [Int.bmod_eq_of_le] <;> omega

theorem ofInt64_natCast {n : Nat} (h : n < 2 ^ 64) : ofInt64 n = n := by
  unfold ofInt64
  omega

/-- Nothing is lost in the lower half. -/
theorem ofInt32_toInt (n : Nat) : ofInt32 (toInt n) = word32 n := by
  unfold ofInt32 toInt word32
  rw [show (2 : Int) ^ 32 = ((2 ^ 32 : Nat) : Int) from rfl, Int.bmod_emod]
  omega

/-! ## The loop of a warp -/

/-- `for (uint32_t i = lane_id; i < n; i += 32)`, from `i` on and for `fuel` iterations at most. -/
def laneIndices (n : Nat) : Nat → Nat → List Nat
  | 0, _ => []
  | fuel + 1, i => if i < n then i :: laneIndices n fuel (word32 (i + 32)) else []

/-- Some lane gets to index `i`. -/
def Visited (n i : Nat) : Prop := ∃ lane < 32, ∃ fuel, i ∈ laneIndices n fuel lane

theorem lt_of_mem_laneIndices {n i : Nat} : ∀ {fuel j : Nat}, i ∈ laneIndices n fuel j → i < n
  | 0, _, h => absurd h List.not_mem_nil
  | fuel + 1, j, h => by
    rw [laneIndices] at h
    split at h
    · rcases List.mem_cons.mp h with rfl | h
      · assumption
      · exact lt_of_mem_laneIndices h
    · cases h

/-- A lane gets to every 32nd index after its own. -/
theorem mem_laneIndices {n : Nat} (hn : n ≤ 2 ^ 32) : ∀ (k j : Nat), j + 32 * k < n →
    j + 32 * k ∈ laneIndices n (k + 1) j
  | 0, j, h => by
    rw [Nat.mul_zero, Nat.add_zero] at h ⊢
    rw [laneIndices, if_pos h]
    exact List.mem_cons_self
  | k + 1, j, h => by
    have hword : word32 (j + 32) = j + 32 := word32_of_lt (by omega)
    rw [laneIndices, if_pos (by omega), hword, show j + 32 * (k + 1) = j + 32 + 32 * k by omega]
    exact List.mem_cons_of_mem _ (mem_laneIndices hn k (j + 32) (by omega))

/-- Together the lanes get to every index below the bound, and to no other. -/
theorem visited_iff {n i : Nat} (hn : n ≤ 2 ^ 32) : Visited n i ↔ i < n := by
  constructor
  · rintro ⟨lane, -, fuel, h⟩
    exact lt_of_mem_laneIndices h
  · intro h
    have hmem := mem_laneIndices hn (i / 32) (i % 32) (by omega)
    rw [Nat.mod_add_div] at hmem
    exact ⟨i % 32, Nat.mod_lt _ (by decide), i / 32 + 1, hmem⟩

/-! ## The six places -/

/-- A tile of `T` tokens cut into chunks of `C`, and where the tokens lie. -/
structure TileLayout where
  T : Nat
  C : Nat
  tileId : Nat
  tokenSize : Nat
  cpuBase : Nat
  gpuBase : Nat
  T_pos : 0 < T
  T_lt : T < 2 ^ 32
  C_pos : 0 < C
  dvd : C ∣ T
  /-- The tile ends where a 32-bit token index can still get to. -/
  end_le : (tileId + 1) * T ≤ 2 ^ 32
  tokenSize_lt : tokenSize < 2 ^ 32
  cpuBase_lt : cpuBase < wordSize
  gpuBase_lt : gpuBase < wordSize

/-- A store of the fields of the descriptor of a slot. -/
abbrev Store := Nat × (Field → Nat)

/-- `DeviceSGEntry`, without its tag. -/
structure DeviceSGEntry where
  srcAddr : Nat
  dstAddr : Nat
  size : Nat
  deriving DecidableEq, Repr

/-- `ChunkView`, without the lane of the thread that has it. -/
structure ChunkView where
  basePtr : Nat
  tokenSize : Nat
  size : Nat
  tileId : Nat
  chunkId : Nat
  globalTokenOffset : Nat
  deriving DecidableEq, Repr

/-- The address `ChunkView::data` returns. -/
def ChunkView.data (v : ChunkView) (localTokenIdx : Int) : Nat :=
  word (v.basePtr + ofInt64 localTokenIdx * v.tokenSize)

/-- `ChunkView::global_idx` -/
def ChunkView.globalIdx (v : ChunkView) (localTokenIdx : Int) : Int :=
  toInt (v.globalTokenOffset + ofInt32 localTokenIdx)

structure TileContext where
  tileId : Nat
  tokensPerTile : Nat
  chunksPerTile : Nat
  tokensPerChunk : Nat
  tileBasePtr : Nat
  tokenSize : Nat
  deriving DecidableEq, Repr

/-- `TileContext::get_chunk` -/
def TileContext.getChunk (t : TileContext) (chunkId : Int) : ChunkView where
  basePtr := word (t.tileBasePtr + word (word (ofInt64 chunkId * t.tokensPerChunk) * t.tokenSize))
  tokenSize := t.tokenSize
  size := t.tokensPerChunk
  tileId := t.tileId
  chunkId := ofInt32 chunkId
  globalTokenOffset := word32 (t.tileId * t.tokensPerTile + ofInt32 chunkId * t.tokensPerChunk)

namespace TileLayout

variable (p : TileLayout)

/-- `K` -/
def K : Nat := p.T / p.C

/-- The fields `write_chunk` stores for entry `i`. -/
def chunkFields (chunkId i : Nat) : Field → Nat :=
  let localToken := word32 (chunkId * p.C + i)
  let globalIdx := word32 (p.tileId * p.T + localToken)
  fun
  | .srcAddr => word (p.cpuBase + globalIdx * p.tokenSize)
  | .dstAddr => word (p.gpuBase + globalIdx * p.tokenSize)
  | .size => p.tokenSize
  | .userData => word (p.tileId <<< 32) ||| globalIdx
  | .flags => (if i = p.C - 1 then flagLastInTile else flagNone) |||
      if i = p.C - 1 ∧ chunkId = p.K - 1 then flagLastChunkInTile else flagNone

/-- What `write_chunk` stores. -/
def writeChunk (slotBase chunkId : Nat) : Set Store :=
  { w | ∃ i, Visited p.C i ∧ w = (word (slotBase + i), p.chunkFields chunkId i) }

/-- The fields `submit_tile` stores for entry `i`. -/
def tileFields (i : Nat) : Field → Nat :=
  let globalIdx := word32 (p.tileId * p.T + i)
  fun
  | .srcAddr => word (p.cpuBase + globalIdx * p.tokenSize)
  | .dstAddr => word (p.gpuBase + globalIdx * p.tokenSize)
  | .size => p.tokenSize
  | .userData => word (p.tileId <<< 32) ||| globalIdx
  | .flags => (if i % p.C = p.C - 1 then flagLastInTile else flagNone) |||
      if i = p.T - 1 then flagLastChunkInTile else flagNone

/-- What `submit_tile` stores before it commits. -/
def submitTile (slotBase : Nat) : Set Store :=
  { w | ∃ i, Visited p.T i ∧ w = (word (slotBase + i), p.tileFields i) }

/-- `linear_to_sg_entries`, over the tile's addresses. -/
def linearToSgEntries (startIdx count : Nat) : List DeviceSGEntry :=
  (List.range count).map fun i =>
    let globalIdx := word32 (startIdx + i)
    ⟨word (p.cpuBase + globalIdx * p.tokenSize), word (p.gpuBase + globalIdx * p.tokenSize),
      p.tokenSize⟩

/-- The view a compute warp of either tile loop builds. -/
def loopView (myChunk : Int) : ChunkView where
  basePtr := word (p.gpuBase +
    word32 (p.tileId * p.T + ofInt32 myChunk * p.C) * p.tokenSize)
  tokenSize := p.tokenSize
  size := p.C
  tileId := p.tileId
  chunkId := ofInt32 myChunk
  globalTokenOffset := word32 (p.tileId * p.T + ofInt32 myChunk * p.C)

/-- The context whose `tile_base_ptr` is at the tile's first token. -/
def context : TileContext where
  tileId := p.tileId
  tokensPerTile := p.T
  chunksPerTile := p.K
  tokensPerChunk := p.C
  tileBasePtr := word (p.gpuBase + p.tileId * p.T * p.tokenSize)
  tokenSize := p.tokenSize

/-! ## Agreement -/

/-- The view shows, for token `i`, the address and the index its descriptor has. -/
def Shows (v : ChunkView) (fields : Field → Nat) (i : Nat) : Prop :=
  v.data (toInt i) = fields .dstAddr ∧ ofInt32 (v.globalIdx (toInt i)) = fields .userData % 2 ^ 32

/-- The six places agree, on indices of tokens and ids of chunks below `limit` where these are
passed as an `int`. -/
structure Agree (limit slotBase : Nat) : Prop where
  stores : p.submitTile slotBase = ⋃ chunk ∈ Set.Iio p.K,
    p.writeChunk (word (slotBase + chunk * p.C)) chunk
  entries : ∀ chunk < p.K,
    p.linearToSgEntries (p.tileId * p.T + chunk * p.C) p.C = (List.range p.C).map fun i =>
      let v := p.chunkFields chunk i
      ⟨v .srcAddr, v .dstAddr, v .size⟩
  views : ∀ chunk < p.K, ∀ i < p.C, i < limit →
    Shows (p.loopView (toInt chunk)) (p.chunkFields chunk i) i
  contexts : ∀ chunk < p.K, ∀ i < p.C, chunk < limit → i < limit →
    Shows (p.context.getChunk (toInt chunk)) (p.chunkFields chunk i) i

variable {p}

/-- A token of the tile, by its chunk. -/
theorem lt_T {chunk i : Nat} (hc : chunk < p.K) (hi : i < p.C) : chunk * p.C + i < p.T := by
  have hmul : p.K * p.C = p.T := Nat.div_mul_cancel p.dvd
  have hle : (chunk + 1) * p.C ≤ p.K * p.C := Nat.mul_le_mul_right _ hc
  rw [hmul, Nat.succ_mul] at hle
  omega

/-- The 32-bit index of a token of the tile does not wrap. -/
theorem index_lt {i : Nat} (hi : i < p.T) : p.tileId * p.T + i < 2 ^ 32 := by
  have := p.end_le
  rw [Nat.succ_mul] at this
  omega

theorem word32_local {chunk i : Nat} (hc : chunk < p.K) (hi : i < p.C) :
    word32 (chunk * p.C + i) = chunk * p.C + i :=
  word32_of_lt (Nat.lt_trans (lt_T hc hi) p.T_lt)

/-- The two ways to mark the last entry of a chunk, and of the tile. -/
theorem last_iff {chunk i : Nat} (hc : chunk < p.K) (hi : i < p.C) :
    ((chunk * p.C + i) % p.C = p.C - 1 ↔ i = p.C - 1) ∧
      (chunk * p.C + i = p.T - 1 ↔ i = p.C - 1 ∧ chunk = p.K - 1) := by
  have hmul : p.K * p.C = p.T := Nat.div_mul_cancel p.dvd
  refine ⟨by rw [Nat.mul_comm, Nat.mul_add_mod, Nat.mod_eq_of_lt hi], ?_⟩
  have hlt := lt_T hc hi
  constructor
  · intro h
    have hpos := p.T_pos
    have hC := p.C_pos
    -- one more chunk would not fit
    have hlast : chunk = p.K - 1 := by
      by_contra hne
      have hle : (chunk + 2) * p.C ≤ p.K * p.C := Nat.mul_le_mul_right _ (by omega)
      rw [hmul, Nat.add_mul] at hle
      omega
    have hsucc : (chunk + 1) * p.C = p.T := by rw [← hmul]; congr 1; omega
    rw [Nat.succ_mul] at hsucc
    omega
  · rintro ⟨rfl, hlast⟩
    have hC := p.C_pos
    have hsucc : (chunk + 1) * p.C = p.T := by rw [← hmul]; congr 1; omega
    rw [Nat.succ_mul] at hsucc
    omega

/-- **`submit_tile` writes what `write_chunk` writes**, entry by entry. -/
theorem tileFields_eq {chunk i : Nat} (hc : chunk < p.K) (hi : i < p.C) :
    p.tileFields (chunk * p.C + i) = p.chunkFields chunk i := by
  obtain ⟨h1, h2⟩ := last_iff hc hi
  funext f
  cases f with
  | flags => simp only [tileFields, chunkFields, h1, h2]
  | _ => simp only [tileFields, chunkFields, word32_local hc hi]

theorem stores_eq (slotBase : Nat) : p.submitTile slotBase = ⋃ chunk ∈ Set.Iio p.K,
    p.writeChunk (word (slotBase + chunk * p.C)) chunk := by
  have hT : p.T ≤ 2 ^ 32 := Nat.le_of_lt p.T_lt
  have hC : p.C ≤ 2 ^ 32 := Nat.le_trans (Nat.le_of_dvd p.T_pos p.dvd) hT
  have hslot : ∀ chunk i, word (word (slotBase + chunk * p.C) + i) =
      word (slotBase + (chunk * p.C + i)) := fun chunk i => by
    unfold word wordSize
    rw [Nat.mod_add_mod, Nat.add_assoc]
  ext w
  simp only [submitTile, writeChunk, Set.mem_ofPred_eq, Set.mem_iUnion, Set.mem_Iio, visited_iff hT,
    visited_iff hC, exists_prop, hslot]
  constructor
  · rintro ⟨i, hi, rfl⟩
    have hc : i / p.C < p.K := Nat.div_lt_div_of_lt_of_dvd p.dvd hi
    have hr : i % p.C < p.C := Nat.mod_lt _ p.C_pos
    have hsplit : i / p.C * p.C + i % p.C = i := Nat.div_add_mod' i p.C
    refine ⟨i / p.C, hc, i % p.C, hr, ?_⟩
    rw [hsplit, ← tileFields_eq hc hr, hsplit]
  · rintro ⟨chunk, hc, i, hi, rfl⟩
    exact ⟨chunk * p.C + i, lt_T hc hi, by rw [tileFields_eq hc hi]⟩

theorem entries_eq {chunk : Nat} (hc : chunk < p.K) :
    p.linearToSgEntries (p.tileId * p.T + chunk * p.C) p.C = (List.range p.C).map fun i =>
      let v := p.chunkFields chunk i
      ⟨v .srcAddr, v .dstAddr, v .size⟩ := by
  refine List.map_congr_left fun i hi => ?_
  simp only [chunkFields, word32_local hc (List.mem_range.mp hi), Nat.add_assoc]

/-- The low half of `user_data` is the index of the token. -/
theorem userData_mod {chunk i : Nat} :
    p.chunkFields chunk i .userData % 2 ^ 32 = word32 (p.tileId * p.T + word32 (chunk * p.C + i)) := by
  simp only [chunkFields]
  generalize hg : word32 (p.tileId * p.T + word32 (chunk * p.C + i)) = g
  have hlt : g < 2 ^ 32 := hg ▸ word32_lt _
  have hshift : word (p.tileId <<< 32) = (p.tileId % 2 ^ 32) <<< 32 := by
    unfold word wordSize
    rw [Nat.shiftLeft_eq, Nat.shiftLeft_eq]
    omega
  rw [hshift, ← Nat.shiftLeft_add_eq_or_of_lt hlt, Nat.shiftLeft_eq]
  omega

/-- A view that starts at the address and the index of the chunk's first token shows every token. -/
theorem shows_of_base {v : ChunkView} {chunk i : Nat} (hc : chunk < p.K) (hi : i < p.C)
    (hint : i < 2 ^ 31)
    (hbase : v.basePtr = word (p.gpuBase + (p.tileId * p.T + chunk * p.C) * p.tokenSize))
    (hsize : v.tokenSize = p.tokenSize)
    (hoffset : v.globalTokenOffset = p.tileId * p.T + chunk * p.C) :
    Shows v (p.chunkFields chunk i) i := by
  have hlt := index_lt (lt_T hc hi)
  constructor
  · rw [ChunkView.data, toInt_of_lt hint, ofInt64_natCast (by omega), hbase, hsize]
    simp only [chunkFields, word32_local hc hi, word32_of_lt hlt]
    unfold word
    rw [Nat.mod_add_mod, Nat.add_assoc, ← Nat.add_mul, Nat.add_assoc (p.tileId * p.T)]
  · rw [userData_mod, word32_local hc hi, ChunkView.globalIdx, ofInt32_toInt, ofInt32_toInt, hoffset,
      word32_of_lt (n := i) (by omega), Nat.add_assoc]

/-- **The six places agree** wherever an `int` holds the index of the token and the id of the
chunk. -/
theorem agree_of_int (p : TileLayout) (slotBase : Nat) : p.Agree (2 ^ 31) slotBase where
  stores := stores_eq slotBase
  entries _ hc := entries_eq hc
  views chunk hc i hi hint := by
    have hlt := lt_T hc hi
    have hidx := index_lt hlt
    have hchunk : ofInt32 (toInt chunk) = chunk := by
      rw [ofInt32_toInt]
      refine word32_of_lt (Nat.lt_of_le_of_lt ?_ (Nat.lt_trans hlt p.T_lt))
      exact Nat.le_trans (Nat.le_mul_of_pos_right _ p.C_pos) (Nat.le_add_right _ _)
    have hfirst : word32 (p.tileId * p.T + chunk * p.C) = p.tileId * p.T + chunk * p.C :=
      word32_of_lt (by omega)
    refine shows_of_base hc hi hint ?_ rfl ?_
    · simp only [loopView, hchunk, hfirst]
    · simp only [loopView, hchunk, hfirst]
  contexts chunk hc i hi hcint hint := by
    have hlt := lt_T hc hi
    have hidx := index_lt hlt
    have hfirst : word32 (p.tileId * p.T + chunk * p.C) = p.tileId * p.T + chunk * p.C :=
      word32_of_lt (by omega)
    refine shows_of_base hc hi hint ?_ rfl ?_
    · simp only [TileContext.getChunk, context, toInt_of_lt hcint, ofInt64_natCast (n := chunk) (by omega)]
      unfold word
      rw [Nat.mod_add_mod, Nat.mod_mul_mod, Nat.add_mod_mod, Nat.add_assoc, ← Nat.add_mul]
    · simp only [TileContext.getChunk, context, ofInt32_toInt,
        word32_of_lt (n := chunk) (by omega), hfirst]

/-- A tile of a session. -/
def ofConfig (c : WarpSpecConfig) (h : c.Accepted) {tile : Nat} (ht : tile < c.totalTiles) :
    TileLayout where
  T := c.tokensPerTile
  C := c.effectiveTokensPerChunk
  tileId := tile
  tokenSize := c.tokenSize
  cpuBase := c.cpuSrc
  gpuBase := c.gpuDst
  T_pos := h.pos.2.2.1
  T_lt := c.tokensPerTile_lt
  C_pos := h.chunk_pos
  dvd := Nat.dvd_of_mod_eq_zero (not_not.mp h.2.2)
  end_le := by
    have htile : (tile + 1) * c.tokensPerTile ≤ c.totalTiles * c.tokensPerTile :=
      Nat.mul_le_mul_right _ ht
    have htotal : c.totalTiles * c.tokensPerTile ≤ c.totalTokens := Nat.div_mul_le_self _ _
    have hlt := c.totalTokens_lt
    omega
  tokenSize_lt := c.tokenSize_lt
  cpuBase_lt := c.cpuSrc_lt
  gpuBase_lt := c.gpuDst_lt

/-- The descriptors the session's kernel writes are these. -/
theorem chunkFields_ofConfig {c : WarpSpecConfig} (h : c.Accepted) {tile : Nat}
    (ht : tile < c.totalTiles) : (ofConfig c h ht).chunkFields = c.descriptor tile := rfl

/-- One chunk of `2^31 + 1` one-byte tokens. -/
private def huge : TileLayout where
  T := 2 ^ 31 + 1
  C := 2 ^ 31 + 1
  tileId := 0
  tokenSize := 1
  cpuBase := 2 ^ 40
  gpuBase := 2 ^ 41
  T_pos := by decide
  T_lt := by decide
  C_pos := by decide
  dvd := Nat.dvd_refl _
  end_le := by decide
  tokenSize_lt := TileLoop.one_lt_word32
  cpuBase_lt := WarpSpecConfig.two_pow_40_lt
  gpuBase_lt := WarpSpecConfig.two_pow_41_lt

/-- Token `2^31` of it is shown `2^32` bytes below where it lies. -/
theorem exists_disagree : ∃ (p : TileLayout) (slotBase : Nat), ¬ p.Agree (2 ^ 32) slotBase := by
  refine ⟨huge, 0, fun h => ?_⟩
  have := (h.views 0 (by decide) (2 ^ 31) (by decide) (by decide)).1
  exact absurd this (by decide)

end TileLayout
end Gfd
