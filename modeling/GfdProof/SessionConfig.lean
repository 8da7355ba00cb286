import Mathlib
import GfdProof.TilePipeline

/-! # The configurations of a tiled session

`WarpSpecConfig` and what the constructor of `WarpSpecSession` checks of it.  A
session divides its tokens into tiles and its tiles into chunks, rounding down
both times, and the kernel writes one descriptor for every token of every chunk.

The constructor checks that chunks divide tiles.  It does not check that tiles
divide the tokens, that the poller has a counter for every tile, or that a chunk
fits in the ring, so a session it accepts may leave tokens behind or wait for
ever.  `serves_iff` says which sessions do neither, in terms of the
configuration alone.
-/
namespace Gfd

/-- `WarpSpecConfig`: sizes are 32-bit words, pointers 64-bit ones. -/
structure WarpSpecConfig where
  totalTokens : Nat
  tokenSize : Nat
  cpuSrc : Nat
  gpuDst : Nat
  tokensPerTile : Nat := 128
  tokensPerChunk : Nat := 0
  doubleBuffer : Bool := false
  perTileMode : Bool := false
  totalTokens_lt : totalTokens < 2 ^ 32
  tokenSize_lt : tokenSize < 2 ^ 32
  cpuSrc_lt : cpuSrc < wordSize
  gpuDst_lt : gpuDst < wordSize
  tokensPerTile_lt : tokensPerTile < 2 ^ 32
  tokensPerChunk_lt : tokensPerChunk < 2 ^ 32

/-- `while (p * 2 <= auto_chunk) p *= 2;`, on 32-bit words and for `fuel` iterations at most. -/
def roundDown (auto : Nat) : Nat → Nat → Nat
  | 0, p => p
  | fuel + 1, p => if p * 2 % 2 ^ 32 ≤ auto then roundDown auto fuel (p * 2 % 2 ^ 32) else p

/-- The loop ends within its fuel, at the largest power of two in range. -/
theorem roundDown_spec {auto : Nat} (hauto : auto < 2 ^ 31) :
    ∀ (fuel k : Nat), 2 ^ k ≤ auto → auto < 2 ^ (k + fuel) →
      ∃ n, roundDown auto fuel (2 ^ k) = 2 ^ n ∧ 2 ^ n ≤ auto ∧ auto < 2 ^ (n + 1)
  | 0, k, h1, h2 => absurd h2 (Nat.not_lt.mpr h1)
  | fuel + 1, k, h1, h2 => by
    have hword : 2 ^ k * 2 % 2 ^ 32 = 2 ^ (k + 1) := by
      rw [← Nat.pow_succ]
      exact Nat.mod_eq_of_lt (by rw [Nat.pow_succ]; omega)
    rw [roundDown, hword]
    by_cases h : 2 ^ (k + 1) ≤ auto
    · rw [if_pos h]
      exact roundDown_spec hauto fuel (k + 1) h (by rwa [Nat.add_right_comm])
    · rw [if_neg h]
      exact ⟨k, rfl, h1, Nat.not_le.mp h⟩

namespace WarpSpecConfig

/-! ## Tiles and chunks -/

/-- The number of bytes a chunk aims at. -/
def targetChunkBytes (c : WarpSpecConfig) : Nat :=
  if c.tokenSize ≤ 512 then 64 * 1024
  else if 65536 ≤ c.tokenSize then 256 * 1024
  else 128 * 1024

/-- `auto_chunk` after its three clamps. -/
def autoChunk (c : WarpSpecConfig) : Nat :=
  let auto := c.targetChunkBytes / c.tokenSize % 2 ^ 32
  let auto := if auto < 4 then 4 else auto
  let auto := if c.tokensPerTile < auto then c.tokensPerTile else auto
  let minChunk := c.tokensPerTile / 8
  if 0 < minChunk ∧ auto < minChunk then minChunk else auto

def effectiveTokensPerChunk (c : WarpSpecConfig) : Nat :=
  if c.perTileMode then c.tokensPerTile
  else if 0 < c.tokensPerChunk then c.tokensPerChunk
  else roundDown c.autoChunk 32 1

def totalTiles (c : WarpSpecConfig) : Nat := c.totalTokens / c.tokensPerTile

def chunksPerTile (c : WarpSpecConfig) : Nat := c.tokensPerTile / c.effectiveTokensPerChunk

/-- Threads of a block: a transfer warp and a compute warp for every chunk, or two of them. -/
def blockSize (c : WarpSpecConfig) : Nat :=
  if c.doubleBuffer then (1 + 2 * c.chunksPerTile) * 32 else (1 + c.chunksPerTile) * 32

/-- The checks of the constructor. -/
def Accepted (c : WarpSpecConfig) : Prop :=
  ¬ (c.totalTokens = 0 ∨ c.tokenSize = 0) ∧
    ¬ (c.tokensPerTile = 0 ∨ c.effectiveTokensPerChunk = 0) ∧
    ¬ c.tokensPerTile % c.effectiveTokensPerChunk ≠ 0

instance (c : WarpSpecConfig) : Decidable c.Accepted := by unfold Accepted; infer_instance

variable {c : WarpSpecConfig}

theorem Accepted.pos (h : c.Accepted) : 0 < c.totalTokens ∧ 0 < c.tokenSize ∧
    0 < c.tokensPerTile ∧ 0 < c.effectiveTokensPerChunk := by
  obtain ⟨h1, h2, -⟩ := h
  omega

theorem Accepted.chunk_pos (h : c.Accepted) : 0 < c.effectiveTokensPerChunk := h.pos.2.2.2

/-- Chunks divide tiles. -/
theorem Accepted.chunks (h : c.Accepted) :
    c.chunksPerTile * c.effectiveTokensPerChunk = c.tokensPerTile :=
  Nat.div_mul_cancel (Nat.dvd_of_mod_eq_zero (Decidable.not_not.mp h.2.2))

theorem Accepted.chunksPerTile_pos (h : c.Accepted) : 0 < c.chunksPerTile := by
  have hmul := h.chunks
  have hpos := h.pos
  rcases Nat.eq_zero_or_pos c.chunksPerTile with h0 | h0
  · rw [h0, Nat.zero_mul] at hmul
    omega
  · exact h0

/-! ## The descriptors of a launch -/

/-- The fields `write_chunk` stores for descriptor `i` of a chunk. -/
def descriptor (c : WarpSpecConfig) (tile chunk i : Nat) : Field → Nat :=
  let localToken := (chunk * c.effectiveTokensPerChunk + i) % 2 ^ 32
  let globalIdx := (tile * c.tokensPerTile + localToken) % 2 ^ 32
  let last := i = c.effectiveTokensPerChunk - 1
  fun
  | .srcAddr => word (c.cpuSrc + globalIdx * c.tokenSize)
  | .dstAddr => word (c.gpuDst + globalIdx * c.tokenSize)
  | .size => c.tokenSize
  | .userData => word (tile <<< 32) ||| globalIdx
  | .flags => (if last then flagLastInTile else flagNone) |||
      if last ∧ chunk = c.tokensPerTile / c.effectiveTokensPerChunk - 1 then flagLastChunkInTile
      else flagNone

/-- What is written for all chunks of all tiles. -/
def written (c : WarpSpecConfig) : List (Field → Nat) :=
  (List.range c.totalTiles).flatMap fun tile =>
    (List.range c.chunksPerTile).flatMap fun chunk =>
      (List.range c.effectiveTokensPerChunk).map (c.descriptor tile chunk)

/-- The transfer a descriptor asks for: source, destination, size. -/
def transfer (v : Field → Nat) : Nat × Nat × Nat := (v .srcAddr, v .dstAddr, v .size)

/-- The transfer of a token. -/
def token (c : WarpSpecConfig) (i : Nat) : Nat × Nat × Nat :=
  (word (c.cpuSrc + i * c.tokenSize), word (c.gpuDst + i * c.tokenSize), c.tokenSize)

/-- What a session owes a configuration. -/
structure Serves (c : WarpSpecConfig) : Prop where
  /-- Every token is transferred once, and nothing else is. -/
  tokens : (c.written.map transfer).Perm ((List.range c.totalTokens).map c.token)
  /-- The poller has a counter for the tile of every descriptor. -/
  counted : ∀ v ∈ c.written, ∀ slot, (Descriptor.ofFields slot v).group < maxTiles
  /-- The backpressure test passes once everything before the chunk has been read. -/
  admitted : ∀ base, subWord (base + c.effectiveTokensPerChunk) base ≤ queueSize

/-- The launch of a session that is accepted and has a counter for every tile. -/
def kernelLaunch (c : WarpSpecConfig) (blocks : Nat) (h : c.Accepted) (ht : c.totalTiles ≤ maxTiles)
    (hblocks : 0 < blocks) (hblocks' : blocks < 2 ^ 31) (hsize : c.blockSize ≤ 1024) : KernelLaunch where
  totalTiles := c.totalTiles
  tokensPerChunk := c.effectiveTokensPerChunk
  chunksPerTile := c.chunksPerTile
  warps := c.blockSize / 32
  totalTiles_lt := Nat.lt_of_le_of_lt ht (by decide)
  chunks_pos := h.chunksPerTile_pos
  warps_ge := by unfold blockSize; split_ifs <;> omega
  warps_le := by omega
  blocks := blocks
  tokensPerTile := c.tokensPerTile
  tokenSize := c.tokenSize
  cpuBase := c.cpuSrc
  gpuBase := c.gpuDst
  blocks_pos := hblocks
  blocks_lt := hblocks'
  tiles_le := ht
  tokens_pos := h.chunk_pos
  tokens := by rw [Nat.mul_comm, h.chunks]
  tokens_lt := c.tokensPerTile_lt

/-- The kernel of the pipeline writes these descriptors. -/
theorem descriptor_kernelLaunch (blocks : Nat) (h : c.Accepted) (ht : c.totalTiles ≤ maxTiles)
    (hblocks : 0 < blocks) (hblocks' : blocks < 2 ^ 31) (hsize : c.blockSize ≤ 1024) :
    (c.kernelLaunch blocks h ht hblocks hblocks' hsize).descriptor = c.descriptor := rfl

/-! ## What is written -/

/-- A range cut into blocks of equal length. -/
theorem flatMap_range_map {β : Type} (f : Nat → β) (m : Nat) : ∀ n,
    ((List.range n).flatMap fun a => (List.range m).map fun b => f (a * m + b)) =
      (List.range (n * m)).map f
  | 0 => by simp
  | n + 1 => by
    rw [List.range_succ, List.flatMap_append, flatMap_range_map f m n, Nat.succ_mul, List.range_add,
      List.map_append, List.map_map]
    simp

theorem Accepted.lt_tokens (h : c.Accepted) {chunk i : Nat} (hc : chunk < c.chunksPerTile)
    (hi : i < c.effectiveTokensPerChunk) :
    chunk * c.effectiveTokensPerChunk + i < c.tokensPerTile := by
  have hle : (chunk + 1) * c.effectiveTokensPerChunk ≤
      c.chunksPerTile * c.effectiveTokensPerChunk := Nat.mul_le_mul_right _ hc
  rw [h.chunks, Nat.succ_mul] at hle
  omega

/-- The 32-bit arithmetic of `write_chunk` does not wrap. -/
theorem Accepted.globalIdx (h : c.Accepted) {tile chunk i : Nat} (ht : tile < c.totalTiles)
    (hc : chunk < c.chunksPerTile) (hi : i < c.effectiveTokensPerChunk) :
    (tile * c.tokensPerTile + (chunk * c.effectiveTokensPerChunk + i) % 2 ^ 32) % 2 ^ 32 =
      tile * c.tokensPerTile + (chunk * c.effectiveTokensPerChunk + i) := by
  have hlocal := h.lt_tokens hc hi
  have htile : (tile + 1) * c.tokensPerTile ≤ c.totalTiles * c.tokensPerTile :=
    Nat.mul_le_mul_right _ ht
  have htotal : c.totalTiles * c.tokensPerTile ≤ c.totalTokens := Nat.div_mul_le_self _ _
  have hlt := c.totalTokens_lt
  rw [Nat.succ_mul] at htile
  rw [Nat.mod_eq_of_lt (Nat.lt_of_lt_of_le hlocal (Nat.le_of_lt c.tokensPerTile_lt)),
    Nat.mod_eq_of_lt (by omega)]

theorem Accepted.transfer_descriptor (h : c.Accepted) {tile chunk i : Nat}
    (ht : tile < c.totalTiles) (hc : chunk < c.chunksPerTile) (hi : i < c.effectiveTokensPerChunk) :
    transfer (c.descriptor tile chunk i) =
      c.token (tile * c.tokensPerTile + (chunk * c.effectiveTokensPerChunk + i)) := by
  simp only [transfer, descriptor, token, h.globalIdx ht hc hi]

/-- The transfers written are those of the tokens of whole tiles, in order. -/
theorem Accepted.transfers (h : c.Accepted) :
    c.written.map transfer = (List.range (c.totalTiles * c.tokensPerTile)).map c.token := by
  rw [← flatMap_range_map, written, List.map_flatMap]
  refine List.flatMap_congr fun tile ht => ?_
  rw [← h.chunks, ← flatMap_range_map (fun i => c.token (tile * _ + i)), List.map_flatMap]
  refine List.flatMap_congr fun chunk hc => ?_
  rw [List.map_map]
  refine List.map_congr_left fun i hi => ?_
  rw [h.chunks]
  exact h.transfer_descriptor (List.mem_range.mp ht) (List.mem_range.mp hc) (List.mem_range.mp hi)

/-- The tile id a descriptor carries. -/
theorem group_descriptor {tile : Nat} (ht : tile < 2 ^ 32) (chunk i slot : Nat) :
    (Descriptor.ofFields slot (c.descriptor tile chunk i)).group = tile := by
  simp only [Descriptor.group, Descriptor.ofFields, descriptor]
  have hlt : (tile * c.tokensPerTile + (chunk * c.effectiveTokensPerChunk + i) % 2 ^ 32) % 2 ^ 32 <
      2 ^ 32 := Nat.mod_lt _ (by decide)
  generalize (tile * c.tokensPerTile + (chunk * c.effectiveTokensPerChunk + i) % 2 ^ 32) % 2 ^ 32 = g
    at hlt ⊢
  have hword : word (tile <<< 32) = tile <<< 32 := word_of_lt (by
    rw [Nat.shiftLeft_eq]
    unfold wordSize
    omega)
  rw [hword, ← Nat.shiftLeft_add_eq_or_of_lt hlt, Nat.shiftLeft_eq]
  omega

/-- Every descriptor has a counter when every tile has one. -/
theorem Accepted.counted_iff (h : c.Accepted) :
    (∀ v ∈ c.written, ∀ slot, (Descriptor.ofFields slot v).group < maxTiles) ↔
      c.totalTiles ≤ maxTiles := by
  have htiles : c.totalTiles < 2 ^ 32 :=
    Nat.lt_of_le_of_lt (Nat.div_le_self _ _) c.totalTokens_lt
  constructor
  · intro hcounted
    refine Nat.le_of_not_lt fun hlt => ?_
    have hmem : c.descriptor maxTiles 0 0 ∈ c.written := by
      refine List.mem_flatMap.mpr ⟨_, List.mem_range.mpr hlt, ?_⟩
      refine List.mem_flatMap.mpr ⟨0, List.mem_range.mpr h.chunksPerTile_pos, ?_⟩
      exact List.mem_map.mpr ⟨0, List.mem_range.mpr h.chunk_pos, rfl⟩
    have := hcounted _ hmem 0
    rw [group_descriptor (by decide)] at this
    exact Nat.lt_irrefl _ this
  · intro hle v hv slot
    obtain ⟨tile, ht, hv⟩ := List.mem_flatMap.mp hv
    obtain ⟨chunk, -, hv⟩ := List.mem_flatMap.mp hv
    obtain ⟨i, -, rfl⟩ := List.mem_map.mp hv
    have ht := List.mem_range.mp ht
    rw [group_descriptor (Nat.lt_trans ht htiles)]
    exact Nat.lt_of_lt_of_le ht hle

/-! ## When a chunk fits in the ring -/

/-- In terms of the configuration: the chunk is the tile, or given, or tuned.  A tuned chunk is
large when tokens of a byte or two aim at 64KB, or when an eighth of the tile is. -/
def ChunkFits (c : WarpSpecConfig) : Prop :=
  if c.perTileMode then c.tokensPerTile ≤ queueSize
  else if 0 < c.tokensPerChunk then c.tokensPerChunk ≤ queueSize
  else c.tokensPerTile < 2 ^ 18 ∧ (c.tokensPerTile < 2 ^ 15 ∨ 3 ≤ c.tokenSize)

instance (c : WarpSpecConfig) : Decidable c.ChunkFits := by unfold ChunkFits; infer_instance

theorem targetChunkBytes_div (hsize : 0 < c.tokenSize) :
    c.targetChunkBytes / c.tokenSize ≤ 2 ^ 16 ∧
      (2 ^ 15 ≤ c.targetChunkBytes / c.tokenSize ↔ c.tokenSize < 3) := by
  unfold targetChunkBytes
  rw [Nat.le_div_iff_mul_le hsize]
  split_ifs with h1 h2
  · exact ⟨Nat.div_le_of_le_mul (by omega), by omega⟩
  · exact ⟨Nat.div_le_of_le_mul (by omega), by omega⟩
  · exact ⟨Nat.div_le_of_le_mul (by omega), by omega⟩

theorem autoChunk_bounds (hsize : 0 < c.tokenSize) (htile : 0 < c.tokensPerTile) :
    0 < c.autoChunk ∧ c.autoChunk < 2 ^ 31 := by
  have htarget := (targetChunkBytes_div hsize).1
  have hlt := c.tokensPerTile_lt
  have hmod : c.targetChunkBytes / c.tokenSize % 2 ^ 32 = c.targetChunkBytes / c.tokenSize :=
    Nat.mod_eq_of_lt (by omega)
  simp only [autoChunk, hmod]
  generalize c.targetChunkBytes / c.tokenSize = auto at htarget
  split_ifs <;> omega

theorem Accepted.autoChunk_lt_iff (h : c.Accepted) : c.autoChunk < 2 ^ 15 ↔
    c.tokensPerTile < 2 ^ 18 ∧ (c.tokensPerTile < 2 ^ 15 ∨ 3 ≤ c.tokenSize) := by
  obtain ⟨-, hsize, htile, -⟩ := h.pos
  obtain ⟨htarget, hsmall⟩ := targetChunkBytes_div hsize
  have hmod : c.targetChunkBytes / c.tokenSize % 2 ^ 32 = c.targetChunkBytes / c.tokenSize :=
    Nat.mod_eq_of_lt (by omega)
  simp only [autoChunk, hmod]
  generalize c.targetChunkBytes / c.tokenSize = auto at htarget hsmall
  split_ifs <;> omega

/-- The loop rounds below `2 ^ 15` exactly when it starts there. -/
theorem Accepted.roundDown_le_iff (h : c.Accepted) :
    roundDown c.autoChunk 32 1 ≤ queueSize ↔ c.autoChunk < 2 ^ 15 := by
  obtain ⟨hpos, hlt⟩ := autoChunk_bounds h.pos.2.1 h.pos.2.2.1
  obtain ⟨n, hn, hle, hlt'⟩ := roundDown_spec hlt 32 0 hpos (by omega)
  rw [Nat.pow_zero] at hn
  rw [hn]
  unfold queueSize
  constructor
  · intro hfit
    have hpow := Nat.pow_succ 2 n
    omega
  · intro hauto
    have hexp : n < 15 := (Nat.pow_lt_pow_iff_right (by decide : 1 < 2)).mp (by omega)
    exact Nat.pow_le_pow_right (by decide) (Nat.le_of_lt_succ hexp)

theorem Accepted.chunkFits_iff (h : c.Accepted) :
    c.effectiveTokensPerChunk ≤ queueSize ↔ c.ChunkFits := by
  unfold effectiveTokensPerChunk ChunkFits
  split_ifs
  · exact Iff.rfl
  · exact Iff.rfl
  · rw [h.roundDown_le_iff, h.autoChunk_lt_iff]

theorem Accepted.admitted_iff (h : c.Accepted) :
    (∀ base, subWord (base + c.effectiveTokensPerChunk) base ≤ queueSize) ↔ c.ChunkFits := by
  have hlt : c.effectiveTokensPerChunk < wordSize := by
    have hle : c.effectiveTokensPerChunk ≤ c.tokensPerTile := by
      rw [← h.chunks]
      exact Nat.le_mul_of_pos_left _ h.chunksPerTile_pos
    have := c.tokensPerTile_lt
    unfold wordSize
    omega
  rw [← h.chunkFits_iff]
  constructor
  · intro hadm
    simpa only [subWord_add_left hlt] using hadm 0
  · intro hle base
    rwa [subWord_add_left hlt]

theorem Accepted.tokens_iff (h : c.Accepted) :
    (c.written.map transfer).Perm ((List.range c.totalTokens).map c.token) ↔
      c.tokensPerTile ∣ c.totalTokens := by
  rw [h.transfers]
  constructor
  · intro hperm
    have hlen := hperm.length_eq
    rw [List.length_map, List.length_map, List.length_range, List.length_range] at hlen
    exact ⟨c.totalTiles, by rw [Nat.mul_comm, hlen]⟩
  · intro hdvd
    rw [totalTiles, Nat.div_mul_cancel hdvd]

/-- An accepted configuration is served exactly when tiles divide its tokens, the poller has a
counter for every tile, and its chunks fit in the ring. -/
theorem serves_iff (h : c.Accepted) : c.Serves ↔
    c.tokensPerTile ∣ c.totalTokens ∧ c.totalTokens ≤ maxTiles * c.tokensPerTile ∧ c.ChunkFits := by
  have htiles : c.tokensPerTile ∣ c.totalTokens →
      (c.totalTiles ≤ maxTiles ↔ c.totalTokens ≤ maxTiles * c.tokensPerTile) := fun hdvd =>
    (Nat.div_le_iff_le_mul_of_dvd (Nat.pos_iff_ne_zero.mp h.pos.2.2.1) hdvd).trans
      (by rw [Nat.mul_comm])
  constructor
  · rintro ⟨htokens, hcounted, hadmitted⟩
    have hdvd := h.tokens_iff.mp htokens
    exact ⟨hdvd, (htiles hdvd).mp (h.counted_iff.mp hcounted), h.admitted_iff.mp hadmitted⟩
  · rintro ⟨hdvd, hle, hfits⟩
    exact ⟨h.tokens_iff.mpr hdvd, h.counted_iff.mpr ((htiles hdvd).mpr hle), h.admitted_iff.mpr hfits⟩

theorem readmeTokens_lt : 8192 < 2 ^ 32 := by decide
theorem two_pow_40_lt : 2 ^ 40 < wordSize := by decide
theorem two_pow_41_lt : 2 ^ 41 < wordSize := by decide
theorem zero_lt_word32 : 0 < 2 ^ 32 := by decide

/-- 8192 tokens of 16KB, as in the README. -/
private def documented : WarpSpecConfig where
  totalTokens := 8192
  tokenSize := 16384
  cpuSrc := 2 ^ 40
  gpuDst := 2 ^ 41
  totalTokens_lt := readmeTokens_lt
  tokenSize_lt := by decide
  cpuSrc_lt := two_pow_40_lt
  gpuDst_lt := two_pow_41_lt
  tokensPerTile_lt := by decide
  tokensPerChunk_lt := zero_lt_word32

theorem serves_iff_documented : documented.Serves ↔
    128 ∣ 8192 ∧ 8192 ≤ maxTiles * 128 ∧ documented.ChunkFits :=
  serves_iff (by decide)

/-- 200 tokens in tiles of 128: the last 72 are not transferred. -/
private def uneven : WarpSpecConfig where
  totalTokens := 200
  tokenSize := 4096
  cpuSrc := 2 ^ 40
  gpuDst := 2 ^ 41
  totalTokens_lt := by decide
  tokenSize_lt := by decide
  cpuSrc_lt := two_pow_40_lt
  gpuDst_lt := two_pow_41_lt
  tokensPerTile_lt := by decide
  tokensPerChunk_lt := zero_lt_word32

theorem exists_accepted_not_serves : ∃ c : WarpSpecConfig, c.Accepted ∧ ¬ c.Serves :=
  ⟨uneven, by decide, fun h => absurd h.tokens.length_eq (by decide +kernel)⟩

end WarpSpecConfig
end Gfd
