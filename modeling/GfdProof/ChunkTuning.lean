import GfdProof.SessionConfig

/-! # The chunk size a session picks by itself

With `tokens_per_chunk = 0` a session aims at a number of bytes for a chunk,
clamps what that comes to in tokens between four tokens, the tile and an eighth of
the tile, and rounds it down to a power of two.

The loop that rounds ends, without wrapping, at a power of two of at most a tile
(`roundDown_autoChunk`).  It comes after the clamps, so it can fall below the
eighth again, and nothing makes it divide the tile: it does both for a tile that
is itself a power of two, and for one that is at most eight times the power of two
below the tokens aimed at (`autoTuned_iff`).
-/
namespace Gfd
namespace WarpSpecConfig

variable {c : WarpSpecConfig}

/-- What a chunk aims at, in tokens: what the bytes come to, but at least four, at most a tile, and
at least an eighth of one. -/
def aim (c : WarpSpecConfig) : Nat :=
  max (min (max (c.targetChunkBytes / c.tokenSize) 4) c.tokensPerTile) (c.tokensPerTile / 8)

/-- The clamps of the source compute it. -/
theorem autoChunk_eq_aim (hsize : 0 < c.tokenSize) : c.autoChunk = c.aim := by
  have htarget := (targetChunkBytes_div hsize).1
  have hmod : c.targetChunkBytes / c.tokenSize % 2 ^ 32 = c.targetChunkBytes / c.tokenSize :=
    Nat.mod_eq_of_lt (by omega)
  simp only [autoChunk, aim, hmod]
  generalize c.targetChunkBytes / c.tokenSize = auto
  split_ifs <;> omega

theorem aim_bounds (htile : 0 < c.tokensPerTile) :
    0 < c.aim ∧ c.aim ≤ c.tokensPerTile ∧ c.tokensPerTile / 8 ≤ c.aim := by
  unfold aim
  omega

/-- Two powers of two with the same number between each and its double are the same. -/
theorem pow_unique {a m n : Nat} (h1 : 2 ^ m ≤ a) (h2 : a < 2 ^ (m + 1)) (h3 : 2 ^ n ≤ a)
    (h4 : a < 2 ^ (n + 1)) : m = n := by
  have hm : m < n + 1 := (Nat.pow_lt_pow_iff_right (by decide)).mp (Nat.lt_of_le_of_lt h1 h4)
  have hn : n < m + 1 := (Nat.pow_lt_pow_iff_right (by decide)).mp (Nat.lt_of_le_of_lt h3 h2)
  omega

/-- However often it may go round, the loop has doubled without wrapping. -/
theorem roundDown_le {auto : Nat} (hauto : auto < 2 ^ 31) :
    ∀ (fuel p : Nat), p ≤ auto → roundDown auto fuel p ≤ auto
  | 0, _, hp => hp
  | fuel + 1, p, hp => by
    rw [roundDown]
    split
    · exact roundDown_le hauto fuel _ ‹_›
    · exact hp

/-- The loop ends at the largest power of two that is not above the aim. -/
theorem roundDown_autoChunk (hsize : 0 < c.tokenSize) (htile : 0 < c.tokensPerTile) {fuel : Nat}
    (hfuel : 32 ≤ fuel) :
    ∃ n, roundDown c.autoChunk fuel 1 = 2 ^ n ∧ 2 ^ n ≤ c.aim ∧ c.aim < 2 ^ (n + 1) := by
  obtain ⟨hpos, hlt⟩ := autoChunk_bounds hsize htile
  have hlt' : c.autoChunk < 2 ^ (0 + fuel) := by
    rw [Nat.zero_add]
    exact Nat.lt_of_lt_of_le hlt (Nat.pow_le_pow_right (by decide) (by omega))
  rw [← autoChunk_eq_aim hsize]
  exact roundDown_spec hlt fuel 0 hpos hlt'

/-- What the comments of `effective_tokens_per_chunk` and the checks of the constructor ask of a
chunk size that is picked by the session. -/
structure AutoTuned (c : WarpSpecConfig) : Prop where
  /-- The loop has ended after 32 iterations, -/
  terminates : ∀ fuel, 32 ≤ fuel → roundDown c.autoChunk fuel 1 = c.effectiveTokensPerChunk
  /-- and whenever it tests `p * 2`, that is below `2^32`. -/
  exact : ∀ fuel, roundDown c.autoChunk fuel 1 * 2 < 2 ^ 32
  powerOfTwo : ∃ n, c.effectiveTokensPerChunk = 2 ^ n
  le_tile : c.effectiveTokensPerChunk ≤ c.tokensPerTile
  divides : c.effectiveTokensPerChunk ∣ c.tokensPerTile
  accepted : 0 < c.totalTokens → c.Accepted
  chunks_le : c.chunksPerTile ≤ 8

/-- The tokens the target comes to, but at least four. -/
def targetTokens (c : WarpSpecConfig) : Nat := max (c.targetChunkBytes / c.tokenSize) 4

/-- The tile is a power of two, or at most eight times the largest power of two that is not above the
tokens of the target. -/
def Tunable (c : WarpSpecConfig) : Prop :=
  (∃ k, c.tokensPerTile = 2 ^ k) ∨
    ∃ n, 2 ^ n ≤ c.targetTokens ∧ c.targetTokens < 2 ^ (n + 1) ∧ 2 ^ n ∣ c.tokensPerTile ∧
      c.tokensPerTile ≤ 8 * 2 ^ n

/-- Where the tile is a power of two, the eighth is one as well and survives the rounding. -/
theorem usable_of_pow {k n : Nat} (htile : c.tokensPerTile = 2 ^ k) (hle : 2 ^ n ≤ c.aim)
    (hlt : c.aim < 2 ^ (n + 1)) : 2 ^ n ∣ c.tokensPerTile ∧ c.tokensPerTile ≤ 8 * 2 ^ n := by
  obtain ⟨-, htop, heighth⟩ := aim_bounds (c := c) (htile ▸ Nat.two_pow_pos k)
  rw [htile] at htop heighth ⊢
  have hnk : n ≤ k := (Nat.pow_le_pow_iff_right (by decide)).mp (Nat.le_trans hle htop)
  have hkn : k < n + 4 := by
    have hdiv : 2 ^ k < 2 ^ (n + 4) := by
      rw [Nat.pow_add 2 (n + 1) 3]
      omega
    exact (Nat.pow_lt_pow_iff_right (by decide)).mp hdiv
  refine ⟨Nat.pow_dvd_pow 2 hnk, ?_⟩
  calc 2 ^ k ≤ 2 ^ (3 + n) := Nat.pow_le_pow_right (by decide) (by omega)
    _ = 8 * 2 ^ n := Nat.pow_add 2 3 n

/-- The clamps matter only to a tile that is a power of two: any other is between the target and eight
times the target, if the rounding divides it. -/
theorem aim_eq_target {n : Nat} (htile : 0 < c.tokensPerTile) (hpow : ¬ ∃ k, c.tokensPerTile = 2 ^ k)
    (hle : 2 ^ n ≤ c.aim) (hlt : c.aim < 2 ^ (n + 1)) (hdvd : 2 ^ n ∣ c.tokensPerTile)
    (hchunks : c.tokensPerTile ≤ 8 * 2 ^ n) : c.aim = c.targetTokens := by
  have haim : c.aim = max (min c.targetTokens c.tokensPerTile) (c.tokensPerTile / 8) := rfl
  have hdouble : 2 ^ (n + 1) = 2 * 2 ^ n := Nat.pow_succ'
  have hnot : ∀ k, c.tokensPerTile ≠ 2 ^ k := fun k h => hpow ⟨k, h⟩
  obtain ⟨m, hm⟩ := hdvd
  have hone : m ≠ 1 := by
    rintro rfl
    exact hnot n (by rw [hm, Nat.mul_one])
  have height : m ≠ 8 := by
    rintro rfl
    refine hnot (n + 3) ?_
    rw [hm, Nat.pow_add]
  have hpos : 0 < 2 ^ n := Nat.two_pow_pos n
  have hmle : m ≤ 8 := by
    rw [hm, Nat.mul_comm] at hchunks
    exact Nat.le_of_mul_le_mul_right hchunks hpos
  have hm2 : 2 ≤ m := by
    rcases Nat.eq_zero_or_pos m with rfl | hmpos
    · rw [hm] at htile
      exact absurd htile (Nat.lt_irrefl 0)
    · omega
  have hlo : 2 * 2 ^ n ≤ c.tokensPerTile := by
    rw [hm, Nat.mul_comm]
    exact Nat.mul_le_mul_left _ hm2
  have hhi : c.tokensPerTile ≤ 7 * 2 ^ n := by
    rw [hm, Nat.mul_comm]
    exact Nat.mul_le_mul_right _ (by omega)
  omega

/-- What the loop rounds to divides the tile into at most eight chunks. -/
theorem tunable_iff (htile : 0 < c.tokensPerTile) {n : Nat} (hle : 2 ^ n ≤ c.aim)
    (hlt : c.aim < 2 ^ (n + 1)) :
    c.Tunable ↔ 2 ^ n ∣ c.tokensPerTile ∧ c.tokensPerTile ≤ 8 * 2 ^ n := by
  constructor
  · rintro (⟨k, hk⟩ | ⟨k, hk, hk', hdvd, hchunks⟩)
    · exact usable_of_pow hk hle hlt
    · -- unless the tile is that power itself, the target is not clamped
      have haim : c.aim = max (min c.targetTokens c.tokensPerTile) (c.tokensPerTile / 8) := rfl
      have hdouble : 2 ^ (k + 1) = 2 * 2 ^ k := Nat.pow_succ'
      obtain ⟨m, hm⟩ := hdvd
      rcases Nat.lt_or_ge c.tokensPerTile (2 * 2 ^ k) with hsmall | hlarge
      · have hone : m = 1 := by
          rw [hm, Nat.mul_comm] at hsmall htile
          have := Nat.lt_of_mul_lt_mul_right hsmall
          have := Nat.pos_of_mul_pos_right htile
          omega
        exact usable_of_pow (k := k) (by rw [hm, hone, Nat.mul_one]) hle hlt
      · have hsame : c.aim = c.targetTokens := by omega
        rw [hsame] at hle hlt
        obtain rfl := pow_unique hk hk' hle hlt
        exact ⟨⟨m, hm⟩, hchunks⟩
  · rintro ⟨hdvd, hchunks⟩
    by_cases hpow : ∃ k, c.tokensPerTile = 2 ^ k
    · exact .inl hpow
    · have hsame := aim_eq_target htile hpow hle hlt hdvd hchunks
      exact .inr ⟨n, hsame ▸ hle, hsame ▸ hlt, hdvd, hchunks⟩

/-- **A chunk size the session picks is usable** exactly when the tile is of this kind. -/
theorem autoTuned_iff (hsize : 0 < c.tokenSize) (htile : 0 < c.tokensPerTile)
    (hauto : c.tokensPerChunk = 0) (hmode : c.perTileMode = false) : c.AutoTuned ↔ c.Tunable := by
  have heff : c.effectiveTokensPerChunk = roundDown c.autoChunk 32 1 := by
    simp [effectiveTokensPerChunk, hmode, hauto]
  obtain ⟨n, hn, hle, hlt⟩ := roundDown_autoChunk hsize htile (Nat.le_refl 32)
  obtain ⟨-, haim, -⟩ := aim_bounds htile
  have hpos : 0 < 2 ^ n := Nat.two_pow_pos n
  rw [← heff] at hn
  rw [tunable_iff htile hle hlt]
  constructor
  · intro h
    have hdvd := h.divides
    have hchunks := h.chunks_le
    rw [hn] at hdvd
    rw [chunksPerTile, hn] at hchunks
    refine ⟨hdvd, ?_⟩
    calc c.tokensPerTile = c.tokensPerTile / 2 ^ n * 2 ^ n := (Nat.div_mul_cancel hdvd).symm
      _ ≤ 8 * 2 ^ n := Nat.mul_le_mul_right _ hchunks
  · rintro ⟨hdvd', hchunks⟩
    have hdvd : c.effectiveTokensPerChunk ∣ c.tokensPerTile := by rwa [hn]
    obtain ⟨hchunk, hbound⟩ := autoChunk_bounds hsize htile
    refine ⟨fun fuel hfuel => ?_, fun fuel => ?_, ⟨n, hn⟩, ?_, hdvd, fun htotal => ?_, ?_⟩
    · obtain ⟨i, hi, hi1, hi2⟩ := roundDown_autoChunk hsize htile hfuel
      rw [hi, hn, pow_unique hi1 hi2 hle hlt]
    · have := roundDown_le hbound fuel 1 hchunk
      omega
    · rw [hn]
      exact Nat.le_trans hle haim
    · refine ⟨by omega, by omega, not_not.mpr (Nat.mod_eq_zero_of_dvd hdvd)⟩
    · rw [chunksPerTile, hn]
      exact Nat.div_le_of_le_mul (by rwa [Nat.mul_comm])

/-- Tokens of 64KB in tiles of `tile`. -/
private def tiled (tile : Nat) (h : tile < 2 ^ 32) : WarpSpecConfig where
  totalTokens := 8192
  tokenSize := 65536
  cpuSrc := 2 ^ 40
  gpuDst := 2 ^ 41
  tokensPerTile := tile
  totalTokens_lt := readmeTokens_lt
  tokenSize_lt := by decide
  cpuSrc_lt := two_pow_40_lt
  gpuDst_lt := two_pow_41_lt
  tokensPerTile_lt := h
  tokensPerChunk_lt := zero_lt_word32

/-- A tile of 24 tokens is six times the four of the target, and one of 120 is thirty times. -/
theorem autoTuned_iff_two : (tiled 24 (by decide)).AutoTuned ∧ ¬ (tiled 120 (by decide)).AutoTuned := by
  have htarget : (tiled 120 (by decide)).targetTokens = 4 := by decide
  constructor
  · refine (autoTuned_iff (by decide) (by decide) rfl rfl).mpr (.inr ⟨2, ?_⟩)
    decide
  · rw [autoTuned_iff (by decide) (by decide) rfl rfl]
    rintro (⟨k, hk⟩ | ⟨n, hle, hlt, -, hchunks⟩)
    · have hlog : Nat.log 2 120 = k := by rw [show 120 = 2 ^ k from hk, Nat.log_pow (by decide)]
      rw [← hlog] at hk
      exact absurd hk (by decide)
    · rw [htarget] at hle hlt
      obtain rfl : n = 2 := pow_unique hle hlt (by decide) (by decide)
      exact absurd hchunks (by decide)

/-- A tile of 120 tokens: an eighth of it is 15, which is rounded down to 8, and the tile has 15
chunks. -/
theorem exists_untuned : ∃ c : WarpSpecConfig, 0 < c.tokenSize ∧ 0 < c.tokensPerTile ∧
    c.tokensPerChunk = 0 ∧ c.perTileMode = false ∧ ¬ c.AutoTuned :=
  ⟨tiled 120 (by decide), by decide, by decide, rfl, rfl, fun h => absurd h.chunks_le (by decide)⟩

end WarpSpecConfig
end Gfd
