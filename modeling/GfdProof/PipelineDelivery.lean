import Mathlib
import GfdProof.TilePipeline
import GfdProof.TileArrivals

/-! # What a compute warp finds in the GPU buffer

A compute warp calls `compute_fn` on a chunk when the transfer warp of its block has seen the tile's
counter at or above the end of the chunk.  The chunks of a tile are sent in order, so that the
descriptors of a chunk are among the first of the tile, as many as the counter says; and these are in
the GPU buffer where the counters do not run ahead of the data (`TileArrivals.Counted`).

So from the moment `compute_fn` is called on a chunk every token of it is in place
(`computed_of_reachable`), for any number of blocks over any number of channels and in any order of
their steps, in runs that keep to `TileArrivals.Fresh`.
-/
namespace Gfd

open Transition WorkStreams Script.Machine TileLoop
open PendingCopies (Transferable not_writes_of_le)
open QueueDelivery (Arrived)
open TileArrivals (Counted ofTile)

/-! ## Counting in lists -/

/-- An element is among the first of those that meet `P`, if fewer than so many come before it. -/
theorem mem_take_filter {α : Type*} {l : List α} {P : α → Bool} {i n : Nat} {a : α} (hi : l[i]? = some a)
    (ha : P a = true) (hn : (l.take i).countP P < n) : a ∈ (l.filter P).take n := by
  obtain ⟨hlt, rfl⟩ := List.getElem?_eq_some_iff.mp hi
  have hsplit : l.filter P = (l.take i).filter P ++ l[i] :: (l.drop (i + 1)).filter P := by
    conv_lhs => rw [← List.take_append_drop i l, List.drop_eq_getElem_cons hlt]
    rw [List.filter_append, List.filter_cons_of_pos ha]
  rw [List.countP_eq_length_filter] at hn
  obtain ⟨m, hm⟩ : ∃ m, n - ((l.take i).filter P).length = m + 1 := ⟨_, (Nat.succ_pred (by omega)).symm⟩
  rw [hsplit, List.take_append, hm, List.take_succ_cons]
  exact List.mem_append_right _ List.mem_cons_self

/-- A rising list below `n` has at most `n` elements. -/
theorem length_le_of_rising {l : List Nat} {n : Nat} (h : l.Pairwise (· < ·)) (hn : ∀ x ∈ l, x < n) :
    l.length ≤ n := by
  have hnodup : l.Nodup := h.imp Nat.ne_of_lt
  have hle := (hnodup.subperm fun x hx => List.mem_range.mpr (hn x hx)).length_le
  rwa [List.length_range] at hle

/-! ## The tokens of a launch -/

namespace KernelLaunch

/-- The tokens are numbered by words, and neither buffer ends past the address space. -/
structure Fits (p : KernelLaunch) : Prop where
  tokens : p.totalTiles * p.tokensPerTile ≤ 2 ^ 32
  src : p.cpuBase + p.totalTiles * p.tokensPerTile * p.tokenSize < wordSize
  dst : p.gpuBase + p.totalTiles * p.tokensPerTile * p.tokenSize < wordSize

variable {p : KernelLaunch}

/-- The index of a token of a chunk. -/
def token (p : KernelLaunch) (tile chunk i : Nat) : Nat :=
  tile * p.tokensPerTile + (chunk * p.tokensPerChunk + i)

theorem token_lt {tile chunk i : Nat} (ht : tile < p.totalTiles) (hc : chunk < p.chunksPerTile)
    (hi : i < p.tokensPerChunk) : chunk * p.tokensPerChunk + i < p.tokensPerTile ∧
      p.token tile chunk i < p.totalTiles * p.tokensPerTile := by
  have hchunk : (chunk + 1) * p.tokensPerChunk ≤ p.chunksPerTile * p.tokensPerChunk :=
    Nat.mul_le_mul_right _ hc
  have htile : (tile + 1) * p.tokensPerTile ≤ p.totalTiles * p.tokensPerTile := Nat.mul_le_mul_right _ ht
  rw [Nat.succ_mul] at hchunk htile
  rw [Nat.mul_comm p.chunksPerTile, p.tokens] at hchunk
  unfold token
  omega

/-- A token belongs to one chunk. -/
theorem token_inj {tile chunk i tile' chunk' i' : Nat} (hc : chunk < p.chunksPerTile)
    (hi : i < p.tokensPerChunk) (hc' : chunk' < p.chunksPerTile) (hi' : i' < p.tokensPerChunk)
    (h : p.token tile chunk i = p.token tile' chunk' i') : tile = tile' ∧ chunk = chunk' ∧ i = i' := by
  have hdiv : ∀ {t c j : Nat}, c < p.chunksPerTile → j < p.tokensPerChunk →
      p.token t c j / p.tokensPerTile = t ∧ p.token t c j % p.tokensPerTile = c * p.tokensPerChunk + j := by
    intro t c j hc hj
    have hlt : c * p.tokensPerChunk + j < p.tokensPerTile := by
      rw [← p.tokens, Nat.mul_comm p.tokensPerChunk]
      calc c * p.tokensPerChunk + j < (c + 1) * p.tokensPerChunk := by
            rw [Nat.succ_mul]; omega
        _ ≤ p.chunksPerTile * p.tokensPerChunk := Nat.mul_le_mul_right _ hc
    have hpos : 0 < p.tokensPerTile := by omega
    unfold token
    rw [Nat.mul_comm t]
    exact ⟨by rw [Nat.mul_add_div hpos, Nat.div_eq_of_lt hlt, Nat.add_zero],
      by rw [Nat.mul_add_mod, Nat.mod_eq_of_lt hlt]⟩
  obtain ⟨ht, hr⟩ := hdiv (t := tile) hc hi
  obtain ⟨ht', hr'⟩ := hdiv (t := tile') hc' hi'
  rw [h] at ht hr
  have hpos := p.tokens_pos
  have hin : chunk * p.tokensPerChunk + i = chunk' * p.tokensPerChunk + i' := hr.symm.trans hr'
  have hquot : ∀ {c j : Nat}, j < p.tokensPerChunk → (c * p.tokensPerChunk + j) / p.tokensPerChunk = c := by
    intro c j hj
    rw [Nat.mul_comm, Nat.mul_add_div hpos, Nat.div_eq_of_lt hj, Nat.add_zero]
  have hchunk := hquot (c := chunk) hi
  rw [hin, hquot hi'] at hchunk
  subst hchunk
  exact ⟨ht.symm.trans ht', rfl, Nat.add_left_cancel hin⟩

/-- What `write_chunk` stores, where nothing wraps. -/
theorem Fits.fields (hf : p.Fits) {tile chunk i : Nat} (ht : tile < p.totalTiles)
    (hc : chunk < p.chunksPerTile) (hi : i < p.tokensPerChunk) :
    p.descriptor tile chunk i .srcAddr = p.cpuBase + p.token tile chunk i * p.tokenSize ∧
      p.descriptor tile chunk i .dstAddr = p.gpuBase + p.token tile chunk i * p.tokenSize ∧
      p.cpuBase + p.token tile chunk i * p.tokenSize + p.tokenSize < wordSize ∧
      p.gpuBase + p.token tile chunk i * p.tokenSize + p.tokenSize < wordSize := by
  obtain ⟨hlocal, htoken⟩ := token_lt ht hc hi
  have hend : (p.token tile chunk i + 1) * p.tokenSize ≤ p.totalTiles * p.tokensPerTile * p.tokenSize :=
    Nat.mul_le_mul_right _ htoken
  have htokens := hf.tokens
  have hsrc := hf.src
  have hdst := hf.dst
  have hlt := p.tokens_lt
  rw [Nat.succ_mul] at hend
  have hglobal : (tile * p.tokensPerTile + (chunk * p.tokensPerChunk + i) % 2 ^ 32) % 2 ^ 32 =
      p.token tile chunk i := by
    rw [Nat.mod_eq_of_lt (show chunk * p.tokensPerChunk + i < 2 ^ 32 by omega)]
    exact Nat.mod_eq_of_lt (show p.token tile chunk i < 2 ^ 32 by omega)
  refine ⟨?_, ?_, by omega, by omega⟩
  · simp only [descriptor]
    rw [hglobal, word_of_lt (by omega)]
  · simp only [descriptor]
    rw [hglobal, word_of_lt (by omega)]

end KernelLaunch

namespace TilePipeline

variable {cfg : Config} {p : KernelLaunch} {s t : TilePipeline cfg p}

/-! ## The descriptors popped -/

/-- The slot of a chunk's descriptor, with what the descriptor holds. -/
theorem Valid.exists_chunk (hv : s.Valid) (hg : s.grid.Valid p.toLaunch) {x : Nat}
    (hx : x < s.ring.writeIdx) : ∃ k y i, s.sent[k]? = some y ∧ i < p.tokensPerChunk ∧
      x = p.tokensPerChunk * k + i ∧ y.1 < p.totalTiles ∧ y.2 < p.chunksPerTile ∧
      s.ring.descriptor x = Descriptor.ofFields x (p.descriptor y.1 y.2 i) := by
  have hpos := p.tokens_pos
  rw [hv.writeIdx] at hx
  have hk : x / p.tokensPerChunk < s.sent.length := Nat.div_lt_of_lt_mul hx
  have hi : x % p.tokensPerChunk < p.tokensPerChunk := Nat.mod_lt _ hpos
  have hget := List.getElem?_eq_getElem hk
  have heq : x = p.tokensPerChunk * (x / p.tokensPerChunk) + x % p.tokensPerChunk :=
    (Nat.div_add_mod _ _).symm
  obtain ⟨hchunk, b, hb⟩ := hv.range _ (List.getElem_mem hk)
  obtain ⟨l, cur, hblock⟩ := hg.block b
  refine ⟨_, _, _, hget, hi, heq, (hblock.acquired_lt _ hb).1, hchunk, ?_⟩
  have hplan := hv.plan _ _ hget _ hi
  rw [← heq] at hplan
  rw [Ring.descriptor, hplan]

/-- A slot is for a token that lies in both buffers. -/
theorem Valid.descriptor_fields (hv : s.Valid) (hg : s.grid.Valid p.toLaunch) (hf : p.Fits) {x : Nat}
    (hx : x < s.ring.writeIdx) : ∃ k y i, s.sent[k]? = some y ∧ i < p.tokensPerChunk ∧
      x = p.tokensPerChunk * k + i ∧ y.2 < p.chunksPerTile ∧
      (s.ring.descriptor x).srcAddr = p.cpuBase + p.token y.1 y.2 i * p.tokenSize ∧
      (s.ring.descriptor x).dstAddr = p.gpuBase + p.token y.1 y.2 i * p.tokenSize ∧
      (s.ring.descriptor x).size = p.tokenSize ∧
      p.cpuBase + p.token y.1 y.2 i * p.tokenSize + p.tokenSize < wordSize ∧
      p.gpuBase + p.token y.1 y.2 i * p.tokenSize + p.tokenSize < wordSize := by
  obtain ⟨k, y, i, hk, hi, hxk, ht, hc, hd⟩ := hv.exists_chunk hg hx
  obtain ⟨hsrc, hdst, hlt⟩ := hf.fields ht hc hi
  refine ⟨k, y, i, hk, hi, hxk, hc, ?_, ?_, ?_, hlt⟩ <;> rw [hd]
  · exact hsrc
  · exact hdst
  · rfl

/-- The descriptors popped are for different tokens. -/
theorem Valid.transferable (hv : s.Valid) (hg : s.grid.Valid p.toLaunch) (hf : p.Fits) :
    Transferable s.ring.loop.popped := by
  have hlt : ∀ {x}, x < s.ring.loop.readIdx → x < s.ring.writeIdx := fun hx =>
    hx.trans_le hv.ring.read_le
  rw [hv.ring.popped_eq]
  refine ⟨List.forall_mem_map.mpr fun x hx => ?_, List.forall_mem_map.mpr fun x hx => ?_,
    List.pairwise_map.mpr (List.pairwise_lt_range.imp_of_mem fun {x y} hx hy hxy => ?_)⟩
  · obtain ⟨k, z, i, -, -, -, -, hsrc, -, hsize, hend, -⟩ :=
      hv.descriptor_fields hg hf (hlt (List.mem_range.mp hx))
    rw [hsrc, hsize]
    exact hend
  · obtain ⟨k, z, i, -, -, -, -, -, hdst, hsize, -, hend⟩ :=
      hv.descriptor_fields hg hf (hlt (List.mem_range.mp hx))
    rw [hdst, hsize]
    exact hend
  · obtain ⟨k, z, i, hk, hi, hxk, hz, -, hdst, hsize, -, hend⟩ :=
      hv.descriptor_fields hg hf (hlt (List.mem_range.mp hx))
    obtain ⟨k', z', i', hk', hi', hyk, hz', -, hdst', hsize', -, hend'⟩ :=
      hv.descriptor_fields hg hf (hlt (List.mem_range.mp hy))
    rw [← hdst, ← hsize] at hend
    rw [← hdst', ← hsize'] at hend'
    rcases Nat.lt_trichotomy (p.token z.1 z.2 i) (p.token z'.1 z'.2 i') with h | h | h
    · have hle := Nat.mul_le_mul_right p.tokenSize h
      rw [Nat.succ_mul] at hle
      exact not_writes_of_le (by omega) hend'
    · -- a chunk is sent once
      obtain ⟨htile, hchunk, rfl⟩ := KernelLaunch.token_inj hz hi hz' hi' h
      have hzz : z = z' := Prod.ext htile hchunk
      subst hzz
      have hkk := (List.getElem?_inj (List.getElem?_eq_some_iff.mp hk).1 hv.nodup).mp (hk.trans hk'.symm)
      subst hkk
      omega
    · have hle := Nat.mul_le_mul_right p.tokenSize h
      rw [Nat.succ_mul] at hle
      exact fun a ha ha' => not_writes_of_le (by omega) hend a ha' ha

/-- The descriptors flushed are those of the first slots. -/
theorem Valid.flushed_eq (hv : s.Valid) : ∃ m ≤ s.ring.loop.readIdx,
    (s.ring.loop.flushed.map Prod.fst).flatten = (List.range m).map s.ring.descriptor := by
  have hprefix : (s.ring.loop.flushed.map Prod.fst).flatten <+: s.ring.loop.popped :=
    List.prefix_append _ _
  rw [hv.ring.popped_eq] at hprefix
  have hle := hprefix.length_le
  rw [List.length_map, List.length_range] at hle
  refine ⟨_, hle, ?_⟩
  rw [List.prefix_iff_eq_take.mp hprefix, ← List.map_take, List.take_range, List.length_map,
    List.length_range]

theorem Valid.ofTile_lt (hv : s.Valid) (hg : s.grid.Valid p.toLaunch) (tile : Nat) :
    (ofTile s.ring.loop.flushed tile).length < wordSize := by
  obtain ⟨m, hm, hflat⟩ := hv.flushed_eq
  have hle := List.length_filter_le (·.group == tile) (s.ring.loop.flushed.map Prod.fst).flatten
  have hword := (hv.inWords hg).1
  have hread := hv.ring.read_le
  rw [hflat, List.length_map, List.length_range] at hle
  unfold ofTile
  rw [hflat]
  omega

/-! ## The invariant -/

/-- The chunks of a tile are sent in order, and a chunk that has been waited for has been sent and
counted. -/
structure Supplied (s : TilePipeline cfg p) : Prop where
  ordered : s.sent.Pairwise fun x y => x.1 = y.1 → x.2 < y.2
  waited : ∀ b, ∀ y ∈ (s.grid.block b).waited, (∃ c, y.2 = (c + 1) * p.tokensPerChunk ∧ (y.1, c) ∈ s.sent) ∧
    y.2 ≤ s.ring.loop.backend.data.dTileChunkDone y.1

/-- What a step records of the waits that return. -/
theorem waited_warpStep {q : Launch} {n w : Nat} {b : Block} {r : Block × Nat}
    (h : b.warpStep q n w = some r) : r.1.waited = b.waited ∨
      ∃ tile chunk, b.warp w = .waitChunk tile chunk ∧
        r.1.waited = b.waited ++ [(tile, (chunk + 1) * q.tokensPerChunk)] := by
  unfold Block.warpStep at h
  split at h
  case h_9 hpc =>
    cases h
    exact .inr ⟨_, _, hpc, rfl⟩
  case h_5 | h_16 | h_17 => cases h
  case h_6 | h_11 | h_12 => split at h <;> cases h <;> exact .inl rfl
  all_goals
    cases h
    exact .inl rfl

theorem Valid.tile_lt (hv : s.Valid) (hg : s.grid.Valid p.toLaunch) {x : Nat × Nat} (hx : x ∈ s.sent) :
    x.1 < p.totalTiles := by
  obtain ⟨-, b, hb⟩ := hv.range x hx
  obtain ⟨l, cur, hblock⟩ := hg.block b
  exact (hblock.acquired_lt _ hb).1

/-- A chunk sent is the next one of its tile. -/
theorem ordered_reserve (hv : s.Valid) (hs : s.sent.Pairwise fun x y => x.1 = y.1 → x.2 < y.2)
    {b : Fin p.blocks} {tile chunk : Nat} (hpc : (s.grid.block b).warp 0 = .submit tile chunk)
    {r : Ring (Fin p.blocks) cfg.backend} {f : Nat → Field → Nat}
    (h : s.ring.step (.reserve b p.tokensPerChunk f) = some r) :
    (s.sent ++ [(tile, chunk)]).Pairwise fun x y => x.1 = y.1 → x.2 < y.2 := by
  have hidle : s.ring.producer b = .idle := by
    simp only [Ring.step] at h
    split at h
    · assumption
    · cases h
  have hon : TilePipeline.onHand (s.grid.block b) (s.ring.producer b).active = some (tile, chunk) := by
    rw [hidle]
    simp [TilePipeline.onHand, hpc, Producer.active]
  refine List.pairwise_append.mpr ⟨hs, List.pairwise_singleton _ _, fun x hx y hy => ?_⟩
  obtain rfl := List.mem_singleton.mp hy
  rintro rfl
  exact (hv.onHand b _ hon x.2).mp hx

/-- What has been waited for stays so, as no counter is lowered. -/
theorem Supplied.keep (hs : s.Supplied) (hv : s.Valid) (hg : s.grid.Valid p.toLaunch)
    (hsent : ∀ x ∈ s.sent, x ∈ t.sent)
    (hmono : ∀ tile < maxTiles, s.ring.loop.backend.data.dTileChunkDone tile ≤
      t.ring.loop.backend.data.dTileChunkDone tile) {b : Fin p.blocks} {y : Nat × Nat}
    (hy : y ∈ (s.grid.block b).waited) :
    (∃ c, y.2 = (c + 1) * p.tokensPerChunk ∧ (y.1, c) ∈ t.sent) ∧
      y.2 ≤ t.ring.loop.backend.data.dTileChunkDone y.1 := by
  obtain ⟨⟨c, hc, hmem⟩, hle⟩ := hs.waited b y hy
  have htile : y.1 < maxTiles := (hv.tile_lt hg hmem).trans_le p.tiles_le
  exact ⟨⟨c, hc, hsent _ hmem⟩, hle.trans (hmono y.1 htile)⟩

theorem supplied_step (hc : cfg.Tiled) (hv : s.Valid) (hg : s.grid.Valid p.toLaunch) (hs : s.Supplied)
    (hmono : ∀ tile < maxTiles, s.ring.loop.backend.data.dTileChunkDone tile ≤
      t.ring.loop.backend.data.dTileChunkDone tile) {a : Act cfg p} (h : s.step a = some t) :
    t.Supplied := by
  have hsame : t.grid = s.grid → (∀ x ∈ s.sent, x ∈ t.sent) → ∀ b, ∀ y ∈ (t.grid.block b).waited,
      (∃ c, y.2 = (c + 1) * p.tokensPerChunk ∧ (y.1, c) ∈ t.sent) ∧
        y.2 ≤ t.ring.loop.backend.data.dTileChunkDone y.1 := by
    intro hgrid hsent b y hy
    rw [hgrid] at hy
    exact hs.keep hv hg hsent hmono hy
  -- a warp's step records its wait, if that returns
  have hwarp : ∀ b w, s.grid.step p.toLaunch (.warp b w) = some t.grid → t.sent = s.sent →
      (∀ tile chunk, (s.grid.block b).warp w = .waitChunk tile chunk →
        (chunk + 1) * p.tokensPerChunk ≤ t.ring.loop.backend.data.dTileChunkDone tile) →
      ∀ c, ∀ y ∈ (t.grid.block c).waited, (∃ k, y.2 = (k + 1) * p.tokensPerChunk ∧ (y.1, k) ∈ t.sent) ∧
        y.2 ≤ t.ring.loop.backend.data.dTileChunkDone y.1 := by
    intro b w hstep hsent hreached c y hy
    obtain ⟨hw, r, hr, hgrid⟩ := grid_warp hstep
    rw [hgrid] at hy
    dsimp only at hy
    by_cases hcb : c = b
    · subst hcb
      rw [Function.update_self] at hy
      rcases waited_warpStep hr with he | ⟨tile, chunk, hpc, he⟩ <;> rw [he] at hy
      · exact hs.keep hv hg (fun x hx => hsent ▸ hx) hmono hy
      · rcases List.mem_append.mp hy with hy | hy
        · exact hs.keep hv hg (fun x hx => hsent ▸ hx) hmono hy
        · obtain rfl := List.mem_singleton.mp hy
          obtain ⟨l, cur, hblock⟩ := hg.block c
          have hok := hblock.warps w hw
          rw [hpc] at hok
          obtain rfl : w = 0 := hok.1
          have hon := hv.onHand c (tile, chunk + 1) (by simp only [TilePipeline.onHand, hpc])
          exact ⟨⟨chunk, rfl, hsent ▸ (hon chunk).mpr (Nat.lt_succ_self _)⟩, hreached tile chunk hpc⟩
    · rw [Function.update_of_ne hcb] at hy
      exact hs.keep hv hg (fun x hx => hsent ▸ hx) hmono hy
  cases a with
  | warp b w =>
    simp only [step] at h
    split at h
    · cases h
    · rename_i hpc
      split at h
      · rename_i hreached
        rw [Config.chunkDone, if_pos hc.dTileChunkDone] at hreached
        obtain ⟨g, hstep, rfl⟩ := Option.map_eq_some_iff.mp h
        refine ⟨hs.ordered, hwarp b w hstep rfl fun tile' chunk' hwait => ?_⟩
        cases hpc.symm.trans hwait
        exact hreached
      · cases h
    · rename_i hnot
      obtain ⟨g, hstep, rfl⟩ := Option.map_eq_some_iff.mp h
      exact ⟨hs.ordered, hwarp b w hstep rfl fun tile' chunk' hwait => absurd hwait (hnot tile' chunk')⟩
  | sync b =>
    obtain ⟨g, hstep, rfl⟩ := Option.map_eq_some_iff.mp h
    obtain ⟨b', hb', rfl⟩ := Option.map_eq_some_iff.mp hstep
    refine ⟨hs.ordered, fun c y hy => hs.keep hv hg (fun _ hx => hx) hmono (b := c) ?_⟩
    dsimp only at hy
    by_cases hcb : c = b
    · subst hcb
      rw [Function.update_self] at hy
      unfold Block.sync at hb'
      split at hb'
      · cases hb'
        exact hy
      · cases hb'
    · rwa [Function.update_of_ne hcb] at hy
  | reserve b =>
    simp only [step] at h
    split at h
    · rename_i hpc
      obtain ⟨r, hr, rfl⟩ := Option.map_eq_some_iff.mp h
      exact ⟨ordered_reserve hv hs.ordered hpc hr, hsame rfl fun x hx => List.mem_append_left _ hx⟩
    · cases h
  | send a =>
    simp only [step] at h
    split at h
    · obtain ⟨r, hr, rfl⟩ := Option.map_eq_some_iff.mp h
      exact ⟨hs.ordered, hsame rfl fun _ hx => hx⟩
    · cases h
  | release b =>
    simp only [step] at h
    split at h
    · rename_i hpc
      obtain ⟨r, hr, h⟩ := Option.bind_eq_some_iff.mp h
      obtain ⟨g, hstep, rfl⟩ := Option.map_eq_some_iff.mp h
      refine ⟨hs.ordered, hwarp b 0 hstep rfl fun tile' chunk' hwait => ?_⟩
      cases hpc.symm.trans hwait
    · cases h
  | loop a =>
    simp only [step] at h
    split at h
    · cases h
    · cases h
    · obtain ⟨r, hr, rfl⟩ := Option.map_eq_some_iff.mp h
      exact ⟨hs.ordered, hsame rfl fun _ hx => hx⟩

/-- Before a slot of a chunk a tile has the slots of its chunks before that one. -/
theorem Valid.countP_before (hv : s.Valid) (hg : s.grid.Valid p.toLaunch)
    (hord : s.sent.Pairwise fun x y => x.1 = y.1 → x.2 < y.2) {n tile chunk : Nat}
    (hn : s.sent[n]? = some (tile, chunk)) (i : Nat) :
    (List.range (p.tokensPerChunk * n + i)).countP (fun x => (s.ring.descriptor x).group == tile) ≤
      chunk * p.tokensPerChunk + i := by
  have hlt := (List.getElem?_eq_some_iff.mp hn).1
  have hchunks : (List.range (p.tokensPerChunk * n)).countP (fun x => (s.ring.descriptor x).group == tile) =
      p.tokensPerChunk * (s.sent.take n).countP (·.1 == tile) := by
    have hlen : (s.sent.take n).length = n := List.length_take_of_le (Nat.le_of_lt hlt)
    have h := countP_chunks (s.sent.take n) p.tokensPerChunk
      (fun x => (s.ring.descriptor x).group == tile) (fun x => x.1 == tile) fun m y hm j hj => by
        have hy := Device.getElem?_of_prefix (List.take_prefix n s.sent) hm
        rw [Ring.descriptor, hv.plan m y hy j hj,
          group_descriptor p ((hv.tile_lt hg (List.mem_of_getElem? hy)).trans_le p.tiles_le)]
    rwa [hlen] at h
  have hbefore : (s.sent.take n).countP (·.1 == tile) ≤ chunk := by
    rw [← List.take_append_drop n s.sent, List.pairwise_append] at hord
    obtain ⟨htake, -, hacross⟩ := hord
    have hmem : (tile, chunk) ∈ s.sent.drop n := by
      rw [List.drop_eq_getElem_cons hlt, (List.getElem?_eq_some_iff.mp hn).2]
      exact List.mem_cons_self
    have htile : ∀ {y}, y ∈ (s.sent.take n).filter (·.1 == tile) → y ∈ s.sent.take n ∧ y.1 = tile := fun hy =>
      (List.mem_filter.mp hy).imp_right beq_iff_eq.mp
    have hrising : (((s.sent.take n).filter (·.1 == tile)).map Prod.snd).Pairwise (· < ·) :=
      List.pairwise_map.mpr ((htake.sublist List.filter_sublist).imp_of_mem fun hy hz h =>
        h ((htile hy).2.trans (htile hz).2.symm))
    have hle := length_le_of_rising hrising (n := chunk) (List.forall_mem_map.mpr fun y hy =>
      hacross y (htile hy).1 _ hmem (htile hy).2)
    rwa [List.length_map, ← List.countP_eq_length_filter] at hle
  rw [List.range_add, List.countP_append, hchunks]
  have hrest := List.countP_le_length (p := fun x => (s.ring.descriptor x).group == tile)
    (l := (List.range i).map (p.tokensPerChunk * n + ·))
  rw [List.length_map, List.length_range] at hrest
  have := Nat.mul_le_mul_left p.tokensPerChunk hbefore
  rw [Nat.mul_comm _ chunk] at this
  omega

/-! ## Every run -/

/-- The thread counts a tile when no copy of its cell is queued. -/
def Fresh (s : TilePipeline cfg p) : Act cfg p → Prop
  | .loop a => cfg.Allowed TileArrivals.Fresh s.ring.loop (.loop a)
  | _ => True

instance (s : TilePipeline cfg p) (a : Act cfg p) : Decidable (Fresh s a) :=
  match a with
  | .loop a => inferInstanceAs (Decidable (cfg.Allowed TileArrivals.Fresh s.ring.loop (.loop a)))
  | .warp .. | .sync _ | .reserve _ | .send _ | .release _ => .isTrue trivial

theorem loop_of_fresh {a : Act cfg p} (hc : Fresh s a) (h : s.step a = some t) :
    t.ring.loop = s.ring.loop ∨
      ∃ o, cfg.Allowed TileArrivals.Fresh s.ring.loop o ∧ s.ring.loop.openStep o = some t.ring.loop := by
  cases a with
  | warp b w =>
    simp only [step] at h
    split at h
    · cases h
    · split at h
      · obtain ⟨g, -, rfl⟩ := Option.map_eq_some_iff.mp h
        exact .inl rfl
      · cases h
    · obtain ⟨g, -, rfl⟩ := Option.map_eq_some_iff.mp h
      exact .inl rfl
  | sync b =>
    obtain ⟨g, -, rfl⟩ := Option.map_eq_some_iff.mp h
    exact .inl rfl
  | reserve b =>
    simp only [step] at h
    split at h
    · obtain ⟨r, hr, rfl⟩ := Option.map_eq_some_iff.mp h
      exact QueueDelivery.loop_step (fun _ ha => by cases ha) hr
    · cases h
  | send a =>
    simp only [step] at h
    split at h
    · rename_i hstores
      obtain ⟨r, hr, rfl⟩ := Option.map_eq_some_iff.mp h
      refine QueueDelivery.loop_step (fun l ha => ?_) hr
      subst ha
      cases hstores
    · cases h
  | release b =>
    simp only [step] at h
    split at h
    · obtain ⟨r, hr, h⟩ := Option.bind_eq_some_iff.mp h
      obtain ⟨g, -, rfl⟩ := Option.map_eq_some_iff.mp h
      exact QueueDelivery.loop_step (fun _ ha => by cases ha) hr
    · cases h
  | loop a =>
    simp only [step] at h
    split at h
    · cases h
    · cases h
    · obtain ⟨r, hr, rfl⟩ := Option.map_eq_some_iff.mp h
      refine QueueDelivery.loop_step (fun l ha => ?_) hr
      cases ha
      exact hc

variable {user mem : Nat → UInt8} {staging : Nat → Nat → UInt8}

theorem counted_of_fresh (hc : cfg.Tiled) (hf : p.Fits)
    (hs : Reachable step Fresh (· = init cfg p (.init user staging mem)) s) :
    Counted user s.ring.loop := by
  have hfrom : ReachableFrom step (init cfg p (.init user staging mem)) s := hs.mono fun _ _ _ => trivial
  have hv := valid_of_reachable hc.tiledQueue hfrom
  have hg := gridValid_of_reachable hfrom
  have hloop : Reachable Loop.openStep (cfg.Allowed TileArrivals.Fresh)
      (· = cfg.start (.init user staging mem)) s.ring.loop :=
    hs.project (fun s => s.ring.loop) (by rintro _ rfl; rfl) fun _ _ _ hc h => loop_of_fresh hc h
  refine TileArrivals.counted_of_attended hc (Loop.base_of_reachable hloop)
    (TileArrivals.attended_of_reachable hc hloop) ?_
  exact (hv.transferable hg hf).sublist ((QueueDelivery.sent_sublist _).trans (List.sublist_append_left _ _))

theorem supplied_of_fresh (hc : cfg.Tiled) (hf : p.Fits)
    (hs : Reachable step Fresh (· = init cfg p (.init user staging mem)) s) : s.Supplied := by
  induction hs with
  | initial hs =>
    subst hs
    exact ⟨List.Pairwise.nil, fun _ _ hy => absurd hy List.not_mem_nil⟩
  | @step s t hs a ha hst ih =>
    have hfrom : ReachableFrom step (init cfg p (.init user staging mem)) s := hs.mono fun _ _ _ => trivial
    have hv := valid_of_reachable hc.tiledQueue hfrom
    have hg := gridValid_of_reachable hfrom
    refine supplied_step hc hv hg ih (fun tile ht => ?_) hst
    rcases loop_of_fresh ha hst with he | ⟨o, -, ho⟩
    · rw [he]
    · exact (counted_of_fresh hc hf hs).mono tile ht (hv.ofTile_lt hg tile) o _ ho

/-- **`compute_fn` is called on chunks that have arrived.**  In every state of a run, every token of
every chunk that a compute warp has been called on is in the GPU buffer. -/
theorem computed_of_reachable (hc : cfg.Tiled) (hf : p.Fits)
    (hs : Reachable step Fresh (· = init cfg p (.init user staging mem)) s) {b : Fin p.blocks}
    {x : TileLoop.Call} (hx : x ∈ (s.grid.block b).calls) {i : Nat} (hi : i < p.tokensPerChunk) {k : Nat}
    (hk : k < p.tokenSize) :
    s.ring.loop.backend.data.gpu (p.gpuBase + p.token x.tile x.chunk i * p.tokenSize + k) =
      user (p.cpuBase + p.token x.tile x.chunk i * p.tokenSize + k) := by
  have hfrom : ReachableFrom step (init cfg p (.init user staging mem)) s := hs.mono fun _ _ _ => trivial
  have hv := valid_of_reachable hc.tiledQueue hfrom
  have hg := gridValid_of_reachable hfrom
  have hcounted := counted_of_fresh hc hf hs
  have hsupplied := supplied_of_fresh hc hf hs
  have hpos := p.tokens_pos
  obtain ⟨l, cur, hblock⟩ := hg.block b
  obtain ⟨⟨c, hend, hsent⟩, hle⟩ := hsupplied.waited b _ (hblock.calls_waited x hx)
  dsimp only at hend hsent hle
  obtain rfl : x.chunk = c := Nat.succ.inj (Nat.eq_of_mul_eq_mul_right hpos hend)
  obtain ⟨n, hn⟩ := List.mem_iff_getElem?.mp hsent
  have htile := hv.tile_lt hg hsent
  have hchunk := (hv.range _ hsent).1
  have hbefore := hv.countP_before hg hsupplied.ordered hn i
  have hin : p.tokensPerChunk * n + i < s.ring.writeIdx := by
    have hstep : p.tokensPerChunk * (n + 1) ≤ p.tokensPerChunk * s.sent.length :=
      Nat.mul_le_mul_left _ (List.getElem?_eq_some_iff.mp hn).1
    rw [Nat.mul_succ, ← hv.writeIdx] at hstep
    omega
  obtain ⟨m, -, hflat⟩ := hv.flushed_eq
  have hmem : s.ring.descriptor (p.tokensPerChunk * n + i) ∈ (ofTile s.ring.loop.flushed x.tile).take
      (s.ring.loop.backend.data.dTileChunkDone x.tile) := by
    have hcount := hcounted.le x.tile (htile.trans_le p.tiles_le)
    rw [Nat.succ_mul] at hle
    unfold ofTile at hcount ⊢
    rw [hflat] at hcount ⊢
    rw [← List.countP_eq_length_filter, List.countP_map] at hcount
    have hm : p.tokensPerChunk * n + i < m := by
      refine Nat.lt_of_not_le fun hge => ?_
      have := (List.range_sublist.mpr hge).countP_le (p := fun y => (s.ring.descriptor y).group == x.tile)
      have : (List.range m).countP (fun y => (s.ring.descriptor y).group == x.tile) =
        (List.range m).countP ((fun d : Descriptor => d.group == x.tile) ∘ s.ring.descriptor) := rfl
      omega
    refine mem_take_filter (i := p.tokensPerChunk * n + i) ?_ ?_ ?_
    · rw [List.getElem?_map, List.getElem?_range hm]
      rfl
    · rw [Ring.descriptor, hv.plan n _ hn i hi, group_descriptor p (htile.trans_le p.tiles_le)]
      exact beq_self_eq_true _
    · rw [← List.map_take, List.take_range, Nat.min_eq_left (Nat.le_of_lt hm), List.countP_map]
      exact Nat.lt_of_le_of_lt hbefore (by omega)
  have harrived := hcounted.arrived x.tile (htile.trans_le p.tiles_le) _ hmem k
  rw [Ring.descriptor, hv.plan n _ hn i hi] at harrived
  obtain ⟨hsrc, hdst, -⟩ := hf.fields htile hchunk hi
  have hbyte := harrived hk
  rw [← hsrc, ← hdst]
  exact hbyte

section Example

/-- The launch of two blocks, on buffers of words of four bytes. -/
private def twoTiles : KernelLaunch :=
  { twoBlocks with tokenSize := 4, cpuBase := 4096, gpuBase := 8192 }

private def one : Fin twoTiles.blocks := ⟨0, Nat.two_pos⟩

private def other : Fin twoTiles.blocks := ⟨1, Nat.one_lt_two⟩

private def fieldsOf : List Field := [.srcAddr, .dstAddr, .size, .userData, .flags]

/-- A block takes a tile and sends its first chunk. -/
private def sendChunk (b : Fin twoTiles.blocks) : List (Act Config.plainTiled twoTiles) :=
  [[.warp b 0, .warp b 0, .warp b 0, .warp b 0, .sync b, .warp b 0, .warp b 0, .warp b 1, .warp b 1,
      .reserve b],
    [.send (.wait b)], fieldsOf.map fun f => .send (.write b 0 f),
    [.send (.fence b), .send (.commit b 0), .release b]].flatten

/-- The thread pops a chunk and flushes it. -/
private def flushChunk : List (Act Config.plainTiled twoTiles) :=
  (List.replicate 2 Loop.Act.poll ++ fieldsOf.map Loop.Act.load ++ List.replicate 4 Loop.Act.poll ++
    (List.replicate 12 Script.Act.perform).map fun a =>
      Loop.Act.backend (show Config.plainTiled.backend.Act from a)).map Act.loop

/-- The device performs both data copies, and for each chunk the wait and the copy of the signal. -/
private def copyChunks : List (Act Config.plainTiled twoTiles) :=
  [Stream.ce 0, .ce 0, .signal, .signal, .signal, .signal].map fun st =>
    .loop (.backend (show Config.plainTiled.backend.Act from .env (HostEnv.advance st)))

/-- A block finds its chunk done, and its first compute warp calls `compute_fn`. -/
private def computeChunk (b : Fin twoTiles.blocks) : List (Act Config.plainTiled twoTiles) :=
  [.warp b 0, .warp b 0, .warp b 1, .warp b 1]

/-- The user's memory, byte by byte. -/
private def counting (a : Nat) : UInt8 := a.toUInt8

private def launched : TilePipeline Config.plainTiled twoTiles :=
  init _ _ (.init counting (fun _ _ => 0) fun _ => 0)

/-- Two blocks work on a tile each. Both chunks are queued before the first copy is made. -/
theorem computed_of_reachable_two : ∃ s, Reachable step Fresh (· = launched) s ∧
    (s.grid.block one).calls = [⟨1, 0, 1⟩] ∧ (s.grid.block other).calls = [⟨0, 0, 1⟩] ∧
      s.ring.loop.backend.data.gpu 8201 = 9 ∧ s.ring.loop.backend.data.gpu 8193 = 1 := by
  have h : (runWhile step Fresh launched (sendChunk other ++ sendChunk one ++ flushChunk ++
      [.loop .poll] ++ flushChunk ++ copyChunks ++ computeChunk one ++ computeChunk other)).map
      (fun s => ((s.grid.block one).calls, (s.grid.block other).calls)) =
      some ([⟨1, 0, 1⟩], [⟨0, 0, 1⟩]) := by
    decide +kernel
  obtain ⟨s, hs, hcalls⟩ := Option.map_eq_some_iff.mp h
  obtain ⟨hone, hother⟩ := Prod.mk.inj hcalls
  have hreach := (Reachable.self launched).runWhile hs
  have hfits : twoTiles.Fits := ⟨by decide, by decide, by decide⟩
  have hbyte := computed_of_reachable ⟨rfl, rfl, rfl, rfl, rfl, rfl⟩ hfits hreach (x := ⟨1, 0, 1⟩)
    (by rw [hone]; exact List.mem_cons_self) (i := 0) Nat.one_pos (k := 1)
    (show 1 < twoTiles.tokenSize by decide)
  have hbyte' := computed_of_reachable ⟨rfl, rfl, rfl, rfl, rfl, rfl⟩ hfits hreach (x := ⟨0, 0, 1⟩)
    (by rw [hother]; exact List.mem_cons_self) (i := 0) Nat.one_pos (k := 1)
    (show 1 < twoTiles.tokenSize by decide)
  exact ⟨s, hreach, hone, hother, hbyte, hbyte'⟩

end Example

end TilePipeline
end Gfd
