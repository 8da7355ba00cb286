import GfdProof.RingProgress
import GfdProof.PollingProgress
import GfdProof.TileLoop
import GfdProof.TileSignals

/-! # The single-buffer tiled pipeline

The blocks of `_warp_spec_tile_loop`, the descriptor ring, the polling loop and
its calls in one system.  Warp 0 of a block sends a chunk by reserving its slots,
waiting for room, storing the descriptors and their sequences, and then waits
until the tile's counter has reached the end of the chunk; the counter is raised
by copies that the polling thread queues when it flushes.

No configuration of these waits is stuck (`progress_of_reachable`).  The order
behind it is that of the slots: the producer of the slot at `read_idx` never
waits for another, and when every slot has been popped and every copy performed,
every counter has reached what its block waits for.  The second half needs the
counts to be exact, and that no descriptor is left in a partial batch: a chunk
ends with a flag that makes the thread flush.

All this is with the signal stream that `init_copy_engine` creates.  When it
could not be created, the thread raises the counters of the host, and a block
waits for those of the device (`exists_stuck`).
-/
namespace Gfd

open Transition WorkStreams Script.Machine TileLoop

/-! ## The system -/

/-- A launch of the kernel: what its blocks read of the scheduler and of their arguments. -/
structure KernelLaunch extends Launch where
  blocks : Nat
  tokensPerTile : Nat
  tokenSize : Nat
  cpuBase : Nat
  gpuBase : Nat
  blocks_pos : 0 < blocks
  blocks_lt : blocks < 2 ^ 31
  tiles_le : totalTiles ≤ maxTiles
  tokens_pos : 1 ≤ tokensPerChunk
  tokens : tokensPerChunk * chunksPerTile = tokensPerTile
  tokens_lt : tokensPerTile < 2 ^ 32

/-- The fields `write_chunk` stores for descriptor `i` of a chunk. -/
def KernelLaunch.descriptor (p : KernelLaunch) (tile chunk i : Nat) : Field → Nat :=
  let localToken := (chunk * p.tokensPerChunk + i) % 2 ^ 32
  let globalIdx := (tile * p.tokensPerTile + localToken) % 2 ^ 32
  let last := i = p.tokensPerChunk - 1
  fun
  | .srcAddr => word (p.cpuBase + globalIdx * p.tokenSize)
  | .dstAddr => word (p.gpuBase + globalIdx * p.tokenSize)
  | .size => p.tokenSize
  | .userData => word (tile <<< 32) ||| globalIdx
  | .flags => (if last then flagLastInTile else flagNone) |||
      if last ∧ chunk = p.tokensPerTile / p.tokensPerChunk - 1 then flagLastChunkInTile else flagNone

/-- The tile counter does not wrap. -/
theorem KernelLaunch.limit (p : KernelLaunch) :
    p.totalTiles + Fintype.card (Fin p.blocks) ≤ 2 ^ 32 := by
  have h1 := p.tiles_le
  have h2 := p.blocks_lt
  rw [Fintype.card_fin]
  unfold maxTiles at h1
  omega

/-- A producer past its reservation. -/
def Producer.active : Producer → Bool
  | .idle => false
  | _ => true

/-- The descriptors of its reservation. -/
def Producer.Sized (count : Nat) : Producer → Prop
  | .idle => True
  | .waiting _ n | .writing _ n _ | .committing _ n _ => n = count

/-- The counter `wait_chunk_done` polls. -/
def Config.chunkDone (cfg : Config) (s : Host) (tile : Nat) : Nat :=
  if cfg.dTileChunkDone then s.dTileChunkDone tile else s.tileChunkDone tile

/-- Blocks, ring, polling thread and device.  `sent` are the chunks whose slots have been reserved,
in order. -/
structure TilePipeline (cfg : Config) (p : KernelLaunch) where
  grid : Grid (Fin p.blocks)
  ring : Ring (Fin p.blocks) cfg.backend
  sent : List (Nat × Nat)

namespace TilePipeline

variable {cfg : Config} {p : KernelLaunch}

def init (cfg : Config) (p : KernelLaunch) (h : Host) : TilePipeline cfg p where
  grid := Grid.init
  ring := Ring.init (show cfg.backend.State from ⟨h, []⟩)
  sent := []

inductive Act (cfg : Config) (p : KernelLaunch)
  /-- A warp that is not sending. -/
  | warp (b : Fin p.blocks) (w : Nat)
  | sync (b : Fin p.blocks)
  /-- `acquire_chunk_slots` by warp 0. -/
  | reserve (b : Fin p.blocks)
  /-- Warp 0 passes the backpressure test, stores to the ring, or fences. -/
  | send (a : Ring.Act (Fin p.blocks) cfg.backend)
  /-- Warp 0 has committed the chunk. -/
  | release (b : Fin p.blocks)
  /-- The polling thread, its calls and the device. -/
  | loop (a : Loop.Act cfg.backend)

/-- One step.  A wait that is not over is no step; nobody calls `start()` or `stop()` while the kernel
runs. -/
def step (s : TilePipeline cfg p) : Act cfg p → Option (TilePipeline cfg p)
  | .warp b w =>
    let moved := (s.grid.step p.toLaunch (.warp b w)).map fun g => { s with grid := g }
    match (s.grid.block b).warp w with
    | .submit _ _ => none
    | .waitChunk tile chunk =>
      if (chunk + 1) * p.tokensPerChunk ≤ cfg.chunkDone s.ring.loop.backend.data tile then moved
      else none
    | _ => moved
  | .sync b => (s.grid.step p.toLaunch (.sync b)).map fun g => { s with grid := g }
  | .reserve b =>
    match (s.grid.block b).warp 0 with
    | .submit tile chunk =>
      (s.ring.step (.reserve b p.tokensPerChunk (p.descriptor tile chunk))).map fun r =>
        { s with ring := r, sent := s.sent ++ [(tile, chunk)] }
    | _ => none
  | .send a => if a.stores then (s.ring.step a).map fun r => { s with ring := r } else none
  | .release b =>
    match (s.grid.block b).warp 0 with
    | .submit _ _ =>
      (s.ring.step (.release b)).bind fun r =>
        (s.grid.step p.toLaunch (.warp b 0)).map fun g => { s with ring := r, grid := g }
    | _ => none
  | .loop a =>
    match a with
    | .start | .stop => none
    | _ => (s.ring.step (.loop a)).map fun r => { s with ring := r }

/-- A poll that finds nothing. -/
def Futile (s : TilePipeline cfg p) : Act cfg p → Prop
  | .loop a => s.ring.loop.Futile a
  | _ => False

/-- Every chunk of the tile has been computed. -/
def Finished (s : TilePipeline cfg p) (tile : Nat) : Prop :=
  ∃ b, tile ∈ (s.grid.block b).acquired ∧ ∀ c < p.chunksPerTile,
    (⟨tile, c, c + 1⟩ : TileLoop.Call) ∈ (s.grid.block b).calls ∧
      (s.grid.block b).warp (c + 1) ≠ .inCall tile

/-- What a step does, by its kind. -/
inductive Effect (s t : TilePipeline cfg p) : Prop
  | warp (b : Fin p.blocks) (w : Nat) (hpc : ∀ tile chunk, (s.grid.block b).warp w ≠ .submit tile chunk)
      (hg : s.grid.step p.toLaunch (.warp b w) = some t.grid) (hr : t.ring = s.ring)
      (hs : t.sent = s.sent)
  | sync (b : Fin p.blocks) (hg : s.grid.step p.toLaunch (.sync b) = some t.grid)
      (hr : t.ring = s.ring) (hs : t.sent = s.sent)
  | reserve (b : Fin p.blocks) (tile chunk : Nat) (hpc : (s.grid.block b).warp 0 = .submit tile chunk)
      (hr : s.ring.step (.reserve b p.tokensPerChunk (p.descriptor tile chunk)) = some t.ring)
      (hg : t.grid = s.grid) (hs : t.sent = s.sent ++ [(tile, chunk)])
  | send (a : Ring.Act (Fin p.blocks) cfg.backend) (ha : a.stores = true)
      (hr : s.ring.step a = some t.ring) (hg : t.grid = s.grid) (hs : t.sent = s.sent)
  | release (b : Fin p.blocks) (tile chunk : Nat) (hpc : (s.grid.block b).warp 0 = .submit tile chunk)
      (hr : s.ring.step (.release b) = some t.ring)
      (hg : s.grid.step p.toLaunch (.warp b 0) = some t.grid) (hs : t.sent = s.sent)
  | loop (a : Loop.Act cfg.backend) (h1 : a ≠ .start) (h2 : a ≠ .stop)
      (hr : s.ring.step (.loop a) = some t.ring) (hg : t.grid = s.grid) (hs : t.sent = s.sent)

theorem step_effect {s t : TilePipeline cfg p} {a : Act cfg p} (h : s.step a = some t) :
    Effect s t := by
  cases a with
  | warp b w =>
    simp only [step] at h
    split at h
    · cases h
    · rename_i hpc
      split at h
      · obtain ⟨g, hg, rfl⟩ := Option.map_eq_some_iff.mp h
        exact .warp b w (fun _ _ he => by rw [hpc] at he; cases he) hg rfl rfl
      · cases h
    · rename_i hpc _
      obtain ⟨g, hg, rfl⟩ := Option.map_eq_some_iff.mp h
      exact .warp b w hpc hg rfl rfl
  | sync b =>
    obtain ⟨g, hg, rfl⟩ := Option.map_eq_some_iff.mp h
    exact .sync b hg rfl rfl
  | reserve b =>
    simp only [step] at h
    split at h
    · obtain ⟨r, hr, rfl⟩ := Option.map_eq_some_iff.mp h
      exact .reserve b _ _ ‹_› hr rfl rfl
    · cases h
  | send a =>
    simp only [step] at h
    split at h
    · obtain ⟨r, hr, rfl⟩ := Option.map_eq_some_iff.mp h
      exact .send a ‹_› hr rfl rfl
    · cases h
  | release b =>
    simp only [step] at h
    split at h
    · obtain ⟨r, hr, h⟩ := Option.bind_eq_some_iff.mp h
      obtain ⟨g, hg, rfl⟩ := Option.map_eq_some_iff.mp h
      exact .release b _ _ ‹_› hr hg rfl
    · cases h
  | loop a =>
    simp only [step] at h
    split at h
    · cases h
    · cases h
    · rename_i h1 h2
      obtain ⟨r, hr, rfl⟩ := Option.map_eq_some_iff.mp h
      exact .loop a h1 h2 hr rfl rfl

/-! ## The parts of the system -/

theorem Effect.grid {s t : TilePipeline cfg p} (h : Effect s t) :
    t.grid = s.grid ∨ ∃ g, s.grid.step p.toLaunch g = some t.grid := by
  cases h with
  | warp _ _ _ hg | sync _ hg | release _ _ _ _ _ hg => exact .inr ⟨_, hg⟩
  | reserve _ _ _ _ _ hg | send _ _ _ hg | loop _ _ _ _ hg => exact .inl hg

theorem Effect.ring {s t : TilePipeline cfg p} (h : Effect s t) :
    t.ring = s.ring ∨ ∃ r, r ≠ .loop .start ∧ r ≠ .loop .stop ∧ s.ring.step r = some t.ring := by
  cases h with
  | warp _ _ _ _ hr | sync _ _ hr => exact .inl hr
  | reserve b tile chunk _ hr => exact .inr ⟨.reserve b _ _, nofun, nofun, hr⟩
  | release b _ _ _ hr => exact .inr ⟨.release b, nofun, nofun, hr⟩
  | send a ha hr =>
    refine .inr ⟨a, ?_, ?_, hr⟩ <;>
      · intro he
        rw [he] at ha
        cases ha
  | loop a h1 h2 hr =>
    exact .inr ⟨.loop a, fun he => h1 (Ring.Act.loop.inj he), fun he => h2 (Ring.Act.loop.inj he), hr⟩

/-- Every run of the system is one of the grid, and one of the loop beside stores to its ring. -/
theorem grid_of_reachable {h : Host} {s : TilePipeline cfg p}
    (hs : ReachableFrom step (init cfg p h) s) : ReachableFrom (Grid.step p.toLaunch) Grid.init s.grid :=
  hs.project TilePipeline.grid (by rintro _ rfl; rfl) fun _ _ _ _ hst =>
    (step_effect hst).grid.imp_right fun ⟨g, hg⟩ => ⟨g, trivial, hg⟩

theorem loop_of_reachable {h : Host} {s : TilePipeline cfg p}
    (hs : ReachableFrom step (init cfg p h) s) :
    ReachableFrom Loop.openStep (cfg.start h) s.ring.loop :=
  hs.project (fun s => s.ring.loop) (by rintro _ rfl; rfl) fun _ _ _ _ hst => by
    rcases (step_effect hst).ring with hr | ⟨r, -, -, hr⟩
    · exact .inl (congrArg _ hr)
    · exact (Loop.openStep_of_ring hr).imp_right fun h => by
        obtain ⟨o, -, ho⟩ := h
        exact ⟨o, trivial, ho⟩

/-! ## The chunks sent -/

/-- The tile warp 0 is at and the number of its chunks whose slots have been reserved, where
`sending` says that those of the chunk at hand are. -/
def onHand (b : Block) (sending : Bool) : Option (Nat × Nat) :=
  match b.warp 0 with
  | .storeTile tile | .resetReady tile | .resetDone tile => some (tile, 0)
  | .enter | .check | .loadTile => some (b.tileId, 0)
  | .submit tile chunk => some (tile, if sending then chunk + 1 else chunk)
  | .waitChunk tile chunk | .ready tile chunk => some (tile, chunk + 1)
  | _ => none

section OnHand
variable {q : Launch} {n : Nat} {b : Block} {l : List Nat} {cur : Option Nat} {sending : Bool}

/-- The tile at hand is the block's, or past the last. -/
theorem onHand_owned (hv : b.Valid q n l cur) {tile k : Nat} (h : onHand b sending = some (tile, k)) :
    tile ∈ b.acquired ∨ q.totalTiles ≤ tile := by
  have hge := q.warps_ge
  have hok := hv.warps 0 (by omega)
  have hclaimed : ∀ {x}, Block.Claimed q n cur x → x ∈ b.acquired ∨ q.totalTiles ≤ x := by
    rintro x (⟨-, hc⟩ | ⟨hle, -⟩)
    · left
      rw [hv.acquired, hc]
      exact List.mem_append_right _ (List.mem_singleton.mpr rfl)
    · exact .inr hle
  have hcur : ∀ {x}, cur = some x → x ∈ b.acquired ∨ q.totalTiles ≤ x := by
    intro x hc
    left
    rw [hv.acquired, hc]
    exact List.mem_append_right _ (List.mem_singleton.mpr rfl)
  unfold onHand at h
  split at h <;> cases h <;> rename_i hpc <;> rw [hpc] at hok
  · exact hclaimed hok.2
  · exact hclaimed hok.2.1
  · exact hclaimed hok.2.1
  · exact hclaimed (hok rfl).1
  · exact hclaimed hok.1
  · exact hcur hok.1
  · exact hcur hok.2.1
  · exact hcur hok.2.1
  · exact hcur hok.1.2.1

/-- A warp other than warp 0 leaves the tile at hand alone. -/
theorem onHand_other (hv : b.Valid q n l cur) {w : Nat} (hw : w < q.warps) (h0 : w ≠ 0)
    {r : Block × Nat} (h : b.warpStep q n w = some r) : onHand r.1 sending = onHand b sending := by
  have hkeep : ∀ (b' : Block) (x : Warp), b'.warp = Function.update b.warp w x →
      b'.tileId = b.tileId → onHand b' sending = onHand b sending := by
    intro b' x hwarp htile
    unfold onHand
    rw [hwarp, Function.update_of_ne (Ne.symm h0), htile]
  have hok := hv.warps w hw
  unfold Block.warpStep at h
  split at h <;> rename_i hpc <;> rw [hpc] at hok
  · exact absurd hok.1 h0
  · exact absurd hok.1 h0
  · exact absurd hok.1 h0
  · exact absurd hok.1 h0
  · cases h
  · split at h <;> cases h <;> exact hkeep _ _ rfl rfl
  · cases h; exact hkeep _ _ rfl rfl
  · exact absurd hok.1 h0
  · exact absurd hok.1 h0
  · exact absurd hok.1.1 h0
  · exact absurd hok.1 h0
  · split at h <;> cases h
    exact hkeep _ _ rfl rfl
  · cases h; exact hkeep _ _ rfl rfl
  · cases h; exact hkeep _ _ rfl rfl
  · cases h; exact hkeep _ _ rfl rfl
  · cases h
  · cases h

/-- Warp 0 goes on with the tile at hand, or takes the next one. -/
theorem onHand_zero (hv : b.Valid q n l cur) (hw : 0 < q.warps) {r : Block × Nat}
    (h : b.warpStep q n 0 = some r) {x : Nat × Nat} (hx : onHand r.1 false = some x) :
    (∃ sending, onHand b sending = some x ∧
        (sending = true → ∃ tile chunk, b.warp 0 = .submit tile chunk)) ∨
      b.warp 0 = .acquire ∧ x = (n % 2 ^ 32, 0) := by
  have hok := hv.warps 0 hw
  unfold Block.warpStep at h
  split at h <;> rename_i hpc <;> rw [hpc] at hok
  · cases h
    right
    simp only [onHand, Block.setWarp, Function.update_self, Option.some.injEq] at hx
    exact ⟨hpc, hx.symm⟩
  · cases h
    left
    simp only [onHand, Block.setWarp, Function.update_self] at hx
    exact ⟨false, by simp only [onHand, hpc, hx], by simp⟩
  · cases h
    left
    simp only [onHand, Block.setWarp, Function.update_self] at hx
    exact ⟨false, by simp only [onHand, hpc, hx], by simp⟩
  · cases h
    left
    simp only [onHand, Block.setWarp, Function.update_self] at hx
    exact ⟨false, by simp only [onHand, hpc, ← hok.2.2.1, hx], by simp⟩
  · cases h
  · left
    split at h <;> cases h <;> simp only [onHand, Block.setWarp, Function.update_self] at hx
    · cases hx
    · exact ⟨false, by simp only [onHand, hpc, hx], by simp⟩
  · cases h
    left
    have hrole : Block.role q 0 b.tileId = .submit b.tileId 0 := if_pos (Nat.lt_of_succ_le q.chunks_pos)
    simp only [onHand, Block.setWarp, Function.update_self, hrole] at hx
    exact ⟨false, by simp only [onHand, hpc]; exact hx, by simp⟩
  · cases h
    left
    simp only [onHand, Block.setWarp, Function.update_self] at hx
    exact ⟨true, by simp only [onHand, hpc, if_true, hx], fun _ => ⟨_, _, hpc⟩⟩
  · cases h
    left
    simp only [onHand, Block.setWarp, Function.update_self] at hx
    exact ⟨false, by simp only [onHand, hpc, hx], by simp⟩
  · cases h
    left
    simp only [onHand, Block.setWarp, Function.update_self, Block.chunkLoop] at hx
    refine ⟨false, ?_, by simp⟩
    rename_i tile chunk
    by_cases hk : chunk + 1 < q.chunksPerTile
    · rw [if_pos hk] at hx
      simp only [onHand, hpc]
      exact hx
    · rw [if_neg hk] at hx
      cases hx
  · split at h <;> cases h
    simp only [onHand, Block.setWarp, Function.update_self] at hx
    cases hx
  · exact absurd hok.1.1 (Nat.lt_irrefl 0)
  · exact absurd hok.1.1.1 (Nat.lt_irrefl 0)
  · exact absurd hok.1.1.1 (Nat.lt_irrefl 0)
  · exact absurd hok.1.1.1 (Nat.lt_irrefl 0)
  · cases h
  · cases h

/-- A barrier leaves the tile at hand, if any, alone. -/
theorem onHand_sync {b' : Block} (h : b.sync q = some b') {x : Nat × Nat}
    (hx : onHand b' sending = some x) : onHand b sending = some x := by
  unfold Block.sync at h
  split at h
  · cases h
    unfold onHand at hx ⊢
    dsimp only at hx
    cases hpc : b.warp 0 <;> rw [hpc] at hx <;> exact hx
  · cases h

end OnHand

/-! ## The invariant -/

/-- What holds in every run besides what holds of its parts. -/
structure Valid (s : TilePipeline cfg p) : Prop where
  ring : s.ring.Valid
  accounted : s.ring.Accounted
  main : s.ring.loop.Main
  marked : s.ring.loop.Marked
  writeIdx : s.ring.writeIdx = p.tokensPerChunk * s.sent.length
  plan : ∀ k x, s.sent[k]? = some x → ∀ i < p.tokensPerChunk,
    s.ring.plan (p.tokensPerChunk * k + i) = p.descriptor x.1 x.2 i
  nodup : s.sent.Nodup
  range : ∀ x ∈ s.sent, x.2 < p.chunksPerTile ∧ ∃ b, x.1 ∈ (s.grid.block b).acquired
  busy : ∀ b, (s.ring.producer b).active = true →
    ∃ tile chunk, (s.grid.block b).warp 0 = .submit tile chunk
  sized : ∀ b, (s.ring.producer b).Sized p.tokensPerChunk
  onHand : ∀ b x, onHand (s.grid.block b) (s.ring.producer b).active = some x →
    ∀ c, (x.1, c) ∈ s.sent ↔ c < x.2

theorem valid_init (cfg : Config) (p : KernelLaunch) (h : Host) : (init cfg p h).Valid where
  ring := Ring.valid_init _
  accounted := Ring.accounted_init _
  main := Loop.main_init _
  marked := Loop.marked_init _
  writeIdx := rfl
  plan _ _ h := by cases h
  nodup := List.nodup_nil
  range _ h := absurd h List.not_mem_nil
  busy _ h := by cases h
  sized _ := trivial
  onHand _ _ h := by cases h

variable {s t : TilePipeline cfg p}

/-- No chunk is sent twice, so the indices stay far below their words. -/
theorem Valid.inWords (hv : s.Valid) (hg : s.grid.Valid p.toLaunch) : s.ring.InWords := by
  have hsub : s.sent.toFinset ⊆ Finset.range p.totalTiles ×ˢ Finset.range p.chunksPerTile := by
    intro x hx
    obtain ⟨hc, b, hb⟩ := hv.range x (List.mem_toFinset.mp hx)
    obtain ⟨l, cur, hblock⟩ := hg.block b
    exact Finset.mem_product.mpr ⟨Finset.mem_range.mpr (hblock.acquired_lt _ hb).1,
      Finset.mem_range.mpr hc⟩
  have hlen : s.sent.length ≤ p.totalTiles * p.chunksPerTile := by
    rw [← List.toFinset_card_of_nodup hv.nodup]
    refine (Finset.card_le_card hsub).trans (Nat.le_of_eq ?_)
    rw [Finset.card_product, Finset.card_range, Finset.card_range]
  have hwrite : s.ring.writeIdx ≤ maxTiles * 2 ^ 32 := by
    rw [hv.writeIdx]
    calc p.tokensPerChunk * s.sent.length
        ≤ p.tokensPerChunk * (p.totalTiles * p.chunksPerTile) := Nat.mul_le_mul_left _ hlen
      _ = p.totalTiles * p.tokensPerTile := by rw [← p.tokens, Nat.mul_left_comm]
      _ ≤ maxTiles * 2 ^ 32 := Nat.mul_le_mul p.tiles_le (Nat.le_of_lt p.tokens_lt)
  have hread := hv.ring.read_le
  unfold maxTiles at hwrite
  exact ⟨by unfold wordSize; omega, by unfold wordSize; omega⟩

theorem grid_warp {g g' : Grid (Fin p.blocks)} {b : Fin p.blocks} {w : Nat}
    (h : g.step p.toLaunch (.warp b w) = some g') : w < p.warps ∧
      ∃ r, (g.block b).warpStep p.toLaunch g.nextTile w = some r ∧
        g' = ⟨r.2, Function.update g.block b r.1⟩ := by
  simp only [Grid.step] at h
  split at h
  · obtain ⟨r, hr, rfl⟩ := Option.map_eq_some_iff.mp h
    exact ⟨‹_›, r, hr, rfl⟩
  · cases h

/-- A warp's step leaves the other warps where they are. -/
theorem warpStep_other {q : Launch} {n w v : Nat} {b : Block} {r : Block × Nat} (hne : v ≠ w)
    (h : b.warpStep q n w = some r) : r.1.warp v = b.warp v := by
  unfold Block.warpStep at h
  split at h
  case h_5 | h_16 | h_17 => cases h
  case h_6 | h_11 | h_12 => split at h <;> cases h <;> exact Function.update_of_ne hne _ _
  all_goals
    cases h
    exact Function.update_of_ne hne _ _

/-! ## Steps of the blocks -/

theorem valid_warp (hv : s.Valid) (hg : s.grid.Valid p.toLaunch) {b : Fin p.blocks} {w : Nat}
    (hpc : ∀ tile chunk, (s.grid.block b).warp w ≠ .submit tile chunk) {g : Grid (Fin p.blocks)}
    (h : s.grid.step p.toLaunch (.warp b w) = some g) : Valid { s with grid := g } := by
  obtain ⟨hw, r, hr, rfl⟩ := grid_warp h
  obtain ⟨l, cur, hb⟩ := hg.block b
  have hn : (s.grid.block b).warp 0 = .acquire → s.grid.nextTile < 2 ^ 32 := fun hacq =>
    hg.nextTile_lt p.limit (by unfold Block.exhausted; rw [hacq])
  have hsubset : ∀ x ∈ (s.grid.block b).acquired, x ∈ r.1.acquired := by
    rcases Block.tally_warpStep hb hw hn hr with ⟨-, ha, -⟩ | ⟨-, -, ⟨-, ha⟩ | ⟨-, ha, -⟩⟩
    · exact fun _ hx => ha ▸ hx
    · exact fun _ hx => ha ▸ List.mem_append_left _ hx
    · exact fun _ hx => ha ▸ hx
  refine { hv with range := fun x hx => ?_, busy := fun c hc => ?_, onHand := fun c x hx => ?_ }
  · obtain ⟨hk, c, hc⟩ := hv.range x hx
    refine ⟨hk, c, ?_⟩
    dsimp only
    by_cases hcb : c = b
    · subst hcb
      rw [Function.update_self]
      exact hsubset _ hc
    · rwa [Function.update_of_ne hcb]
  · obtain ⟨tile, chunk, hsub⟩ := hv.busy c hc
    refine ⟨tile, chunk, ?_⟩
    dsimp only
    by_cases hcb : c = b
    · subst hcb
      have h0 : w ≠ 0 := fun h => hpc tile chunk (h ▸ hsub)
      rw [Function.update_self, warpStep_other (Ne.symm h0) hr]
      exact hsub
    · rwa [Function.update_of_ne hcb]
  · dsimp only at hx
    by_cases hcb : c = b
    · subst hcb
      rw [Function.update_self] at hx
      by_cases h0 : w = 0
      · subst h0
        have hidle : (s.ring.producer c).active = false := Bool.eq_false_iff.mpr fun ha => by
          obtain ⟨tile, chunk, hsub⟩ := hv.busy c ha
          exact hpc tile chunk hsub
        rw [hidle] at hx
        rcases onHand_zero hb hw hr hx with ⟨sending, hold, hsend⟩ | ⟨hacq, rfl⟩
        · cases sending
          · exact hv.onHand c x (by rw [hidle]; exact hold)
          · obtain ⟨tile, chunk, hsub⟩ := hsend rfl
            exact absurd hsub (hpc tile chunk)
        · -- nobody has sent a chunk of a tile nobody has acquired
          intro chunk
          refine iff_of_false (fun hm => ?_) (Nat.not_lt_zero _)
          obtain ⟨-, d, hd⟩ := hv.range _ hm
          obtain ⟨l', cur', hd'⟩ := hg.block d
          rw [Nat.mod_eq_of_lt (hn hacq)] at hd
          exact Nat.lt_irrefl _ (hd'.acquired_lt _ hd).2
      · rw [onHand_other hb hw h0 hr] at hx
        exact hv.onHand c x hx
    · rw [Function.update_of_ne hcb] at hx
      exact hv.onHand c x hx

theorem valid_sync (hv : s.Valid) (hg : s.grid.Valid p.toLaunch) {b : Fin p.blocks}
    {g : Grid (Fin p.blocks)} (h : s.grid.step p.toLaunch (.sync b) = some g) :
    Valid { s with grid := g } := by
  obtain ⟨r, hr, rfl⟩ := Option.map_eq_some_iff.mp h
  obtain ⟨l, cur, hb⟩ := hg.block b
  obtain ⟨-, -, -, hacq⟩ := Block.valid_sync hb hr
  refine { hv with range := fun x hx => ?_, busy := fun c hc => ?_, onHand := fun c x hx => ?_ }
  · obtain ⟨hk, c, hc⟩ := hv.range x hx
    refine ⟨hk, c, ?_⟩
    dsimp only
    by_cases hcb : c = b
    · subst hcb
      rw [Function.update_self, hacq]
      exact hc
    · rwa [Function.update_of_ne hcb]
  · obtain ⟨tile, chunk, hsub⟩ := hv.busy c hc
    refine ⟨tile, chunk, ?_⟩
    dsimp only
    by_cases hcb : c = b
    · subst hcb
      -- a warp that sends is not at a barrier
      have hge := p.warps_ge
      unfold Block.sync at hr
      split at hr
      · rename_i hall
        rcases hall.1 0 (by omega) with hp | hp <;> rw [hsub] at hp <;> cases hp
      · cases hr
    · rwa [Function.update_of_ne hcb]
  · dsimp only at hx
    by_cases hcb : c = b
    · subst hcb
      rw [Function.update_self] at hx
      exact hv.onHand c x (onHand_sync hr hx)
    · rw [Function.update_of_ne hcb] at hx
      exact hv.onHand c x hx

/-! ## Steps of the senders -/

/-- Reserving the slots of a chunk. -/
theorem valid_reserve (hv : s.Valid) (hg : s.grid.Valid p.toLaunch) {b : Fin p.blocks}
    {tile chunk : Nat} (hpc : (s.grid.block b).warp 0 = .submit tile chunk)
    {r : Ring (Fin p.blocks) cfg.backend}
    (h : s.ring.step (.reserve b p.tokensPerChunk (p.descriptor tile chunk)) = some r) :
    Valid { s with ring := r, sent := s.sent ++ [(tile, chunk)] } := by
  have hring := Ring.valid_step hv.ring (hv.inWords hg) h
  have haccounted := Ring.accounted_step hv.ring (hv.inWords hg) hv.accounted h
  obtain ⟨l, cur, hb⟩ := hg.block b
  have hge := p.warps_ge
  have hok := hb.warps 0 (by omega)
  rw [hpc] at hok
  obtain ⟨-, hcur, -, hlt⟩ := hok
  have hmine : tile ∈ (s.grid.block b).acquired := by
    rw [hb.acquired, hcur]
    exact List.mem_append_right _ (List.mem_singleton.mpr rfl)
  simp only [Ring.step] at h
  split at h
  · rename_i hidle
    cases h
    have hon : onHand (s.grid.block b) (s.ring.producer b).active = some (tile, chunk) := by
      rw [hidle]
      simp [onHand, hpc, Producer.active]
    have hsent := hv.onHand b _ hon
    refine ⟨hring, haccounted, hv.main, hv.marked, ?_, fun k x hx i hi => ?_, ?_, fun x hx => ?_,
      fun c hc => ?_, fun c => ?_, fun c x hx => ?_⟩
    · show s.ring.writeIdx + p.tokensPerChunk = _
      rw [hv.writeIdx, List.length_append, List.length_singleton, Nat.mul_succ]
    · dsimp only at hx ⊢
      rw [hv.writeIdx]
      rcases Nat.lt_or_ge k s.sent.length with hk | hk
      · rw [List.getElem?_append_left hk] at hx
        have hstep : p.tokensPerChunk * (k + 1) ≤ p.tokensPerChunk * s.sent.length :=
          Nat.mul_le_mul_left _ hk
        rw [Nat.mul_succ] at hstep
        rw [if_neg (by omega)]
        exact hv.plan k x hx i hi
      · rw [List.getElem?_append_right hk, List.getElem?_singleton] at hx
        split at hx
        · rename_i hkl
          cases hx
          obtain rfl : k = s.sent.length := by omega
          rw [if_pos ⟨Nat.le_add_right _ _, Nat.add_lt_add_left hi _⟩, Nat.add_sub_cancel_left]
        · cases hx
    · exact List.nodup_append.mpr ⟨hv.nodup, List.nodup_singleton _, fun x hx y hy hxy =>
        Nat.lt_irrefl chunk ((hsent chunk).mp (List.mem_singleton.mp hy ▸ hxy ▸ hx))⟩
    · rcases List.mem_append.mp hx with hx | hx
      · exact hv.range x hx
      · rw [List.mem_singleton.mp hx]
        exact ⟨hlt, b, hmine⟩
    · dsimp only at hc
      by_cases hcb : c = b
      · exact ⟨tile, chunk, by rw [hcb]; exact hpc⟩
      · rw [Function.update_of_ne hcb] at hc
        exact hv.busy c hc
    · dsimp only
      by_cases hcb : c = b
      · rw [hcb, Function.update_self]
        exact rfl
      · rw [Function.update_of_ne hcb]
        exact hv.sized c
    · dsimp only at hx ⊢
      intro k
      rw [List.mem_append, List.mem_singleton]
      by_cases hcb : c = b
      · subst hcb
        rw [Function.update_self] at hx
        simp only [onHand, hpc, Producer.active, if_true, Option.some.injEq] at hx
        subst hx
        rw [hsent k, Prod.mk.injEq]
        dsimp only
        omega
      · rw [Function.update_of_ne hcb] at hx
        rw [hv.onHand c x hx k]
        -- the tile at hand of another block is another tile
        refine or_iff_left fun he => hcb ?_
        obtain ⟨l', cur', hc'⟩ := hg.block c
        have htile : x.1 = tile := (Prod.mk.injEq _ _ _ _ ▸ he).1
        rcases onHand_owned hc' (show _ = some (x.1, x.2) from hx) with ho | ho
        · exact hg.owner tile c b (htile ▸ ho) hmine
        · exact absurd (hb.acquired_lt tile hmine).1 (Nat.not_lt_of_le (htile ▸ ho))
  · cases h

/-- What the steps by which a chunk is stored leave alone. -/
theorem stores_frame {r r' : Ring (Fin p.blocks) cfg.backend} {a : Ring.Act (Fin p.blocks) cfg.backend}
    (ha : a.stores = true) (h : r.step a = some r') :
    r'.writeIdx = r.writeIdx ∧ r'.plan = r.plan ∧ (r.loop.Main → r'.loop.Main) ∧
      (r.loop.Marked → r'.loop.Marked) ∧
      ∀ b, (r'.producer b).active = (r.producer b).active ∧
        ∀ n, (r.producer b).Sized n → (r'.producer b).Sized n := by
  have hmove : ∀ (b : Fin p.blocks) (q : Producer), q.active = (r.producer b).active →
      (∀ n, (r.producer b).Sized n → q.Sized n) → ∀ c,
      (Function.update r.producer b q c).active = (r.producer c).active ∧
        ∀ n, (r.producer c).Sized n → (Function.update r.producer b q c).Sized n := by
    intro b q hq hn c
    by_cases hcb : c = b
    · subst hcb
      rw [Function.update_self]
      exact ⟨hq, hn⟩
    · rw [Function.update_of_ne hcb]
      exact ⟨rfl, fun _ h => h⟩
  cases a with
  | reserve | release | loop => cases ha
  | wait b =>
    simp only [Ring.step] at h
    split at h
    · rename_i hp
      split at h <;> cases h
      exact ⟨rfl, rfl, id, id, hmove b _ (by rw [hp]; rfl) (by rw [hp]; exact fun _ h => h)⟩
    · cases h
  | fence b =>
    simp only [Ring.step] at h
    split at h
    · rename_i hp
      split at h <;> cases h
      exact ⟨rfl, rfl, id, id, hmove b _ (by rw [hp]; rfl) (by rw [hp]; exact fun _ h => h)⟩
    · cases h
  | write b i f =>
    simp only [Ring.step] at h
    split at h
    · rename_i hp
      split at h <;> cases h
      exact ⟨rfl, rfl, id, id, hmove b _ (by rw [hp]; rfl) (by rw [hp]; exact fun _ h => h)⟩
    · cases h
  | commit b i =>
    simp only [Ring.step] at h
    split at h
    · rename_i hp
      split at h <;> cases h
      exact ⟨rfl, rfl, id, id, hmove b _ (by rw [hp]; rfl) (by rw [hp]; exact fun _ h => h)⟩
    · cases h

/-- Waiting for room, and storing the chunk. -/
theorem valid_send (hv : s.Valid) (hg : s.grid.Valid p.toLaunch)
    {a : Ring.Act (Fin p.blocks) cfg.backend} (ha : a.stores = true)
    {r : Ring (Fin p.blocks) cfg.backend} (h : s.ring.step a = some r) :
    Valid { s with ring := r } := by
  obtain ⟨hwrite, hplan, hmain, hflags, hprod⟩ := stores_frame ha h
  exact ⟨Ring.valid_step hv.ring (hv.inWords hg) h,
    Ring.accounted_step hv.ring (hv.inWords hg) hv.accounted h, hmain hv.main, hflags hv.marked,
    hwrite.trans hv.writeIdx, fun k x hx i hi => by rw [hplan]; exact hv.plan k x hx i hi, hv.nodup,
    hv.range, fun b hb => hv.busy b ((hprod b).1 ▸ hb), fun b => (hprod b).2 _ (hv.sized b),
    fun b x hx => hv.onHand b x ((hprod b).1 ▸ hx)⟩

/-- The chunk at hand has been committed; warp 0 goes on to wait for it. -/
theorem valid_release (hv : s.Valid) (hg : s.grid.Valid p.toLaunch) {b : Fin p.blocks}
    {tile chunk : Nat} (hpc : (s.grid.block b).warp 0 = .submit tile chunk)
    {r : Ring (Fin p.blocks) cfg.backend} (hr : s.ring.step (.release b) = some r)
    {g : Grid (Fin p.blocks)} (h : s.grid.step p.toLaunch (.warp b 0) = some g) :
    Valid { s with ring := r, grid := g } := by
  have hring := Ring.valid_step hv.ring (hv.inWords hg) hr
  have haccounted := Ring.accounted_step hv.ring (hv.inWords hg) hv.accounted hr
  obtain ⟨-, w, hw, rfl⟩ := grid_warp h
  simp only [Block.warpStep, hpc, Option.some.injEq] at hw
  subst hw
  simp only [Ring.step] at hr
  split at hr
  · rename_i base count todo hp
    split at hr <;> cases hr
    refine ⟨hring, haccounted, hv.main, hv.marked, hv.writeIdx, hv.plan, hv.nodup, fun x hx => ?_,
      fun c hc => ?_, fun c => ?_, fun c x hx => ?_⟩
    · obtain ⟨hk, c, hc⟩ := hv.range x hx
      refine ⟨hk, c, ?_⟩
      dsimp only
      by_cases hcb : c = b
      · subst hcb
        rw [Function.update_self]
        exact hc
      · rwa [Function.update_of_ne hcb]
    · dsimp only at hc ⊢
      by_cases hcb : c = b
      · rw [hcb, Function.update_self] at hc
        cases hc
      · rw [Function.update_of_ne hcb] at hc ⊢
        exact hv.busy c hc
    · dsimp only
      by_cases hcb : c = b
      · rw [hcb, Function.update_self]
        trivial
      · rw [Function.update_of_ne hcb]
        exact hv.sized c
    · dsimp only at hx
      by_cases hcb : c = b
      · subst hcb
        rw [Function.update_self, Function.update_self] at hx
        refine hv.onHand c x ?_
        simp only [onHand, Block.setWarp, Function.update_self] at hx
        simp only [onHand, hpc, hp, Producer.active, if_true, hx]
      · rw [Function.update_of_ne hcb, Function.update_of_ne hcb] at hx
        exact hv.onHand c x hx
  · cases hr

/-! ## Steps of the polling thread -/

theorem valid_loop (hc : cfg.tiledQueue = true) (hv : s.Valid) (hg : s.grid.Valid p.toLaunch)
    {a : Loop.Act cfg.backend} (h2 : a ≠ .stop) {r : Ring (Fin p.blocks) cfg.backend}
    (h : s.ring.step (.loop a) = some r) : Valid { s with ring := r } := by
  have hring := Ring.valid_step hv.ring (hv.inWords hg) h
  have haccounted := Ring.accounted_step hv.ring (hv.inWords hg) hv.accounted h
  obtain ⟨l, hl, rfl⟩ := Option.map_eq_some_iff.mp h
  have hB : cfg.backend.inTiles = true := by
    show (cfg.tiledQueue || cfg.sgQueue) = true
    rw [hc, Bool.true_or]
  exact { hv with
    ring := hring
    accounted := haccounted
    main := Loop.main_step hv.main hl h2
    -- the flags merged are those copied: nobody stores to the entry meanwhile
    marked := (Loop.marked_step hB (fun _ => hv.ring.flags_merged) hv.marked hl).1 }

theorem valid_step (hc : cfg.tiledQueue = true) (hv : s.Valid) (hg : s.grid.Valid p.toLaunch)
    {a : Act cfg p} (h : s.step a = some t) : t.Valid := by
  obtain ⟨grid, ring, sent⟩ := t
  cases step_effect h with
  | warp b w hpc hgrid hr hs =>
    dsimp only at hr hs hgrid
    subst hr hs
    exact valid_warp hv hg hpc hgrid
  | sync b hgrid hr hs =>
    dsimp only at hr hs hgrid
    subst hr hs
    exact valid_sync hv hg hgrid
  | reserve b tile chunk hpc hr hgrid hs =>
    dsimp only at hr hs hgrid
    subst hgrid hs
    exact valid_reserve hv hg hpc hr
  | send a ha hr hgrid hs =>
    dsimp only at hr hs hgrid
    subst hgrid hs
    exact valid_send hv hg ha hr
  | release b tile chunk hpc hr hgrid hs =>
    dsimp only at hr hs hgrid
    subst hs
    exact valid_release hv hg hpc hr hgrid
  | loop a h1 h2 hr hgrid hs =>
    dsimp only at hr hs hgrid
    subst hgrid hs
    exact valid_loop hc hv hg h2 hr

theorem gridValid_of_reachable {h : Host} (hs : ReachableFrom step (init cfg p h) s) :
    s.grid.Valid p.toLaunch := Grid.valid_of_reachable p.limit (grid_of_reachable hs)

theorem valid_of_reachable (hc : cfg.tiledQueue = true) {h : Host}
    (hs : ReachableFrom step (init cfg p h) s) : s.Valid := by
  induction hs with
  | initial hs =>
    subst hs
    exact valid_init cfg p h
  | step hr a _ hst ih => exact valid_step hc ih (gridValid_of_reachable hr) hst

/-! ## A block that has not left -/

section BlockProgress
variable {q : Launch} {n : Nat} {b : Block} {l : List Nat} {cur : Option Nat}

/-- A warp of the block other than a sending or waiting warp 0 can go on, or all can. -/
def CanMove (q : Launch) (n : Nat) (b : Block) : Prop :=
  (∃ w r, w < q.warps ∧ b.warpStep q n w = some r ∧ (∀ tile chunk, b.warp w ≠ .submit tile chunk) ∧
    ∀ tile chunk, b.warp w ≠ .waitChunk tile chunk) ∨ ∃ r, b.sync q = some r

/-- Once its chunks are ready, a compute warp waits for nothing but the second barrier. -/
theorem compute_moves (hv : b.Valid q n l cur) {w : Nat} (hw : w < q.warps) (h0 : w ≠ 0)
    (hin : (b.warp w).inside = true) (hready : cur.isSome = true → b.chunksReady = q.chunksPerTile)
    (hleave : b.warp w ≠ .leave) (hexit : b.warp w ≠ .exited) : CanMove q n b := by
  have hok := hv.warps w hw
  have hgo : ∀ r, b.warpStep q n w = some r → CanMove q n b := fun r hr => by
    refine .inl ⟨w, r, hw, hr, fun tile chunk he => ?_, fun tile chunk he => ?_⟩ <;>
      · rw [he] at hok
        exact h0 hok.1
  cases hpc : b.warp w with
  | acquire | storeTile | resetReady | resetDone | enter =>
    rw [hpc] at hin
    cases hin
  | check =>
    by_cases h : q.totalTiles ≤ b.tileId
    · exact hgo _ (by rw [Block.warpStep, hpc]; exact if_pos h)
    · exact hgo _ (by rw [Block.warpStep, hpc]; exact if_neg h)
  | loadTile => exact hgo _ (by rw [Block.warpStep, hpc])
  | submit tile chunk | waitChunk tile chunk | drain =>
    rw [hpc] at hok
    exact absurd hok.1 h0
  | ready tile chunk =>
    rw [hpc] at hok
    exact absurd hok.1.1 h0
  | waitReady tile =>
    rw [hpc] at hok
    have hK := hready (by rw [hok.2]; rfl)
    have := hok.1
    exact hgo _ (by rw [Block.warpStep, hpc]; exact if_neg (by omega))
  | compute tile => exact hgo _ (by rw [Block.warpStep, hpc])
  | inCall tile => exact hgo _ (by rw [Block.warpStep, hpc])
  | count tile => exact hgo _ (by rw [Block.warpStep, hpc])
  | leave => exact absurd hpc hleave
  | exited => exact absurd hpc hexit

/-- **A block goes on** until it has left, as long as its warp 0 can send and its chunks arrive. -/
theorem block_moves (hv : b.Valid q n l cur) (hl : ¬ b.Left q)
    (hdrained : b.warp 0 = .leave → b.chunksReady = q.chunksPerTile) :
    CanMove q n b ∨ (∃ tile chunk, b.warp 0 = .submit tile chunk) ∨
      ∃ tile chunk, b.warp 0 = .waitChunk tile chunk := by
  have hge := q.warps_ge
  have hw : 0 < q.warps := by omega
  have hok := hv.warps 0 hw
  have hgo : ∀ r, b.warpStep q n 0 = some r → (∀ tile chunk, b.warp 0 ≠ .submit tile chunk) →
      (∀ tile chunk, b.warp 0 ≠ .waitChunk tile chunk) → CanMove q n b :=
    fun r hr h1 h2 => .inl ⟨0, r, hw, hr, h1, h2⟩
  cases hpc : b.warp 0 with
  | acquire | storeTile | resetReady | resetDone | loadTile | ready =>
    exact .inl (hgo _ (by rw [Block.warpStep, hpc]) (by rw [hpc]; simp) (by rw [hpc]; simp))
  | enter =>
    -- outside the barriers the others wait too
    have hall : ∀ w < q.warps, b.warp w = .enter := fun w hw' => by
      by_cases h0 : w = 0
      · rw [h0, hpc]
      · exact hv.entered (by rw [hpc]; rfl) h0 hw'
    refine .inl (.inr ⟨_, if_pos ⟨fun w hw' => .inl ?_, 0, hw, ?_⟩⟩)
    · rw [hall w hw']
      rfl
    · rw [hpc]
      rfl
  | check =>
    left
    by_cases h : q.totalTiles ≤ b.tileId
    · exact hgo _ (by rw [Block.warpStep, hpc]; exact if_pos h) (by rw [hpc]; simp)
        (by rw [hpc]; simp)
    · exact hgo _ (by rw [Block.warpStep, hpc]; exact if_neg h) (by rw [hpc]; simp)
        (by rw [hpc]; simp)
  | submit tile chunk => exact .inr (.inl ⟨tile, chunk, rfl⟩)
  | waitChunk tile chunk => exact .inr (.inr ⟨tile, chunk, rfl⟩)
  | drain =>
    left
    rw [hpc] at hok
    by_cases h : b.computeDone < q.chunksPerTile
    · -- some compute warp has not counted itself
      rw [hv.counted (by rw [hpc]; rfl) hok.2.1] at h
      obtain ⟨c, hc, hleave⟩ : ∃ c ∈ Finset.range q.chunksPerTile, b.warp (c + 1) ≠ .leave := by
        by_contra hall
        push Not at hall
        rw [Finset.filter_true_of_mem hall, Finset.card_range] at h
        exact Nat.lt_irrefl _ h
      have hc := Finset.mem_range.mp hc
      have hin := hv.together (c + 1) (by omega)
      rw [hpc] at hin
      refine compute_moves hv (by omega) (Nat.succ_ne_zero c) hin (fun _ => hok.2.2) hleave fun he => ?_
      have hexit := hv.warps (c + 1) (by omega)
      rw [he] at hexit
      rw [hexit.1] at hok
      exact absurd hok.2.1 (by simp)
    · exact hgo _ (by rw [Block.warpStep, hpc]; exact if_neg h) (by rw [hpc]; simp)
        (by rw [hpc]; simp)
  | waitReady tile =>
    rw [hpc] at hok
    exact absurd hok.1.1 (Nat.lt_irrefl 0)
  | compute tile | inCall tile | count tile =>
    rw [hpc] at hok
    exact absurd hok.1.1.1 (Nat.lt_irrefl 0)
  | leave =>
    left
    by_cases hall : ∀ w < q.warps, (b.warp w).parked = true ∨ b.warp w = .exited
    · exact .inr ⟨_, if_pos ⟨hall, 0, hw, by rw [hpc]; rfl⟩⟩
    · push Not at hall
      obtain ⟨w, hw', hpark, hexit⟩ := hall
      have hin := hv.together w hw'
      rw [hpc] at hin
      refine compute_moves hv hw' (fun h => hpark (by rw [h, hpc]; rfl)) hin (fun _ => hdrained hpc)
        (fun h => hpark (by rw [h]; rfl)) hexit
  | exited =>
    left
    rw [hpc] at hok
    unfold Block.Left at hl
    push Not at hl
    obtain ⟨w, hw', hexit⟩ := hl
    have hin := hv.together w hw'
    rw [hpc] at hin
    refine compute_moves hv hw' (fun h => hexit (by rw [h, hpc])) hin (fun h => ?_) (fun h => ?_) hexit
    · rw [hok.1] at h
      cases h
    · have := hv.warps w hw'
      rw [h, hok.1] at this
      cases this

end BlockProgress

/-! ## The second barrier -/

/-- Warp 0 leaves a tile when all its chunks are ready. -/
def Drained (q : Launch) (b : Block) : Prop := b.warp 0 = .leave → b.chunksReady = q.chunksPerTile

theorem drained_warpStep {q : Launch} {n w : Nat} {b : Block} {l : List Nat} {cur : Option Nat}
    (hv : b.Valid q n l cur) (hw : w < q.warps) (hd : Drained q b) {r : Block × Nat}
    (h : b.warpStep q n w = some r) : Drained q r.1 := by
  have hok := hv.warps w hw
  by_cases h0 : w = 0
  · subst h0
    intro hleave
    have hrole : Block.role q 0 b.tileId = .submit b.tileId 0 := if_pos (Nat.lt_of_succ_le q.chunks_pos)
    unfold Block.warpStep at h
    split at h <;> rename_i hpc <;> rw [hpc] at hok
    case h_5 | h_16 | h_17 => cases h
    case h_6 =>
      split at h <;> cases h <;> simp [Block.setWarp] at hleave
    case h_7 =>
      cases h
      simp [Block.setWarp, hrole] at hleave
    case h_10 =>
      cases h
      simp only [Block.setWarp, Function.update_self, Block.chunkLoop] at hleave
      split at hleave <;> cases hleave
    case h_11 =>
      split at h <;> cases h
      exact hok.2.2
    case h_12 => exact absurd hok.1.1 (Nat.lt_irrefl 0)
    case h_15 => exact absurd hok.1.1.1 (Nat.lt_irrefl 0)
    all_goals
      cases h
      simp [Block.setWarp] at hleave
  · intro hleave
    rw [warpStep_other (Ne.symm h0) h] at hleave
    rw [← hd hleave]
    unfold Block.warpStep at h
    split at h <;> rename_i hpc <;> rw [hpc] at hok
    case h_1 | h_2 | h_3 | h_4 | h_8 | h_9 | h_11 => exact absurd hok.1 h0
    case h_10 => exact absurd hok.1.1 h0
    case h_5 | h_16 | h_17 => cases h
    case h_6 | h_12 => split at h <;> cases h <;> rfl
    all_goals cases h; rfl

theorem drained_sync {q : Launch} {b b' : Block} (h : b.sync q = some b') : Drained q b' := by
  have hge := q.warps_ge
  unfold Block.sync at h
  split at h
  · rename_i hall
    cases h
    intro hleave
    dsimp only at hleave
    rcases hall.1 0 (by omega) with hp | hp
    · cases hpc : b.warp 0 <;> rw [hpc] at hp hleave <;> cases hp <;> cases hleave
    · rw [hp] at hleave
      cases hleave
  · cases h

theorem drained_of_reachable {h : Host} (hs : ReachableFrom step (init cfg p h) s) (b : Fin p.blocks) :
    Drained p.toLaunch (s.grid.block b) := by
  induction hs generalizing b with
  | initial hs =>
    subst hs
    exact nofun
  | step hr a _ hst ih =>
    rcases (step_effect hst).grid with hg | ⟨g, hg⟩
    · rw [hg]
      exact ih b
    · cases g with
      | warp c w =>
        obtain ⟨hw, r, hr', hg'⟩ := grid_warp hg
        rw [hg']
        dsimp only
        by_cases hbc : b = c
        · subst hbc
          obtain ⟨l, cur, hb⟩ := (gridValid_of_reachable hr).block b
          rw [Function.update_self]
          exact drained_warpStep hb hw (ih b) hr'
        · rw [Function.update_of_ne hbc]
          exact ih b
      | sync c =>
        obtain ⟨r, hr', hg'⟩ := Option.map_eq_some_iff.mp hg
        rw [← hg']
        dsimp only
        by_cases hbc : b = c
        · subst hbc
          rw [Function.update_self]
          exact drained_sync hr'
        · rw [Function.update_of_ne hbc]
          exact ih b

/-! ## What the counters show -/

/-- Counting over the slots counts each chunk as often as it has slots. -/
theorem countP_chunks {β : Type} (l : List β) (c : Nat) (f : Nat → Bool) (g : β → Bool)
    (h : ∀ k x, l[k]? = some x → ∀ i < c, f (c * k + i) = g x) :
    (List.range (c * l.length)).countP f = c * l.countP g := by
  induction l using List.reverseRecOn with
  | nil => simp
  | append_singleton l x ih =>
    have hlast : ∀ i < c, f (c * l.length + i) = g x := h l.length x (by simp)
    have hinit : (List.range (c * l.length)).countP f = c * l.countP g := by
      refine ih fun k y hk => h k y ?_
      rw [List.getElem?_append_left (List.getElem?_eq_some_iff.mp hk).1]
      exact hk
    rw [List.length_append, List.length_singleton, Nat.mul_succ, List.range_add, List.countP_append,
      List.countP_append, hinit, List.countP_map, Nat.mul_add]
    have hchunk : (List.range c).countP (f ∘ (c * l.length + ·)) = c * [x].countP g := by
      have hcongr : (List.range c).countP (f ∘ (c * l.length + ·)) = (List.range c).countP fun _ => g x :=
        List.countP_congr fun i hi => by
          rw [Function.comp_apply, hlast i (List.mem_range.mp hi)]
      rw [hcongr]
      cases hx : g x <;> simp [hx]
    rw [hchunk]

theorem group_descriptor (p : KernelLaunch) {tile : Nat} (ht : tile < maxTiles) (chunk i x : Nat) :
    (Descriptor.ofFields x (p.descriptor tile chunk i)).group = tile := by
  unfold maxTiles at ht
  simp only [Descriptor.group, Descriptor.ofFields, KernelLaunch.descriptor]
  have hlt : (tile * p.tokensPerTile + (chunk * p.tokensPerChunk + i) % 2 ^ 32) % 2 ^ 32 < 2 ^ 32 :=
    Nat.mod_lt _ (by decide)
  generalize (tile * p.tokensPerTile + (chunk * p.tokensPerChunk + i) % 2 ^ 32) % 2 ^ 32 = g at hlt ⊢
  have hword : word (tile <<< 32) = tile <<< 32 := word_of_lt (by
    rw [Nat.shiftLeft_eq]
    unfold wordSize
    omega)
  rw [hword, ← Nat.shiftLeft_add_eq_or_of_lt hlt, Nat.shiftLeft_eq]
  omega

/-- The last descriptor of a chunk ends it. -/
theorem flags_descriptor (p : KernelLaunch) (tile chunk : Nat) :
    hasFlag (p.descriptor tile chunk (p.tokensPerChunk - 1) .flags) flagLastInTile = true := by
  have hflags : p.descriptor tile chunk (p.tokensPerChunk - 1) .flags = flagLastInTile |||
      if chunk = p.tokensPerTile / p.tokensPerChunk - 1 then flagLastChunkInTile else flagNone := by
    simp only [KernelLaunch.descriptor, if_true, true_and]
  rw [hflags, hasFlag_or]
  rfl

/-- When every slot has been popped, a tile has as many descriptors as chunks of it were sent. -/
theorem Valid.popped_count (hv : s.Valid) (hg : s.grid.Valid p.toLaunch)
    (hfull : s.ring.loop.readIdx = s.ring.writeIdx) (tile : Nat) :
    batchCount s.ring.loop.popped tile = p.tokensPerChunk * s.sent.countP (·.1 == tile) := by
  rw [hv.ring.popped_eq, hfull, hv.writeIdx, batchCount, List.countP_map]
  refine countP_chunks s.sent p.tokensPerChunk _ _ fun k x hk i hi => ?_
  obtain ⟨-, b, hb⟩ := hv.range x (List.mem_of_getElem? hk)
  obtain ⟨l, cur, hblock⟩ := hg.block b
  have htile : x.1 < maxTiles := Nat.lt_of_lt_of_le (hblock.acquired_lt _ hb).1 p.tiles_le
  show ((s.ring.descriptor (p.tokensPerChunk * k + i)).group == tile) = _
  rw [Ring.descriptor, hv.plan k x hk i hi, group_descriptor p htile]

/-- When every slot has been popped, nothing is left in the partial batch of a thread that
searches. -/
theorem Valid.batch_nil (hv : s.Valid) (hsearch : s.ring.loop.pc.searching = true)
    (hfull : s.ring.loop.readIdx = s.ring.writeIdx) : s.ring.loop.batch = [] := by
  have hopen := hv.marked.open_batch hv.main (Pc.not_flushing_of_searching hsearch)
  have hpopped : s.ring.loop.popped =
      (s.ring.loop.flushed.map Prod.fst).flatten ++ s.ring.loop.batch := by
    refine Loop.popped_of_not_flushing (fun d h => ?_) fun h => ?_ <;>
      · rw [h] at hsearch
        cases hsearch
  rcases List.eq_nil_or_concat s.ring.loop.batch with hnil | ⟨ds, d, hd⟩
  · exact hnil
  · exfalso
    rw [List.concat_eq_append] at hd
    rw [hv.ring.popped_eq, hfull, hv.writeIdx, hd, ← List.append_assoc] at hpopped
    -- so a chunk has been sent, and `d` is the last descriptor of the last one
    rcases List.eq_nil_or_concat s.sent with hsent | ⟨xs, x, hx⟩
    · rw [hsent] at hpopped
      simp at hpopped
    · rw [List.concat_eq_append] at hx
      have hpos := p.tokens_pos
      have hlen : p.tokensPerChunk * s.sent.length =
          p.tokensPerChunk * xs.length + (p.tokensPerChunk - 1) + 1 := by
        rw [hx, List.length_append, List.length_singleton, Nat.mul_succ]
        omega
      rw [hlen, List.range_succ, List.map_append, List.map_singleton] at hpopped
      have hlast := (List.append_inj' hpopped rfl).2
      have hdx : d = s.ring.descriptor (p.tokensPerChunk * xs.length + (p.tokensPerChunk - 1)) :=
        (List.singleton_inj.mp hlast).symm
      have hflag := hopen d (by rw [hd]; exact List.mem_append_right _ (List.mem_singleton.mpr rfl))
      rw [hdx] at hflag
      have hplan := hv.plan xs.length x (by rw [hx]; simp) (p.tokensPerChunk - 1) (by omega)
      have : hasFlag (s.ring.plan (p.tokensPerChunk * xs.length + (p.tokensPerChunk - 1)) .flags)
          flagLastInTile = false := hflag
      rw [hplan, flags_descriptor] at this
      cases this

/-- A block that waits for a chunk has acquired its tile. -/
theorem mem_acquired_of_waiting {q : Launch} {n : Nat} {b : Block} {l : List Nat} {cur : Option Nat}
    (hv : b.Valid q n l cur) {tile chunk : Nat} (hpc : b.warp 0 = .waitChunk tile chunk) :
    tile ∈ b.acquired := by
  have hge := q.warps_ge
  have hok := hv.warps 0 (by omega)
  rw [hpc] at hok
  rw [hv.acquired, hok.2.1]
  exact List.mem_append_right _ (List.mem_singleton.mpr rfl)

/-- A block that waits for a chunk has sent it and those before it. -/
theorem Valid.sent_of_waiting (hv : s.Valid) {b : Fin p.blocks} {tile chunk : Nat}
    (hpc : (s.grid.block b).warp 0 = .waitChunk tile chunk) :
    chunk + 1 ≤ s.sent.countP (·.1 == tile) := by
  have hon := hv.onHand b (tile, chunk + 1) (by simp only [TilePipeline.onHand, hpc])
  have hsub : ((List.range (chunk + 1)).map fun c => (tile, c)) ⊆ s.sent.filter (·.1 == tile) := by
    intro x hx
    obtain ⟨c, hc, rfl⟩ := List.mem_map.mp hx
    exact List.mem_filter.mpr ⟨(hon c).mpr (List.mem_range.mp hc), beq_self_eq_true _⟩
  have hnodup : ((List.range (chunk + 1)).map fun c => (tile, c)).Nodup :=
    List.nodup_range.map fun c c' h => (Prod.mk.inj h).2
  have hle := (hnodup.subperm hsub).length_le
  rw [List.length_map, List.length_range, ← List.countP_eq_length_filter] at hle
  exact hle

/-! ## No deadlock -/

/-- Something other than a vain poll can happen. -/
def Useful (s : TilePipeline cfg p) : Prop := ∃ a t, s.step a = some t ∧ ¬ s.Futile a

theorem useful_of_isSome {a : Act cfg p} (h : (s.step a).isSome = true) (hf : ¬ s.Futile a) :
    s.Useful := by
  obtain ⟨t, ht⟩ := Option.isSome_iff_exists.mp h
  exact ⟨a, t, ht, hf⟩

theorem useful_of_loop (h : s.ring.loop.Useful) : s.Useful := by
  obtain ⟨a, l, h1, h2, hl, hf⟩ := h
  refine ⟨.loop a, { s with ring := { s.ring with loop := l } }, ?_, hf⟩
  simp only [step, Ring.step, hl, Option.map_some]

theorem useful_of_store {a : Ring.Act (Fin p.blocks) cfg.backend} {r : Ring (Fin p.blocks) cfg.backend}
    (ha : a.stores = true) (h : s.ring.step a = some r) : s.Useful :=
  ⟨.send a, { s with ring := r }, by simp only [step, ha, if_true, h, Option.map_some], id⟩

theorem useful_of_canMove {b : Fin p.blocks} (h : CanMove p.toLaunch s.grid.nextTile (s.grid.block b)) :
    s.Useful := by
  rcases h with ⟨w, r, hw, hr, h1, h2⟩ | ⟨r, hr⟩
  · refine ⟨.warp b w, { s with grid := ⟨r.2, Function.update s.grid.block b r.1⟩ }, ?_, id⟩
    have hg : s.grid.step p.toLaunch (.warp b w) =
        some ⟨r.2, Function.update s.grid.block b r.1⟩ := by
      simp only [Grid.step, hw, if_true, hr, Option.map_some]
    cases hpc : (s.grid.block b).warp w with
    | submit tile chunk => exact absurd hpc (h1 tile chunk)
    | waitChunk tile chunk => exact absurd hpc (h2 tile chunk)
    | _ =>
      simp only [step, hpc, hg]
      rfl
  · refine ⟨.sync b, { s with grid := { s.grid with block := Function.update s.grid.block b r } }, ?_, id⟩
    simp only [step, Grid.step, hr, Option.map_some]

/-- When every slot has been popped, a block that sends can go on. -/
theorem useful_of_submit (hv : s.Valid) (hfull : s.ring.loop.readIdx = s.ring.writeIdx)
    {b : Fin p.blocks} {tile chunk : Nat} (hpc : (s.grid.block b).warp 0 = .submit tile chunk) :
    s.Useful := by
  have hnone := hv.ring.none_held hfull b
  have hsized := hv.sized b
  have hpos := p.tokens_pos
  have hge := p.warps_ge
  cases hprod : s.ring.producer b with
  | idle =>
    refine useful_of_isSome (a := .reserve b) ?_ id
    simp only [step, hpc, Ring.step, hprod, Option.map_some, Option.isSome_some]
  | waiting base count =>
    rw [hprod] at hnone hsized
    exact absurd ⟨Nat.le_refl _, by rw [hsized]; omega⟩ (hnone base)
  | writing base count todo =>
    rw [hprod] at hnone hsized
    exact absurd ⟨Nat.le_refl _, by rw [hsized]; omega⟩ (hnone base)
  | committing base count todo =>
    rw [hprod] at hnone
    have htodo : todo = ∅ := Finset.eq_empty_of_forall_notMem fun i hi => hnone (base + i) ⟨i, hi, rfl⟩
    have hw : 0 < p.warps := by omega
    refine useful_of_isSome (a := .release b) ?_ id
    simp only [step, hpc, Ring.step, hprod, htodo, if_true, Option.bind_some, Grid.step, hw,
      Block.warpStep, Option.map_some, Option.isSome_some]

/-- A block goes on when the counter has arrived. -/
theorem useful_of_arrived {b : Fin p.blocks} {tile chunk : Nat}
    (hpc : (s.grid.block b).warp 0 = .waitChunk tile chunk)
    (h : (chunk + 1) * p.tokensPerChunk ≤ cfg.chunkDone s.ring.loop.backend.data tile) : s.Useful := by
  have hge := p.warps_ge
  have hw : 0 < p.warps := by omega
  refine useful_of_isSome (a := .warp b 0) ?_ id
  simp only [step, hpc, if_pos h, Grid.step, hw, if_true, Block.warpStep, Option.map_some,
    Option.isSome_some]

/-- When every slot has been popped and everything queued has been performed, the counter of a tile
shows the chunks of it that were sent. -/
theorem Valid.counter (hc : cfg.Tiled) (hv : s.Valid) (hg : s.grid.Valid p.toLaunch)
    (hrest : TileSignals.Rest s.ring.loop.flushed s.ring.loop.backend.data)
    (hd : s.ring.loop.backend.data.device.Settled) (hsearch : s.ring.loop.pc.searching = true)
    (hfull : s.ring.loop.readIdx = s.ring.writeIdx) {tile : Nat} (ht : tile < maxTiles) :
    cfg.chunkDone s.ring.loop.backend.data tile = p.tokensPerChunk * s.sent.countP (·.1 == tile) := by
  have hpopped : (s.ring.loop.flushed.map Prod.fst).flatten = s.ring.loop.popped := by
    rw [Loop.popped_of_not_flushing (fun d h => ?_) fun h => ?_, hv.batch_nil hsearch hfull,
      List.append_nil]
    all_goals
      rw [h] at hsearch
      cases hsearch
  have hle : s.sent.countP (·.1 == tile) ≤ s.sent.length := List.countP_le_length
  have hword : p.tokensPerChunk * s.sent.countP (·.1 == tile) < wordSize :=
    Nat.lt_of_le_of_lt (hv.writeIdx ▸ Nat.mul_le_mul_left _ hle) (hv.inWords hg).1
  rw [Config.chunkDone, if_pos hc.dTileChunkDone, hrest.counter hd ht, tileCount, hpopped,
    hv.popped_count hg hfull, word_of_lt hword]

/-- The single-buffer pipeline is never stuck: while a tile is not finished, something other than a
vain poll can happen. -/
theorem progress_of_reachable (hc : cfg.Tiled) (hfit : p.tokensPerChunk ≤ queueSize)
    {user : Nat → UInt8} {staging : Nat → Nat → UInt8} {gpu : Nat → UInt8}
    (hs : ReachableFrom step (init cfg p (Host.init user staging gpu)) s) {tile : Nat}
    (ht : tile < p.totalTiles) (hn : ¬ s.Finished tile) :
    ∃ a t, s.step a = some t ∧ ¬ s.Futile a := by
  have hv := valid_of_reachable hc.tiledQueue hs
  have hg := gridValid_of_reachable hs
  have hloop := loop_of_reachable hs
  have hunblocked : Unblocked s.ring.loop.backend := by
    refine (hloop.invariant (I := fun l => l.Base ∧ Unblocked l.backend) ?_ fun _ _ _ hi _ hst => ?_).2
    · rintro _ rfl
      exact ⟨Loop.base_init _, Loop.unblocked_start _ rfl⟩
    · exact ⟨Loop.base_openStep hi.1 hst, Loop.unblocked_openStep hi.1 hi.2 hst⟩
  by_cases hsearch : s.ring.loop.pc.searching = true ∧ s.ring.loop.ready = false
  · by_cases hm : s.ring.loop.backend.data.Moving
    · exact useful_of_loop (Loop.useful_of_moving hm)
    · -- everything queued has been performed
      have hd := hunblocked.settled hm
      have hrest : TileSignals.Rest s.ring.loop.flushed s.ring.loop.backend.data :=
        TileSignals.rest_of_attended ((TileSignals.duty hc).attended
          (TileSignals.rest_init user staging gpu) (fun _ _ => trivial) hloop)
          (Pc.not_flushing_of_searching hsearch.1)
      rcases Nat.lt_or_ge s.ring.loop.readIdx s.ring.writeIdx with hlt | hge
      · -- a slot is missing, and its producer can go on
        obtain ⟨a, r, hr, ha⟩ := hv.accounted.exists_store hv.ring (hv.inWords hg)
          (Pc.not_popping_of_searching hsearch.1) hsearch.2 hlt fun b base count hb => by
            have := hv.sized b
            rw [hb] at this
            rw [this]
            exact hfit
        exact useful_of_store ha hr
      · have hfull := Nat.le_antisymm hv.ring.read_le hge
        obtain ⟨b, hb⟩ : ∃ b, ¬ (s.grid.block b).Left p.toLaunch := by
          by_contra hall
          push Not at hall
          refine hn ?_
          have hdone := hg.eachOnce
          obtain ⟨c, hc, -⟩ := hdone.acquired ⟨0, p.blocks_pos⟩ (hall _) tile ht
          refine ⟨c, hc, fun k hk => ⟨?_, ?_⟩⟩
          · have := hdone.exactly c (hall c) tile hc k hk
            exact List.count_pos_iff.mp (by omega)
          · rw [hall c (k + 1) (by have := p.warps_ge; omega)]
            exact nofun
        obtain ⟨l, cur, hblock⟩ := hg.block b
        rcases block_moves hblock hb (drained_of_reachable hs b) with hmove | ⟨tile', chunk, hpc⟩ |
          ⟨tile', chunk, hpc⟩
        · exact useful_of_canMove hmove
        · exact useful_of_submit hv hfull hpc
        · -- the copies have been performed, and raised the counter far enough
          have hlt := (hblock.acquired_lt tile' (mem_acquired_of_waiting hblock hpc)).1
          have hcount := hv.counter hc hg hrest hd hsearch.1 hfull (Nat.lt_of_lt_of_le hlt p.tiles_le)
          refine useful_of_arrived hpc ?_
          rw [hcount, Nat.mul_comm]
          exact Nat.mul_le_mul_left _ (hv.sent_of_waiting hpc)
  · exact useful_of_loop (Loop.exists_useful hv.main hunblocked hsearch)

/-! ## Without a signal stream -/

section Example

/-- One block, one tile, one token. -/
private def launch : KernelLaunch where
  totalTiles := 1
  tokensPerChunk := 1
  chunksPerTile := 1
  warps := 2
  totalTiles_lt := one_lt_word32
  chunks_pos := Nat.one_pos
  warps_ge := two_warps_ge
  warps_le := two_warps_le
  blocks := 1
  tokensPerTile := 1
  tokenSize := 1
  cpuBase := 0
  gpuBase := 0
  blocks_pos := Nat.one_pos
  blocks_lt := by decide
  tiles_le := by decide
  tokens_pos := Nat.one_pos
  tokens := rfl
  tokens_lt := one_lt_word32

/-- The copy engine with one channel. -/
private def config (signalStream : Bool) : Config :=
  { Config.plainTiled with signalStream := signalStream }

private def start (signalStream : Bool) : TilePipeline (config signalStream) launch :=
  init _ _ (Host.init (fun _ => 0) (fun _ _ => 0) fun _ => 0)

private def block : Fin launch.blocks := ⟨0, by decide⟩

private theorem eq_block (b : Fin launch.blocks) : b = block := Fin.ext (Nat.lt_one_iff.mp b.isLt)

/-- The fields of a descriptor. -/
private def fields : List Field := [.srcAddr, .dstAddr, .size, .userData, .flags]

/-- The block sends its chunk and waits for it. -/
private def sends {cfg : Config} : List (Act cfg launch) :=
  [Act.warp block 0, .warp block 0, .warp block 0, .warp block 0, .sync block, .warp block 0,
    .warp block 0, .warp block 1, .warp block 1, .reserve block] ++
    ([Ring.Act.wait block] ++ (fields.map fun f => Ring.Act.write block 0 f) ++
      [Ring.Act.fence block, Ring.Act.commit block 0]).map Act.send ++ [Act.release block]

/-- The thread pops it and flushes its batch, and the copies are performed. -/
private def flushes {cfg : Config} (performs : Nat) (streams : List Stream) : List (Act cfg launch) :=
  (List.replicate 2 Loop.Act.poll ++ fields.map Loop.Act.load ++ List.replicate 4 Loop.Act.poll ++
    (List.replicate performs Script.Act.perform ++
      streams.map fun st => Script.Act.env (HostEnv.advance st)).map fun a =>
        Loop.Act.backend (show cfg.backend.Act from a)).map Act.loop

/-- What decides whether the block, the thread or the device can move. -/
private structure Summary where
  warps : Warp × Warp
  chunksReady : Nat
  calls : List TileLoop.Call
  active : Bool
  count : Nat
  peeks : Bool
  ready : Bool
  batch : Nat
  todo : Nat
  gathers : Bool
  signal : Bool
  channel : Bool
  deriving DecidableEq

private def summary {cfg : Config} (s : TilePipeline cfg launch) : Summary where
  warps := ((s.grid.block block).warp 0, (s.grid.block block).warp 1)
  chunksReady := (s.grid.block block).chunksReady
  calls := (s.grid.block block).calls
  active := (s.ring.producer block).active
  count := cfg.chunkDone s.ring.loop.backend.data 0
  peeks := match s.ring.loop.pc with | .peek false => true | _ => false
  ready := s.ring.loop.ready
  batch := s.ring.loop.batch.length
  todo := s.ring.loop.backend.todo.length
  gathers := s.ring.loop.backend.data.gathering.isSome
  signal := s.ring.loop.backend.data.device.runnable .signal
  channel := s.ring.loop.backend.data.device.runnable (.ce 0)

/-- Without a signal stream the thread raises the host's counter, and the block waits for the
device's. -/
theorem exists_stuck : ∃ s : TilePipeline (config false) launch, ReachableFrom step (start false) s ∧
    ¬ s.Finished 0 ∧ ¬ ∃ a t, s.step a = some t ∧ ¬ s.Futile a := by
  have h : (run step (start false)
      (sends ++ flushes 12 [.ce 0, .ce 0] ++ [.loop .poll, .loop .poll])).map summary =
      some ⟨(.waitChunk 0 0, .waitReady 0), 0, [], false, 0, true, false, 0, 0, false, false, false⟩ := by
    decide +kernel
  obtain ⟨s, hs, hout⟩ := Option.map_eq_some_iff.mp h
  simp only [summary, Summary.mk.injEq, Prod.mk.injEq] at hout
  obtain ⟨⟨h0, h1⟩, hchunks, hcalls, hidle, hcount, hpc, hready, hbatch, htodo, hgather, hsignal, hce⟩ := hout
  have hreach : ReachableFrom step (start false) s := (Reachable.self _).run_always hs
  refine ⟨s, hreach, ?_, ?_⟩
  · rintro ⟨b, -, hb⟩
    rw [eq_block b, hcalls] at hb
    cases (hb 0 (by decide)).1
  · rintro ⟨a, t, ha, hf⟩
    have hproducer : ∀ b, s.ring.producer b = .idle := fun b => by
      rw [eq_block b]
      cases hp : s.ring.producer block <;> rw [hp] at hidle <;> first | rfl | cases hidle
    have hwarp : ∀ b, (s.grid.block b).warp 0 = .waitChunk 0 0 := fun b => by rw [eq_block b]; exact h0
    cases a with
    | warp b w =>
      rw [eq_block b] at ha
      rcases w with _ | _ | w
      · simp only [step, h0, hcount] at ha
        cases ha
      · simp only [Nat.zero_add, step, h1, Grid.step, Block.warpStep, hchunks] at ha
        cases ha
      · have hnone : s.grid.step launch.toLaunch (.warp block (w + 2)) = none := by
          simp only [Grid.step]
          exact if_neg (by show ¬ w + 2 < 2; omega)
        simp only [step, hnone, Option.map_none] at ha
        split at ha
        · cases ha
        · split at ha <;> cases ha
        · cases ha
    | sync b =>
      obtain ⟨g, hg, -⟩ := Option.map_eq_some_iff.mp ha
      obtain ⟨r, hr, -⟩ := Option.map_eq_some_iff.mp hg
      unfold Block.sync at hr
      split at hr
      · rename_i hall
        rcases hall.1 0 (by decide) with hp | hp <;> rw [hwarp b] at hp <;> cases hp
      · cases hr
    | reserve b => simp only [step, hwarp] at ha; cases ha
    | send a =>
      simp only [step] at ha
      split at ha
      · rename_i hstores
        obtain ⟨r, hr, -⟩ := Option.map_eq_some_iff.mp ha
        cases a with
        | reserve | release | loop => cases hstores
        | wait b | write b | fence b | commit b =>
          rw [Ring.step, hproducer b] at hr
          cases hr
      · cases ha
    | release b => simp only [step, hwarp] at ha; cases ha
    | loop a =>
      have hpeek : s.ring.loop.pc = .peek false := by
        split at hpc
        · assumption
        · cases hpc
      have hsearch : s.ring.loop.pc.searching = true := by rw [hpeek]; rfl
      have hquiet : s.ring.loop.backend.data.Quiet (config false) :=
        (((quietDuty _).attended (Host.covered_init _ _ _ _) (fun _ _ => trivial)
          (loop_of_reachable hreach)).rest (.inl (by rw [hpeek]; rfl))).2
      cases a with
      | start | stop => cases ha
      | poll =>
        refine hf ⟨hsearch, hready, fun u hu => ?_⟩
        have hnil := List.eq_nil_of_length_eq_zero hbatch
        rw [Loop.poll, hpeek] at hu
        simp only [hready, hnil] at hu
        cases hu
        rfl
      | load f =>
        simp only [step, Ring.step, Loop.step, hpeek] at ha
        cases ha
      | backend e =>
        cases e with
        | perform => exact hf ⟨hsearch, hready⟩
        | env e =>
          have hfix : ∀ u, s.ring.loop.backend.data.env e ≠ some u := fun u hu => by
            cases e with
            | advance st =>
              have hrun : s.ring.loop.backend.data.device.runnable st = false := by
                rcases st with (_ | ch) | _
                · exact hce
                · -- there is one channel
                  have hdrained : s.ring.loop.backend.data.Drained (ch + 1) := hquiet.drained fun hd =>
                    absurd (hquiet.dirty_lt _ hd) (by show ¬ ch + 1 < 1; omega)
                  refine Bool.eq_false_iff.mpr fun hr => ?_
                  obtain ⟨x, hx⟩ := Device.runnable_next hr
                  exact Nat.lt_irrefl _ (hdrained _ (Device.next_lt hx))
                · exact hsignal
              simp only [Host.env, Host.advance, hrun] at hu
              cases hu
            | gather k =>
              have hnone : s.ring.loop.backend.data.gathering = none :=
                Option.isNone_iff_eq_none.mp (Option.isSome_eq_false_iff.mp hgather)
              simp only [Host.env, Host.gather, hnone] at hu
              cases hu
          obtain ⟨r, hr, -⟩ := Option.map_eq_some_iff.mp ha
          obtain ⟨l, hl, -⟩ := Option.map_eq_some_iff.mp hr
          obtain ⟨b, hb, -⟩ := Option.map_eq_some_iff.mp hl
          obtain ⟨u, hu, -⟩ := Option.map_eq_some_iff.mp hb
          exact hfix u hu

theorem two_lt_blocks : 2 < 2 ^ 31 := by decide
theorem two_le_maxTiles : 2 ≤ maxTiles := by decide

/-- Two blocks, and two tiles of two chunks. -/
def twoBlocks : KernelLaunch where
  totalTiles := 2
  tokensPerChunk := 1
  chunksPerTile := 2
  warps := 3
  totalTiles_lt := two_lt_word32
  chunks_pos := two_chunks_pos
  warps_ge := three_warps_ge
  warps_le := three_warps_le
  blocks := 2
  tokensPerTile := 2
  tokenSize := 1
  cpuBase := 0
  gpuBase := 0
  blocks_pos := Nat.two_pos
  blocks_lt := two_lt_blocks
  tiles_le := two_le_maxTiles
  tokens_pos := Nat.one_pos
  tokens := rfl
  tokens_lt := two_lt_word32

private def starts : TilePipeline (config true) twoBlocks :=
  init _ _ (Host.init (fun _ => 0) (fun _ _ => 0) fun _ => 0)

/-- A block acquires a tile, sends its first chunk and waits for it. -/
private def waits (b : Fin twoBlocks.blocks) : List (Act (config true) twoBlocks) :=
  [[.warp b 0, .warp b 0, .warp b 0, .warp b 0, .sync b, .warp b 0, .warp b 0, .warp b 1, .warp b 1,
      .warp b 2, .warp b 2, .reserve b],
    [.send (.wait b)], fields.map fun f => .send (.write b 0 f),
    [.send (.fence b), .send (.commit b 0), .release b]].flatten

private def here : Fin twoBlocks.blocks := ⟨0, Nat.two_pos⟩
private def there : Fin twoBlocks.blocks := ⟨1, Nat.one_lt_two⟩

private theorem eq_or_eq (b : Fin twoBlocks.blocks) : b = here ∨ b = there := by
  obtain ⟨i, hi⟩ := b
  obtain rfl | rfl : i = 0 ∨ i = 1 := by
    have hi : i < 2 := hi
    omega
  · exact .inl rfl
  · exact .inr rfl

/-- With one, while both blocks wait for a chunk. -/
theorem progress_of_reachable_two : ∃ s : TilePipeline (config true) twoBlocks,
    ReachableFrom step starts s ∧ (s.grid.block here).warp 0 = .waitChunk 0 0 ∧
    (s.grid.block there).warp 0 = .waitChunk 1 0 ∧ ∃ a t, s.step a = some t ∧ ¬ s.Futile a := by
  have h : (run step starts (waits here ++ waits there)).map (fun s =>
      [here, there].map fun b => ((s.grid.block b).warp 0, (s.grid.block b).calls)) =
      some [(.waitChunk 0 0, []), (.waitChunk 1 0, [])] := by
    decide +kernel
  obtain ⟨s, hs, hout⟩ := Option.map_eq_some_iff.mp h
  simp only [List.map_cons, List.map_nil, List.cons.injEq, Prod.mk.injEq, and_true] at hout
  obtain ⟨⟨hhere, hcalls⟩, hthere, hcalls'⟩ := hout
  have hreach : ReachableFrom step starts s := (Reachable.self _).run_always hs
  refine ⟨s, hreach, hhere, hthere, progress_of_reachable ⟨rfl, rfl, rfl, rfl, rfl, rfl⟩ (by decide)
    hreach (show 0 < twoBlocks.totalTiles by decide) ?_⟩
  rintro ⟨b, -, hb⟩
  have hnone : (s.grid.block b).calls = [] := by
    rcases eq_or_eq b with rfl | rfl <;> assumption
  rw [hnone] at hb
  cases (hb 0 (by decide)).1

end Example

end TilePipeline
end Gfd
