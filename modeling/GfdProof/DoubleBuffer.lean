import Mathlib
import GfdProof.Transition

/-! # The double-buffer tile loop

`_warp_spec_tile_loop_double_buffer`, one access to the block's shared state at
a time.  A block has one transfer warp and `2 * K` compute warps, `K` for each
of two slots.  The transfer warp dispatches the tiles it acquires to slots 0 and
1 in turn; the warp of chunk `c` waits for its slot's next dispatch, for chunk
`c` of it, computes, and counts itself in `compute_done`.  Before it reuses a
slot the transfer warp waits for all `K` warps of that slot.

The `n`-th compute round of a warp of slot `s` is dispatch `2 * n + s`, so a
warp is described by the next dispatch it serves (`Block.target`): it is busy
with that dispatch while `target < tiles_dispatched`.  At most two dispatches,
one a slot, are open at any time.

On its way out the transfer warp overwrites both `tile_id`s, having waited for
the last dispatched slot only.  `Orderly` is the condition under which that
does no harm: the warps of the other slot have read their tile id.
-/
namespace Gfd.DoubleBuffer

open Transition

/-- `0xFFFFFFFF`, the tile id of an empty slot. -/
def noTile : Nat := 2 ^ 32 - 1

/-- A count as the 32-bit `int` the code keeps it in. -/
def int32 (n : Nat) : Int := Int.bmod n (2 ^ 32)

theorem int32_of_lt {n : Nat} (h : n < 2 ^ 31) : int32 n = n :=
  Int.bmod_eq_of_le (by omega) (by omega)

/-- The scheduler's fields the loop reads. -/
structure TileScheduler where
  chunksPerTile : Nat
  totalTiles : Nat
  totalTiles_lt : totalTiles < 2 ^ 32

/-- Where the transfer warp is, with its local `tile_id`, `slot` and `chunk`. -/
inductive Transfer
  | acquire
  /-- Waiting for the slot's previous dispatch. -/
  | wait (tile : Nat)
  | storeTile (slot tile : Nat)
  | storeReady (slot tile : Nat)
  | storeDone (slot tile : Nat)
  | bump (slot tile : Nat)
  /-- In `wait_chunk_done` for the chunk it has submitted. -/
  | submit (slot tile chunk : Nat)
  | ready (slot tile chunk : Nat)
  /-- Waiting for the last dispatch. -/
  | finish
  | sentinelTile (slot : Nat)
  | sentinelReady (slot : Nat)
  | exited
  deriving DecidableEq, Repr

/-- Where a compute warp is. -/
inductive Compute
  /-- About to load `tiles_dispatched`. -/
  | dispatch
  /-- About to load `chunks_ready` in the same loop. -/
  | spin
  /-- About to load `chunks_ready` for the termination check. -/
  | check
  | loadTile
  | waitChunk (tile : Nat)
  | compute (tile : Nat)
  /-- About to count itself in `compute_done`. -/
  | count (tile : Nat)
  | exited
  deriving DecidableEq, Repr

/-- It has loaded the tile id of the dispatch it serves. -/
def Compute.hasTile : Compute → Prop
  | .waitChunk _ | .compute _ | .count _ => True
  | _ => False

instance : DecidablePred Compute.hasTile
  | .waitChunk _ | .compute _ | .count _ => isTrue trivial
  | .dispatch | .spin | .check | .loadTile | .exited => isFalse id

/-- `compute_fn` has been called for the dispatch it serves. -/
def Compute.called : Compute → Prop
  | .count _ => True
  | _ => False

structure Warp where
  pc : Compute
  localTileCount : Nat

/-- A block.  `acquired`, `arrived` and `calls` record the tiles it acquired,
the chunks `wait_chunk_done` returned for and the calls of `compute_fn`. -/
structure Block where
  tileId : Nat → Nat
  chunksReady : Nat → Nat
  computeDone : Nat → Nat
  tilesDispatched : Nat
  transfer : Transfer
  warp : Nat × Nat → Warp
  acquired : List Nat
  arrived : List (Nat × Nat)
  calls : List (Nat × Nat)

namespace Block

def init : Block where
  tileId _ := noTile
  chunksReady _ := 0
  computeDone _ := 0
  tilesDispatched := 0
  transfer := .acquire
  warp _ := ⟨.dispatch, 0⟩
  acquired := []
  arrived := []
  calls := []

/-- The transfer warp's loop over the chunks of a tile, at `chunk`. -/
def chunkLoop (p : TileScheduler) (slot tile chunk : Nat) : Transfer :=
  if chunk < p.chunksPerTile then .submit slot tile chunk else .acquire

/-- The transfer warp's next step, with the tile counter it may advance. -/
def transferStep (p : TileScheduler) (b : Block) (nextTile : Nat) : Option (Block × Nat) :=
  match b.transfer with
  | .acquire =>
    let tile := nextTile % 2 ^ 32
    if tile < p.totalTiles then
      some ({ b with transfer := .wait tile, acquired := b.acquired ++ [tile] }, nextTile + 1)
    else some ({ b with transfer := .finish }, nextTile + 1)
  | .wait tile =>
    let slot := b.tilesDispatched % 2
    if 2 ≤ int32 b.tilesDispatched ∧ b.computeDone slot < p.chunksPerTile then none
    else some ({ b with transfer := .storeTile slot tile }, nextTile)
  | .storeTile slot tile =>
    some ({ b with
      tileId := Function.update b.tileId slot tile
      transfer := .storeReady slot tile }, nextTile)
  | .storeReady slot tile =>
    some ({ b with
      chunksReady := Function.update b.chunksReady slot 0
      transfer := .storeDone slot tile }, nextTile)
  | .storeDone slot tile =>
    some ({ b with
      computeDone := Function.update b.computeDone slot 0
      transfer := .bump slot tile }, nextTile)
  | .bump slot tile =>
    some ({ b with
      tilesDispatched := b.tilesDispatched + 1
      transfer := chunkLoop p slot tile 0 }, nextTile)
  | .submit slot tile chunk =>
    some ({ b with
      arrived := b.arrived ++ [(tile, chunk)]
      transfer := .ready slot tile chunk }, nextTile)
  | .ready slot tile chunk =>
    some ({ b with
      chunksReady := Function.update b.chunksReady slot (chunk + 1)
      transfer := chunkLoop p slot tile (chunk + 1) }, nextTile)
  | .finish =>
    if 0 < int32 b.tilesDispatched ∧
        b.computeDone ((b.tilesDispatched - 1) % 2) < p.chunksPerTile then none
    else some ({ b with transfer := .sentinelTile 0 }, nextTile)
  | .sentinelTile slot =>
    some ({ b with
      tileId := Function.update b.tileId slot noTile
      transfer := if slot = 0 then .sentinelTile 1 else .sentinelReady 0 }, nextTile)
  | .sentinelReady slot =>
    some ({ b with
      chunksReady := Function.update b.chunksReady slot (p.chunksPerTile + 1)
      transfer := if slot = 0 then .sentinelReady 1 else .exited }, nextTile)
  | .exited => none

/-- The next dispatch a warp of `slot` serves. -/
def target (b : Block) (slot chunk : Nat) : Nat := 2 * (b.warp (slot, chunk)).localTileCount + slot

def setPc (b : Block) (slot chunk : Nat) (pc : Compute) : Block :=
  { b with warp := Function.update b.warp (slot, chunk) { b.warp (slot, chunk) with pc := pc } }

/-- The next step of the compute warp of `slot` and `chunk`. -/
def computeStep (p : TileScheduler) (b : Block) (slot chunk : Nat) : Option Block :=
  match (b.warp (slot, chunk)).pc with
  | .dispatch =>
    some (b.setPc slot chunk
      (if int32 (b.target slot chunk) < int32 b.tilesDispatched then .check else .spin))
  | .spin =>
    some (b.setPc slot chunk
      (if b.chunksReady slot = p.chunksPerTile + 1 then .check else .dispatch))
  | .check =>
    some (b.setPc slot chunk
      (if b.chunksReady slot = p.chunksPerTile + 1 then .exited else .loadTile))
  | .loadTile =>
    some (b.setPc slot chunk
      (if b.tileId slot = noTile then .exited else .waitChunk (b.tileId slot)))
  | .waitChunk tile =>
    if b.chunksReady slot ≤ chunk then none else some (b.setPc slot chunk (.compute tile))
  | .compute tile =>
    some { b.setPc slot chunk (.count tile) with calls := b.calls ++ [(tile, chunk)] }
  | .count _ =>
    some { b with
      computeDone := Function.update b.computeDone slot (b.computeDone slot + 1)
      warp := Function.update b.warp (slot, chunk)
        ⟨.dispatch, (b.warp (slot, chunk)).localTileCount + 1⟩ }
  | .exited => none

/-- All its warps have left the loop. -/
def Left (p : TileScheduler) (b : Block) : Prop :=
  b.transfer = .exited ∧
    ∀ slot < 2, ∀ c < p.chunksPerTile, (b.warp (slot, c)).pc = .exited

/-- The compute warps of a slot have loaded the tile id of its last dispatch. -/
def Loaded (p : TileScheduler) (b : Block) (slot : Nat) : Prop :=
  ∀ c < p.chunksPerTile, b.tilesDispatched ≤ b.target slot c ∨ (b.warp (slot, c)).pc.hasTile

/-- What the exit protocol needs of a step of the transfer warp. -/
def Orderly (p : TileScheduler) (b : Block) (nextTile : Nat) : Prop :=
  match b.transfer with
  | .acquire => nextTile < 2 ^ 32
  | .bump _ _ => b.tilesDispatched + 2 < 2 ^ 31
  | .sentinelTile slot => slot ≠ (b.tilesDispatched - 1) % 2 → b.Loaded p slot
  | _ => True

instance (p : TileScheduler) (b : Block) (slot : Nat) : Decidable (b.Loaded p slot) :=
  inferInstanceAs (Decidable (∀ c < p.chunksPerTile,
    b.tilesDispatched ≤ b.target slot c ∨ (b.warp (slot, c)).pc.hasTile))

instance (p : TileScheduler) (b : Block) (nextTile : Nat) : Decidable (b.Orderly p nextTile) := by
  unfold Orderly
  exact match b.transfer with
    | .acquire => inferInstance
    | .bump _ _ => inferInstance
    | .sentinelTile _ => inferInstance
    | .wait _ | .storeTile _ _ | .storeReady _ _ | .storeDone _ _ | .submit _ _ _ | .ready _ _ _
    | .finish | .sentinelReady _ | .exited => isTrue trivial

/-! ## The invariant of a block -/

/-- The sentinels of both tile ids are in place. -/
def closing (b : Block) : Prop :=
  match b.transfer with
  | .sentinelReady _ | .exited => True
  | _ => False

/-- The chunks of the last dispatch are still arriving. -/
def sending (b : Block) : Prop :=
  match b.transfer with
  | .submit .. | .ready .. => True
  | _ => False

/-- No warp of the slot is busy with a dispatch. -/
def Free (p : TileScheduler) (b : Block) (slot : Nat) : Prop :=
  ∀ c < p.chunksPerTile, b.tilesDispatched ≤ b.target slot c

/-- The transfer warp holds a tile it is about to dispatch. -/
structure Holding (b : Block) (tile : Nat) : Prop where
  length : b.acquired.length = b.tilesDispatched + 1
  tile_eq : b.acquired[b.tilesDispatched]? = some tile

/-- It has chosen the slot, and the slot is free. -/
structure Dispatching (p : TileScheduler) (b : Block) (slot tile : Nat) : Prop extends
    Holding b tile where
  slot_eq : slot = b.tilesDispatched % 2
  free : b.Free p slot

/-- It is sending `chunk` of the last dispatch. -/
structure Sending (p : TileScheduler) (b : Block) (slot tile chunk : Nat) : Prop where
  length : b.acquired.length = b.tilesDispatched
  pos : 0 < b.tilesDispatched
  slot_eq : slot = (b.tilesDispatched - 1) % 2
  tile_eq : b.acquired[b.tilesDispatched - 1]? = some tile
  ready : b.chunksReady slot = chunk
  chunk_lt : chunk < p.chunksPerTile
  arrived : ∀ c < chunk, (tile, c) ∈ b.arrived

/-- What holds at each point of the transfer warp. -/
def StageOk (p : TileScheduler) (b : Block) : Prop :=
  match b.transfer with
  | .acquire | .finish => b.acquired.length = b.tilesDispatched
  | .wait tile => b.Holding tile
  | .storeTile slot tile => b.Dispatching p slot tile
  | .storeReady slot tile => b.Dispatching p slot tile ∧ b.tileId slot = tile
  | .storeDone slot tile =>
    b.Dispatching p slot tile ∧ b.tileId slot = tile ∧ b.chunksReady slot = 0
  | .bump slot tile =>
    b.Dispatching p slot tile ∧ b.tileId slot = tile ∧ b.chunksReady slot = 0 ∧
      b.computeDone slot = 0
  | .submit slot tile chunk => b.Sending p slot tile chunk
  | .ready slot tile chunk => b.Sending p slot tile chunk ∧ (tile, chunk) ∈ b.arrived
  | .sentinelTile slot => b.acquired.length = b.tilesDispatched ∧ slot < 2 ∧
      b.Free p ((b.tilesDispatched - 1) % 2) ∧ ∀ s < slot, b.Loaded p s
  | .sentinelReady slot => b.acquired.length = b.tilesDispatched ∧ slot < 2 ∧
      ∀ s < 2, b.Loaded p s
  | .exited => b.acquired.length = b.tilesDispatched ∧ ∀ s < 2, b.Loaded p s

/-- The warp is busy with a dispatch, which is of `tile`. -/
def Busy (b : Block) (slot chunk tile : Nat) : Prop :=
  b.target slot chunk < b.tilesDispatched ∧ b.acquired[b.target slot chunk]? = some tile

/-- What holds at each point of a compute warp. -/
def PcOk (p : TileScheduler) (b : Block) (slot chunk : Nat) : Compute → Prop
  | .dispatch | .spin => True
  | .check =>
    b.target slot chunk < b.tilesDispatched ∨ b.chunksReady slot = p.chunksPerTile + 1
  | .loadTile => b.target slot chunk < b.tilesDispatched
  | .waitChunk tile | .count tile => b.Busy slot chunk tile
  | .compute tile => b.Busy slot chunk tile ∧ (tile, chunk) ∈ b.arrived
  | .exited => b.closing ∧ b.tilesDispatched ≤ b.target slot chunk

def WarpOk (p : TileScheduler) (b : Block) (slot chunk : Nat) : Prop :=
  b.PcOk p slot chunk (b.warp (slot, chunk)).pc

/-- `compute_fn` has been called for chunk `chunk` of `tile`. -/
def Served (p : TileScheduler) (b : Block) (tile chunk : Nat) : Prop :=
  chunk < p.chunksPerTile ∧ ∃ i, b.acquired[i]? = some tile ∧
    (i < b.target (i % 2) chunk ∨
      i = b.target (i % 2) chunk ∧ (b.warp (i % 2, chunk)).pc.called)

/-- The invariant of a block, with the tile counter of the grid. -/
structure Valid (p : TileScheduler) (nextTile : Nat) (b : Block) : Prop where
  inRange : b.tilesDispatched + 1 < 2 ^ 31
  /-- A warp is at most one dispatch of its slot behind. -/
  lag : ∀ s < 2, ∀ c < p.chunksPerTile,
    b.tilesDispatched ≤ b.target s c + 2 ∧ b.target s c ≤ b.tilesDispatched + 1
  warps : ∀ s < 2, ∀ c < p.chunksPerTile, b.WarpOk p s c
  done : ∀ s < 2, b.computeDone s ≤
    ((Finset.range p.chunksPerTile).filter fun c => b.tilesDispatched ≤ b.target s c).card
  tile : ∀ i < b.tilesDispatched, b.tilesDispatched ≤ i + 2 →
    b.acquired[i]? = some (b.tileId (i % 2)) ∨ b.Loaded p (i % 2)
  ready : ∀ s < 2, b.chunksReady s ≤ p.chunksPerTile ∨ b.closing
  arrived : ∀ i t, b.acquired[i]? = some t → i < b.tilesDispatched →
    (i + 1 < b.tilesDispatched ∨ ¬ b.sending) → ∀ c < p.chunksPerTile, (t, c) ∈ b.arrived
  stage : b.StageOk p
  acquired_nodup : b.acquired.Nodup
  acquired_lt : ∀ t ∈ b.acquired, t < p.totalTiles ∧ t < nextTile
  calls : ∀ t c, (t, c) ∈ b.calls ↔ b.Served p t c
  calls_nodup : b.calls.Nodup
  calls_arrived : ∀ x ∈ b.calls, x ∈ b.arrived

theorem target_mod (b : Block) {s : Nat} (hs : s < 2) (c : Nat) : b.target s c % 2 = s := by
  unfold target
  omega

@[simp] theorem setPc_target (b : Block) (s c : Nat) (pc : Compute) (s' c' : Nat) :
    (b.setPc s c pc).target s' c' = b.target s' c' := by
  by_cases h : (s', c') = (s, c)
  · cases h; simp only [target, setPc, Function.update_self]
  · simp only [target, setPc, Function.update_of_ne h]

@[simp] theorem setPc_pc_self (b : Block) (s c : Nat) (pc : Compute) :
    ((b.setPc s c pc).warp (s, c)).pc = pc := by simp only [setPc, Function.update_self]

theorem setPc_warp_of_ne (b : Block) {s c s' c' : Nat} (h : (s', c') ≠ (s, c)) (pc : Compute) :
    (b.setPc s c pc).warp (s', c') = b.warp (s', c') := by
  simp only [setPc, Function.update_of_ne h]

@[simp] theorem pcOk_setPc (p : TileScheduler) (b : Block) (s c : Nat) (pc pc' : Compute) :
    (b.setPc s c pc).PcOk p s c pc' ↔ b.PcOk p s c pc' := by
  cases pc' <;> simp only [PcOk, Busy, setPc_target] <;> rfl

theorem valid_init (p : TileScheduler) (n : Nat) : Valid p n init where
  inRange := by decide
  lag s hs c _ := ⟨Nat.zero_le _, by simp only [target, init]; omega⟩
  warps _ _ _ _ := trivial
  done _ _ := Nat.zero_le _
  tile _ h _ := absurd h (Nat.not_lt_zero _)
  ready _ _ := .inl (Nat.zero_le _)
  arrived _ _ _ h := absurd h (Nat.not_lt_zero _)
  stage := rfl
  acquired_nodup := List.nodup_nil
  acquired_lt _ h := by cases h
  calls t c := by simp [init, Served]
  calls_nodup := List.nodup_nil
  calls_arrived _ h := by cases h

theorem Valid.mono {p : TileScheduler} {m n : Nat} {b : Block} (hv : Valid p m b) (h : m ≤ n) :
    Valid p n b :=
  { hv with acquired_lt := fun t ht =>
      ⟨(hv.acquired_lt t ht).1, Nat.lt_of_lt_of_le (hv.acquired_lt t ht).2 h⟩ }

variable {p : TileScheduler} {n : Nat} {b : Block}

/-- When all `K` warps are counted, the slot is free. -/
theorem Valid.free_of_done (hv : Valid p n b) {s : Nat} (hs : s < 2)
    (h : p.chunksPerTile ≤ b.computeDone s) : b.Free p s := by
  have hcard := Nat.le_trans h (hv.done s hs)
  have heq : ((Finset.range p.chunksPerTile).filter fun c => b.tilesDispatched ≤ b.target s c).card =
      (Finset.range p.chunksPerTile).card :=
    Nat.le_antisymm (Finset.card_filter_le _ _) (by rwa [Finset.card_range])
  exact fun c hc => Finset.filter_card_eq heq c (Finset.mem_range.mpr hc)

/-! ## The transfer warp -/

/-- A step of the transfer warp that dispatches nothing: it moves on, may store
to the slots' cells, and may learn that a chunk has arrived. -/
theorem Valid.shift (hv : Valid p n b) {b' : Block}
    (hn : b'.tilesDispatched = b.tilesDispatched) (hw : b'.warp = b.warp)
    (ha : b'.acquired = b.acquired) (hc : b'.calls = b.calls)
    (harr : ∀ x ∈ b.arrived, x ∈ b'.arrived) (hclose : b.closing → b'.closing)
    (hdone : ∀ s, b'.computeDone s ≤ b.computeDone s)
    (htile : ∀ i < b.tilesDispatched, b.tilesDispatched ≤ i + 2 →
      b.acquired[i]? = some (b'.tileId (i % 2)) ∨ b.Loaded p (i % 2))
    (hready : ∀ s < 2, b'.chunksReady s ≤ p.chunksPerTile ∨ b'.closing)
    (hsent : ∀ s < 2, b.chunksReady s = p.chunksPerTile + 1 →
      b'.chunksReady s = p.chunksPerTile + 1)
    (hall : ∀ t, b.acquired[b.tilesDispatched - 1]? = some t → 0 < b.tilesDispatched → ¬ b'.sending →
      ∀ c < p.chunksPerTile, (t, c) ∈ b'.arrived)
    (hstage : b'.StageOk p) : Valid p n b' := by
  have ht : ∀ s c, b'.target s c = b.target s c := fun s c => by simp only [target, hw]
  have hbusy : ∀ s c t, b.Busy s c t → b'.Busy s c t := fun s c t h => by
    simpa only [Busy, hn, ht, ha] using h
  refine ⟨hn ▸ hv.inRange, ?_, fun s hs c hc' => ?_, fun s hs => ?_, ?_, hready,
    fun i t hi hlt hor c hcK => ?_, hstage, ha ▸ hv.acquired_nodup, ha ▸ hv.acquired_lt, ?_,
    hc ▸ hv.calls_nodup, ?_⟩
  · simpa only [hn, ht] using hv.lag
  · have hok := hv.warps s hs c hc'
    unfold WarpOk PcOk at hok ⊢
    simp only [hw, hn, ht]
    split <;> rename_i hpc <;> simp only [hpc] at hok
    · trivial
    · trivial
    · exact hok.imp_right (hsent s hs)
    · exact hok
    · exact hbusy _ _ _ hok
    · exact hbusy _ _ _ hok
    · exact ⟨hbusy _ _ _ hok.1, harr _ hok.2⟩
    · exact ⟨hclose hok.1, hok.2⟩
  · simp only [hn, ht]
    exact Nat.le_trans (hdone s) (hv.done s hs)
  · simpa only [hn, ha, Loaded, ht, hw] using htile
  · rw [ha] at hi
    rw [hn] at hlt hor
    by_cases hlast : i + 1 < b.tilesDispatched
    · exact harr _ (hv.arrived i t hi hlt (.inl hlast) c hcK)
    · obtain rfl : i = b.tilesDispatched - 1 := by omega
      exact hall t hi (by omega) (hor.resolve_left hlast) c hcK
  · simpa only [hc, Served, ha, ht, hw] using hv.calls
  · intro x hx
    rw [hc] at hx
    exact harr _ (hv.calls_arrived x hx)

/-- Acquiring a tile. -/
theorem valid_acquire (hv : Valid p n b) (hpc : b.transfer = .acquire) (hlt : n < p.totalTiles) :
    Valid p (n + 1) { b with transfer := .wait n, acquired := b.acquired ++ [n] } := by
  have hlen : b.acquired.length = b.tilesDispatched := by
    have := hv.stage
    simpa only [StageOk, hpc] using this
  have hold : ∀ {i : Nat} {t : Nat}, i < b.tilesDispatched →
      ((b.acquired ++ [n])[i]? = some t ↔ b.acquired[i]? = some t) := fun hi => by
    rw [List.getElem?_append_left (by omega)]
  have hnew : n ∉ b.acquired := fun hm => Nat.lt_irrefl _ (hv.acquired_lt n hm).2
  have hbusy : ∀ {s c t}, b.Busy s c t →
      Busy { b with transfer := .wait n, acquired := b.acquired ++ [n] } s c t :=
    fun h => ⟨h.1, (hold h.1).mpr h.2⟩
  refine ⟨hv.inRange, hv.lag, fun s hs c hc => ?_, hv.done, fun i hi hw => ?_, fun s hs => ?_,
    fun i t ht hi _ => ?_, ⟨by simp [hlen], by simp [← hlen]⟩, ?_, fun t ht => ?_, fun t c => ?_,
    hv.calls_nodup, hv.calls_arrived⟩
  · have hok := hv.warps s hs c hc
    unfold WarpOk PcOk at hok ⊢
    dsimp only at hok ⊢
    split <;> rename_i hw <;> simp only [hw] at hok
    · trivial
    · trivial
    · exact hok
    · exact hok
    · exact hbusy hok
    · exact hbusy hok
    · exact ⟨hbusy hok.1, hok.2⟩
    · simp [closing, hpc] at hok
  · exact (hv.tile i hi hw).imp_left (hold hi).mpr
  · exact (hv.ready s hs).imp_right fun h => by simp [closing, hpc] at h
  · exact hv.arrived i t ((hold hi).mp ht) hi (.inr (by simp [sending, hpc]))
  · exact List.nodup_append'.mpr ⟨hv.acquired_nodup, List.nodup_singleton n,
      List.disjoint_singleton.mpr hnew⟩
  · rcases List.mem_append.mp ht with h | h
    · exact ⟨(hv.acquired_lt t h).1, Nat.lt_succ_of_lt (hv.acquired_lt t h).2⟩
    · rw [List.mem_singleton.mp h]
      exact ⟨hlt, Nat.lt_succ_self n⟩
  · rw [hv.calls]
    refine and_congr_right fun hc => exists_congr fun i => ?_
    have hlag := hv.lag (i % 2) (Nat.mod_lt _ (by decide)) c hc
    have hmod := b.target_mod (s := i % 2) (Nat.mod_lt _ (by decide)) c
    refine and_congr_left fun hserved => ?_
    by_cases hi : i < b.tilesDispatched
    · exact (hold hi).symm
    · -- the new tile is not dispatched, so no warp has passed it
      exfalso
      change i < b.target (i % 2) c ∨ i = b.target (i % 2) c ∧ (b.warp (i % 2, c)).pc.called at hserved
      rcases hserved with h | ⟨h, hcalled⟩
      · omega
      · have hok := hv.warps (i % 2) (Nat.mod_lt _ (by decide)) c hc
        unfold WarpOk PcOk at hok
        unfold Compute.called at hcalled
        split at hcalled
        · rename_i hpc'
          simp only [hpc', Busy] at hok
          omega
        · exact hcalled

/-- Dispatching the tile in hand opens a dispatch of a free slot. -/
theorem valid_bump (hv : Valid p n b) {slot tile : Nat} (hpc : b.transfer = .bump slot tile)
    (hr : b.tilesDispatched + 2 < 2 ^ 31) :
    Valid p n { b with
      tilesDispatched := b.tilesDispatched + 1
      transfer := chunkLoop p slot tile 0 } := by
  obtain ⟨hd, htile, hready, hdone⟩ : b.Dispatching p slot tile ∧ b.tileId slot = tile ∧
      b.chunksReady slot = 0 ∧ b.computeDone slot = 0 := by
    have := hv.stage
    simpa only [StageOk, hpc] using this
  have hslot := hd.slot_eq
  -- no warp of the other slot is about to serve the new dispatch
  have hother : ∀ s < 2, s ≠ slot → ∀ c, b.tilesDispatched ≤ b.target s c →
      b.tilesDispatched + 1 ≤ b.target s c := fun s hs hne c h => by
    have := b.target_mod hs c
    omega
  have hclosing : ¬ b.closing := by simp [closing, hpc]
  refine ⟨hr, fun s hs c hc => ?_, fun s hs c hc => ?_, fun s hs => ?_, fun i hi hw => ?_,
    fun s hs => ?_, fun i t ht hi hor c hc => ?_, ?_, hv.acquired_nodup, hv.acquired_lt, hv.calls,
    hv.calls_nodup, hv.calls_arrived⟩
  · obtain ⟨h1, h2⟩ := hv.lag s hs c hc
    show b.tilesDispatched + 1 ≤ b.target s c + 2 ∧ b.target s c ≤ b.tilesDispatched + 1 + 1
    have hmod := b.target_mod hs c
    by_cases hne : s = slot
    · subst hne
      have := hd.free c hc
      omega
    · omega
  · have hok := hv.warps s hs c hc
    unfold WarpOk PcOk at hok ⊢
    dsimp only at hok ⊢
    split <;> rename_i hw <;> simp only [hw] at hok
    · trivial
    · trivial
    · exact hok.imp_left Nat.lt_succ_of_lt
    · exact Nat.lt_succ_of_lt hok
    · exact ⟨Nat.lt_succ_of_lt hok.1, hok.2⟩
    · exact ⟨Nat.lt_succ_of_lt hok.1, hok.2⟩
    · exact ⟨⟨Nat.lt_succ_of_lt hok.1.1, hok.1.2⟩, hok.2⟩
    · exact absurd hok.1 hclosing
  · by_cases hne : s = slot
    · subst hne
      show b.computeDone s ≤ _
      rw [hdone]
      exact Nat.zero_le _
    · exact Nat.le_trans (hv.done s hs) (Finset.card_le_card
        (Finset.monotone_filter_right _ fun c _ h => hother s hs hne c h))
  · change i < b.tilesDispatched + 1 at hi
    change b.tilesDispatched + 1 ≤ i + 2 at hw
    by_cases hlast : i = b.tilesDispatched
    · left
      show b.acquired[i]? = some (b.tileId (i % 2))
      rw [hlast, ← hslot, htile]
      exact hd.tile_eq
    · refine (hv.tile i (by omega) (by omega)).imp_right fun h c hc => ?_
      exact (h c hc).imp_left fun h => hother _ (Nat.mod_lt _ (by decide)) (by omega) c h
  · exact (hv.ready s hs).imp_right fun h => absurd h hclosing
  · change i < b.tilesDispatched + 1 at hi
    change i + 1 < b.tilesDispatched + 1 ∨ _ at hor
    refine hv.arrived i t ht ?_ (.inr (by simp [sending, hpc])) c hc
    rcases hor with hor | hor
    · omega
    · exact absurd (by simp [sending, chunkLoop, Nat.lt_of_le_of_lt (Nat.zero_le c) hc]) hor
  · unfold StageOk chunkLoop
    by_cases hK : 0 < p.chunksPerTile
    · simp only [hK, if_true]
      exact ⟨hd.length, Nat.succ_pos _, hslot, hd.tile_eq, hready, hK,
        fun c hc => absurd hc (Nat.not_lt_zero c)⟩
    · simp only [hK, if_false]
      exact hd.length

/-- Before the warps are told to leave, no slot reads as told. -/
theorem Valid.ready_ne (hv : Valid p n b) (h : ¬ b.closing) :
    ∀ s < 2, b.chunksReady s ≠ p.chunksPerTile + 1 := fun s hs he => by
  have := (hv.ready s hs).resolve_right h
  omega

/-- Outside `sending`, every chunk of the last dispatch has arrived. -/
theorem Valid.last_arrived (hv : Valid p n b) (hs : ¬ b.sending) : ∀ t,
    b.acquired[b.tilesDispatched - 1]? = some t → 0 < b.tilesDispatched →
      ∀ c < p.chunksPerTile, (t, c) ∈ b.arrived :=
  fun t ht hpos => hv.arrived _ t ht (by omega) (.inr hs)

theorem valid_wait (hv : Valid p n b) {tile : Nat} (hpc : b.transfer = .wait tile)
    (hw : ¬ (2 ≤ int32 b.tilesDispatched ∧
      b.computeDone (b.tilesDispatched % 2) < p.chunksPerTile)) :
    Valid p n { b with transfer := .storeTile (b.tilesDispatched % 2) tile } := by
  have hstage : b.Holding tile := by
    have := hv.stage
    simpa only [StageOk, hpc] using this
  refine hv.shift rfl rfl rfl rfl (fun _ h => h) (by simp [closing, hpc]) (fun _ => Nat.le_refl _)
    hv.tile (fun s hs => (hv.ready s hs).imp_right (by simp [closing, hpc])) (fun _ _ h => h)
    (fun t ht h0 _ => hv.last_arrived (by simp [sending, hpc]) t ht h0)
    ⟨⟨hstage.length, hstage.tile_eq⟩, rfl, ?_⟩
  rw [int32_of_lt (Nat.lt_of_succ_lt hv.inRange)] at hw
  by_cases h2 : 2 ≤ b.tilesDispatched
  · exact hv.free_of_done (Nat.mod_lt _ (by decide))
      (Nat.le_of_not_lt fun h => hw ⟨by omega, h⟩)
  · -- the first dispatch of each slot finds its warps at their first round
    intro c _
    show b.tilesDispatched ≤ b.target (b.tilesDispatched % 2) c
    unfold target
    omega

theorem valid_storeTile (hv : Valid p n b) {slot tile : Nat}
    (hpc : b.transfer = .storeTile slot tile) :
    Valid p n { b with
      tileId := Function.update b.tileId slot tile
      transfer := .storeReady slot tile } := by
  have hstage : b.Dispatching p slot tile := by
    have := hv.stage
    simpa only [StageOk, hpc] using this
  refine hv.shift rfl rfl rfl rfl (fun _ h => h) (by simp [closing, hpc]) (fun _ => Nat.le_refl _)
    (fun i hi hw => ?_) (fun s hs => (hv.ready s hs).imp_right (by simp [closing, hpc]))
    (fun _ _ h => h)
    (fun t ht h0 _ => hv.last_arrived (by simp [sending, hpc]) t ht h0)
    ⟨⟨⟨hstage.length, hstage.tile_eq⟩, hstage.slot_eq, hstage.free⟩, Function.update_self ..⟩
  by_cases hne : i % 2 = slot
  · exact .inr fun c hc => .inl (hne ▸ hstage.free c hc)
  · show b.acquired[i]? = some (Function.update b.tileId slot tile (i % 2)) ∨ _
    rw [Function.update_of_ne hne]
    exact hv.tile i hi hw

theorem valid_storeReady (hv : Valid p n b) {slot tile : Nat}
    (hpc : b.transfer = .storeReady slot tile) :
    Valid p n { b with
      chunksReady := Function.update b.chunksReady slot 0
      transfer := .storeDone slot tile } := by
  obtain ⟨hd, ht⟩ : b.Dispatching p slot tile ∧ b.tileId slot = tile := by
    have := hv.stage
    simpa only [StageOk, hpc] using this
  refine hv.shift rfl rfl rfl rfl (fun _ h => h) (by simp [closing, hpc]) (fun _ => Nat.le_refl _)
    hv.tile (fun s hs => .inl ?_) (fun s hs h => absurd h (hv.ready_ne (by simp [closing, hpc]) s hs))
    (fun t ht h0 _ => hv.last_arrived (by simp [sending, hpc]) t ht h0)
    ⟨⟨⟨hd.length, hd.tile_eq⟩, hd.slot_eq, hd.free⟩, ht, Function.update_self ..⟩
  show Function.update b.chunksReady slot 0 s ≤ _
  by_cases hne : s = slot
  · subst hne
    rw [Function.update_self]
    exact Nat.zero_le _
  · rw [Function.update_of_ne hne]
    exact (hv.ready s hs).resolve_right (by simp [closing, hpc])

theorem valid_storeDone (hv : Valid p n b) {slot tile : Nat}
    (hpc : b.transfer = .storeDone slot tile) :
    Valid p n { b with
      computeDone := Function.update b.computeDone slot 0
      transfer := .bump slot tile } := by
  obtain ⟨hd, ht, hr⟩ : b.Dispatching p slot tile ∧ b.tileId slot = tile ∧
      b.chunksReady slot = 0 := by
    have := hv.stage
    simpa only [StageOk, hpc] using this
  refine hv.shift rfl rfl rfl rfl (fun _ h => h) (by simp [closing, hpc]) (fun s => ?_)
    hv.tile (fun s hs => (hv.ready s hs).imp_right (by simp [closing, hpc])) (fun _ _ h => h)
    (fun t ht h0 _ => hv.last_arrived (by simp [sending, hpc]) t ht h0)
    ⟨⟨⟨hd.length, hd.tile_eq⟩, hd.slot_eq, hd.free⟩, ht, hr, Function.update_self ..⟩
  show Function.update b.computeDone slot 0 s ≤ b.computeDone s
  rw [Function.update_apply]
  split
  · exact Nat.zero_le _
  · exact Nat.le_refl _

theorem valid_submit (hv : Valid p n b) {slot tile chunk : Nat}
    (hpc : b.transfer = .submit slot tile chunk) :
    Valid p n { b with
      arrived := b.arrived ++ [(tile, chunk)]
      transfer := .ready slot tile chunk } := by
  have hs : b.Sending p slot tile chunk := by
    have := hv.stage
    simpa only [StageOk, hpc] using this
  have harr : ∀ x ∈ b.arrived, x ∈ b.arrived ++ [(tile, chunk)] :=
    fun x hx => List.mem_append_left _ hx
  exact hv.shift rfl rfl rfl rfl harr (by simp [closing, hpc]) (fun _ => Nat.le_refl _)
    hv.tile (fun s hs => (hv.ready s hs).imp_right (by simp [closing, hpc])) (fun _ _ h => h)
    (fun _ _ _ h => absurd trivial h)
    ⟨⟨hs.length, hs.pos, hs.slot_eq, hs.tile_eq, hs.ready, hs.chunk_lt,
      fun c hc => harr _ (hs.arrived c hc)⟩, List.mem_append_right _ (List.mem_singleton.mpr rfl)⟩

theorem valid_ready (hv : Valid p n b) {slot tile chunk : Nat}
    (hpc : b.transfer = .ready slot tile chunk) :
    Valid p n { b with
      chunksReady := Function.update b.chunksReady slot (chunk + 1)
      transfer := chunkLoop p slot tile (chunk + 1) } := by
  obtain ⟨hs, hm⟩ : b.Sending p slot tile chunk ∧ (tile, chunk) ∈ b.arrived := by
    have := hv.stage
    simpa only [StageOk, hpc] using this
  have harr : ∀ c < chunk + 1, (tile, c) ∈ b.arrived := fun c hc => by
    rcases Nat.lt_succ_iff_lt_or_eq.mp hc with h | rfl
    · exact hs.arrived c h
    · exact hm
  refine hv.shift rfl rfl rfl rfl (fun _ h => h) (by simp [closing, hpc]) (fun _ => Nat.le_refl _)
    hv.tile (fun s hs' => ?_) (fun s hs h => absurd h (hv.ready_ne (by simp [closing, hpc]) s hs))
    (fun t ht h0 hns c hc => ?_) ?_
  · refine .inl ?_
    show Function.update b.chunksReady slot (chunk + 1) s ≤ _
    by_cases hne : s = slot
    · subst hne
      rw [Function.update_self]
      exact hs.chunk_lt
    · rw [Function.update_of_ne hne]
      exact (hv.ready s hs').resolve_right (by simp [closing, hpc])
  · -- the loop over the chunks is over
    obtain rfl : tile = t := Option.some.inj (hs.tile_eq.symm.trans ht)
    refine harr c (Nat.lt_of_lt_of_le hc (Nat.le_of_not_lt fun h => hns ?_))
    simp [sending, chunkLoop, h]
  · unfold StageOk chunkLoop
    by_cases hK : chunk + 1 < p.chunksPerTile
    · simp only [hK, if_true]
      exact ⟨hs.length, hs.pos, hs.slot_eq, hs.tile_eq, Function.update_self .., hK, harr⟩
    · simp only [hK, if_false]
      exact hs.length

theorem valid_finish (hv : Valid p n b) (hpc : b.transfer = .finish)
    (hw : ¬ (0 < int32 b.tilesDispatched ∧
      b.computeDone ((b.tilesDispatched - 1) % 2) < p.chunksPerTile)) :
    Valid p n { b with transfer := .sentinelTile 0 } := by
  have hlen : b.acquired.length = b.tilesDispatched := by
    have := hv.stage
    simpa only [StageOk, hpc] using this
  refine hv.shift rfl rfl rfl rfl (fun _ h => h) (by simp [closing, hpc]) (fun _ => Nat.le_refl _)
    hv.tile (fun s hs => (hv.ready s hs).imp_right (by simp [closing, hpc])) (fun _ _ h => h)
    (fun t ht h0 _ => hv.last_arrived (by simp [sending, hpc]) t ht h0)
    ⟨hlen, by decide, ?_, fun s hs => absurd hs (Nat.not_lt_zero s)⟩
  rw [int32_of_lt (Nat.lt_of_succ_lt hv.inRange)] at hw
  by_cases h0 : 0 < b.tilesDispatched
  · exact hv.free_of_done (Nat.mod_lt _ (by decide))
      (Nat.le_of_not_lt fun h => hw ⟨by omega, h⟩)
  · intro c _
    show b.tilesDispatched ≤ _
    omega

theorem valid_sentinelTile (hv : Valid p n b) {slot : Nat} (hpc : b.transfer = .sentinelTile slot)
    (ho : slot ≠ (b.tilesDispatched - 1) % 2 → b.Loaded p slot) :
    Valid p n { b with
      tileId := Function.update b.tileId slot noTile
      transfer := if slot = 0 then .sentinelTile 1 else .sentinelReady 0 } := by
  obtain ⟨hlen, hslot, hfree, hbelow⟩ : b.acquired.length = b.tilesDispatched ∧ slot < 2 ∧
      b.Free p ((b.tilesDispatched - 1) % 2) ∧ ∀ s < slot, b.Loaded p s := by
    have := hv.stage
    simpa only [StageOk, hpc] using this
  have hloaded : b.Loaded p slot := by
    by_cases h : slot = (b.tilesDispatched - 1) % 2
    · exact fun c hc => .inl (h ▸ hfree c hc)
    · exact ho h
  refine hv.shift rfl rfl rfl rfl (fun _ h => h) (by simp [closing, hpc]) (fun _ => Nat.le_refl _)
    (fun i hi hw => ?_) (fun s hs => (hv.ready s hs).imp_right (by simp [closing, hpc]))
    (fun _ _ h => h)
    (fun t ht h0 _ => hv.last_arrived (by simp [sending, hpc]) t ht h0) ?_
  · by_cases hne : i % 2 = slot
    · exact .inr (hne ▸ hloaded)
    · show b.acquired[i]? = some (Function.update b.tileId slot noTile (i % 2)) ∨ _
      rw [Function.update_of_ne hne]
      exact hv.tile i hi hw
  · unfold StageOk
    by_cases h0 : slot = 0
    · simp only [h0, if_true]
      exact ⟨hlen, by decide, hfree, fun s hs => by
        obtain rfl : s = slot := by omega
        exact hloaded⟩
    · simp only [h0, if_false]
      refine ⟨hlen, by decide, fun s hs => ?_⟩
      by_cases hs' : s < slot
      · exact hbelow s hs'
      · obtain rfl : s = slot := by omega
        exact hloaded

theorem valid_sentinelReady (hv : Valid p n b) {slot : Nat}
    (hpc : b.transfer = .sentinelReady slot) :
    Valid p n { b with
      chunksReady := Function.update b.chunksReady slot (p.chunksPerTile + 1)
      transfer := if slot = 0 then .sentinelReady 1 else .exited } := by
  obtain ⟨hlen, -, hloaded⟩ : b.acquired.length = b.tilesDispatched ∧ slot < 2 ∧
      ∀ s < 2, b.Loaded p s := by
    have := hv.stage
    simpa only [StageOk, hpc] using this
  have hclosing : closing { b with
      chunksReady := Function.update b.chunksReady slot (p.chunksPerTile + 1)
      transfer := if slot = 0 then .sentinelReady 1 else .exited } := by
    unfold closing
    by_cases h0 : slot = 0 <;> simp [h0]
  refine hv.shift rfl rfl rfl rfl (fun _ h => h) (fun _ => hclosing) (fun _ => Nat.le_refl _)
    hv.tile (fun s hs => .inr hclosing) (fun s _ h => ?_)
    (fun t ht h0 _ => hv.last_arrived (by simp [sending, hpc]) t ht h0) ?_
  · show Function.update b.chunksReady slot (p.chunksPerTile + 1) s = _
    rw [Function.update_apply]
    split
    · rfl
    · exact h
  unfold StageOk
  by_cases h0 : slot = 0
  · simp only [h0, if_true]
    exact ⟨hlen, by decide, hloaded⟩
  · simp only [h0, if_false]
    exact ⟨hlen, hloaded⟩

theorem valid_transferStep (hv : Valid p n b) (ho : b.Orderly p n) {r : Block × Nat}
    (h : b.transferStep p n = some r) : n ≤ r.2 ∧ Valid p r.2 r.1 := by
  unfold Orderly at ho
  unfold transferStep at h
  split at h <;> rename_i hpc <;> simp only [hpc] at ho
  · dsimp only at h
    rw [Nat.mod_eq_of_lt ho] at h
    split at h <;> cases h
    · exact ⟨Nat.le_succ n, valid_acquire hv hpc ‹_›⟩
    · have hlen : b.acquired.length = b.tilesDispatched := by
        have := hv.stage
        simpa only [StageOk, hpc] using this
      have hfinish : Valid p n { b with transfer := .finish } :=
        hv.shift rfl rfl rfl rfl (fun _ h => h) (by simp [closing, hpc]) (fun _ => Nat.le_refl _)
          hv.tile (fun s hs => (hv.ready s hs).imp_right (by simp [closing, hpc])) (fun _ _ h => h)
          (fun t ht h0 _ => hv.last_arrived (by simp [sending, hpc]) t ht h0) hlen
      exact ⟨Nat.le_succ n, hfinish.mono (Nat.le_succ n)⟩
  · dsimp only at h
    split at h
    · cases h
    · cases h; exact ⟨Nat.le_refl n, valid_wait hv hpc ‹_›⟩
  · cases h; exact ⟨Nat.le_refl n, valid_storeTile hv hpc⟩
  · cases h; exact ⟨Nat.le_refl n, valid_storeReady hv hpc⟩
  · cases h; exact ⟨Nat.le_refl n, valid_storeDone hv hpc⟩
  · cases h; exact ⟨Nat.le_refl n, valid_bump hv hpc ho⟩
  · cases h; exact ⟨Nat.le_refl n, valid_submit hv hpc⟩
  · cases h; exact ⟨Nat.le_refl n, valid_ready hv hpc⟩
  · split at h
    · cases h
    · cases h; exact ⟨Nat.le_refl n, valid_finish hv hpc ‹_›⟩
  · cases h; exact ⟨Nat.le_refl n, valid_sentinelTile hv hpc ho⟩
  · cases h; exact ⟨Nat.le_refl n, valid_sentinelReady hv hpc⟩
  · cases h

/-! ## The compute warps -/

/-- A step of the warp of `slot` and `chunk`, which only moves forward. -/
theorem Valid.advance (hv : Valid p n b) {slot chunk : Nat} {w : Warp} {done : Nat → Nat}
    {calls : List (Nat × Nat)} {b' : Block}
    (hb' : b' = { b with
      warp := Function.update b.warp (slot, chunk) w
      computeDone := done
      calls := calls })
    (hle : b.target slot chunk ≤ 2 * w.localTileCount + slot ∧
      2 * w.localTileCount + slot ≤ b.tilesDispatched + 1)
    (hloaded : (b.warp (slot, chunk)).pc.hasTile →
      b.tilesDispatched ≤ 2 * w.localTileCount + slot ∨ w.pc.hasTile)
    (hok : chunk < p.chunksPerTile → b'.WarpOk p slot chunk)
    (hdone : ∀ s < 2, done s ≤
      ((Finset.range p.chunksPerTile).filter fun c => b.tilesDispatched ≤ b'.target s c).card)
    (hstay : ∀ s, b.Free p s → done s = b.computeDone s)
    (hcalls : ∀ t c, (t, c) ∈ calls ↔ b'.Served p t c) (hnodup : calls.Nodup)
    (harr : ∀ x ∈ calls, x ∈ b.arrived) : Valid p n b' := by
  have hself : b'.target slot chunk = 2 * w.localTileCount + slot := by
    subst hb'
    simp only [target, Function.update_self]
  have hne : ∀ {s c}, (s, c) ≠ (slot, chunk) →
      b'.warp (s, c) = b.warp (s, c) ∧ b'.target s c = b.target s c := fun h => by
    subst hb'
    simp only [target, Function.update_of_ne h, and_self]
  have htarget : ∀ s c, b.target s c ≤ b'.target s c := fun s c => by
    by_cases h : (s, c) = (slot, chunk)
    · cases h; rw [hself]; exact hle.1
    · rw [(hne h).2]
  have hwself : b'.warp (slot, chunk) = w := by rw [hb']; exact Function.update_self ..
  have hl : ∀ s, b.Loaded p s → b'.Loaded p s := fun s h c hc => by
    have hn : b'.tilesDispatched = b.tilesDispatched := by rw [hb']
    rw [hn]
    rcases h c hc with h | h
    · exact .inl (Nat.le_trans h (htarget s c))
    · by_cases hsc : (s, c) = (slot, chunk)
      · cases hsc
        rw [hself, hwself]
        exact hloaded h
      · rw [(hne hsc).1]
        exact .inr h
  have hfree : ∀ s, b.Free p s → b'.Free p s := fun s h c hc => by
    have hn : b'.tilesDispatched = b.tilesDispatched := by rw [hb']
    rw [hn]
    exact Nat.le_trans (h c hc) (htarget s c)
  subst hb'
  refine ⟨hv.inRange, fun s hs c hc => ?_, fun s hs c hc => ?_, hdone,
    fun i hi hw => (hv.tile i hi hw).imp_right (hl _), hv.ready, hv.arrived, ?_, hv.acquired_nodup,
    hv.acquired_lt, hcalls, hnodup, harr⟩
  · obtain ⟨h1, h2⟩ := hv.lag s hs c hc
    refine ⟨Nat.le_trans h1 (Nat.add_le_add_right (htarget s c) 2), ?_⟩
    by_cases h : (s, c) = (slot, chunk)
    · cases h; rw [hself]; exact hle.2
    · rw [(hne h).2]; exact h2
  · by_cases h : (s, c) = (slot, chunk)
    · cases h; exact hok hc
    · have := hv.warps s hs c hc
      unfold WarpOk PcOk Busy at this ⊢
      rw [(hne h).1, (hne h).2]
      exact this
  · have := hv.stage
    unfold StageOk at this ⊢
    dsimp only at this ⊢
    split <;> rename_i hpc <;> simp only [hpc] at this
    · exact this
    · exact this
    · exact ⟨this.length, this.tile_eq⟩
    · exact ⟨⟨this.length, this.tile_eq⟩, this.slot_eq, hfree _ this.free⟩
    · exact ⟨⟨⟨this.1.length, this.1.tile_eq⟩, this.1.slot_eq, hfree _ this.1.free⟩, this.2⟩
    · exact ⟨⟨⟨this.1.length, this.1.tile_eq⟩, this.1.slot_eq, hfree _ this.1.free⟩, this.2⟩
    · exact ⟨⟨⟨this.1.length, this.1.tile_eq⟩, this.1.slot_eq, hfree _ this.1.free⟩, this.2.1,
        this.2.2.1, (hstay _ this.1.free).trans this.2.2.2⟩
    · exact ⟨this.length, this.pos, this.slot_eq, this.tile_eq, this.ready, this.chunk_lt,
        this.arrived⟩
    · exact ⟨⟨this.1.length, this.1.pos, this.1.slot_eq, this.1.tile_eq, this.1.ready,
        this.1.chunk_lt, this.1.arrived⟩, this.2⟩
    · exact ⟨this.1, this.2.1, hfree _ this.2.2.1, fun s hs => hl s (this.2.2.2 s hs)⟩
    · exact ⟨this.1, this.2.1, fun s hs => hl s (this.2.2 s hs)⟩
    · exact ⟨this.1, fun s hs => hl s (this.2 s hs)⟩

/-- A step of a compute warp that neither calls `compute_fn` nor counts itself. -/
theorem Valid.setPc (hv : Valid p n b) {slot chunk : Nat} {pc : Compute} (hs : slot < 2)
    (hc : chunk < p.chunksPerTile)
    (hcalled : ¬ (b.warp (slot, chunk)).pc.called ∧ ¬ pc.called)
    (hloaded : (b.warp (slot, chunk)).pc.hasTile → pc.hasTile)
    (hok : (b.setPc slot chunk pc).WarpOk p slot chunk) : Valid p n (b.setPc slot chunk pc) := by
  have hcall : ∀ s c, ((b.setPc slot chunk pc).warp (s, c)).pc.called ↔
      (b.warp (s, c)).pc.called := fun s c => by
    by_cases h : (s, c) = (slot, chunk)
    · cases h
      rw [setPc_pc_self]
      exact iff_of_false hcalled.2 hcalled.1
    · rw [setPc_warp_of_ne b h]
  refine hv.advance (w := { b.warp (slot, chunk) with pc := pc }) rfl ⟨Nat.le_refl _, (hv.lag slot hs chunk hc).2⟩
    (fun h => .inr (hloaded h)) (fun _ => hok) (fun s hs' => ?_) (fun _ _ => rfl) (fun t c => ?_)
    hv.calls_nodup hv.calls_arrived
  · simp only [setPc_target]
    exact hv.done s hs'
  · rw [hv.calls]
    simp only [Served, setPc_target, hcall]
    rfl

/-- While a warp is busy, it has been called for its dispatch only at `count`. -/
theorem Valid.not_served (hv : Valid p n b) {slot chunk tile : Nat} (hs : slot < 2)
    (hb : b.Busy slot chunk tile) (hcalled : ¬ (b.warp (slot, chunk)).pc.called) :
    ¬ b.Served p tile chunk := by
  rintro ⟨-, i, hi, hserved⟩
  -- a tile is acquired once, so `i` is the dispatch the warp serves
  obtain rfl : i = b.target slot chunk := by
    obtain ⟨h1, e1⟩ := List.getElem?_eq_some_iff.mp hi
    obtain ⟨h2, e2⟩ := List.getElem?_eq_some_iff.mp hb.2
    exact (List.Nodup.getElem_inj_iff hv.acquired_nodup).mp (e1.trans e2.symm)
  rw [b.target_mod hs] at hserved
  rcases hserved with h | ⟨-, h⟩
  · exact Nat.lt_irrefl _ h
  · exact hcalled h

theorem valid_compute (hv : Valid p n b) {slot chunk tile : Nat} (hs : slot < 2)
    (hc : chunk < p.chunksPerTile) (hpc : (b.warp (slot, chunk)).pc = .compute tile) :
    Valid p n { b.setPc slot chunk (.count tile) with calls := b.calls ++ [(tile, chunk)] } := by
  obtain ⟨hbusy, harr⟩ : b.Busy slot chunk tile ∧ (tile, chunk) ∈ b.arrived := by
    have := hv.warps slot hs chunk hc
    simpa only [WarpOk, PcOk, hpc] using this
  have hnew : (tile, chunk) ∉ b.calls := fun h =>
    hv.not_served hs hbusy (by simp [Compute.called, hpc]) ((hv.calls _ _).mp h)
  refine hv.advance (w := { b.warp (slot, chunk) with pc := .count tile }) rfl ⟨Nat.le_refl _, (hv.lag slot hs chunk hc).2⟩
    (fun _ => .inr trivial) (fun _ => ?_) (fun s hs' => ?_) (fun _ _ => rfl) (fun t c => ?_)
    ?_ ?_
  · show (b.setPc slot chunk (.count tile)).WarpOk p slot chunk
    unfold WarpOk PcOk Busy
    rw [setPc_pc_self, setPc_target]
    exact hbusy
  · show _ ≤ ((Finset.range p.chunksPerTile).filter fun c =>
      b.tilesDispatched ≤ (b.setPc slot chunk (.count tile)).target s c).card
    simp only [setPc_target]
    exact hv.done s hs'
  · show (t, c) ∈ b.calls ++ [(tile, chunk)] ↔ (b.setPc slot chunk (.count tile)).Served p t c
    rw [List.mem_append, List.mem_singleton, hv.calls]
    unfold Served
    simp only [setPc_target]
    constructor
    · rintro (⟨hcK, i, hi, hserved⟩ | heq)
      · refine ⟨hcK, i, hi, hserved.imp_right fun h => ⟨h.1, ?_⟩⟩
        by_cases hsc : (i % 2, c) = (slot, chunk)
        · cases hsc
          rw [setPc_pc_self]
          trivial
        · rw [setPc_warp_of_ne b hsc]
          exact h.2
      · cases heq
        refine ⟨hc, b.target slot chunk, hbusy.2, .inr ?_⟩
        rw [b.target_mod hs, setPc_pc_self]
        exact ⟨rfl, trivial⟩
    · rintro ⟨hcK, i, hi, h | ⟨h, hcalled⟩⟩
      · exact .inl ⟨hcK, i, hi, .inl h⟩
      · by_cases hsc : (i % 2, c) = (slot, chunk)
        · -- the dispatch `compute_fn` is called for
          obtain ⟨rfl, rfl⟩ := Prod.mk.inj hsc
          obtain rfl : t = tile := Option.some.inj ((h ▸ hi).symm.trans hbusy.2)
          exact .inr rfl
        · rw [setPc_warp_of_ne b hsc] at hcalled
          exact .inl ⟨hcK, i, hi, .inr ⟨h, hcalled⟩⟩
  · exact List.nodup_append'.mpr ⟨hv.calls_nodup, List.nodup_singleton _,
      List.disjoint_singleton.mpr hnew⟩
  · intro x hx
    rcases List.mem_append.mp hx with h | h
    · exact hv.calls_arrived x h
    · rw [List.mem_singleton.mp h]
      exact harr

/-- Counting itself ends the warp's round. -/
theorem valid_count (hv : Valid p n b) {slot chunk tile : Nat} (hs : slot < 2)
    (hc : chunk < p.chunksPerTile) (hpc : (b.warp (slot, chunk)).pc = .count tile) :
    Valid p n { b with
      computeDone := Function.update b.computeDone slot (b.computeDone slot + 1)
      warp := Function.update b.warp (slot, chunk)
        ⟨.dispatch, (b.warp (slot, chunk)).localTileCount + 1⟩ } := by
  obtain ⟨hlt, hacq⟩ : b.Busy slot chunk tile := by
    have := hv.warps slot hs chunk hc
    simpa only [WarpOk, PcOk, hpc] using this
  have hlag := (hv.lag slot hs chunk hc).1
  have hnext : 2 * ((b.warp (slot, chunk)).localTileCount + 1) + slot = b.target slot chunk + 2 := by
    unfold target
    omega
  have ht : ∀ s c, target { b with
      computeDone := Function.update b.computeDone slot (b.computeDone slot + 1)
      warp := Function.update b.warp (slot, chunk)
        ⟨.dispatch, (b.warp (slot, chunk)).localTileCount + 1⟩ } s c =
      if (s, c) = (slot, chunk) then b.target slot chunk + 2 else b.target s c := fun s c => by
    by_cases h : (s, c) = (slot, chunk)
    · cases h
      simp only [target, Function.update_self, if_true]
      omega
    · simp only [target, Function.update_of_ne h, h, if_false]
  refine hv.advance rfl (by rw [hnext]; omega) (fun _ => .inl (by rw [hnext]; exact hlag))
    (fun _ => ?_) (fun s hs' => ?_) (fun s hf => ?_) (fun t c => ?_) hv.calls_nodup hv.calls_arrived
  · simp only [WarpOk, PcOk, Function.update_self]
  · simp only [ht]
    by_cases hsl : s = slot
    · subst hsl
      rw [Function.update_self]
      -- the warp joins the warps that have finished the slot's last dispatch
      have hsub : insert chunk ((Finset.range p.chunksPerTile).filter
          fun c => b.tilesDispatched ≤ b.target s c) ⊆ (Finset.range p.chunksPerTile).filter
          fun c => b.tilesDispatched ≤ if (s, c) = (s, chunk) then b.target s chunk + 2
            else b.target s c := by
        intro c hm
        rcases Finset.mem_insert.mp hm with rfl | hm
        · exact Finset.mem_filter.mpr ⟨Finset.mem_range.mpr hc, by simpa using hlag⟩
        · obtain ⟨h1, h2⟩ := Finset.mem_filter.mp hm
          refine Finset.mem_filter.mpr ⟨h1, ?_⟩
          split
          · exact hlag
          · exact h2
      have hnm : chunk ∉ (Finset.range p.chunksPerTile).filter
          fun c => b.tilesDispatched ≤ b.target s c :=
        fun hm => Nat.not_lt.mpr (Finset.mem_filter.mp hm).2 hlt
      refine Nat.le_trans ?_ (Finset.card_le_card hsub)
      rw [Finset.card_insert_of_notMem hnm]
      exact Nat.succ_le_succ (hv.done s hs)
    · rw [Function.update_of_ne hsl]
      refine Nat.le_trans (hv.done s hs') (Finset.card_le_card fun c hm => ?_)
      obtain ⟨h1, h2⟩ := Finset.mem_filter.mp hm
      refine Finset.mem_filter.mpr ⟨h1, ?_⟩
      rwa [if_neg fun h => hsl (Prod.mk.inj h).1]
  · by_cases hsl : s = slot
    · subst hsl
      exact absurd (hf chunk hc) (Nat.not_le.mpr hlt)
    · exact Function.update_of_ne hsl ..
  · rw [hv.calls]
    refine and_congr_right fun hcK => exists_congr fun i => and_congr_right fun hi => ?_
    rw [ht]
    by_cases hsc : (i % 2, c) = (slot, chunk)
    · obtain ⟨rfl, rfl⟩ := Prod.mk.inj hsc
      have := b.target_mod hs c
      simp only [hpc, Compute.called, Function.update_self, if_true, and_true, and_false, or_false]
      omega
    · simp only [hsc, if_false, Function.update_of_ne (show (i % 2, c) ≠ (slot, chunk) from hsc)]

theorem Valid.loaded_of_closing (hv : Valid p n b) (h : b.closing) : ∀ s < 2, b.Loaded p s := by
  have hstage := hv.stage
  unfold closing at h
  unfold StageOk at hstage
  split at h
  · rename_i hpc
    simp only [hpc] at hstage
    exact hstage.2.2
  · rename_i hpc
    simp only [hpc] at hstage
    exact hstage.2
  · exact h.elim

/-- A busy warp that finds its chunk ready finds it arrived. -/
theorem Valid.arrived_of_ready (hv : Valid p n b) {slot chunk tile : Nat} (hs : slot < 2)
    (hc : chunk < p.chunksPerTile) (hbusy : b.Busy slot chunk tile)
    (hready : chunk < b.chunksReady slot) : (tile, chunk) ∈ b.arrived := by
  by_cases hlast : b.target slot chunk + 1 < b.tilesDispatched
  · exact hv.arrived _ _ hbusy.2 hbusy.1 (.inl hlast) chunk hc
  have hlt := hbusy.1
  have hmod := b.target_mod hs chunk
  -- the chunks the transfer warp is sending are those of this very dispatch
  have hsending : ∀ {t k}, b.Sending p ((b.tilesDispatched - 1) % 2) t k →
      (tile, chunk) ∈ b.arrived := fun {t k} h => by
    have htarget : b.target slot chunk = b.tilesDispatched - 1 := by omega
    obtain rfl : tile = t := Option.some.inj (hbusy.2.symm.trans (htarget ▸ h.tile_eq))
    have hslot : (b.tilesDispatched - 1) % 2 = slot := by omega
    exact h.arrived chunk (by rw [← h.ready, hslot]; exact hready)
  have hstage := hv.stage
  by_cases hsend : b.sending
  · unfold sending at hsend
    unfold StageOk at hstage
    split at hsend
    · rename_i hpc
      simp only [hpc] at hstage
      exact hsending (hstage.slot_eq ▸ hstage)
    · rename_i hpc
      simp only [hpc] at hstage
      exact hsending (hstage.1.slot_eq ▸ hstage.1)
    · exact hsend.elim
  · exact hv.arrived _ _ hbusy.2 hbusy.1 (.inr hsend) chunk hc

theorem valid_dispatch (hv : Valid p n b) {slot chunk : Nat} (hs : slot < 2)
    (hc : chunk < p.chunksPerTile) (hpc : (b.warp (slot, chunk)).pc = .dispatch) :
    Valid p n (b.setPc slot chunk
      (if int32 (b.target slot chunk) < int32 b.tilesDispatched then .check else .spin)) := by
  have hrange := hv.inRange
  have htarget := (hv.lag slot hs chunk hc).2
  split
  · refine hv.setPc hs hc (by simp [Compute.called, hpc]) (by simp [Compute.hasTile, hpc]) ?_
    rename_i h
    rw [int32_of_lt (by omega), int32_of_lt (by omega)] at h
    rw [WarpOk, setPc_pc_self, pcOk_setPc]
    exact .inl (Int.ofNat_lt.mp h)
  · refine hv.setPc hs hc (by simp [Compute.called, hpc]) (by simp [Compute.hasTile, hpc]) ?_
    rw [WarpOk, setPc_pc_self]
    trivial

theorem valid_spin (hv : Valid p n b) {slot chunk : Nat} (hs : slot < 2)
    (hc : chunk < p.chunksPerTile) (hpc : (b.warp (slot, chunk)).pc = .spin) :
    Valid p n (b.setPc slot chunk
      (if b.chunksReady slot = p.chunksPerTile + 1 then .check else .dispatch)) := by
  split
  · refine hv.setPc hs hc (by simp [Compute.called, hpc]) (by simp [Compute.hasTile, hpc]) ?_
    rw [WarpOk, setPc_pc_self, pcOk_setPc]
    exact .inr ‹_›
  · refine hv.setPc hs hc (by simp [Compute.called, hpc]) (by simp [Compute.hasTile, hpc]) ?_
    rw [WarpOk, setPc_pc_self]
    trivial

/-- While a warp is busy and has not loaded its tile, its slot is not given up. -/
theorem not_loaded {slot chunk : Nat} (hc : chunk < p.chunksPerTile)
    (hlt : b.target slot chunk < b.tilesDispatched)
    (hno : ¬ (b.warp (slot, chunk)).pc.hasTile) : ¬ b.Loaded p slot := fun hl =>
  (hl chunk hc).elim (fun h => Nat.not_le.mpr hlt h) hno

theorem valid_check (hv : Valid p n b) {slot chunk : Nat} (hs : slot < 2)
    (hc : chunk < p.chunksPerTile) (hpc : (b.warp (slot, chunk)).pc = .check) :
    Valid p n (b.setPc slot chunk
      (if b.chunksReady slot = p.chunksPerTile + 1 then .exited else .loadTile)) := by
  have hok : b.target slot chunk < b.tilesDispatched ∨ b.chunksReady slot = p.chunksPerTile + 1 := by
    have := hv.warps slot hs chunk hc
    simpa only [WarpOk, PcOk, hpc] using this
  split
  · refine hv.setPc hs hc (by simp [Compute.called, hpc]) (by simp [Compute.hasTile, hpc]) ?_
    have hclosing := (hv.ready slot hs).resolve_left (by omega)
    rw [WarpOk, setPc_pc_self, pcOk_setPc]
    exact ⟨hclosing, Nat.le_of_not_lt fun hlt =>
      not_loaded hc hlt (by simp [Compute.hasTile, hpc]) (hv.loaded_of_closing hclosing slot hs)⟩
  · refine hv.setPc hs hc (by simp [Compute.called, hpc]) (by simp [Compute.hasTile, hpc]) ?_
    rw [WarpOk, setPc_pc_self, pcOk_setPc]
    exact hok.resolve_right ‹_›

theorem valid_loadTile (hv : Valid p n b) {slot chunk : Nat} (hs : slot < 2)
    (hc : chunk < p.chunksPerTile) (hpc : (b.warp (slot, chunk)).pc = .loadTile) :
    Valid p n (b.setPc slot chunk
      (if b.tileId slot = noTile then .exited else .waitChunk (b.tileId slot))) := by
  have hok : b.target slot chunk < b.tilesDispatched := by
    have := hv.warps slot hs chunk hc
    simpa only [WarpOk, PcOk, hpc] using this
  have htile := hv.tile _ hok (hv.lag slot hs chunk hc).1
  rw [b.target_mod hs] at htile
  have htile := htile.resolve_right (not_loaded hc hok (by simp [Compute.hasTile, hpc]))
  have hlt := (hv.acquired_lt _ (List.mem_of_getElem? htile)).1
  have hne : b.tileId slot ≠ noTile :=
    Nat.ne_of_lt (Nat.lt_of_lt_of_le hlt (Nat.le_sub_one_of_lt p.totalTiles_lt))
  rw [if_neg hne]
  refine hv.setPc hs hc (by simp [Compute.called, hpc]) (by simp [Compute.hasTile, hpc]) ?_
  rw [WarpOk, setPc_pc_self, pcOk_setPc]
  exact ⟨hok, htile⟩

theorem valid_waitChunk (hv : Valid p n b) {slot chunk tile : Nat} (hs : slot < 2)
    (hc : chunk < p.chunksPerTile) (hpc : (b.warp (slot, chunk)).pc = .waitChunk tile)
    (hready : chunk < b.chunksReady slot) : Valid p n (b.setPc slot chunk (.compute tile)) := by
  have hok : b.Busy slot chunk tile := by
    have := hv.warps slot hs chunk hc
    simpa only [WarpOk, PcOk, hpc] using this
  refine hv.setPc hs hc (by simp [Compute.called, hpc]) (fun _ => trivial) ?_
  rw [WarpOk, setPc_pc_self, pcOk_setPc]
  exact ⟨hok, hv.arrived_of_ready hs hc hok hready⟩

theorem valid_computeStep (hv : Valid p n b) {slot chunk : Nat} (hs : slot < 2)
    (hc : chunk < p.chunksPerTile) {b' : Block} (h : b.computeStep p slot chunk = some b') :
    Valid p n b' := by
  unfold computeStep at h
  split at h
  · cases h; exact valid_dispatch hv hs hc ‹_›
  · cases h; exact valid_spin hv hs hc ‹_›
  · cases h; exact valid_check hv hs hc ‹_›
  · cases h; exact valid_loadTile hv hs hc ‹_›
  · split at h
    · cases h
    · cases h; exact valid_waitChunk hv hs hc ‹_› (Nat.lt_of_not_le ‹_›)
  · cases h; exact valid_compute hv hs hc ‹_›
  · cases h; exact valid_count hv hs hc ‹_›
  · cases h

end Block

/-- The blocks of the grid and the tile counter they share. -/
structure Grid (B : Type) where
  nextTile : Nat
  block : B → Block

namespace Grid

variable {B : Type}

def init : Grid B := ⟨0, fun _ => Block.init⟩

inductive Act (B : Type)
  | transfer (b : B)
  | compute (b : B) (slot chunk : Nat)

def step [DecidableEq B] (p : TileScheduler) (g : Grid B) : Act B → Option (Grid B)
  | .transfer b =>
    ((g.block b).transferStep p g.nextTile).map fun r =>
      { nextTile := r.2, block := Function.update g.block b r.1 }
  | .compute b slot chunk =>
    if slot < 2 ∧ chunk < p.chunksPerTile then
      ((g.block b).computeStep p slot chunk).map fun r =>
        { g with block := Function.update g.block b r }
    else none

/-- A step under which the exit protocol does no harm: the sentinel of the slot
that was not waited for is stored only when the slot's warps have loaded their
tile id, and the 32-bit counters do not overflow. -/
def Orderly (p : TileScheduler) (g : Grid B) : Act B → Prop
  | .transfer b => (g.block b).Orderly p g.nextTile
  | .compute _ _ _ => True

instance (p : TileScheduler) (g : Grid B) (a : Act B) : Decidable (g.Orderly p a) :=
  match a with
  | .transfer b => inferInstanceAs (Decidable ((g.block b).Orderly p g.nextTile))
  | .compute _ _ _ => isTrue trivial

/-! ## Every run -/

variable [DecidableEq B] {p : TileScheduler}

theorem valid_step {g g' : Grid B} {a : Act B} (hv : ∀ b, (g.block b).Valid p g.nextTile)
    (ho : g.Orderly p a) (h : g.step p a = some g') : ∀ b, (g'.block b).Valid p g'.nextTile := by
  intro b'
  cases a with
  | transfer b =>
    obtain ⟨r, hr, rfl⟩ := Option.map_eq_some_iff.mp h
    obtain ⟨hle, hvalid⟩ := Block.valid_transferStep (hv b) ho hr
    by_cases hb : b' = b
    · subst hb
      simpa only [Function.update_self] using hvalid
    · simpa only [Function.update_of_ne hb] using (hv b').mono hle
  | compute b slot chunk =>
    simp only [step] at h
    split at h
    · rename_i hlt
      obtain ⟨r, hr, rfl⟩ := Option.map_eq_some_iff.mp h
      by_cases hb : b' = b
      · subst hb
        simpa only [Function.update_self] using Block.valid_computeStep (hv b') hlt.1 hlt.2 hr
      · simpa only [Function.update_of_ne hb] using hv b'
    · cases h

theorem valid_of_reachable {g : Grid B}
    (h : Reachable (step p) (Orderly p) (· = init) g) (b : B) : (g.block b).Valid p g.nextTile :=
  h.invariant (I := fun g => ∀ b, (g.block b).Valid p g.nextTile)
    (by rintro _ rfl b; exact Block.valid_init p 0) (fun _ _ _ hv ho hs => valid_step hv ho hs) b

end Grid

/-- Every chunk is computed once: `compute_fn` is called only for chunks of
acquired tiles whose wait has returned, at most once for each, and for all of
them by the time the block leaves. -/
structure Block.ComputedOnce (p : TileScheduler) (b : Block) : Prop where
  valid : ∀ t c, (t, c) ∈ b.calls → t ∈ b.acquired ∧ c < p.chunksPerTile ∧ (t, c) ∈ b.arrived
  at_most : ∀ t c, b.calls.count (t, c) ≤ 1
  exactly : b.Left p → ∀ t ∈ b.acquired, ∀ c < p.chunksPerTile, b.calls.count (t, c) = 1

theorem Block.Valid.computedOnce {p : TileScheduler} {n : Nat} {b : Block} (hv : b.Valid p n) :
    b.ComputedOnce p where
  valid t c h := by
    obtain ⟨hc, i, hi, -⟩ := (hv.calls t c).mp h
    exact ⟨List.mem_of_getElem? hi, hc, hv.calls_arrived _ h⟩
  at_most t c := List.nodup_iff_count_le_one.mp hv.calls_nodup (t, c)
  exactly hleft t ht c hc := by
    obtain ⟨i, hi⟩ := List.mem_iff_getElem?.mp ht
    have hlen : b.acquired.length = b.tilesDispatched := by
      have := hv.stage
      simp only [StageOk, hleft.1] at this
      exact this.1
    have hs : i % 2 < 2 := Nat.mod_lt _ (by decide)
    -- a warp leaves when its next dispatch does not exist
    have hpast : b.tilesDispatched ≤ b.target (i % 2) c := by
      have := hv.warps (i % 2) hs c hc
      simp only [WarpOk, hleft.2 (i % 2) hs c hc, PcOk] at this
      exact this.2
    have hlt := (List.getElem?_eq_some_iff.mp hi).1
    exact List.count_eq_one_of_mem hv.calls_nodup
      ((hv.calls t c).mpr ⟨hc, i, hi, .inl (by omega)⟩)

/-- **The double-buffer loop computes every chunk of every tile exactly once**,
in every run whose steps are orderly. -/
theorem computedOnce_of_reachable {B : Type} [DecidableEq B] {p : TileScheduler} {g : Grid B}
    (h : Reachable (Grid.step p) (Grid.Orderly p) (· = Grid.init) g) (b : B) :
    (g.block b).ComputedOnce p := (Grid.valid_of_reachable h b).computedOnce

section Example

/-- Two tiles of one chunk each. -/
def twoTiles : TileScheduler := ⟨1, 2, by decide⟩

def transfers (k : Nat) : List (Grid.Act Unit) := List.replicate k (.transfer ())

def computes (slot k : Nat) : List (Grid.Act Unit) := List.replicate k (.compute () slot 0)

/-- The transfer warp dispatches both tiles and, once the second has been
computed, leaves before the warp of slot 0 has looked for its tile. -/
def hasty : List (Grid.Act Unit) :=
  transfers 16 ++ computes 1 6 ++ transfers 6 ++ computes 0 2 ++ computes 1 3

/-- The same, but the warp of slot 0 has loaded its tile id. -/
def patient : List (Grid.Act Unit) :=
  transfers 16 ++ computes 0 3 ++ computes 1 6 ++ transfers 6 ++ computes 0 6 ++ computes 1 3

/-- What a block did, and where its three warps are. -/
def Block.summary (b : Block) :
    List Nat × List (Nat × Nat) × Transfer × Compute × Compute :=
  (b.acquired, b.calls, b.transfer, (b.warp (0, 0)).pc, (b.warp (1, 0)).pc)

theorem left_of_summary {b : Block} {l : List Nat} {l' : List (Nat × Nat)}
    (h : b.summary = (l, l', .exited, .exited, .exited)) : b.Left twoTiles := by
  simp only [Block.summary, Prod.mk.injEq] at h
  refine ⟨h.2.2.1, fun slot hs c hc => ?_⟩
  obtain rfl : c = 0 := Nat.lt_one_iff.mp hc
  obtain rfl | rfl : slot = 0 ∨ slot = 1 := by omega
  · exact h.2.2.2.1
  · exact h.2.2.2.2

/-- A tile is skipped: the block has left, and `compute_fn` has not been called
for tile 0, which it had acquired and whose chunk had arrived. -/
theorem exists_skipped : ∃ g : Grid Unit, ReachableFrom (Grid.step twoTiles) Grid.init g ∧
    (g.block ()).Left twoTiles ∧ 0 ∈ (g.block ()).acquired ∧
    (g.block ()).calls.count (0, 0) = 0 := by
  have h : (run (Grid.step twoTiles) Grid.init hasty).map (fun g => (g.block ()).summary) =
      some ([0, 1], [(1, 0)], .exited, .exited, .exited) := by decide
  obtain ⟨g, hg, hsum⟩ := Option.map_eq_some_iff.mp h
  refine ⟨g, (Reachable.self _).run_always hg, left_of_summary hsum, ?_⟩
  simp only [Block.summary, Prod.mk.injEq] at hsum
  rw [hsum.1, hsum.2.1]
  decide

/-- An orderly run to the end of two tiles, and what the theorem says of it. -/
theorem computedOnce_of_reachable_two : ∃ g : Grid Unit, (g.block ()).Left twoTiles ∧
    (g.block ()).acquired = [0, 1] ∧ (g.block ()).ComputedOnce twoTiles := by
  have h : (runWhile (Grid.step twoTiles) (Grid.Orderly twoTiles) Grid.init patient).map
      (fun g => (g.block ()).summary) =
        some ([0, 1], [(1, 0), (0, 0)], .exited, .exited, .exited) := by decide
  obtain ⟨g, hg, hsum⟩ := Option.map_eq_some_iff.mp h
  have hleft := left_of_summary hsum
  simp only [Block.summary, Prod.mk.injEq] at hsum
  exact ⟨g, hleft, hsum.1, computedOnce_of_reachable ((Reachable.self _).runWhile hg) ()⟩

end Example

end Gfd.DoubleBuffer
