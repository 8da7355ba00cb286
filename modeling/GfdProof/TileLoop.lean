import Mathlib
import GfdProof.Transition

/-! # The single-buffer tile loop

`_warp_spec_tile_loop`, one access to the block's shared state at a time.  Warp 0
acquires a tile and resets the shared state; all warps of the block meet at a
barrier; warp 0 then sends the tile's chunks one after the other, warp `c + 1`
waits for chunk `c` and computes on it; and all meet at a second barrier before
the next tile.

Between the barriers every warp is `inside`, outside them all but warp 0 wait:
that the two groups never mix is what the resets rely on.  The tile a block is
working on is the last it acquired, and which of its chunks have been computed
can be read off where the warps are (`Warp.called`).

The tile counter is a 32-bit word, which every block increments once more than
it gets tiles.  The theorem is about launches with at most `2^32` tiles and
blocks together; `exists_twice` shows what happens beyond.
-/
namespace Gfd.TileLoop

open Transition

/-- A launch: what the loop reads of the scheduler, and the warps of a block.
Thread indices are 32-bit words, 32 to a warp. -/
structure Launch where
  totalTiles : Nat
  tokensPerChunk : Nat
  chunksPerTile : Nat
  warps : Nat
  totalTiles_lt : totalTiles < 2 ^ 32
  chunks_pos : 1 ≤ chunksPerTile
  warps_ge : 1 + chunksPerTile ≤ warps
  warps_le : warps ≤ 2 ^ 27

/-- Where a warp is. -/
inductive Warp
  | acquire
  | storeTile (tile : Nat)
  | resetReady (tile : Nat)
  | resetDone (tile : Nat)
  /-- At the first barrier. -/
  | enter
  /-- About to compare the tile id with `total_tiles`. -/
  | check
  | loadTile
  /-- Sending a chunk. -/
  | submit (tile chunk : Nat)
  /-- In `wait_chunk_done`. -/
  | waitChunk (tile chunk : Nat)
  | ready (tile chunk : Nat)
  /-- Waiting for the compute warps. -/
  | drain
  | waitReady (tile : Nat)
  /-- About to call `compute_fn`. -/
  | compute (tile : Nat)
  | inCall (tile : Nat)
  /-- About to count itself in `compute_done`. -/
  | count (tile : Nat)
  /-- At the second barrier. -/
  | leave
  | exited
  deriving DecidableEq, Repr

/-- At a barrier. -/
def Warp.parked : Warp → Bool
  | .enter | .leave => true
  | _ => false

/-- Past the first barrier. -/
def Warp.inside : Warp → Bool
  | .acquire | .storeTile _ | .resetReady _ | .resetDone _ | .enter => false
  | _ => true

/-- It has called `compute_fn` for the tile at hand. -/
def Warp.called : Warp → Bool
  | .inCall _ | .count _ | .leave => true
  | _ => false

/-- The tile for which it is resetting the shared state. -/
def Warp.resets : Warp → Option Nat
  | .storeTile tile | .resetReady tile | .resetDone tile => some tile
  | _ => none

/-- A call of `compute_fn`. -/
structure Call where
  tile : Nat
  chunk : Nat
  warp : Nat
  deriving DecidableEq, Repr

/-- A block.  `acquired`, `waited` and `calls` record the tiles it acquired, the
`wait_chunk_done(tile, expected)` that returned and the calls of `compute_fn`. -/
structure Block where
  tileId : Nat
  chunksReady : Nat
  computeDone : Nat
  warp : Nat → Warp
  acquired : List Nat
  waited : List (Nat × Nat)
  calls : List Call

namespace Block

/-- After the initial barrier. -/
def init : Block where
  tileId := 0
  chunksReady := 0
  computeDone := 0
  warp w := if w = 0 then .acquire else .enter
  acquired := []
  waited := []
  calls := []

def setWarp (b : Block) (w : Nat) (x : Warp) : Block :=
  { b with warp := Function.update b.warp w x }

/-- Warp 0's loop over the chunks of a tile, at `chunk`. -/
def chunkLoop (p : Launch) (tile chunk : Nat) : Warp :=
  if chunk < p.chunksPerTile then .submit tile chunk else .drain

/-- What a warp does in a tile. -/
def role (p : Launch) (w tile : Nat) : Warp :=
  if w = 0 then chunkLoop p tile 0 else if w ≤ p.chunksPerTile then .waitReady tile else .leave

/-- The next step of warp `w`, with the tile counter it may advance. -/
def warpStep (p : Launch) (b : Block) (nextTile w : Nat) : Option (Block × Nat) :=
  match b.warp w with
  | .acquire =>
    let tile := nextTile % 2 ^ 32
    some ({ b.setWarp w (.storeTile tile) with
      acquired := if tile < p.totalTiles then b.acquired ++ [tile] else b.acquired }, nextTile + 1)
  | .storeTile tile => some ({ b.setWarp w (.resetReady tile) with tileId := tile }, nextTile)
  | .resetReady tile => some ({ b.setWarp w (.resetDone tile) with chunksReady := 0 }, nextTile)
  | .resetDone _ => some ({ b.setWarp w .enter with computeDone := 0 }, nextTile)
  | .enter => none
  | .check =>
    if p.totalTiles ≤ b.tileId then some (b.setWarp w .exited, nextTile)
    else some (b.setWarp w .loadTile, nextTile)
  | .loadTile => some (b.setWarp w (role p w b.tileId), nextTile)
  | .submit tile chunk => some (b.setWarp w (.waitChunk tile chunk), nextTile)
  | .waitChunk tile chunk =>
    some ({ b.setWarp w (.ready tile chunk) with
      waited := b.waited ++ [(tile, (chunk + 1) * p.tokensPerChunk)] }, nextTile)
  | .ready tile chunk =>
    some ({ b.setWarp w (chunkLoop p tile (chunk + 1)) with chunksReady := chunk + 1 }, nextTile)
  | .drain =>
    if b.computeDone < p.chunksPerTile then none else some (b.setWarp w .leave, nextTile)
  | .waitReady tile =>
    if b.chunksReady ≤ w - 1 then none else some (b.setWarp w (.compute tile), nextTile)
  | .compute tile =>
    some ({ b.setWarp w (.inCall tile) with calls := b.calls ++ [⟨tile, w - 1, w⟩] }, nextTile)
  | .inCall tile => some (b.setWarp w (.count tile), nextTile)
  | .count _ => some ({ b.setWarp w .leave with computeDone := b.computeDone + 1 }, nextTile)
  | .leave => none
  | .exited => none

/-- Where a warp goes on from a barrier. -/
def released (w : Nat) : Warp → Warp
  | .enter => .check
  | .leave => if w = 0 then .acquire else .enter
  | x => x

/-- `__syncthreads`: when every warp that has not exited is at a barrier, all
go on. -/
def sync (p : Launch) (b : Block) : Option Block :=
  if (∀ w < p.warps, (b.warp w).parked = true ∨ b.warp w = .exited) ∧
      ∃ w < p.warps, (b.warp w).parked = true then
    some { b with warp := fun w => released w (b.warp w) }
  else none

/-- All its warps have left the loop. -/
def Left (p : Launch) (b : Block) : Prop := ∀ w < p.warps, b.warp w = .exited

/-! ## The invariant of a block -/

/-- Tile `t` has been acquired and is the tile at hand, or it is past the last. -/
def Claimed (p : Launch) (n : Nat) (cur : Option Nat) (t : Nat) : Prop :=
  t < p.totalTiles ∧ cur = some t ∨ p.totalTiles ≤ t ∧ p.totalTiles ≤ n ∧ cur = none

/-- What holds at each point of a warp, while the tile at hand is `cur`. -/
def WarpOk (p : Launch) (n : Nat) (b : Block) (cur : Option Nat) (w : Nat) : Warp → Prop
  | .acquire => w = 0 ∧ cur = none
  | .storeTile t => w = 0 ∧ Claimed p n cur t
  | .resetReady t => w = 0 ∧ Claimed p n cur t ∧ b.tileId = t
  | .resetDone t => w = 0 ∧ Claimed p n cur t ∧ b.tileId = t ∧ b.chunksReady = 0
  | .enter => w = 0 → Claimed p n cur b.tileId ∧ b.chunksReady = 0 ∧ b.computeDone = 0
  | .check => Claimed p n cur b.tileId ∧ (w = 0 → b.chunksReady = 0)
  | .loadTile => cur = some b.tileId ∧ (w = 0 → b.chunksReady = 0)
  | .submit t c | .waitChunk t c =>
    w = 0 ∧ cur = some t ∧ b.chunksReady = c ∧ c < p.chunksPerTile
  | .ready t c => (w = 0 ∧ cur = some t ∧ b.chunksReady = c ∧ c < p.chunksPerTile) ∧
      (t, (c + 1) * p.tokensPerChunk) ∈ b.waited
  | .drain => w = 0 ∧ cur.isSome = true ∧ b.chunksReady = p.chunksPerTile
  | .waitReady t => (0 < w ∧ w ≤ p.chunksPerTile) ∧ cur = some t
  | .compute t | .inCall t | .count t =>
    ((0 < w ∧ w ≤ p.chunksPerTile) ∧ cur = some t) ∧ (t, w * p.tokensPerChunk) ∈ b.waited
  | .leave => cur.isSome = true
  | .exited => cur = none ∧ p.totalTiles ≤ n

/-- `compute_fn` has been called for a chunk: its tile is done with, or is the
tile at hand and the chunk's warp has come past the call. -/
def Served (p : Launch) (b : Block) (l : List Nat) (cur : Option Nat) (x : Call) : Prop :=
  x.chunk < p.chunksPerTile ∧ x.warp = x.chunk + 1 ∧
    (x.tile ∈ l ∨ cur = some x.tile ∧ (b.warp x.warp).called = true)

/-- The invariant of a block that is done with the tiles `l` and has `cur` at
hand, with the tile counter of the grid. -/
structure Valid (p : Launch) (n : Nat) (b : Block) (l : List Nat) (cur : Option Nat) : Prop where
  /-- The warps are all between the barriers, or none is. -/
  together : ∀ w < p.warps, (b.warp w).inside = (b.warp 0).inside
  warps : ∀ w < p.warps, b.WarpOk p n cur w (b.warp w)
  acquired : b.acquired = l ++ cur.toList
  acquired_nodup : b.acquired.Nodup
  acquired_lt : ∀ t ∈ b.acquired, t < p.totalTiles ∧ t < n
  ready : (b.warp 0).inside = true → ∀ t, cur = some t → ∀ c < b.chunksReady,
    (t, (c + 1) * p.tokensPerChunk) ∈ b.waited
  counted : (b.warp 0).inside = true → cur.isSome = true → b.computeDone =
    ((Finset.range p.chunksPerTile).filter fun c => b.warp (c + 1) = .leave).card
  calls : ∀ x, x ∈ b.calls ↔ b.Served p l cur x
  calls_nodup : b.calls.Nodup
  calls_waited : ∀ x ∈ b.calls, (x.tile, (x.chunk + 1) * p.tokensPerChunk) ∈ b.waited

variable {p : Launch} {n : Nat} {b b' : Block} {l : List Nat} {cur : Option Nat} {w : Nat}

theorem valid_init (p : Launch) : Valid p 0 init [] none where
  together w _ := by
    unfold init
    dsimp only
    split <;> rfl
  warps w _ := by
    unfold init
    dsimp only
    split
    · exact ⟨‹_›, rfl⟩
    · intro h
      contradiction
  acquired := rfl
  acquired_nodup := List.nodup_nil
  acquired_lt _ h := absurd h List.not_mem_nil
  ready _ _ h := by cases h
  counted _ h := by cases h
  calls x := by simp [init, Served]
  calls_nodup := List.nodup_nil
  calls_waited _ h := absurd h List.not_mem_nil

theorem Claimed.mono {m t : Nat} (h : Claimed p m cur t) (hmn : m ≤ n) : Claimed p n cur t :=
  h.imp_right fun h => ⟨h.1, Nat.le_trans h.2.1 hmn, h.2.2⟩

/-- Others acquire tiles. -/
theorem Valid.mono {m : Nat} (hv : Valid p m b l cur) (hmn : m ≤ n) : Valid p n b l cur :=
  { hv with
    warps := fun w hw => by
      have := hv.warps w hw
      unfold WarpOk at this ⊢
      split at this
      · exact this
      · exact ⟨this.1, this.2.mono hmn⟩
      · exact ⟨this.1, this.2.1.mono hmn, this.2.2⟩
      · exact ⟨this.1, this.2.1.mono hmn, this.2.2⟩
      · exact fun h => ⟨(this h).1.mono hmn, (this h).2⟩
      · exact ⟨this.1.mono hmn, this.2⟩
      · exact this
      · exact this
      · exact this
      · exact this
      · exact this
      · exact this
      · exact this
      · exact this
      · exact this
      · exact this
      · exact ⟨this.1, Nat.le_trans this.2 hmn⟩
    acquired_lt := fun t ht =>
      ⟨(hv.acquired_lt t ht).1, Nat.lt_of_lt_of_le (hv.acquired_lt t ht).2 hmn⟩ }

/-- A warp that stays where it is does not mind what happens between the
barriers, where only warp 0 stores `chunks_ready`. -/
theorem WarpOk.keep {x : Warp} (h : b.WarpOk p n cur w x) (hin : x.inside = true)
    (ht : b'.tileId = b.tileId) (hr : w = 0 → b'.chunksReady = b.chunksReady)
    (hw : ∀ y ∈ b.waited, y ∈ b'.waited) : b'.WarpOk p n cur w x := by
  unfold WarpOk at h ⊢
  split at h <;> try cases hin
  · exact ⟨ht ▸ h.1, fun hw0 => (hr hw0).trans (h.2 hw0)⟩
  · exact ⟨ht ▸ h.1, fun hw0 => (hr hw0).trans (h.2 hw0)⟩
  · exact ⟨h.1, h.2.1, (hr h.1).trans h.2.2.1, h.2.2.2⟩
  · exact ⟨h.1, h.2.1, (hr h.1).trans h.2.2.1, h.2.2.2⟩
  · obtain ⟨⟨h0, hc, hready, hlt⟩, hmem⟩ := h
    exact ⟨⟨h0, hc, (hr h0).trans hready, hlt⟩, hw _ hmem⟩
  · exact ⟨h.1, h.2.1, (hr h.1).trans h.2.2⟩
  · exact h
  · exact ⟨h.1, hw _ h.2⟩
  · exact ⟨h.1, hw _ h.2⟩
  · exact ⟨h.1, hw _ h.2⟩
  · exact h
  · exact h

/-! ## Between the barriers -/

/-- A warp goes on between the barriers. -/
theorem Valid.advance (hv : Valid p n b l cur) (hw : w < p.warps) (hin : (b.warp w).inside = true)
    {x : Warp} (hx : x.inside = true) (hwarp : b'.warp = Function.update b.warp w x)
    (htile : b'.tileId = b.tileId) (hacq : b'.acquired = b.acquired)
    (hready : w ≠ 0 → b'.chunksReady = b.chunksReady) (hwaited : ∀ y ∈ b.waited, y ∈ b'.waited)
    (hok : b'.WarpOk p n cur w x)
    (harr : ∀ t, cur = some t → ∀ c < b'.chunksReady, (t, (c + 1) * p.tokensPerChunk) ∈ b'.waited)
    (hcount : cur.isSome = true → b'.computeDone =
      ((Finset.range p.chunksPerTile).filter fun c => b'.warp (c + 1) = .leave).card)
    (hcalls : ∀ x, x ∈ b'.calls ↔ b'.Served p l cur x) (hnodup : b'.calls.Nodup)
    (hcw : ∀ x ∈ b'.calls, (x.tile, (x.chunk + 1) * p.tokensPerChunk) ∈ b'.waited) :
    Valid p n b' l cur := by
  have hall : ∀ v < p.warps, (b.warp v).inside = true := fun v hv' => by
    rw [hv.together v hv', ← hv.together w hw, hin]
  have hall' : ∀ v < p.warps, (b'.warp v).inside = true := fun v hv' => by
    rw [hwarp]
    by_cases h : v = w
    · rw [h, Function.update_self]
      exact hx
    · rw [Function.update_of_ne h]
      exact hall v hv'
  have hpos : 0 < p.warps := by omega
  refine ⟨fun v hv' => by rw [hall' v hv', hall' 0 hpos], fun v hv' => ?_, hacq ▸ hv.acquired,
    hacq ▸ hv.acquired_nodup, hacq ▸ hv.acquired_lt, fun _ => harr, fun _ => hcount, hcalls, hnodup,
    hcw⟩
  by_cases h : v = w
  · subst h
    rw [hwarp, Function.update_self]
    exact hok
  · rw [hwarp, Function.update_of_ne h]
    exact (hv.warps v hv').keep (hall v hv') htile
      (fun h0 => hready fun hw0 => h (h0.trans hw0.symm)) hwaited

/-- Its move is none of those by which a compute warp calls or counts itself. -/
def Quiet (p : Launch) (b : Block) (w : Nat) (x : Warp) : Prop :=
  0 < w → w ≤ p.chunksPerTile → x.called = (b.warp w).called ∧ x ≠ .leave ∧ b.warp w ≠ .leave

theorem Quiet.called {x : Warp} (hq : b.Quiet p w x) {c : Nat} (hc : c < p.chunksPerTile) :
    (Function.update b.warp w x (c + 1)).called = (b.warp (c + 1)).called := by
  by_cases h : c + 1 = w
  · subst h
    rw [Function.update_self]
    exact (hq (Nat.succ_pos c) hc).1
  · rw [Function.update_of_ne h]

theorem Quiet.left {x : Warp} (hq : b.Quiet p w x) {c : Nat} (hc : c < p.chunksPerTile) :
    Function.update b.warp w x (c + 1) = .leave ↔ b.warp (c + 1) = .leave := by
  by_cases h : c + 1 = w
  · subst h
    rw [Function.update_self]
    exact iff_of_false (hq (Nat.succ_pos c) hc).2.1 (hq (Nat.succ_pos c) hc).2.2
  · rw [Function.update_of_ne h]

theorem Quiet.served {x : Warp} (hq : b.Quiet p w x) (hwarp : b'.warp = Function.update b.warp w x)
    (y : Call) : b'.Served p l cur y ↔ b.Served p l cur y := by
  unfold Served
  rw [hwarp]
  refine and_congr_right fun hc => and_congr_right fun hy => ?_
  rw [hy, hq.called hc]

theorem Quiet.counted {x : Warp} (hq : b.Quiet p w x) (hwarp : b'.warp = Function.update b.warp w x) :
    ((Finset.range p.chunksPerTile).filter fun c => b'.warp (c + 1) = .leave) =
      (Finset.range p.chunksPerTile).filter fun c => b.warp (c + 1) = .leave := by
  rw [hwarp]
  exact Finset.filter_congr fun c hc => hq.left (Finset.mem_range.mp hc)

/-- A warp goes on and leaves the shared state alone. -/
theorem Valid.move (hv : Valid p n b l cur) (hw : w < p.warps) (hin : (b.warp w).inside = true)
    {x : Warp} (hx : x.inside = true) (hq : b.Quiet p w x) (hok : b.WarpOk p n cur w x) :
    Valid p n (b.setWarp w x) l cur := by
  have h0 : (b.warp 0).inside = true := by rw [← hv.together w hw, hin]
  refine hv.advance hw hin hx rfl rfl rfl (fun _ => rfl) (fun _ h => h) ?_ (hv.ready h0) (fun hc => ?_)
    (fun y => ?_) hv.calls_nodup hv.calls_waited
  · exact hok.keep hx rfl (fun _ => rfl) fun _ h => h
  · rw [hq.counted rfl]
    exact hv.counted h0 hc
  · rw [hq.served rfl]
    exact hv.calls y

theorem Valid.inside_zero (hv : Valid p n b l cur) (hw : w < p.warps)
    (hin : (b.warp w).inside = true) : (b.warp 0).inside = true := by
  rw [← hv.together w hw, hin]

theorem quiet_zero (x : Warp) : b.Quiet p 0 x := fun h => absurd h (Nat.lt_irrefl 0)

theorem valid_check (hv : Valid p n b l cur) (hw : w < p.warps) (hpc : b.warp w = .check) :
    (p.totalTiles ≤ b.tileId → Valid p n (b.setWarp w .exited) l cur) ∧
      (b.tileId < p.totalTiles → Valid p n (b.setWarp w .loadTile) l cur) := by
  have hin : (b.warp w).inside = true := by rw [hpc]; rfl
  have hok := hv.warps w hw
  rw [hpc] at hok
  obtain ⟨hcl, hready⟩ := hok
  constructor
  · intro hle
    refine hv.move hw hin rfl (fun _ _ => by rw [hpc]; exact ⟨rfl, nofun, nofun⟩) ?_
    rcases hcl with ⟨hlt, -⟩ | ⟨-, hn, hc⟩
    · exact absurd hle (Nat.not_le_of_lt hlt)
    · exact ⟨hc, hn⟩
  · intro hlt
    refine hv.move hw hin rfl (fun _ _ => by rw [hpc]; exact ⟨rfl, nofun, nofun⟩) ?_
    rcases hcl with ⟨-, hc⟩ | ⟨hle, -⟩
    · exact ⟨hc, hready⟩
    · exact absurd hle (Nat.not_le_of_lt hlt)

theorem valid_loadTile (hv : Valid p n b l cur) (hw : w < p.warps) (hpc : b.warp w = .loadTile) :
    Valid p n (b.setWarp w (role p w b.tileId)) l cur := by
  have hin : (b.warp w).inside = true := by rw [hpc]; rfl
  have hok := hv.warps w hw
  rw [hpc] at hok
  obtain ⟨hc, hready⟩ := hok
  unfold role
  split
  · rename_i h0
    rw [chunkLoop, if_pos (Nat.lt_of_succ_le p.chunks_pos)]
    subst h0
    exact hv.move hw hin rfl (quiet_zero _) ⟨rfl, hc, hready rfl, p.chunks_pos⟩
  · rename_i h0
    split
    · exact hv.move hw hin rfl (fun _ _ => by rw [hpc]; exact ⟨rfl, nofun, nofun⟩) ⟨⟨by omega, ‹_›⟩, hc⟩
    · rename_i hK
      exact hv.move hw hin rfl (fun _ h => absurd h hK) (by rw [hc]; rfl)

theorem valid_submit (hv : Valid p n b l cur) (hw : w < p.warps) {t c : Nat}
    (hpc : b.warp w = .submit t c) : Valid p n (b.setWarp w (.waitChunk t c)) l cur := by
  have hin : (b.warp w).inside = true := by rw [hpc]; rfl
  have hok := hv.warps w hw
  rw [hpc] at hok
  obtain ⟨rfl, -⟩ := id hok
  exact hv.move hw hin rfl (quiet_zero _) hok

theorem valid_waitChunk (hv : Valid p n b l cur) (hw : w < p.warps) {t c : Nat}
    (hpc : b.warp w = .waitChunk t c) :
    Valid p n { b.setWarp w (.ready t c) with
      waited := b.waited ++ [(t, (c + 1) * p.tokensPerChunk)] } l cur := by
  have hin : (b.warp w).inside = true := by rw [hpc]; rfl
  have h0 := hv.inside_zero hw hin
  have hok := hv.warps w hw
  rw [hpc] at hok
  obtain ⟨rfl, -⟩ := id hok
  have hq : b.Quiet p 0 (.ready t c) := quiet_zero _
  have hmem : ∀ y ∈ b.waited, y ∈ b.waited ++ [(t, (c + 1) * p.tokensPerChunk)] :=
    fun y hy => List.mem_append_left _ hy
  refine hv.advance hw hin rfl rfl rfl rfl (fun h => absurd rfl h) hmem ⟨hok, by simp⟩
    (fun t' ht' c' hc' => hmem _ (hv.ready h0 t' ht' c' hc')) (fun hc => ?_) (fun y => ?_)
    hv.calls_nodup fun y hy => hmem _ (hv.calls_waited y hy)
  · rw [hq.counted rfl]
    exact hv.counted h0 hc
  · rw [hq.served rfl]
    exact hv.calls y

theorem valid_ready (hv : Valid p n b l cur) (hw : w < p.warps) {t c : Nat}
    (hpc : b.warp w = .ready t c) :
    Valid p n { b.setWarp w (chunkLoop p t (c + 1)) with chunksReady := c + 1 } l cur := by
  have hin : (b.warp w).inside = true := by rw [hpc]; rfl
  have h0 := hv.inside_zero hw hin
  have hok := hv.warps w hw
  rw [hpc] at hok
  obtain ⟨⟨rfl, hcur, hready, hlt⟩, hmem⟩ := hok
  have hq : b.Quiet p 0 (chunkLoop p t (c + 1)) := quiet_zero _
  refine hv.advance hw hin ?_ rfl rfl rfl (fun h => absurd rfl h) (fun _ h => h) ?_
    (fun t' ht' c' hc' => ?_) (fun hc => ?_) (fun y => ?_) hv.calls_nodup hv.calls_waited
  · unfold chunkLoop
    split <;> rfl
  · unfold chunkLoop
    split
    · exact ⟨rfl, hcur, rfl, ‹_›⟩
    · exact ⟨rfl, by rw [hcur]; rfl, by show c + 1 = p.chunksPerTile; omega⟩
  · rcases Nat.lt_succ_iff_lt_or_eq.mp hc' with hc' | rfl
    · exact hv.ready h0 t' ht' c' (hready ▸ hc')
    · obtain rfl : t = t' := Option.some.inj (hcur.symm.trans ht')
      exact hmem
  · rw [hq.counted rfl]
    exact hv.counted h0 hc
  · rw [hq.served rfl]
    exact hv.calls y

theorem valid_drain (hv : Valid p n b l cur) (hw : w < p.warps) (hpc : b.warp w = .drain) :
    Valid p n (b.setWarp w .leave) l cur := by
  have hin : (b.warp w).inside = true := by rw [hpc]; rfl
  have hok := hv.warps w hw
  rw [hpc] at hok
  obtain ⟨rfl, hc, -⟩ := hok
  exact hv.move hw hin rfl (quiet_zero _) hc

theorem valid_waitReady (hv : Valid p n b l cur) (hw : w < p.warps) {t : Nat}
    (hpc : b.warp w = .waitReady t) (hready : w - 1 < b.chunksReady) :
    Valid p n (b.setWarp w (.compute t)) l cur := by
  have hin : (b.warp w).inside = true := by rw [hpc]; rfl
  have hok := hv.warps w hw
  rw [hpc] at hok
  refine hv.move hw hin rfl (fun _ _ => by rw [hpc]; exact ⟨rfl, nofun, nofun⟩) ⟨hok, ?_⟩
  have := hv.ready (hv.inside_zero hw hin) t hok.2 (w - 1) hready
  rwa [Nat.sub_add_cancel hok.1.1] at this

theorem valid_inCall (hv : Valid p n b l cur) (hw : w < p.warps) {t : Nat}
    (hpc : b.warp w = .inCall t) : Valid p n (b.setWarp w (.count t)) l cur := by
  have hin : (b.warp w).inside = true := by rw [hpc]; rfl
  have hok := hv.warps w hw
  rw [hpc] at hok
  exact hv.move hw hin rfl (fun _ _ => by rw [hpc]; exact ⟨rfl, nofun, nofun⟩) hok

/-- The tile at hand is not among those done with. -/
theorem Valid.current_not_mem (hv : Valid p n b l cur) {t : Nat} (hc : cur = some t) : t ∉ l := by
  have h := hv.acquired_nodup
  rw [hv.acquired, hc] at h
  intro hmem
  exact (List.nodup_append.mp h).2.2 t hmem t (List.mem_singleton.mpr rfl) rfl

theorem valid_compute (hv : Valid p n b l cur) (hw : w < p.warps) {t : Nat}
    (hpc : b.warp w = .compute t) :
    Valid p n { b.setWarp w (.inCall t) with calls := b.calls ++ [⟨t, w - 1, w⟩] } l cur := by
  have hin : (b.warp w).inside = true := by rw [hpc]; rfl
  have h0 := hv.inside_zero hw hin
  have hok := hv.warps w hw
  rw [hpc] at hok
  obtain ⟨⟨⟨hpos, hle⟩, hcur⟩, hmem⟩ := id hok
  have hsucc : w - 1 + 1 = w := Nat.sub_add_cancel hpos
  have hnew : (⟨t, w - 1, w⟩ : Call) ∉ b.calls := by
    intro h
    obtain ⟨-, -, hl | ⟨-, hcalled⟩⟩ := (hv.calls _).mp h
    · exact hv.current_not_mem hcur hl
    · rw [hpc] at hcalled
      cases hcalled
  refine hv.advance hw hin rfl rfl rfl rfl (fun _ => rfl) (fun _ h => h) hok (hv.ready h0)
    (fun hc => ?_) (fun y => ?_) ?_ fun y hy => ?_
  · have hfilter : ((Finset.range p.chunksPerTile).filter fun c =>
        Function.update b.warp w (.inCall t) (c + 1) = .leave) =
        (Finset.range p.chunksPerTile).filter fun c => b.warp (c + 1) = .leave := by
      refine Finset.filter_congr fun c _ => ?_
      by_cases h : c + 1 = w
      · subst h
        rw [Function.update_self, hpc]
        exact iff_of_false nofun nofun
      · rw [Function.update_of_ne h]
    show b.computeDone = _
    rw [hv.counted h0 hc]
    exact congrArg Finset.card hfilter.symm
  · have hself : (Function.update b.warp w (.inCall t) w).called = true := by
      rw [Function.update_self]
      rfl
    have hother : ∀ v, v ≠ w → (Function.update b.warp w (.inCall t) v).called = (b.warp v).called :=
      fun v hvw => by rw [Function.update_of_ne hvw]
    show y ∈ b.calls ++ [_] ↔ _
    rw [List.mem_append, hv.calls, List.mem_singleton]
    constructor
    · rintro (⟨hc, hy, hserved⟩ | rfl)
      · refine ⟨hc, hy, hserved.imp_right fun h => ⟨h.1, ?_⟩⟩
        by_cases hyw : y.warp = w
        · rw [hyw]
          exact hself
        · exact (hother _ hyw).trans h.2
      · exact ⟨by show w - 1 < _; omega, hsucc.symm, .inr ⟨hcur, hself⟩⟩
    · rintro ⟨hc, hy, hserved⟩
      by_cases hyw : y.warp = w
      · rcases hserved with hl | ⟨hct, -⟩
        · exact .inl ⟨hc, hy, .inl hl⟩
        · obtain ⟨yt, yc, yw⟩ := y
          dsimp only at *
          obtain rfl : t = yt := Option.some.inj (hcur.symm.trans hct)
          right
          rw [Call.mk.injEq]
          exact ⟨rfl, by omega, hyw⟩
      · exact .inl ⟨hc, hy, hserved.imp_right fun h => ⟨h.1, (hother _ hyw).symm.trans h.2⟩⟩
  · exact List.nodup_append.mpr ⟨hv.calls_nodup, List.nodup_singleton _, fun x hx y hy hxy =>
      hnew (List.mem_singleton.mp hy ▸ hxy ▸ hx)⟩
  · rcases List.mem_append.mp hy with hy | hy
    · exact hv.calls_waited y hy
    · obtain rfl := List.mem_singleton.mp hy
      rw [hsucc]
      exact hmem

theorem valid_count (hv : Valid p n b l cur) (hw : w < p.warps) {t : Nat}
    (hpc : b.warp w = .count t) :
    Valid p n { b.setWarp w .leave with computeDone := b.computeDone + 1 } l cur := by
  have hin : (b.warp w).inside = true := by rw [hpc]; rfl
  have h0 := hv.inside_zero hw hin
  have hok := hv.warps w hw
  rw [hpc] at hok
  obtain ⟨⟨⟨hpos, hle⟩, hcur⟩, hmem⟩ := hok
  refine hv.advance hw hin rfl rfl rfl rfl (fun _ => rfl) (fun _ h => h) (by rw [hcur]; rfl)
    (hv.ready h0) (fun hc => ?_) (fun y => ?_) hv.calls_nodup hv.calls_waited
  · -- it is the one warp more
    have hfilter : ((Finset.range p.chunksPerTile).filter fun c =>
        Function.update b.warp w .leave (c + 1) = .leave) =
        insert (w - 1) ((Finset.range p.chunksPerTile).filter fun c => b.warp (c + 1) = .leave) := by
      ext c
      rw [Finset.mem_insert, Finset.mem_filter, Finset.mem_filter, Finset.mem_range]
      by_cases h : c + 1 = w
      · subst h
        simp only [Function.update_self, Nat.add_sub_cancel, true_or, and_true, iff_true]
        omega
      · rw [Function.update_of_ne h]
        constructor
        · exact .inr
        · rintro (rfl | h')
          · omega
          · exact h'
    have hnew : w - 1 ∉ (Finset.range p.chunksPerTile).filter fun c => b.warp (c + 1) = .leave := by
      rw [Finset.mem_filter, Nat.sub_add_cancel hpos, hpc]
      rintro ⟨-, h⟩
      cases h
    show b.computeDone + 1 = _
    rw [hv.counted h0 hc, ← Finset.card_insert_of_notMem hnew]
    exact congrArg Finset.card hfilter.symm
  · refine (hv.calls y).trans (and_congr_right fun _ => and_congr_right fun _ => or_congr_right
      (and_congr_right fun _ => ?_))
    show _ ↔ (Function.update b.warp w .leave y.warp).called = true
    by_cases hyw : y.warp = w
    · rw [hyw, Function.update_self, hpc]
      exact iff_of_true rfl rfl
    · rw [Function.update_of_ne hyw]

/-! ## Outside the barriers -/

/-- While warp 0 prepares the next tile, the others wait at the first barrier. -/
theorem Valid.entered (hv : Valid p n b l cur) (hout : (b.warp 0).inside = false) (h0 : w ≠ 0)
    (hw : w < p.warps) : b.warp w = .enter := by
  have hin := (hv.together w hw).trans hout
  have hok := hv.warps w hw
  unfold WarpOk at hok
  split at hok
  · exact absurd hok.1 h0
  · exact absurd hok.1 h0
  · exact absurd hok.1 h0
  · exact absurd hok.1 h0
  · assumption
  all_goals
    rename_i hpc
    rw [hpc] at hin
    cases hin

/-- Then only the tiles done with have been computed. -/
theorem Valid.served_outside (hv : Valid p n b l cur) (hout : (b.warp 0).inside = false) {x : Call} :
    x ∈ b.calls ↔ x.chunk < p.chunksPerTile ∧ x.warp = x.chunk + 1 ∧ x.tile ∈ l := by
  rw [hv.calls]
  refine and_congr_right fun hc => and_congr_right fun hx => or_iff_left ?_
  rintro ⟨-, hcalled⟩
  have hge := p.warps_ge
  rw [hv.entered hout (by omega) (by omega)] at hcalled
  cases hcalled

/-- Warp 0 goes on outside the barriers. -/
theorem Valid.prepare (hv : Valid p n b l cur) (hout : (b.warp 0).inside = false) {x : Warp}
    (hx : x.inside = false) {m : Nat} {cur' : Option Nat}
    (hwarp : b'.warp = Function.update b.warp 0 x) (hcalls : b'.calls = b.calls)
    (hwaited : b'.waited = b.waited) (hacq : b'.acquired = l ++ cur'.toList)
    (hnodup : b'.acquired.Nodup) (hlt : ∀ t ∈ b'.acquired, t < p.totalTiles ∧ t < m)
    (hok : b'.WarpOk p m cur' 0 x) : Valid p m b' l cur' := by
  have h0 : b'.warp 0 = x := by rw [hwarp, Function.update_self]
  have hother : ∀ v, v ≠ 0 → v < p.warps → b'.warp v = .enter := fun v hne hv' => by
    rw [hwarp, Function.update_of_ne hne]
    exact hv.entered hout hne hv'
  have hge := p.warps_ge
  refine ⟨fun v hv' => ?_, fun v hv' => ?_, hacq, hnodup, hlt, fun h => ?_, fun h => ?_, fun y => ?_,
    hcalls ▸ hv.calls_nodup, hcalls ▸ hwaited ▸ hv.calls_waited⟩
  · by_cases hne : v = 0
    · rw [hne]
    · rw [hother v hne hv', h0, hx]
      rfl
  · by_cases hne : v = 0
    · rw [hne, h0]
      exact hok
    · rw [hother v hne hv']
      exact fun h => absurd h hne
  · rw [h0, hx] at h
    cases h
  · rw [h0, hx] at h
    cases h
  · rw [hcalls, hv.served_outside hout]
    refine and_congr_right fun hc => and_congr_right fun hy => (or_iff_left ?_).symm
    rintro ⟨-, hcalled⟩
    rw [hother _ (by omega) (by omega)] at hcalled
    cases hcalled

theorem valid_acquire (hv : Valid p n b l cur) (hw : w < p.warps) (hpc : b.warp w = .acquire)
    (hn : n < 2 ^ 32) :
    ∃ cur', Valid p (n + 1) { b.setWarp w (.storeTile (n % 2 ^ 32)) with
      acquired := if n % 2 ^ 32 < p.totalTiles then b.acquired ++ [n % 2 ^ 32] else b.acquired }
        l cur' := by
  have hok := hv.warps w hw
  rw [hpc] at hok
  obtain ⟨rfl, rfl⟩ := hok
  have hout : (b.warp 0).inside = false := by rw [hpc]; rfl
  rw [Nat.mod_eq_of_lt hn]
  have hacq : b.acquired = l := by rw [hv.acquired, Option.toList_none, List.append_nil]
  by_cases hlt : n < p.totalTiles
  · rw [if_pos hlt]
    have hnew : n ∉ b.acquired := fun h => Nat.lt_irrefl _ (hv.acquired_lt n h).2
    refine ⟨some n, hv.prepare hout rfl rfl rfl rfl (by rw [hacq]; rfl) ?_ ?_ ⟨rfl, .inl ⟨hlt, rfl⟩⟩⟩
    · exact List.nodup_append.mpr ⟨hv.acquired_nodup, List.nodup_singleton _, fun x hx y hy hxy =>
        hnew (List.mem_singleton.mp hy ▸ hxy ▸ hx)⟩
    · intro t ht
      rcases List.mem_append.mp ht with ht | ht
      · exact ⟨(hv.acquired_lt t ht).1, Nat.lt_succ_of_lt (hv.acquired_lt t ht).2⟩
      · obtain rfl := List.mem_singleton.mp ht
        exact ⟨hlt, Nat.lt_succ_self t⟩
  · rw [if_neg hlt]
    refine ⟨none, hv.prepare hout rfl rfl rfl rfl (by rw [hacq]; simp) hv.acquired_nodup ?_
      ⟨rfl, .inr ⟨by omega, by omega, rfl⟩⟩⟩
    exact fun t ht => ⟨(hv.acquired_lt t ht).1, Nat.lt_succ_of_lt (hv.acquired_lt t ht).2⟩

theorem valid_storeTile (hv : Valid p n b l cur) (hw : w < p.warps) {t : Nat}
    (hpc : b.warp w = .storeTile t) :
    Valid p n { b.setWarp w (.resetReady t) with tileId := t } l cur := by
  have hok := hv.warps w hw
  rw [hpc] at hok
  obtain ⟨rfl, hcl⟩ := hok
  exact hv.prepare (by rw [hpc]; rfl) rfl rfl rfl rfl hv.acquired hv.acquired_nodup hv.acquired_lt
    ⟨rfl, hcl, rfl⟩

theorem valid_resetReady (hv : Valid p n b l cur) (hw : w < p.warps) {t : Nat}
    (hpc : b.warp w = .resetReady t) :
    Valid p n { b.setWarp w (.resetDone t) with chunksReady := 0 } l cur := by
  have hok := hv.warps w hw
  rw [hpc] at hok
  obtain ⟨rfl, hcl, ht⟩ := hok
  exact hv.prepare (by rw [hpc]; rfl) rfl rfl rfl rfl hv.acquired hv.acquired_nodup hv.acquired_lt
    ⟨rfl, hcl, ht, rfl⟩

theorem valid_resetDone (hv : Valid p n b l cur) (hw : w < p.warps) {t : Nat}
    (hpc : b.warp w = .resetDone t) :
    Valid p n { b.setWarp w .enter with computeDone := 0 } l cur := by
  have hok := hv.warps w hw
  rw [hpc] at hok
  obtain ⟨rfl, hcl, ht, hready⟩ := hok
  exact hv.prepare (by rw [hpc]; rfl) rfl rfl rfl rfl hv.acquired hv.acquired_nodup hv.acquired_lt
    fun _ => ⟨ht.symm ▸ hcl, hready, rfl⟩

theorem valid_warpStep (hv : Valid p n b l cur) (hw : w < p.warps)
    (hn : b.warp 0 = .acquire → n < 2 ^ 32) {r : Block × Nat} (h : b.warpStep p n w = some r) : n ≤ r.2 ∧ ∃ cur', Valid p r.2 r.1 l cur' := by
  unfold warpStep at h
  split at h <;> rename_i hpc
  · cases h
    have hok := hv.warps w hw
    rw [hpc] at hok
    exact ⟨Nat.le_succ n, valid_acquire hv hw hpc (hn (hok.1 ▸ hpc))⟩
  · cases h
    exact ⟨Nat.le_refl n, cur, valid_storeTile hv hw hpc⟩
  · cases h
    exact ⟨Nat.le_refl n, cur, valid_resetReady hv hw hpc⟩
  · cases h
    exact ⟨Nat.le_refl n, cur, valid_resetDone hv hw hpc⟩
  · cases h
  · split at h <;> cases h
    · exact ⟨Nat.le_refl n, cur, (valid_check hv hw hpc).1 ‹_›⟩
    · exact ⟨Nat.le_refl n, cur, (valid_check hv hw hpc).2 (Nat.lt_of_not_le ‹_›)⟩
  · cases h
    exact ⟨Nat.le_refl n, cur, valid_loadTile hv hw hpc⟩
  · cases h
    exact ⟨Nat.le_refl n, cur, valid_submit hv hw hpc⟩
  · cases h
    exact ⟨Nat.le_refl n, cur, valid_waitChunk hv hw hpc⟩
  · cases h
    exact ⟨Nat.le_refl n, cur, valid_ready hv hw hpc⟩
  · split at h <;> cases h
    exact ⟨Nat.le_refl n, cur, valid_drain hv hw hpc⟩
  · split at h <;> cases h
    exact ⟨Nat.le_refl n, cur, valid_waitReady hv hw hpc (Nat.lt_of_not_le ‹_›)⟩
  · cases h
    exact ⟨Nat.le_refl n, cur, valid_compute hv hw hpc⟩
  · cases h
    exact ⟨Nat.le_refl n, cur, valid_inCall hv hw hpc⟩
  · cases h
    exact ⟨Nat.le_refl n, cur, valid_count hv hw hpc⟩
  · cases h
  · cases h

/-! ## The barriers -/

/-- The first barrier: all warps enter the tile. -/
theorem valid_enter (hv : Valid p n b l cur) (h : ∀ w < p.warps, b.warp w = .enter) :
    Valid p n { b with warp := fun w => released w (b.warp w) } l cur := by
  have hge := p.warps_ge
  have hnew : ∀ w < p.warps, released w (b.warp w) = .check := fun w hw => by rw [h w hw]; rfl
  have hok0 := hv.warps 0 (by omega)
  rw [h 0 (by omega)] at hok0
  obtain ⟨hcl, hready, hdone⟩ := hok0 rfl
  have hout : (b.warp 0).inside = false := by rw [h 0 (by omega)]; rfl
  refine ⟨fun w hw => ?_, fun w hw => ?_, hv.acquired, hv.acquired_nodup, hv.acquired_lt, ?_, ?_, ?_,
    hv.calls_nodup, hv.calls_waited⟩
  · show (released w (b.warp w)).inside = (released 0 (b.warp 0)).inside
    rw [hnew w hw, hnew 0 (by omega)]
  · show WarpOk p n _ cur w (released w (b.warp w))
    rw [hnew w hw]
    exact ⟨hcl, fun _ => hready⟩
  · intro _ t _ c hc
    exact absurd (hready ▸ hc) (Nat.not_lt_zero c)
  · intro _ _
    have hnone : ((Finset.range p.chunksPerTile).filter fun c =>
        released (c + 1) (b.warp (c + 1)) = .leave) = ∅ := by
      refine Finset.filter_eq_empty_iff.mpr fun c hc => ?_
      rw [hnew _ (by have := Finset.mem_range.mp hc; omega)]
      nofun
    show b.computeDone = _
    rw [hdone, ← Finset.card_empty]
    exact congrArg Finset.card hnone.symm
  · intro x
    refine (hv.served_outside hout).trans
      (and_congr_right fun hc => and_congr_right fun hx => (or_iff_left ?_).symm)
    rintro ⟨-, hcalled⟩
    have hcheck : (released x.warp (b.warp x.warp)).called = true := hcalled
    rw [hnew _ (by omega)] at hcheck
    cases hcheck

/-- The second barrier: the tile at hand is done with. -/
theorem valid_leave (hv : Valid p n b l cur) (h : ∀ w < p.warps, b.warp w = .leave) :
    Valid p n { b with warp := fun w => released w (b.warp w) } b.acquired none := by
  have hge := p.warps_ge
  have hnew : ∀ w < p.warps, released w (b.warp w) = if w = 0 then .acquire else .enter :=
    fun w hw => by rw [h w hw]; rfl
  have hout : ∀ w < p.warps, (released w (b.warp w)).inside = false := fun w hw => by
    rw [hnew w hw]
    split <;> rfl
  have hcur : cur.isSome = true := by
    have := hv.warps 0 (by omega)
    rwa [h 0 (by omega)] at this
  obtain ⟨t, rfl⟩ := Option.isSome_iff_exists.mp hcur
  refine ⟨fun w hw => ?_, fun w hw => ?_, by simp, hv.acquired_nodup, hv.acquired_lt,
    fun _ _ h => (by cases h), fun _ h => (by cases h), fun x => ?_, hv.calls_nodup, hv.calls_waited⟩
  · exact (hout w hw).trans (hout 0 (by omega)).symm
  · show WarpOk p n _ none w (released w (b.warp w))
    rw [hnew w hw]
    split
    · exact ⟨‹_›, rfl⟩
    · exact fun h0 => absurd h0 ‹_›
  · refine (hv.calls x).trans (and_congr_right fun hc => and_congr_right fun hx => ?_)
    rw [hv.acquired, Option.toList_some, List.mem_append, List.mem_singleton, h x.warp (by omega)]
    constructor
    · rintro (hl | ⟨ht, -⟩)
      · exact .inl (.inl hl)
      · exact .inl (.inr (Option.some.inj ht).symm)
    · rintro ((hl | ht) | ⟨ht, -⟩)
      · exact .inl hl
      · exact .inr ⟨congrArg some ht.symm, rfl⟩
      · cases ht

theorem valid_sync (hv : Valid p n b l cur) (h : b.sync p = some b') :
    ∃ l' cur', Valid p n b' l' cur' ∧ b'.acquired = b.acquired := by
  have hge := p.warps_ge
  unfold sync at h
  split at h
  · rename_i hall
    cases h
    obtain ⟨hall, v, hv', hparked⟩ := hall
    cases hin : (b.warp 0).inside with
    | false =>
      refine ⟨l, cur, valid_enter hv fun w hw => ?_, rfl⟩
      by_cases h0 : w = 0
      · subst h0
        rcases hall 0 hw with h | h
        · unfold Warp.parked at h
          split at h
          · assumption
          · rename_i hpc
            rw [hpc] at hin
            cases hin
          · cases h
        · rw [h] at hin
          cases hin
      · exact hv.entered hin h0 hw
    | true =>
      -- a warp that waits has a tile at hand, so none has exited
      have hpos : ∀ w < p.warps, b.warp w = .leave ∨ b.warp w = .exited := fun w hw => by
        have hw' := (hv.together w hw).trans hin
        rcases hall w hw with h | h
        · unfold Warp.parked at h
          split at h
          · rename_i hpc
            rw [hpc] at hw'
            cases hw'
          · exact .inl ‹_›
          · cases h
        · exact .inr h
      have hcur : cur.isSome = true := by
        have hok := hv.warps v hv'
        rcases hpos v hv' with h | h
        · rwa [h] at hok
        · rw [h] at hparked
          cases hparked
      refine ⟨b.acquired, none, valid_leave hv fun w hw => (hpos w hw).resolve_right fun h => ?_, rfl⟩
      have hok := hv.warps w hw
      rw [h] at hok
      rw [hok.1] at hcur
      cases hcur
  · cases h

/-! ## The tile counter -/

/-- The block has acquired a tile past the last. -/
def exhausted (p : Launch) (b : Block) : Bool :=
  match b.warp 0 with
  | .storeTile t | .resetReady t | .resetDone t => decide (p.totalTiles ≤ t)
  | .enter | .check => decide (p.totalTiles ≤ b.tileId)
  | .exited => true
  | _ => false

/-- What a step of a warp does to the tile counter. -/
def Tally (p : Launch) (b : Block) (n : Nat) (r : Block × Nat) : Prop :=
  r.2 = n ∧ r.1.acquired = b.acquired ∧ (b.exhausted p = true → r.1.exhausted p = true) ∨
    r.2 = n + 1 ∧ b.exhausted p = false ∧
      (n < p.totalTiles ∧ r.1.acquired = b.acquired ++ [n] ∨
        p.totalTiles ≤ n ∧ r.1.acquired = b.acquired ∧ r.1.exhausted p = true)

theorem exhausted_of_ne {b' : Block} (hw : w ≠ 0) {x : Warp} (hwarp : b'.warp = Function.update b.warp w x)
    (htile : b'.tileId = b.tileId) : b'.exhausted p = b.exhausted p := by
  unfold exhausted
  rw [hwarp, htile, Function.update_of_ne (Ne.symm hw)]

theorem tally_warpStep (hv : Valid p n b l cur) (hw : w < p.warps)
    (hn : b.warp 0 = .acquire → n < 2 ^ 32) {r : Block × Nat} (h : b.warpStep p n w = some r) : Tally p b n r := by
  have hok := hv.warps w hw
  by_cases h0 : w = 0
  · subst h0
    unfold warpStep at h
    split at h <;> rename_i hpc <;> rw [hpc] at hok
    · cases h
      refine .inr ⟨rfl, by unfold exhausted; rw [hpc], ?_⟩
      dsimp only
      rw [Nat.mod_eq_of_lt (hn hpc)]
      by_cases hlt : n < p.totalTiles
      · exact .inl ⟨hlt, if_pos hlt⟩
      · refine .inr ⟨Nat.le_of_not_lt hlt, if_neg hlt, ?_⟩
        simpa only [exhausted, setWarp, Function.update_self] using decide_eq_true (Nat.le_of_not_lt hlt)
    · cases h
      refine .inl ⟨rfl, rfl, fun ho => ?_⟩
      simpa only [exhausted, setWarp, Function.update_self, hpc] using ho
    · cases h
      refine .inl ⟨rfl, rfl, fun ho => ?_⟩
      simpa only [exhausted, setWarp, Function.update_self, hpc] using ho
    · cases h
      refine .inl ⟨rfl, rfl, fun ho => ?_⟩
      simpa only [exhausted, setWarp, Function.update_self, hpc, hok.2.2.1] using ho
    · cases h
    · split at h <;> cases h
      · exact .inl ⟨rfl, rfl, fun _ => by simp only [exhausted, setWarp, Function.update_self]⟩
      · refine .inl ⟨rfl, rfl, fun ho => ?_⟩
        simp only [exhausted, hpc, decide_eq_true_eq] at ho
        exact absurd ho ‹_›
    · cases h
      exact .inl ⟨rfl, rfl, fun ho => absurd ho (by unfold exhausted; rw [hpc]; nofun)⟩
    · cases h
      exact .inl ⟨rfl, rfl, fun ho => absurd ho (by unfold exhausted; rw [hpc]; nofun)⟩
    · cases h
      exact .inl ⟨rfl, rfl, fun ho => absurd ho (by unfold exhausted; rw [hpc]; nofun)⟩
    · cases h
      exact .inl ⟨rfl, rfl, fun ho => absurd ho (by unfold exhausted; rw [hpc]; nofun)⟩
    · split at h <;> cases h
      exact .inl ⟨rfl, rfl, fun ho => absurd ho (by unfold exhausted; rw [hpc]; nofun)⟩
    · exact absurd hok.1.1 (Nat.lt_irrefl 0)
    · exact absurd hok.1.1.1 (Nat.lt_irrefl 0)
    · exact absurd hok.1.1.1 (Nat.lt_irrefl 0)
    · exact absurd hok.1.1.1 (Nat.lt_irrefl 0)
    · cases h
    · cases h
  · have hkeep : ∀ (b' : Block) (x : Warp), b'.warp = Function.update b.warp w x →
        b'.tileId = b.tileId → b'.acquired = b.acquired → Tally p b n (b', n) :=
      fun b' x hwarp htile hacq => .inl ⟨rfl, hacq, fun ho => by rwa [exhausted_of_ne h0 hwarp htile]⟩
    unfold warpStep at h
    split at h <;> rename_i hpc <;> rw [hpc] at hok
    · exact absurd hok.1 h0
    · exact absurd hok.1 h0
    · exact absurd hok.1 h0
    · exact absurd hok.1 h0
    · cases h
    · split at h <;> cases h <;> exact hkeep _ _ rfl rfl rfl
    · cases h
      exact hkeep _ _ rfl rfl rfl
    · exact absurd hok.1 h0
    · exact absurd hok.1 h0
    · exact absurd hok.1.1 h0
    · exact absurd hok.1 h0
    · split at h <;> cases h
      exact hkeep _ _ rfl rfl rfl
    · cases h
      exact hkeep _ _ rfl rfl rfl
    · cases h
      exact hkeep _ _ rfl rfl rfl
    · cases h
      exact hkeep _ _ rfl rfl rfl
    · cases h
    · cases h

theorem exhausted_sync (h : b.sync p = some b') (ho : b.exhausted p = true) : b'.exhausted p = true := by
  unfold sync at h
  split at h
  · cases h
    unfold exhausted at ho ⊢
    dsimp only
    split at ho
    case h_7 => cases ho
    all_goals
      rename_i hpc
      rw [hpc]
      exact ho
  · cases h

end Block

/-- The blocks of the grid and the tile counter they share. -/
structure Grid (B : Type) where
  nextTile : Nat
  block : B → Block

namespace Grid

variable {B : Type}

def init : Grid B := ⟨0, fun _ => Block.init⟩

inductive Act (B : Type)
  | warp (b : B) (w : Nat)
  | sync (b : B)

def step [DecidableEq B] (p : Launch) (g : Grid B) : Act B → Option (Grid B)
  | .warp b w =>
    if w < p.warps then
      ((g.block b).warpStep p g.nextTile w).map fun r =>
        { nextTile := r.2, block := Function.update g.block b r.1 }
    else none
  | .sync b =>
    ((g.block b).sync p).map fun r => { g with block := Function.update g.block b r }

/-! ## Every run -/

section Runs
variable [Fintype B] {p : Launch}

/-- The invariant of a grid: every tile the counter has passed is with one
block, and past the last tile the counter has moved once for a block. -/
structure Valid (p : Launch) (g : Grid B) : Prop where
  block : ∀ b, ∃ l cur, (g.block b).Valid p g.nextTile l cur
  count : g.nextTile ≤ p.totalTiles + (Finset.univ.filter fun b => (g.block b).exhausted p = true).card
  owned : ∀ t < p.totalTiles, t < g.nextTile → ∃ b, t ∈ (g.block b).acquired
  owner : ∀ t b b', t ∈ (g.block b).acquired → t ∈ (g.block b').acquired → b = b'

theorem valid_init (p : Launch) : (init : Grid B).Valid p where
  block _ := ⟨[], none, Block.valid_init p⟩
  count := Nat.zero_le _
  owned _ _ h := absurd h (Nat.not_lt_zero _)
  owner _ _ _ h := absurd h List.not_mem_nil

/-- A block that has not come past the last tile finds the counter in range. -/
theorem Valid.nextTile_lt {g : Grid B} (hv : g.Valid p) (hp : p.totalTiles + Fintype.card B ≤ 2 ^ 32)
    {b : B} (hb : (g.block b).exhausted p = false) : g.nextTile < 2 ^ 32 := by
  have hlt : (Finset.univ.filter fun b => (g.block b).exhausted p = true).card < Fintype.card B := by
    refine Finset.card_lt_card (Finset.filter_ssubset.mpr ⟨b, Finset.mem_univ b, ?_⟩)
    rw [hb]
    nofun
  have := hv.count
  omega

variable [DecidableEq B]

theorem Valid.update {g : Grid B} (hv : g.Valid p) {b : B} {r : Block × Nat}
    (hblock : ∃ l cur, r.1.Valid p r.2 l cur) (ht : (g.block b).Tally p g.nextTile r) :
    Valid p ⟨r.2, Function.update g.block b r.1⟩ where
  block b' := by
    by_cases h : b' = b
    · subst h
      simpa only [Function.update_self] using hblock
    · obtain ⟨l, cur, hb⟩ := hv.block b'
      refine ⟨l, cur, ?_⟩
      simp only [Function.update_of_ne h]
      exact hb.mono (by rcases ht with ⟨h, -⟩ | ⟨h, -⟩ <;> omega)
  count := by
    -- the counter moves by one: below the last tile, or with its block
    have hsub : ∀ (hk : (g.block b).exhausted p = true → r.1.exhausted p = true),
        (Finset.univ.filter fun b => (g.block b).exhausted p = true) ⊆
          Finset.univ.filter fun c => (Function.update g.block b r.1 c).exhausted p = true := by
      intro hk c hc
      rw [Finset.mem_filter] at hc ⊢
      refine ⟨Finset.mem_univ c, ?_⟩
      by_cases h : c = b
      · subst h
        rw [Function.update_self]
        exact hk hc.2
      · rw [Function.update_of_ne h]
        exact hc.2
    have hcount := hv.count
    rcases ht with ⟨h1, -, hk⟩ | ⟨h1, hb, ⟨hlt, -⟩ | ⟨hle, -, ho⟩⟩
    · have := Finset.card_le_card (hsub hk)
      dsimp only
      omega
    · dsimp only
      omega
    · have hssub : (Finset.univ.filter fun b => (g.block b).exhausted p = true) ⊂
          Finset.univ.filter fun c => (Function.update g.block b r.1 c).exhausted p = true := by
        refine Finset.ssubset_iff_subset_ne.mpr ⟨hsub fun _ => ho, fun heq => ?_⟩
        have hmem : b ∈ Finset.univ.filter fun c => (Function.update g.block b r.1 c).exhausted p = true := by
          rw [Finset.mem_filter, Function.update_self]
          exact ⟨Finset.mem_univ b, ho⟩
        rw [← heq, Finset.mem_filter, hb] at hmem
        cases hmem.2
      have := Finset.card_lt_card hssub
      dsimp only
      omega
  owned t htot hlt := by
    have hkeep : ∀ c, t ∈ (g.block c).acquired → (∀ t ∈ (g.block b).acquired, t ∈ r.1.acquired) →
        t ∈ (Function.update g.block b r.1 c).acquired := by
      intro c hc hsub
      by_cases h : c = b
      · subst h
        rw [Function.update_self]
        exact hsub t hc
      · rwa [Function.update_of_ne h]
    rcases ht with ⟨h1, ha, -⟩ | ⟨h1, -, ⟨hn, ha⟩ | ⟨hle, ha, -⟩⟩
    · obtain ⟨c, hc⟩ := hv.owned t htot (h1 ▸ hlt)
      exact ⟨c, hkeep c hc fun _ h => ha ▸ h⟩
    · by_cases hnew : t < g.nextTile
      · obtain ⟨c, hc⟩ := hv.owned t htot hnew
        exact ⟨c, hkeep c hc fun _ h => ha ▸ List.mem_append_left _ h⟩
      · obtain rfl : t = g.nextTile := by
          dsimp only at hlt
          omega
        refine ⟨b, ?_⟩
        simp only [Function.update_self, ha]
        exact List.mem_append_right _ (List.mem_singleton.mpr rfl)
    · obtain ⟨c, hc⟩ := hv.owned t htot (by omega)
      exact ⟨c, hkeep c hc fun _ h => ha ▸ h⟩
  owner t c c' hc hc' := by
    have hold : ∀ c, t ∈ (Function.update g.block b r.1 c).acquired →
        t ∈ (g.block c).acquired ∨ c = b ∧ t = g.nextTile := by
      intro c hc
      by_cases h : c = b
      · subst h
        rw [Function.update_self] at hc
        rcases ht with ⟨-, ha, -⟩ | ⟨-, -, ⟨-, ha⟩ | ⟨-, ha, -⟩⟩ <;> rw [ha] at hc
        · exact .inl hc
        · rcases List.mem_append.mp hc with hc | hc
          · exact .inl hc
          · exact .inr ⟨rfl, List.mem_singleton.mp hc⟩
        · exact .inl hc
      · rw [Function.update_of_ne h] at hc
        exact .inl hc
    have hlt : ∀ c, t ∈ (g.block c).acquired → t ≠ g.nextTile := fun c hc he => by
      obtain ⟨l, cur, hb⟩ := hv.block c
      exact Nat.lt_irrefl _ (he ▸ (hb.acquired_lt t hc).2)
    rcases hold c hc with h | ⟨rfl, h⟩ <;> rcases hold c' hc' with h' | ⟨rfl, h'⟩
    · exact hv.owner t c c' h h'
    · exact absurd h' (hlt c h)
    · exact absurd h (hlt c' h')
    · rfl

theorem valid_step (hp : p.totalTiles + Fintype.card B ≤ 2 ^ 32) {g g' : Grid B} {a : Act B}
    (hv : g.Valid p) (h : g.step p a = some g') : g'.Valid p := by
  cases a with
  | warp b w =>
    simp only [step] at h
    split at h
    · rename_i hw
      obtain ⟨r, hr, rfl⟩ := Option.map_eq_some_iff.mp h
      obtain ⟨l, cur, hb⟩ := hv.block b
      have hn : (g.block b).warp 0 = .acquire → g.nextTile < 2 ^ 32 := fun hpc =>
        hv.nextTile_lt hp (by unfold Block.exhausted; rw [hpc])
      exact hv.update ⟨l, (Block.valid_warpStep hb hw hn hr).2⟩ (Block.tally_warpStep hb hw hn hr)
    · cases h
  | sync b =>
    obtain ⟨r, hr, rfl⟩ := Option.map_eq_some_iff.mp h
    obtain ⟨l, cur, hb⟩ := hv.block b
    obtain ⟨l', cur', hb', hacq⟩ := Block.valid_sync hb hr
    exact hv.update (r := (r, g.nextTile)) ⟨l', cur', hb'⟩ (.inl ⟨rfl, hacq, Block.exhausted_sync hr⟩)

theorem valid_of_reachable (hp : p.totalTiles + Fintype.card B ≤ 2 ^ 32) {g : Grid B}
    (h : ReachableFrom (step p) init g) : g.Valid p :=
  h.invariant (by rintro _ rfl; exact valid_init p) fun _ _ _ hv _ hs => valid_step hp hv hs

end Runs
end Grid
/-- What a grid has done: every chunk is computed once, on arrived data, and the
shared state is reset only between tiles. -/
structure Grid.EachOnce {B : Type} (p : Launch) (g : Grid B) : Prop where
  /-- Once a block has left, every tile has been acquired by one block. -/
  acquired : ∀ b, (g.block b).Left p → ∀ t < p.totalTiles, ∃! c, t ∈ (g.block c).acquired
  owner : ∀ t b b', t ∈ (g.block b).acquired → t ∈ (g.block b').acquired → b = b'
  inRange : ∀ b, (g.block b).acquired.Nodup ∧ ∀ t ∈ (g.block b).acquired, t < p.totalTiles
  /-- A call is for a chunk of an acquired tile, by its warp, after its wait. -/
  calls : ∀ b, ∀ x ∈ (g.block b).calls, x.tile ∈ (g.block b).acquired ∧
    x.chunk < p.chunksPerTile ∧ x.warp = x.chunk + 1 ∧
    (x.tile, (x.chunk + 1) * p.tokensPerChunk) ∈ (g.block b).waited
  at_most : ∀ b x, (g.block b).calls.count x ≤ 1
  exactly : ∀ b, (g.block b).Left p → ∀ t ∈ (g.block b).acquired, ∀ c < p.chunksPerTile,
    (g.block b).calls.count ⟨t, c, c + 1⟩ = 1
  /-- When the state is reset for `t`, the calls for all tiles before have
  returned. -/
  resets : ∀ b, ∀ w < p.warps, ∀ t, ((g.block b).warp w).resets = some t →
    (∀ v < p.warps, ((g.block b).warp v).called = false) ∧
      ∀ t' ∈ (g.block b).acquired, t' ≠ t → ∀ c < p.chunksPerTile,
        (⟨t', c, c + 1⟩ : Call) ∈ (g.block b).calls

namespace Block

variable {p : Launch} {n : Nat} {b : Block} {l : List Nat} {cur : Option Nat}

theorem Valid.of_left (hv : b.Valid p n l cur) (hl : b.Left p) :
    cur = none ∧ p.totalTiles ≤ n := by
  have hge := p.warps_ge
  have := hv.warps 0 (by omega)
  rwa [hl 0 (by omega)] at this

theorem Valid.resets (hv : b.Valid p n l cur) {w t : Nat} (hw : w < p.warps)
    (hr : (b.warp w).resets = some t) : (∀ v < p.warps, (b.warp v).called = false) ∧
      ∀ t' ∈ b.acquired, t' ≠ t → ∀ c < p.chunksPerTile, (⟨t', c, c + 1⟩ : Call) ∈ b.calls := by
  have hok := hv.warps w hw
  obtain ⟨rfl, hcl, hout⟩ : w = 0 ∧ Claimed p n cur t ∧ (b.warp w).inside = false := by
    unfold Warp.resets at hr
    split at hr <;> cases hr <;> rename_i hpc <;> rw [hpc] at hok ⊢
    · exact ⟨hok.1, hok.2, rfl⟩
    · exact ⟨hok.1, hok.2.1, rfl⟩
    · exact ⟨hok.1, hok.2.1, rfl⟩
  constructor
  · intro v hv'
    by_cases h0 : v = 0
    · subst h0
      unfold Warp.resets at hr
      split at hr <;> cases hr <;> rename_i hpc <;> rw [hpc] <;> rfl
    · rw [hv.entered hout h0 hv']
      rfl
  · intro t' ht' hne c hc
    rw [hv.served_outside hout]
    refine ⟨hc, rfl, ?_⟩
    rw [hv.acquired] at ht'
    refine (List.mem_append.mp ht').resolve_right fun h => hne ?_
    rcases hcl with ⟨-, rfl⟩ | ⟨-, -, rfl⟩
    · exact List.mem_singleton.mp h
    · cases h

end Block

theorem Grid.Valid.eachOnce {B : Type} [Fintype B] {p : Launch} {g : Grid B} (hv : g.Valid p) :
    g.EachOnce p where
  acquired b hl t ht := by
    obtain ⟨l, cur, hb⟩ := hv.block b
    obtain ⟨c, hc⟩ := hv.owned t ht (Nat.lt_of_lt_of_le ht (hb.of_left hl).2)
    exact ⟨c, hc, fun c' hc' => hv.owner t c' c hc' hc⟩
  owner := hv.owner
  inRange b := by
    obtain ⟨l, cur, hb⟩ := hv.block b
    exact ⟨hb.acquired_nodup, fun t ht => (hb.acquired_lt t ht).1⟩
  calls b x hx := by
    obtain ⟨l, cur, hb⟩ := hv.block b
    obtain ⟨hc, hw, hserved⟩ := (hb.calls x).mp hx
    refine ⟨?_, hc, hw, hb.calls_waited x hx⟩
    rw [hb.acquired]
    rcases hserved with h | ⟨h, -⟩
    · exact List.mem_append_left _ h
    · rw [h]
      exact List.mem_append_right _ (List.mem_singleton.mpr rfl)
  at_most b x := by
    obtain ⟨l, cur, hb⟩ := hv.block b
    exact List.nodup_iff_count_le_one.mp hb.calls_nodup x
  exactly b hl t ht c hc := by
    obtain ⟨l, cur, hb⟩ := hv.block b
    refine List.count_eq_one_of_mem hb.calls_nodup ((hb.calls _).mpr ⟨hc, rfl, .inl ?_⟩)
    rw [hb.acquired, (hb.of_left hl).1] at ht
    simpa using ht
  resets b w hw t hr := by
    obtain ⟨l, cur, hb⟩ := hv.block b
    exact hb.resets hw hr

/-- **The single-buffer loop computes every chunk of every tile exactly once**,
on arrived data, in every run of a launch whose tiles and blocks together are at
most `2 ^ 32`. -/
theorem eachOnce_of_reachable {B : Type} [Fintype B] [DecidableEq B] {p : Launch}
    (hp : p.totalTiles + Fintype.card B ≤ 2 ^ 32) {g : Grid B}
    (h : ReachableFrom (Grid.step p) Grid.init g) : g.EachOnce p :=
  (Grid.valid_of_reachable hp h).eachOnce

section Example

theorem one_lt_word32 : 1 < 2 ^ 32 := by decide
theorem two_warps_ge : 1 + 1 ≤ 2 := by decide
theorem two_warps_le : 2 ≤ 2 ^ 27 := by decide

/-- As many tiles as a 32-bit `total_tiles` can say, in one chunk each. -/
def mostTiles : Launch := ⟨2 ^ 32 - 1, 1, 1, 2, by decide, Nat.one_pos, two_warps_ge, two_warps_le⟩

/-- A block of two warps at `x` and `y`. -/
structure Lone (n : Nat) (x y : Warp) (tile ready done : Nat) (b : Block) : Prop where
  first : b.warp 0 = x
  second : b.warp 1 = y
  tileId : b.tileId = tile
  chunksReady : b.chunksReady = ready
  computeDone : b.computeDone = done
  zero : 0 < n → 0 ∈ b.acquired

/-- A run in which the first block has been alone. -/
def Alone (n : Nat) (x y : Warp) (tile ready done : Nat) : Prop :=
  ∃ g : Grid Bool, ReachableFrom (Grid.step mostTiles) Grid.init g ∧ g.nextTile = n ∧
    g.block true = Block.init ∧ Lone n x y tile ready done (g.block false)

variable {n m t t' r r' d d' : Nat} {x x' y y' : Warp}

theorem Alone.warp (h : Alone n x y t r d) {w : Nat} (hw : w < 2)
    (hs : ∀ b, Lone n x y t r d b → ∃ b', b.warpStep mostTiles n w = some (b', m) ∧
      Lone m x' y' t' r' d' b') : Alone m x' y' t' r' d' := by
  obtain ⟨g, hg, hn, hother, hb⟩ := h
  obtain ⟨b', hstep, hb'⟩ := hs _ hb
  refine ⟨⟨m, Function.update g.block false b'⟩, hg.step (.warp false w) trivial ?_, rfl, ?_, ?_⟩
  · simp only [Grid.step, mostTiles, hw, if_true, hn]
    simp only [mostTiles] at hstep
    rw [hstep]
    rfl
  · simpa using hother
  · simpa using hb'

theorem Alone.sync (h : Alone n x y t r d)
    (hs : ∀ b, Lone n x y t r d b → ∃ b', b.sync mostTiles = some b' ∧ Lone n x' y' t r d b') :
    Alone n x' y' t r d := by
  obtain ⟨g, hg, hn, hother, hb⟩ := h
  obtain ⟨b', hstep, hb'⟩ := hs _ hb
  refine ⟨⟨n, Function.update g.block false b'⟩, hg.step (.sync false) trivial ?_, rfl, ?_, ?_⟩
  · simp only [Grid.step, hstep, Option.map_some, hn]
  · simpa using hother
  · simpa using hb'

/-- Warp 0 moves, and may store to the shared state. -/
theorem Lone.first_moves {b : Block} (h : Lone n x y t r d b) {b' : Block}
    (hw : b'.warp = Function.update b.warp 0 x') (ht : b'.tileId = t') (hr : b'.chunksReady = r')
    (hd : b'.computeDone = d') (hz : 0 < m → 0 ∈ b'.acquired) : Lone m x' y t' r' d' b' :=
  ⟨by rw [hw]; simp, by rw [hw]; simpa using h.second, ht, hr, hd, hz⟩

theorem Lone.second_moves {b : Block} (h : Lone n x y t r d b) {b' : Block}
    (hw : b'.warp = Function.update b.warp 1 y') (ht : b'.tileId = t') (hr : b'.chunksReady = r')
    (hd : b'.computeDone = d') (hz : 0 < m → 0 ∈ b'.acquired) : Lone m x y' t' r' d' b' :=
  ⟨by rw [hw]; simpa using h.first, by rw [hw]; simp, ht, hr, hd, hz⟩

theorem Lone.sync {b : Block} (h : Lone n x y t r d b) (hx : x.parked = true) (hy : y.parked = true) :
    ∃ b', b.sync mostTiles = some b' ∧
      Lone n (Block.released 0 x) (Block.released 1 y) t r d b' := by
  refine ⟨{ b with warp := fun w => Block.released w (b.warp w) }, if_pos ⟨fun w hw => .inl ?_, 0, by decide, ?_⟩,
    ⟨congrArg (Block.released 0) h.first, congrArg (Block.released 1) h.second, h.tileId,
      h.chunksReady, h.computeDone, h.zero⟩⟩
  · obtain rfl | rfl : w = 0 ∨ w = 1 := by
      have : w < 2 := hw
      omega
    · rw [h.first]
      exact hx
    · rw [h.second]
      exact hy
  · rw [h.first]
    exact hx

/-- Alone, the block can take one tile after the other. -/
theorem Alone.round (h : Alone n .acquire .enter t r d) (hn : n < 2 ^ 32 - 1) :
    Alone (n + 1) .acquire .enter n 1 1 := by
  have hmod : n % 2 ^ 32 = n := Nat.mod_eq_of_lt (by omega)
  have hacquire : Alone (n + 1) (.storeTile n) .enter t r d := by
    refine h.warp (w := 0) (by decide) fun b hb => ⟨_, by rw [Block.warpStep, hb.first], ?_⟩
    refine hb.first_moves (by rw [hmod]; rfl) hb.tileId hb.chunksReady hb.computeDone fun _ => ?_
    show 0 ∈ if n % 2 ^ 32 < mostTiles.totalTiles then b.acquired ++ [n % 2 ^ 32] else b.acquired
    rw [hmod, if_pos (show n < mostTiles.totalTiles from hn), List.mem_append, List.mem_singleton]
    exact (Nat.eq_zero_or_pos n).elim (fun h => .inr h.symm) fun h => .inl (hb.zero h)
  have hstore : Alone (n + 1) (.resetReady n) .enter n r d := by
    refine hacquire.warp (w := 0) (by decide) fun b hb => ⟨_, by rw [Block.warpStep, hb.first], ?_⟩
    exact hb.first_moves rfl rfl hb.chunksReady hb.computeDone hb.zero
  have hreset : Alone (n + 1) (.resetDone n) .enter n 0 d := by
    refine hstore.warp (w := 0) (by decide) fun b hb => ⟨_, by rw [Block.warpStep, hb.first], ?_⟩
    exact hb.first_moves rfl hb.tileId rfl hb.computeDone hb.zero
  have henter : Alone (n + 1) .enter .enter n 0 0 := by
    refine hreset.warp (w := 0) (by decide) fun b hb => ⟨_, by rw [Block.warpStep, hb.first], ?_⟩
    exact hb.first_moves rfl hb.tileId hb.chunksReady rfl hb.zero
  have hcheck : Alone (n + 1) .check .check n 0 0 := henter.sync fun b hb => hb.sync rfl rfl
  have hfirst : Alone (n + 1) .loadTile .check n 0 0 := by
    refine hcheck.warp (w := 0) (by decide) fun b hb => ⟨b.setWarp 0 .loadTile, ?_, ?_⟩
    · rw [Block.warpStep, hb.first]
      exact if_neg (by rw [hb.tileId]; exact Nat.not_le_of_lt hn)
    · exact hb.first_moves rfl hb.tileId hb.chunksReady hb.computeDone hb.zero
  have hsecond : Alone (n + 1) .loadTile .loadTile n 0 0 := by
    refine hfirst.warp (w := 1) (by decide) fun b hb => ⟨b.setWarp 1 .loadTile, ?_, ?_⟩
    · rw [Block.warpStep, hb.second]
      exact if_neg (by rw [hb.tileId]; exact Nat.not_le_of_lt hn)
    · exact hb.second_moves rfl hb.tileId hb.chunksReady hb.computeDone hb.zero
  have hsubmit : Alone (n + 1) (.submit n 0) .loadTile n 0 0 := by
    refine hsecond.warp (w := 0) (by decide) fun b hb => ⟨_, by rw [Block.warpStep, hb.first], ?_⟩
    exact hb.first_moves (by rw [hb.tileId]; rfl) hb.tileId hb.chunksReady hb.computeDone hb.zero
  have hwait : Alone (n + 1) (.waitChunk n 0) .loadTile n 0 0 := by
    refine hsubmit.warp (w := 0) (by decide) fun b hb => ⟨_, by rw [Block.warpStep, hb.first], ?_⟩
    exact hb.first_moves rfl hb.tileId hb.chunksReady hb.computeDone hb.zero
  have harrived : Alone (n + 1) (.ready n 0) .loadTile n 0 0 := by
    refine hwait.warp (w := 0) (by decide) fun b hb => ⟨_, by rw [Block.warpStep, hb.first], ?_⟩
    exact hb.first_moves rfl hb.tileId hb.chunksReady hb.computeDone hb.zero
  have hdrain : Alone (n + 1) .drain .loadTile n 1 0 := by
    refine harrived.warp (w := 0) (by decide) fun b hb => ⟨_, by rw [Block.warpStep, hb.first], ?_⟩
    exact hb.first_moves rfl hb.tileId rfl hb.computeDone hb.zero
  have hrole : Alone (n + 1) .drain (.waitReady n) n 1 0 := by
    refine hdrain.warp (w := 1) (by decide) fun b hb => ⟨_, by rw [Block.warpStep, hb.second], ?_⟩
    exact hb.second_moves (by rw [hb.tileId]; rfl) hb.tileId hb.chunksReady hb.computeDone hb.zero
  have hcompute : Alone (n + 1) .drain (.compute n) n 1 0 := by
    refine hrole.warp (w := 1) (by decide) fun b hb => ⟨b.setWarp 1 (.compute n), ?_, ?_⟩
    · rw [Block.warpStep, hb.second]
      exact if_neg (by rw [hb.chunksReady]; decide)
    · exact hb.second_moves rfl hb.tileId hb.chunksReady hb.computeDone hb.zero
  have hcall : Alone (n + 1) .drain (.inCall n) n 1 0 := by
    refine hcompute.warp (w := 1) (by decide) fun b hb => ⟨_, by rw [Block.warpStep, hb.second], ?_⟩
    exact hb.second_moves rfl hb.tileId hb.chunksReady hb.computeDone hb.zero
  have hreturn : Alone (n + 1) .drain (.count n) n 1 0 := by
    refine hcall.warp (w := 1) (by decide) fun b hb => ⟨_, by rw [Block.warpStep, hb.second], ?_⟩
    exact hb.second_moves rfl hb.tileId hb.chunksReady hb.computeDone hb.zero
  have hcount : Alone (n + 1) .drain .leave n 1 1 := by
    refine hreturn.warp (w := 1) (by decide) fun b hb => ⟨_, by rw [Block.warpStep, hb.second], ?_⟩
    exact hb.second_moves rfl hb.tileId hb.chunksReady (by rw [hb.computeDone]) hb.zero
  have hleave : Alone (n + 1) .leave .leave n 1 1 := by
    refine hcount.warp (w := 0) (by decide) fun b hb => ⟨b.setWarp 0 .leave, ?_, ?_⟩
    · rw [Block.warpStep, hb.first]
      exact if_neg (by rw [hb.computeDone]; decide)
    · exact hb.first_moves rfl hb.tileId hb.chunksReady hb.computeDone hb.zero
  exact hleave.sync fun b hb => hb.sync rfl rfl

theorem alone_of_le (hn : n ≤ 2 ^ 32 - 1) : ∃ t r d, Alone n .acquire .enter t r d := by
  induction n with
  | zero => exact ⟨0, 0, 0, Grid.init, .self _, rfl, rfl, rfl, rfl, rfl, rfl, rfl, nofun⟩
  | succ n ih =>
    obtain ⟨t, r, d, h⟩ := ih (by omega)
    exact ⟨n, 1, 1, h.round (by omega)⟩

/-- A tile is acquired twice: one block takes all tiles and finds no more, and
the counter has wrapped when the next block comes. -/
theorem exists_twice : ∃ g : Grid Bool, ReachableFrom (Grid.step mostTiles) Grid.init g ∧
    0 ∈ (g.block false).acquired ∧ 0 ∈ (g.block true).acquired := by
  obtain ⟨t, r, d, h⟩ := alone_of_le (Nat.le_refl (2 ^ 32 - 1))
  have htop : (2 ^ 32 - 1) % 2 ^ 32 = 2 ^ 32 - 1 := Nat.mod_eq_of_lt (by decide)
  have hpast : Alone (2 ^ 32 - 1 + 1) (.storeTile (2 ^ 32 - 1)) .enter t r d := by
    refine h.warp (w := 0) (by decide) fun b hb => ⟨_, by rw [Block.warpStep, hb.first], ?_⟩
    refine hb.first_moves (by rw [htop]; rfl) hb.tileId hb.chunksReady hb.computeDone fun _ => ?_
    show 0 ∈ if (2 ^ 32 - 1) % 2 ^ 32 < mostTiles.totalTiles then b.acquired ++ [(2 ^ 32 - 1) % 2 ^ 32]
      else b.acquired
    rw [htop, if_neg (show ¬ 2 ^ 32 - 1 < mostTiles.totalTiles from Nat.lt_irrefl _)]
    exact hb.zero (by decide)
  obtain ⟨g, hg, hn, hother, hb⟩ := hpast
  replace hn : g.nextTile = 2 ^ 32 := hn.trans (Nat.sub_add_cancel (by decide))
  have hacquire : (g.block true).warp 0 = .acquire := by rw [hother]; rfl
  have hs : g.step mostTiles (.warp true 0) = some ⟨g.nextTile + 1, Function.update g.block true
      { (g.block true).setWarp 0 (.storeTile (g.nextTile % 2 ^ 32)) with
        acquired := if g.nextTile % 2 ^ 32 < mostTiles.totalTiles then
          (g.block true).acquired ++ [g.nextTile % 2 ^ 32] else (g.block true).acquired }⟩ := by
    rw [Grid.step, if_pos (by decide), Block.warpStep, hacquire]
    rfl
  refine ⟨_, hg.step _ trivial hs, ?_, ?_⟩
  · simpa using hb.zero (by decide)
  · dsimp only
    rw [Function.update_self, hn, Nat.mod_self, if_pos (by decide), hother]
    exact List.mem_singleton.mpr rfl

theorem two_lt_word32 : 2 < 2 ^ 32 := by decide
theorem two_chunks_pos : 1 ≤ 2 := by decide
theorem three_warps_ge : 1 + 2 ≤ 3 := by decide
theorem three_warps_le : 3 ≤ 2 ^ 27 := by decide

/-- Two tiles of two chunks. -/
def twoTiles : Launch :=
  ⟨2, 1, 2, 3, two_lt_word32, two_chunks_pos, three_warps_ge, three_warps_le⟩

/-- Each of two blocks computes a tile, finds no other and leaves. -/
def wholeRun : List (Grid.Act Bool) :=
  let warp := fun b k w => List.replicate k (Grid.Act.warp b w)
  let enter := fun b => warp b 4 0 ++ [.sync b]
  -- the transfer warp sends the first chunk, and the second while the first is computed
  let tile := fun b => (List.range 3).flatMap (warp b 2) ++ warp b 3 0 ++ warp b 2 1 ++ warp b 3 0 ++
    warp b 4 2 ++ warp b 2 1 ++ warp b 1 0 ++ [.sync b]
  enter false ++ enter true ++ tile true ++ tile false ++ enter false ++ enter true ++
    [false, true].flatMap fun b => (List.range 3).flatMap (warp b 1)

/-- The end of the run, and what the theorem says of it. -/
theorem eachOnce_of_reachable_two : ∃ g : Grid Bool,
    [false, true].map (fun b => ((g.block b).warp 0, (g.block b).acquired)) =
      [(.exited, [0]), (.exited, [1])] ∧ g.EachOnce twoTiles := by
  have h : (run (Grid.step twoTiles) Grid.init wholeRun).map
      (fun g => [false, true].map (fun b => ((g.block b).warp 0, (g.block b).acquired))) =
      some [(.exited, [0]), (.exited, [1])] := by decide +kernel
  obtain ⟨g, hg, hsum⟩ := Option.map_eq_some_iff.mp h
  exact ⟨g, hsum, eachOnce_of_reachable (by decide) ((Reachable.self _).run_always hg)⟩

end Example

end Gfd.TileLoop
