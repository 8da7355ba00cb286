import Mathlib
import GfdProof.Transition
import GfdProof.Descriptor

/-! # A block of the scatter-gather kernel

`_sg_transfer_warp_loop`, one memory access at a time.  A block has a transfer
warp, which claims list indices, turns the lists it finds committed into
descriptors and waits for their copies, and a compute warp, which calls
`compute_fn` for each.  The two meet in the block's `_SGWarpSpecState`: the
transfer warp stores a list's header there and sets `list_ready`, the compute
warp sets `compute_done` when the call has returned.

What an access to global memory returns is a label of the step, so that a block
can be looked at alone, in any surroundings, and together with the task queue.

The compute warp sets `compute_done` *before* it clears `list_ready`.  That
clear belongs to the list just finished, and may be performed after the
transfer warp has set `list_ready` for the next one: then both warps wait, each
for the other's flag (`exists_waiting`).  `Orderly` is the condition under which
it does not happen.
-/
namespace Gfd.Sg

open Transition

/-- The fields of an `SGList` besides its commit marker. -/
inductive HeaderField
  | poolOffset | count | listId | flags
  deriving DecidableEq, Repr

/-- A list header. -/
abbrev Header := HeaderField → Nat

/-- The fields of a `DeviceSGEntry`. -/
inductive EntryField
  | srcAddr | dstAddr | size | tag
  deriving DecidableEq, Repr

/-- What the transfer warp copies of an entry. -/
def EntryField.copied : Finset EntryField := {.srcAddr, .dstAddr, .size}

/-- Where the transfer warp is, with the index it has claimed and the header it
has read. -/
inductive Transfer
  | claim
  /-- About to load the sequence of the claimed slot. -/
  | poll (idx : Nat)
  /-- About to load `terminate` in the same loop. -/
  | pollTerminate (idx : Nat)
  /-- About to set `terminated`. -/
  | terminate
  /-- Loading the header. -/
  | load (idx : Nat) (todo : List HeaderField) (h : Header)
  /-- Storing the header to the block's state. -/
  | publish (idx : Nat) (h : Header) (todo : List HeaderField)
  | resetReady (idx : Nat) (h : Header)
  | resetDone (idx : Nat) (h : Header)
  /-- About to reserve descriptor slots. -/
  | reserve (idx : Nat) (h : Header)
  /-- Waiting for room in the descriptor ring. -/
  | space (idx : Nat) (h : Header) (base : Nat)
  /-- Its lanes copy entries to descriptors. -/
  | convert (idx : Nat) (h : Header) (base : Nat) (todo : Finset (Nat × EntryField))
  /-- Its lanes store the sequences of the descriptors. -/
  | commit (idx : Nat) (h : Header) (base : Nat) (todo : Finset Nat)
  /-- About to clear the list's sequence. -/
  | clear (idx : Nat) (h : Header)
  /-- About to load `entry_consumed_idx`. -/
  | consumed (idx : Nat) (h : Header)
  /-- About to compare-and-swap it. -/
  | cas (idx : Nat) (h : Header) (old : Nat)
  /-- Waiting for the list's copies. -/
  | wait (idx : Nat) (h : Header)
  /-- About to set `list_ready`. -/
  | ready (idx : Nat) (h : Header)
  /-- Waiting for `compute_done`. -/
  | waitDone (idx : Nat) (h : Header)
  | exited

/-- Where the compute warp is. -/
inductive Compute
  /-- About to load `list_ready`. -/
  | spin
  /-- About to load `terminated` in the same loop. -/
  | spinTerminated
  /-- About to load `terminated` after the loop. -/
  | check
  /-- Loading the header into its view. -/
  | view (todo : List HeaderField) (h : Header)
  /-- In `compute_fn`. -/
  | call (h : Header)
  /-- About to set `compute_done`. -/
  | done
  /-- About to clear `list_ready`. -/
  | clear
  | exited

/-- The transfer warp is neither waiting for the compute warp nor gone. -/
def Transfer.alone : Transfer → Bool
  | .waitDone .. | .exited => false
  | _ => true

/-- A block.  `taken` records the claimed indices found committed, with the
header read for each, `converted` those turned into committed descriptors, and
`calls` the views `compute_fn` was called with. -/
structure Block where
  header : Header
  listReady : Bool
  computeDone : Bool
  terminated : Bool
  transfer : Transfer
  compute : Compute
  listsProcessed : Nat
  taken : List (Nat × Header)
  converted : List Nat
  calls : List Header

/-- Which access comes next: the transfer warp's, where its lanes are free to
choose the entry, or the compute warp's. -/
inductive Move
  | transfer
  | convert (i : Nat) (f : EntryField)
  | commit (i : Nat)
  | compute

namespace Block

def init : Block where
  header _ := 0
  listReady := false
  computeDone := false
  terminated := false
  transfer := .claim
  compute := .spin
  listsProcessed := 0
  taken := []
  converted := []
  calls := []

/-- What ends the wait for a list's copies: its own signal, where there is one, or
the count of completed lists passing the block's own. -/
def copiesDone (fine : Bool) (listsProcessed v : Nat) : Bool :=
  if fine then v != 0 else decide (listsProcessed + 1 ≤ v)

/-- The next step of the transfer warp outside the loops of its lanes.  `v` is
what the access returns, if it returns anything; `fine` says that the queue has
`d_list_done`. -/
def transferStep (fine : Bool) (b : Block) (v : Nat) : Option Block :=
  match b.transfer with
  | .claim => some { b with transfer := .poll v }
  | .poll idx =>
    if v = word (idx + 1) then
      some { b with transfer := .load idx [.poolOffset, .count, .listId, .flags] fun _ => 0 }
    else some { b with transfer := .pollTerminate idx }
  | .pollTerminate idx =>
    if v ≠ 0 then some { b with transfer := .terminate } else some { b with transfer := .poll idx }
  | .terminate => some { b with terminated := true, transfer := .exited }
  | .load idx (f :: todo) h => some { b with transfer := .load idx todo (Function.update h f v) }
  | .load idx [] h =>
    some { b with
      taken := b.taken ++ [(idx, h)]
      transfer := .publish idx h [.listId, .count, .poolOffset, .flags] }
  | .publish idx h (f :: todo) =>
    some { b with
      header := Function.update b.header f (h f)
      transfer := .publish idx h todo }
  | .publish idx h [] => some { b with transfer := .resetReady idx h }
  | .resetReady idx h => some { b with listReady := false, transfer := .resetDone idx h }
  | .resetDone idx h => some { b with computeDone := false, transfer := .reserve idx h }
  | .reserve idx h => some { b with transfer := .space idx h v }
  | .space idx h base =>
    if subWord (base + h .count) v ≤ queueSize then
      let todo := Finset.range (h .count) ×ˢ EntryField.copied
      some { b with transfer := .convert idx h base todo }
    else none
  | .convert idx h base todo =>
    if todo = ∅ then some { b with transfer := .commit idx h base (Finset.range (h .count)) }
    else none
  | .commit idx h _ todo =>
    if todo = ∅ then some { b with converted := b.converted ++ [idx], transfer := .clear idx h }
    else none
  | .clear idx h => some { b with transfer := .consumed idx h }
  | .consumed idx h =>
    if v < h .poolOffset + h .count then some { b with transfer := .cas idx h v }
    else some { b with transfer := .wait idx h }
  | .cas idx h old =>
    if v ≠ old ∧ v < h .poolOffset + h .count then some { b with transfer := .cas idx h v }
    else some { b with transfer := .wait idx h }
  | .wait idx h =>
    if copiesDone fine b.listsProcessed v then some { b with transfer := .ready idx h } else none
  | .ready idx h =>
    some { b with
      listReady := true
      listsProcessed := b.listsProcessed + 1
      transfer := .waitDone idx h }
  | .waitDone _ _ => if b.computeDone then some { b with transfer := .claim } else none
  | .exited => none

/-- The next step of the compute warp. -/
def computeStep (b : Block) : Option Block :=
  match b.compute with
  | .spin => some { b with compute := if b.listReady then .check else .spinTerminated }
  | .spinTerminated => some { b with compute := if b.terminated then .check else .spin }
  | .check =>
    if b.terminated then some { b with compute := .exited }
    else some { b with compute := .view [.listId, .count, .flags, .poolOffset] fun _ => 0 }
  | .view (f :: todo) h => some { b with compute := .view todo (Function.update h f (b.header f)) }
  | .view [] h => some { b with calls := b.calls ++ [h], compute := .call h }
  | .call _ => some { b with compute := .done }
  | .done => some { b with computeDone := true, compute := .clear }
  | .clear => some { b with listReady := false, compute := .spin }
  | .exited => none

/-- One step; `v` is the value an access to global memory returns. -/
def step (fine : Bool) (b : Block) : Move × Nat → Option Block
  | (.transfer, v) => b.transferStep fine v
  | (.convert i f, _) =>
    match b.transfer with
    | .convert idx h base todo =>
      if (i, f) ∈ todo then some { b with transfer := .convert idx h base (todo.erase (i, f)) }
      else none
    | _ => none
  | (.commit i, _) =>
    match b.transfer with
    | .commit idx h base todo =>
      if i ∈ todo then some { b with transfer := .commit idx h base (todo.erase i) } else none
    | _ => none
  | (.compute, _) => b.computeStep

/-- `list_ready` is set only after the compute warp has cleared it for the
previous list. -/
def Orderly (b : Block) (x : Move × Nat) : Prop :=
  match x.1, b.transfer, b.compute with
  | .transfer, .ready _ _, .clear => False
  | _, _, _ => True

instance (b : Block) (x : Move × Nat) : Decidable (b.Orderly x) := by
  unfold Orderly
  split <;> infer_instance

/-- `compute_fn` has returned for the list at hand. -/
def returned (b : Block) : Bool :=
  match b.compute with
  | .done => true
  | _ => b.computeDone

/-- The list at hand, until its call has returned. -/
def serving (b : Block) : Option Nat :=
  match b.transfer with
  | .publish idx _ _ | .resetReady idx _ | .resetDone idx _ | .reserve idx _ | .space idx _ _
  | .convert idx _ _ _ | .commit idx _ _ _ | .clear idx _ | .consumed idx _ | .cas idx _ _
  | .wait idx _ | .ready idx _ => some idx
  | .waitDone idx _ => if b.returned then none else some idx
  | _ => none

/-! ## The invariant of the handshake -/

/-- No list is handed over: the compute warp waits, or has still to clear the
flag of the list before. -/
def Resting (b : Block) : Prop :=
  match b.compute with
  | .spin | .spinTerminated => b.listReady = false
  | .clear => True
  | _ => False

/-- `compute_fn` has been called for every list taken. -/
def Settled (b : Block) : Prop := b.calls = b.taken.map Prod.snd

/-- It has been called for every list taken but the last, which is `idx`. -/
def Pending (b : Block) (idx : Nat) (h : Header) : Prop :=
  ∃ l, b.taken = l ++ [(idx, h)] ∧ b.calls = l.map Prod.snd

/-- Every list taken has been turned into descriptors. -/
def Converted (b : Block) : Prop := b.converted = b.taken.map Prod.fst

/-- Every list taken but the last, which is `idx`. -/
def Converting (b : Block) (idx : Nat) : Prop := b.taken.map Prod.fst = b.converted ++ [idx]

/-- The list handed over, as the compute warp goes through it. -/
def Handed (b : Block) (idx : Nat) (h : Header) : Prop :=
  match b.compute with
  | .spin | .spinTerminated =>
    b.computeDone = false ∧ b.Pending idx h ∨
      b.computeDone = true ∧ b.listReady = false ∧ b.Settled
  | .check => b.computeDone = false ∧ b.Pending idx h
  | .view todo v => b.computeDone = false ∧ b.Pending idx h ∧ ∀ f, f ∉ todo → v f = h f
  | .call v => b.computeDone = false ∧ b.Settled ∧ v = h
  | .done => b.computeDone = false ∧ b.Settled
  | .clear => b.computeDone = false ∧ b.Pending idx h ∨ b.computeDone = true ∧ b.Settled
  | .exited => False

/-- How far the transfer warp is with the list it has taken. -/
def Progress (b : Block) : Prop :=
  match b.transfer with
  | .claim | .poll _ | .pollTerminate _ | .load .. | .terminate | .exited => b.Settled ∧ b.Converted
  | .publish idx h todo =>
    b.Pending idx h ∧ b.Converting idx ∧ ∀ f, f ∉ todo → b.header f = h f
  | .resetReady idx h | .resetDone idx h => b.Pending idx h ∧ b.Converting idx ∧ b.header = h
  | .reserve idx h | .space idx h _ | .convert idx h _ _ | .commit idx h _ _ =>
    b.Pending idx h ∧ b.Converting idx ∧ b.header = h ∧ b.computeDone = false
  | .clear idx h | .consumed idx h | .cas idx h _ | .wait idx h | .ready idx h =>
    b.Pending idx h ∧ b.Converted ∧ b.header = h ∧ b.computeDone = false
  | .waitDone idx h => (∃ l, b.taken = l ++ [(idx, h)]) ∧ b.Converted ∧ b.header = h

/-- Where the compute warp is meanwhile. -/
def Partner (b : Block) : Prop :=
  match b.transfer with
  | .waitDone idx h => b.terminated = false ∧ b.Handed idx h
  | .exited => b.terminated = true ∧ (b.compute = .exited ∨ b.compute = .check ∨ b.Resting)
  | _ => b.terminated = false ∧ b.Resting

/-- The invariant of a block. -/
structure Valid (b : Block) : Prop where
  progress : b.Progress
  partner : b.Partner

theorem valid_init : init.Valid := ⟨⟨rfl, rfl⟩, rfl, rfl⟩

variable {fine : Bool} {b b' : Block}

/-- While no list is handed over, the compute warp can only clear its flag and
wait. -/
theorem Resting.computeStep (hr : b.Resting) (ht : b.terminated = false)
    (h : b.computeStep = some b') :
    ∃ r c, b' = { b with listReady := r, compute := c } ∧ b'.Resting := by
  unfold Resting at hr
  split at hr <;> rename_i hc
  · rw [Block.computeStep, hc] at h
    dsimp only at h
    rw [if_neg (by simp [hr])] at h
    cases h
    exact ⟨_, _, rfl, hr⟩
  · rw [Block.computeStep, hc] at h
    dsimp only at h
    rw [if_neg (by simp [ht])] at h
    cases h
    exact ⟨_, _, rfl, hr⟩
  · rw [Block.computeStep, hc] at h
    cases h
    exact ⟨_, _, rfl, rfl⟩
  · exact hr.elim

theorem not_mem_update {h : Header} {f : HeaderField} {todo : List HeaderField} {v : Header}
    (hv : ∀ g, g ∉ f :: todo → v g = h g) (g : HeaderField) (hg : g ∉ todo) :
    Function.update v f (h f) g = h g := by
  by_cases hgf : g = f
  · subst hgf
    exact Function.update_self ..
  · rw [Function.update_of_ne hgf]
    exact hv g fun hmem => (List.mem_cons.mp hmem).elim hgf hg

theorem eq_of_all_loaded {h v : Header} (hv : ∀ g, g ∉ ([] : List HeaderField) → v g = h g) : v = h :=
  funext fun g => hv g List.not_mem_nil

/-- A list handed over, after a step of the compute warp. -/
theorem handed_computeStep {idx : Nat} {h : Header} (ht : b.terminated = false) (hb : b.header = h)
    (hh : b.Handed idx h) (hs : b.computeStep = some b') :
    b'.Handed idx h ∧ b'.header = h ∧ b'.terminated = false ∧ b'.transfer = b.transfer ∧
      b'.taken = b.taken ∧ b'.converted = b.converted := by
  unfold Handed at hh
  split at hh <;> rename_i hc <;> rw [Block.computeStep, hc] at hs <;>
    try dsimp only at hs
  · -- it sees the flag, or has been here since it finished the list
    rcases hh with ⟨hd, hp⟩ | ⟨hd, hr, hst⟩
    · split at hs <;> cases hs
      · exact ⟨⟨hd, hp⟩, hb, ht, rfl, rfl, rfl⟩
      · exact ⟨.inl ⟨hd, hp⟩, hb, ht, rfl, rfl, rfl⟩
    · rw [if_neg (by simp [hr])] at hs
      cases hs
      exact ⟨.inr ⟨hd, hr, hst⟩, hb, ht, rfl, rfl, rfl⟩
  · rw [if_neg (by simp [ht])] at hs
    cases hs
    exact ⟨hh, hb, ht, rfl, rfl, rfl⟩
  · rw [if_neg (by simp [ht])] at hs
    cases hs
    refine ⟨⟨hh.1, hh.2, fun f hf => ?_⟩, hb, ht, rfl, rfl, rfl⟩
    cases f <;> simp at hf
  · obtain ⟨hd, hp, hv⟩ := hh
    rename_i todo v
    cases todo with
    | cons f todo =>
      cases hs
      refine ⟨⟨hd, hp, ?_⟩, hb, ht, rfl, rfl, rfl⟩
      rw [hb]
      exact not_mem_update hv
    | nil =>
      cases hs
      obtain ⟨l, hl, hcalls⟩ := hp
      have hvh := eq_of_all_loaded hv
      refine ⟨⟨hd, ?_, hvh⟩, hb, ht, rfl, rfl, rfl⟩
      show b.calls ++ [v] = b.taken.map Prod.snd
      rw [hl, hcalls, hvh, List.map_append]
      rfl
  · cases hs
    exact ⟨⟨hh.1, hh.2.1⟩, hb, ht, rfl, rfl, rfl⟩
  · cases hs
    exact ⟨.inr ⟨rfl, hh.2⟩, hb, ht, rfl, rfl, rfl⟩
  · cases hs
    exact ⟨hh.imp_right fun h => ⟨h.1, rfl, h.2⟩, hb, ht, rfl, rfl, rfl⟩
  · exact absurd hh id

/-- On the way out the compute warp sees `terminated`. -/
theorem leaving_computeStep (ht : b.terminated = true)
    (hc : b.compute = .exited ∨ b.compute = .check ∨ b.Resting) (hs : b.computeStep = some b') :
    ∃ r c, b' = { b with listReady := r, compute := c } ∧
      (c = .exited ∨ c = .check ∨ b'.Resting) := by
  rcases hc with hc | hc | hr
  · rw [Block.computeStep, hc] at hs
    cases hs
  · rw [Block.computeStep, hc] at hs
    dsimp only at hs
    rw [if_pos ht] at hs
    cases hs
    exact ⟨_, _, rfl, .inl rfl⟩
  · unfold Resting at hr
    split at hr <;> rename_i hc
    · rw [Block.computeStep, hc] at hs
      dsimp only at hs
      rw [if_neg (by simp [hr])] at hs
      cases hs
      exact ⟨_, _, rfl, .inr (.inr hr)⟩
    · rw [Block.computeStep, hc] at hs
      dsimp only at hs
      rw [if_pos ht] at hs
      cases hs
      exact ⟨_, _, rfl, .inr (.inl rfl)⟩
    · rw [Block.computeStep, hc] at hs
      cases hs
      exact ⟨_, _, rfl, .inr (.inr rfl)⟩
    · exact absurd hr id

/-- The compute warp leaves the transfer warp alone, and what it has done. -/
theorem computeStep_transfer (hs : b.computeStep = some b') :
    b'.transfer = b.transfer ∧ b'.taken = b.taken ∧ b'.converted = b.converted := by
  unfold computeStep at hs
  split at hs
  case h_1 | h_2 => split at hs <;> cases hs <;> exact ⟨rfl, rfl, rfl⟩
  case h_3 => split at hs <;> cases hs <;> exact ⟨rfl, rfl, rfl⟩
  all_goals cases hs <;> exact ⟨rfl, rfl, rfl⟩

theorem valid_computeStep (hv : b.Valid) (hs : b.computeStep = some b') : b'.Valid := by
  obtain ⟨hprog, hpart⟩ := hv
  unfold Partner at hpart
  split at hpart
  · rename_i idx h ht
    obtain ⟨hlast, hconv, hb⟩ : (∃ l, b.taken = l ++ [(idx, h)]) ∧ b.Converted ∧ b.header = h := by
      simpa only [Progress, ht] using hprog
    obtain ⟨hh, hb', hterm, ht', htaken, hconv'⟩ := handed_computeStep hpart.1 hb hpart.2 hs
    rw [ht] at ht'
    refine ⟨?_, by simpa only [Partner, ht'] using ⟨hterm, hh⟩⟩
    simp only [Progress, ht', Converted, htaken, hconv']
    exact ⟨hlast, hconv, hb'⟩
  · rename_i ht
    obtain ⟨r, c, rfl, hc⟩ := leaving_computeStep hpart.1 hpart.2 hs
    exact ⟨hprog, by simpa only [Partner, ht] using ⟨hpart.1, hc⟩⟩
  · rename_i hwait hexit
    obtain ⟨r, c, rfl, hr⟩ := hpart.2.computeStep hpart.1 hs
    refine ⟨hprog, ?_⟩
    unfold Partner
    split
    · exact absurd ‹_› (hwait _ _)
    · exact absurd ‹_› hexit
    · exact ⟨hpart.1, hr⟩

theorem Valid.resting (hv : b.Valid) (ha : b.transfer.alone = true) :
    b.terminated = false ∧ b.Resting := by
  have hp := hv.partner
  unfold Partner at hp
  split at hp
  · rename_i ht
    rw [ht] at ha
    cases ha
  · rename_i ht
    rw [ht] at ha
    cases ha
  · exact hp

/-- The transfer warp moves on to a point where no list is handed over. -/
theorem valid_of_resting (hr : b.terminated = false ∧ b.Resting) (hterm : b'.terminated = b.terminated)
    (hc : b'.compute = b.compute) (hready : b'.listReady = b.listReady ∨ b'.listReady = false)
    (ha : b'.transfer.alone = true) (hp : b'.Progress) : b'.Valid := by
  refine ⟨hp, ?_⟩
  have hrest : b'.Resting := by
    have := hr.2
    unfold Resting at this ⊢
    rw [hc]
    split at this
    · exact hready.elim (fun h => h.trans this) id
    · exact hready.elim (fun h => h.trans this) id
    · trivial
    · exact this
  unfold Partner
  split
  · rename_i ht
    rw [ht] at ha
    cases ha
  · rename_i ht
    rw [ht] at ha
    cases ha
  · exact ⟨hterm.trans hr.1, hrest⟩

theorem valid_ready {idx : Nat} {h : Header} {n : Nat} (hv : b.Valid)
    (ht : b.transfer = .ready idx h) :
    ({ b with listReady := true, listsProcessed := n, transfer := .waitDone idx h } : Block).Valid := by
  obtain ⟨hterm, hrest⟩ := hv.resting (by rw [ht]; rfl)
  obtain ⟨hpend, hconv, hb, hd⟩ :
      b.Pending idx h ∧ b.Converted ∧ b.header = h ∧ b.computeDone = false := by
    simpa only [Progress, ht] using hv.progress
  refine ⟨⟨hpend.imp fun _ h => h.1, hconv, hb⟩, hterm, ?_⟩
  unfold Resting at hrest
  unfold Handed
  split at hrest <;> rename_i hc
  · rw [hc]
    exact .inl ⟨hd, hpend⟩
  · rw [hc]
    exact .inl ⟨hd, hpend⟩
  · rw [hc]
    exact .inl ⟨hd, hpend⟩
  · exact hrest.elim

theorem valid_waitDone {idx : Nat} {h : Header} (hv : b.Valid) (ht : b.transfer = .waitDone idx h)
    (hd : b.computeDone = true) : ({ b with transfer := .claim } : Block).Valid := by
  obtain ⟨hterm, hh⟩ : b.terminated = false ∧ b.Handed idx h := by
    simpa only [Partner, ht] using hv.partner
  obtain ⟨-, hconv, -⟩ : (∃ l, b.taken = l ++ [(idx, h)]) ∧ b.Converted ∧ b.header = h := by
    simpa only [Progress, ht] using hv.progress
  have hall : b.Settled ∧ b.Resting := by
    unfold Handed at hh
    unfold Resting
    split at hh <;> rename_i hc <;> simp only [hc, hd, false_and, false_or, true_and,
      Bool.true_eq_false] at hh ⊢
    · exact ⟨hh.2, hh.1⟩
    · exact ⟨hh.2, hh.1⟩
    · exact ⟨hh, trivial⟩
  exact ⟨⟨hall.1, hconv⟩, hterm, hall.2⟩

theorem valid_transferStep (hv : b.Valid) {v : Nat} (hs : b.transferStep fine v = some b') :
    b'.Valid := by
  have hprog := hv.progress
  unfold Progress at hprog
  unfold transferStep at hs
  split at hs <;> rename_i ht <;> rw [ht] at hprog <;> dsimp only at hprog
  case h_20 => -- waiting for `compute_done`
    split at hs <;> cases hs
    exact valid_waitDone hv ht ‹_›
  case h_21 => cases hs
  all_goals have hr := hv.resting (by rw [ht]; rfl)
  case h_4 => -- `terminated` is set
    cases hs
    exact ⟨hprog, rfl, .inr (.inr hr.2)⟩
  case h_6 => -- the header is loaded, the list is taken
    cases hs
    refine valid_of_resting hr rfl rfl (.inl rfl) rfl ⟨⟨_, rfl, hprog.1⟩, ?_, fun f hf => ?_⟩
    · unfold Converting
      rw [show b.converted = b.taken.map Prod.fst from hprog.2, List.map_append]
      rfl
    · cases f <;> simp at hf
  case h_7 =>
    cases hs
    exact valid_of_resting hr rfl rfl (.inl rfl) rfl ⟨hprog.1, hprog.2.1, not_mem_update hprog.2.2⟩
  case h_8 =>
    cases hs
    exact valid_of_resting hr rfl rfl (.inl rfl) rfl
      ⟨hprog.1, hprog.2.1, eq_of_all_loaded hprog.2.2⟩
  case h_9 =>
    cases hs
    exact valid_of_resting hr rfl rfl (.inr rfl) rfl hprog
  case h_10 =>
    cases hs
    exact valid_of_resting hr rfl rfl (.inl rfl) rfl ⟨hprog.1, hprog.2.1, hprog.2.2, rfl⟩
  case h_14 => -- all descriptors are committed
    split at hs <;> cases hs
    exact valid_of_resting hr rfl rfl (.inl rfl) rfl ⟨hprog.1, hprog.2.1.symm, hprog.2.2⟩
  case h_19 =>
    cases hs
    exact valid_ready hv ht
  case h_1 | h_5 | h_11 | h_15 =>
    cases hs
    exact valid_of_resting hr rfl rfl (.inl rfl) rfl hprog
  case h_2 | h_3 | h_12 | h_13 | h_16 | h_17 | h_18 =>
    split at hs <;> cases hs
    all_goals exact valid_of_resting hr rfl rfl (.inl rfl) rfl hprog

theorem valid_step (hv : b.Valid) {x : Move × Nat} (hs : b.step fine x = some b') : b'.Valid := by
  obtain ⟨m, v⟩ := x
  cases m with
  | transfer => exact valid_transferStep hv hs
  | compute => exact valid_computeStep hv hs
  | convert i f =>
    simp only [step] at hs
    split at hs
    · rename_i ht
      split at hs <;> cases hs
      have hprog := hv.progress
      unfold Progress at hprog
      rw [ht] at hprog
      exact valid_of_resting (hv.resting (by rw [ht]; rfl)) rfl rfl (.inl rfl) rfl hprog
    · cases hs
  | commit i =>
    simp only [step] at hs
    split at hs
    · rename_i ht
      split at hs <;> cases hs
      have hprog := hv.progress
      unfold Progress at hprog
      rw [ht] at hprog
      exact valid_of_resting (hv.resting (by rw [ht]; rfl)) rfl rfl (.inl rfl) rfl hprog
    · cases hs

/-! ## The list at hand -/

theorem returned_computeStep (hs : b.computeStep = some b') (hr : b.returned = true) :
    b'.returned = true := by
  unfold computeStep at hs
  unfold returned at hr
  split at hs <;> rename_i hc <;> simp only [hc] at hr
  case h_1 | h_2 | h_3 =>
    split at hs <;> cases hs
    all_goals exact hr
  case h_6 | h_7 => cases hs; rfl
  case h_9 => cases hs
  all_goals cases hs; exact hr

theorem serving_computeStep (hs : b.computeStep = some b') :
    b'.serving = b.serving ∨ b'.serving = none := by
  obtain ⟨ht, -, -⟩ := computeStep_transfer hs
  unfold serving
  rw [ht]
  split <;> try exact .inl rfl
  by_cases hr : b.returned = true
  · rw [if_pos (returned_computeStep hs hr), if_pos hr]
    exact .inl rfl
  · rw [if_neg hr]
    split
    · exact .inr rfl
    · exact .inl rfl

/-- The list at hand changes when the transfer warp takes another. -/
theorem serving_transferStep {v : Nat} (hs : b.transferStep fine v = some b') :
    b'.taken = b.taken ∧ (b'.serving = b.serving ∨ b'.serving = none) ∨
      ∃ idx h, b.transfer = .load idx [] h ∧ b'.taken = b.taken ++ [(idx, h)] ∧
        b'.serving = some idx := by
  unfold transferStep at hs
  split at hs <;> rename_i ht
  case h_6 idx h =>
    cases hs
    exact .inr ⟨idx, h, ht, rfl, rfl⟩
  case h_19 =>
    cases hs
    refine .inl ⟨rfl, ?_⟩
    simp only [serving, ht]
    split
    · exact .inr rfl
    · exact .inl rfl
  case h_21 => cases hs
  case h_2 | h_3 | h_12 | h_13 | h_14 | h_16 | h_17 | h_18 | h_20 =>
    split at hs <;> cases hs <;> exact .inl ⟨rfl, by simp only [serving, ht, true_or, or_true]⟩
  all_goals
    cases hs
    exact .inl ⟨rfl, by simp only [serving, ht, true_or, or_true]⟩

theorem serving_step {x : Move × Nat} (hs : b.step fine x = some b') :
    b'.taken = b.taken ∧ (b'.serving = b.serving ∨ b'.serving = none) ∨
      ∃ idx h, b.transfer = .load idx [] h ∧ b'.taken = b.taken ++ [(idx, h)] ∧
        b'.serving = some idx := by
  obtain ⟨m, v⟩ := x
  cases m with
  | transfer => exact serving_transferStep hs
  | compute => exact .inl ⟨(computeStep_transfer hs).2.1, serving_computeStep hs⟩
  | convert i f =>
    simp only [step] at hs
    split at hs
    · split at hs <;> cases hs
      exact .inl ⟨rfl, by simp only [serving, *, true_or]⟩
    · cases hs
  | commit i =>
    simp only [step] at hs
    split at hs
    · split at hs <;> cases hs
      exact .inl ⟨rfl, by simp only [serving, *, true_or]⟩
    · cases hs

/-- A call is for the list at hand. -/
theorem Valid.call (hv : b.Valid) {v : Header} (hc : b.compute = .call v) :
    ∃ idx l, b.transfer = .waitDone idx v ∧ b.serving = some idx ∧ b.taken = l ++ [(idx, v)] := by
  have hpart := hv.partner
  have hprog := hv.progress
  unfold Partner at hpart
  split at hpart <;> rename_i ht
  · rename_i idx h
    simp only [Handed, hc] at hpart
    obtain ⟨-, hd, -, rfl⟩ := hpart
    simp only [Progress, ht] at hprog
    obtain ⟨l, hl⟩ := hprog.1
    refine ⟨idx, l, ht, ?_, hl⟩
    simp only [serving, ht, returned, hc, hd, Bool.false_eq_true, if_false]
  · simp [hc, Resting] at hpart
  · simp [hc, Resting] at hpart

theorem valid_of_reachable (h : ReachableFrom (step fine) init b) : b.Valid :=
  h.invariant (by rintro _ rfl; exact valid_init) fun _ _ _ hv _ hs => valid_step hv hs

/-! ## When no wake-up is lost -/

/-- The compute warp can see that a list has been handed over. -/
def Awake (b : Block) : Prop :=
  ∀ idx h, b.transfer = .waitDone idx h → b.computeDone = false →
    b.compute ≠ .clear ∧ (b.compute = .spin ∨ b.compute = .spinTerminated → b.listReady = true)

theorem awake_computeStep (ha : b.Awake) (hs : b.computeStep = some b') :
    b'.Awake := by
  intro idx h ht hd
  unfold computeStep at hs
  split at hs <;> rename_i hc
  · split at hs <;> cases hs
    · exact ⟨nofun, nofun⟩
    · rename_i hr
      exact absurd ((ha idx h ht hd).2 (.inl hc)) hr
  · split at hs <;> cases hs
    · exact ⟨nofun, nofun⟩
    · exact ⟨nofun, fun _ => (ha idx h ht hd).2 (.inr hc)⟩
  · split at hs <;> cases hs <;> exact ⟨nofun, nofun⟩
  · cases hs
    exact ⟨nofun, nofun⟩
  · cases hs
    exact ⟨nofun, nofun⟩
  · cases hs
    exact ⟨nofun, nofun⟩
  · cases hs
    cases hd
  · cases hs
    exact absurd hc (ha idx h ht hd).1
  · cases hs

theorem awake_of_transfer (h : ∀ idx h, b.transfer ≠ .waitDone idx h) : b.Awake :=
  fun idx h' ht => absurd ht (h idx h')

theorem awake_init : init.Awake :=
  awake_of_transfer nofun

theorem awake_transferStep {v : Nat} (ho : b.Orderly (.transfer, v))
    (hs : b.transferStep fine v = some b') : b'.Awake := by
  unfold transferStep at hs
  split at hs <;> rename_i ht
  case h_19 =>
    cases hs
    intro idx h _ hd
    refine ⟨fun hc => ?_, fun _ => rfl⟩
    have hc' : b.compute = .clear := hc
    simp only [Orderly, ht, hc'] at ho
  case h_21 => cases hs
  case h_1 | h_4 | h_5 | h_6 | h_7 | h_8 | h_9 | h_10 | h_11 | h_15 =>
    cases hs
    exact awake_of_transfer nofun
  all_goals
    split at hs <;> cases hs
    all_goals exact awake_of_transfer nofun

theorem awake_step (ha : b.Awake) {x : Move × Nat} (ho : b.Orderly x)
    (hs : b.step fine x = some b') : b'.Awake := by
  obtain ⟨m, v⟩ := x
  cases m with
  | transfer => exact awake_transferStep ho hs
  | compute => exact awake_computeStep ha hs
  | convert i f =>
    simp only [step] at hs
    split at hs
    · split at hs <;> cases hs
      exact awake_of_transfer nofun
    · cases hs
  | commit i =>
    simp only [step] at hs
    split at hs
    · split at hs <;> cases hs
      exact awake_of_transfer nofun
    · cases hs

theorem awake_of_reachable (h : Reachable (step fine) Orderly (· = init) b) : b.Valid ∧ b.Awake :=
  h.invariant (I := fun b => b.Valid ∧ b.Awake)
    (by rintro _ rfl; exact ⟨valid_init, awake_init⟩)
    fun _ _ _ hv ho hs => ⟨valid_step hv.1 hs, awake_step hv.2 ho hs⟩

/-! ## What the handshake is for -/

/-- The transfer warp waits for `compute_done`, the compute warp for
`list_ready`, and neither flag is set. -/
def Waiting (b : Block) : Prop :=
  (∃ idx h, b.transfer = .waitDone idx h) ∧ b.computeDone = false ∧
    (b.compute = .spin ∨ b.compute = .spinTerminated) ∧ b.listReady = false

/-- `compute_fn` is called exactly once for each list taken, in order and with
the list's own header, and the two warps never wait for each other. -/
structure Served (b : Block) : Prop where
  calls : b.calls <+: b.taken.map Prod.snd
  /-- At most the list at hand is still to be called for. -/
  behind : b.taken.length ≤ b.calls.length + 1
  /-- When the transfer warp turns to the next index, or leaves, none is. -/
  settled : b.transfer = .claim ∨ b.transfer = .exited → b.calls = b.taken.map Prod.snd
  notWaiting : ¬ b.Waiting

theorem Settled.behind (h : b.Settled) :
    b.calls <+: b.taken.map Prod.snd ∧ b.taken.length ≤ b.calls.length + 1 := by
  unfold Settled at h
  rw [h, List.length_map]
  exact ⟨List.prefix_rfl, Nat.le_succ _⟩

theorem Pending.behind {idx : Nat} {h : Header} (hp : b.Pending idx h) :
    b.calls <+: b.taken.map Prod.snd ∧ b.taken.length ≤ b.calls.length + 1 := by
  obtain ⟨l, hl, hc⟩ := hp
  rw [hl, hc]
  exact ⟨by rw [List.map_append]; exact List.prefix_append .., by simp⟩

theorem Handed.behind {idx : Nat} {h : Header} (hh : b.Handed idx h) :
    b.calls <+: b.taken.map Prod.snd ∧ b.taken.length ≤ b.calls.length + 1 := by
  unfold Handed at hh
  split at hh
  · exact hh.elim (fun h => h.2.behind) fun h => h.2.2.behind
  · exact hh.elim (fun h => h.2.behind) fun h => h.2.2.behind
  · exact hh.2.behind
  · exact hh.2.1.behind
  · exact hh.2.1.behind
  · exact hh.2.behind
  · exact hh.elim (fun h => h.2.behind) fun h => h.2.behind
  · exact hh.elim

theorem Valid.behind (hv : b.Valid) :
    b.calls <+: b.taken.map Prod.snd ∧ b.taken.length ≤ b.calls.length + 1 := by
  have hprog := hv.progress
  have hpart := hv.partner
  unfold Progress at hprog
  unfold Partner at hpart
  split at hprog <;> rename_i ht
  case h_7 | h_8 | h_9 | h_10 | h_11 | h_12 | h_13 | h_14 | h_15 | h_16 | h_17 | h_18 =>
    exact hprog.1.behind
  case h_19 =>
    rw [ht] at hpart
    exact hpart.2.behind
  all_goals exact hprog.1.behind

theorem Valid.served (hv : b.Valid) (ha : b.Awake) : b.Served where
  calls := hv.behind.1
  behind := hv.behind.2
  settled h := by
    have hprog := hv.progress
    unfold Progress at hprog
    rcases h with h | h <;> rw [h] at hprog <;> exact hprog.1
  notWaiting h := by
    obtain ⟨⟨idx, hd, ht⟩, hdone, hc, hready⟩ := h
    exact absurd (hready.symm.trans ((ha idx hd ht hdone).2 hc)) (by decide)

/-- **The handshake loses no wake-up** in the runs in which `list_ready` is never
set before the compute warp has cleared it. -/
theorem served_of_reachable (h : Reachable (step fine) Orderly (· = init) b) : b.Served :=
  (awake_of_reachable h).1.served (awake_of_reachable h).2

section Example

/-- The transfer warp performs the accesses that return `vs`. -/
private def transfers (vs : List Nat) : List (Move × Nat) := vs.map fun v => (.transfer, v)

private def computes (n : Nat) : List (Move × Nat) := List.replicate n (.compute, 0)

/-- From the claim of `idx`, a list of one entry, to the point where its copies
have completed. -/
private def processed (idx : Nat) : List (Move × Nat) :=
  transfers [idx, idx + 1, idx, 1, idx, 0, 0, 0, 0, 0, 0, 0, 0, 0, idx, idx] ++
    [(Move.convert 0 .srcAddr, 0), (.convert 0 .dstAddr, 0), (.convert 0 .size, 0), (.transfer, 0),
      (.commit 0, 0), (.transfer, 0), (.transfer, 0), (.transfer, idx), (.transfer, idx),
      (.transfer, 1)]

/-- Two lists; the compute warp clears `list_ready` for the first only after the
transfer warp has set it for the second. -/
def delayed : List (Move × Nat) :=
  processed 0 ++ transfers [0] ++ computes 9 ++ transfers [0] ++ processed 1 ++ transfers [0] ++
    computes 1

/-- The same, but the clear is performed at once. -/
def prompt : List (Move × Nat) :=
  processed 0 ++ transfers [0] ++ computes 10 ++ transfers [0] ++ processed 1 ++ transfers [0] ++
    computes 9 ++ transfers [0]

/-- Where a block's warps are, and what it has done. -/
def summary (b : Block) : Bool × Bool × Bool × Nat × Nat :=
  (match b.transfer with | .waitDone .. => true | _ => false,
    match b.compute with | .spin => true | _ => false,
    b.computeDone || b.listReady, b.taken.length, b.calls.length)

/-- A wake-up is lost: the flag of the second list is cleared, and both warps wait. -/
theorem exists_waiting : ∃ b, ReachableFrom (step true) init b ∧ b.Waiting ∧
    b.taken.length = 2 ∧ b.calls.length = 1 := by
  have h : (run (step true) init delayed).map summary = some (true, true, false, 2, 1) := by decide
  obtain ⟨b, hb, hsum⟩ := Option.map_eq_some_iff.mp h
  simp only [summary, Prod.mk.injEq, Bool.or_eq_false_iff] at hsum
  obtain ⟨h1, h2, ⟨h3, h4⟩, h5, h6⟩ := hsum
  refine ⟨b, (Reachable.self _).run_always hb, ⟨?_, h3, .inl ?_, h4⟩, h5, h6⟩
  · split at h1
    · exact ⟨_, _, ‹_›⟩
    · cases h1
  · split at h2
    · assumption
    · cases h2

/-- Two lists in a run that meets the condition, and what the theorem says of it. -/
theorem served_of_reachable_two : ∃ b : Block, b.taken.length = 2 ∧ b.calls.length = 2 ∧
    b.Served := by
  have h : (runWhile (step true) Orderly init prompt).map summary =
      some (false, false, true, 2, 2) := by decide
  obtain ⟨b, hb, hsum⟩ := Option.map_eq_some_iff.mp h
  simp only [summary, Prod.mk.injEq] at hsum
  exact ⟨b, hsum.2.2.2.1, hsum.2.2.2.2, served_of_reachable ((Reachable.self _).runWhile hb)⟩

end Example

end Block
end Gfd.Sg
