import GfdProof.DirectSubmit

/-! # What `parallel_gather` leaves in the staging buffer

`GatherHandshake` numbers the entries of a call and counts who copies which.  Here
the same code runs over memory: `streaming_memcpy_g` stores 64 bytes at a time,
the ranges are the `int`s the code computes, and a task holds the entries, the
staging buffer and `min_dst` of the call that wrote it.

As long as `count + workers` is an `int`, the ranges are those of `GatherHandshake`
(`start_eq`, `stop_eq`), and each step is a step of its machine (`sim_step`).  From
there on it is known that a call that returns has copied each of its entries, and
that nobody copies an entry of another call.  Beyond that bound the sum wraps, the
chunk is negative, and the call returns without having copied anything.
-/
namespace Gfd.ParallelGather

open Transition
open CopyEngineManager (int32 int32_of_lt)
open Direct (userByte)

/-! ## `streaming_memcpy_g` -/

/-- `memcpy(mem + dst, src, size)` -/
def memcpy (src mem : Nat → UInt8) (dst size : Nat) : Nat → UInt8 :=
  fun a => if dst ≤ a ∧ a < dst + size then src (a - dst) else mem a

/-- The values `i` takes in the loop of `streaming_memcpy_g`. -/
def blocks (size : Nat) : List Nat := (List.range (size / 64)).map (64 * ·)

/-- `streaming_memcpy_g(mem + dst, src, size)`, with AVX-512. -/
def streamingMemcpy (src mem : Nat → UInt8) (dst size : Nat) : Nat → UInt8 :=
  let aligned := size / 64 * 64
  let streamed := (blocks size).foldl (fun m i => memcpy (fun k => src (i + k)) m (dst + i) 64) mem
  if aligned < size then
    memcpy (fun k => src (aligned + k)) streamed (dst + aligned) (size - aligned)
  else streamed

section Memcpy
variable {src mem : Nat → UInt8} {dst size : Nat}

theorem memcpy_zero : memcpy src mem dst 0 = mem := by
  funext a
  exact if_neg (by omega)

/-- A range is copied by copying its two parts. -/
theorem memcpy_add (m n : Nat) :
    memcpy (fun k => src (m + k)) (memcpy src mem dst m) (dst + m) n = memcpy src mem dst (m + n) := by
  funext a
  unfold memcpy
  by_cases hm : dst + m ≤ a ∧ a < dst + m + n
  · rw [if_pos hm, if_pos (by omega)]
    exact congrArg src (by omega)
  · rw [if_neg hm]
    by_cases ha : dst ≤ a ∧ a < dst + m
    · rw [if_pos ha, if_pos (by omega)]
    · rw [if_neg ha, if_neg (by omega)]

theorem foldl_blocks (n : Nat) :
    ((List.range n).map (64 * ·)).foldl
      (fun m i => memcpy (fun k => src (i + k)) m (dst + i) 64) mem = memcpy src mem dst (64 * n) := by
  induction n with
  | zero => exact memcpy_zero.symm
  | succ n ih =>
    rw [List.range_succ, List.map_append, List.foldl_append, ih]
    exact memcpy_add (64 * n) 64

/-- The streaming stores and the tail together are a `memcpy`. -/
theorem streamingMemcpy_eq : streamingMemcpy src mem dst size = memcpy src mem dst size := by
  unfold streamingMemcpy blocks
  dsimp only
  rw [foldl_blocks, Nat.mul_comm 64]
  split
  · rw [memcpy_add]
    congr 1
    omega
  · congr 1
    omega

end Memcpy

/-! ## The ranges of a call -/

/-- `MAX_GATHER_WORKERS` -/
def maxGatherWorkers : Nat := 15

/-- `chunk` -/
def chunk (workers count : Nat) : Int :=
  (int32 ((count : Int) + (workers + 1) - 1)).tdiv (workers + 1)

/-- `start` of worker `w`. -/
def start (workers count w : Nat) : Int := int32 ((w + 1) * chunk workers count)

/-- `end` of worker `w`. -/
def stop (workers count w : Nat) : Int :=
  min (int32 (start workers count w + chunk workers count)) count

/-- `main_end` -/
def mainEnd (workers count : Nat) : Int := min (chunk workers count) count

/-- Index `i` is given to the main thread (`none`) or to a worker. -/
def InRange (workers count : Nat) : Option Nat → Int → Prop
  | none, i => 0 ≤ i ∧ i < mainEnd workers count
  | some w, i => w < workers ∧ start workers count w < count ∧
      start workers count w ≤ i ∧ i < stop workers count w

/-- `entries[i]` -/
def entryAt (entries : List SGEntry) (i : Int) : Option SGEntry :=
  if 0 ≤ i then entries[i.toNat]? else none

/-- The ranges are disjoint and cover the indices below `count`. -/
structure Partition (workers count : Nat) : Prop where
  cover : ∀ i : Int, 0 ≤ i ∧ i < count ↔ ∃ o, InRange workers count o i
  disjoint : ∀ o o' i, InRange workers count o i → InRange workers count o' i → o = o'

section Ranges
variable {workers count w : Nat}

theorem chunk_mul_le (workers count : Nat) :
    (workers + 1) * Gather.chunk workers count ≤ count + workers :=
  Nat.mul_div_le _ _

theorem succ_mul_chunk_le (count : Nat) {k : Nat} (hk : k ≤ workers + 1) :
    k * Gather.chunk workers count ≤ count + workers :=
  (Nat.mul_le_mul_right _ hk).trans (chunk_mul_le workers count)

theorem chunk_eq (h : count + workers < 2 ^ 31) :
    chunk workers count = Gather.chunk workers count := by
  have hcast : (count : Int) + (workers + 1) - 1 = ((count + workers : Nat) : Int) := by omega
  unfold chunk Gather.chunk
  rw [hcast, int32_of_lt h]
  exact (Int.tdiv_eq_ediv_of_nonneg (Int.natCast_nonneg _)).trans (Int.natCast_ediv ..).symm

theorem start_eq (h : count + workers < 2 ^ 31) (hw : w < workers) :
    start workers count w = Gather.start workers count w := by
  have hlt := succ_mul_chunk_le count (show w + 1 ≤ workers + 1 by omega)
  unfold start Gather.start
  rw [chunk_eq h, show ((w : Int) + 1) * Gather.chunk workers count =
    (((w + 1) * Gather.chunk workers count : Nat) : Int) by push_cast; rfl, int32_of_lt (by omega)]

theorem stop_eq (h : count + workers < 2 ^ 31) (hw : w < workers) :
    stop workers count w = Gather.stop workers count w := by
  have hlt := succ_mul_chunk_le count (show w + 1 + 1 ≤ workers + 1 by omega)
  rw [Nat.add_mul, Nat.one_mul] at hlt
  unfold stop Gather.stop
  have hlt' : Gather.start workers count w + Gather.chunk workers count < 2 ^ 31 := by
    unfold Gather.start
    omega
  rw [start_eq h hw, chunk_eq h, ← Int.natCast_add, int32_of_lt hlt']
  omega

theorem mainEnd_eq (h : count + workers < 2 ^ 31) :
    mainEnd workers count = Gather.mainEnd workers count := by
  unfold mainEnd Gather.mainEnd
  rw [chunk_eq h]
  omega

/-- The number of a part of the index range, in order. -/
def part : Option Nat → Nat
  | none => 0
  | some w => w + 1

theorem part_injective {o o' : Option Nat} (h : part o = part o') : o = o' := by
  cases o <;> cases o' <;> simp_all [part]

/-- Who an index is given to is its index divided by the chunk. -/
theorem inRange_iff (h : count + workers < 2 ^ 31) {o : Option Nat} {i : Int} :
    InRange workers count o i ↔
      0 ≤ i ∧ i < count ∧ i.toNat / Gather.chunk workers count = part o := by
  cases o with
  | none =>
    simp only [InRange]
    rw [mainEnd_eq h]
    constructor
    · intro ⟨h0, hlt⟩
      have hi : i.toNat < Gather.mainEnd workers count := by omega
      have hcount : i.toNat < count := Nat.lt_of_lt_of_le hi (Nat.min_le_right _ _)
      exact ⟨h0, by omega, (Gather.div_chunk_eq_zero hcount).mpr hi⟩
    · intro ⟨h0, hlt, hq⟩
      have hi := (Gather.div_chunk_eq_zero (by omega)).mp hq
      exact ⟨h0, by omega⟩
  | some w =>
    simp only [InRange]
    constructor
    · rintro ⟨hw, -, hge, hlt⟩
      rw [start_eq h hw] at hge
      rw [stop_eq h hw] at hlt
      have hi : i.toNat < Gather.stop workers count w := by omega
      have hcount : i.toNat < count := Nat.lt_of_lt_of_le hi (Nat.min_le_right _ _)
      exact ⟨by omega, by omega, (Gather.div_chunk_eq_succ hcount).mpr ⟨by omega, hi⟩⟩
    · intro ⟨h0, hlt, hq⟩
      have hcount : i.toNat < count := by omega
      obtain ⟨hge, hi⟩ := (Gather.div_chunk_eq_succ hcount).mp hq
      have hle : i.toNat / Gather.chunk workers count ≤ workers := Gather.div_chunk_le hcount
      have hw : w < workers := by
        rw [hq] at hle
        exact hle
      rw [start_eq h hw, stop_eq h hw]
      exact ⟨hw, by omega, by omega, by omega⟩

theorem partition_of_lt (h : count + workers < 2 ^ 31) : Partition workers count where
  cover i := by
    constructor
    · intro ⟨h0, hlt⟩
      cases hq : i.toNat / Gather.chunk workers count with
      | zero => exact ⟨none, (inRange_iff h).mpr ⟨h0, hlt, hq⟩⟩
      | succ w => exact ⟨some w, (inRange_iff h).mpr ⟨h0, hlt, hq⟩⟩
    · rintro ⟨o, ho⟩
      obtain ⟨h0, hlt, -⟩ := (inRange_iff h).mp ho
      exact ⟨h0, hlt⟩
  disjoint o o' i ho ho' := by
    obtain ⟨-, -, hq⟩ := (inRange_iff h).mp ho
    obtain ⟨-, -, hq'⟩ := (inRange_iff h).mp ho'
    exact part_injective (hq.symm.trans hq')

theorem int32_of_ge {x : Int} (h : 2 ^ 31 ≤ x) (hx : x < 2 ^ 32) : int32 x = x - 2 ^ 32 := by
  unfold int32
  rw [Int.bmod_def]
  split <;> omega

theorem int32_neg {x : Nat} (h : x ≤ 2 ^ 31) : int32 (-x) = -x := by
  unfold int32
  rw [Int.bmod_def]
  split <;> omega

/-- When the sum is no `int`, nobody is given an index. -/
theorem not_inRange_of_le (hworkers : workers ≤ maxGatherWorkers) (hcount : count < 2 ^ 31)
    (h : 2 ^ 31 ≤ count + workers) (o : Option Nat) (i : Int) : ¬ InRange workers count o i := by
  unfold maxGatherWorkers at hworkers
  have hsum : int32 ((count : Int) + (workers + 1) - 1) = -((2 ^ 32 - (count + workers) : Nat) : Int) := by
    rw [int32_of_ge (by omega) (by omega)]
    omega
  -- the chunk is the negative of `q`
  obtain ⟨q, hq⟩ : ∃ q, q = (2 ^ 32 - (count + workers)) / (workers + 1) := ⟨_, rfl⟩
  have hchunk : chunk workers count = -(q : Int) := by
    unfold chunk
    rw [hsum, Int.neg_tdiv, hq]
    exact congrArg Neg.neg
      ((Int.tdiv_eq_ediv_of_nonneg (Int.natCast_nonneg _)).trans (Int.natCast_ediv ..).symm)
  have hle : (workers + 1) * q ≤ 2 ^ 31 := by
    rw [hq]
    exact (Nat.mul_div_le _ _).trans (by omega)
  have hpos : 0 < q := hq ▸ Nat.div_pos (by omega) (by omega)
  cases o with
  | none =>
    rintro ⟨h0, hlt⟩
    unfold mainEnd at hlt
    omega
  | some w =>
    rintro ⟨hw, -, hge, hlt⟩
    have hle1 : (w + 1) * q ≤ 2 ^ 31 := (Nat.mul_le_mul_right q (by omega)).trans hle
    have hle2 : (w + 1 + 1) * q ≤ 2 ^ 31 := (Nat.mul_le_mul_right q (by omega)).trans hle
    have hstart : start workers count w = -(((w + 1) * q : Nat) : Int) := by
      unfold start
      rw [hchunk, Int.mul_neg, ← int32_neg hle1]
      push_cast
      rfl
    unfold stop at hlt
    rw [hstart, hchunk] at hlt
    rw [hstart] at hge
    have hsucc : -(((w + 1) * q : Nat) : Int) + -(q : Int) = -(((w + 1 + 1) * q : Nat) : Int) := by
      rw [Nat.add_mul (w + 1) 1 q, Nat.one_mul]
      omega
    rw [hsucc, int32_neg hle2, Nat.add_mul (w + 1) 1 q] at hlt
    omega

end Ranges

/-! ## The workers and the main thread -/

/-- The arguments of a call: entries with disjoint destinations, none below `min_dst`, that read
the user's memory. -/
structure Call where
  entries : List SGEntry
  /-- The staging buffer. -/
  buf : Nat
  minDst : Nat
  length_lt : entries.length < 2 ^ 31
  source : ∀ e ∈ entries, ∃ a, e.src = .user a
  dst_lt : ∀ e ∈ entries, e.dst < wordSize
  minDst_le : ∀ e ∈ entries, minDst ≤ e.dst
  disjoint : entries.Pairwise fun e e' =>
    ∀ a, e.dst ≤ a ∧ a < e.dst + e.size → ¬ (e'.dst ≤ a ∧ a < e'.dst + e'.size)

/-- `gather_tasks_[w]`; `call` stands for the entries, the staging buffer and `min_dst`. -/
structure GatherTask where
  call : Option Call
  start : Int
  stop : Int

/-- Where a worker is. -/
inductive Worker
  /-- About to load `has_work`. -/
  | poll
  | copy (i : Int)
  /-- About to store `done = true`. -/
  | setDone
  /-- About to store `has_work = false`. -/
  | clearWork
  deriving DecidableEq, Repr

/-- Where the main thread is. -/
inductive Dispatcher
  /-- Between two calls. -/
  | idle
  | assign (w : Nat)
  /-- About to store `done = false`. -/
  | clearDone (w : Nat)
  /-- About to store `has_work = true`. -/
  | setWork (w : Nat)
  | gather (i : Int)
  | wait (w : Nat)
  deriving DecidableEq, Repr

/-- `calls` are the calls made so far, and `before` is what the staging buffers held when the last
of them was made. -/
structure State where
  calls : List Call
  dispatcher : Dispatcher
  task : Nat → GatherTask
  hasWork : Nat → Bool
  done : Nat → Bool
  worker : Nat → Worker
  user : Nat → UInt8
  staging : Nat → Nat → UInt8
  before : Nat → Nat → UInt8

def init : State where
  calls := []
  dispatcher := .idle
  task _ := ⟨none, 0, 0⟩
  hasWork _ := false
  done _ := false
  worker _ := .poll
  user _ := 0
  staging _ _ := 0
  before _ _ := 0

/-- `streaming_memcpy_g(staging + (e.dst - min_dst), e.src, e.size)` -/
def Call.stage (c : Call) (user : Nat → UInt8) (staging : Nat → Nat → UInt8) (e : SGEntry) :
    Nat → Nat → UInt8 :=
  Function.update staging c.buf
    (streamingMemcpy (fun k => userByte user (e.src.plus k)) (staging c.buf)
      (subWord e.dst c.minDst) e.size)

namespace State

/-- The call being made. -/
def current (s : State) : Option Call := s.calls.getLast?

/-- The main thread's next step in call `c`. -/
def dispatch (workers : Nat) (s : State) (c : Call) : Option State :=
  let count := c.entries.length
  match s.dispatcher with
  | .idle => none
  | .assign w =>
    if w < workers then
      if start workers count w < count then
        some { s with
          task := Function.update s.task w
            ⟨some c, start workers count w, stop workers count w⟩
          dispatcher := .clearDone w }
      else some { s with dispatcher := .assign (w + 1) }
    else some { s with dispatcher := .gather 0 }
  | .clearDone w =>
    some { s with done := Function.update s.done w false, dispatcher := .setWork w }
  | .setWork w =>
    some { s with hasWork := Function.update s.hasWork w true, dispatcher := .assign (w + 1) }
  | .gather i =>
    if i < mainEnd workers count then
      (entryAt c.entries i).map fun e =>
        { s with staging := c.stage s.user s.staging e, dispatcher := .gather (i + 1) }
    else some { s with dispatcher := .wait 0 }
  | .wait w =>
    if w < workers then
      if start workers count w < count ∧ s.done w = false then none
      else some { s with dispatcher := .wait (w + 1) }
    else some { s with dispatcher := .idle }

def setWorker (s : State) (w : Nat) (x : Worker) : State :=
  { s with worker := Function.update s.worker w x }

/-- The next step of worker `w`; a worker without work does not move. -/
def work (s : State) (w : Nat) : Option State :=
  match s.worker w with
  | .poll => if s.hasWork w then some (s.setWorker w (.copy (s.task w).start)) else none
  | .copy i =>
    if i < (s.task w).stop then
      (s.task w).call.bind fun c => (entryAt c.entries i).map fun e =>
        { s.setWorker w (.copy (i + 1)) with staging := c.stage s.user s.staging e }
    else some (s.setWorker w .setDone)
  | .setDone =>
    some { s.setWorker w .clearWork with done := Function.update s.done w true }
  | .clearWork =>
    some { s.setWorker w .poll with hasWork := Function.update s.hasWork w false }

end State

inductive Act
  /-- `parallel_gather` is called, over the memory it finds. -/
  | call (c : Call) (user : Nat → UInt8) (staging : Nat → Nat → UInt8)
  | dispatch
  | work (w : Nat)

def step (workers : Nat) (s : State) : Act → Option State
  | .call c user staging =>
    match s.dispatcher with
    | .idle => some { s with
        calls := s.calls ++ [c]
        dispatcher := .assign 0
        user := user
        staging := staging
        before := staging }
    | _ => none
  | .dispatch => s.current.bind (s.dispatch workers)
  | .work w => if w < workers then s.work w else none

/-- A step that makes no call whose `count + workers` is no `int`. -/
def Fits (workers : Nat) : State → Act → Prop
  | _, .call c _ _ => c.entries.length + workers < 2 ^ 31
  | _, _ => True

/-- What `parallel_gather` promises about the call being made. -/
structure GatherExact (workers : Nat) (s : State) : Prop where
  ranges : ∀ c, s.current = some c → Partition workers c.entries.length
  /-- When it has returned, the bytes of every entry are in the staging buffer. -/
  returned : s.dispatcher = .idle → ∀ c, s.current = some c → ∀ e ∈ c.entries, ∀ k < e.size,
    s.staging c.buf (e.dst - c.minDst + k) = userByte s.user (e.src.plus k)
  /-- No other byte of a staging buffer has been written. -/
  kept : ∀ c, s.current = some c → ∀ b x,
    (∀ e ∈ c.entries, ¬ (b = c.buf ∧ e.dst - c.minDst ≤ x ∧ x < e.dst - c.minDst + e.size)) →
      s.staging b x = s.before b x

/-! ## The staging memory -/

/-- `after` is `before` with the entries in `p` copied. -/
structure Staged (c : Call) (p : Nat → Prop) (user : Nat → UInt8)
    (before after : Nat → Nat → UInt8) : Prop where
  copied : ∀ i e, p i → c.entries[i]? = some e → ∀ k < e.size,
    after c.buf (e.dst - c.minDst + k) = userByte user (e.src.plus k)
  kept : ∀ b x, (∀ i e, p i → c.entries[i]? = some e →
    ¬ (b = c.buf ∧ e.dst - c.minDst ≤ x ∧ x < e.dst - c.minDst + e.size)) → after b x = before b x

section Staging
variable {c : Call} {user : Nat → UInt8} {before mem : Nat → Nat → UInt8} {p q : Nat → Prop}
  {i : Nat} {e : SGEntry}

theorem staged_none (c : Call) (user : Nat → UInt8) (mem : Nat → Nat → UInt8)
    (hp : ∀ i, ¬ p i) : Staged c p user mem mem :=
  ⟨fun i _ h => absurd h (hp i), fun _ _ _ => rfl⟩

theorem Staged.congr (h : Staged c p user before mem) (hpq : ∀ i, p i ↔ q i) :
    Staged c q user before mem := by
  obtain rfl : p = q := funext fun i => propext (hpq i)
  exact h

theorem Call.stage_apply (he : e ∈ c.entries) (b x : Nat) :
    c.stage user mem e b x =
      if b = c.buf ∧ e.dst - c.minDst ≤ x ∧ x < e.dst - c.minDst + e.size then
        userByte user (e.src.plus (x - (e.dst - c.minDst)))
      else mem b x := by
  unfold Call.stage
  rw [streamingMemcpy_eq, subWord_of_le (c.dst_lt e he) (c.minDst_le e he)]
  by_cases hb : b = c.buf
  · subst hb
    rw [Function.update_self]
    unfold memcpy
    simp only [true_and]
  · rw [Function.update_of_ne hb, if_neg fun h => hb h.1]

/-- Two entries of a call have no byte of the staging buffer in common. -/
theorem Call.disjoint_at (c : Call) {i j : Nat} {e e' : SGEntry} (hi : c.entries[i]? = some e)
    (hj : c.entries[j]? = some e') (hij : i ≠ j) {x : Nat}
    (hx : e.dst - c.minDst ≤ x ∧ x < e.dst - c.minDst + e.size) :
    ¬ (e'.dst - c.minDst ≤ x ∧ x < e'.dst - c.minDst + e'.size) := by
  intro hx'
  have hle := c.minDst_le e (List.mem_of_getElem? hi)
  have hle' := c.minDst_le e' (List.mem_of_getElem? hj)
  obtain ⟨hi', rfl⟩ := List.getElem?_eq_some_iff.mp hi
  obtain ⟨hj', rfl⟩ := List.getElem?_eq_some_iff.mp hj
  have hd := List.pairwise_iff_getElem.mp c.disjoint
  rcases Nat.lt_or_gt_of_ne hij with hlt | hlt
  · exact hd i j hi' hj' hlt (x + c.minDst) (by omega) (by omega)
  · exact hd j i hj' hi' hlt (x + c.minDst) (by omega) (by omega)

/-- One more entry copied. -/
theorem Staged.stage (h : Staged c p user before mem) (he : c.entries[i]? = some e) :
    Staged c (fun j => p j ∨ j = i) user before (c.stage user mem e) where
  copied j e' hj he' k hk := by
    rw [Call.stage_apply (List.mem_of_getElem? he)]
    by_cases hji : j = i
    · subst hji
      obtain rfl : e = e' := Option.some.inj (he.symm.trans he')
      rw [if_pos ⟨rfl, by omega⟩]
      congr 2
      omega
    · have hx : e'.dst - c.minDst ≤ e'.dst - c.minDst + k ∧
          e'.dst - c.minDst + k < e'.dst - c.minDst + e'.size := by omega
      rw [if_neg fun hin => c.disjoint_at he' he hji hx hin.2]
      exact h.copied j e' (hj.resolve_right hji) he' k hk
  kept b x hx := by
    rw [Call.stage_apply (List.mem_of_getElem? he), if_neg (hx i e (.inr rfl) he)]
    exact h.kept b x fun j e' hj => hx j e' (.inl hj)

end Staging

/-! ## The machine of `GatherHandshake` -/

def Worker.ofNat : Gather.Worker → Worker
  | .poll => .poll
  | .copy i => .copy i
  | .setDone => .setDone
  | .clearWork => .clearWork

def Dispatcher.ofNat : Gather.Dispatcher → Dispatcher
  | .idle => .idle
  | .assign w => .assign w
  | .clearDone w => .clearDone w
  | .setWork w => .setWork w
  | .gather i => .gather i
  | .wait w => .wait w

/-- The two machines are at the same point. -/
structure Sim (s : State) (g : Gather.State) : Prop where
  counts : g.counts = s.calls.map (·.entries.length)
  dispatcher : s.dispatcher = .ofNat g.dispatcher
  hasWork : s.hasWork = g.hasWork
  done : s.done = g.done
  worker : ∀ w, s.worker w = .ofNat (g.worker w)
  start : ∀ w, (s.task w).start = (g.task w).start
  stop : ∀ w, (s.task w).stop = (g.task w).stop
  call : ∀ w c, (s.task w).call = some c → s.calls[(g.task w).call]? = some c

/-- The calls fit, and the staging buffers hold what has been copied in the call being made. -/
structure Mirrors (workers : Nat) (s : State) (g : Gather.State) : Prop extends Sim s g where
  fits : ∀ c ∈ s.calls, c.entries.length + workers < 2 ^ 31
  memory : ∀ c, s.current = some c →
    Staged c (fun i => (g.call, i) ∈ g.log) s.user s.before s.staging

section Simulation
variable {workers : Nat} {s t : State} {g : Gather.State} {c : Call}

theorem Sim.count (hs : Sim s g) (hc : s.current = some c) : g.count = c.entries.length := by
  unfold Gather.State.count
  rw [hs.counts, List.getLastD_eq_getLast?, List.getLast?_map]
  exact congrArg (fun o : Option Call => (o.map (·.entries.length)).getD 0) hc

theorem Sim.current_eq (hs : Sim s g) : s.calls[g.call]? = s.current := by
  unfold Gather.State.call
  rw [hs.counts, List.length_map, ← List.getLast?_eq_getElem?]
  rfl

theorem current_mem (hc : s.current = some c) : c ∈ s.calls := List.mem_of_getLast? hc

theorem sim_init : Sim init Gather.init where
  counts := rfl
  dispatcher := rfl
  hasWork := rfl
  done := rfl
  worker _ := rfl
  start _ := rfl
  stop _ := rfl
  call _ _ h := by cases h

/-- The main thread writes the task of worker `w`. -/
theorem Sim.assign (hs : Sim s g) {w : Nat} (hc : s.current = some c)
    (hcount : g.count = c.entries.length) {b : Int}
    (hb : b = Gather.stop workers c.entries.length w) :
    Sim
      { s with
        task := Function.update s.task w ⟨some c, Gather.start workers c.entries.length w, b⟩
        dispatcher := .clearDone w }
      { g with
        task := Function.update g.task w (g.taskOf workers w)
        dispatcher := .clearDone w } where
  counts := hs.counts
  dispatcher := rfl
  hasWork := hs.hasWork
  done := hs.done
  worker := hs.worker
  start v := by
    by_cases hvw : v = w
    · subst hvw
      simp only [Function.update_self, Gather.State.taskOf, hcount]
    · simp only [Function.update_of_ne hvw, hs.start]
  stop v := by
    by_cases hvw : v = w
    · subst hvw
      simp only [Function.update_self, Gather.State.taskOf, hcount, hb]
    · simp only [Function.update_of_ne hvw, hs.stop]
  call v c' h := by
    by_cases hvw : v = w
    · subst hvw
      simp only [Function.update_self, Option.some.injEq] at h ⊢
      exact hs.current_eq.trans (h ▸ hc)
    · simp only [Function.update_of_ne hvw] at h ⊢
      exact hs.call v c' h

/-- A step that copies nothing. -/
theorem Mirrors.move (hm : Mirrors workers s g) {g' : Gather.State} (hsim : Sim t g')
    (hcalls : t.calls = s.calls) (hstaging : t.staging = s.staging) (huser : t.user = s.user)
    (hbefore : t.before = s.before) (hcounts : g'.counts = g.counts) (hlog : g'.log = g.log) :
    Mirrors workers t g' where
  toSim := hsim
  fits := hcalls ▸ hm.fits
  memory c hc := by
    rw [Gather.State.call, hcounts, hlog, hstaging, huser, hbefore]
    exact hm.memory c (by rwa [State.current, ← hcalls])

/-- A step that copies entry `i` of the call being made. -/
theorem Mirrors.copied (hm : Mirrors workers s g) {g' : Gather.State} (hsim : Sim t g')
    (hcalls : t.calls = s.calls) (hc : s.current = some c) {i : Nat} {e : SGEntry}
    (he : c.entries[i]? = some e) (hstaging : t.staging = c.stage s.user s.staging e)
    (huser : t.user = s.user) (hbefore : t.before = s.before) (hcounts : g'.counts = g.counts)
    (hlog : g'.log = g.log ++ [(g.call, i)]) : Mirrors workers t g' where
  toSim := hsim
  fits := hcalls ▸ hm.fits
  memory c' hc' := by
    obtain rfl : c = c' := by
      rw [State.current, hcalls] at hc'
      exact Option.some.inj (hc.symm.trans hc')
    rw [Gather.State.call, hcounts, hlog, hstaging, huser, hbefore]
    refine ((hm.memory c hc).stage he).congr fun j => ?_
    simp [Gather.State.call]

theorem entryAt_natCast (entries : List SGEntry) (i : Nat) : entryAt entries i = entries[i]? :=
  if_pos (Int.natCast_nonneg i)

theorem sim_dispatch (hm : Mirrors workers s g) (hc : s.current = some c)
    (h : s.dispatch workers c = some t) :
    ∃ g', g.dispatch workers = some g' ∧ Mirrors workers t g' := by
  have hfit := hm.fits c (current_mem hc)
  have hcount := hm.toSim.count hc
  cases hd : g.dispatcher with
  | idle =>
    have hd' : s.dispatcher = .idle := by rw [hm.dispatcher, hd]; rfl
    simp only [State.dispatch, hd'] at h
    cases h
  | assign w =>
    have hd' : s.dispatcher = .assign w := by rw [hm.dispatcher, hd]; rfl
    simp only [State.dispatch, hd'] at h
    simp only [Gather.State.dispatch, hd, hcount]
    by_cases hw : w < workers
    · simp only [if_pos hw, start_eq hfit hw, Int.ofNat_lt] at h
      rw [if_pos hw]
      by_cases hb : Gather.start workers c.entries.length w < c.entries.length
      · rw [if_pos hb] at h ⊢
        cases h
        refine ⟨_, rfl, hm.move ?_ rfl rfl rfl rfl rfl rfl⟩
        exact hm.toSim.assign hc hcount (stop_eq hfit hw)
      · rw [if_neg hb] at h ⊢
        cases h
        exact ⟨_, rfl, hm.move { hm.toSim with dispatcher := rfl } rfl rfl rfl rfl rfl rfl⟩
    · rw [if_neg hw] at h ⊢
      cases h
      exact ⟨_, rfl, hm.move { hm.toSim with dispatcher := rfl } rfl rfl rfl rfl rfl rfl⟩
  | clearDone w =>
    have hd' : s.dispatcher = .clearDone w := by rw [hm.dispatcher, hd]; rfl
    simp only [State.dispatch, hd'] at h
    simp only [Gather.State.dispatch, hd]
    cases h
    refine ⟨_, rfl, hm.move ?_ rfl rfl rfl rfl rfl rfl⟩
    exact { hm.toSim with dispatcher := rfl, done := by rw [hm.done] }
  | setWork w =>
    have hd' : s.dispatcher = .setWork w := by rw [hm.dispatcher, hd]; rfl
    simp only [State.dispatch, hd'] at h
    simp only [Gather.State.dispatch, hd]
    cases h
    refine ⟨_, rfl, hm.move ?_ rfl rfl rfl rfl rfl rfl⟩
    exact { hm.toSim with dispatcher := rfl, hasWork := by rw [hm.hasWork] }
  | gather i =>
    have hd' : s.dispatcher = .gather i := by rw [hm.dispatcher, hd]; rfl
    simp only [State.dispatch, hd'] at h
    simp only [Gather.State.dispatch, hd, hcount]
    simp only [mainEnd_eq hfit, Int.ofNat_lt] at h
    by_cases hi : i < Gather.mainEnd workers c.entries.length
    · rw [if_pos hi, entryAt_natCast] at h
      obtain ⟨e, he, rfl⟩ := Option.map_eq_some_iff.mp h
      rw [if_pos hi]
      exact ⟨_, rfl, hm.copied { hm.toSim with dispatcher := rfl } rfl hc he rfl rfl rfl rfl rfl⟩
    · rw [if_neg hi] at h ⊢
      cases h
      exact ⟨_, rfl, hm.move { hm.toSim with dispatcher := rfl } rfl rfl rfl rfl rfl rfl⟩
  | wait w =>
    have hd' : s.dispatcher = .wait w := by rw [hm.dispatcher, hd]; rfl
    simp only [State.dispatch, hd'] at h
    simp only [Gather.State.dispatch, hd, hcount]
    by_cases hw : w < workers
    · simp only [if_pos hw, start_eq hfit hw, Int.ofNat_lt, congrFun hm.done w] at h
      rw [if_pos hw]
      split at h
      · cases h
      · rw [if_neg ‹_›]
        cases h
        exact ⟨_, rfl, hm.move { hm.toSim with dispatcher := rfl } rfl rfl rfl rfl rfl rfl⟩
    · rw [if_neg hw] at h ⊢
      cases h
      exact ⟨_, rfl, hm.move { hm.toSim with dispatcher := rfl } rfl rfl rfl rfl rfl rfl⟩

theorem Sim.setWorker (hs : Sim s g) (w : Nat) (x : Gather.Worker) :
    Sim (s.setWorker w (.ofNat x)) (g.setWorker w x) where
  counts := hs.counts
  dispatcher := hs.dispatcher
  hasWork := hs.hasWork
  done := hs.done
  worker v := by
    unfold State.setWorker Gather.State.setWorker
    by_cases hvw : v = w
    · subst hvw
      simp only [Function.update_self]
    · simp only [Function.update_of_ne hvw, hs.worker]
  start := hs.start
  stop := hs.stop
  call := hs.call

theorem sim_work (hm : Mirrors workers s g) (htasked : Gather.Tasked workers g) {w : Nat}
    (hw : w < workers) (h : s.work w = some t) :
    ∃ g', g.work w = some g' ∧ Mirrors workers t g' := by
  have hworker := hm.worker w
  cases hpc : g.worker w with
  | poll =>
    rw [hpc] at hworker
    simp only [State.work, hworker, Worker.ofNat, hm.hasWork] at h
    simp only [Gather.State.work, hpc]
    split at h
    · rw [if_pos ‹_›]
      cases h
      refine ⟨_, rfl, hm.move ?_ rfl rfl rfl rfl rfl rfl⟩
      rw [hm.start]
      exact hm.toSim.setWorker w (.copy _)
    · cases h
  | copy i =>
    rw [hpc] at hworker
    simp only [State.work, hworker, Worker.ofNat, hm.stop, Int.ofNat_lt] at h
    simp only [Gather.State.work, hpc]
    by_cases hi : i < (g.task w).stop
    · rw [if_pos hi] at h ⊢
      obtain ⟨c, hc, h⟩ := Option.bind_eq_some_iff.mp h
      rw [entryAt_natCast] at h
      obtain ⟨e, he, rfl⟩ := Option.map_eq_some_iff.mp h
      -- the task is that of the call being made
      obtain ⟨-, -, htask⟩ := htasked.active w hw (by rw [Gather.Active, hpc]; trivial)
      have hcall : (g.task w).call = g.call := by rw [htask]; rfl
      have hcur : s.current = some c := by
        rw [← hm.toSim.current_eq, ← hcall]
        exact hm.call w c hc
      refine ⟨_, rfl, hm.copied ?_ rfl hcur he rfl rfl rfl rfl (by rw [← hcall])⟩
      have hsim := hm.toSim.setWorker w (.copy (i + 1))
      exact { hsim with }
    · rw [if_neg hi] at h ⊢
      cases h
      exact ⟨_, rfl, hm.move (hm.toSim.setWorker w .setDone) rfl rfl rfl rfl rfl rfl⟩
  | setDone =>
    rw [hpc] at hworker
    simp only [State.work, hworker, Worker.ofNat] at h
    simp only [Gather.State.work, hpc]
    cases h
    have hsim := hm.toSim.setWorker w .clearWork
    refine ⟨_, rfl, hm.move ?_ rfl rfl rfl rfl rfl rfl⟩
    exact { hsim with done := by rw [hm.done] }
  | clearWork =>
    rw [hpc] at hworker
    simp only [State.work, hworker, Worker.ofNat] at h
    simp only [Gather.State.work, hpc]
    cases h
    have hsim := hm.toSim.setWorker w .poll
    refine ⟨_, rfl, hm.move ?_ rfl rfl rfl rfl rfl rfl⟩
    exact { hsim with hasWork := by rw [hm.hasWork] }

/-- A call begins: nothing of it has been copied. -/
theorem sim_call (hm : Mirrors workers s g) (hlog : ∀ x ∈ g.log, x.1 < g.counts.length)
    (hfit : c.entries.length + workers < 2 ^ 31) (user : Nat → UInt8)
    (staging : Nat → Nat → UInt8) :
    Mirrors workers
      { s with
        calls := s.calls ++ [c]
        dispatcher := .assign 0
        user := user
        staging := staging
        before := staging }
      { g with counts := g.counts ++ [c.entries.length], dispatcher := .assign 0 } where
  counts := by rw [List.map_append, hm.counts]; rfl
  dispatcher := rfl
  hasWork := hm.hasWork
  done := hm.done
  worker := hm.worker
  start := hm.start
  stop := hm.stop
  call v c' h := by
    have hold := hm.call v c' h
    rw [List.getElem?_append_left (List.getElem?_eq_some_iff.mp hold).1]
    exact hold
  fits c' hc' := by
    rcases List.mem_append.mp hc' with hc' | hc'
    · exact hm.fits c' hc'
    · exact List.mem_singleton.mp hc' ▸ hfit
  memory c' _ := by
    refine staged_none c' user staging fun i hi => ?_
    have hlt := hlog _ hi
    simp [Gather.State.call] at hlt

/-- **Each step is a step of `GatherHandshake`'s machine.** -/
theorem sim_step (hm : Mirrors workers s g) (hg : ReachableFrom (Gather.step workers) Gather.init g)
    {a : Act} (hfit : Fits workers s a) (h : step workers s a = some t) :
    ∃ b g', Gather.step workers g b = some g' ∧ Mirrors workers t g' := by
  cases a with
  | call c user staging =>
    simp only [step] at h
    cases hd : g.dispatcher with
    | idle =>
      rw [hm.dispatcher, hd] at h
      cases h
      exact ⟨.call c.entries.length, _, by simp only [Gather.step, hd],
        sim_call hm (Gather.lt_of_mem_log hg) hfit user staging⟩
    | _ => rw [hm.dispatcher, hd] at h; cases h
  | dispatch =>
    obtain ⟨c, hc, h⟩ := Option.bind_eq_some_iff.mp h
    obtain ⟨g', hg', hm'⟩ := sim_dispatch hm hc h
    exact ⟨.dispatch, g', hg', hm'⟩
  | work w =>
    simp only [step] at h
    split at h
    · obtain ⟨g', hg', hm'⟩ := sim_work hm (Gather.tasked_of_reachable hg) ‹_› h
      exact ⟨.work w, g', (if_pos ‹_›).trans hg', hm'⟩
    · cases h

theorem mirrors_init (workers : Nat) : Mirrors workers init Gather.init where
  toSim := sim_init
  fits _ h := by cases h
  memory _ h := by cases h

/-- Every run is a run of `GatherHandshake`'s machine. -/
theorem exists_mirror (h : Reachable (step workers) (Fits workers) (· = init) s) :
    ∃ g, ReachableFrom (Gather.step workers) Gather.init g ∧ Mirrors workers s g := by
  induction h with
  | initial h =>
    subst h
    exact ⟨_, .initial rfl, mirrors_init workers⟩
  | step _ a hfit hs ih =>
    obtain ⟨g, hg, hm⟩ := ih
    obtain ⟨b, g', hg', hm'⟩ := sim_step hm hg hfit hs
    exact ⟨g', hg.step b trivial hg', hm'⟩

/-- Between two calls all entries of the last one have been copied. -/
theorem Mirrors.gatherExact (hm : Mirrors workers s g)
    (hg : ReachableFrom (Gather.step workers) Gather.init g) : GatherExact workers s where
  ranges c hc := partition_of_lt (hm.fits c (current_mem hc))
  returned hd c hc e he k hk := by
    obtain ⟨i, hi, hie⟩ := List.getElem_of_mem he
    have hd' : g.dispatcher = .idle := by
      have := hm.dispatcher.symm.trans hd
      cases hgd : g.dispatcher <;> rw [hgd] at this <;> first | rfl | cases this
    have hcount : g.counts[g.call]? = some c.entries.length := by
      rw [hm.counts, List.getElem?_map, hm.toSim.current_eq, hc]
      rfl
    exact (hm.memory c hc).copied i e (Gather.mem_log_of_idle hg hd' hcount hi)
      (List.getElem?_eq_some_iff.mpr ⟨hi, hie⟩) k hk
  kept c hc b x hx := (hm.memory c hc).kept b x fun i e _ hie => hx e (List.mem_of_getElem? hie)

end Simulation

/-- **A call that returns has gathered its entries and nothing else**, in every run in which
`count + workers` is an `int` in every call. -/
theorem gatherExact_of_reachable {workers : Nat} {s : State}
    (h : Reachable (step workers) (Fits workers) (· = init) s) : GatherExact workers s := by
  obtain ⟨g, hg, hm⟩ := exists_mirror h
  exact hm.gatherExact hg

section Example

instance (workers : Nat) (s : State) (a : Act) : Decidable (Fits workers s a) :=
  match a with
  | .call c _ _ => inferInstanceAs (Decidable (c.entries.length + workers < 2 ^ 31))
  | .dispatch | .work _ => isTrue trivial

/-- `n` entries of one byte each, one behind the other. -/
def bytewise (n : Nat) (h : n < 2 ^ 31) : Call where
  entries := (List.range n).map fun i => ⟨i, .user i, 1⟩
  buf := 0
  minDst := 0
  length_lt := by rwa [List.length_map, List.length_range]
  source := by simp
  dst_lt := by
    simp only [List.forall_mem_map, List.mem_range]
    intro i hi
    exact (hi.trans h).trans (by decide)
  minDst_le := by simp
  disjoint := by
    rw [List.pairwise_map]
    refine List.nodup_range.imp fun hne a ha ha' => hne ?_
    dsimp only at ha ha'
    omega

theorem mem_bytewise {n : Nat} (h : n < 2 ^ 31) (hn : 0 < n) :
    ⟨0, .user 0, 1⟩ ∈ (bytewise n h).entries :=
  List.mem_map.mpr ⟨0, List.mem_range.mpr hn, rfl⟩

/-- One worker and a call, from the dispatch to the return, if there is nothing to copy. -/
def emptyHanded : List Act :=
  [.dispatch, .dispatch, .dispatch, .dispatch, .dispatch, .work 0, .work 0, .work 0, .dispatch,
    .dispatch]

theorem run_emptyHanded (c : Call) (user : Nat → UInt8) (staging : Nat → Nat → UInt8)
    (hstart : start 1 c.entries.length 0 < c.entries.length)
    (hstop : ¬ start 1 c.entries.length 0 < stop 1 c.entries.length 0)
    (hmain : ¬ 0 < mainEnd 1 c.entries.length) :
    ∃ s, run (step 1) init (.call c user staging :: emptyHanded) = some s ∧
      s.dispatcher = .idle ∧ s.current = some c ∧ s.user = user ∧ s.staging = staging := by
  simp [emptyHanded, run_cons, step, init, State.current, State.dispatch, State.work,
    State.setWorker, hstart, hstop, hmain]

/-- With one worker, a call with `2 ^ 31 - 1` entries returns without having copied any. -/
theorem exists_ungathered : ∃ s c, ReachableFrom (step 1) init s ∧ s.dispatcher = .idle ∧
    s.current = some c ∧ c.entries.length + 1 = 2 ^ 31 ∧ ¬ GatherExact 1 s := by
  have hlt : 2 ^ 31 - 1 < 2 ^ 31 := by decide
  have hlength : (bytewise (2 ^ 31 - 1) hlt).entries.length = 2 ^ 31 - 1 := by
    rw [bytewise, List.length_map, List.length_range]
  obtain ⟨s, hs, hidle, hcur, huser, hstaging⟩ := run_emptyHanded (bytewise (2 ^ 31 - 1) hlt)
    (fun _ => 1) (fun _ _ => 0) (by rw [hlength]; decide) (by rw [hlength]; decide)
    (by rw [hlength]; decide)
  refine ⟨s, _, (Reachable.self _).run_always hs, hidle, hcur, by rw [hlength]; decide, fun h => ?_⟩
  have hbyte := h.returned hidle _ hcur _ (mem_bytewise hlt (by decide)) 0 Nat.one_pos
  rw [huser, hstaging] at hbyte
  exact absurd (show (0 : UInt8) = 1 from hbyte) (by decide)

private structure Summary where
  dispatcher : Dispatcher
  calls : Nat
  staging : List UInt8
  deriving DecidableEq

private def summary (s : State) : Summary :=
  ⟨s.dispatcher, s.calls.length, (List.range 4).map (s.staging 0)⟩

/-- One worker gathers two of three bytes, the main thread the first two. -/
def twoCalls : List Act :=
  let call : Act := .call (bytewise 3 (by decide)) (fun a => .ofNat (a + 7)) fun _ _ => 0
  let dispatches k := List.replicate k Act.dispatch
  let works k := List.replicate k (Act.work 0)
  call :: dispatches 4 ++ works 5 ++ dispatches 5 ++ call :: dispatches 5 ++ works 4 ++ dispatches 4

/-- A run through two calls, and what the theorem says of its end. -/
theorem gatherExact_of_reachable_two : ∃ s, s.dispatcher = .idle ∧ s.calls.length = 2 ∧
    (List.range 4).map (s.staging 0) = [7, 8, 9, 0] ∧ GatherExact 1 s := by
  have h : (runWhile (step 1) (Fits 1) init twoCalls).map summary =
      some ⟨.idle, 2, [7, 8, 9, 0]⟩ := by decide +kernel
  obtain ⟨s, hs, hsum⟩ := Option.map_eq_some_iff.mp h
  simp only [summary, Summary.mk.injEq] at hsum
  obtain ⟨h1, h2, h3⟩ := hsum
  exact ⟨s, h1, h2, h3, gatherExact_of_reachable ((Reachable.self _).runWhile hs)⟩

end Example

end Gfd.ParallelGather
