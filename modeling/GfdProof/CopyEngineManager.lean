import GfdProof.CopyEngine

/-! # The copy engine manager, driver call by driver call

`CopyEngineManager` once `init` has succeeded: its functions as the driver calls
they make and the assignments between them.  Each driver call is checked, and the
function returns at the first that fails.  The caller makes the functions one
after the other; meanwhile the streams go on, and work is queued on the caller's
own streams.

The manager relies on `Consistent`: a channel with a copy that is not known to be
complete is in `dirty_mask_`, and its event was recorded after the copy.
Every function that returns without an error restores it, so that
`wait_completion` waits for every copy, and a stream given to
`make_stream_wait_on_all` is behind every copy (`synchronised_of_reachable`).
The entries of a submission are all queued as long as their number, rounded up to
the channels, is an `int` (`exists_dropped`).
-/
namespace Gfd

open WorkStreams Transition

/-- The streams of the channels and of the caller. -/
inductive EngineStream
  | channel (ch : Nat)
  | caller (st : Nat)
  deriving DecidableEq

/-- `ce_events_` and the events of the caller. -/
inductive EngineEvent
  | channel (ch : Nat)
  | caller (e : Nat)
  deriving DecidableEq

/-- The manager, with the device and the context stack of the thread that uses it.  `known` is how
many copies of each channel the thread knows to be complete. -/
structure CopyEngineManager (α : Type) where
  contextPinned : Bool
  nextChannel : Nat
  dirtyMask : Nat → Bool
  depth : Nat
  device : Device EngineStream EngineEvent α
  known : Nat → Nat

namespace CopyEngineManager

variable {α : Type}

/-- After `init`. -/
def init (contextPinned : Bool) (depth : Nat) : CopyEngineManager α where
  contextPinned := contextPinned
  nextChannel := 0
  dirtyMask _ := false
  depth := depth
  device := .empty
  known _ := 0

/-! ## Driver calls -/

inductive DriverCall (α : Type)
  | ctxPushCurrent
  | ctxPopCurrent
  | memcpyHtoDAsync (ch : Nat) (entry : α)
  /-- The stream is that of a channel. -/
  | eventRecord (e : EngineEvent) (ch : Nat)
  | eventSynchronize (e : EngineEvent)
  /-- The stream is one of the caller's. -/
  | streamWaitEvent (st : Nat) (e : EngineEvent)
  deriving DecidableEq

/-- What a driver call does when it succeeds. -/
def DriverCall.effect (m : CopyEngineManager α) : DriverCall α → CopyEngineManager α
  | .ctxPushCurrent => { m with depth := m.depth + 1 }
  | .ctxPopCurrent => { m with depth := m.depth - 1 }
  | .memcpyHtoDAsync ch entry => { m with device := m.device.submit (.channel ch) entry }
  | .eventRecord e ch => { m with device := m.device.record e (.channel ch) }
  | .eventSynchronize e =>
    match m.device.mark e with
    | some (.channel ch, k) => { m with known := Function.update m.known ch (max (m.known ch) k) }
    | _ => m
  | .streamWaitEvent st e => { m with device := m.device.waitEvent (.caller st) e }

/-- A step of a function: a driver call under `GFD_CU_CHECK`, or an assignment. -/
inductive Step (α : Type)
  | call (d : DriverCall α)
  | setNextChannel (ch : Nat)
  | orDirtyMask (mask : List Nat)
  | clearDirtyMask
  deriving DecidableEq

def Step.perform (m : CopyEngineManager α) : Step α → CopyEngineManager α
  | .call d => d.effect m
  | .setNextChannel ch => { m with nextChannel := ch }
  | .orDirtyMask mask => { m with dirtyMask := fun ch => m.dirtyMask ch || mask.contains ch }
  | .clearDirtyMask => { m with dirtyMask := fun _ => false }

/-- `cuEventSynchronize` returns once the event is complete. -/
def Step.blocked (m : CopyEngineManager α) : Step α → Bool
  | .call (.eventSynchronize e) => !m.device.complete e
  | _ => false

def Step.isCall : Step α → Bool
  | .call _ => true
  | _ => false

/-! ## Channel selection -/

/-- The value an `int` holds. -/
def int32 (x : Int) : Int := x.bmod (2 ^ 32)

/-- Few entries: one channel after the other, from `next` on. -/
def roundRobin (n : Nat) : Nat → List α → List (Nat × α)
  | _, [] => []
  | next, e :: es => (next, e) :: roundRobin n ((next + 1) % n) es

/-- The entries from `start` to `stop`. -/
def entriesFrom (entries : List α) (start stop : Int) : List α :=
  (entries.drop start.toNat).take (stop - start).toNat

/-- Many entries: a contiguous range for each of the channels. -/
def chunkLoop (entries : List α) (chunkSize : Int) : List Nat → List (Nat × List α)
  | [] => []
  | ch :: chs =>
    let start := int32 (ch * chunkSize)
    let stop := min (int32 (start + chunkSize)) entries.length
    if (entries.length : Int) ≤ start then []
    else (ch, entriesFrom entries start stop) :: chunkLoop entries chunkSize chs

def chunks (n : Nat) (entries : List α) : List (Nat × List α) :=
  chunkLoop entries ((int32 (entries.length + n - 1)).tdiv n) (List.range n)

/-- The entries in the order of their copies, each with its channel. -/
def distribute (n next : Nat) (entries : List α) : List (Nat × α) :=
  if entries.length ≤ n then roundRobin n next entries
  else (chunks n entries).flatMap fun c => c.2.map (c.1, ·)

/-- `this_mask`, in the order of its bits. -/
def thisMask (n next : Nat) (entries : List α) : List Nat :=
  let used := if entries.length ≤ n then (roundRobin n next entries).map Prod.fst
    else (chunks n entries).map Prod.fst
  (List.range n).filter used.contains

/-! ## The functions -/

inductive Function (α : Type)
  | submitScatterGather (entries : List α)
  | waitCompletion
  | recordEventOnLastStream (e : Nat)
  | makeStreamWaitOnAll (st : Nat)
  deriving DecidableEq

/-- The channels of `dirty_mask_`, in the order of its bits. -/
def dirtyChannels (n : Nat) (m : CopyEngineManager α) : List Nat := (List.range n).filter m.dirtyMask

/-- Push the context before the steps and pop it after them, unless it is pinned. -/
def withContext (m : CopyEngineManager α) (steps : List (Step α)) : List (Step α) :=
  if m.contextPinned then steps else .call .ctxPushCurrent :: steps ++ [.call .ctxPopCurrent]

/-- The copies of a submission, and `next_channel_`. -/
def copySteps (n : Nat) (m : CopyEngineManager α) (entries : List α) : List (Step α) :=
  if entries.length ≤ n then
    (roundRobin n m.nextChannel entries).flatMap fun x =>
      [.setNextChannel ((x.1 + 1) % n), .call (.memcpyHtoDAsync x.1 x.2)]
  else
    ((chunks n entries).flatMap fun c => c.2.map fun e => .call (.memcpyHtoDAsync c.1 e)) ++
      [.setNextChannel 0]

def recordSteps (mask : List Nat) : List (Step α) :=
  mask.map fun ch => .call (.eventRecord (.channel ch) ch)

/-- The steps of a function. -/
def Function.body (n : Nat) (m : CopyEngineManager α) : Function α → List (Step α)
  | .submitScatterGather entries =>
    if entries = [] then []
    else
      let mask := thisMask n m.nextChannel entries
      m.withContext (copySteps n m entries ++ .orDirtyMask mask :: recordSteps mask)
  | .waitCompletion =>
    if dirtyChannels n m = [] then []
    else m.withContext (((dirtyChannels n m).map fun ch => .call (.eventSynchronize (.channel ch))) ++
      [.clearDirtyMask])
  | .recordEventOnLastStream e =>
    [.call (.eventRecord (.caller e) ((m.nextChannel + n - 1) % n))]
  | .makeStreamWaitOnAll st =>
    if dirtyChannels n m = [] then []
    else m.withContext ((dirtyChannels n m).flatMap fun ch =>
      [.call (.eventRecord (.channel ch) ch), .call (.streamWaitEvent st (.channel ch))])

/-! ## The system -/

/-- A function that returned without an error, and the device before and after it. -/
structure Returned (α : Type) where
  function : Function α
  before : Device EngineStream EngineEvent α
  after : Device EngineStream EngineEvent α

/-- The manager, and the function under way: with the manager as it was called, the steps left, and
the number of driver calls that have succeeded. -/
structure State (α : Type) where
  manager : CopyEngineManager α
  running : Option (Function α × CopyEngineManager α)
  todo : List (Step α)
  made : Nat
  returned : List (Returned α)

/-- Nothing has been called. -/
def State.idle (m : CopyEngineManager α) : State α := ⟨m, none, [], 0, []⟩

inductive Act (α : Type)
  | call (f : Function α)
  | go
  /-- The driver call at hand returns an error. -/
  | fail
  /-- The function returns `CUDA_SUCCESS`. -/
  | ret
  | advance (st : EngineStream)
  /-- Work is queued on a stream of the caller. -/
  | enqueue (st : Nat) (work : α)

/-- One step, over `n` channels. -/
def step (n : Nat) (s : State α) : Act α → Option (State α)
  | .call f =>
    if s.running.isNone then
      some { s with running := some (f, s.manager), todo := f.body n s.manager, made := 0 }
    else none
  | .go =>
    match s.todo with
    | [] => none
    | x :: rest =>
      if x.blocked s.manager then none
      else some { s with
        manager := x.perform s.manager
        todo := rest
        made := if x.isCall then s.made + 1 else s.made }
  | .fail =>
    match s.todo with
    | .call _ :: _ => some { s with running := none, todo := [] }
    | _ => none
  | .ret =>
    match s.running, s.todo with
    | some (f, m), [] => some { s with
        running := none
        returned := s.returned ++ [⟨f, m.device, s.manager.device⟩] }
    | _, _ => none
  | .advance st =>
    if s.manager.device.runnable st then
      some { s with manager := { s.manager with device := s.manager.device.advance st } }
    else none
  | .enqueue st work =>
    some { s with manager := { s.manager with device := s.manager.device.submit (.caller st) work } }

/-! ## Where the entries go -/

/-- The ceiling division of `chunk_size` does not overflow. -/
def Sized (n : Nat) (entries : List α) : Prop := entries.length + n ≤ 2 ^ 31

theorem int32_of_lt {x : Nat} (h : x < 2 ^ 31) : int32 (x : Int) = x := by
  refine Int.bmod_eq_of_le ?_ ?_ <;> omega

theorem roundRobin_eq {n : Nat} (next k : Nat) (entries : List α) :
    roundRobin n ((next + k) % n) entries =
      (entries.zipIdx k).map fun x => ((next + x.2) % n, x.1) := by
  induction entries generalizing k with
  | nil => rfl
  | cons e es ih =>
    rw [roundRobin, List.zipIdx_cons, List.map_cons, Nat.mod_add_mod, Nat.add_assoc, ih]

theorem chunkSize_bounds {n count : Nat} (hn : 0 < n) (hc : n < count) :
    0 < chunkSize n count ∧ count ≤ n * chunkSize n count ∧ n * chunkSize n count ≤ count + n - 1 := by
  have h := Nat.lt_div_mul_add (a := count + n - 1) hn
  have h' := Nat.div_mul_le_self (count + n - 1) n
  unfold chunkSize
  rw [Nat.mul_comm n]
  exact ⟨Nat.div_pos (by omega) hn, by omega, h'⟩

theorem intChunkSize_eq {n : Nat} {entries : List α} (hs : Sized n entries) (hn : 0 < n)
    (hc : n < entries.length) :
    (int32 (entries.length + n - 1)).tdiv n = (chunkSize n entries.length : Int) := by
  unfold Sized at hs
  have hcast : (entries.length + n - 1 : Int) = ((entries.length + n - 1 : Nat) : Int) := by omega
  rw [hcast, int32_of_lt (by omega)]
  exact (Int.ofNat_tdiv _ _).symm

/-- A range of entries below a bound, and those from the bound on. -/
theorem zipIdx_div (l : List α) (size k c : Nat) :
    ((l.take ((k + 1) * size)).zipIdx (c * size)).map (fun x => (x.2 / size, x.1)) =
      (l.take size).map (c, ·) ++
        (((l.drop size).take (k * size)).zipIdx ((c + 1) * size)).map fun x => (x.2 / size, x.1) := by
  have htake : l.take ((k + 1) * size) = l.take size ++ (l.drop size).take (k * size) := by
    rw [Nat.succ_mul, Nat.add_comm, List.take_add]
  rw [htake, List.zipIdx_append, List.map_append]
  congr 1
  · have hdiv : ∀ x ∈ (l.take size).zipIdx (c * size), (x.2 / size, x.1) = (c, x.1) := fun x hx => by
      have hmem := List.mem_zipIdx hx
      have hlen := List.length_take_le size l
      rw [Nat.div_eq_of_lt_le (k := c) (by omega) (by rw [Nat.succ_mul]; omega)]
    rw [List.map_congr_left hdiv]
    conv_rhs => rw [← List.zipIdx_map_fst (c * size) (l.take size)]
    rw [List.map_map]
    rfl
  · rcases Nat.lt_or_ge l.length size with h | h
    · rw [List.drop_eq_nil_of_le (Nat.le_of_lt h)]
      simp
    · rw [List.length_take, Nat.min_eq_left h, ← Nat.succ_mul]

theorem entriesFrom_natCast (entries : List α) (start stop : Nat) :
    entriesFrom entries start (min stop entries.length) = (entries.drop start).take (stop - start) := by
  unfold entriesFrom
  rw [Int.toNat_natCast, List.take_eq_take_iff, List.length_drop]
  omega

/-- The chunks of the channels from `c` on. -/
theorem chunkLoop_eq {n : Nat} {entries : List α} (hs : Sized n entries) (hn : 0 < n)
    (hc : n < entries.length) (k c : Nat) (hk : c + k ≤ n) :
    let size := chunkSize n entries.length
    (chunkLoop entries size (List.range' c k)).flatMap (fun x => x.2.map (x.1, ·)) =
        (((entries.drop (c * size)).take (k * size)).zipIdx (c * size)).map
          (fun x => (x.2 / size, x.1)) ∧
      ∀ ch, ch ∈ (chunkLoop entries size (List.range' c k)).map Prod.fst ↔
        c ≤ ch ∧ ch < c + k ∧ ch * size < entries.length := by
  obtain ⟨hpos, -, hle⟩ := chunkSize_bounds hn hc
  dsimp only
  generalize chunkSize n entries.length = size at hpos hle ⊢
  unfold Sized at hs
  induction k generalizing c with
  | zero =>
    refine ⟨by simp [chunkLoop], fun ch => ?_⟩
    simp only [List.range'_zero, chunkLoop, List.map_nil, List.not_mem_nil, false_iff]
    omega
  | succ k ih =>
    have hstep : (c + 1) * size ≤ n * size := Nat.mul_le_mul_right _ (by omega)
    have hmul : (c + 1) * size = c * size + size := Nat.succ_mul _ _
    have hstart : int32 ((c : Int) * size) = ((c * size : Nat) : Int) := by
      rw [← Int.natCast_mul, int32_of_lt (by omega)]
    have hstop : int32 (((c * size : Nat) : Int) + size) = (((c + 1) * size : Nat) : Int) := by
      rw [← Int.natCast_add, ← hmul, int32_of_lt (by omega)]
    obtain ⟨ih1, ih2⟩ := ih (c + 1) (by omega)
    simp only [List.range'_succ, chunkLoop, hstart, hstop]
    by_cases hend : entries.length ≤ c * size
    · rw [if_pos (by exact_mod_cast hend), List.drop_eq_nil_of_le hend]
      refine ⟨by simp, fun ch => ?_⟩
      simp only [List.map_nil, List.not_mem_nil, false_iff]
      rintro ⟨h1, -, h2⟩
      have : c * size ≤ ch * size := Nat.mul_le_mul_right _ h1
      omega
    · rw [if_neg (by exact_mod_cast hend)]
      refine ⟨?_, fun ch => ?_⟩
      · have hslice : entriesFrom entries (c * size : Nat)
            (min ((c + 1) * size : Nat) (entries.length : Int)) = (entries.drop (c * size)).take size := by
          rw [entriesFrom_natCast, hmul, Nat.add_sub_cancel_left]
        rw [List.flatMap_cons, ih1, hslice, zipIdx_div, List.drop_drop, ← hmul]
      · rw [List.map_cons, List.mem_cons, ih2]
        constructor
        · rintro (rfl | ⟨h1, h2, h3⟩)
          · exact ⟨Nat.le_refl _, by omega, by omega⟩
          · exact ⟨by omega, by omega, h3⟩
        · rintro ⟨h1, h2, h3⟩
          rcases Nat.eq_or_lt_of_le h1 with h | h
          · exact .inl h.symm
          · exact .inr ⟨h, by omega, h3⟩

/-- Entry `i` goes to the channel that `channelOf` says. -/
theorem distribute_eq {n next : Nat} {entries : List α} (hs : Sized n entries) (hn : 0 < n)
    (hnext : next < n) :
    distribute n next entries = entries.zipIdx.map fun x => (channelOf n next entries.length x.2, x.1) := by
  unfold distribute channelOf
  split
  · have h := roundRobin_eq next 0 entries (n := n)
    rwa [Nat.add_zero, Nat.mod_eq_of_lt hnext] at h
  · rename_i hc
    obtain ⟨-, hcover, -⟩ := chunkSize_bounds hn (Nat.lt_of_not_le hc)
    have h := (chunkLoop_eq hs hn (Nat.lt_of_not_le hc) n 0 (by omega)).1
    rw [chunks, intChunkSize_eq hs hn (Nat.lt_of_not_le hc), List.range_eq_range', h, Nat.zero_mul,
      List.drop_zero, List.take_of_length_le hcover]

theorem mem_thisMask {n next ch : Nat} {entries : List α} (hs : Sized n entries) (hn : 0 < n)
    (hnext : next < n) : ch ∈ thisMask n next entries ↔
      ch < n ∧ ∃ i < entries.length, channelOf n next entries.length i = ch := by
  unfold thisMask channelOf
  rw [List.mem_filter, List.mem_range, List.contains_iff_mem]
  refine and_congr_right fun hch => ?_
  split
  · have h := roundRobin_eq next 0 entries (n := n)
    rw [Nat.add_zero, Nat.mod_eq_of_lt hnext] at h
    rw [h, List.map_map, List.mem_map]
    constructor
    · rintro ⟨x, hx, hch⟩
      exact ⟨x.2, by simpa using (List.mem_zipIdx hx).2.1, hch⟩
    · rintro ⟨i, hi, hch⟩
      exact ⟨(entries[i], i), List.mk_mem_zipIdx_iff_getElem?.mpr (List.getElem?_eq_getElem hi), hch⟩
  · rename_i hc
    obtain ⟨hpos, -, -⟩ := chunkSize_bounds hn (Nat.lt_of_not_le hc)
    have h := (chunkLoop_eq hs hn (Nat.lt_of_not_le hc) n 0 (by omega)).2 ch
    rw [chunks, intChunkSize_eq hs hn (Nat.lt_of_not_le hc), List.range_eq_range', h]
    constructor
    · rintro ⟨-, -, hlt⟩
      exact ⟨_, hlt, Nat.mul_div_cancel _ hpos⟩
    · rintro ⟨i, hi, rfl⟩
      exact ⟨Nat.zero_le _, by omega, Nat.lt_of_le_of_lt (Nat.div_mul_le_self _ _) hi⟩

/-- A sized submission uses the channels that `usedChannels` says. -/
theorem thisMask_eq {n next : Nat} {entries : List α} (hs : Sized n entries) (hn : 0 < n)
    (hnext : next < n) : thisMask n next entries = usedChannels n next entries.length := by
  have h : ∀ ch, ch ∈ thisMask n next entries ↔
      ch < n ∧ ∃ i < entries.length, channelOf n next entries.length i = ch :=
    fun _ => mem_thisMask hs hn hnext
  unfold thisMask at h ⊢
  unfold usedChannels
  refine List.filter_congr fun ch hch => Bool.eq_iff_iff.mpr ?_
  have := h ch
  rw [List.mem_filter, and_iff_right hch] at this
  rw [this, and_iff_right (List.mem_range.mp hch)]
  simp

/-- The entries of a channel, in order. -/
def share (l : List (Nat × α)) (ch : Nat) : List α := (BucketScatter.bucket Prod.fst l ch).map Prod.snd

/-- The shares of the channels are the entries. -/
theorem perm_share {l : List (Nat × α)} {n : Nat} (h : ∀ x ∈ l, x.1 < n) :
    ((List.range n).flatMap (share l)).Perm (l.map Prod.snd) := by
  have hperm := (BucketScatter.partition_perm h).map Prod.snd
  rwa [BucketScatter.partition, List.map_flatMap] at hperm

/-- Every entry of a sized submission goes to one valid channel. -/
theorem perm_distribute {n next : Nat} {entries : List α} (hs : Sized n entries) (hn : 0 < n)
    (hnext : next < n) :
    ((List.range n).flatMap (share (distribute n next entries))).Perm entries := by
  have hmap := distribute_eq hs hn hnext
  have hlt : ∀ x ∈ distribute n next entries, x.1 < n := by
    rw [hmap]
    refine List.forall_mem_map.mpr fun x hx => channelOf_lt hn ?_
    simpa using (List.mem_zipIdx hx).2.1
  have hsnd : (distribute n next entries).map Prod.snd = entries := by
    rw [hmap, List.map_map]
    exact List.zipIdx_map_fst 0 entries
  have hperm := perm_share hlt
  rwa [hsnd] at hperm

/-! ## Sequences of steps -/

/-- The steps one after the other, when no driver call fails. -/
def performAll (m : CopyEngineManager α) (l : List (Step α)) : CopyEngineManager α :=
  l.foldl Step.perform m

@[simp] theorem performAll_nil (m : CopyEngineManager α) : m.performAll [] = m := rfl

@[simp] theorem performAll_cons (m : CopyEngineManager α) (x : Step α) (l : List (Step α)) :
    m.performAll (x :: l) = (x.perform m).performAll l := rfl

theorem performAll_append (m : CopyEngineManager α) (l l' : List (Step α)) :
    m.performAll (l ++ l') = (m.performAll l).performAll l' := List.foldl_append

theorem performAll_invariant {P : CopyEngineManager α → Prop} {l : List (Step α)}
    (h : ∀ x ∈ l, ∀ m, P m → P (x.perform m)) {m : CopyEngineManager α} (hm : P m) :
    P (m.performAll l) := by
  induction l generalizing m with
  | nil => exact hm
  | cons x l ih =>
    exact ih (fun y hy => h y (List.mem_cons_of_mem _ hy)) (h x (List.mem_cons_self ..) m hm)

/-- The copy a step queues on channel `ch`. -/
def Step.copyOn (ch : Nat) : Step α → Option α
  | .call (.memcpyHtoDAsync c e) => if c = ch then some e else none
  | _ => none

theorem log_perform (m : CopyEngineManager α) (x : Step α) (ch : Nat) :
    (x.perform m).device.log (.channel ch) =
      m.device.log (.channel ch) ++ (x.copyOn ch).toList.map .work := by
  have hne : ∀ st, EngineStream.channel ch ≠ .caller st := nofun
  cases x with
  | call d =>
    cases d with
    | memcpyHtoDAsync c e =>
      by_cases h : c = ch
      · subst h
        simp [Step.perform, DriverCall.effect, Step.copyOn]
      · have h' : EngineStream.channel ch ≠ .channel c := fun he => h (EngineStream.channel.inj he).symm
        simp [Step.perform, DriverCall.effect, Step.copyOn, h, Device.submit_log_of_ne _ h']
    | streamWaitEvent st e =>
      simp [Step.perform, DriverCall.effect, Step.copyOn, Device.waitEvent_log_of_ne _ (hne st)]
    | eventSynchronize e =>
      simp only [Step.perform, DriverCall.effect, Step.copyOn]
      split <;> simp
    | _ => simp [Step.perform, DriverCall.effect, Step.copyOn]
  | _ => simp [Step.perform, Step.copyOn]

theorem log_performAll (m : CopyEngineManager α) (l : List (Step α)) (ch : Nat) :
    (m.performAll l).device.log (.channel ch) =
      m.device.log (.channel ch) ++ (l.filterMap (Step.copyOn ch)).map .work := by
  induction l generalizing m with
  | nil => simp
  | cons x l ih =>
    rw [performAll_cons, ih, log_perform, List.append_assoc, ← List.map_append]
    congr 2
    cases h : x.copyOn ch <;> simp [h]

/-! ## What the manager keeps track of -/

/-- Item `i` of channel `ch` is known to be complete, or the channel is dirty and its event was
recorded after the item. -/
def Tracked (m : CopyEngineManager α) (ch i : Nat) : Prop :=
  i < m.known ch ∨ m.dirtyMask ch = true ∧ m.device.Marked (.channel ch) (.channel ch) i

/-- Every copy is tracked. -/
def Consistent (m : CopyEngineManager α) : Prop :=
  ∀ ch i, i < (m.device.log (.channel ch)).length → m.Tracked ch i

/-- Every copy is tracked, except on the channels of a submission under way. -/
def ConsistentBut (m : CopyEngineManager α) (busy : List Nat) : Prop :=
  ∀ ch i, i < (m.device.log (.channel ch)).length → m.Tracked ch i ∨ ch ∈ busy

/-- What holds at any time. -/
structure Valid (n : Nat) (m : CopyEngineManager α) : Prop where
  device : m.device.Valid
  next_lt : m.nextChannel < n
  dirty_lt : ∀ ch, m.dirtyMask ch = true → ch < n
  known_le : ∀ ch, m.known ch ≤ m.device.done (.channel ch)
  mark_le : ∀ ch st k, m.device.mark (.channel ch) = some (st, k) →
    st = .channel ch ∧ k ≤ (m.device.log (.channel ch)).length

/-- The steps the functions are made of. -/
def Step.Sound (n : Nat) : Step α → Prop
  | .setNextChannel ch => ch < n
  | .orDirtyMask mask => ∀ ch ∈ mask, ch < n
  | .call (.eventRecord e ch) => ∀ c, e = .channel c → c = ch
  | _ => True

/-- A step that neither queues a copy nor forgets a channel. -/
def Step.Neutral : Step α → Prop
  | .call (.memcpyHtoDAsync _ _) | .clearDirtyMask => False
  | _ => True

variable {n : Nat} {m : CopyEngineManager α} {busy : List Nat} {x : Step α}

theorem consistentBut_nil : m.ConsistentBut [] ↔ m.Consistent :=
  forall_congr' fun _ => forall_congr' fun _ => imp_congr_right fun _ =>
    or_iff_left List.not_mem_nil

theorem Consistent.but (h : m.Consistent) : m.ConsistentBut busy := fun ch i hi => .inl (h ch i hi)

theorem known_perform (m : CopyEngineManager α) (x : Step α) (ch : Nat) :
    m.known ch ≤ (x.perform m).known ch := by
  cases x with
  | call d =>
    cases d with
    | eventSynchronize e =>
      simp only [Step.perform, DriverCall.effect]
      split
      · rename_i c k hm
        dsimp only
        by_cases h : ch = c
        · subst h
          rw [Function.update_self]
          exact Nat.le_max_left _ _
        · rw [Function.update_of_ne h]
      · exact Nat.le_refl _
    | _ => exact Nat.le_refl _
  | _ => exact Nat.le_refl _

/-- Recording an event again marks everything on its stream. -/
theorem Tracked.record {ch i : Nat} (h : m.Tracked ch i) (hi : i < (m.device.log (.channel ch)).length)
    {e : EngineEvent} {d : Nat} (he : ∀ c, e = .channel c → c = d) :
    Tracked { m with device := m.device.record e (.channel d) } ch i := by
  refine h.imp_right fun ⟨hd, hm⟩ => ⟨hd, ?_⟩
  by_cases hec : e = .channel ch
  · rw [hec, ← he ch hec]
    exact Device.marked_record hi
  · obtain ⟨k, hk, hik⟩ := hm
    exact ⟨k, by rw [← hk]; exact Device.record_mark_of_ne _ (Ne.symm hec) _, hik⟩

theorem ConsistentBut.neutral (h : m.ConsistentBut busy) (hx : x.Neutral) (hs : x.Sound n) :
    (x.perform m).ConsistentBut busy := by
  intro ch i hi
  have hlog : (x.perform m).device.log (.channel ch) = m.device.log (.channel ch) := by
    rw [log_perform]
    cases x with
    | call d => cases d <;> first | exact hx.elim | exact List.append_nil _
    | _ => exact List.append_nil _
  rw [hlog] at hi
  refine (h ch i hi).imp_left fun ht => ?_
  cases x with
  | call d =>
    cases d with
    | memcpyHtoDAsync => exact hx.elim
    | ctxPushCurrent | ctxPopCurrent => exact ht
    | eventRecord e st => exact ht.record hi hs
    | eventSynchronize e =>
      refine ht.imp (fun hk => Nat.lt_of_lt_of_le hk (known_perform m _ ch)) fun hd => ?_
      simp only [Step.perform, DriverCall.effect]
      split <;> exact hd
    | streamWaitEvent st e =>
      refine ht.imp_right fun hd => ⟨hd.1, ?_⟩
      simpa [Step.perform, DriverCall.effect, Device.Marked] using hd.2
  | setNextChannel => exact ht
  | orDirtyMask mask =>
    refine ht.imp_right fun hd => ⟨?_, hd.2⟩
    simp [Step.perform, hd.1]
  | clearDirtyMask => exact hx.elim

theorem ConsistentBut.copy (h : m.ConsistentBut busy) {ch : Nat} (hch : ch ∈ busy) (e : α) :
    ((Step.call (.memcpyHtoDAsync ch e)).perform m).ConsistentBut busy := by
  intro c i hi
  by_cases hc : c = ch
  · exact .inr (hc ▸ hch)
  · have hlog : (m.device.submit (.channel ch) e).log (.channel c) = m.device.log (.channel c) :=
      Device.submit_log_of_ne _ (fun he => hc (EngineStream.channel.inj he)) _
    refine h c i ?_
    rw [← hlog]
    exact hi

/-- Recording the event of a dirty channel ends the submission to it. -/
theorem ConsistentBut.recordBusy {ch : Nat} (h : m.ConsistentBut (ch :: busy))
    (hd : m.dirtyMask ch = true) :
    ((Step.call (.eventRecord (.channel ch) ch)).perform m).ConsistentBut busy := by
  intro c i hi
  by_cases hc : c = ch
  · subst hc
    exact .inl (.inr ⟨hd, Device.marked_record hi⟩)
  · have hrec : ∀ c, EngineEvent.channel ch = .channel c → c = ch :=
      fun _ he => (EngineEvent.channel.inj he).symm
    exact (h c i hi).imp (fun ht => ht.record hi hrec) fun hm => (List.mem_cons.mp hm).resolve_left hc

theorem consistent_recordSteps {mask : List Nat} (h : m.ConsistentBut mask)
    (hd : ∀ ch ∈ mask, m.dirtyMask ch = true) : (m.performAll (recordSteps mask)).Consistent := by
  induction mask generalizing m with
  | nil => exact consistentBut_nil.mp h
  | cons ch mask ih =>
    exact ih (h.recordBusy (hd ch (List.mem_cons_self ..))) fun c hc =>
      hd c (List.mem_cons_of_mem _ hc)

/-! ## What the functions do -/

theorem roundRobin_lt {n next : Nat} {entries : List α} (hn : 0 < n) (hnext : next < n) :
    ∀ c ∈ roundRobin n next entries, c.1 < n := by
  induction entries generalizing next with
  | nil => exact fun _ h => absurd h List.not_mem_nil
  | cons e es ih =>
    intro c hc
    rcases List.mem_cons.mp hc with rfl | hc
    · exact hnext
    · exact ih (Nat.mod_lt _ hn) c hc

theorem chunkLoop_subset (entries : List α) (size : Int) (chs : List Nat) :
    ∀ c ∈ chunkLoop entries size chs, c.1 ∈ chs := by
  induction chs with
  | nil => exact fun _ h => absurd h List.not_mem_nil
  | cons ch chs ih =>
    intro c hc
    simp only [chunkLoop] at hc
    split at hc
    · cases hc
    · rcases List.mem_cons.mp hc with rfl | hc
      · exact List.mem_cons_self ..
      · exact List.mem_cons_of_mem _ (ih c hc)

/-- The channels of the copies are those of `this_mask`. -/
theorem mem_thisMask_of_distribute {n next : Nat} {entries : List α} (hn : 0 < n) (hnext : next < n)
    {c : Nat × α} (hc : c ∈ distribute n next entries) : c.1 ∈ thisMask n next entries := by
  unfold distribute at hc
  unfold thisMask
  rw [List.mem_filter, List.mem_range, List.contains_iff_mem]
  split at hc
  · exact ⟨roundRobin_lt hn hnext c hc, by rw [if_pos ‹_›]; exact List.mem_map_of_mem hc⟩
  · obtain ⟨k, hk, hc⟩ := List.mem_flatMap.mp hc
    obtain ⟨e, -, rfl⟩ := List.mem_map.mp hc
    exact ⟨List.mem_range.mp (chunkLoop_subset _ _ _ k hk),
      by rw [if_neg ‹_›]; exact List.mem_map_of_mem hk⟩

theorem mem_copySteps {entries : List α} (hn : 0 < n) (hx : x ∈ copySteps n m entries) :
    (∃ ch, ch < n ∧ x = .setNextChannel ch) ∨
      ∃ c ∈ distribute n m.nextChannel entries, x = .call (.memcpyHtoDAsync c.1 c.2) := by
  unfold copySteps at hx
  unfold distribute
  split at hx
  · rw [if_pos ‹_›]
    obtain ⟨c, hc, hx⟩ := List.mem_flatMap.mp hx
    simp only [List.mem_cons, List.not_mem_nil, or_false] at hx
    rcases hx with rfl | rfl
    · exact .inl ⟨_, Nat.mod_lt _ hn, rfl⟩
    · exact .inr ⟨c, hc, rfl⟩
  · rw [if_neg ‹_›]
    rcases List.mem_append.mp hx with hx | hx
    · obtain ⟨k, hk, hx⟩ := List.mem_flatMap.mp hx
      obtain ⟨e, he, rfl⟩ := List.mem_map.mp hx
      exact .inr ⟨(k.1, e), List.mem_flatMap.mpr ⟨k, hk, List.mem_map_of_mem he⟩, rfl⟩
    · exact .inl ⟨0, hn, List.mem_singleton.mp hx⟩

/-- The copies that `copySteps` queues on a channel are its share. -/
theorem copyOn_copySteps (n : Nat) (m : CopyEngineManager α) (entries : List α) (ch : Nat) :
    (copySteps n m entries).filterMap (Step.copyOn ch) =
      share (distribute n m.nextChannel entries) ch := by
  have hshare : ∀ l : List (Nat × α), share l ch = l.flatMap fun c => if c.1 = ch then [c.2] else [] := by
    intro l
    induction l with
    | nil => rfl
    | cons c l ih =>
      rw [List.flatMap_cons, ← ih]
      by_cases h : c.1 = ch <;> simp [share, BucketScatter.bucket, h]
  rw [hshare]
  unfold copySteps distribute
  split
  · rw [List.filterMap_flatMap]
    refine List.flatMap_congr fun c _ => ?_
    rw [List.filterMap_cons_none rfl, List.filterMap_cons]
    by_cases h : c.1 = ch <;> simp [Step.copyOn, h]
  · rw [List.filterMap_append, List.filterMap_flatMap, List.flatMap_assoc]
    have hset : [(Step.setNextChannel 0 : Step α)].filterMap (Step.copyOn ch) = [] := rfl
    rw [hset, List.append_nil]
    refine List.flatMap_congr fun k _ => ?_
    induction k.2 with
    | nil => rfl
    | cons e es ih =>
      rw [List.map_cons, List.map_cons, List.flatMap_cons, ← ih, List.filterMap_cons]
      by_cases h : k.1 = ch <;> simp [Step.copyOn, h]

theorem mem_withContext {l : List (Step α)} (hx : x ∈ m.withContext l) :
    x ∈ l ∨ x = .call .ctxPushCurrent ∨ x = .call .ctxPopCurrent := by
  unfold withContext at hx
  split at hx
  · exact .inl hx
  · simp only [List.cons_append, List.mem_cons, List.mem_append, List.not_mem_nil, or_false] at hx
    rcases hx with h | h | h
    · exact .inr (.inl h)
    · exact .inl h
    · exact .inr (.inr h)

/-- The steps of every function are sound. -/
theorem sound_body (hv : m.Valid n) (f : Function α) : ∀ x ∈ f.body n m, x.Sound n := by
  have hn : 0 < n := Nat.zero_lt_of_lt hv.next_lt
  have hcontext : ∀ l : List (Step α), (∀ x ∈ l, x.Sound n) → ∀ x ∈ m.withContext l, x.Sound n := by
    intro l hl x hx
    rcases mem_withContext hx with hx | rfl | rfl
    · exact hl x hx
    · trivial
    · trivial
  have hrecord : ∀ ch, (Step.call (.eventRecord (.channel ch) ch) : Step α).Sound n :=
    fun ch c he => (EngineEvent.channel.inj he).symm
  cases f with
  | submitScatterGather entries =>
    simp only [Function.body]
    split
    · exact List.forall_mem_nil _
    · refine hcontext _ (List.forall_mem_append.mpr ⟨fun x hx => ?_, List.forall_mem_cons.mpr
        ⟨fun ch hch => ?_, List.forall_mem_map.mpr fun ch _ => hrecord ch⟩⟩)
      · rcases mem_copySteps hn hx with ⟨ch, hch, rfl⟩ | ⟨c, -, rfl⟩
        · exact hch
        · trivial
      · exact List.mem_range.mp (List.mem_filter.mp hch).1
  | waitCompletion =>
    simp only [Function.body]
    split
    · exact List.forall_mem_nil _
    · exact hcontext _ (List.forall_mem_append.mpr ⟨List.forall_mem_map.mpr fun _ _ => trivial,
        List.forall_mem_singleton.mpr trivial⟩)
  | recordEventOnLastStream e => exact List.forall_mem_singleton.mpr nofun
  | makeStreamWaitOnAll st =>
    simp only [Function.body]
    split
    · exact List.forall_mem_nil _
    · refine hcontext _ fun x hx => ?_
      obtain ⟨ch, -, hx⟩ := List.mem_flatMap.mp hx
      simp only [List.mem_cons, List.not_mem_nil, or_false] at hx
      rcases hx with rfl | rfl
      · exact hrecord ch
      · trivial

/-- What does not depend on the depth can be shown without the context. -/
theorem performAll_withContext {P : CopyEngineManager α → Prop}
    (hP : ∀ m d, P m → P { m with depth := d }) {l : List (Step α)}
    (h : ∀ d, P (performAll { m with depth := d } l)) : P (m.performAll (m.withContext l)) := by
  unfold withContext
  split
  · exact h m.depth
  · rw [performAll_append]
    exact hP _ _ (h (m.depth + 1))

theorem mem_dirtyChannels {ch : Nat} : ch ∈ dirtyChannels n m ↔ ch < n ∧ m.dirtyMask ch = true := by
  simp [dirtyChannels]

/-- The steps of `wait_completion` that wait. -/
def syncSteps (chs : List Nat) : List (Step α) := chs.map fun ch => .call (.eventSynchronize (.channel ch))

/-- Waiting for an event of a channel whose copies are tracked. -/
theorem known_sync (hc : m.Consistent) (ch : Nat) :
    (m.device.log (.channel ch)).length ≤
      ((Step.call (.eventSynchronize (.channel ch))).perform m).known ch := by
  by_cases hle : (m.device.log (.channel ch)).length ≤ m.known ch
  · exact hle.trans (known_perform m _ ch)
  · have hlast : (m.device.log (.channel ch)).length - 1 < (m.device.log (.channel ch)).length := by omega
    rcases hc ch _ hlast with hk | ⟨-, k, hk, hlt⟩
    · omega
    · simp only [Step.perform, DriverCall.effect, hk, Function.update_self]
      omega

theorem frame_syncSteps (m : CopyEngineManager α) (chs : List Nat) :
    (m.performAll (syncSteps chs)).device = m.device ∧
      (m.performAll (syncSteps chs)).dirtyMask = m.dirtyMask := by
  refine performAll_invariant (P := fun m' => m'.device = m.device ∧ m'.dirtyMask = m.dirtyMask)
    (List.forall_mem_map.mpr fun ch _ m' hm => ?_) ⟨rfl, rfl⟩
  simp only [Step.perform, DriverCall.effect]
  split <;> exact hm

theorem known_performAll (m : CopyEngineManager α) (l : List (Step α)) (ch : Nat) :
    m.known ch ≤ (m.performAll l).known ch :=
  performAll_invariant (P := fun m' => m.known ch ≤ m'.known ch)
    (fun x _ m' h => h.trans (known_perform m' x ch)) (Nat.le_refl _)

theorem known_syncSteps (hc : m.Consistent) (chs : List Nat) :
    ∀ ch ∈ chs, (m.device.log (.channel ch)).length ≤ (m.performAll (syncSteps chs)).known ch := by
  induction chs generalizing m with
  | nil => exact List.forall_mem_nil _
  | cons c chs ih =>
    have hdev := (frame_syncSteps m [c]).1
    have hcons : ((Step.call (.eventSynchronize (.channel c))).perform m).Consistent :=
      consistentBut_nil.mp (hc.but.neutral (n := 0) trivial trivial)
    refine List.forall_mem_cons.mpr ⟨(known_sync hc c).trans (known_performAll _ _ c), fun ch hch => ?_⟩
    have := ih hcons ch hch
    rwa [show (Step.perform m (.call (.eventSynchronize (.channel c)))).device = m.device from hdev]
      at this

/-- **`wait_completion` learns that every copy is complete.** -/
theorem known_waitCompletion (hv : m.Valid n) (hc : m.Consistent) :
    ∀ ch, (m.device.log (.channel ch)).length ≤
      (m.performAll (Function.waitCompletion.body n m)).known ch := by
  intro ch
  by_cases hd : m.dirtyMask ch = true
  · have hmem := mem_dirtyChannels.mpr ⟨hv.dirty_lt ch hd, hd⟩
    simp only [Function.body]
    rw [if_neg (List.ne_nil_of_mem hmem)]
    refine performAll_withContext (P := fun m' => _ ≤ m'.known ch) (fun _ _ h => h) fun d => ?_
    rw [performAll_append]
    exact known_syncSteps (m := { m with depth := d }) hc _ ch hmem
  · refine le_trans ?_ (known_performAll m _ ch)
    by_contra hlt
    have hlast : m.known ch < (m.device.log (.channel ch)).length := by omega
    rcases hc ch _ hlast with hk | ⟨hk, -⟩
    · omega
    · exact hd hk

/-- The copies a function queues, each with its channel. -/
def Function.copies (n : Nat) (m : CopyEngineManager α) : Function α → List (Nat × α)
  | .submitScatterGather entries => distribute n m.nextChannel entries
  | _ => []

theorem neutral_makeStreamWaitOnAll (n : Nat) (m : CopyEngineManager α) (st : Nat) :
    ∀ x ∈ (Function.makeStreamWaitOnAll st).body n m, x.Neutral := by
  intro x hx
  simp only [Function.body] at hx
  split at hx
  · cases hx
  · rcases mem_withContext hx with hx | rfl | rfl
    · obtain ⟨ch, -, hx⟩ := List.mem_flatMap.mp hx
      simp only [List.mem_cons, List.not_mem_nil, or_false] at hx
      rcases hx with rfl | rfl <;> trivial
    · trivial
    · trivial

theorem mem_waitCompletion (hx : x ∈ Function.waitCompletion.body n m) :
    x = .clearDirtyMask ∨ x.Neutral ∧ ∀ e st, x ≠ .call (.eventRecord e st) := by
  simp only [Function.body] at hx
  split at hx
  · cases hx
  · rcases mem_withContext hx with hx | rfl | rfl
    · rcases List.mem_append.mp hx with hx | hx
      · obtain ⟨ch, -, rfl⟩ := List.mem_map.mp hx
        exact .inr ⟨trivial, nofun⟩
      · exact .inl (List.mem_singleton.mp hx)
    · exact .inr ⟨trivial, nofun⟩
    · exact .inr ⟨trivial, nofun⟩

theorem copyOn_of_neutral (hx : x.Neutral) (ch : Nat) : x.copyOn ch = none := by
  cases x with
  | call d => cases d <;> first | exact hx.elim | rfl
  | _ => rfl

theorem copyOn_body (n : Nat) (m : CopyEngineManager α) (f : Function α) (ch : Nat) :
    (f.body n m).filterMap (Step.copyOn ch) = share (f.copies n m) ch := by
  cases f with
  | submitScatterGather entries =>
    have hrecord : ∀ mask : List Nat,
        (recordSteps mask : List (Step α)).filterMap (Step.copyOn ch) = [] := fun mask =>
      List.filterMap_eq_nil_iff.mpr (List.forall_mem_map.mpr fun _ _ => rfl)
    simp only [Function.body, Function.copies]
    split
    · subst ‹entries = []›
      simp [distribute, roundRobin, share, BucketScatter.bucket]
    · unfold withContext
      rw [← copyOn_copySteps]
      split
      · rw [List.filterMap_append, List.filterMap_cons_none rfl, hrecord, List.append_nil]
      · rw [List.cons_append, List.filterMap_cons_none rfl, List.filterMap_append,
          List.filterMap_append, List.filterMap_cons_none rfl, hrecord, List.append_nil]
        exact List.append_nil _
  | waitCompletion =>
    refine List.filterMap_eq_nil_iff.mpr fun x hx => ?_
    rcases mem_waitCompletion hx with rfl | ⟨hx, -⟩
    · rfl
    · exact copyOn_of_neutral hx ch
  | recordEventOnLastStream e => rfl
  | makeStreamWaitOnAll st =>
    exact List.filterMap_eq_nil_iff.mpr fun x hx =>
      copyOn_of_neutral (neutral_makeStreamWaitOnAll n m st x hx) ch

theorem log_body (n : Nat) (m : CopyEngineManager α) (f : Function α) (ch : Nat) :
    (m.performAll (f.body n m)).device.log (.channel ch) =
      m.device.log (.channel ch) ++ (share (f.copies n m) ch).map .work := by
  rw [log_performAll, copyOn_body]

theorem consistent_neutral (hc : m.Consistent) {l : List (Step α)} (hl : ∀ x ∈ l, x.Neutral)
    (hs : ∀ x ∈ l, x.Sound n) : (m.performAll l).Consistent :=
  performAll_invariant (P := Consistent) (fun x hx _ h =>
    consistentBut_nil.mp (h.but.neutral (hl x hx) (hs x hx))) hc

/-- The copies of a submission break the invariant for its channels only. -/
theorem consistentBut_copySteps (hv : m.Valid n) (hc : m.Consistent) (entries : List α) (d : Nat) :
    (performAll { m with depth := d } (copySteps n m entries)).ConsistentBut
      (thisMask n m.nextChannel entries) := by
  have hn : 0 < n := Nat.zero_lt_of_lt hv.next_lt
  refine performAll_invariant (P := (·.ConsistentBut (thisMask n m.nextChannel entries)))
    (fun x hx m' h => ?_) (Consistent.but (m := { m with depth := d }) hc)
  rcases mem_copySteps hn hx with ⟨ch, hch, rfl⟩ | ⟨c, hc, rfl⟩
  · exact h.neutral (n := n) trivial hch
  · exact h.copy (mem_thisMask_of_distribute hn hv.next_lt hc) c.2

/-- **A function that returns without an error leaves the manager consistent.** -/
theorem consistent_body (hv : m.Valid n) (hc : m.Consistent) (f : Function α) :
    (m.performAll (f.body n m)).Consistent := by
  have hdepth : ∀ (m' : CopyEngineManager α) (d : Nat), m'.Consistent →
      Consistent { m' with depth := d } := fun _ _ h => h
  cases f with
  | submitScatterGather entries =>
    simp only [Function.body]
    split
    · exact hc
    · refine performAll_withContext (P := Consistent) hdepth fun d => ?_
      rw [performAll_append, performAll_cons]
      refine consistent_recordSteps ((consistentBut_copySteps hv hc entries d).neutral
        (n := n) trivial fun ch hch => List.mem_range.mp (List.mem_filter.mp hch).1) fun ch hch => ?_
      simp [Step.perform, hch]
  | waitCompletion =>
    intro ch i hi
    rw [log_body] at hi
    simp only [Function.copies, share, BucketScatter.bucket, List.filter_nil, List.map_nil,
      List.append_nil] at hi
    exact .inl (Nat.lt_of_lt_of_le hi (known_waitCompletion hv hc ch))
  | recordEventOnLastStream e =>
    exact consistent_neutral hc (List.forall_mem_singleton.mpr trivial) (sound_body hv _)
  | makeStreamWaitOnAll st =>
    exact consistent_neutral hc (neutral_makeStreamWaitOnAll n m st) (sound_body hv _)

/-! ## As the polling thread sees it -/

/-- The driver call of a call of the polling thread. -/
def ofCall : Call → Option (DriverCall Copy)
  | .copyAsync (.ce ch) c => some (.memcpyHtoDAsync ch c)
  | .eventRecord (.ce ch) (.ce c) => some (.eventRecord (.channel ch) c)
  | .eventSynchronize (.ce ch) => some (.eventSynchronize (.channel ch))
  | .streamWaitEvent .signal (.ce ch) => some (.streamWaitEvent 0 (.channel ch))
  | _ => none

def Step.driverCall : Step α → Option (DriverCall α)
  | .call d => some d
  | _ => none

/-- The thread has pinned the context, and its variables are the manager's. -/
structure Pinned (m : CopyEngineManager Copy) (p : Poller) : Prop where
  contextPinned : m.contextPinned = true
  nextChannel : p.nextChannel = m.nextChannel
  dirtyMask : p.dirtyMask = m.dirtyMask

variable {cfg : Config} {mc : CopyEngineManager Copy} {p : Poller}

theorem driverCalls_copySteps {entries : List α} :
    (copySteps n m entries).filterMap Step.driverCall =
      (distribute n m.nextChannel entries).map fun c => .memcpyHtoDAsync c.1 c.2 := by
  unfold copySteps distribute
  split
  · induction roundRobin n m.nextChannel entries with
    | nil => rfl
    | cons c l ih =>
      rw [List.flatMap_cons, List.filterMap_append, ih]
      rfl
  · rw [List.filterMap_append, List.map_flatMap, List.filterMap_flatMap]
    simp [Step.driverCall, Function.comp_def]

/-- **The polling thread's calls are the manager's**, in the order in which the manager makes them. -/
theorem driverCalls_submit (h : mc.Pinned p) (hv : mc.Valid cfg.channels) {cs : List Copy}
    (hs : Sized cfg.channels cs) : (cfg.submit p cs).filterMap ofCall =
      ((Function.submitScatterGather cs).body cfg.channels mc).filterMap Step.driverCall := by
  simp only [Config.submit, Function.body]
  split
  · rfl
  · rw [withContext, if_pos h.contextPinned, List.filterMap_append, List.filterMap_append,
      driverCalls_copySteps, distribute_eq hs cfg.channels_pos hv.next_lt,
      thisMask_eq hs cfg.channels_pos hv.next_lt, h.nextChannel, List.filterMap_cons_none rfl,
      List.filterMap_cons_none rfl]
    simp [Step.driverCall, ofCall, recordSteps, List.filterMap_map, Function.comp_def, List.map_map]

theorem driverCalls_waitCompletion (h : mc.Pinned p) :
    (cfg.waitCompletion p).filterMap ofCall =
      (Function.waitCompletion.body cfg.channels mc).filterMap Step.driverCall := by
  have hdirty : p.dirtyChannels cfg.channels = dirtyChannels cfg.channels mc := by
    rw [Poller.dirtyChannels, dirtyChannels, h.dirtyMask]
  simp only [Config.waitCompletion, Function.body, hdirty]
  split
  · simp_all [ofCall]
  · rw [withContext, if_pos h.contextPinned, List.filterMap_append, List.filterMap_append,
      List.filterMap_cons_none rfl, List.filterMap_cons_none rfl]
    simp [Step.driverCall, ofCall, List.filterMap_map, Function.comp_def]

theorem driverCalls_makeStreamWaitOnAll (h : mc.Pinned p) :
    (cfg.makeStreamWaitOnAll p .signal).filterMap ofCall =
      ((Function.makeStreamWaitOnAll 0).body cfg.channels mc).filterMap Step.driverCall := by
  have hdirty : p.dirtyChannels cfg.channels = dirtyChannels cfg.channels mc := by
    rw [Poller.dirtyChannels, dirtyChannels, h.dirtyMask]
  simp only [Config.makeStreamWaitOnAll, Function.body, hdirty]
  split
  · simp_all
  · rw [withContext, if_pos h.contextPinned, List.filterMap_flatMap, List.filterMap_flatMap]
    rfl

end CopyEngineManager
end Gfd
