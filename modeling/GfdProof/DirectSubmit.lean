import GfdProof.CopyEngineRuns
import GfdProof.EntryMoves
import GfdProof.GatherCalls

/-! # `submit_direct`

The direct submission path: one thread that submits entries without the queue,
through a copy engine manager of its own, and through the staging buffers and the
gather workers.  Between two of its steps the channels perform queued copies and
the workers take their steps (`Gather.step`); a copy reads its source when it is
performed.

Host memory is typed: the user's memory and the staging buffers are apart from one
another and from the destination memory.  Sizes and addresses are 64-bit words.
The roundings of the chunk sizes are those of `int`, except that `parallel_gather`
rounds in the natural numbers, which is the same below `2^31` (`Exact`).
-/
namespace Gfd.Direct

open CopyEngineManager (Sized)

/-! ## State -/

/-- What is set up before the first submission: the channels of `direct_ce_manager_`, the staging
buffers and `active_gather_workers_`. -/
structure Config where
  channels : Nat
  staging : Staging
  workers : Nat
  channels_pos : 0 < channels
  channels_le : channels ≤ maxCeChannels
  bufs_le : staging.bufs ≤ numStagingBufs

/-- The arguments of a call to `parallel_gather`. -/
structure GatherCall where
  entries : List SGEntry
  buf : Nat
  minDst : Nat

/-- The submitting thread, with the memory and the workers it uses.  `gathers` are the calls to
`parallel_gather` so far, and `submitted` the calls to `submit_direct`. -/
structure Submitter where
  manager : CopyEngineManager SGEntry
  gather : Gather.State
  gathers : List GatherCall
  stagingEventPending : Nat → Bool
  user : Nat → UInt8
  staging : Nat → Nat → UInt8
  gpu : Nat → UInt8
  submitted : List (List SGEntry)

/-- Nothing submitted yet, over arbitrary memory. -/
def Submitter.init (depth : Nat) (pending : Nat → Bool) (user : Nat → UInt8)
    (staging : Nat → Nat → UInt8) (gpu : Nat → UInt8) : Submitter where
  manager := .init false depth
  gather := Gather.init
  gathers := []
  stagingEventPending := pending
  user := user
  staging := staging
  gpu := gpu
  submitted := []

namespace Submitter

/-- The byte at a host pointer. -/
def byte (s : Submitter) : HostPtr → UInt8
  | .user a => s.user a
  | .staging b off => s.staging b off

/-- `memcpy(staging_bufs_[b] + (e.dst - min_dst), e.src, e.size)` -/
def stage (s : Submitter) (b minDst : Nat) (e : SGEntry) : Submitter :=
  let offset := subWord e.dst minDst
  { s with staging := Function.update s.staging b fun i =>
      if offset ≤ i ∧ i < offset + e.size then s.byte (e.src.plus (i - offset)) else s.staging b i }

/-- The copy of entry `x.2` of gather call `x.1`. -/
def stageTask (s : Submitter) (x : Nat × Nat) : Submitter :=
  match s.gathers[x.1]? with
  | none => s
  | some g => match g.entries[x.2]? with
    | none => s
    | some e => s.stage g.buf g.minDst e

/-- A step of the gather, with the copies it makes. -/
def gathered (s : Submitter) (g : Gather.State) : Submitter :=
  { (g.log.drop s.gather.log.length).foldl stageTask s with gather := g }

end Submitter

/-- A channel performs its next item, or a worker takes a step. -/
inductive Env
  | advance (ch : Nat)
  | work (w : Nat)
  deriving DecidableEq, Repr

def Config.env (cfg : Config) (s : Submitter) : Env → Option Submitter
  | .advance ch =>
    if s.manager.device.runnable (.channel ch) then
      let t := { s with
        manager := { s.manager with device := s.manager.device.advance (.channel ch) } }
      match s.manager.device.next (.channel ch) with
      | some (.work e) => some { t with gpu := writeMoves s.byte s.gpu e.moves }
      | _ => some t
    else none
  | .work w => (Gather.step cfg.workers s.gather (.work w)).map s.gathered

/-! ## The calls -/

inductive Call
  | submitDirect (entries : List SGEntry)
  | pinContext
  | unpinContext
  /-- A function of `direct_ce_manager_`. -/
  | function (f : CopyEngineManager.Function SGEntry)
  | step (x : CopyEngineManager.Step SGEntry)
  | parallelGather (entries : List SGEntry) (b minDst : Nat)
  /-- The dispatcher of the gather goes on. -/
  | dispatch
  | memcpy (b minDst : Nat) (e : SGEntry)
  /-- Wait for the event of staging buffer `b`, if it is pending. -/
  | stagingWait (b : Nat)
  | setPending (b : Nat) (pending : Bool)

/-- `dst_contiguous` -/
def dstContiguous : List SGEntry → Bool
  | [] => true
  | [_] => true
  | e :: e' :: es => e.dContig e' && dstContiguous (e' :: es)

/-- `total_size`, or the size of a chunk. -/
def sizeOf (es : List SGEntry) : Nat := word (totalSize es)

/-- One entry from the first destination on. -/
def single (es : List SGEntry) (src : HostPtr) : SGEntry := ⟨(es.headD default).dst, src, sizeOf es⟩

def pipelineMinEntries : Nat := 512
def pipelineChunks : Nat := 3

/-- `num_chunks` -/
def Config.numChunks (cfg : Config) : Nat := min pipelineChunks cfg.staging.bufs

/-- The non-empty chunks of the pipeline, each with its number. -/
def Config.chunks (cfg : Config) (es : List SGEntry) : List (Nat × List SGEntry) :=
  CopyEngineManager.chunks cfg.numChunks es

/-- What becomes of the entries of a call. -/
inductive Strategy
  | merged
  | pipelined
  | parallel
  | serial
  | raw
  deriving DecidableEq, Repr

def Config.strategy (cfg : Config) (es : List SGEntry) : Strategy :=
  if dstContiguous es ∧ srcContiguous es ∧ 1 < es.length then .merged
  else if dstContiguous es ∧ ¬ srcContiguous es ∧ 0 < cfg.staging.bufs ∧
      sizeOf es ≤ cfg.staging.size then
    if pipelineMinEntries ≤ es.length ∧ 2 ≤ cfg.staging.bufs ∧ 0 < cfg.workers then .pipelined
    else if 64 ≤ es.length ∧ 0 < cfg.workers then .parallel
    else .serial
  else .raw

/-- One chunk of the pipeline: gather it into its staging buffer, and submit what lies there. -/
def Config.chunkCalls (cfg : Config) (c : Nat × List SGEntry) : List Call :=
  let b := c.1 % cfg.staging.bufs
  (if cfg.staging.bufs ≤ c.1 then [.stagingWait b] else []) ++
    [.parallelGather c.2 b (c.2.headD default).dst,
      .function (.submitScatterGather [single c.2 (.staging b 0)])] ++
    (if c.1 + 1 < cfg.numChunks then
      [.function (.recordEventOnLastStream b), .setPending b true] else [])

/-- The submissions of a call, with what they need gathered first. -/
def Config.transfer (cfg : Config) (es : List SGEntry) : List Call :=
  let d := (es.headD default).dst
  match cfg.strategy es with
  | .merged => [.function (.submitScatterGather [single es (es.headD default).src])]
  | .pipelined => (cfg.chunks es).flatMap cfg.chunkCalls
  | .parallel =>
    [.parallelGather es 0 d, .function (.submitScatterGather [single es (.staging 0 0)])]
  | .serial =>
    es.map (.memcpy 0 d) ++ [.function (.submitScatterGather [single es (.staging 0 0)])]
  | .raw => [.function (.submitScatterGather es)]

/-- `submit_direct`; without entries it returns at once. -/
def Config.submitDirect (cfg : Config) (es : List SGEntry) : List Call :=
  if es = [] then []
  else
    .pinContext :: cfg.transfer es ++ .function .waitCompletion ::
      (List.range cfg.staging.bufs).map (.setPending · false) ++ [.unpinContext]

/-- What performing a call does. -/
def Config.perform (cfg : Config) (s : Submitter) : Call → Option (Submitter × List Call)
  | .submitDirect es => some ({ s with submitted := s.submitted ++ [es] }, cfg.submitDirect es)
  | .pinContext =>
    if s.manager.contextPinned then some (s, [])
    else some ({ s with
      manager := { s.manager with contextPinned := true, depth := s.manager.depth + 1 } }, [])
  | .unpinContext =>
    if s.manager.contextPinned then some ({ s with
      manager := { s.manager with contextPinned := false, depth := s.manager.depth - 1 } }, [])
    else some (s, [])
  | .function f => some (s, (f.body cfg.channels s.manager).map .step)
  | .step x =>
    if x.blocked s.manager then none else some ({ s with manager := x.perform s.manager }, [])
  | .parallelGather es b minDst =>
    (Gather.step cfg.workers s.gather (.call es.length)).map fun g =>
      ({ s with gather := g, gathers := s.gathers ++ [⟨es, b, minDst⟩] }, [.dispatch])
  | .dispatch =>
    (Gather.step cfg.workers s.gather .dispatch).map fun g =>
      (s.gathered g, if g.dispatcher = .idle then [] else [.dispatch])
  | .memcpy b minDst e => some (s.stage b minDst e, [])
  | .stagingWait b =>
    some (s, if s.stagingEventPending b then
      [.step (.call (.eventSynchronize (.caller b))), .setPending b false] else [])
  | .setPending b pending =>
    some ({ s with stagingEventPending := Function.update s.stagingEventPending b pending }, [])

def Config.machine (cfg : Config) : Script.Machine Submitter Call Env := ⟨cfg.perform, cfg.env⟩

/-! ## What a submission asks for -/

/-- What the caller's pointers point to. -/
def userByte (user : Nat → UInt8) : HostPtr → UInt8
  | .user a => user a
  | .staging _ _ => 0

/-- Copy each entry by itself. -/
def deliver (byte : HostPtr → UInt8) (mem : Nat → UInt8) (es : List SGEntry) : Nat → UInt8 :=
  es.foldl (fun m e => writeMoves byte m e.moves) mem

/-- What the memory becomes when each entry submitted so far is copied by itself. -/
def Submitter.expected (mem : Nat → UInt8) (s : Submitter) : Nat → UInt8 :=
  s.submitted.foldl (deliver (userByte s.user)) mem

/-- A destination byte of an entry. -/
def Reaches (e : SGEntry) (a : Nat) : Prop := ∃ k < e.size, a = word (e.dst + k)

/-- The entries a caller may submit: they read the user's memory, end below `2^64` and reach
no byte twice. -/
structure Deliverable (es : List SGEntry) : Prop where
  source : ∀ e ∈ es, ∃ a, e.src = .user a ∧ a + e.size < wordSize
  dst_lt : ∀ e ∈ es, e.dst + e.size < wordSize
  disjoint : es.Pairwise fun e e' => ∀ a, Reaches e a → ¬ Reaches e' a

/-- The roundings of the strategy stay below `2^31`. -/
def Config.Exact (cfg : Config) (es : List SGEntry) : Prop :=
  match cfg.strategy es with
  | .merged | .serial => True
  | .pipelined => Sized cfg.numChunks es ∧ ∀ c ∈ cfg.chunks es, c.2.length + cfg.workers < 2 ^ 31
  | .parallel => es.length + cfg.workers < 2 ^ 31
  | .raw => es.length ≤ cfg.channels ∨ Sized cfg.channels es

/-- A queued copy that has not been performed. -/
def Submitter.Pending (s : Submitter) (e : SGEntry) : Prop :=
  ∃ ch i, s.manager.device.done (.channel ch) ≤ i ∧ s.manager.device.WorkAt (.channel ch) i e

/-- The entry reads staging buffer `b`. -/
def ReadsBuf (e : SGEntry) (b : Nat) : Prop := ∃ off, e.src = .staging b off

/-- What `submit_direct` promises. -/
structure Delivers (cfg : Config) (mem : Nat → UInt8) (s : Script.State Submitter Call) : Prop where
  /-- When it has returned, the memory is as if each entry had been copied by itself. -/
  returned : s.todo = [] → s.data.gpu = s.data.expected mem
  /-- The chunks of a pipeline are the entries cut into pieces. -/
  chunks : ∀ es ∈ s.data.submitted, cfg.strategy es = .pipelined →
    (cfg.chunks es).flatMap Prod.snd = es
  /-- Whatever is stored into a staging buffer is stored inside it, and no copy that is still to be
  performed reads it. -/
  stores : ∀ a t, cfg.machine.drive s a = some t → ∀ b i,
    t.data.staging b i ≠ s.data.staging b i →
      b < cfg.staging.bufs ∧ i < cfg.staging.size ∧ ∀ e, s.data.Pending e → ¬ ReadsBuf e b

end Gfd.Direct
