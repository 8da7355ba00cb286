import Mathlib
import GfdProof.Descriptor
import GfdProof.Transition

/-! # The polling loop

`CpuPollingThread::polling_loop`, one shared access at a time.  The loop pops
committed descriptors in slot order into a partial batch, and hands the batch
to `flush_batch` when it is large enough, urgent, or when the next slot stays
empty; after `stop()` it drains what is committed and hands over the rest.

What happens to a batch is the business of a `Backend`: the loop calls
`flush_batch`, the work of an idle iteration, and the final flush, and waits
for each call to return (`busy`).  The backend's own steps — the calls'
progress and everything the device does meanwhile — interleave freely.

A step performs one load or store of shared memory together with the local
computation around it.  In particular `batch_count++`, `read++` and the store of
`read_idx` are one step.  Copying an entry into the batch is one step per field,
in any order.
-/
namespace Gfd

/-- What the polling loop calls.  `inTiles` says that a tiled or SG queue is set.
Calling a function puts the backend into the state in which the call runs;
`busy` until it returns. -/
structure Backend where
  State : Type
  Act : Type
  inTiles : Bool
  /-- `flush_batch(batch, batch_count, or_flags)`, with `cur_read = read_idx`. -/
  flush : State → List Descriptor → Nat → Nat → State
  /-- The branch of the loop taken when the queue and the batch are empty. -/
  idle : State → State
  /-- What `polling_loop` does after its last `flush_batch`. -/
  finish : State → State
  busy : State → Bool
  /-- `tile_events_inflight_ > 0`. -/
  eventsInflight : State → Bool
  act : State → Act → Option State

/-- A backend whose calls return at once. -/
def Backend.noop : Backend where
  State := Unit
  Act := Empty
  inTiles := true
  flush _ _ _ _ := ()
  idle _ := ()
  finish _ := ()
  busy _ := false
  eventsInflight _ := false
  act _ a := a.elim

/-- Where the polling thread is.  `drain` tells the drain loop from the main
loop. -/
inductive Pc
  /-- About to load `running_`. -/
  | top
  /-- About to load the sequence of the entry at `read`. -/
  | peek (drain : Bool)
  /-- Copying the entry; `todo` are the fields not loaded yet. -/
  | copy (drain : Bool) (todo : Finset Field) (got : Field → Nat)
  /-- About to load the flags for `or_flags`. -/
  | mergeFlags (got : Field → Nat)
  /-- About to store `sequence = 0`. -/
  | clear (drain : Bool) (got : Field → Nat)
  /-- About to store `read_idx`. -/
  | publish (drain : Bool) (got : Field → Nat)
  /-- About to load the sequence that closes the `do … while`. -/
  | next
  /-- In the gap wait, `spin` loads made. -/
  | gap (spin : Nat)
  /-- Inside `flush_batch` called from the main loop or the drain loop. -/
  | flushing (drain : Bool)
  /-- Inside the idle branch. -/
  | idling
  /-- In the idle branch, about to look for a new entry between event polls. -/
  | idleSeq
  /-- Inside the last `flush_batch`. -/
  | flushingLast
  /-- Past the last `flush_batch`. -/
  | finishing
  /-- Not running. -/
  | stopped

/-- The thread holds an entry it has not finished popping. -/
def Pc.popping : Pc → Bool
  | .copy .. | .mergeFlags _ | .clear .. | .publish .. => true
  | _ => false

/-- The call the thread is in: `flush_batch`, or another one. -/
def Pc.inCall : Pc → Option Bool
  | .flushing _ | .flushingLast => some true
  | .idling | .finishing => some false
  | _ => none

/-- The polling thread, the part of the queue it owns, and its backend.
`flushed` records the batches handed to `flush_batch`, with their `or_flags`. -/
structure Loop (B : Backend) where
  entries : Nat → Cell
  readIdx : Nat
  running : Bool
  pc : Pc
  batch : List Descriptor
  orFlags : Nat
  threshold : Nat
  backend : B.State
  flushed : List (List Descriptor × Nat)

namespace Loop

variable {B : Backend}

/-- `start()`ed over an empty queue. -/
def init (b : B.State) : Loop B where
  entries _ := Cell.zero
  readIdx := 0
  running := true
  pc := .top
  batch := []
  orFlags := 0
  threshold := batchThreshold
  backend := b
  flushed := []

/-- `queue_->entries[read % QUEUE_SIZE]`. -/
def entry (s : Loop B) : Cell := s.entries (s.readIdx % queueSize)

/-- `seq == expected_seq`. -/
def ready (s : Loop B) : Bool := s.entry.sequence == word (s.readIdx + 1)

/-- `adaptive_threshold` after the first descriptor of a batch. -/
def adapt (batch : List Descriptor) (threshold : Nat) : Nat :=
  match batch with
  | [d] => if d.size ≤ 2048 then min batchThresholdSmall maxBatchSize else batchThreshold
  | _ => threshold

/-- Call `flush_batch` and wait for it at `pc`. -/
def callFlush (s : Loop B) (pc : Pc) : Loop B :=
  { s with
    backend := B.flush s.backend s.batch s.orFlags s.readIdx
    flushed := s.flushed ++ [(s.batch, s.orFlags)]
    pc := pc }

/-- After the `do … while`: flush a full or urgent batch. -/
def afterPops (s : Loop B) : Loop B :=
  if s.threshold ≤ s.batch.length ∨
      hasFlag s.orFlags (flagLastInBatch ||| flagUrgent ||| flagLastInTile) then
    s.callFlush (.flushing false)
  else { s with pc := .top }

/-- Append the copied entry to the batch and publish `read_idx`. -/
def pop (s : Loop B) (got : Field → Nat) : Loop B :=
  let batch := s.batch ++ [Descriptor.ofFields s.readIdx got]
  { s with batch := batch, readIdx := s.readIdx + 1 }

/-- After `read_idx` is published in the main loop: leave the `do … while`, or go
on to the next entry. -/
def afterPublish (s : Loop B) : Loop B :=
  let s := { s with threshold := adapt s.batch s.threshold }
  if s.threshold ≤ s.batch.length ∨ maxBatchSize ≤ s.batch.length ∨
      (B.inTiles ∧ hasFlag s.orFlags flagLastInTile) then s.afterPops
  else { s with pc := .next }

/-- After `read_idx` is published in the drain loop. -/
def afterDrain (s : Loop B) : Loop B :=
  if maxBatchSize ≤ s.batch.length then s.callFlush (.flushing true) else { s with pc := .peek true }

/-- `flush_batch` has returned: it leaves `batch_count` and `or_flags` zero. -/
def returned (s : Loop B) (pc : Pc) : Loop B := { s with batch := [], orFlags := 0, pc := pc }

/-- Store to a field of a ring cell, by whoever. -/
def storeField (s : Loop B) (c : Nat) (f : Field) (v : Nat) : Loop B :=
  { s with
    entries := Function.update s.entries c
      { s.entries c with field := Function.update (s.entries c).field f v } }

/-- Store to the sequence of a ring cell, by whoever. -/
def storeSequence (s : Loop B) (c v : Nat) : Loop B :=
  { s with entries := Function.update s.entries c { s.entries c with sequence := v } }

/-- The polling thread's next step, `none` while it waits for a call to return
or is not running.  Loads of an entry's fields are steps of their own (`load`). -/
def poll (s : Loop B) : Option (Loop B) :=
  match s.pc with
  | .top => some { s with pc := .peek !s.running }
  | .peek false =>
    if s.ready then some { s with pc := .copy false Finset.univ fun _ => 0 }
    else if s.batch ≠ [] then some { s with pc := .gap 0 }
    else some { s with backend := B.idle s.backend, pc := .idling }
  | .peek true =>
    if s.ready then some { s with pc := .copy true Finset.univ fun _ => 0 }
    else if s.batch ≠ [] then some (s.callFlush .flushingLast)
    else some { s with backend := B.finish s.backend, pc := .finishing }
  | .copy drain todo got =>
    if todo = ∅ then some { s with pc := if drain then .clear true got else .mergeFlags got }
    else none
  | .mergeFlags got =>
    some { s with orFlags := s.orFlags ||| s.entry.field .flags, pc := .clear false got }
  | .clear drain got =>
    some { s.storeSequence (s.readIdx % queueSize) 0 with pc := .publish drain got }
  | .publish drain got => some (if drain then (s.pop got).afterDrain else (s.pop got).afterPublish)
  | .next =>
    some (if s.ready then { s with pc := .copy false Finset.univ fun _ => 0 } else s.afterPops)
  | .gap spin =>
    some (if s.ready then { s with pc := .top }
      else if spin + 1 < 4096 then { s with pc := .gap (spin + 1) }
      else s.callFlush (.flushing false))
  | .flushing drain =>
    if B.busy s.backend then none else some (s.returned (if drain then .peek true else .top))
  | .idling =>
    if B.busy s.backend then none
    else some { s with pc := if B.eventsInflight s.backend then .idleSeq else .top }
  | .idleSeq =>
    some (if s.ready then { s with pc := .top }
      else { s with backend := B.idle s.backend, pc := .idling })
  | .flushingLast =>
    if B.busy s.backend then none
    else some { s.returned .finishing with backend := B.finish s.backend }
  | .finishing => if B.busy s.backend then none else some { s with pc := .stopped }
  | .stopped => none

/-- The steps of the polling thread, its owner and its backend. -/
inductive Act (B : Backend)
  /-- `start()`, once the thread has been joined. -/
  | start
  /-- `stop()` clears `running_`. -/
  | stop
  | poll
  /-- Load field `f` while copying an entry. -/
  | load (f : Field)
  | backend (a : B.Act)

/-- One step. -/
def step (s : Loop B) : Act B → Option (Loop B)
  | .start =>
    match s.pc with
    | .stopped => some { s.returned .top with running := true, threshold := batchThreshold }
    | _ => none
  | .stop => some { s with running := false }
  | .poll => s.poll
  | .load f =>
    match s.pc with
    | .copy drain todo got =>
      if f ∈ todo then
        some { s with
          pc := .copy drain (todo.erase f) (Function.update got f (s.entry.field f)) }
      else none
    | _ => none
  | .backend a => (B.act s.backend a).map fun b => { s with backend := b }

/-- Everything popped so far, in order: the batches handed over, then the
partial batch.  While `flush_batch` runs, its batch has been handed over
already. -/
def popped (s : Loop B) : List Descriptor :=
  (s.flushed.map Prod.fst).flatten ++
    match s.pc with
    | .flushing _ | .flushingLast => []
    | _ => s.batch

/-! ## What one step does to the queue -/

/-- What a step does to the ring, the read index and the popped descriptors, by
the stage of the pop it is at. -/
inductive Effect (s t : Loop B) : Prop
  /-- Nothing, and the thread does not move. -/
  | stay (he : t.entries = s.entries) (hr : t.readIdx = s.readIdx) (hp : t.popped = s.popped)
      (hpc : t.pc = s.pc)
  /-- Nothing, and the thread moves between points outside a pop. -/
  | plain (he : t.entries = s.entries) (hr : t.readIdx = s.readIdx) (hp : t.popped = s.popped)
      (hs : s.pc.popping = false) (ht : t.pc.popping = false)
  | begin (drain : Bool) (he : t.entries = s.entries) (hr : t.readIdx = s.readIdx)
      (hp : t.popped = s.popped) (hready : s.ready = true) (hs : s.pc.popping = false)
      (ht : t.pc = .copy drain Finset.univ fun _ => 0)
  | load (drain : Bool) (todo : Finset Field) (got : Field → Nat) (f : Field)
      (he : t.entries = s.entries) (hr : t.readIdx = s.readIdx) (hp : t.popped = s.popped)
      (hs : s.pc = .copy drain todo got)
      (ht : t.pc = .copy drain (todo.erase f) (Function.update got f (s.entry.field f)))
  | copied (drain : Bool) (got : Field → Nat) (he : t.entries = s.entries)
      (hr : t.readIdx = s.readIdx) (hp : t.popped = s.popped) (hs : s.pc = .copy drain ∅ got)
      (ht : t.pc = if drain then .clear true got else .mergeFlags got)
  | merged (got : Field → Nat) (he : t.entries = s.entries) (hr : t.readIdx = s.readIdx)
      (hp : t.popped = s.popped) (hs : s.pc = .mergeFlags got) (ht : t.pc = .clear false got)
  | cleared (drain : Bool) (got : Field → Nat)
      (he : t.entries = (s.storeSequence (s.readIdx % queueSize) 0).entries)
      (hr : t.readIdx = s.readIdx) (hp : t.popped = s.popped) (hs : s.pc = .clear drain got)
      (ht : t.pc = .publish drain got)
  | published (drain : Bool) (got : Field → Nat) (he : t.entries = s.entries)
      (hr : t.readIdx = s.readIdx + 1)
      (hp : t.popped = s.popped ++ [Descriptor.ofFields s.readIdx got])
      (hs : s.pc = .publish drain got) (ht : t.pc.popping = false)

theorem popped_callFlush (s : Loop B) {pc : Pc} (hpc : pc = .flushingLast ∨ ∃ d, pc = .flushing d)
    (hs : s.popped = (s.flushed.map Prod.fst).flatten ++ s.batch) :
    (s.callFlush pc).popped = s.popped := by
  rw [hs]
  rcases hpc with rfl | ⟨d, rfl⟩ <;> simp [popped, callFlush]

theorem popped_of_not_flushing {s : Loop B} (h1 : ∀ d, s.pc ≠ .flushing d)
    (h2 : s.pc ≠ .flushingLast) : s.popped = (s.flushed.map Prod.fst).flatten ++ s.batch := by
  unfold popped
  split
  · exact absurd ‹_› (h1 _)
  · exact absurd ‹_› h2
  · rfl

theorem afterPops_spec (s : Loop B) (hs : s.popped = (s.flushed.map Prod.fst).flatten ++ s.batch) :
    s.afterPops.entries = s.entries ∧ s.afterPops.readIdx = s.readIdx ∧
      s.afterPops.popped = s.popped ∧ s.afterPops.pc.popping = false := by
  unfold afterPops
  split
  · exact ⟨rfl, rfl, popped_callFlush s (.inr ⟨_, rfl⟩) hs, rfl⟩
  · exact ⟨rfl, rfl, by rw [hs]; rfl, rfl⟩

theorem afterPublish_spec (s : Loop B)
    (hs : s.popped = (s.flushed.map Prod.fst).flatten ++ s.batch) :
    s.afterPublish.entries = s.entries ∧ s.afterPublish.readIdx = s.readIdx ∧
      s.afterPublish.popped = s.popped ∧ s.afterPublish.pc.popping = false := by
  unfold afterPublish
  dsimp only
  split
  · exact afterPops_spec { s with threshold := adapt s.batch s.threshold } hs
  · exact ⟨rfl, rfl, by rw [hs]; rfl, rfl⟩

theorem afterDrain_spec (s : Loop B) (hs : s.popped = (s.flushed.map Prod.fst).flatten ++ s.batch) :
    s.afterDrain.entries = s.entries ∧ s.afterDrain.readIdx = s.readIdx ∧
      s.afterDrain.popped = s.popped ∧ s.afterDrain.pc.popping = false := by
  unfold afterDrain
  split
  · exact ⟨rfl, rfl, popped_callFlush s (.inr ⟨_, rfl⟩) hs, rfl⟩
  · exact ⟨rfl, rfl, by rw [hs]; rfl, rfl⟩

theorem popped_of_popping {s : Loop B} (h : s.pc.popping = true) :
    s.popped = (s.flushed.map Prod.fst).flatten ++ s.batch := by
  refine popped_of_not_flushing (fun d hd => ?_) (fun hd => ?_) <;> rw [hd] at h <;> cases h

/-- The polling thread's own steps, by effect. -/
theorem poll_effect {s t : Loop B} (h : s.poll = some t) : Effect s t := by
  cases hpc : s.pc with
  | top =>
    simp only [poll, hpc, Option.some.injEq] at h
    subst h
    exact .plain rfl rfl (by simp [popped, hpc]) (by simp [hpc, Pc.popping]) rfl
  | peek drain =>
    have hp : s.popped = (s.flushed.map Prod.fst).flatten ++ s.batch :=
      popped_of_not_flushing (by simp [hpc]) (by simp [hpc])
    have hs : s.pc.popping = false := by simp [hpc, Pc.popping]
    cases drain <;> simp only [poll, hpc] at h <;> split at h
    · cases h; exact .begin false rfl rfl (by rw [hp]; rfl) ‹_› hs rfl
    · split at h <;> cases h <;> exact .plain rfl rfl (by rw [hp]; rfl) hs rfl
    · cases h; exact .begin true rfl rfl (by rw [hp]; rfl) ‹_› hs rfl
    · split at h <;> cases h
      · exact .plain rfl rfl (popped_callFlush s (.inl rfl) hp) hs rfl
      · exact .plain rfl rfl (by rw [hp]; rfl) hs rfl
  | copy drain todo got =>
    simp only [poll, hpc] at h
    split at h
    · rename_i htodo
      cases h
      refine .copied drain got rfl rfl ?_ (htodo ▸ hpc) rfl
      rw [popped_of_popping (s := s) (by simp [hpc, Pc.popping])]
      cases drain <;> rfl
    · cases h
  | mergeFlags got =>
    simp only [poll, hpc, Option.some.injEq] at h
    subst h
    exact .merged got rfl rfl (by simp [popped, hpc]) hpc rfl
  | clear drain got =>
    simp only [poll, hpc, Option.some.injEq] at h
    subst h
    exact .cleared drain got rfl rfl (by simp [popped, hpc, storeSequence]) hpc rfl
  | publish drain got =>
    have hp := popped_of_popping (s := s) (by simp [hpc, Pc.popping])
    have hpop : (s.pop got).popped = s.popped ++ [Descriptor.ofFields s.readIdx got] := by
      rw [hp]; simp [popped, pop, hpc]
    have hq : (s.pop got).popped =
        ((s.pop got).flushed.map Prod.fst).flatten ++ (s.pop got).batch :=
      popped_of_popping (by simp [pop, hpc, Pc.popping])
    simp only [poll, hpc, Option.some.injEq] at h
    subst h
    cases drain
    · obtain ⟨h1, h2, h3, h4⟩ := afterPublish_spec (s.pop got) hq
      exact .published false got h1 h2 (h3.trans hpop) hpc h4
    · obtain ⟨h1, h2, h3, h4⟩ := afterDrain_spec (s.pop got) hq
      exact .published true got h1 h2 (h3.trans hpop) hpc h4
  | next =>
    have hp : s.popped = (s.flushed.map Prod.fst).flatten ++ s.batch :=
      popped_of_not_flushing (by simp [hpc]) (by simp [hpc])
    have hs : s.pc.popping = false := by simp [hpc, Pc.popping]
    simp only [poll, hpc, Option.some.injEq] at h
    subst h
    split
    · exact .begin false rfl rfl (by rw [hp]; rfl) ‹_› hs rfl
    · obtain ⟨h1, h2, h3, h4⟩ := afterPops_spec s hp
      exact .plain h1 h2 h3 hs h4
  | gap spin =>
    have hp : s.popped = (s.flushed.map Prod.fst).flatten ++ s.batch :=
      popped_of_not_flushing (by simp [hpc]) (by simp [hpc])
    have hs : s.pc.popping = false := by simp [hpc, Pc.popping]
    simp only [poll, hpc, Option.some.injEq] at h
    subst h
    split
    · exact .plain rfl rfl (by rw [hp]; rfl) hs rfl
    · split
      · exact .plain rfl rfl (by rw [hp]; rfl) hs rfl
      · exact .plain rfl rfl (popped_callFlush s (.inr ⟨_, rfl⟩) hp) hs rfl
  | flushing drain =>
    simp only [poll, hpc] at h
    split at h
    · cases h
    · cases h
      refine .plain rfl rfl ?_ (by simp [hpc, Pc.popping]) (by cases drain <;> rfl)
      cases drain <;> simp [popped, hpc, returned]
  | idling =>
    have hp : s.popped = (s.flushed.map Prod.fst).flatten ++ s.batch :=
      popped_of_not_flushing (by simp [hpc]) (by simp [hpc])
    simp only [poll, hpc] at h
    split at h
    · cases h
    · cases h
      have hs : s.pc.popping = false := by simp [hpc, Pc.popping]
      cases B.eventsInflight s.backend <;> exact .plain rfl rfl (by rw [hp]; rfl) hs rfl
  | idleSeq =>
    have hp : s.popped = (s.flushed.map Prod.fst).flatten ++ s.batch :=
      popped_of_not_flushing (by simp [hpc]) (by simp [hpc])
    simp only [poll, hpc, Option.some.injEq] at h
    subst h
    split <;> exact .plain rfl rfl (by rw [hp]; rfl) (by simp [hpc, Pc.popping]) rfl
  | flushingLast =>
    simp only [poll, hpc] at h
    split at h
    · cases h
    · cases h
      exact .plain rfl rfl (by simp [popped, hpc, returned]) (by simp [hpc, Pc.popping]) rfl
  | finishing =>
    have hp : s.popped = (s.flushed.map Prod.fst).flatten ++ s.batch :=
      popped_of_not_flushing (by simp [hpc]) (by simp [hpc])
    simp only [poll, hpc] at h
    split at h
    · cases h
    · cases h; exact .plain rfl rfl (by rw [hp]; rfl) (by simp [hpc, Pc.popping]) rfl
  | stopped => simp [poll, hpc] at h

/-! ## The partial batch -/

/-- How full the partial batch can be, by where the thread is. -/
def BatchOk (s : Loop B) : Prop :=
  s.threshold ≤ batchThreshold ∧
    match s.pc with
    | .peek true | .copy true _ _ | .clear true _ | .publish true _ => s.batch.length < maxBatchSize
    | .flushing _ | .flushingLast => s.batch.length ≤ maxBatchSize
    | .idling | .idleSeq | .finishing | .stopped => s.batch = []
    | _ => s.batch = [] ∨ s.batch.length < s.threshold

theorem batchOk_init (b : B.State) : (init b).BatchOk := ⟨Nat.le_refl _, .inl rfl⟩

theorem adapt_le {batch : List Descriptor} {threshold : Nat} (h : threshold ≤ batchThreshold) :
    adapt batch threshold ≤ batchThreshold := by
  unfold adapt
  split
  · split <;> decide
  · exact h

/-- A batch in the main loop is short of the threshold, so there is room. -/
theorem main_length_lt {s : Loop B} (ht : s.threshold ≤ batchThreshold)
    (h : s.batch = [] ∨ s.batch.length < s.threshold) : s.batch.length < batchThreshold := by
  rcases h with h | h
  · rw [h]; decide
  · exact Nat.lt_of_lt_of_le h ht

theorem batchThreshold_lt : batchThreshold < maxBatchSize := by decide

theorem batchOk_afterPops {s : Loop B} (ht : s.threshold ≤ batchThreshold)
    (hl : s.batch.length ≤ maxBatchSize) : s.afterPops.BatchOk := by
  unfold afterPops
  split
  · exact ⟨ht, hl⟩
  · rename_i h
    exact ⟨ht, .inr (Nat.lt_of_not_le fun hle => h (.inl hle))⟩

theorem batchOk_afterPublish {s : Loop B} (ht : s.threshold ≤ batchThreshold)
    (hl : s.batch.length ≤ maxBatchSize) : s.afterPublish.BatchOk := by
  have ht' : adapt s.batch s.threshold ≤ batchThreshold := adapt_le ht
  unfold afterPublish
  dsimp only
  split
  · exact batchOk_afterPops ht' hl
  · rename_i h
    exact ⟨ht', .inr (Nat.lt_of_not_le fun hle => h (.inl hle))⟩

theorem batchOk_poll {s t : Loop B} (hs : s.BatchOk) (h : s.poll = some t) : t.BatchOk := by
  obtain ⟨ht, hb⟩ := hs
  have hroom := batchThreshold_lt
  cases hpc : s.pc with
  | top =>
    simp only [poll, hpc, Option.some.injEq] at h hb
    subst h
    refine ⟨ht, ?_⟩
    cases s.running
    · exact Nat.lt_trans (main_length_lt ht hb) hroom
    · exact hb
  | peek drain =>
    cases drain <;> simp only [poll, hpc] at h hb <;> split at h
    · cases h; exact ⟨ht, hb⟩
    · split at h <;> cases h
      · exact ⟨ht, hb⟩
      · exact ⟨ht, not_not.mp ‹_›⟩
    · cases h; exact ⟨ht, hb⟩
    · split at h <;> cases h
      · exact ⟨ht, Nat.le_of_lt hb⟩
      · exact ⟨ht, not_not.mp ‹_›⟩
  | copy drain todo got =>
    simp only [poll, hpc] at h
    split at h
    · cases h; cases drain <;> simp only [hpc] at hb <;> exact ⟨ht, hb⟩
    · cases h
  | mergeFlags got =>
    simp only [poll, hpc, Option.some.injEq] at h hb
    subst h
    exact ⟨ht, hb⟩
  | clear drain got =>
    simp only [poll, hpc, Option.some.injEq] at h
    subst h
    cases drain <;> simp only [hpc] at hb <;> exact ⟨ht, hb⟩
  | publish drain got =>
    simp only [poll, hpc, Option.some.injEq] at h
    subst h
    have hlen : (s.pop got).batch.length = s.batch.length + 1 := by simp [pop]
    cases drain <;> simp only [hpc] at hb
    · have := main_length_lt ht hb
      exact batchOk_afterPublish (s := s.pop got) ht (by omega)
    · show (s.pop got).afterDrain.BatchOk
      unfold afterDrain
      split
      · exact ⟨ht, show (s.pop got).batch.length ≤ maxBatchSize by omega⟩
      · exact ⟨ht, Nat.lt_of_not_le ‹_›⟩
  | next =>
    simp only [poll, hpc, Option.some.injEq] at h hb
    subst h
    split
    · exact ⟨ht, hb⟩
    · exact batchOk_afterPops ht (Nat.le_of_lt (Nat.lt_trans (main_length_lt ht hb) hroom))
  | gap spin =>
    simp only [poll, hpc, Option.some.injEq] at h hb
    subst h
    split
    · exact ⟨ht, hb⟩
    · split
      · exact ⟨ht, hb⟩
      · exact ⟨ht, Nat.le_of_lt (Nat.lt_trans (main_length_lt ht hb) hroom)⟩
  | flushing drain =>
    simp only [poll, hpc] at h
    split at h
    · cases h
    · cases h
      cases drain
      · exact ⟨ht, .inl rfl⟩
      · exact ⟨ht, show 0 < maxBatchSize by decide⟩
  | idling =>
    simp only [poll, hpc] at h hb
    split at h
    · cases h
    · cases h
      cases B.eventsInflight s.backend <;> exact ⟨ht, by simp [hb]⟩
  | idleSeq =>
    simp only [poll, hpc, Option.some.injEq] at h hb
    subst h
    split
    · exact ⟨ht, .inl hb⟩
    · exact ⟨ht, hb⟩
  | flushingLast =>
    simp only [poll, hpc] at h
    split at h
    · cases h
    · cases h; exact ⟨ht, rfl⟩
  | finishing =>
    simp only [poll, hpc] at h hb
    split at h
    · cases h
    · cases h; exact ⟨ht, hb⟩
  | stopped => simp [poll, hpc] at h

theorem batchOk_step {s t : Loop B} {a : Act B} (hs : s.BatchOk) (h : s.step a = some t) :
    t.BatchOk := by
  cases a with
  | start =>
    simp only [step] at h
    split at h
    · cases h; exact ⟨Nat.le_refl _, .inl rfl⟩
    · cases h
  | stop => cases h; exact hs
  | poll => exact batchOk_poll hs h
  | load f =>
    simp only [step] at h
    split at h
    · rename_i drain todo got hpc
      split at h
      · cases h
        obtain ⟨ht, hb⟩ := hs
        cases drain <;> simp only [hpc] at hb <;> exact ⟨ht, hb⟩
      · cases h
    · cases h
  | backend b =>
    obtain ⟨b', -, rfl⟩ := Option.map_eq_some_iff.mp h
    exact hs

/-- `batch_count` never exceeds `MAX_BATCH_SIZE`. -/
theorem BatchOk.length_le {s : Loop B} (h : s.BatchOk) : s.batch.length ≤ maxBatchSize := by
  obtain ⟨ht, hb⟩ := h
  have hroom := batchThreshold_lt
  split at hb
  all_goals first
    | exact Nat.le_of_lt hb
    | exact hb
    | (rw [hb]; exact Nat.zero_le _)
    | exact Nat.le_of_lt (Nat.lt_trans (main_length_lt ht hb) hroom)

/-- Every step, by effect. -/
theorem step_effect {s t : Loop B} {a : Act B} (hs : s.BatchOk) (h : s.step a = some t) :
    Effect s t := by
  cases a with
  | start =>
    simp only [step] at h
    split at h
    · rename_i hpc
      cases h
      have hb : s.batch = [] := by have := hs.2; rwa [hpc] at this
      exact .plain rfl rfl (by simp [popped, returned, hpc, hb]) (by simp [hpc, Pc.popping]) rfl
    · cases h
  | stop => cases h; exact .stay rfl rfl rfl rfl
  | poll => exact poll_effect h
  | load f =>
    simp only [step] at h
    split at h
    · rename_i drain todo got hpc
      split at h
      · cases h
        exact .load drain todo got f rfl rfl (by simp [popped, hpc]) hpc rfl
      · cases h
    · cases h
  | backend b =>
    obtain ⟨b', -, rfl⟩ := Option.map_eq_some_iff.mp h
    exact .stay rfl rfl rfl rfl

theorem Effect.readIdx_le {s t : Loop B} (h : Effect s t) : s.readIdx ≤ t.readIdx := by
  cases h <;> omega

theorem readIdx_le {s t : Loop B} {a : Act B} (h : s.step a = some t) : s.readIdx ≤ t.readIdx := by
  cases a with
  | start =>
    simp only [step] at h
    split at h
    · cases h; exact Nat.le_refl _
    · cases h
  | stop => cases h; exact Nat.le_refl _
  | poll => exact (poll_effect h).readIdx_le
  | load f =>
    simp only [step] at h
    split at h
    · split at h
      · cases h; exact Nat.le_refl _
      · cases h
    · cases h
  | backend b =>
    obtain ⟨b', -, rfl⟩ := Option.map_eq_some_iff.mp h
    exact Nat.le_refl _

@[simp] theorem afterPublish_readIdx (s : Loop B) : s.afterPublish.readIdx = s.readIdx := by
  unfold afterPublish afterPops
  dsimp only
  split
  · split <;> rfl
  · rfl

/-- The last descriptor of a tile ends its batch. -/
theorem afterPublish_lastInTile {s : Loop B} (hB : B.inTiles = true)
    (hf : hasFlag s.orFlags flagLastInTile = true) :
    s.afterPublish =
      callFlush { s with threshold := adapt s.batch s.threshold } (.flushing false) := by
  simp [afterPublish, afterPops, hB, hf, hasFlag_mask_or]

/-! ## What one step asks of the backend -/

/-- What a step of the polling thread asks of its backend. -/
inductive Calls (s t : Loop B) : Prop
  /-- Nothing, or the call it was in has returned. -/
  | plain (hb : t.backend = s.backend) (hf : t.flushed = s.flushed) (ht : t.pc.inCall = none)
      (hs : s.pc.inCall = none ∨ B.busy s.backend = false)
  | flush (hb : t.backend = B.flush s.backend t.batch t.orFlags t.readIdx)
      (hf : t.flushed = s.flushed ++ [(t.batch, t.orFlags)]) (hne : t.batch ≠ [])
      (ht : t.pc.inCall = some true) (hs : s.pc.inCall = none)
  | idle (hb : t.backend = B.idle s.backend) (hf : t.flushed = s.flushed) (hbatch : t.batch = [])
      (ht : t.pc.inCall = some false) (hs : s.pc.inCall = none)
  | finish (hb : t.backend = B.finish s.backend) (hf : t.flushed = s.flushed)
      (hbatch : t.batch = []) (ht : t.pc.inCall = some false)
      (hs : s.pc.inCall = none ∨ B.busy s.backend = false)

theorem calls_callFlush {s u : Loop B} {pc : Pc} (hb : u.backend = s.backend)
    (hf : u.flushed = s.flushed) (hne : u.batch ≠ []) (hpc : pc.inCall = some true)
    (hs : s.pc.inCall = none) : Calls s (u.callFlush pc) :=
  .flush (by rw [← hb]; rfl) (by rw [← hf]; rfl) hne hpc hs

theorem calls_afterPops {s u : Loop B} (hb : u.backend = s.backend) (hf : u.flushed = s.flushed)
    (hne : u.batch ≠ []) (hs : s.pc.inCall = none) : Calls s u.afterPops := by
  unfold afterPops
  split
  · exact calls_callFlush hb hf hne rfl hs
  · exact .plain hb hf rfl (.inl hs)

theorem calls_afterPublish {s u : Loop B} (hb : u.backend = s.backend) (hf : u.flushed = s.flushed)
    (hne : u.batch ≠ []) (hs : s.pc.inCall = none) : Calls s u.afterPublish := by
  unfold afterPublish
  dsimp only
  split
  · exact calls_afterPops (u := { u with threshold := adapt u.batch u.threshold }) hb hf hne hs
  · exact .plain hb hf rfl (.inl hs)

/-- The partial batch is not empty where the thread is about to flush it. -/
def Filled (s : Loop B) : Prop :=
  match s.pc with
  | .next | .gap _ | .flushing _ | .flushingLast => s.batch ≠ []
  | _ => True

theorem poll_calls {s t : Loop B} (hs : s.Filled) (hb : s.BatchOk) (h : s.poll = some t) :
    Calls s t ∧ t.Filled := by
  have hbatch := hb.2
  unfold Filled at hs
  cases hpc : s.pc with
  | top =>
    simp only [poll, hpc, Option.some.injEq] at h
    subst h
    exact ⟨.plain rfl rfl rfl (.inl (by simp [hpc, Pc.inCall])), trivial⟩
  | peek drain =>
    have hc : s.pc.inCall = none := by simp [hpc, Pc.inCall]
    cases drain <;> simp only [poll, hpc] at h <;> split at h
    · cases h; exact ⟨.plain rfl rfl rfl (.inl hc), trivial⟩
    · split at h
      · rename_i hne
        cases h; exact ⟨.plain rfl rfl rfl (.inl hc), hne⟩
      · rename_i hnil
        cases h; exact ⟨.idle rfl rfl (not_not.mp hnil) rfl hc, trivial⟩
    · cases h; exact ⟨.plain rfl rfl rfl (.inl hc), trivial⟩
    · split at h
      · rename_i hne
        cases h; exact ⟨calls_callFlush rfl rfl hne rfl hc, hne⟩
      · rename_i hnil
        cases h; exact ⟨.finish rfl rfl (not_not.mp hnil) rfl (.inl hc), trivial⟩
  | copy drain todo got =>
    simp only [poll, hpc] at h
    split at h
    · cases h
      refine ⟨.plain rfl rfl ?_ (.inl (by simp [hpc, Pc.inCall])), ?_⟩ <;> cases drain <;> trivial
    · cases h
  | mergeFlags got =>
    simp only [poll, hpc, Option.some.injEq] at h
    subst h
    exact ⟨.plain rfl rfl rfl (.inl (by simp [hpc, Pc.inCall])), trivial⟩
  | clear drain got =>
    simp only [poll, hpc, Option.some.injEq] at h
    subst h
    exact ⟨.plain rfl rfl rfl (.inl (by simp [hpc, Pc.inCall])), trivial⟩
  | publish drain got =>
    simp only [poll, hpc, Option.some.injEq] at h
    subst h
    have hc : s.pc.inCall = none := by simp [hpc, Pc.inCall]
    have hne : (s.pop got).batch ≠ [] := by simp [pop]
    cases drain
    · refine ⟨calls_afterPublish rfl rfl hne hc, ?_⟩
      show (s.pop got).afterPublish.Filled
      unfold afterPublish afterPops
      dsimp only
      split
      · split
        · exact hne
        · trivial
      · exact hne
    · show Calls s (s.pop got).afterDrain ∧ (s.pop got).afterDrain.Filled
      unfold afterDrain
      split
      · exact ⟨calls_callFlush rfl rfl hne rfl hc, hne⟩
      · exact ⟨.plain rfl rfl rfl (.inl hc), trivial⟩
  | next =>
    simp only [poll, hpc, Option.some.injEq] at h hs
    subst h
    have hc : s.pc.inCall = none := by simp [hpc, Pc.inCall]
    split
    · exact ⟨.plain rfl rfl rfl (.inl hc), trivial⟩
    · refine ⟨calls_afterPops rfl rfl hs hc, ?_⟩
      unfold afterPops
      split
      · exact hs
      · trivial
  | gap spin =>
    simp only [poll, hpc, Option.some.injEq] at h hs
    subst h
    have hc : s.pc.inCall = none := by simp [hpc, Pc.inCall]
    split
    · exact ⟨.plain rfl rfl rfl (.inl hc), trivial⟩
    · split
      · exact ⟨.plain rfl rfl rfl (.inl hc), hs⟩
      · exact ⟨calls_callFlush rfl rfl hs rfl hc, hs⟩
  | flushing drain =>
    simp only [poll, hpc] at h
    split at h
    · cases h
    · rename_i hbusy
      cases h
      refine ⟨.plain rfl rfl ?_ (.inr (by simpa using hbusy)), ?_⟩ <;> cases drain <;> trivial
  | idling =>
    simp only [poll, hpc] at h
    split at h
    · cases h
    · rename_i hbusy
      cases h
      refine ⟨.plain rfl rfl ?_ (.inr (by simpa using hbusy)), ?_⟩ <;>
        cases B.eventsInflight s.backend <;> trivial
  | idleSeq =>
    simp only [poll, hpc, Option.some.injEq] at h hbatch
    subst h
    have hc : s.pc.inCall = none := by simp [hpc, Pc.inCall]
    split
    · exact ⟨.plain rfl rfl rfl (.inl hc), trivial⟩
    · exact ⟨.idle rfl rfl hbatch rfl hc, trivial⟩
  | flushingLast =>
    simp only [poll, hpc] at h
    split at h
    · cases h
    · rename_i hbusy
      cases h
      exact ⟨.finish rfl rfl rfl rfl (.inr (by simpa using hbusy)), trivial⟩
  | finishing =>
    simp only [poll, hpc] at h
    split at h
    · cases h
    · rename_i hbusy
      cases h
      exact ⟨.plain rfl rfl rfl (.inr (by simpa using hbusy)), trivial⟩
  | stopped => simp [poll, hpc] at h

/-- The thread comes to its end through the last call, and stops when that has returned. -/
theorem poll_ends {s t : Loop B} (h : s.poll = some t) :
    (t.pc = .finishing → t.backend = B.finish s.backend) ∧
      (t.pc = .stopped → s.pc = .finishing ∧ B.busy s.backend = false ∧ t.backend = s.backend ∧
        t.flushed = s.flushed) := by
  have pops : ∀ u : Loop B, u.afterPops.pc ≠ .finishing ∧ u.afterPops.pc ≠ .stopped := fun u => by
    unfold afterPops
    split <;> exact ⟨nofun, nofun⟩
  cases hpc : s.pc with
  | publish drain got =>
    simp only [poll, hpc, Option.some.injEq] at h
    subst h
    cases drain
    · rw [if_neg Bool.false_ne_true]
      unfold afterPublish
      dsimp only
      split
      · exact ⟨fun ht => absurd ht (pops _).1, fun ht => absurd ht (pops _).2⟩
      · exact ⟨nofun, nofun⟩
    · rw [if_pos rfl]
      unfold afterDrain
      split <;> exact ⟨nofun, nofun⟩
  | next =>
    simp only [poll, hpc, Option.some.injEq] at h
    subst h
    split
    · exact ⟨nofun, nofun⟩
    · exact ⟨fun ht => absurd ht (pops _).1, fun ht => absurd ht (pops _).2⟩
  | finishing =>
    simp only [poll, hpc] at h
    split at h
    · cases h
    · rename_i hbusy
      cases h
      exact ⟨nofun, fun _ => ⟨rfl, by simpa using hbusy, rfl, rfl⟩⟩
  | flushingLast =>
    simp only [poll, hpc] at h
    split at h
    · cases h
    · cases h
      exact ⟨fun _ => rfl, nofun⟩
  | peek drain =>
    cases drain <;> simp only [poll, hpc] at h <;> split at h
    · cases h; exact ⟨nofun, nofun⟩
    · split at h <;> cases h <;> exact ⟨nofun, nofun⟩
    · cases h; exact ⟨nofun, nofun⟩
    · split at h <;> cases h
      · exact ⟨nofun, nofun⟩
      · exact ⟨fun _ => rfl, nofun⟩
  | flushing drain =>
    simp only [poll, hpc] at h
    split at h
    · cases h
    · cases h
      cases drain <;> exact ⟨nofun, nofun⟩
  | idling =>
    simp only [poll, hpc] at h
    split at h
    · cases h
    · cases h
      dsimp only
      split <;> exact ⟨nofun, nofun⟩
  | copy drain todo got =>
    simp only [poll, hpc] at h
    split at h
    · cases h
      cases drain <;> exact ⟨nofun, nofun⟩
    · cases h
  | gap spin =>
    simp only [poll, hpc, Option.some.injEq] at h
    subst h
    split
    · exact ⟨nofun, nofun⟩
    · split <;> exact ⟨nofun, nofun⟩
  | idleSeq =>
    simp only [poll, hpc, Option.some.injEq] at h
    subst h
    split <;> exact ⟨nofun, nofun⟩
  | top | mergeFlags | clear =>
    simp only [poll, hpc, Option.some.injEq] at h
    subst h
    exact ⟨nofun, nofun⟩
  | stopped => simp [poll, hpc] at h

theorem filled_step {s t : Loop B} {a : Act B} (hs : s.Filled) (hb : s.BatchOk)
    (h : s.step a = some t) : t.Filled := by
  cases a with
  | start =>
    simp only [step] at h
    split at h
    · cases h; trivial
    · cases h
  | stop => cases h; exact hs
  | poll => exact (poll_calls hs hb h).2
  | load f =>
    simp only [step] at h
    split at h
    · split at h
      · cases h; trivial
      · cases h
    · cases h
  | backend b =>
    obtain ⟨b', -, rfl⟩ := Option.map_eq_some_iff.mp h
    exact hs

end Loop
end Gfd
