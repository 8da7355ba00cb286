import Mathlib
import GfdProof.SgBlock
import GfdProof.SlotRing

/-! # The scatter-gather task queue

`SGTaskQueue` with everyone who uses it: the blocks of the kernel, the threads
that submit lists — GPU warps through `sg_submit_list`, among them the compute
functors of the blocks, and the host through `submit_sg_list` — the host in
`synchronize`, and the polling thread, which completes lists.  One step is one
access to the queue.

A submission takes a range of the entry pool, writes its entries there, takes an
index of the list ring, writes the header and commits it with the sequence.  A
GPU warp first waits for space and takes range and index with an `atomicAdd`
each; the host takes them with a load and a store, and does not wait.

What the blocks read of the descriptor ring, and when `d_list_done` is written,
is left open here: any value at any time.  So is when the polling thread counts a
list in `lists_completed`; it does so at most once, for a list that some block
has turned to.
-/
namespace Gfd.Sg

open Transition

def maxSgPoolEntries : Nat := 16384

instance : Fintype EntryField where
  elems := {.srcAddr, .dstAddr, .size, .tag}
  complete f := by cases f <;> simp

/-- An `SGList` of the ring. -/
structure ListCell where
  header : Header
  sequence : Nat

/-- `SGTaskQueue`. -/
structure TaskQueue where
  lists : Nat → ListCell
  entries : Nat → EntryField → Nat
  listAllocIdx : Nat
  entryAllocIdx : Nat
  listReadIdx : Nat
  entryConsumedIdx : Nat
  listsCompleted : Nat
  terminate : Bool
  dListDone : Nat → Nat

/-- The arguments of a submission. -/
structure Request where
  entries : Nat → EntryField → Nat
  count : Nat
  listId : Nat
  flags : Nat

/-- The header of a submission whose pool range starts at `base`. -/
def Request.header (r : Request) (base : Nat) : Header
  | .poolOffset => base % maxSgPoolEntries
  | .count => r.count
  | .listId => r.listId
  | .flags => r.flags

/-- `MAX_SG_POOL_ENTRIES - needed`, in 32-bit words. -/
def poolRoom (needed : Nat) : Nat := (maxSgPoolEntries + 2 ^ 32 - needed % 2 ^ 32) % 2 ^ 32

namespace TaskQueue

/-- As the session leaves it: all indices and sequences zero. -/
structure Fresh (q : TaskQueue) : Prop where
  listAllocIdx : q.listAllocIdx = 0
  entryAllocIdx : q.entryAllocIdx = 0
  listReadIdx : q.listReadIdx = 0
  entryConsumedIdx : q.entryConsumedIdx = 0
  listsCompleted : q.listsCompleted = 0
  terminate : q.terminate = false
  sequence : ∀ c, (q.lists c).sequence = 0
  dListDone : ∀ id, q.dListDone id = 0

def storeHeader (q : TaskQueue) (c : Nat) (f : HeaderField) (v : Nat) : TaskQueue :=
  { q with
    lists := Function.update q.lists c
      { q.lists c with header := Function.update (q.lists c).header f v } }

def storeSequence (q : TaskQueue) (c v : Nat) : TaskQueue :=
  { q with lists := Function.update q.lists c { q.lists c with sequence := v } }

def storeEntry (q : TaskQueue) (c : Nat) (f : EntryField) (v : Nat) : TaskQueue :=
  { q with entries := Function.update q.entries c (Function.update (q.entries c) f v) }

end TaskQueue

/-- Where a submission is. -/
inductive Submit
  | idle
  /-- In `sg_wait_entry_space`, about to load `entry_alloc_idx`. -/
  | entrySpace (r : Request)
  /-- About to load `entry_consumed_idx`. -/
  | entryConsumed (r : Request) (alloc : Nat)
  /-- In `sg_wait_list_space`, about to load `list_alloc_idx`. -/
  | listSpace (r : Request)
  /-- About to load `list_read_idx`. -/
  | listRead (r : Request) (alloc : Nat)
  /-- About to take a pool range, on the GPU. -/
  | allocEntries (r : Request)
  /-- About to take a pool range, on the host. -/
  | loadEntryIdx (r : Request)
  | storeEntryIdx (r : Request) (base : Nat)
  /-- Writing the entries. -/
  | write (r : Request) (base : Nat) (todo : Finset (Nat × EntryField))
  /-- About to take a list index, on the GPU. -/
  | allocList (r : Request) (base : Nat)
  /-- About to take a list index, on the host. -/
  | loadListIdx (r : Request) (base : Nat)
  | storeListIdx (r : Request) (base idx : Nat)
  /-- Writing the header. -/
  | header (r : Request) (base idx : Nat) (todo : List HeaderField)
  /-- About to commit. -/
  | sequence (r : Request) (base idx : Nat)

namespace Submit

/-- The next access of a submission, but for the writes of the entries. -/
def step (host : Bool) (q : TaskQueue) : Submit → Option (Submit × TaskQueue)
  | .idle => none
  | .entrySpace r => some (.entryConsumed r q.entryAllocIdx, q)
  | .entryConsumed r alloc =>
    if subWord alloc q.entryConsumedIdx ≤ poolRoom r.count then some (.listSpace r, q)
    else some (.entrySpace r, q)
  | .listSpace r => some (.listRead r q.listAllocIdx, q)
  | .listRead r alloc =>
    if subWord alloc q.listReadIdx < maxSgLists - 1 then some (.allocEntries r, q)
    else some (.listSpace r, q)
  | .allocEntries r =>
    some (.write r q.entryAllocIdx (Finset.range r.count ×ˢ Finset.univ),
      { q with entryAllocIdx := q.entryAllocIdx + r.count })
  | .loadEntryIdx r => some (.storeEntryIdx r q.entryAllocIdx, q)
  | .storeEntryIdx r base =>
    some (.write r base (Finset.range r.count ×ˢ Finset.univ),
      { q with entryAllocIdx := base + r.count })
  | .write r base todo =>
    if todo = ∅ then some (if host then .loadListIdx r base else .allocList r base, q) else none
  | .allocList r base =>
    some (.header r base q.listAllocIdx [.poolOffset, .count, .listId, .flags],
      { q with listAllocIdx := q.listAllocIdx + 1 })
  | .loadListIdx r base => some (.storeListIdx r base q.listAllocIdx, q)
  | .storeListIdx r base idx =>
    some (.header r base idx [.poolOffset, .count, .listId, .flags],
      { q with listAllocIdx := idx + 1 })
  | .header r base idx (f :: todo) =>
    some (.header r base idx todo, q.storeHeader (idx % maxSgLists) f (r.header base f))
  | .header r base idx [] => some (.sequence r base idx, q)
  | .sequence _ _ idx => some (.idle, q.storeSequence (idx % maxSgLists) (word (idx + 1)))

/-- Write field `f` of entry `i`. -/
def writeEntry (q : TaskQueue) (i : Nat) (f : EntryField) : Submit → Option (Submit × TaskQueue)
  | .write r base todo =>
    if (i, f) ∈ todo then
      some (.write r base (todo.erase (i, f)),
        q.storeEntry ((base + i) % maxSgPoolEntries) f (r.entries i f))
    else none
  | _ => none

/-- The list index it is about to take. -/
def takes (q : TaskQueue) : Submit → Option Nat
  | .allocList _ _ => some q.listAllocIdx
  | .storeListIdx _ _ idx => some idx
  | _ => none

end Submit

/-- What an access of the transfer warp to the queue returns, and the queue
after it; `v` is what an access elsewhere returns. -/
def TaskQueue.access (fine : Bool) (q : TaskQueue) (v : Nat) : Transfer → Nat × TaskQueue
  | .claim => (q.listReadIdx, { q with listReadIdx := q.listReadIdx + 1 })
  | .poll idx => ((q.lists (idx % maxSgLists)).sequence, q)
  | .pollTerminate _ => (if q.terminate then 1 else 0, q)
  | .load idx (f :: _) _ => ((q.lists (idx % maxSgLists)).header f, q)
  | .clear idx _ => (0, q.storeSequence (idx % maxSgLists) 0)
  | .consumed _ _ => (q.entryConsumedIdx, q)
  | .cas _ h old =>
    (q.entryConsumedIdx,
      if q.entryConsumedIdx = old then { q with entryConsumedIdx := h .poolOffset + h .count }
      else q)
  | .wait _ h => (if fine then q.dListDone (h .listId) else q.listsCompleted, q)
  | _ => (v, q)

/-- Those who submit lists. -/
inductive Party (S B : Type)
  | gpu (s : S)
  /-- The compute functor of a block, while it runs. -/
  | functor (b : B)
  | host
  deriving DecidableEq

/-- Where the host is in `synchronize`. -/
inductive Sync
  | idle
  /-- About to load `list_alloc_idx`. -/
  | load
  /-- Waiting for `lists_completed`. -/
  | poll (expected : Nat)
  /-- About to set `terminate`. -/
  | raise
  /-- Waiting for the kernel. -/
  | device
  deriving DecidableEq

/-- What has happened to the list indices, for stating it: with what each was
submitted, whether it was committed, which blocks have claimed it, whether its
sequence has been cleared and its compute call has returned, and whether the
polling thread has counted it. -/
structure Record (B : Type) where
  plan : Nat → Request × Nat
  committed : Nat → Bool
  claims : Nat → List B
  cleared : Nat → Bool
  computed : Nat → Bool
  counted : Nat → Bool

namespace Record

variable {B : Type}

/-- The header an index is submitted with. -/
def header (d : Record B) (idx : Nat) : Header := (d.plan idx).1.header (d.plan idx).2

/-- After the next access of a submission. -/
def submit (q : TaskQueue) (d : Record B) : Submit → Record B
  | .allocList r base => { d with plan := Function.update d.plan q.listAllocIdx (r, base) }
  | .storeListIdx r base idx => { d with plan := Function.update d.plan idx (r, base) }
  | .sequence _ _ idx => { d with committed := Function.update d.committed idx true }
  | _ => d

/-- After the next access of the transfer warp of block `b`. -/
def transfer (q : TaskQueue) (b : B) (d : Record B) : Transfer → Record B
  | .claim =>
    { d with
      claims := Function.update d.claims q.listReadIdx (d.claims q.listReadIdx ++ [b]) }
  | .clear idx _ => { d with cleared := Function.update d.cleared idx true }
  | _ => d

/-- After the next step of the compute warp of a block. -/
def compute (d : Record B) (b : Block) : Record B :=
  match b.compute, b.transfer with
  | .call _, .waitDone idx _ => { d with computed := Function.update d.computed idx true }
  | _, _ => d

end Record

structure System (S B : Type) where
  queue : TaskQueue
  block : B → Block
  submit : Party S B → Submit
  sync : Sync
  record : Record B

namespace System

variable {S B : Type}

/-- Over a fresh queue, with every block about to start and no one submitting. -/
structure Init (s : System S B) : Prop where
  queue : s.queue.Fresh
  block : ∀ b, s.block b = Block.init
  submit : ∀ p, s.submit p = .idle
  sync : s.sync = .idle
  committed : ∀ k, s.record.committed k = false
  claims : ∀ k, s.record.claims k = []
  cleared : ∀ k, s.record.cleared k = false
  computed : ∀ k, s.record.computed k = false
  counted : ∀ k, s.record.counted k = false

/-- A fresh queue, before anyone moves. -/
def init : System S B where
  queue :=
    { lists _ := ⟨fun _ => 0, 0⟩
      entries _ _ := 0
      listAllocIdx := 0
      entryAllocIdx := 0
      listReadIdx := 0
      entryConsumedIdx := 0
      listsCompleted := 0
      terminate := false
      dListDone _ := 0 }
  block _ := Block.init
  submit _ := .idle
  sync := .idle
  record :=
    { plan _ := (⟨fun _ _ => 0, 0, 0, 0⟩, 0)
      committed _ := false
      claims _ := []
      cleared _ := false
      computed _ := false
      counted _ := false }

theorem init_init : (init : System S B).Init :=
  ⟨⟨rfl, rfl, rfl, rfl, rfl, rfl, fun _ => rfl, fun _ => rfl⟩, fun _ => rfl, fun _ => rfl, rfl,
    fun _ => rfl, fun _ => rfl, fun _ => rfl, fun _ => rfl, fun _ => rfl⟩

inductive Act (S B : Type)
  /-- Call `sg_submit_list`, or `submit_sg_list` on the host. -/
  | call (p : Party S B) (r : Request)
  | submit (p : Party S B)
  | write (p : Party S B) (i : Nat) (f : EntryField)
  /-- The next access of a block's transfer warp. -/
  | transfer (b : B) (v : Nat)
  | convert (b : B) (i : Nat) (f : EntryField)
  | commit (b : B) (i : Nat)
  | compute (b : B)
  /-- Call `synchronize`. -/
  | synchronize
  | sync
  /-- The polling thread counts list `idx` in `lists_completed`. -/
  | count (idx : Nat)
  /-- `d_list_done[id]` is written. -/
  | signal (id v : Nat)

/-- A submission can begin: the party is not at another one, a functor runs, and
the host is not in `synchronize`. -/
def mayCall (s : System S B) (p : Party S B) : Bool :=
  match s.submit p, p with
  | .idle, .gpu _ => true
  | .idle, .functor b => match (s.block b).compute with | .call _ => true | _ => false
  | .idle, .host => s.sync = .idle
  | _, _ => false

/-- A submission of the party is under way. -/
def submitting (s : System S B) (p : Party S B) : Bool :=
  match s.submit p with
  | .idle => false
  | _ => true

/-- A block that has claimed the list has read its header. -/
def hasRead (s : System S B) (idx : Nat) : Bool :=
  (s.record.claims idx).any fun b => (s.block b).taken.any fun x => x.1 == idx

/-- The next access of `synchronize`. -/
def syncStep (s : System S B) : Option (System S B) :=
  match s.sync with
  | .idle => none
  | .load => some { s with sync := .poll s.queue.listAllocIdx }
  | .poll expected =>
    if expected ≤ s.queue.listsCompleted then some { s with sync := .raise } else none
  | .raise => some { s with sync := .device, queue := { s.queue with terminate := true } }
  | .device => none

variable [DecidableEq S] [DecidableEq B]

def setBlock (s : System S B) (b : B) (x : Block) : System S B :=
  { s with block := Function.update s.block b x }

def setSubmit (s : System S B) (p : Party S B) (x : Submit) : System S B :=
  { s with submit := Function.update s.submit p x }

omit [DecidableEq S] in
theorem block_setBlock_self (s : System S B) (b : B) (x : Block) : (s.setBlock b x).block b = x :=
  Function.update_self ..

omit [DecidableEq S] in
theorem block_setBlock_of_ne (s : System S B) {b c : B} (h : c ≠ b) (x : Block) :
    (s.setBlock b x).block c = s.block c :=
  Function.update_of_ne h ..

theorem submit_setSubmit_self (s : System S B) (p : Party S B) (x : Submit) :
    (s.setSubmit p x).submit p = x :=
  Function.update_self ..

theorem submit_setSubmit_of_ne (s : System S B) {p q : Party S B} (h : q ≠ p) (x : Submit) :
    (s.setSubmit p x).submit q = s.submit q :=
  Function.update_of_ne h ..

/-- One step; `fine` says that the queue has `d_list_done`. -/
def step (fine : Bool) (s : System S B) : Act S B → Option (System S B)
  | .call p r =>
    if s.mayCall p then
      some (s.setSubmit p (if p = .host then .loadEntryIdx r else .entrySpace r))
    else none
  | .submit p =>
    ((s.submit p).step (p = .host) s.queue).map fun (x, q) =>
      { s.setSubmit p x with queue := q, record := s.record.submit s.queue (s.submit p) }
  | .write p i f =>
    ((s.submit p).writeEntry s.queue i f).map fun (x, q) => { s.setSubmit p x with queue := q }
  | .transfer b v =>
    let (v, q) := s.queue.access fine v (s.block b).transfer
    ((s.block b).step fine (.transfer, v)).map fun x =>
      { s.setBlock b x with
        queue := q, record := s.record.transfer s.queue b (s.block b).transfer }
  | .convert b i f => ((s.block b).step fine (.convert i f, 0)).map (s.setBlock b)
  | .commit b i => ((s.block b).step fine (.commit i, 0)).map (s.setBlock b)
  | .compute b =>
    -- `compute_fn` returns only when its own submission has
    if s.submitting (.functor b) then none
    else ((s.block b).step fine (.compute, 0)).map fun x =>
      { s.setBlock b x with record := s.record.compute (s.block b) }
  | .synchronize =>
    if s.sync = .idle ∧ s.submitting .host = false then some { s with sync := .load } else none
  | .sync => s.syncStep
  | .count idx =>
    if s.hasRead idx ∧ s.record.counted idx = false then
      some { s with
        queue := { s.queue with listsCompleted := s.queue.listsCompleted + 1 }
        record := { s.record with counted := Function.update s.record.counted idx true } }
    else none
  | .signal id v =>
    some { s with queue := { s.queue with dListDone := Function.update s.queue.dListDone id v } }

variable {fine : Bool} {s : System S B}

/-- A step that stores or copies an entry, or commits a descriptor. -/
def Act.lane : Act S B → Bool
  | .write .. | .convert .. | .commit .. => true
  | _ => false

variable (fine) in
/-- A party can write all its entries. -/
theorem exists_run_written {p : Party S B} {r : Request} {base : Nat}
    {todo : Finset (Nat × EntryField)} (hp : s.submit p = .write r base todo) :
    ∃ as e, (∀ a ∈ as, Act.lane a = true) ∧
      run (step fine) s as = some
        { s.setSubmit p (.write r base ∅) with queue := { s.queue with entries := e } } := by
  induction todo using Finset.induction_on generalizing s with
  | empty =>
    refine ⟨[], s.queue.entries, List.forall_mem_nil _, ?_⟩
    rw [setSubmit, ← hp, Function.update_eq_self]
    rfl
  | insert x todo hx ih =>
    obtain ⟨i, f⟩ := x
    have hs : s.step fine (.write p i f) = some
        { s.setSubmit p (.write r base todo) with
          queue := s.queue.storeEntry ((base + i) % maxSgPoolEntries) f (r.entries i f) } := by
      simp only [step, hp, Submit.writeEntry, Finset.mem_insert_self, if_true, Option.map_some,
        Finset.erase_insert hx]
    obtain ⟨as, e, hlane, has⟩ := ih
      (s := { s.setSubmit p (.write r base todo) with
        queue := s.queue.storeEntry ((base + i) % maxSgPoolEntries) f (r.entries i f) })
      (Function.update_self ..)
    refine ⟨.write p i f :: as, e, List.forall_mem_cons.mpr ⟨rfl, hlane⟩, ?_⟩
    rw [run_cons, hs, Option.bind_some, has]
    simp only [setSubmit, Function.update_idem, TaskQueue.storeEntry]

theorem exists_written {p : Party S B} {r : Request} {base : Nat}
    {todo : Finset (Nat × EntryField)} (h : Reachable (step fine) Always Init s)
    (hp : s.submit p = .write r base todo) :
    ∃ e, Reachable (step fine) Always Init
      { s.setSubmit p (.write r base ∅) with queue := { s.queue with entries := e } } := by
  obtain ⟨as, e, -, has⟩ := exists_run_written fine hp
  exact ⟨e, h.run_always has⟩

end System

/-! ## The list ring -/

/-- The list ring, with its fields in the order in which they are stored and
loaded. -/
def listLayout : SlotRing.Layout HeaderField where
  size := maxSgLists
  fields := [.poolOffset, .count, .listId, .flags]
  all f := by cases f <;> decide
  mark n := word (n + 1)
  bound := wordSize - 1
  mark_ne_zero n h := by rw [word_of_lt (by omega)]; omega
  mark_inj m n hm hn h := by
    rw [word_of_lt (by omega), word_of_lt (by omega)] at h
    exact Nat.succ.inj h

/-- A submission as a producer of the list ring. -/
def Submit.producer : Submit → SlotRing.Producer HeaderField Nat
  | .header r base idx todo => .storing idx (r.header base) todo
  | .sequence r base idx => .storing idx (r.header base) []
  | _ => .idle

/-- A transfer warp as its consumer. -/
def Transfer.consumer : Transfer → SlotRing.Consumer HeaderField Nat
  | .poll idx | .pollTerminate idx => .waiting idx
  | .load idx todo h => .loading idx todo h
  | .publish idx h _ | .resetReady idx h | .resetDone idx h | .reserve idx h | .space idx h _
  | .convert idx h _ _ | .commit idx h _ _ | .clear idx h => .holding idx h
  | _ => .idle

namespace System

variable {S B : Type}

/-- The list ring of a system. -/
def ring (s : System S B) : SlotRing.Ring (Party S B) B HeaderField Nat where
  slot c := (s.queue.lists c).header
  marker c := (s.queue.lists c).sequence
  allocated := s.queue.listAllocIdx
  claimed := s.queue.listReadIdx
  producer p := (s.submit p).producer
  consumer b := (s.block b).transfer.consumer
  read b := (s.block b).taken
  item := s.record.header
  committed := s.record.committed
  cleared := s.record.cleared
  claims := s.record.claims

theorem Init.ring {s : System S B} (h : s.Init) : s.ring.Init where
  marker := h.queue.sequence
  allocated := h.queue.listAllocIdx
  claimed := h.queue.listReadIdx
  producer p := by show (s.submit p).producer = _; rw [h.submit p]; rfl
  consumer b := by show (s.block b).transfer.consumer = _; rw [h.block b]; rfl
  read b := by show (s.block b).taken = _; rw [h.block b]; rfl
  committed := h.committed
  cleared := h.cleared
  claims := h.claims

/-- A list index is taken only when it is the next one, is not the last of the
64-bit range, and the list that had its cell before has been cleared; and blocks
do not claim the last index either. -/
def ListsOrderly (s : System S B) : Act S B → Prop
  | .submit p =>
    match (s.submit p).takes s.queue with
    | some n => n = s.queue.listAllocIdx ∧ n < wordSize - 1 ∧
        (n < maxSgLists ∨ s.record.cleared (n - maxSgLists) = true)
    | none => True
  | .transfer b _ =>
    match (s.block b).transfer with
    | .claim => s.queue.listReadIdx < wordSize - 1
    | _ => True
  | _ => True

instance (s : System S B) (a : Act S B) : Decidable (s.ListsOrderly a) := by
  rcases a with _ | p | _ | ⟨b, -⟩ | _ <;> dsimp only [ListsOrderly]
  case submit => rcases (s.submit p).takes s.queue with _ | _ <;> infer_instance
  case transfer => rcases (s.block b).transfer with _ | _ <;> infer_instance
  all_goals infer_instance

variable [DecidableEq S] [DecidableEq B] {fine : Bool} {s s' : System S B}

theorem producer_setSubmit (s : System S B) (p : Party S B) (x : Submit) :
    (s.setSubmit p x).ring.producer = Function.update s.ring.producer p x.producer :=
  Function.comp_update Submit.producer s.submit p x

omit [DecidableEq S] in
theorem consumer_setBlock (s : System S B) (b : B) (x : Block) :
    (s.setBlock b x).ring.consumer = Function.update s.ring.consumer b x.transfer.consumer :=
  Function.comp_update (fun x : Block => x.transfer.consumer) s.block b x

omit [DecidableEq S] in
theorem read_setBlock (s : System S B) (b : B) (x : Block) :
    (s.setBlock b x).ring.read = Function.update s.ring.read b x.taken :=
  Function.comp_update Block.taken s.block b x

omit [DecidableEq B] in
theorem Record.header_update (d : Record B) (n : Nat) (r : Request) (base : Nat) :
    ({ d with plan := Function.update d.plan n (r, base) } : Record B).header =
      Function.update d.header n (r.header base) :=
  Function.comp_update (fun x : Request × Nat => x.1.header x.2) d.plan n (r, base)

theorem ring_setSubmit {p : Party S B} {x : Submit} {q : TaskQueue}
    (hx : x.producer = (s.submit p).producer) (hl : q.lists = s.queue.lists)
    (ha : q.listAllocIdx = s.queue.listAllocIdx) (hr : q.listReadIdx = s.queue.listReadIdx) :
    ({ s.setSubmit p x with queue := q } : System S B).ring = s.ring := by
  have hp : (s.setSubmit p x).ring.producer = s.ring.producer := by
    rw [producer_setSubmit, hx]
    exact Function.update_eq_self p s.ring.producer
  exact SlotRing.Ring.ext (by simp only [ring, hl]) (by simp only [ring, hl]) ha hr hp rfl rfl rfl
    rfl rfl rfl

/-- A party takes the next index of the ring. -/
theorem ring_allocate {p : Party S B} {r : Request} {base : Nat}
    (hp : (s.submit p).producer = .idle) :
    SlotRing.step listLayout s.ring (.allocate p (r.header base)) = some
      ({ s.setSubmit p (.header r base s.queue.listAllocIdx [.poolOffset, .count, .listId, .flags])
        with
        queue := { s.queue with listAllocIdx := s.queue.listAllocIdx + 1 }
        record := { s.record with
          plan := Function.update s.record.plan s.queue.listAllocIdx (r, base) } } :
          System S B).ring := by
  have hp' : s.ring.producer p = .idle := hp
  simp only [SlotRing.step, hp']
  exact congrArg some (SlotRing.Ring.ext rfl rfl rfl rfl
    (producer_setSubmit s p (.header r base s.queue.listAllocIdx _)).symm rfl rfl
    (Record.header_update s.record _ r base).symm rfl rfl rfl)

theorem slot_storeHeader (q : TaskQueue) (c : Nat) (f : HeaderField) (v : Nat) :
    (fun i => ((q.storeHeader c f v).lists i).header) =
      Function.update (fun i => (q.lists i).header) c
        (Function.update (q.lists c).header f v) :=
  Function.comp_update ListCell.header q.lists c _

theorem marker_storeHeader (q : TaskQueue) (c : Nat) (f : HeaderField) (v : Nat) :
    (fun i => ((q.storeHeader c f v).lists i).sequence) = fun i => (q.lists i).sequence := by
  refine (Function.comp_update ListCell.sequence q.lists c _).trans ?_
  exact Function.update_eq_self c fun i => (q.lists i).sequence

theorem slot_storeSequence (q : TaskQueue) (c v : Nat) :
    (fun i => ((q.storeSequence c v).lists i).header) = fun i => (q.lists i).header := by
  refine (Function.comp_update ListCell.header q.lists c _).trans ?_
  exact Function.update_eq_self c fun i => (q.lists i).header

theorem marker_storeSequence (q : TaskQueue) (c v : Nat) :
    (fun i => ((q.storeSequence c v).lists i).sequence) =
      Function.update (fun i => (q.lists i).sequence) c v :=
  Function.comp_update ListCell.sequence q.lists c _

/-- What a step of the system is for the list ring: nothing, or an orderly step. -/
def RingStep (s s' : System S B) : Prop :=
  s'.ring = s.ring ∨ ∃ a, SlotRing.Orderly listLayout s.ring a ∧
    SlotRing.step listLayout s.ring a = some s'.ring

theorem ring_submit {p : Party S B} (ho : s.ListsOrderly (.submit p))
    (hs : s.step fine (.submit p) = some s') : s.RingStep s' := by
  simp only [step, Option.map_eq_some_iff] at hs
  obtain ⟨⟨x, q⟩, hx, rfl⟩ := hs
  have hpr : s.ring.producer p = (s.submit p).producer := rfl
  cases hp : s.submit p with
  | idle => simp only [hp, Submit.step] at hx; cases hx
  | entrySpace r | listSpace r | loadEntryIdx r | loadListIdx r base | allocEntries r
  | storeEntryIdx r base =>
    simp only [hp, Submit.step] at hx
    cases hx
    exact .inl (ring_setSubmit (by rw [hp]; rfl) rfl rfl rfl)
  | entryConsumed r a | listRead r a =>
    simp only [hp, Submit.step] at hx
    split at hx <;> cases hx <;> exact .inl (ring_setSubmit (by rw [hp]; rfl) rfl rfl rfl)
  | write r base todo =>
    simp only [hp, Submit.step] at hx
    split at hx <;> cases hx
    refine .inl (ring_setSubmit ?_ rfl rfl rfl)
    rw [hp]
    split <;> rfl
  | allocList r base =>
    simp only [hp, Submit.step] at hx
    cases hx
    simp only [ListsOrderly, hp, Submit.takes] at ho
    obtain ⟨-, hlt, hfree⟩ := ho
    exact .inr ⟨.allocate p (r.header base), ⟨hlt, hfree⟩, ring_allocate (by rw [hp]; rfl)⟩
  | storeListIdx r base idx =>
    simp only [hp, Submit.step] at hx
    cases hx
    simp only [ListsOrderly, hp, Submit.takes] at ho
    obtain ⟨rfl, hlt, hfree⟩ := ho
    exact .inr ⟨.allocate p (r.header base), ⟨hlt, hfree⟩, ring_allocate (by rw [hp]; rfl)⟩
  | header r base idx todo =>
    rw [hp] at hpr
    cases todo with
    | nil =>
      simp only [hp, Submit.step] at hx
      cases hx
      exact .inl (ring_setSubmit (by rw [hp]; rfl) rfl rfl rfl)
    | cons f todo =>
      simp only [hp, Submit.step] at hx
      cases hx
      refine .inr ⟨.store p, trivial, ?_⟩
      simp only [SlotRing.step, hpr, Submit.producer]
      exact congrArg some (SlotRing.Ring.ext (slot_storeHeader ..).symm (marker_storeHeader ..).symm
        rfl rfl (producer_setSubmit s p (.header r base idx todo)).symm rfl rfl rfl rfl rfl rfl)
  | sequence r base idx =>
    rw [hp] at hpr
    simp only [hp, Submit.step] at hx
    cases hx
    refine .inr ⟨.commit p, trivial, ?_⟩
    simp only [SlotRing.step, hpr, Submit.producer]
    exact congrArg some (SlotRing.Ring.ext (slot_storeSequence ..).symm
      (marker_storeSequence ..).symm rfl rfl (producer_setSubmit s p .idle).symm rfl rfl rfl rfl rfl rfl)

omit [DecidableEq S] in
theorem read_setBlock_of_taken (s : System S B) (b : B) (x : Block)
    (h : x.taken = (s.block b).taken) :
    (s.setBlock b x).ring.read = s.ring.read := by
  rw [read_setBlock, h]
  exact Function.update_eq_self b s.ring.read

omit [DecidableEq S] in
theorem ring_setBlock {b : B} {x : Block} {q : TaskQueue}
    (hx : x.transfer.consumer = (s.block b).transfer.consumer)
    (ht : x.taken = (s.block b).taken) (hl : q.lists = s.queue.lists)
    (ha : q.listAllocIdx = s.queue.listAllocIdx) (hr : q.listReadIdx = s.queue.listReadIdx) :
    ({ s.setBlock b x with queue := q } : System S B).ring = s.ring := by
  have hc : (s.setBlock b x).ring.consumer = s.ring.consumer := by
    rw [consumer_setBlock, hx]
    exact Function.update_eq_self b s.ring.consumer
  exact SlotRing.Ring.ext (by simp only [ring, hl]) (by simp only [ring, hl]) ha hr rfl hc
    (read_setBlock_of_taken s b x ht) rfl rfl rfl rfl

theorem ring_transfer {b : B} {v : Nat} (ho : s.ListsOrderly (.transfer b v))
    (hs : s.step fine (.transfer b v) = some s') : s.RingStep s' := by
  simp only [step, Option.map_eq_some_iff, Block.step] at hs
  obtain ⟨x, hx, rfl⟩ := hs
  have hcon : s.ring.consumer b = (s.block b).transfer.consumer := rfl
  unfold Block.transferStep at hx
  split at hx <;> rename_i ht <;> rw [ht] at hcon
  case h_1 => -- claims an index
    cases hx
    simp only [ListsOrderly, ht] at ho
    refine .inr ⟨.claim b, ho, ?_⟩
    simp only [SlotRing.step, hcon, Transfer.consumer]
    simp only [ht, TaskQueue.access, Record.transfer]
    let x : Block := { s.block b with transfer := .poll s.queue.listReadIdx }
    exact congrArg some (SlotRing.Ring.ext rfl rfl rfl rfl rfl
      (consumer_setBlock s b x).symm (read_setBlock_of_taken s b x rfl).symm rfl rfl rfl rfl)
  case h_2 idx => -- sees the sequence
    split at hx <;> cases hx
    · rename_i hv
      simp only [ht, TaskQueue.access] at hv
      refine .inr ⟨.see b, trivial, ?_⟩
      simp only [SlotRing.step, hcon, Transfer.consumer]
      rw [if_pos (by exact hv)]
      simp only [ht, TaskQueue.access, Record.transfer]
      let x : Block := { s.block b with
        transfer := .load idx [.poolOffset, .count, .listId, .flags] fun _ => 0 }
      exact congrArg some (SlotRing.Ring.ext rfl rfl rfl rfl rfl
        (consumer_setBlock s b x).symm (read_setBlock_of_taken s b x rfl).symm rfl rfl rfl rfl)
    · simp only [ht, TaskQueue.access, Record.transfer]
      exact .inl (ring_setBlock (by rw [ht]; rfl) rfl rfl rfl rfl)
  case h_3 idx => -- stops waiting
    split at hx <;> cases hx
    · refine .inr ⟨.leave b, trivial, ?_⟩
      simp only [SlotRing.step, hcon, Transfer.consumer]
      simp only [ht, TaskQueue.access, Record.transfer]
      let x : Block := { s.block b with transfer := .terminate }
      exact congrArg some (SlotRing.Ring.ext rfl rfl rfl rfl rfl
        (consumer_setBlock s b x).symm (read_setBlock_of_taken s b x rfl).symm rfl rfl rfl rfl)
    · simp only [ht, TaskQueue.access, Record.transfer]
      exact .inl (ring_setBlock (by rw [ht]; rfl) rfl rfl rfl rfl)
  case h_5 idx f todo h => -- loads a field
    cases hx
    refine .inr ⟨.load b, trivial, ?_⟩
    simp only [SlotRing.step, hcon, Transfer.consumer]
    simp only [ht, TaskQueue.access, Record.transfer]
    let x : Block := { s.block b with
      transfer := .load idx todo
        (Function.update h f ((s.queue.lists (idx % maxSgLists)).header f)) }
    exact congrArg some (SlotRing.Ring.ext rfl rfl rfl rfl rfl
      (consumer_setBlock s b x).symm (read_setBlock_of_taken s b x rfl).symm rfl rfl rfl rfl)
  case h_6 idx h => -- has read the header
    cases hx
    refine .inr ⟨.finish b, trivial, ?_⟩
    simp only [SlotRing.step, hcon, Transfer.consumer]
    simp only [ht, TaskQueue.access, Record.transfer]
    let x : Block := { s.block b with
      taken := (s.block b).taken ++ [(idx, h)]
      transfer := .publish idx h [.listId, .count, .poolOffset, .flags] }
    exact congrArg some (SlotRing.Ring.ext rfl rfl rfl rfl rfl (consumer_setBlock s b x).symm
      (read_setBlock s b x).symm rfl rfl rfl rfl)
  case h_15 idx h => -- clears the sequence
    cases hx
    refine .inr ⟨.clear b, trivial, ?_⟩
    simp only [SlotRing.step, hcon, Transfer.consumer]
    simp only [ht, TaskQueue.access, Record.transfer]
    let x : Block := { s.block b with transfer := .consumed idx h }
    exact congrArg some (SlotRing.Ring.ext (slot_storeSequence ..).symm
      (marker_storeSequence ..).symm rfl rfl rfl (consumer_setBlock s b x).symm
      (read_setBlock_of_taken s b x rfl).symm rfl rfl rfl rfl)
  case h_21 => cases hx
  case h_17 => -- the compare-and-swap touches only `entry_consumed_idx`
    split at hx <;> cases hx <;> simp only [ht, TaskQueue.access, Record.transfer] <;>
      exact .inl (ring_setBlock (by rw [ht]; rfl) rfl (by split <;> rfl) (by split <;> rfl)
        (by split <;> rfl))
  case h_12 | h_13 | h_14 | h_16 | h_18 | h_20 =>
    split at hx <;> cases hx <;> simp only [ht, TaskQueue.access, Record.transfer] <;>
      exact .inl (ring_setBlock (by rw [ht]; rfl) rfl rfl rfl rfl)
  all_goals
    cases hx
    simp only [ht, TaskQueue.access, Record.transfer]
    exact .inl (ring_setBlock (by rw [ht]; rfl) rfl rfl rfl rfl)

/-- Every step of the system that meets the condition is an orderly step of its
list ring, or does not touch it. -/
theorem ring_step {a : Act S B} (ho : s.ListsOrderly a) (hs : s.step fine a = some s') :
    s.RingStep s' := by
  cases a with
  | submit p => exact ring_submit ho hs
  | transfer b v => exact ring_transfer ho hs
  | call p r =>
    simp only [step] at hs
    split at hs <;> cases hs
    rename_i hc
    refine .inl (ring_setSubmit ?_ rfl rfl rfl)
    have hidle : s.submit p = .idle := by
      unfold mayCall at hc
      split at hc <;> first | assumption | cases hc
    rw [hidle]
    split <;> rfl
  | write p i f =>
    simp only [step, Option.map_eq_some_iff] at hs
    obtain ⟨⟨x, q⟩, hx, rfl⟩ := hs
    unfold Submit.writeEntry at hx
    split at hx
    · rename_i hp
      split at hx <;> cases hx
      exact .inl (ring_setSubmit (by rw [hp]; rfl) rfl rfl rfl)
    · cases hx
  | convert b i f =>
    simp only [step, Option.map_eq_some_iff, Block.step] at hs
    obtain ⟨x, hx, rfl⟩ := hs
    split at hx
    · rename_i ht
      split at hx <;> cases hx
      exact .inl (ring_setBlock (by rw [ht]; rfl) rfl rfl rfl rfl)
    · cases hx
  | commit b i =>
    simp only [step, Option.map_eq_some_iff, Block.step] at hs
    obtain ⟨x, hx, rfl⟩ := hs
    split at hx
    · rename_i ht
      split at hx <;> cases hx
      exact .inl (ring_setBlock (by rw [ht]; rfl) rfl rfl rfl rfl)
    · cases hx
  | compute b =>
    simp only [step] at hs
    split at hs
    · cases hs
    obtain ⟨x, hx, rfl⟩ := Option.map_eq_some_iff.mp hs
    obtain ⟨ht, htaken, -⟩ := Block.computeStep_transfer hx
    have hring := ring_setBlock (x := x) (congrArg Transfer.consumer ht) htaken
      (rfl : s.queue.lists = _) rfl rfl
    refine .inl (Eq.trans ?_ hring)
    unfold Record.compute
    split <;> rfl
  | synchronize =>
    simp only [step] at hs
    split at hs <;> cases hs
    exact .inl rfl
  | sync =>
    simp only [step, syncStep] at hs
    split at hs
    case h_3 => split at hs <;> cases hs; exact .inl rfl
    all_goals cases hs <;> exact .inl rfl
  | count idx =>
    simp only [step] at hs
    split at hs <;> cases hs
    exact .inl rfl
  | signal id v => cases hs; exact .inl rfl

omit [DecidableEq S] in
theorem block_setBlock {b c : B} {x : Move × Nat} {y : Block}
    (hy : (s.block b).step fine x = some y) :
    (s.setBlock b y).block c = s.block c ∨
      ∃ x, (s.block c).step fine x = some ((s.setBlock b y).block c) := by
  by_cases hcb : c = b
  · subst hcb
    refine .inr ⟨x, hy.trans (congrArg some ?_)⟩
    exact (Function.update_self c y s.block).symm
  · exact .inl (Function.update_of_ne hcb _ _)

/-- A step of the system is a step of each of its blocks, or leaves it alone. -/
theorem block_step {a : Act S B} (hs : s.step fine a = some s') (c : B) :
    s'.block c = s.block c ∨ ∃ x, (s.block c).step fine x = some (s'.block c) := by
  cases a with
  | transfer b v | convert b i f | commit b i =>
    obtain ⟨x, hx, rfl⟩ := Option.map_eq_some_iff.mp hs
    exact block_setBlock hx
  | compute b =>
    simp only [step] at hs
    split at hs
    · cases hs
    · obtain ⟨x, hx, rfl⟩ := Option.map_eq_some_iff.mp hs
      exact block_setBlock hx
  | submit p | write p i f =>
    obtain ⟨⟨x, q⟩, -, rfl⟩ := Option.map_eq_some_iff.mp hs
    exact .inl rfl
  | call p r | synchronize | count idx =>
    simp only [step] at hs
    split at hs <;> cases hs
    exact .inl rfl
  | sync =>
    simp only [step, syncStep] at hs
    split at hs
    case h_3 => split at hs <;> cases hs; exact .inl rfl
    all_goals cases hs <;> exact .inl rfl
  | signal id v =>
    cases hs
    exact .inl rfl

theorem block_valid_step {a : Act S B} (hv : ∀ b, (s.block b).Valid)
    (hs : s.step fine a = some s') (b : B) : (s'.block b).Valid := by
  rcases block_step hs b with h | ⟨x, hx⟩
  · rw [h]
    exact hv b
  · exact Block.valid_step (hv b) hx

/-- A block keeps what it has taken. -/
theorem taken_step {a : Act S B} (hs : s.step fine a = some s') (b : B) :
    (s.block b).taken <+: (s'.block b).taken := by
  rcases block_step hs b with h | ⟨x, hx⟩
  · rw [h]
  · rcases Block.serving_step hx with ⟨h, -⟩ | ⟨idx, h', -, h, -⟩
    · rw [h]
    · rw [h]
      exact List.prefix_append ..

theorem wasRead_step {a : Act S B} (hs : s.step fine a = some s') {k : Nat}
    (h : s.ring.WasRead k) : s'.ring.WasRead k := by
  obtain ⟨b, x, hx⟩ := h
  exact ⟨b, x, (taken_step hs b).subset hx⟩

theorem ringValid_step {a : Act S B} (hv : s.ring.Valid listLayout) (ho : s.ListsOrderly a)
    (hs : s.step fine a = some s') : s'.ring.Valid listLayout := by
  rcases ring_step ho hs with h | ⟨x, hx, h⟩
  · rw [h]
    exact hv
  · exact SlotRing.Ring.valid_step hv hx h

theorem ring_of_reachable (h : Reachable (step fine) ListsOrderly Init s) :
    s.ring.Valid listLayout :=
  SlotRing.Ring.valid_of_reachable
    (h.project ring (fun _ h => h.ring) fun _ _ _ ho hs => ring_step ho hs)

end System
end Gfd.Sg
