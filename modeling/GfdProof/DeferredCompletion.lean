import GfdProof.DeferredEvents

/-! # No deferred completion is lost

The invariant between calls (`Books`) says that `latest_async_read_` is the number of slots
flushed while `has_async_dma_` is set, that it is set while an event is pending, and that
`done_idx` has caught up when it is not.  Only retiring the last event could break it: that
step clears `has_async_dma_` with the event's `done_value` published, which is all that has
been flushed only if the event belongs to the batch flushed last (`Keeps`).
-/
namespace Gfd

open Transition WorkStreams Script.Machine

namespace DeferredCompletion

/-- A slot of the ring is filled only while one is free, and the last pending event is retired only
if it is the batch flushed last that it belongs to. -/
def Keeps : Call → Host → Prop
  | .pushTileEvent _ _, s => s.poller.tileEventsInflight < maxPendingTileEvents
  | .retireTileEvent, s => s.poller.tileEventsInflight = 1 →
      (s.poller.pendingTileEvents s.poller.tileEventTail).doneValue = s.poller.latestAsyncRead
  | _, _ => True

instance (c : Call) (s : Host) : Decidable (Keeps c s) := by
  rcases c with _ | _ <;> dsimp only [Keeps] <;> infer_instance

/-- What the thread's variables say between calls, after `n` slots have been flushed. -/
structure Books (n : Nat) (s : Host) : Prop where
  clean : s.poller.sgBucketMap = fun _ => none
  ring : s.poller.TileRing
  done_le : s.doneIdx ≤ n
  values : ∀ e ∈ s.poller.pendingEvents, e.doneValue ≤ n
  latest : s.poller.hasAsyncDma = true → s.poller.latestAsyncRead = n
  inflight : 0 < s.poller.tileEventsInflight → s.poller.hasAsyncDma = true
  settled : s.poller.hasAsyncDma = false → s.doneIdx = n

/-- What is asked of a call that is about to be made. -/
def Proper : Call → Host → Prop
  | .pushTileEvent _ _, s => s.poller.TileRing
  | .retireTileEvent, s => s.poller.TileRing ∧ 0 < s.poller.tileEventsInflight ∧
      (s.poller.pendingTileEvents s.poller.tileEventTail).doneValue ≤ s.doneIdx
  | .eventRecord e _, _ | .recordEventOnLastStream e, _ => ∀ slot, e ≠ .tile slot
  | _, _ => True

/-- What a call has to keep while `n` slots have been flushed or, where `flushing`, are being
flushed. -/
def promise (flushing : Bool) (n : Nat) : Spec Host Call :=
  ⟨fun s => s.poller.TileRing ∧ (flushing = false → Books n s), Proper⟩

variable {cfg : Config} {n : Nat} {s t : Host}

theorem Books.promised (hs : Books n s) (flushing : Bool) {m : Nat} (h : flushing = false → m = n) :
    (promise flushing m).inv s := ⟨hs.ring, fun hf => h hf ▸ hs⟩

theorem proper_of_aside {φ : Copy → Prop} {c : Call} (hc : c.Aside φ) (s : Host) : Proper c s := by
  cases c with
  | eventRecord | recordEventOnLastStream => exact hc
  | pushTileEvent | retireTileEvent => exact hc.elim
  | _ => trivial

/-- Nothing of this depends on the device. -/
theorem Books.congr (hs : Books n s) (hd : t.doneIdx = s.doneIdx)
    (hm : t.poller.sgBucketMap = fun _ => none) (hr : t.poller.tileRing = s.poller.tileRing)
    (ha : t.poller.hasAsyncDma = s.poller.hasAsyncDma)
    (hl : t.poller.latestAsyncRead = s.poller.latestAsyncRead) : Books n t where
  clean := hm
  ring := hs.ring.congr hr
  done_le := hd ▸ hs.done_le
  values := by rw [Poller.pendingEvents_congr hr]; exact hs.values
  latest := by rw [ha, hl]; exact hs.latest
  inflight := by rw [ha, Poller.inflight_congr hr]; exact hs.inflight
  settled := by rw [ha, hd]; exact hs.settled

theorem Books.env (h : s.EnvStep t) (hs : Books n s) : Books n t :=
  hs.congr h.doneIdx (by rw [h.poller]; exact hs.clean) (by rw [h.poller]) (by rw [h.poller])
    (by rw [h.poller])

theorem Books.aside {φ : Copy → Prop} (h : s.Aside φ t) (hs : Books n s) : Books n t :=
  hs.congr h.doneIdx (h.sgBucketMap hs.clean) h.tileRing h.hasAsyncDma h.latestAsyncRead

theorem stable_books (cfg : Config) (n : Nat) : cfg.machine.Stable (Books n) := stable_env cfg fun _ _ h hs => hs.env h

theorem books_init (user : Nat → UInt8) (staging : Nat → Nat → UInt8) (gpu : Nat → UInt8) :
    Books 0 (Host.init user staging gpu) where
  clean := rfl
  ring := ⟨Nat.zero_lt_succ 31, rfl, Nat.zero_le _⟩
  done_le := Nat.le_refl _
  values _ h := by cases h
  latest := nofun
  inflight := nofun
  settled _ := rfl

/-! ## Flushing a batch -/

/-- After `has_async_dma_ = true; latest_async_read_ = n`. -/
structure Marked (n : Nat) (s : Host) : Prop where
  books : Books n s
  async : s.poller.hasAsyncDma = true

theorem stable_marked (cfg : Config) (n : Nat) : cfg.machine.Stable (Marked n) :=
  stable_env cfg fun _ _ h hs => ⟨hs.books.env h, by rw [h.poller]; exact hs.async⟩

theorem books_setAsync (cfg : Config) {m : Nat} (hmn : m ≤ n) :
    (cfg.machine.only Keeps).Triple (promise true n) (Books m) [.setAsync n] (Marked n) := by
  refine Triple.atom (stable_books cfg m) (fun s hs => hs.promised true nofun) (fun _ _ => trivial)
    (stable_marked cfg n) (fun s hs => hs.books.promised true nofun) fun s t k hs hp => ?_
  obtain ⟨-, hp⟩ := perform_only hp
  cases hp
  refine ⟨rfl, ?_, rfl⟩
  exact {
    clean := hs.clean
    ring := hs.ring.congr rfl
    done_le := Nat.le_trans hs.done_le hmn
    values := fun e he => Nat.le_trans (hs.values e he) hmn
    latest := fun _ => rfl
    inflight := fun _ => rfl
    settled := nofun }

theorem books_push (batch : List Descriptor) :
    (cfg.machine.only Keeps).Triple (promise true n) (Marked n) [.pushTileEvent batch n] (Books n) := by
  refine Triple.atom (stable_marked cfg n) (fun s hs => hs.books.promised true nofun)
    (fun s hs => hs.books.ring) (stable_books cfg n) (fun s hs => hs.promised true nofun)
    fun s t k hs hp => ?_
  obtain ⟨hroom, hp⟩ := perform_only hp
  cases hp
  obtain ⟨hring, hevents⟩ := hs.books.ring.push hroom batch n
  refine ⟨rfl, ?_⟩
  exact {
    clean := hs.books.clean
    ring := hring
    done_le := hs.books.done_le
    values := fun e he => by
      dsimp only at he
      rw [hevents] at he
      rcases List.mem_append.mp he with he | he
      · exact hs.books.values e he
      · rw [List.mem_singleton.mp he]
    latest := hs.books.latest
    inflight := fun _ => hs.async
    settled := hs.books.settled }

/-- Processing a batch, whichever way. -/
theorem books_aside (hd : cfg.Deferred) (flushing : Bool) {m : Nat} (h : flushing = false → m = n)
    {l : List Call} (hl : ∀ c ∈ l, c.Aside fun _ => True) :
    (cfg.machine.only Keeps).Triple (promise flushing m) (Books n) l (Books n) :=
  (aside_triple hd.noSignalBuf (stable_books cfg n) (fun _ hs => hs.promised flushing h)
    (fun _ s hc _ => proper_of_aside hc s) (fun _ hs => hs.clean) (fun _ _ ha hs => hs.aside ha)
    hl).only

/-- **`flush_batch`** takes the thread from `m` slots flushed to `n`. -/
theorem books_flush (hd : cfg.Deferred) {m : Nat} {batch : List Descriptor} {orFlags : Nat}
    (hne : batch ≠ []) (hmn : m ≤ n) :
    (cfg.machine.only Keeps).Triple (promise true n) (Books m) [.flushBatch batch orFlags n]
      (Books n) := by
  refine Triple.expand (stable_books cfg m) (fun s hs => hs.promised true (by simp)) (fun _ _ => trivial)
    (fun s => perform_only_of (A := Keeps) trivial) fun s hs => ?_
  have hset := books_setAsync cfg hmn
  have hend : (cfg.machine.only Keeps).Triple (promise true n) (Books m) [.setAsync n] (Books n) :=
    hset.conseq (fun _ h => h) fun _ h => h.books
  have hproc := books_aside (n := m) (m := n) hd true (by simp) (l := [.processBatch batch])
    (List.forall_mem_singleton.mpr fun _ => trivial)
  have hsg := books_aside (n := m) (m := n) hd true (by simp) (l := [.processBatchSg batch])
    (List.forall_mem_singleton.mpr fun _ _ _ => trivial)
  unfold Config.flushBatch
  dsimp only
  rw [if_neg hne]
  split
  · exact Triple.cons hsg hend s hs
  · rw [if_pos hd.useCe, if_neg (by rw [hd.noSignalBuf]; simp)]
    split
    · exact Triple.cons hproc (Triple.cons hset (books_push batch)) s hs
    · exact Triple.cons hproc hend s hs

/-! ## Retiring events -/

theorem Books.inv (hs : Books n s) : (promise false n).inv s := hs.promised false fun _ => rfl

/-- Publishing the tiles of an event and its `done_value`, with the thread's variables as they
are. -/
theorem books_publish (cfg : Config) (hn : n < wordSize) {p : Poller} (hinfl : 0 < p.tileEventsInflight)
    {v : Nat} (hv : v ≤ n) (dev : Bool) (tiles : List Nat) :
    (cfg.machine.only Keeps).Triple (promise false n) (fun s => Books n s ∧ s.poller = p)
      (tiles.map (.storeTile dev) ++ [.raiseDone v])
      (fun s => (Books n s ∧ s.poller = p) ∧ v ≤ s.doneIdx) := by
  have hst : (cfg.machine.only Keeps).Stable fun s => Books n s ∧ s.poller = p :=
    (stable_books cfg n).and (stable_poller cfg p)
  have hst' : (cfg.machine.only Keeps).Stable fun s => (Books n s ∧ s.poller = p) ∧ v ≤ s.doneIdx :=
    hst.and (stable_env cfg fun _ _ h hs => by rw [h.doneIdx]; exact hs)
  refine Triple.append (Triple.map hst (fun s hs => hs.1.inv) fun tile _ => ?_) ?_
  · refine Triple.atom hst (fun s hs => hs.1.inv) (fun _ _ => trivial) hst (fun s hs => hs.1.inv)
      fun s t m hs hp => ?_
    obtain ⟨-, hp⟩ := perform_only hp
    cases hp
    have hpoller : (s.storeTile dev tile).poller = s.poller := (s.storeTile_frame dev tile).2
    refine ⟨rfl, hs.1.congr ?_ ?_ ?_ ?_ ?_, hpoller.trans hs.2⟩
    · cases dev <;> rfl
    · rw [hpoller]; exact hs.1.clean
    all_goals rw [hpoller]
  · refine Triple.atom hst (fun s hs => hs.1.inv) (fun _ _ => trivial) hst' (fun s hs => hs.1.1.inv)
      fun s t m hs hp => ?_
    obtain ⟨-, hp⟩ := perform_only hp
    cases hp
    obtain ⟨hs, rfl⟩ := hs
    have hw : word v = v := word_of_lt (Nat.lt_of_le_of_lt hv hn)
    have hle := hs.done_le
    refine ⟨rfl, ⟨?_, rfl⟩, ?_⟩
    · exact {
        clean := hs.clean
        ring := hs.ring
        done_le := by
          dsimp only
          split <;> omega
        values := hs.values
        latest := hs.latest
        inflight := hs.inflight
        settled := fun ha => by
          rw [show s.poller.hasAsyncDma = true from hs.inflight hinfl] at ha
          cases ha }
    · dsimp only
      split <;> omega

/-- `k` events are pending; with none left, `done_idx` has caught up. -/
structure Retiring (n k : Nat) (s : Host) : Prop where
  books : Books n s
  inflight : s.poller.tileEventsInflight = k
  async : s.poller.hasAsyncDma = true
  caught_up : k = 0 → s.doneIdx = n

theorem stable_retiring (cfg : Config) (n k : Nat) : cfg.machine.Stable (Retiring n k) :=
  stable_env cfg fun _ _ h hs => ⟨hs.books.env h, by rw [h.poller]; exact hs.inflight,
    by rw [h.poller]; exact hs.async, by rw [h.doneIdx]; exact hs.caught_up⟩

/-- The event at the tail is taken away, behind its `done_value`. -/
theorem books_retire {p : Poller} {k : Nat} (hinfl : p.tileEventsInflight = k + 1) :
    (cfg.machine.only Keeps).Triple (promise false n)
      (fun s => (Books n s ∧ s.poller = p) ∧
        (p.pendingTileEvents p.tileEventTail).doneValue ≤ s.doneIdx)
      [.retireTileEvent] (Retiring n k) := by
  refine Triple.atom (((stable_books cfg n).and (stable_poller cfg p)).and
      (stable_env cfg fun _ _ h hs => by rw [h.doneIdx]; exact hs)) (fun s hs => hs.1.1.inv)
    (fun s hs => ?_) (stable_retiring cfg n k) (fun s hs => hs.books.inv) fun s t m hs hp => ?_
  · exact ⟨hs.1.1.ring, by rw [hs.1.2, hinfl]; exact Nat.zero_lt_succ k, by rw [hs.1.2]; exact hs.2⟩
  · obtain ⟨hkeep, hp⟩ := perform_only hp
    cases hp
    obtain ⟨⟨hs, rfl⟩, hdone⟩ := hs
    have hpos : 0 < s.poller.tileEventsInflight := by omega
    obtain ⟨hring, hevents⟩ := hs.ring.retire hpos
    have hasync := hs.inflight hpos
    refine ⟨rfl, ?_, ?_, hasync, fun hk => ?_⟩
    · exact {
        clean := hs.clean
        ring := hring
        done_le := hs.done_le
        values := fun e he => hs.values e (by rw [hevents]; exact List.mem_cons_of_mem _ he)
        latest := hs.latest
        inflight := fun _ => hasync
        settled := fun ha => by
          rw [show s.poller.hasAsyncDma = true from hasync] at ha
          cases ha }
    · exact (congrArg (· - 1) hinfl).trans (Nat.add_sub_cancel k 1)
    · -- the last event is that of the batch flushed last
      have hlast := hkeep (by omega)
      rw [hs.latest hasync] at hlast
      rw [hlast] at hdone
      exact Nat.le_antisymm hs.done_le hdone

/-- `has_async_dma_ = tile_events_inflight_ > 0` -/
theorem books_asyncWhileInflight (k : Nat) :
    (cfg.machine.only Keeps).Triple (promise false n) (Retiring n k) [.asyncWhileInflight]
      (fun s => Books n s ∧ s.poller.tileEventsInflight = k) := by
  refine Triple.atom (stable_retiring cfg n k) (fun s hs => hs.books.inv) (fun _ _ => trivial)
    ((stable_books cfg n).and (stable_env cfg fun _ _ h hs => by rw [h.poller]; exact hs))
    (fun s hs => hs.1.inv) fun s t m hs hp => ?_
  obtain ⟨-, hp⟩ := perform_only hp
  cases hp
  refine ⟨rfl, ?_, hs.inflight⟩
  exact {
    clean := hs.books.clean
    ring := hs.books.ring.congr rfl
    done_le := hs.books.done_le
    values := hs.books.values
    latest := fun _ => hs.books.latest hs.async
    inflight := fun h => decide_eq_true h
    settled := fun h => hs.caught_up (by
      have := of_decide_eq_false h
      have := hs.inflight
      omega) }

theorem books_nil : (cfg.machine.only Keeps).Triple (promise false n) (Books n) [] (Books n) :=
  Triple.nil (stable_books cfg n) fun _ h => h.inv

/-- **`poll_tile_events`**, by the number of events that are pending. -/
theorem books_pollTileEvents (hn : n < wordSize) (k : Nat) :
    (cfg.machine.only Keeps).Triple (promise false n)
      (fun s => Books n s ∧ s.poller.tileEventsInflight = k) [.pollTileEvents] (Books n) := by
  induction k with
  | zero =>
    refine Triple.expand ((stable_books cfg n).and
        (stable_env cfg fun _ _ h hs => by rw [h.poller]; exact hs)) (fun s hs => hs.1.inv)
      (fun _ _ => trivial) (fun s => perform_only_of (A := Keeps) trivial) fun s hs => ?_
    unfold Config.pollTileEvents
    dsimp only
    rw [if_neg (by rw [hs.2]; exact fun h => Nat.lt_irrefl 0 h.1)]
    exact books_nil s hs.1
  | succ k ih =>
    refine Triple.expand ((stable_books cfg n).and
        (stable_env cfg fun _ _ h hs => by rw [h.poller]; exact hs)) (fun s hs => hs.1.inv)
      (fun _ _ => trivial) (fun s => perform_only_of (A := Keeps) trivial) fun s hs => ?_
    unfold Config.pollTileEvents
    dsimp only
    split
    · have hpos : 0 < s.poller.tileEventsInflight := by omega
      have hmem : s.poller.pendingTileEvents s.poller.tileEventTail ∈ s.poller.pendingEvents := by
        rw [(hs.1.ring.retire hpos).2]
        exact List.mem_cons_self ..
      have hpub := books_publish cfg hn hpos (hs.1.values _ hmem) cfg.dTileChunkDone
        (s.poller.pendingTileEvents s.poller.tileEventTail).tileIds
      have hall := hpub.append (Triple.cons (books_retire hs.2)
        (Triple.cons (books_asyncWhileInflight k) ih))
      rw [List.append_assoc] at hall
      exact hall s ⟨hs.1, rfl⟩
    · exact books_nil s hs.1

/-- The loop over the pending events at the end of the thread. -/
theorem books_drainTileEvents (cfg : Config) (hn : n < wordSize) (k : Nat) :
    (cfg.machine.only Keeps).Triple (promise false n) (Retiring n k) [.drainTileEvents]
      (Retiring n 0) := by
  induction k with
  | zero =>
    refine Triple.expand (stable_retiring cfg n 0) (fun s hs => hs.books.inv) (fun _ _ => trivial)
      (fun s => perform_only_of (A := Keeps) trivial) fun s hs => ?_
    unfold Config.drainTileEvents
    dsimp only
    rw [if_neg (by rw [hs.inflight]; exact Nat.lt_irrefl 0)]
    have hnil : (cfg.machine.only Keeps).Triple (promise false n) (Retiring n 0) [] (Retiring n 0) :=
      Triple.nil (stable_retiring cfg n 0) fun _ h => h.books.inv
    exact hnil s hs
  | succ k ih =>
    refine Triple.expand (stable_retiring cfg n (k + 1)) (fun s hs => hs.books.inv)
      (fun _ _ => trivial) (fun s => perform_only_of (A := Keeps) trivial) fun s hs => ?_
    have hpos : 0 < s.poller.tileEventsInflight := by
      rw [hs.inflight]
      exact Nat.zero_lt_succ k
    unfold Config.drainTileEvents
    dsimp only
    rw [if_pos hpos]
    have hmem : s.poller.pendingTileEvents s.poller.tileEventTail ∈ s.poller.pendingEvents := by
      rw [(hs.books.ring.retire hpos).2]
      exact List.mem_cons_self ..
    have hpub := books_publish cfg hn hpos (hs.books.values _ hmem) false
      (s.poller.pendingTileEvents s.poller.tileEventTail).tileIds
    have hall := hpub.append (Triple.cons (books_retire hs.inflight) ih)
    rw [List.append_assoc] at hall
    exact hall s ⟨hs.books, rfl⟩

/-! ## Waiting for what is outstanding -/

/-- With no event pending. -/
theorem stable_unpending (cfg : Config) (n : Nat) :
    cfg.machine.Stable fun s => Books n s ∧ s.poller.tileEventsInflight = 0 :=
  (stable_books cfg n).and (stable_env cfg fun _ _ h hs => by rw [h.poller]; exact hs)

theorem stable_idled (cfg : Config) (n : Nat) (async : Bool) : cfg.machine.Stable fun s =>
    (Books n s ∧ s.poller.tileEventsInflight = 0) ∧ s.poller.hasAsyncDma = async :=
  (stable_unpending cfg n).and (stable_env cfg fun _ _ h hs => by rw [h.poller]; exact hs)

/-- Waiting leaves the books as they are. -/
theorem books_waitCompletion (hd : cfg.Deferred) (async : Bool) :
    (cfg.machine.only Keeps).Triple (promise false n)
      (fun s => (Books n s ∧ s.poller.tileEventsInflight = 0) ∧ s.poller.hasAsyncDma = async)
      [.waitCompletion]
      (fun s => (Books n s ∧ s.poller.tileEventsInflight = 0) ∧ s.poller.hasAsyncDma = async) :=
  have hl : ∀ c ∈ [Call.waitCompletion], c.Aside fun _ => True := List.forall_mem_singleton.mpr trivial
  (aside_triple hd.noSignalBuf (stable_idled cfg n async) (fun _ hs => hs.1.1.inv)
    (fun _ s hc _ => proper_of_aside hc s) (fun _ hs => hs.1.1.clean)
    (fun _ _ ha hs => ⟨⟨hs.1.1.aside ha, (Poller.inflight_congr ha.tileRing).trans hs.1.2⟩,
      ha.hasAsyncDma.trans hs.2⟩) hl).only

theorem books_settleStaging (hd : cfg.Deferred) :
    (cfg.machine.only Keeps).Triple (promise false n)
      (fun s => Books n s ∧ s.poller.tileEventsInflight = 0) [.settleStaging]
      (fun s => Books n s ∧ s.poller.tileEventsInflight = 0) := by
  refine Triple.expand (stable_unpending cfg n) (fun s hs => hs.1.inv) (fun _ _ => trivial)
    (fun s => perform_only_of (A := Keeps) trivial) fun s hs => ?_
  have hclear : (cfg.machine.only Keeps).Triple (promise false n)
      (fun s => Books n s ∧ s.poller.tileEventsInflight = 0) [.clearInflight]
      (fun s => Books n s ∧ s.poller.tileEventsInflight = 0) :=
    Triple.atom (stable_unpending cfg n) (fun s hs => hs.1.inv) (fun _ _ => trivial)
      (stable_unpending cfg n) (fun s hs => hs.1.inv) fun s t m hs hp => by
        obtain ⟨-, hp⟩ := perform_only hp
        cases hp
        exact ⟨rfl, hs.1.congr rfl hs.1.clean rfl rfl rfl, hs.2⟩
  have hnil : (cfg.machine.only Keeps).Triple (promise false n)
      (fun s => Books n s ∧ s.poller.tileEventsInflight = 0) []
      (fun s => Books n s ∧ s.poller.tileEventsInflight = 0) :=
    Triple.nil (stable_unpending cfg n) fun _ h => h.1.inv
  unfold Config.settleStaging
  split
  · exact Triple.cons ((books_waitCompletion hd s.poller.hasAsyncDma).conseq (fun _ h => h)
      fun _ h => h.1) hclear s ⟨hs, rfl⟩
  · exact hnil s hs

/-- `done_idx` has caught up. -/
theorem books_clearAsync (cfg : Config) (n : Nat) :
    (cfg.machine.only Keeps).Triple (promise false n)
      (fun s => (Books n s ∧ s.poller.tileEventsInflight = 0) ∧ s.doneIdx = n) [.clearAsync]
      (fun s => (Books n s ∧ s.poller.tileEventsInflight = 0) ∧ s.poller.hasAsyncDma = false) := by
  refine Triple.atom ((stable_unpending cfg n).and
      (stable_env cfg fun _ _ h hs => by rw [h.doneIdx]; exact hs)) (fun s hs => hs.1.1.inv)
    (fun _ _ => trivial) (stable_idled cfg n false) (fun s hs => hs.1.1.inv) fun s t m hs hp => ?_
  obtain ⟨-, hp⟩ := perform_only hp
  cases hp
  obtain ⟨⟨hs, hinfl⟩, hdone⟩ := hs
  refine ⟨rfl, ⟨?_, hinfl⟩, rfl⟩
  exact {
    clean := hs.clean
    ring := hs.ring.congr rfl
    done_le := hs.done_le
    values := hs.values
    latest := nofun
    inflight := fun h => absurd (hinfl ▸ h) (Nat.lt_irrefl 0)
    settled := fun _ => hdone }

/-- If copies are outstanding, wait for them and publish. -/
theorem books_settleAsync (hd : cfg.Deferred) (hn : n < wordSize) :
    (cfg.machine.only Keeps).Triple (promise false n)
      (fun s => Books n s ∧ s.poller.tileEventsInflight = 0) [.settleAsync]
      (fun s => (Books n s ∧ s.poller.tileEventsInflight = 0) ∧ s.poller.hasAsyncDma = false) := by
  refine Triple.expand (stable_unpending cfg n) (fun s hs => hs.1.inv) (fun _ _ => trivial)
    (fun s => perform_only_of (A := Keeps) trivial) fun s hs => ?_
  have hpublish : (cfg.machine.only Keeps).Triple (promise false n)
      (fun s => (Books n s ∧ s.poller.tileEventsInflight = 0) ∧ s.poller.hasAsyncDma = true)
      [.publishDone]
      (fun s => (Books n s ∧ s.poller.tileEventsInflight = 0) ∧ s.doneIdx = n) := by
    refine Triple.atom (stable_idled cfg n true) (fun s hs => hs.1.1.inv)
      (fun _ _ => trivial) ((stable_unpending cfg n).and
        (stable_env cfg fun _ _ h hs => by rw [h.doneIdx]; exact hs)) (fun s hs => hs.1.1.inv)
      fun s t m hs hp => ?_
    obtain ⟨-, hp⟩ := perform_only hp
    cases hp
    obtain ⟨⟨hs, hinfl⟩, hasync⟩ := hs
    have hdone : word s.poller.latestAsyncRead = n := by rw [hs.latest hasync, word_of_lt hn]
    refine ⟨rfl, ⟨?_, hinfl⟩, hdone⟩
    exact {
      clean := hs.clean
      ring := hs.ring
      done_le := Nat.le_of_eq hdone
      values := hs.values
      latest := hs.latest
      inflight := hs.inflight
      settled := fun _ => hdone }
  have hnil : (cfg.machine.only Keeps).Triple (promise false n)
      (fun s => (Books n s ∧ s.poller.tileEventsInflight = 0) ∧ s.poller.hasAsyncDma = false) []
      (fun s => (Books n s ∧ s.poller.tileEventsInflight = 0) ∧ s.poller.hasAsyncDma = false) :=
    Triple.nil (stable_idled cfg n false) fun _ h => h.1.1.inv
  unfold Config.settleAsync
  split
  · rename_i hasync
    exact Triple.cons (books_waitCompletion hd true) (Triple.cons hpublish (books_clearAsync cfg n)) s
      ⟨hs, hasync⟩
  · rename_i hasync
    exact hnil s ⟨hs, by simpa using hasync⟩

/-- An idle iteration. -/
theorem books_idle (hd : cfg.Deferred) (hn : n < wordSize) :
    (cfg.machine.only Keeps).Triple (promise false n) (Books n) [.idle] (Books n) := by
  refine Triple.expand (stable_books cfg n) (fun _ h => h.inv) (fun _ _ => trivial)
    (fun s => perform_only_of (A := Keeps) trivial) fun s hs => ?_
  unfold Config.idle
  split
  · exact books_pollTileEvents hn _ s ⟨hs, rfl⟩
  · split
    · have hinfl : s.poller.tileEventsInflight = 0 := by omega
      exact ((Triple.cons (books_settleStaging hd) (books_settleAsync hd hn)).conseq (fun _ h => h)
        fun _ h => h.1.1) s ⟨hs, hinfl⟩
    · exact books_nil s hs

/-- The end of the thread. -/
theorem books_finish (hd : cfg.Deferred) (hn : n < wordSize) :
    (cfg.machine.only Keeps).Triple (promise false n) (Books n) [.finish]
      (fun s => (Books n s ∧ s.poller.tileEventsInflight = 0) ∧ s.poller.hasAsyncDma = false) := by
  refine Triple.expand (stable_books cfg n) (fun _ h => h.inv) (fun _ _ => trivial)
    (fun s => perform_only_of (A := Keeps) trivial) fun s hs => ?_
  have hsettle := Triple.cons (books_settleStaging (n := n) hd) (books_settleAsync hd hn)
  unfold Config.finish
  split
  · rename_i hpos
    obtain ⟨k, hk⟩ : ∃ k, s.poller.tileEventsInflight = k + 1 :=
      ⟨_, (Nat.sub_add_cancel hpos).symm⟩
    have hl : ∀ c ∈ [Call.waitCompletion], c.Aside fun _ => True :=
      List.forall_mem_singleton.mpr trivial
    have hwait := (aside_triple hd.noSignalBuf (stable_retiring cfg n (k + 1))
      (fun _ hs => hs.books.inv) (fun _ s hc _ => proper_of_aside hc s) (fun _ hs => hs.books.clean)
      (fun _ _ ha hs => ⟨hs.books.aside ha, (Poller.inflight_congr ha.tileRing).trans hs.inflight,
        ha.hasAsyncDma.trans hs.async, fun h => ha.doneIdx.trans (hs.caught_up h)⟩) hl).only (A := Keeps)
    have hdrain := (books_drainTileEvents cfg hn (k + 1)).conseq (fun _ h => h)
      fun s (h : Retiring n 0 s) => show (Books n s ∧ s.poller.tileEventsInflight = 0) ∧
        s.doneIdx = n from ⟨⟨h.books, h.inflight⟩, h.caught_up rfl⟩
    have hclear := (books_clearAsync cfg n).conseq (fun _ h => h)
      fun s (h : (Books n s ∧ s.poller.tileEventsInflight = 0) ∧ s.poller.hasAsyncDma = false) => h.1
    exact Triple.cons hwait (Triple.cons hdrain (Triple.cons hclear hsettle)) s
      ⟨hs, hk, hs.inflight hpos, by simp⟩
  · have hinfl : s.poller.tileEventsInflight = 0 := by omega
    exact hsettle s ⟨hs, hinfl⟩

/-! ## Every run -/

theorem duty (hd : cfg.Deferred) : DutyOn cfg (cfg.machine.only Keeps)
    (fun s => s.Base ∧ s.readIdx < wordSize)
    (fun flushing fl => promise flushing (Loop.flushedCount fl))
    fun fl s => Loop.flushedCount fl < wordSize ∧ Books (Loop.flushedCount fl) s where
  stable _ := (Script.Machine.Stable.const _).and (stable_books cfg _)
  inv flushing _ _ hr := hr.2.promised flushing fun _ => rfl
  flush t fl h hW hpc hne hfl hr := by
    have hread := (hW.1.batch_slots hpc hfl).1
    have hcount : Loop.flushedCount t.flushed = t.readIdx := by
      rw [hfl, hread]
      simp [Loop.flushedCount]
    rw [hcount]
    exact ((books_flush hd hne (by omega)).conseq (fun _ h => h)
      fun _ h => ⟨hW.2, h⟩).outlined hr.2
  idle fl _ hr := ((books_idle hd hr.1).conseq (fun _ h => h) fun _ h => ⟨hr.1, h⟩).outlined hr.2
  finish fl _ hr :=
    ((books_finish hd hr.1).conseq (fun _ h => h) fun _ h => ⟨hr.1, h.1.1⟩).outlined hr.2

/-- What a call does to the queue of pending events. -/
def Turn (s t : Host) : Call → Prop
  | .pushTileEvent batch v =>
    t.poller.pendingEvents = s.poller.pendingEvents ++ [⟨v, s.poller.tileIds batch⟩]
  | .retireTileEvent =>
    ∃ e, s.poller.pendingEvents = e :: t.poller.pendingEvents ∧ e.doneValue ≤ t.doneIdx
  | _ => t.poller.pendingEvents = s.poller.pendingEvents

theorem turn_perform {c : Call} {m : List Call} (hkeep : Keeps c s) (hc : Proper c s)
    (hp : cfg.perform s c = some (t, m)) : Turn s t c := by
  have kept : (∀ batch v, c ≠ .pushTileEvent batch v) → c ≠ .retireTileEvent →
      t.poller.pendingEvents = s.poller.pendingEvents := fun hpush hretire =>
    Poller.pendingEvents_congr (tileRing_perform hp hpush hretire)
  cases c with
  | pushTileEvent batch v => cases hp; exact (hc.push hkeep batch v).2
  | retireTileEvent =>
    cases hp
    exact ⟨_, (hc.1.retire hc.2.1).2, hc.2.2⟩
  | _ => exact kept nofun nofun

/-- No call records a CUDA event that a pending tile event waits for. -/
theorem mark_perform {c : Call} {m : List Call} (hring : s.poller.TileRing) (hkeep : Keeps c s)
    (hc : Proper c s) (hp : cfg.perform s c = some (t, m)) {k : Nat}
    (hk : k < s.poller.tileEventsInflight) :
    t.device.mark (.tile (s.poller.tileSlot k)) = s.device.mark (.tile (s.poller.tileSlot k)) := by
  have other : c.MarksNoTile →
      t.device.mark (.tile (s.poller.tileSlot k)) = s.device.mark (.tile (s.poller.tileSlot k)) :=
    fun hno => tileMark_perform hno hp _
  cases c with
  | pushTileEvent batch v =>
    cases hp
    have hroom : s.poller.tileEventsInflight < maxPendingTileEvents := hkeep
    refine Device.record_mark_of_ne s.device (fun he => ?_) _
    have hslot : s.poller.tileSlot k = s.poller.tileSlot s.poller.tileEventsInflight :=
      (Event.tile.inj he).trans hring.head_eq
    have := s.poller.tileSlot_inj (Nat.lt_trans hk hroom) hroom hslot
    omega
  | eventRecord | recordEventOnLastStream => exact other hc
  | _ => exact other trivial

/-- The pending events are a queue of at most 32, and nothing is outstanding unpublished. -/
structure Retires {cfg : Config} (s : Loop cfg.backend) : Prop where
  inflight_le : s.backend.data.poller.tileEventsInflight ≤ maxPendingTileEvents
  turn : ∀ t c rest, s.backend.todo = c :: rest → Keeps c s.backend.data →
    s.openStep (.loop (.backend .perform)) = some t → Turn s.backend.data t.backend.data c
  /-- Only the thread's calls touch the queue. -/
  waits : ∀ a t, a ≠ .loop (.backend .perform) → s.openStep a = some t →
    t.backend.data.poller.pendingEvents = s.backend.data.poller.pendingEvents
  /-- The CUDA events of pending tile events are left alone. -/
  marks : ∀ a t, cfg.Allowed Keeps s a → s.openStep a = some t →
    ∀ k < s.backend.data.poller.tileEventsInflight,
      t.backend.data.device.mark (.tile (s.backend.data.poller.tileSlot k)) =
        s.backend.data.device.mark (.tile (s.backend.data.poller.tileSlot k))
  caught_up : s.batch = [] → s.backend.data.poller.tileEventsInflight = 0 →
    s.backend.data.poller.hasAsyncDma = false → s.backend.data.doneIdx = s.readIdx
  /-- The thread stops with every event retired. -/
  retired : s.pc = .stopped → s.backend.data.poller.pendingEvents = []

/-- **No deferred completion is lost** in a run that keeps to `Keeps`, as long as fewer than `2^64`
slots have been popped. -/
theorem retires_of_reachable (hd : cfg.Deferred) {user : Nat → UInt8} {staging : Nat → Nat → UInt8}
    {gpu : Nat → UInt8} {s : Loop cfg.backend}
    (hs : Reachable Loop.openStep (cfg.Allowed Keeps) (· = cfg.start (.init user staging gpu)) s)
    (hlt : s.readIdx < wordSize) : Retires s := by
  have hbase := Loop.base_of_reachable hs
  have hs := Loop.reachable_bounded hs hlt
  have h0 : Loop.flushedCount [] < wordSize ∧ Books (Loop.flushedCount [])
      (.init user staging gpu) := ⟨by decide, books_init user staging gpu⟩
  have hW : ∀ s, Reachable Loop.openStep (fun (s : Loop cfg.backend) a => cfg.Allowed Keeps s a ∧
      ∀ t, s.openStep a = some t → t.readIdx < wordSize) (· = cfg.start (.init user staging gpu)) s →
      s.Base ∧ s.readIdx < wordSize := fun s hs =>
    ⟨Loop.base_of_reachable hs, Loop.readIdx_lt_of_bounded (by decide) hs⟩
  have hatt := (duty hd).attended_allowed h0 hW (fun _ _ hc => hc.1) hs
  have hring : s.backend.data.poller.TileRing := hatt.2.inv.1
  have hproper : ∀ c rest, s.backend.todo = c :: rest → Proper c s.backend.data := fun c rest hc =>
    hatt.2.pre hc
  refine ⟨hring.inflight_le, fun t c rest hc hkeep hst => ?_, fun a t ha hst => ?_,
    fun a t hok hst k hk => ?_, fun hnil _ hasync => ?_, fun hpc => ?_⟩
  · obtain ⟨m, hp⟩ := perform_of_openStep hc hst
    exact turn_perform hkeep (hproper c rest hc) hp
  · rcases env_of_openStep hbase ha hst with he | he
    · rw [he]
    · rw [he.poller]
  · by_cases ha : a = .loop (.backend .perform)
    · subst ha
      cases htodo : s.backend.todo with
      | nil =>
        obtain ⟨u, hu, -⟩ := Option.map_eq_some_iff.mp hst
        have hu : cfg.machine.step s.backend .perform = some u := hu
        simp only [Script.Machine.step, htodo] at hu
        cases hu
      | cons c rest =>
        obtain ⟨m, hp⟩ := perform_of_openStep htodo hst
        exact mark_perform hring (hok c rest htodo) (hproper c rest htodo) hp hk
    · rcases env_of_openStep hbase ha hst with he | he
      · rw [he]
      · rw [he.mark]
  · have hpc := hbase.not_flushing hnil
    have hbooks : Books (Loop.flushedCount s.flushed) s.backend.data :=
      hatt.2.inv.2 (beq_eq_false_iff_ne.mpr hpc)
    have hnow : s.readIdx = Loop.flushedCount s.flushed := by
      rw [hbase.readIdx_eq, if_neg hpc, hnil]
      rfl
    rw [hbooks.settled hasync, hnow]
  · have hend := (duty hd).ended (Q := fun fl s => (Books (Loop.flushedCount fl) s ∧
        s.poller.tileEventsInflight = 0) ∧ s.poller.hasAsyncDma = false)
      (fun _ => stable_idled cfg _ false) (fun _ _ hr => (books_finish hd hr.1).outlined hr.2) h0 hW
      (fun s b u hc hu => step_only hu fun hb => by subst hb; exact hc.1) hs
    have hinfl := (hend.2 hpc).2.1.2
    simp only [Poller.pendingEvents, hinfl, List.range_zero, List.map_nil]

section Example

open Deferred (memory commit poll loads perform copied)

/-- One channel. -/
private def deferred : Config := Deferred.config 1 Nat.one_pos one_le_maxCeChannels

private structure Summary where
  batch : List Descriptor
  inflight : Nat
  async : Bool
  doneIdx : Nat
  readIdx : Nat
  returned : Bool
  deriving DecidableEq

private def summary (s : Loop deferred.backend) : Summary :=
  ⟨s.batch, s.backend.data.poller.tileEventsInflight, s.backend.data.poller.hasAsyncDma,
    s.backend.data.doneIdx, s.readIdx, s.backend.todo.isEmpty⟩

/-- Two batches of one marked descriptor each are flushed before any copy is made. -/
private def flushes : List (Loop.OpenAct deferred.backend) :=
  commit 0 4096 8192 flagLastInTile ++ commit 1 20480 32768 flagLastInTile ++
    poll 2 ++ loads ++ poll 4 ++ perform deferred 8 ++ poll 1 ++
    poll 2 ++ loads ++ poll 4 ++ perform deferred 8

/-- The first idle iteration finds neither event complete. Both copies are made, and the next one
retires both. -/
private def retires : List (Loop.OpenAct deferred.backend) :=
  poll 3 ++ perform deferred 2 ++ copied deferred 0 ++ copied deferred 0 ++ poll 2 ++
    perform deferred 12

/-- Two events are pending at once, and they are retired in turn. -/
theorem retires_of_reachable_two : ∃ s t,
    Reachable Loop.openStep (deferred.Allowed Keeps) (· = deferred.start memory) s ∧
      s.backend.data.poller.tileEventsInflight = 2 ∧ s.backend.data.doneIdx = 0 ∧ Retires s ∧
      Reachable Loop.openStep (deferred.Allowed Keeps) (· = deferred.start memory) t ∧
      t.backend.data.poller.tileEventsInflight = 0 ∧ t.backend.data.doneIdx = 2 ∧ Retires t := by
  have hflush : (runWhile Loop.openStep (deferred.Allowed Keeps) (deferred.start memory)
      flushes).map summary = some ⟨[⟨20480, 32768, 16, 4, 0, 1⟩], 2, true, 0, 2, true⟩ := by
    decide +kernel
  have hretire : (runWhile Loop.openStep (deferred.Allowed Keeps) (deferred.start memory)
      (flushes ++ retires)).map summary = some ⟨[], 0, false, 2, 2, true⟩ := by decide +kernel
  obtain ⟨s, hs, hout⟩ := Option.map_eq_some_iff.mp hflush
  simp only [summary, Summary.mk.injEq] at hout
  obtain ⟨-, hpending, -, hdone, hread, -⟩ := hout
  obtain ⟨t, ht, hout'⟩ := Option.map_eq_some_iff.mp hretire
  simp only [summary, Summary.mk.injEq] at hout'
  obtain ⟨-, hpending', -, hdone', hread', -⟩ := hout'
  have hreach := (Reachable.self (deferred.start memory)).runWhile hs
  have hreach' := (Reachable.self (deferred.start memory)).runWhile ht
  exact ⟨s, t, hreach, hpending, hdone,
    retires_of_reachable ⟨rfl, rfl, rfl⟩ hreach (by rw [hread]; decide), hreach', hpending', hdone',
    retires_of_reachable ⟨rfl, rfl, rfl⟩ hreach' (by rw [hread']; decide)⟩

/-- A marked descriptor and an urgent one without a tile marker are flushed one after the other.
The idle iteration behind them retires the event of the first and forgets the second. -/
theorem exists_unpublished : ∃ s,
    Reachable Loop.openStep Always (· = deferred.start memory) s ∧ s.batch = [] ∧
      s.backend.data.poller.tileEventsInflight = 0 ∧
      s.backend.data.poller.hasAsyncDma = false ∧ s.backend.data.doneIdx = 1 ∧ s.readIdx = 2 ∧
      ¬ Retires s := by
  have h : (run Loop.openStep (deferred.start memory)
      (commit 0 4096 8192 flagLastInTile ++ commit 1 4096 8192 flagUrgent ++
        poll 2 ++ loads ++ poll 4 ++ perform deferred 8 ++ poll 1 ++
        poll 2 ++ loads ++ poll 5 ++ perform deferred 7 ++
        copied deferred 0 ++ copied deferred 0 ++ poll 3 ++ perform deferred 7)).map
      summary = some ⟨[], 0, false, 1, 2, true⟩ := by decide +kernel
  obtain ⟨s, hs, hout⟩ := Option.map_eq_some_iff.mp h
  simp only [summary, Summary.mk.injEq] at hout
  obtain ⟨hbatch, hinfl, hasync, hdone, hread, -⟩ := hout
  refine ⟨s, (Reachable.self (deferred.start memory)).run_always hs, hbatch, hinfl, hasync, hdone,
    hread, fun hr => ?_⟩
  have hcaught := hr.caught_up hbatch hinfl hasync
  rw [hdone, hread] at hcaught
  cases hcaught

end Example

end DeferredCompletion
end Gfd
