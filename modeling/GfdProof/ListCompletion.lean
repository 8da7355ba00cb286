import Mathlib
import GfdProof.ListArrivals
import GfdProof.ListRing
import GfdProof.DeferredSignals

/-! # The completion of lists

The transfer warps, the ring and the polling thread with its calls, over a scatter-gather queue.  A
list is counted once, by the call for the batch it ends in, and its signal comes behind every copy
for its descriptors, those of parts that went to `process_batch` before included
(`counted_of_reachable`).

`lists_completed` is a count of lists that have arrived where the thread waits for the copies before
it raises it; with `d_list_done` and a signal stream it does not, and the count comes first
(`exists_counted_ahead`).  No data is looked at here, only which copies have been submitted and
performed.
-/
namespace Gfd

open Loop (flushedCount flushedCount_concat Cut Whole Open)

namespace ListCompletion

open WorkStreams Script.Machine Transition
open BatchDelivery (Emptied emptied_calls stable_emptied transferred kept)
open Completion (CopiesDone Served)
open DeferredSignals (Completed served_processBatch completed_of_copiesDone)
open ListArrivals
open QueueDelivery (sent sent_concat)

variable {cfg : Config} {fl : Flushed} {s t : Host}

/-! ## The copies that have been submitted -/

/-- A copy has been submitted for each of the descriptors. -/
def AllServed (ds : List Descriptor) (s : Host) : Prop := ∀ d ∈ ds, Served s d.slot

theorem AllServed.grows {ds : List Descriptor} (h : s.device.Grows t.device) (hs : AllServed ds s) :
    AllServed ds t := fun d hd => (hs d hd).grows h

theorem allServed_append {ds ds' : List Descriptor} (hs : AllServed ds s) (hs' : AllServed ds' s) :
    AllServed (ds ++ ds') s := List.forall_mem_append.mpr ⟨hs, hs'⟩

theorem stable_allServed (ds : List Descriptor) : cfg.machine.Stable (AllServed ds) :=
  stable_env cfg fun _ _ h hs => hs.grows (Completion.grows_env h)

/-- No call takes a copy back. -/
theorem served_calls (ds : List Descriptor) (l : List Call) :
    cfg.machine.Triple (.always (AllServed ds)) (AllServed ds) l (AllServed ds) :=
  Triple.closed (K := fun _ => True) (stable_allServed ds) (fun _ h => h) (fun _ _ => .inr fun _ hs =>
    ⟨trivial, fun _ _ hp => ⟨hs.grows (grows_perform cfg hp), fun _ _ => trivial⟩⟩) fun _ _ => trivial

/-- Every descriptor of a group is in one of its entries. -/
theorem exists_groupEntries {ds : List Descriptor} {d : Descriptor} (hd : d ∈ ds) :
    ∃ e ∈ groupEntries ds, d ∈ e.2 := by
  unfold groupEntries
  split
  · exact ⟨_, List.mem_singleton_self _, hd⟩
  · split
    · exact ⟨_, List.mem_singleton_self _, hd⟩
    · exact ⟨_, List.mem_map_of_mem hd, List.mem_singleton_self _⟩

/-- The submissions of `process_batch_sg` serve what it keeps of its batch. -/
theorem served_groups {batch : List Descriptor} {groups : List (Nat × List Descriptor)}
    (hg : Grouped maxSgLists batch groups) : cfg.Free (fun _ => True)
      (groups.map fun g => .submit ((groupEntries g.2).map fun e => .data e.1 e.2))
      (AllServed (kept maxSgLists batch)) := by
  refine (Triple.forall (M := cfg.machine) (ι := Descriptor) fun d => ?_).conseq (fun _ h => h)
    fun s (hs : ∀ d, d ∈ kept maxSgLists batch → Served s d.slot) => hs
  by_cases hd : d ∈ kept maxSgLists batch
  · obtain ⟨hmem, hlt⟩ := List.mem_filter.mp hd
    obtain ⟨g, hgm, hid⟩ := List.mem_map.mp (hg.complete d hmem (of_decide_eq_true hlt))
    have hdg : d ∈ g.2 := by
      rw [(hg.group g hgm).2]
      exact List.mem_filter.mpr ⟨hmem, beq_iff_eq.mpr hid.symm⟩
    obtain ⟨e, he, hde⟩ := exists_groupEntries hdg
    obtain ⟨pre, post, rfl⟩ := List.append_of_mem hgm
    rw [List.map_append, List.map_cons]
    have hserved : cfg.Free (fun _ => True)
        [.submit ((groupEntries g.2).map fun e => .data e.1 e.2)] fun s => Served s d.slot :=
      (queued_submit cfg (List.mem_map_of_mem he)).conseq (fun _ h => h) fun s h => by
        obtain ⟨ch, i, hw⟩ := h
        exact ⟨_, i, e.1, e.2, hw, d, hde, rfl⟩
    exact ((upward_calls cfg (P := fun _ => True) (fun _ _ _ h => h) _).append
      (Triple.cons hserved (upward_calls cfg (fun _ _ h hs => hs.grows h) _))).conseq (fun _ h => h)
      fun _ hs _ => hs
  · exact (upward_calls cfg (P := fun _ => True) (fun _ _ _ h => h) _).conseq (fun _ h => h)
      fun _ _ h => absurd h hd

/-! ## The host between calls -/

/-- The signals stand for batches whose copies have been submitted. -/
def Claimed (cfg : Config) (fl : Flushed) (s : Host) : Prop :=
  ∃ p, p <+: fl ∧ Shown cfg p s ∧ AllServed (sent cfg p) s

/-- The host between calls. -/
structure Rest (cfg : Config) (fl : Flushed) (s : Host) : Prop where
  quiet : s.Quiet cfg
  emptied : Emptied s
  lists : Lists cfg fl (listed fl) (listed fl).length s
  served : AllServed (sent cfg fl) s

theorem Rest.claimed (s : Host) (hs : Rest cfg fl s) : Claimed cfg fl s :=
  ⟨fl, List.prefix_refl fl, hs.lists.shown, hs.served⟩

theorem stable_rest (fl : Flushed) : cfg.machine.Stable (Rest cfg fl) := fun s e t hs h =>
  ⟨stable_covered cfg s e t hs.quiet h, stable_emptied s e t hs.emptied h,
    stable_lists _ _ _ s e t hs.lists h, stable_allServed _ s e t hs.served h⟩

theorem rest_init (cfg : Config) (user : Nat → UInt8) (staging : Nat → Nat → UInt8)
    (gpu : Nat → UInt8) : Rest cfg [] (.init user staging gpu) where
  quiet := Host.covered_init cfg user staging gpu
  emptied := ⟨rfl, rfl⟩
  lists := lists_init cfg user staging gpu
  served _ h := absurd h List.not_mem_nil

/-- Calls that submit nothing and signal nothing. -/
theorem rest_leaves {l : List Call} (ho : ∀ c ∈ l, c.Outer) (hl : ∀ c ∈ l, Leaves c) :
    cfg.machine.Triple (.always (Claimed cfg fl)) (Rest cfg fl) l (Rest cfg fl) := by
  have hlists : cfg.machine.Triple _ _ _ _ := lists_leaves fl (listed fl) (listed fl).length
    (Nat.le_refl _) fun c hc => .inl (hl c hc)
  exact ((((covered_calls cfg ho).and (emptied_calls l)).and
    (hlists.and (served_calls (sent cfg fl) l))).weaken (T := .always (Claimed cfg fl))
    (fun _ h => ⟨fl, List.prefix_refl fl, h.2.1, h.2.2⟩) fun _ _ _ => trivial).conseq
    (fun s h => ⟨⟨h.quiet, h.emptied⟩, h.lists, h.served⟩) fun s h => ⟨h.1.1, h.1.2, h.2.1, h.2.2⟩

/-! ## Flushing a batch -/

/-- **`process_batch_sg`** -/
theorem rest_processBatchSg (hc : cfg.Listed) {b : List Descriptor × Nat}
    (hflag : hasFlag b.2 flagLastInTile = true) (hslots : ∀ d ∈ b.1, flushedCount fl ≤ d.slot) :
    cfg.machine.Triple (.always (Claimed cfg (fl ++ [b]))) (Rest cfg fl) [.processBatchSg b.1]
      (Rest cfg (fl ++ [b])) := by
  have hkept := transferred_of_flag hc hflag
  have hmain := lists_processBatchSg hc hflag hslots (P := AllServed (sent cfg fl))
    (I := AllServed (sent cfg fl)) (J := AllServed (sent cfg (fl ++ [b])))
    (Q := AllServed (sent cfg (fl ++ [b]))) (stable_allServed _) (fun _ h => h) fun groups hg => by
      refine ⟨AllServed (sent cfg fl), AllServed (sent cfg (fl ++ [b])), fun s m hs => hs, ?_,
        served_calls _ _⟩
      refine (((served_calls (sent cfg fl) _).and (served_groups hg)).weaken (fun _ h => h.1)
        fun _ _ _ => trivial).conseq (fun _ h => ⟨h, trivial⟩) fun s h => ?_
      rw [sent_concat, hkept]
      exact allServed_append h.1 h.2
  exact ((((covered_calls cfg (l := [.processBatchSg b.1])
    (List.forall_mem_singleton.mpr trivial)).and (emptied_calls _)).and hmain).weaken (T := .always (Claimed cfg (fl ++ [b]))) (fun s h => h.2.elim
      (fun h => ⟨fl, List.prefix_append fl [b], h⟩) fun h => ⟨_, List.prefix_refl _, h⟩)
    fun _ _ _ => trivial).conseq
    (fun s h => ⟨⟨h.quiet, h.emptied⟩, h.quiet, h.emptied, h.lists, h.served⟩)
    fun s h => ⟨h.1.1, h.1.2, h.2.1, h.2.2⟩

/-- A part of a list. -/
theorem rest_processBatch (hc : cfg.Listed) {b : List Descriptor × Nat} (hne : b.1 ≠ [])
    (hflag : ¬ hasFlag b.2 flagLastInTile = true) (hslots : ∀ d ∈ b.1, flushedCount fl ≤ d.slot) :
    cfg.machine.Triple (.always (Claimed cfg (fl ++ [b]))) (Rest cfg fl) [.processBatch b.1]
      (Rest cfg (fl ++ [b])) := by
  have hsent : sent cfg (fl ++ [b]) = sent cfg fl ++ b.1 := by
    rw [sent_concat]
    refine congrArg (sent cfg fl ++ ·) ?_
    unfold transferred
    rw [if_neg fun h => hflag h.2.2, if_neg fun h => by rw [hc.tiledQueue] at h; cases h.2.1]
  have hlists : cfg.machine.Triple _ _ _ _ := lists_leaves fl (listed fl) (listed fl).length
    (Nat.le_refl _) (l := [.processBatch b.1]) (List.forall_mem_singleton.mpr (.inr fun _ => hslots))
  exact ((((covered_calls cfg (l := [.processBatch b.1])
    (List.forall_mem_singleton.mpr trivial)).and (emptied_calls _)).and ((hlists.and (served_calls (sent cfg fl) _)).and (served_processBatch hne))).weaken
    (T := .always (Claimed cfg (fl ++ [b])))
    (fun s h => ⟨fl, List.prefix_append fl [b], h.2.1⟩) fun _ _ _ => trivial).conseq
    (fun s h => ⟨⟨h.quiet, h.emptied⟩, ⟨h.lists, h.served⟩, trivial⟩)
    fun s h => ⟨h.1.1, h.1.2, by
      rw [listed_of_part hflag]
      exact h.2.1.1.mono (List.prefix_append fl [b]), by
      rw [hsent]
      exact allServed_append h.2.1.2 h.2.2⟩

/-- **`flush_batch`** -/
theorem rest_flush (hc : cfg.Listed) {b : List Descriptor × Nat} (hne : b.1 ≠ [])
    (hslots : ∀ d ∈ b.1, flushedCount fl ≤ d.slot) (curRead : Nat) :
    cfg.machine.Triple (.always (Claimed cfg (fl ++ [b]))) (Rest cfg fl)
      [.flushBatch b.1 b.2 curRead] (Rest cfg (fl ++ [b])) := by
  have hset : cfg.machine.Triple (.always (Claimed cfg (fl ++ [b]))) (Rest cfg (fl ++ [b]))
      [.setAsync curRead] (Rest cfg (fl ++ [b])) := rest_leaves
    (List.forall_mem_singleton.mpr trivial) (List.forall_mem_singleton.mpr trivial)
  refine Triple.expand (stable_rest fl) (fun s hs => ?_) (fun _ _ => trivial) (fun _ => rfl) ?_
  · obtain ⟨p, hp, hclaimed⟩ := hs.claimed
    exact ⟨p, hp.trans (List.prefix_append fl [b]), hclaimed⟩
  rw [flushBatch_of_listed hc hne]
  by_cases hflag : hasFlag b.2 flagLastInTile = true
  · rw [if_pos hflag]
    exact Triple.cons (rest_processBatchSg hc hflag hslots) hset
  · rw [if_neg hflag]
    exact Triple.cons (rest_processBatch hc hne hflag hslots) hset

theorem duty (hc : cfg.Listed) :
    Duty cfg (fun s => s.Base) (fun _ fl => .always (Claimed cfg fl)) (Rest cfg) where
  stable := stable_rest
  inv _ _ s hs := hs.claimed
  flush t fl h hbase hpc hne hfl hr := by
    obtain ⟨-, hslots⟩ := hbase.batch_slots hpc hfl
    rw [hfl]
    exact (rest_flush (b := (t.batch, t.orFlags)) hc hne (fun d hd => (hslots d hd).1)
      t.readIdx).outlined hr
  idle _ _ hr := (rest_leaves (l := [.idle]) (List.forall_mem_singleton.mpr trivial)
    (List.forall_mem_singleton.mpr trivial)).outlined hr
  finish _ _ hr := (rest_leaves (l := [.finish]) (List.forall_mem_singleton.mpr trivial)
    (List.forall_mem_singleton.mpr trivial)).outlined hr

/-! ## The lists of a batch -/

/-- `process_batch_sg` gets the batches with the flag. -/
theorem flag_of_processBatchSg {batch : List Descriptor} {orFlags curRead : Nat}
    (h : .processBatchSg batch ∈ cfg.flushBatch batch orFlags curRead) :
    hasFlag orFlags flagLastInTile = true := by
  unfold Config.flushBatch at h
  dsimp only at h
  split_ifs at h with hne hsg
  · cases h
  · exact hsg.1.2
  all_goals simp at h


/-- A batch of one list signals this list. -/
theorem listsOf_of_group {b : List Descriptor × Nat} (hflag : hasFlag b.2 flagLastInTile = true)
    (hne : b.1 ≠ []) {id : Nat} (h : ∀ d ∈ b.1, d.group = id) :
    listsOf b = if id < maxSgLists then [id] else [] := by
  unfold listsOf
  rw [if_pos hflag]
  obtain ⟨⟨hnodup, hgroup, hcomplete⟩, -⟩ := groupBatch_spec maxSgLists b.1
  have hfound : ∀ x ∈ (groupBatch maxSgLists (fun _ => none) b.1).1.map Prod.fst, x = id := by
    intro x hx
    obtain ⟨d, hd, rfl⟩ := exists_of_mem_groupBatch hx
    exact h d hd
  split
  · rename_i hlt
    obtain ⟨d, hd⟩ := List.exists_mem_of_ne_nil b.1 hne
    have hmem := hcomplete d hd (by rwa [h d hd])
    generalize (groupBatch maxSgLists (fun _ => none) b.1).1.map Prod.fst = ids at hnodup hfound hmem
    rcases ids with _ | ⟨x, _ | ⟨y, ids⟩⟩
    · cases hmem
    · rw [hfound x (List.mem_singleton_self x)]
    · -- the id would come twice
      have hx := hfound x (List.mem_cons_self ..)
      have hy := hfound y (List.mem_cons_of_mem _ (List.mem_cons_self ..))
      exact absurd (hx.trans hy.symm ▸ List.mem_cons_self ..) (List.nodup_cons.mp hnodup).1
  · rename_i hlt
    refine List.eq_nil_iff_forall_not_mem.mpr fun x hx => hlt ?_
    obtain ⟨g, hg, hgx⟩ := List.mem_map.mp hx
    rw [← hfound x hx, ← hgx]
    exact (hgroup g hg).1

/-! ## The lists of a run -/

section Runs

variable {W : Type} {s : ListRing W cfg.backend}

open ListRing (Laid)

/-- A list that `process_batch_sg` does not skip. -/
def known (l : SentList) : Bool := decide (l.listId < maxSgLists)

/-- The list of a flagged batch. -/
theorem exists_listsOf (hs : s.Laid) (hv : s.ring.Valid) {p r : Flushed} {b : List Descriptor × Nat}
    (hcut : Cut b) (hfl : s.ring.loop.flushed = p ++ b :: r)
    (hflag : hasFlag b.2 flagLastInTile = true) :
    ∃ l ∈ s.lists, 0 < l.count ∧ l.past = flushedCount (p ++ [b]) ∧ flushedCount p < l.past ∧
      (∀ x, flushedCount p ≤ x → x < l.past → l.Has x) ∧
      listsOf b = if known l then [l.listId] else [] := by
  obtain ⟨l, hl, hpos, hpast, hhas⟩ := hs.exists_list hv hcut hfl hflag
  have hne : b.1 ≠ [] := by
    obtain ⟨ds, d, hb, -⟩ := hcut hflag
    rw [hb]
    exact List.append_ne_nil_of_right_ne_nil ds (List.cons_ne_nil d [])
  have hlen := List.length_pos_of_ne_nil hne
  have hgroup : ∀ d ∈ b.1, d.group = l.listId := by
    intro d hd
    rw [(hv.batch_eq hfl).2] at hd
    obtain ⟨i, hi, rfl⟩ := List.mem_map.mp hd
    have hlt := List.mem_range.mp hi
    exact hs.group hl (hhas _ (Nat.le_add_right _ _) (by omega))
  refine ⟨l, hl, hpos, by rw [flushedCount_concat, hpast], by omega, hhas, ?_⟩
  rw [listsOf_of_group hflag hne hgroup]
  unfold known
  simp only [decide_eq_true_eq]

/-- The lists signalled for a part of the batches are lists that end there. -/
theorem exists_of_listed (hs : s.Laid) (hv : s.ring.Valid) (hcut : ∀ b ∈ s.ring.loop.flushed, Cut b)
    {id : Nat} : ∀ p, p <+: s.ring.loop.flushed → id ∈ listed p →
      ∃ l ∈ s.lists, l.listId = id ∧ l.past ≤ flushedCount p := by
  intro p
  induction p using List.reverseRecOn with
  | nil => exact fun _ h => absurd h List.not_mem_nil
  | append_singleton p b ih =>
    intro hp hid
    have hle : flushedCount p ≤ flushedCount (p ++ [b]) := by
      rw [flushedCount_concat]
      exact Nat.le_add_right _ _
    rw [listed_concat] at hid
    rcases List.mem_append.mp hid with hid | hid
    · obtain ⟨l, hl, he, hpast⟩ := ih ((List.prefix_append p [b]).trans hp) hid
      exact ⟨l, hl, he, hpast.trans hle⟩
    · by_cases hflag : hasFlag b.2 flagLastInTile = true
      · obtain ⟨r, hr⟩ := hp
        rw [List.append_assoc, List.singleton_append] at hr
        obtain ⟨l, hl, -, hpast, -, -, hlist⟩ :=
          exists_listsOf hs hv (hcut b (by rw [← hr]; simp)) hr.symm hflag
        rw [hlist] at hid
        split at hid
        · exact ⟨l, hl, (List.mem_singleton.mp hid).symm, hpast.le⟩
        · cases hid
      · rw [listsOf, if_neg hflag] at hid
        cases hid

/-- They are as many as the lists that end there, where every flag ends a batch, and no more else. -/
theorem length_listed (hs : s.Laid) (hv : s.ring.Valid) (hcut : ∀ b ∈ s.ring.loop.flushed, Cut b) :
    ∀ p, p <+: s.ring.loop.flushed → (listed p).length ≤ s.ended known (flushedCount p) ∧
      ((∀ b ∈ s.ring.loop.flushed, Whole b) → (listed p).length = s.ended known (flushedCount p)) := by
  intro p
  induction p using List.reverseRecOn with
  | nil =>
    intro _
    have hnone : s.ended known (flushedCount []) = 0 := by
      refine List.countP_eq_zero.mpr fun l _ h => ?_
      obtain ⟨hpos, hpast⟩ := of_decide_eq_true (Bool.and_eq_true_iff.mp h).2
      unfold SentList.past at hpast
      change l.base + l.count ≤ 0 at hpast
      omega
    rw [hnone]
    exact ⟨Nat.le_refl _, fun _ => rfl⟩
  | append_singleton p b ih =>
    intro hp
    obtain ⟨hle, heq⟩ := ih ((List.prefix_append p [b]).trans hp)
    obtain ⟨r, hr⟩ := hp
    rw [List.append_assoc, List.singleton_append] at hr
    have hb : b ∈ s.ring.loop.flushed := by rw [← hr]; simp
    rw [listed_concat, List.length_append]
    by_cases hflag : hasFlag b.2 flagLastInTile = true
    · obtain ⟨l, hl, hpos, hpast, hlt, hhas, hlist⟩ := exists_listsOf hs hv (hcut b hb) hr.symm hflag
      have hlen : (listsOf b).length = if known l then 1 else 0 := by
        rw [hlist]
        split <;> rfl
      rw [hlen, ← hpast, hs.ended_flagged hl hpos hhas hlt known]
      exact ⟨Nat.add_le_add_right hle _, fun hw => by rw [heq hw]⟩
    · rw [listsOf, if_neg hflag, List.length_nil, Nat.add_zero, flushedCount_concat]
      refine ⟨hle.trans (ListRing.ended_mono (Nat.le_add_right _ _)), fun hw => ?_⟩
      rw [heq hw, hs.ended_open hv hr.symm (hw b hb (Bool.eq_false_iff.mpr hflag))]

/-- Every copy for the descriptors of the list has been performed, and there is one for each. -/
def Finished (s : ListRing W cfg.backend) (l : SentList) : Prop :=
  ∀ x, l.Has x → DeferredSignals.Completed s.ring.loop.backend.data (s.ring.descriptor x)

/-- The lists of some batches have arrived with their copies. -/
theorem finished_of_copies (hc : cfg.Listed) (hs : s.Laid) (hv : s.ring.Valid) {p : Flushed}
    (hp : p <+: s.ring.loop.flushed) (hserved : AllServed (sent cfg p) s.ring.loop.backend.data)
    (hdone : CopiesDone s.ring.loop.backend.data (flushedCount p)) {l : SentList} (hl : l ∈ s.lists)
    (hknown : known l = true) (hpast : l.past ≤ flushedCount p) : Finished s l := by
  intro x hx
  have hlt : x < flushedCount p := hx.2.trans_le hpast
  have hmem : s.ring.descriptor x ∈ (p.map Prod.fst).flatten := by
    rw [(hv.flatten_eq hp).2]
    exact List.mem_map_of_mem (List.mem_range.mpr hlt)
  obtain ⟨_, hb, hdb⟩ := List.mem_flatten.mp hmem
  obtain ⟨b, hbp, rfl⟩ := List.mem_map.mp hb
  have hhandled : QueueDelivery.Handled cfg (s.ring.descriptor x) :=
    ⟨fun _ _ => by rw [hs.group hl hx]; exact of_decide_eq_true hknown,
      fun _ h => (Bool.false_ne_true (hc.tiledQueue.symm.trans h)).elim⟩
  exact completed_of_copiesDone hdone hlt (hserved _ (List.mem_flatMap.mpr
    ⟨b, hbp, QueueDelivery.mem_transferred hdb hhandled⟩))

/-- With the partial batch no list ends. -/
theorem ended_readIdx (hbase : s.ring.loop.Base) (hs : s.Laid) (hv : s.ring.Valid)
    (hopen : s.ring.loop.pc.inCall ≠ some true → Open s.ring.loop.batch) (q : SentList → Bool) :
    s.ended q s.ring.loop.readIdx = s.ended q (flushedCount s.ring.loop.flushed) := by
  have hread := hbase.readIdx_eq
  by_cases hcall : s.ring.loop.pc.inCall = some true
  · rw [hread, if_pos hcall, Nat.add_zero]
  · refine hs.ended_unflagged (by rw [hread]; exact Nat.le_add_right _ _) (fun x hlo hhi => ?_) q
    exact hopen hcall _ (hv.descriptor_mem_batch hcall hlo hhi)

/-! ## Every run -/

/-- The ring of a host at its start. -/
def start (cfg : Config) (h : Host) : ListRing W cfg.backend :=
  ListRing.init (show cfg.backend.State from ⟨h, []⟩)

variable [DecidableEq W] {C : ListRing W cfg.backend → ListRing.Act W cfg.backend → Prop}
  {user : Nat → UInt8} {staging : Nat → Nat → UInt8} {gpu : Nat → UInt8}

theorem loop_of_reachable {h : Host} (hr : Reachable ListRing.step C (· = start cfg h) s) :
    Reachable Loop.openStep Always (· = cfg.start h) s.ring.loop :=
  (ListRing.ring_of_reachable hr).project Ring.loop (by rintro _ rfl; rfl) fun _ _ _ _ hst => by
    refine (Loop.openStep_of_ring hst).imp_right fun h => ?_
    obtain ⟨o, -, ho⟩ := h
    exact ⟨o, trivial, ho⟩

theorem inTiles_of_listed (hc : cfg.Listed) : cfg.backend.inTiles = true := by
  show (cfg.tiledQueue || cfg.sgQueue) = true
  rw [hc.sgQueue, Bool.or_true]

/-- What is known of the ring and the host in every run. -/
theorem known_of_reachable (hc : cfg.Listed)
    (hr : Reachable ListRing.step C (· = start cfg (.init user staging gpu)) s) (hb : s.ring.InWords) :
    s.Laid ∧ s.ring.Valid ∧ (∀ b ∈ s.ring.loop.flushed, Cut b) ∧ s.ring.loop.Base ∧
      Claimed cfg s.ring.loop.flushed s.ring.loop.backend.data ∧
      (s.ring.loop.backend.todo = [] → Rest cfg s.ring.loop.flushed s.ring.loop.backend.data) := by
  have hring := ListRing.ring_of_reachable hr
  have hloop := loop_of_reachable hr
  have hatt := (duty hc).attended (rest_init cfg user staging gpu)
    (fun _ h => Loop.base_of_reachable h) hloop
  exact ⟨ListRing.laid_of_reachable hr, Ring.valid_of_reachable hring hb,
    Ring.cut_of_reachable (inTiles_of_listed hc) hring hb, Loop.base_of_reachable hloop, hatt.2.inv,
    hatt.2.post⟩

/-- What `process_batch_sg` is given, and what it makes of it. -/
structure OncePerList (s : ListRing W cfg.backend) : Prop where
  /-- Its batch holds the descriptors of a list from some slot on, up to the last. -/
  single : ∀ b ∈ s.ring.loop.flushed, ∀ curRead, .processBatchSg b.1 ∈ cfg.flushBatch b.1 b.2 curRead →
    ∃ l ∈ s.lists, ∃ first, l.Has first ∧
      b.1 = (List.range (l.past - first)).map fun i => s.ring.descriptor (first + i)
  /-- The lists counted are those up to some slot, -/
  counted : ∃ n ≤ s.ring.loop.readIdx,
    s.ring.loop.backend.data.listsCompleted = s.lists.countP fun l => decide (l.past ≤ n)
  /-- and between calls all that have been popped. -/
  once : s.ring.loop.backend.todo = [] → s.ring.loop.backend.data.listsCompleted =
    s.lists.countP fun l => decide (l.past ≤ s.ring.loop.readIdx)
  /-- A list with a signal has arrived, with the parts that were flushed before its end. -/
  behind : ∀ l ∈ s.lists, s.ring.loop.backend.data.dListDone l.listId ≠ 0 → Finished s l

omit [DecidableEq W] in
/-- Where every list has an entry, they are counted by their slots alone. -/
theorem ended_of_admissible (hl : ListRing.Admissible s.lists) (n : Nat) :
    s.ended known n = s.lists.countP fun l => decide (l.past ≤ n) := by
  refine List.countP_congr fun l hmem => ?_
  obtain ⟨hpos, -, hid⟩ := hl.1 l hmem
  simp [known, hpos, hid]

omit [DecidableEq W] in
/-- The list with an id. -/
theorem eq_of_listId (hl : ListRing.Admissible s.lists) {l l' : SentList} (hmem : l ∈ s.lists)
    (hmem' : l' ∈ s.lists) (h : l.listId = l'.listId) : l = l' :=
  List.inj_on_of_nodup_map hl.2 hmem hmem' h

/-- **Lists are completed once each**, however the thread cuts them into batches. -/
theorem oncePerList_of_reachable (hc : cfg.Listed)
    (hr : Reachable ListRing.step ListRing.Running (· = start cfg (.init user staging gpu)) s)
    (hl : ListRing.Admissible s.lists) : OncePerList s := by
  have hb := ListRing.inWords_of_reachable hr hl.sum_lt
  obtain ⟨hlaid, hv, hcut, hbase, ⟨p, hp, ⟨hbacking, q, hq, hcount, -⟩, hserved⟩, hrest⟩ :=
    known_of_reachable hc hr hb
  obtain ⟨hwhole, hopen⟩ := Ring.whole_of_reachable (inTiles_of_listed hc)
    (ListRing.running_of_reachable hr) hb
  have hflushed : flushedCount s.ring.loop.flushed ≤ s.ring.loop.readIdx := by
    rw [hbase.readIdx_eq]
    exact Nat.le_add_right _ _
  -- there are no more signals than lists, and not so many that the count wraps
  have hword : ∀ {r}, r <+: s.ring.loop.flushed → word (listed r).length =
      s.lists.countP fun l => decide (l.past ≤ flushedCount r) := by
    intro r hr
    rw [(length_listed hlaid hv hcut r hr).2 hwhole, ended_of_admissible hl]
    refine word_of_lt (Nat.lt_of_le_of_lt (List.countP_le_length.trans hl.length_le) (by decide))
  refine ⟨fun b hmem curRead hsg => ?_, ⟨_, ?_, hcount.trans (hword (hq.trans hp))⟩, fun h => ?_,
    fun l hmem hdone => ?_⟩
  · obtain ⟨p, r, hfl⟩ := List.append_of_mem hmem
    have hflag := flag_of_processBatchSg hsg
    obtain ⟨l, hlm, -, hpast, hlt, hhas, -⟩ := exists_listsOf hlaid hv (hcut b hmem) hfl hflag
    refine ⟨l, hlm, flushedCount p, hhas _ (Nat.le_refl _) hlt, ?_⟩
    rw [flushedCount_concat] at hpast
    rw [hpast, Nat.add_sub_cancel_left]
    exact (hv.batch_eq hfl).2
  · obtain ⟨r, hr⟩ := hq.trans hp
    rw [← hr] at hflushed
    simp only [flushedCount, List.map_append, List.sum_append] at hflushed ⊢
    omega
  · rw [(hrest h).lists.count, hword (List.prefix_refl _), ← ended_of_admissible hl,
      ← ended_of_admissible hl, ended_readIdx hbase hlaid hv hopen]
  · obtain ⟨r, hr, hid, hcopies⟩ := hbacking.shown _ hdone
    obtain ⟨l', hmem', heq, hpast⟩ := exists_of_listed hlaid hv hcut r (hr.trans hp) hid
    obtain rfl := eq_of_listId hl hmem' hmem heq
    refine finished_of_copies hc hlaid hv (hr.trans hp) (fun d hd => hserved d ?_) hcopies hmem
      (decide_eq_true (hl.1 _ hmem).2.2) hpast
    obtain ⟨r', rfl⟩ := hr
    unfold sent
    rw [List.flatMap_append]
    exact List.mem_append_left _ hd

/-! ## The count -/

open Classical in
/-- The lists of which every copy has been performed. -/
noncomputable def finishedCount (s : ListRing W cfg.backend) : Nat :=
  s.lists.countP fun l => decide (Finished s l)

/-- The thread waits for the copies before it counts lists, or counts none. -/
abbrev Waits (cfg : Config) : Prop := ¬ (cfg.useCe = true ∧ cfg.Copied)

/-- Without the copy engine no call counts lists. -/
theorem uncounted_calls {l : List Call} (hl : ∀ c ∈ l, Leaves c) :
    cfg.machine.Triple (.always fun s => s.listsCompleted = 0) (fun s => s.listsCompleted = 0) l
      fun s => s.listsCompleted = 0 :=
  Triple.closed (stable_env cfg fun _ _ h hs => h.listsCompleted.trans hs) (fun _ h => h)
    (fun c hc => .inr fun s hs => ⟨trivial, fun t m hp => by
      have happart : Apart 0 s t := apart_perform hc hp
      exact ⟨happart.listsCompleted.trans hs, fun c' hm => leaves_expands (expands_perform hp c' hm) hc⟩⟩)
    hl

theorem leaves_flushBatch (hce : cfg.useCe = false) (batch : List Descriptor) (orFlags curRead : Nat) :
    ∀ c ∈ cfg.flushBatch batch orFlags curRead, Leaves c := by
  unfold Config.flushBatch
  dsimp only
  rw [hce]
  split
  · exact List.forall_mem_nil _
  · rw [if_neg fun h => Bool.false_ne_true h.2, if_neg Bool.false_ne_true]
    refine List.forall_mem_append.mpr ⟨List.forall_mem_cons.mpr ⟨trivial,
      List.forall_mem_singleton.mpr trivial⟩, ?_⟩
    split
    · exact List.forall_mem_map.mpr fun _ _ => trivial
    · exact List.forall_mem_nil _

theorem duty_uncounted (hce : cfg.useCe = false) :
    Duty cfg (fun _ => True) (fun _ _ => .always fun s => s.listsCompleted = 0)
      (fun _ s => s.listsCompleted = 0) where
  stable _ := stable_env cfg fun _ _ h hs => h.listsCompleted.trans hs
  inv _ _ _ hs := hs
  flush t _ _ _ _ _ _ hr := (Triple.expand (stable_env cfg fun _ _ h hs => h.listsCompleted.trans hs)
    (fun _ hs => hs) (fun _ _ => trivial) (fun _ => rfl)
    (uncounted_calls (leaves_flushBatch hce t.batch t.orFlags t.readIdx))).outlined hr
  idle _ _ hr := (uncounted_calls (l := [.idle]) (List.forall_mem_singleton.mpr trivial)).outlined hr
  finish _ _ hr := (uncounted_calls (l := [.finish]) (List.forall_mem_singleton.mpr trivial)).outlined hr

/-- **Every list counted has arrived**, where the thread waits for copies before it counts. -/
theorem listsCompleted_le_of_reachable (hw : Waits cfg) (hsg : cfg.sgQueue = true)
    (htiled : cfg.tiledQueue = false)
    (hr : Reachable ListRing.step C (· = start cfg (.init user staging gpu)) s) (hb : s.ring.InWords) :
    s.ring.loop.backend.data.listsCompleted ≤ finishedCount s := by
  by_cases hce : cfg.useCe = true
  · have hc : cfg.Listed := ⟨hce, hsg, htiled⟩
    obtain ⟨hlaid, hv, hcut, -, ⟨p, hp, ⟨-, q, hq, hcount, hdone⟩, hserved⟩, -⟩ :=
      known_of_reachable hc hr hb
    have hcopies := hdone fun h => hw ⟨hce, h⟩
    have hsent : AllServed (sent cfg q) s.ring.loop.backend.data := fun d hd => hserved d (by
      obtain ⟨r, rfl⟩ := hq
      unfold sent
      rw [List.flatMap_append]
      exact List.mem_append_left _ hd)
    calc s.ring.loop.backend.data.listsCompleted ≤ (listed q).length := by
          rw [hcount]
          exact Nat.mod_le _ _
      _ ≤ s.ended known (flushedCount q) := (length_listed hlaid hv hcut q (hq.trans hp)).1
      _ ≤ finishedCount s := by
          classical
          refine List.countP_mono_left fun l hmem hended => ?_
          obtain ⟨hknown, hpast⟩ := Bool.and_eq_true_iff.mp hended
          exact decide_eq_true (finished_of_copies hc hlaid hv (hq.trans hp) hsent hcopies hmem hknown
            (of_decide_eq_true hpast).2)
  · have hatt := (duty_uncounted (Bool.eq_false_iff.mpr hce)).attended rfl (fun _ _ => trivial)
      (loop_of_reachable hr)
    have hzero : s.ring.loop.backend.data.listsCompleted = 0 := hatt.2.inv
    rw [hzero]
    exact Nat.zero_le _

end Runs

section Example

open Deferred (memory poll loads perform copied)

private theorem one_lt_two_pow : 1 < 2 ^ 32 := by decide
private theorem two_lt_two_pow : 2 < 2 ^ 32 := by decide
private theorem three_lt_two_pow : 3 < 2 ^ 32 := by decide
private theorem five_lt_two_pow : 5 < 2 ^ 32 := by decide

/-- Lists of two entries and of one. -/
private def pair : ListHeader := ⟨3, 2, three_lt_two_pow, two_lt_two_pow⟩
private def single : ListHeader := ⟨5, 1, five_lt_two_pow, one_lt_two_pow⟩

/-- 16 bytes for each entry, from a page of its own. -/
private def entry (src dst i : Nat) : Field → Nat
  | .srcAddr => src + 4096 * i
  | .dstAddr => dst + 16 * i
  | _ => 16

variable (cfg) in
private abbrev Action := ListRing.Act Bool cfg.backend

/-- The descriptors of a list are written. -/
private def writes (w : Bool) (h : ListHeader) (src dst : Nat) : List (Action cfg) :=
  [.send w h (entry src dst), .ring (.wait w)] ++
    ((List.range h.count).flatMap fun i => [.write w i .srcAddr, .write w i .dstAddr, .write w i .size,
      .write w i .flags, .write w i .userData].map .ring) ++ [.ring (.fence w)]

private def commit (w : Bool) (i : Nat) : List (Action cfg) := [.ring (.commit w i)]

private def onList : Loop.OpenAct cfg.backend → List (Action cfg)
  | .loop a => [.ring (.loop a)]
  | .storeField .. | .storeSequence .. => []

private def raised (cfg : Config) : List (Loop.OpenAct cfg.backend) :=
  [.loop (.backend (show cfg.backend.Act from .env (.advance .signal)))]

private structure Summary where
  flushed : List (Nat × Nat)
  listsCompleted : Nat
  signals : List Nat
  lists : List (Nat × Nat × Nat)
  copy : Option Copy
  performed : Nat
  indices : Nat × Nat
  deriving DecidableEq

private def summary (s : ListRing Bool cfg.backend) : Summary :=
  ⟨s.ring.loop.flushed.map fun b => (b.1.length, b.2), s.ring.loop.backend.data.listsCompleted,
    [3, 5].map s.ring.loop.backend.data.dListDone, s.lists.map fun l => (l.listId, l.base, l.count),
    (s.ring.loop.backend.data.device.log (.ce 0))[0]?.bind Item.work?,
    s.ring.loop.backend.data.device.done (.ce 0), (s.ring.writeIdx, s.ring.loop.readIdx)⟩

private def waitGap (s : ListRing Bool cfg.backend) : Option (ListRing Bool cfg.backend) :=
  s.ring.loop.gapped.map fun l => { s with ring := { s.ring with loop := l } }

private theorem reachable_waitGap {s u : ListRing Bool cfg.backend} {init : ListRing Bool cfg.backend → Prop}
    (hs : Reachable ListRing.step ListRing.Running init s) (hu : waitGap s = some u) :
    Reachable ListRing.step ListRing.Running init u := by
  obtain ⟨l, hl, rfl⟩ := Option.map_eq_some_iff.mp hu
  refine ListRing.reachable_loop (fun a ha t => ?_) hs (Loop.run_gapped hl)
  rw [List.eq_of_mem_replicate ha]
  rfl

/-- Both lists are written; the thread pops the first entry and waits for the next one. -/
private def begins : List (Action cfg) :=
  [writes false pair 4096 8192, commit false 0, writes true single 65536 16384,
    (poll 2 ++ loads ++ poll 7).flatMap onList].flatten

/-- It hands this part past, and then the rest of the list when that has been committed. -/
private def goesOn (k m : Nat) : List (Action cfg) :=
  [(poll 1 ++ perform cfg k).flatMap onList, commit false 1,
    (poll 3 ++ loads ++ poll 4 ++ perform cfg m).flatMap onList].flatten

/-- A list is flushed in two parts, and the next one while its signal is set. -/
theorem oncePerList_of_reachable_two : ∃ s : ListRing Bool copying.backend,
    Reachable ListRing.step ListRing.Running (· = start copying memory) s ∧
      (s.ring.loop.flushed.map fun b => (b.1.length, b.2)) =
        [(1, flagNone), (1, flagLastInTile), (1, flagLastInTile)] ∧
      s.ring.loop.backend.data.listsCompleted = 2 ∧
      [3, 5].map s.ring.loop.backend.data.dListDone = [1, 0] ∧ OncePerList s := by
  have h : (((runWhile ListRing.step ListRing.Running (start copying memory) begins).bind waitGap).bind
      fun s => runWhile ListRing.step ListRing.Running s
        [goesOn 7 13, (copied copying 0 ++ copied copying 0 ++ raised copying ++ raised copying).flatMap
          onList, commit true 0, (poll 3 ++ loads ++ poll 4 ++ perform copying 13).flatMap onList].flatten).map
      (fun s => (summary s, decide (ListRing.Admissible s.lists))) =
      some (⟨[(1, flagNone), (1, flagLastInTile), (1, flagLastInTile)], 2, [1, 0], [(3, 0, 2), (5, 2, 1)],
        some (.data ⟨8192, .user 4096, 16⟩ [⟨4096, 8192, 16, 0, 12884901888, 0⟩]), 2, (3, 3)⟩, true) := by
    decide +kernel
  obtain ⟨s, hs, hout⟩ := Option.map_eq_some_iff.mp h
  obtain ⟨u, hu, hs⟩ := Option.bind_eq_some_iff.mp hs
  obtain ⟨t, ht, hu⟩ := Option.bind_eq_some_iff.mp hu
  simp only [summary, Prod.mk.injEq, Summary.mk.injEq] at hout
  obtain ⟨⟨hflushed, hcount, hsignals, -⟩, hadmissible⟩ := hout
  have hreach := (reachable_waitGap ((Reachable.self _).runWhile ht) hu).runWhile hs
  exact ⟨s, hreach, hflushed, hcount, hsignals,
    oncePerList_of_reachable ⟨rfl, rfl, rfl⟩ hreach (of_decide_eq_true hadmissible)⟩

/-- No signal stream: the thread waits for the copies. -/
private def waiting : Config := { copying with signalStream := false }

/-- The first list has been counted, and the copy for the second is not performed. -/
theorem listsCompleted_le_of_reachable_one : ∃ s : ListRing Bool waiting.backend,
    Reachable ListRing.step ListRing.Running (· = start waiting memory) s ∧
      (s.lists.map fun l => (l.listId, l.base, l.count)) = [(3, 0, 2), (5, 2, 1)] ∧
      s.ring.loop.backend.data.listsCompleted = 1 ∧ 1 ≤ finishedCount s := by
  have h : (((runWhile ListRing.step ListRing.Running (start waiting memory) begins).bind waitGap).bind
      fun s => runWhile ListRing.step ListRing.Running s
        [goesOn 7 6, (copied waiting 0 ++ copied waiting 0 ++ perform waiting 6).flatMap onList,
          commit true 0, (poll 3 ++ loads ++ poll 4 ++ perform waiting 6).flatMap onList].flatten).map
      summary =
      some ⟨[(1, flagNone), (1, flagLastInTile), (1, flagLastInTile)], 1, [1, 0], [(3, 0, 2), (5, 2, 1)],
        some (.data ⟨8192, .user 4096, 16⟩ [⟨4096, 8192, 16, 0, 12884901888, 0⟩]), 2, (3, 3)⟩ := by
    decide +kernel
  obtain ⟨s, hs, hout⟩ := Option.map_eq_some_iff.mp h
  obtain ⟨u, hu, hs⟩ := Option.bind_eq_some_iff.mp hs
  obtain ⟨t, ht, hu⟩ := Option.bind_eq_some_iff.mp hu
  simp only [summary, Prod.mk.injEq, Summary.mk.injEq] at hout
  obtain ⟨-, hcount, -, hlists, -, -, hwrite, hread⟩ := hout
  have hreach := (reachable_waitGap ((Reachable.self _).runWhile ht) hu).runWhile hs
  have hle := listsCompleted_le_of_reachable (fun h => Bool.false_ne_true h.2.2) rfl rfl hreach
    ⟨by rw [hwrite]; decide, by rw [hread]; decide⟩
  exact ⟨s, hreach, hlists, hcount, hcount ▸ hle⟩

/-- The first copy of a list is queued when the list is counted. -/
theorem exists_counted_unfinished : ∃ s : ListRing Bool copying.backend,
    Reachable ListRing.step Always (· = start copying memory) s ∧ s.ring.InWords ∧
      s.ring.loop.backend.data.listsCompleted = 1 ∧ finishedCount s = 0 := by
  have h : (run ListRing.step (start copying memory)
      [writes true single 65536 16384, commit true 0,
        (poll 2 ++ loads ++ poll 4 ++ perform copying 13).flatMap onList].flatten).map summary =
      some ⟨[(1, flagLastInTile)], 1, [0, 0], [(5, 0, 1)],
        some (.data ⟨16384, .user 65536, 16⟩ [⟨65536, 16384, 16, 4, 21474836480, 0⟩]), 0, (1, 1)⟩ := by
    decide +kernel
  obtain ⟨s, hs, hout⟩ := Option.map_eq_some_iff.mp h
  simp only [summary, Prod.mk.injEq, Summary.mk.injEq] at hout
  obtain ⟨-, hcount, -, hlists, hlog, hperformed, hwrite, hread⟩ := hout
  refine ⟨s, (Reachable.self _).run_always hs, ⟨by rw [hwrite]; decide, by rw [hread]; decide⟩, hcount,
    ?_⟩
  classical
  refine List.countP_eq_zero.mpr fun l hl hfinished => ?_
  have hmem : (l.listId, l.base, l.count) ∈ [(5, 0, 1)] := by
    rw [← hlists]
    exact List.mem_map_of_mem hl
  obtain ⟨-, hbase, hone⟩ : l.listId = 5 ∧ l.base = 0 ∧ l.count = 1 := by simpa using hmem
  have hlt := (of_decide_eq_true hfinished 0 ⟨hbase.le, by unfold SentList.past; omega⟩).2 _ _ _ _
    (Device.workAt_of_bind hlog) ⟨_, List.mem_singleton_self _, rfl⟩
  rw [hperformed] at hlt
  exact Nat.not_lt_zero _ hlt

end Example

end ListCompletion
end Gfd
