import GfdProof.SgBackpressure

/-! # What the space checks of a submission see to

A GPU submission checks for room in the pool and in the list ring before it takes
anything, and takes its range and its index later, without another look.  The host
takes both without any look.  A check by itself reserves nothing, so what it has
seen is worth something only if little happens in between.

To say how little, the system is watched: for each submission it is recorded what
the loads of its two checks returned when they let it pass (`Seen`).  With that the
conditions are on what has been taken and claimed since (`ListsChecked`,
`PoolChecked`); that a cell taken is free is then a consequence of the checks
(`listsOrderly_of_checked`, `poolOrderly_of_checked`).
-/
namespace Gfd.Sg

open Transition

/-- What the last loads of the two checks of a submission returned. -/
structure Seen where
  entryAlloc : Nat
  entryConsumed : Nat
  listAlloc : Nat
  listRead : Nat

/-- The system, with what its submissions have seen. -/
structure Watched (S B : Type) where
  system : System S B
  seen : Party S B → Seen

namespace Seen

/-- After the next access of the submission. -/
def after (v : Seen) (q : TaskQueue) : Submit → Seen
  | .entryConsumed _ alloc => { v with entryAlloc := alloc, entryConsumed := q.entryConsumedIdx }
  | .listRead _ alloc => { v with listAlloc := alloc, listRead := q.listReadIdx }
  | _ => v

/-- `sg_wait_entry_space` has let the submission pass. -/
def EntryRoom (v : Seen) (r : Request) : Prop :=
  subWord v.entryAlloc v.entryConsumed ≤ poolRoom r.count

/-- So has `sg_wait_list_space`. -/
def ListRoom (v : Seen) : Prop := subWord v.listAlloc v.listRead < maxSgLists - 1

end Seen

namespace Submit

/-- Past `sg_wait_entry_space`, and about to take a range. -/
def entryChecked : Submit → Option Request
  | .listSpace r | .listRead r _ | .allocEntries r => some r
  | _ => none

/-- Past `sg_wait_list_space`, and about to take an index; the host goes another way. -/
def listChecked (host : Bool) : Submit → Bool
  | .allocEntries _ | .allocList _ _ => true
  | .loadEntryIdx _ | .storeEntryIdx _ _ | .write _ _ _ => !host
  | _ => false

/-- What others, and the steps that are no accesses, leave of a submission. -/
inductive Kept (host : Bool) : Submit → Submit → Prop
  | same (x : Submit) : Kept host x x
  | called (x : Submit) (r : Request) : Kept host x (.entrySpace r)
  | calledHost (x : Submit) (r : Request) (h : host = true) : Kept host x (.loadEntryIdx r)
  | wrote (r : Request) (base : Nat) (todo todo' : Finset (Nat × EntryField)) :
    Kept host (.write r base todo) (.write r base todo')

variable {host : Bool} {q q' : TaskQueue} {x y : Submit} {v : Seen}

/-- The check of the pool is the way to a range. -/
theorem entryRoom_step (hs : x.step host q = some (y, q'))
    (hv : ∀ r, x.entryChecked = some r → v.EntryRoom r) :
    ∀ r, y.entryChecked = some r → (v.after q x).EntryRoom r := by
  intro r hy
  unfold step at hs
  split at hs
  case h_3 r' alloc =>
    split at hs <;> cases hs
    · rename_i hroom
      cases hy
      exact hroom
    · cases hy
  case h_4 r' =>
    cases hs
    exact hv r hy
  case h_5 r' alloc =>
    split at hs <;> cases hs <;> exact hv r hy
  case h_9 => split at hs <;> cases hs; split at hy <;> cases hy
  all_goals cases hs <;> cases hy

/-- The check of the list ring is the way to an index on the GPU. -/
theorem listRoom_step (hs : x.step host q = some (y, q'))
    (hv : x.listChecked host = true → v.ListRoom) (hy : y.listChecked host = true) :
    (v.after q x).ListRoom := by
  unfold step at hs
  split at hs
  case h_3 => split at hs <;> cases hs <;> cases hy
  case h_5 r alloc =>
    split at hs <;> cases hs
    · rename_i hroom
      exact hroom
    · cases hy
  case h_6 => cases hs; exact hv rfl
  case h_7 | h_8 => cases hs; exact hv hy
  case h_9 =>
    split at hs <;> cases hs
    cases host with
    | true => cases hy
    | false => exact hv rfl
  all_goals cases hs <;> cases hy

theorem Kept.entryChecked (h : Kept host x y) {r : Request} (hy : y.entryChecked = some r) :
    x.entryChecked = some r := by
  cases h with
  | same => exact hy
  | called | calledHost | wrote => cases hy

theorem Kept.listChecked (h : Kept host x y) (hy : y.listChecked host = true) :
    x.listChecked host = true := by
  cases h with
  | same => exact hy
  | called => cases hy
  | calledHost _ _ h =>
    subst h
    cases hy
  | wrote => exact hy

theorem Kept.listRead {r : Request} {alloc : Nat} (h : Kept host x (.listRead r alloc)) :
    x = .listRead r alloc := by
  cases h
  rfl

theorem listRead_step {r : Request} {alloc : Nat} (hs : x.step host q = some (.listRead r alloc, q')) :
    alloc = q.listAllocIdx := by
  unfold step at hs
  split at hs
  case h_3 | h_5 => split at hs <;> cases hs
  case h_4 => cases hs; rfl
  case h_9 =>
    split at hs
    · obtain ⟨h, -⟩ := Prod.mk.inj (Option.some.inj hs)
      split at h <;> cases h
    · cases hs
  all_goals cases hs

theorem range_of_region {y : RegionPool.Region EntryField Nat} {todo : Finset (Nat × EntryField)}
    (h : x.region = some (y, todo)) :
    ∃ z : Request × Nat, x.range = some z ∧ z.1.region z.2 = y := by
  unfold region at h
  split at h <;> cases h <;> exact ⟨_, rfl, rfl⟩

end Submit

namespace Seen

theorem after_listAlloc (v : Seen) (q : TaskQueue) (x : Submit) :
    (v.after q x).listAlloc = v.listAlloc ∨ ∃ r, x = .listRead r (v.after q x).listAlloc := by
  unfold after
  split
  · exact .inl rfl
  · exact .inr ⟨_, rfl⟩
  · exact .inl rfl

theorem after_listRead (v : Seen) (q : TaskQueue) (x : Submit) :
    (v.after q x).listRead = v.listRead ∨ (v.after q x).listRead = q.listReadIdx := by
  unfold after
  split
  · exact .inl rfl
  · exact .inr rfl
  · exact .inl rfl

end Seen

namespace System

variable {S B : Type} [DecidableEq S] [DecidableEq B] {fine : Bool} {s s' : System S B}

theorem kept_of_step {a : Act S B} (hs : s.step fine a = some s') {p : Party S B}
    (ha : a ≠ .submit p) : Submit.Kept (p = .host) (s.submit p) (s'.submit p) := by
  have hother : ∀ {q : Party S B} (x : Submit), p ≠ q →
      Submit.Kept (p = .host) (s.submit p) ((s.setSubmit q x).submit p) := fun x hq => by
    rw [submit_setSubmit_of_ne s hq]
    exact .same _
  cases a with
  | submit q =>
    obtain ⟨⟨x, q'⟩, -, rfl⟩ := Option.map_eq_some_iff.mp hs
    exact hother x fun h => ha (h ▸ rfl)
  | call q r =>
    simp only [step] at hs
    split at hs <;> cases hs
    by_cases hq : p = q
    · subst hq
      rw [submit_setSubmit_self]
      split
      · exact .calledHost _ r (by simpa using ‹p = .host›)
      · exact .called _ r
    · exact hother _ hq
  | write q i f =>
    obtain ⟨⟨x, q'⟩, hx, rfl⟩ := Option.map_eq_some_iff.mp hs
    by_cases hq : p = q
    · subst hq
      unfold Submit.writeEntry at hx
      split at hx
      · rename_i hp
        split at hx <;> cases hx
        rw [hp]
        exact (submit_setSubmit_self s p _) ▸ .wrote ..
      · cases hx
    · exact hother x hq
  | transfer b v =>
    obtain ⟨x, -, rfl⟩ := Option.map_eq_some_iff.mp hs
    exact .same _
  | convert b i f | commit b i =>
    obtain ⟨x, -, rfl⟩ := Option.map_eq_some_iff.mp hs
    exact .same _
  | compute b =>
    simp only [step] at hs
    split at hs
    · cases hs
    · obtain ⟨x, -, rfl⟩ := Option.map_eq_some_iff.mp hs
      exact .same _
  | synchronize | count idx =>
    simp only [step] at hs
    split at hs <;> cases hs
    exact .same _
  | sync =>
    simp only [step, syncStep] at hs
    split at hs
    case h_3 => split at hs <;> cases hs; exact .same _
    all_goals cases hs <;> exact .same _
  | signal id v =>
    cases hs
    exact .same _

/-- The ranges that are in use begin at `c` or later. -/
def InUseFrom (s : System S B) (c : Nat) : Prop :=
  (∀ p, ∀ x ∈ (s.submit p).range, c ≤ x.2) ∧
    ∀ k < s.queue.listAllocIdx, s.record.computed k = false → c ≤ (s.record.plan k).2

omit [DecidableEq S] [DecidableEq B] in
theorem inUse_of_owned {c : Nat} (hc : s.InUseFrom c) {o : Party S B ⊕ Nat}
    {y : RegionPool.Region EntryField Nat} {todo : Finset (Nat × EntryField)}
    (ho : s.pool.owned o = some (y, todo)) :
    ∃ x : Request × Nat, s.Holds x ∧ c ≤ x.2 ∧ x.1.region x.2 = y := by
  cases o with
  | inl p =>
    have ho : (s.submit p).region = some (y, todo) := ho
    obtain ⟨x, hx, hy⟩ := Submit.range_of_region ho
    exact ⟨x, .inl ⟨p, hx⟩, hc.1 p x hx, hy⟩
  | inr k =>
    simp only [pool] at ho
    split at ho <;> cases ho
    rename_i hk
    exact ⟨s.record.plan k, .inr ⟨k, hk.1, rfl⟩, hc.2 k hk.1 hk.2, rfl⟩

end System

namespace Watched

variable {S B : Type}

/-- Before anyone moves; no check has been made. -/
structure Init (w : Watched S B) : Prop where
  system : w.system.Init
  seen : ∀ p, w.seen p = ⟨0, 0, 0, 0⟩

def step [DecidableEq S] [DecidableEq B] (fine : Bool) (w : Watched S B) (a : System.Act S B) :
    Option (Watched S B) :=
  (w.system.step fine a).map fun s =>
    { system := s
      seen := match a with
        | .submit p =>
          Function.update w.seen p ((w.seen p).after w.system.queue (w.system.submit p))
        | _ => w.seen }

/-- On the GPU an index of a later pass over the ring is taken when at most one more has been taken
than claimed since the check, and not while the block that has claimed the list before it in its cell
has still to clear it.  The host takes an index when no other has been taken since its load, and the
cell is free.  No index is the last of the 64-bit range. -/
def ListsChecked (w : Watched S B) : System.Act S B → Prop
  | .submit p =>
    match w.system.submit p with
    | .allocList _ _ =>
      let n := w.system.queue.listAllocIdx
      n < wordSize - 1 ∧ (maxSgLists ≤ n →
        n + (w.seen p).listRead ≤ (w.seen p).listAlloc + 1 + w.system.queue.listReadIdx ∧
        (n - maxSgLists < w.system.queue.listReadIdx →
          w.system.record.cleared (n - maxSgLists) = true))
    | .storeListIdx _ _ n =>
      n = w.system.queue.listAllocIdx ∧ n < wordSize - 1 ∧
        (maxSgLists ≤ n → w.system.record.cleared (n - maxSgLists) = true)
    | _ => True
  | .transfer b _ =>
    match (w.system.block b).transfer with
    | .claim => w.system.queue.listReadIdx < wordSize - 1
    | _ => True
  | _ => True

variable [DecidableEq S] [DecidableEq B] {fine : Bool} {w w' : Watched S B}

/-- What the list indices and the checks of the list ring have to do with one another. -/
structure ListView (w : Watched S B) : Prop where
  alloc_lt : w.system.queue.listAllocIdx < wordSize
  read_lt : w.system.queue.listReadIdx < wordSize
  loaded : ∀ p r alloc, w.system.submit p = .listRead r alloc → alloc ≤ w.system.queue.listAllocIdx
  seenAlloc : ∀ p, (w.seen p).listAlloc ≤ w.system.queue.listAllocIdx
  seenRead : ∀ p, (w.seen p).listRead ≤ w.system.queue.listReadIdx
  room : ∀ p, (w.system.submit p).listChecked (p = .host) = true → (w.seen p).ListRoom

/-- A submission has its own step, or is left alone. -/
theorem step_cases {a : System.Act S B} (hs : w.step fine a = some w') (p : Party S B) :
    (∃ y q, a = .submit p ∧
        (w.system.submit p).step (p = .host) w.system.queue = some (y, q) ∧
        w'.system.submit p = y ∧
        w'.seen p = (w.seen p).after w.system.queue (w.system.submit p)) ∨
      Submit.Kept (p = .host) (w.system.submit p) (w'.system.submit p) ∧ w'.seen p = w.seen p := by
  obtain ⟨s, hst, rfl⟩ := Option.map_eq_some_iff.mp hs
  by_cases ha : a = .submit p
  · subst ha
    obtain ⟨⟨y, q⟩, hx, rfl⟩ := Option.map_eq_some_iff.mp hst
    exact .inl ⟨y, q, rfl, hx, System.submit_setSubmit_self .., Function.update_self ..⟩
  · refine .inr ⟨System.kept_of_step hst ha, ?_⟩
    cases a with
    | submit q => exact Function.update_of_ne (fun h : p = q => ha (by rw [h])) ..
    | _ => rfl

omit [DecidableEq S] [DecidableEq B] in
/-- An index is taken in turn. -/
theorem takes_checked {p : Party S B} {n : Nat} (hc : w.ListsChecked (.submit p))
    (hn : (w.system.submit p).takes w.system.queue = some n) :
    n = w.system.queue.listAllocIdx ∧ n < wordSize - 1 := by
  unfold Submit.takes at hn
  split at hn <;> cases hn <;> rename_i hp <;> simp only [ListsChecked, hp] at hc
  · exact ⟨rfl, hc.1⟩
  · exact ⟨hc.1, hc.2.1⟩

/-- The list indices only grow, within their words. -/
theorem listIdx_step (hv : w.ListView) {a : System.Act S B} (hc : w.ListsChecked a)
    (hs : w.step fine a = some w') :
    (w.system.queue.listAllocIdx ≤ w'.system.queue.listAllocIdx ∧
      w'.system.queue.listAllocIdx < wordSize) ∧
    w.system.queue.listReadIdx ≤ w'.system.queue.listReadIdx ∧
      w'.system.queue.listReadIdx < wordSize := by
  obtain ⟨s, hst, rfl⟩ := Option.map_eq_some_iff.mp hs
  have halloc := hv.alloc_lt
  have hread := hv.read_lt
  dsimp only
  cases System.indexing hst with
  | none ha hr _ => rw [ha, hr]; exact ⟨⟨Nat.le_refl _, halloc⟩, Nat.le_refl _, hread⟩
  | take p n h hn ha hr _ =>
    subst h
    obtain ⟨rfl, hlt⟩ := takes_checked hc hn
    rw [ha, hr]
    exact ⟨⟨Nat.le_succ _, by omega⟩, Nat.le_refl _, hread⟩
  | claim b v h hb ha hr _ =>
    subst h
    simp only [ListsChecked, hb] at hc
    rw [ha, hr]
    exact ⟨⟨Nat.le_refl _, halloc⟩, Nat.le_succ _, by omega⟩

theorem listView_step (hv : w.ListView) {a : System.Act S B} (hc : w.ListsChecked a)
    (hs : w.step fine a = some w') : w'.ListView := by
  obtain ⟨⟨hle, hlt⟩, hle', hlt'⟩ := listIdx_step hv hc hs
  refine ⟨hlt, hlt', fun p r alloc hp => ?_, fun p => ?_, fun p => ?_, fun p hp => ?_⟩
  all_goals rcases step_cases hs p with ⟨y, q, -, hy, hsub, hseen⟩ | ⟨hkept, hseen⟩
  · rw [hsub] at hp
    subst hp
    exact (Submit.listRead_step hy).trans_le hle
  · rw [hp] at hkept
    exact (hv.loaded p r alloc hkept.listRead).trans hle
  · rw [hseen]
    rcases Seen.after_listAlloc (w.seen p) w.system.queue (w.system.submit p) with h | ⟨r, h⟩
    · rw [h]
      exact (hv.seenAlloc p).trans hle
    · exact (hv.loaded p r _ h).trans hle
  · rw [hseen]
    exact (hv.seenAlloc p).trans hle
  · rw [hseen]
    rcases Seen.after_listRead (w.seen p) w.system.queue (w.system.submit p) with h | h
    · rw [h]
      exact (hv.seenRead p).trans hle'
    · rw [h]
      exact hle'
  · rw [hseen]
    exact (hv.seenRead p).trans hle'
  · rw [hsub] at hp
    rw [hseen]
    exact Submit.listRoom_step hy (hv.room p) hp
  · rw [hseen]
    exact hv.room p (hkept.listChecked hp)

theorem Init.listView (h : w.Init) : w.ListView where
  alloc_lt := by rw [h.system.queue.listAllocIdx]; decide
  read_lt := by rw [h.system.queue.listReadIdx]; decide
  loaded p r alloc hp := by rw [h.system.submit p] at hp; cases hp
  seenAlloc p := by rw [h.seen]; exact Nat.zero_le _
  seenRead p := by rw [h.seen]; exact Nat.zero_le _
  room p hp := by rw [h.system.submit p] at hp; cases hp

/-- The list before it in the cell of the index a GPU submission takes has been claimed. -/
theorem ListView.claimed (hv : w.ListView) {p : Party S B} {r : Request} {base : Nat}
    (hp : w.system.submit p = .allocList r base) (hn : maxSgLists ≤ w.system.queue.listAllocIdx)
    (hsince : w.system.queue.listAllocIdx + (w.seen p).listRead ≤
      (w.seen p).listAlloc + 1 + w.system.queue.listReadIdx) :
    w.system.queue.listAllocIdx - maxSgLists < w.system.queue.listReadIdx := by
  have hroom : (w.seen p).ListRoom := hv.room p (by rw [hp]; rfl)
  have h1 := hv.seenAlloc p
  have h2 := hv.seenRead p
  have h3 := hv.alloc_lt
  have h4 := hv.read_lt
  unfold Seen.ListRoom at hroom
  by_cases hle : (w.seen p).listRead ≤ (w.seen p).listAlloc
  · rw [subWord_of_le (by omega) hle] at hroom
    omega
  · unfold maxSgLists at *
    omega

/-- **The check of the list ring makes the condition of the ring hold.** -/
theorem listsOrderly_of_checked (hv : w.ListView) {a : System.Act S B} (hc : w.ListsChecked a) :
    w.system.ListsOrderly a := by
  cases a with
  | submit p =>
    simp only [System.ListsOrderly]
    split
    · rename_i n hn
      obtain ⟨heq, hlt⟩ := takes_checked hc hn
      refine ⟨heq, hlt, Nat.lt_or_ge n maxSgLists |>.imp_right fun hle => ?_⟩
      unfold Submit.takes at hn
      split at hn <;> cases hn <;> rename_i hp <;> simp only [ListsChecked, hp] at hc
      · obtain ⟨hsince, hcleared⟩ := hc.2 hle
        exact hcleared (hv.claimed hp hle hsince)
      · exact hc.2.2 hle
    · trivial
  | transfer b v =>
    simp only [System.ListsOrderly]
    split
    · rename_i hb
      simpa only [ListsChecked, hb] using hc
    · trivial
  | _ => trivial

/-! ## The entry pool -/

/-- A range is taken when it fits into the pool, and: in the first pass over it; or, on the GPU, when
no other has been taken since the check, and the ranges in use begin no earlier than the
`entry_consumed_idx` it has seen; or, on the host, when no other has been taken since its load, and
the ranges in use are out of the way.  No range ends beyond the 64-bit range. -/
def PoolChecked (w : Watched S B) (a : System.Act S B) : Prop :=
  w.ListsChecked a ∧
    match a with
    | .submit p =>
      let e := w.system.queue.entryAllocIdx
      match w.system.submit p with
      | .allocEntries r => r.count ≤ maxSgPoolEntries ∧ e + r.count < wordSize ∧
          (e + r.count ≤ maxSgPoolEntries ∨
            e = (w.seen p).entryAlloc ∧ w.system.InUseFrom (w.seen p).entryConsumed)
      | .storeEntryIdx r base => r.count ≤ maxSgPoolEntries ∧ e + r.count < wordSize ∧
          base = e ∧ w.system.InUseFrom (e + r.count - maxSgPoolEntries)
      | _ => True
    | _ => True

/-- What the ranges and the checks of the pool have to do with one another. -/
structure EntryView (w : Watched S B) : Prop where
  alloc_lt : w.system.queue.entryAllocIdx < wordSize
  holds : ∀ x, w.system.Holds x → x.2 + x.1.count ≤ w.system.queue.entryAllocIdx
  room : ∀ p r, (w.system.submit p).entryChecked = some r → (w.seen p).EntryRoom r

omit [DecidableEq S] [DecidableEq B] in
/-- A range is taken in turn. -/
theorem range_checked {p : Party S B} {r : Request} {base : Nat} (hc : w.PoolChecked (.submit p))
    (ht : (w.system.submit p).takesRange w.system.queue = some (r.region base)) :
    base = w.system.queue.entryAllocIdx ∧ r.count ≤ maxSgPoolEntries ∧
      w.system.queue.entryAllocIdx + r.count < wordSize := by
  obtain ⟨-, hc⟩ := hc
  dsimp only at hc
  unfold Submit.takesRange at ht
  split at ht
  · rename_i r' hp
    simp only [hp] at hc
    simp only [Request.region, Option.some.injEq, RegionPool.Region.mk.injEq] at ht
    obtain ⟨hbase, hcount, -⟩ := ht
    exact ⟨hbase.symm, hcount ▸ hc.1, hcount ▸ hc.2.1⟩
  · rename_i r' base' hp
    simp only [hp] at hc
    simp only [Request.region, Option.some.injEq, RegionPool.Region.mk.injEq] at ht
    obtain ⟨rfl, hcount, -⟩ := ht
    exact ⟨hc.2.2.1, hcount ▸ hc.1, hcount ▸ hc.2.1⟩
  · cases ht

theorem entryView_step (hv : w.EntryView) {a : System.Act S B} (hc : w.PoolChecked a)
    (hs : w.step fine a = some w') : w'.EntryView := by
  have hroom : ∀ p r, (w'.system.submit p).entryChecked = some r → (w'.seen p).EntryRoom r := by
    intro p r hr
    rcases step_cases hs p with ⟨y, q, -, hy, hsub, hseen⟩ | ⟨hkept, hseen⟩
    · rw [hseen]
      exact Submit.entryRoom_step hy (hv.room p) r (hsub ▸ hr)
    · rw [hseen]
      exact hv.room p r (hkept.entryChecked hr)
  obtain ⟨s, hst, rfl⟩ := Option.map_eq_some_iff.mp hs
  dsimp only at hroom
  cases System.ranging hst with
  | none he hl hp hr =>
    refine ⟨he.trans_lt hv.alloc_lt, fun x hx => ?_, hroom⟩
    exact (hv.holds x ((System.holds_congr hl hp hr x).mp hx)).trans_eq he.symm
  | list p x n h ht hx he hl hp hself hr =>
    subst h
    obtain ⟨rfl, -⟩ := takes_checked hc.1 ht
    refine ⟨he.trans_lt hv.alloc_lt, fun y hy => ?_, hroom⟩
    exact (hv.holds y ((System.holds_list hx hl hp hself hr y).mp hy)).trans_eq he.symm
  | range p r base h ht hn he hl hp hself hr =>
    subst h
    obtain ⟨rfl, -, hlt⟩ := range_checked hc ht
    refine ⟨he.trans_lt hlt, fun x hx => ?_, hroom⟩
    dsimp only
    rw [he]
    rcases (System.holds_range hn hl hp hself hr x).mp hx with hx | rfl
    · exact (hv.holds x hx).trans (Nat.le_add_right _ _)
    · exact Nat.le_refl _

omit [DecidableEq S] [DecidableEq B] in
theorem Init.entryView (h : w.Init) : w.EntryView where
  alloc_lt := by rw [h.system.queue.entryAllocIdx]; decide
  holds x hx := by
    rcases hx with ⟨p, hp⟩ | ⟨k, hk, -⟩
    · rw [h.system.submit p] at hp
      cases hp
    · rw [h.system.queue.listAllocIdx] at hk
      exact absurd hk (Nat.not_lt_zero k)
  room p r hr := by rw [h.system.submit p] at hr; cases hr

omit [DecidableEq S] [DecidableEq B] in
/-- A range that ends within one pool size of `c` is apart from the ranges in use, if they begin at
`c` or later. -/
theorem EntryView.apart (hv : w.EntryView) {c : Nat} (hc : w.system.InUseFrom c) {r : Request}
    (hfit : c ≤ w.system.queue.entryAllocIdx →
      w.system.queue.entryAllocIdx + r.count ≤ c + maxSgPoolEntries)
    {o : Party S B ⊕ Nat} {y : RegionPool.Region EntryField Nat}
    {todo : Finset (Nat × EntryField)} (ho : w.system.pool.owned o = some (y, todo)) :
    (r.region w.system.queue.entryAllocIdx).Apart maxSgPoolEntries y := by
  obtain ⟨x, hx, hle, rfl⟩ := System.inUse_of_owned hc ho
  have hend := hv.holds x hx
  intro i j hi hj heq
  simp only [Request.region, RegionPool.Region.cell] at hi hj heq
  have := hfit (by omega)
  unfold maxSgPoolEntries at *
  omega

/-- **The checks make the condition of the pool hold.** -/
theorem poolOrderly_of_checked (hl : w.ListView) (hv : w.EntryView) {a : System.Act S B}
    (hc : w.PoolChecked a) : w.system.PoolOrderly a := by
  refine ⟨listsOrderly_of_checked hl hc.1, ?_⟩
  cases a with
  | submit p =>
    obtain ⟨-, hc⟩ := hc
    dsimp only at hc ⊢
    cases hp : w.system.submit p with
    | allocEntries r =>
      simp only [hp] at hc
      obtain ⟨hcount, -, hroom⟩ := hc
      refine ⟨hcount, fun o y todo ho => ?_⟩
      rcases hroom with hfirst | ⟨hseen, hfrom⟩
      · exact hv.apart (c := 0) ⟨fun _ _ _ => Nat.zero_le _, fun _ _ _ => Nat.zero_le _⟩
          (fun _ => by rwa [Nat.zero_add]) ho
      · refine hv.apart hfrom (fun hle => ?_) ho
        -- what the check has seen
        have hcheck : (w.seen p).EntryRoom r := hv.room p r (by rw [hp]; rfl)
        unfold Seen.EntryRoom at hcheck
        rw [← hseen, subWord_of_le hv.alloc_lt hle] at hcheck
        unfold poolRoom maxSgPoolEntries at *
        omega
    | storeEntryIdx r base =>
      simp only [hp] at hc
      obtain ⟨hcount, -, rfl, hfrom⟩ := hc
      exact ⟨hcount, fun o y todo ho => hv.apart hfrom (fun _ => by omega) ho⟩
    | _ => trivial
  | _ => trivial

/-! ## Every run -/

/-- A run that meets the condition is an orderly run of the list ring. -/
theorem listsOrderly_of_reachable (h : Reachable (step fine) ListsChecked Init w) :
    w.ListView ∧ Reachable (System.step fine) System.ListsOrderly System.Init w.system := by
  induction h with
  | initial h => exact ⟨h.listView, .initial h.system⟩
  | step _ a hc hs ih =>
    obtain ⟨s, hst, hw⟩ := Option.map_eq_some_iff.mp hs
    refine ⟨listView_step ih.1 hc hs, ?_⟩
    subst hw
    exact ih.2.step a (listsOrderly_of_checked ih.1 hc) hst

/-- So is it of the pool. -/
theorem poolOrderly_of_reachable (h : Reachable (step fine) PoolChecked Init w) :
    (w.ListView ∧ w.EntryView) ∧
      Reachable (System.step fine) System.PoolOrderly System.Init w.system := by
  induction h with
  | initial h => exact ⟨⟨h.listView, h.entryView⟩, .initial h.system⟩
  | step _ a hc hs ih =>
    obtain ⟨s, hst, hw⟩ := Option.map_eq_some_iff.mp hs
    refine ⟨⟨listView_step ih.1.1 hc.1 hs, entryView_step ih.1.2 hc hs⟩, ?_⟩
    subst hw
    exact ih.2.step a (poolOrderly_of_checked ih.1.1 ih.1.2 hc) hst

/-- **The list ring keeps every list** until the block that claimed it has read it, in the runs that
meet the condition. -/
theorem ringIntegrity_of_reachable (h : Reachable (step fine) ListsChecked Init w) :
    w.system.RingIntegrity ∧ w.system.KeepsUnread fine :=
  have hring := System.ring_of_reachable (listsOrderly_of_reachable h).2
  ⟨System.integrity hring, System.keepsUnread hring⟩

/-- **The entry pool keeps every list** until its call has returned, in the runs that meet the
condition. -/
theorem poolIntegrity_of_reachable (h : Reachable (step fine) PoolChecked Init w) :
    w.system.PoolIntegrity :=
  (System.poolValid_of_reachable (poolOrderly_of_reachable h).2).integrity

/-- Every run of the system can be watched. -/
theorem exists_watched {s : System S B} (h : Reachable (System.step fine) Always System.Init s) :
    ∃ w : Watched S B, Reachable (step fine) Always Init w ∧ w.system = s := by
  induction h with
  | initial h => exact ⟨⟨_, fun _ => ⟨0, 0, 0, 0⟩⟩, .initial ⟨h, fun _ => rfl⟩, rfl⟩
  | step _ a _ hs ih =>
    obtain ⟨w, hw, rfl⟩ := ih
    exact ⟨_, hw.step a trivial (congrArg (Option.map _) hs), rfl⟩

/-! ## Runs -/

instance (w : Watched S B) (a : System.Act S B) : Decidable (w.ListsChecked a) := by
  rcases a with _ | p | _ | ⟨b, -⟩ | _ <;> dsimp only [ListsChecked]
  case submit => split <;> infer_instance
  case transfer => split <;> infer_instance
  all_goals infer_instance

/-- What the lanes do, no check is about. -/
theorem reachable_lanes {C : Watched S B → System.Act S B → Prop}
    (hC : ∀ w a, a.lane = true → C w a) (h : Reachable (step fine) C Init w)
    {as : List (System.Act S B)} (hl : ∀ a ∈ as, a.lane = true) {s : System S B}
    (hr : run (System.step fine) w.system as = some s) :
    Reachable (step fine) C Init ⟨s, w.seen⟩ := by
  induction as generalizing w with
  | nil =>
    cases hr
    exact h
  | cons a as ih =>
    obtain ⟨ha, hl⟩ := List.forall_mem_cons.mp hl
    rw [run_cons] at hr
    obtain ⟨u, hu, hr⟩ := Option.bind_eq_some_iff.mp hr
    have hs : w.step fine a = some ⟨u, w.seen⟩ := by
      cases a with
      | write | convert | commit => simp only [step, hu, Option.map_some]
      | _ => cases ha
    exact ih (w := ⟨u, w.seen⟩) (h.step a (hC w a ha) hs) hl hr

omit [DecidableEq S] [DecidableEq B] in
theorem listsChecked_of_lane (w : Watched S B) (a : System.Act S B) (h : a.lane = true) :
    w.ListsChecked a := by
  cases a with
  | write | convert | commit => trivial
  | _ => cases h

section Example

/-- Before anyone moves. -/
def init : Watched S B := ⟨System.init, fun _ => ⟨0, 0, 0, 0⟩⟩

omit [DecidableEq S] [DecidableEq B] in
theorem init_init : (init : Watched S B).Init := ⟨System.init_init, fun _ => rfl⟩

/-! ### A second pass over the list ring -/

/-- A warp submits a list, and a block turns it into a descriptor and clears it. -/
private def turns (b : Bool) (n : Nat) : List (System.Act Unit Bool) :=
  [[.call (.gpu ()) (System.numbered n)], List.replicate 5 (.submit (.gpu ())),
    System.entryWrites (.gpu ()), List.replicate 8 (.submit (.gpu ())),
    List.replicate 16 (.transfer b 0),
    [.convert b 0 .srcAddr, .convert b 0 .dstAddr, .convert b 0 .size, .transfer b 0, .commit b 0],
    List.replicate 4 (.transfer b 0)].flatten

/-- A warp is at `x`, over the queue `q` with the record `d`, and has seen `v`. -/
private structure At (x : Submit) (v : Seen) (q : TaskQueue) (d : Record Bool)
    (w : Watched Unit Bool) : Prop where
  reachable : Reachable (step true) ListsChecked Init w
  submit : w.system.submit (.gpu ()) = x
  seen : w.seen (.gpu ()) = v
  queue : w.system.queue = q
  record : w.system.record = d

private theorem At.access {x y : Submit} {v : Seen} {q q' : TaskQueue} {d : Record Bool}
    {w : Watched Unit Bool} (h : At x v q d w) (hx : x.step false q = some (y, q'))
    (hc : w.ListsChecked (.submit (.gpu ()))) :
    ∃ t, At y (v.after q x) q' (d.submit q x) t := by
  obtain ⟨hreach, rfl, rfl, rfl, rfl⟩ := h
  have hs : w.step true (.submit (.gpu ())) = some
      ⟨{ w.system.setSubmit (.gpu ()) y with
          queue := q'
          record := w.system.record.submit w.system.queue (w.system.submit (.gpu ())) },
        Function.update w.seen (.gpu ())
          ((w.seen (.gpu ())).after w.system.queue (w.system.submit (.gpu ())))⟩ := by
    have hx' : (w.system.submit (.gpu ())).step
        (decide (Party.gpu () = (.host : Party Unit Bool))) w.system.queue = some (y, q') := hx
    simp only [step, System.step, hx', Option.map_some]
  exact ⟨_, hreach.step _ hc hs, System.submit_setSubmit_self w.system (.gpu ()) y,
    Function.update_self (.gpu ()) ((w.seen (.gpu ())).after _ _) w.seen, rfl, rfl⟩

/-- An access that takes no index needs no condition. -/
private theorem At.free {x y : Submit} {v : Seen} {q u : TaskQueue} {d : Record Bool}
    {w : Watched Unit Bool} (h : At x v q d w) (hx : x.step false q = some (y, u))
    (hn : x.takes q = none) : ∃ t, At y (v.after q x) u (d.submit q x) t := by
  refine h.access hx ?_
  simp only [ListsChecked, h.submit]
  cases x with
  | allocList | storeListIdx => cases hn
  | _ => trivial

omit [DecidableEq S] [DecidableEq B] in
private theorem listsChecked_allocList {w : Watched S B} {p : Party S B} {r : Request}
    {base n : Nat} (hp : w.system.submit p = .allocList r base)
    (hn : w.system.queue.listAllocIdx = n) (hlt : n < wordSize - 1)
    (hfree : maxSgLists ≤ n →
      n + (w.seen p).listRead ≤ (w.seen p).listAlloc + 1 + w.system.queue.listReadIdx ∧
      (n - maxSgLists < w.system.queue.listReadIdx →
        w.system.record.cleared (n - maxSgLists) = true)) : w.ListsChecked (.submit p) := by
  subst hn
  simp only [ListsChecked, hp]
  exact ⟨hlt, hfree⟩

/-- The two blocks have cleared the first two lists.  The warp has taken `n` indices of lists of one
entry and `e` cells for them, and is at `x`. -/
private structure Going (n e : Nat) (x : Submit) (w : Watched Unit Bool) : Prop where
  reachable : Reachable (step true) ListsChecked Init w
  submit : w.system.submit (.gpu ()) = x
  listAlloc : w.system.queue.listAllocIdx = n
  listRead : w.system.queue.listReadIdx = 2
  entryAlloc : w.system.queue.entryAllocIdx = e
  entryConsumed : w.system.queue.entryConsumedIdx = 2
  cleared : w.system.record.cleared 0 = true

private def isIdle : Submit → Bool
  | .idle => true
  | _ => false

private theorem exists_going : ∃ w, Going 2 2 .idle w := by
  have h : (runWhile (step true) ListsChecked (init : Watched Unit Bool)
      (turns false 0 ++ turns true 1)).map (fun w => (w.system.queue.listAllocIdx,
        w.system.queue.listReadIdx, w.system.queue.entryAllocIdx, w.system.queue.entryConsumedIdx,
        isIdle (w.system.submit (.gpu ())), w.system.record.cleared 0)) =
      some (2, 2, 2, 2, true, true) := by decide +kernel
  obtain ⟨w, hw, hsum⟩ := Option.map_eq_some_iff.mp h
  simp only [Prod.mk.injEq] at hsum
  obtain ⟨halloc, hread, hentry, hconsumed, hidle, hcleared⟩ := hsum
  refine ⟨w, (Reachable.initial init_init).runWhile hw, ?_, halloc, hread, hentry, hconsumed,
    hcleared⟩
  cases hs : w.system.submit (.gpu ()) with
  | idle => rfl
  | _ =>
    rw [hs] at hidle
    cases hidle

/-- The warp finds room, takes a cell and writes its entry. -/
private theorem Going.written {n : Nat} {w : Watched Unit Bool} (hw : Going n n .idle w)
    (hle : 2 ≤ n) (hn : n ≤ maxSgLists) :
    ∃ t, Going n (n + 1) (.write (System.numbered n) n ∅) t ∧ t.seen (.gpu ()) = ⟨n, 2, n, 2⟩ := by
  have hword : n < wordSize := Nat.lt_of_le_of_lt hn (by decide)
  have hentry : subWord n 2 ≤ poolRoom (System.numbered n).count := by
    have hroom : poolRoom (System.numbered n).count = 16383 := (by decide : poolRoom 1 = 16383)
    rw [subWord_of_le hword hle, hroom]
    unfold maxSgLists at hn
    omega
  have hlist : subWord n 2 < maxSgLists - 1 := by
    rw [subWord_of_le hword hle]
    unfold maxSgLists at *
    omega
  have hcall : w.step true (.call (.gpu ()) (System.numbered n)) = some
      ⟨w.system.setSubmit (.gpu ()) (.entrySpace (System.numbered n)), w.seen⟩ := by
    simp [step, System.step, System.mayCall, hw.submit]
  have h0 : At (.entrySpace (System.numbered n)) (w.seen (.gpu ())) w.system.queue
      w.system.record _ :=
    ⟨hw.reachable.step (.call (.gpu ()) (System.numbered n)) trivial hcall,
      System.submit_setSubmit_self .., rfl, rfl, rfl⟩
  -- the two checks
  obtain ⟨w1, h1⟩ := h0.free rfl rfl
  obtain ⟨w2, h2⟩ := h1.free (y := .listSpace (System.numbered n)) (u := w.system.queue)
    (by rw [Submit.step, hw.entryAlloc, hw.entryConsumed, if_pos hentry]) rfl
  obtain ⟨w3, h3⟩ := h2.free rfl rfl
  obtain ⟨w4, h4⟩ := h3.free (y := .allocEntries (System.numbered n)) (u := w.system.queue)
    (by rw [Submit.step, hw.listAlloc, hw.listRead, if_pos hlist]) rfl
  -- the cell, and the entry
  obtain ⟨w5, h5⟩ := h4.free rfl rfl
  obtain ⟨as, e, hl, has⟩ := System.exists_run_written true h5.submit
  refine ⟨⟨_, w5.seen⟩, ⟨reachable_lanes listsChecked_of_lane h5.reachable hl has, ?_, ?_, ?_, ?_,
    ?_, ?_⟩, ?_⟩
  · rw [← hw.entryAlloc]
    exact System.submit_setSubmit_self w5.system (.gpu ()) _
  · exact (congrArg TaskQueue.listAllocIdx h5.queue).trans hw.listAlloc
  · exact (congrArg TaskQueue.listReadIdx h5.queue).trans hw.listRead
  · exact (congrArg TaskQueue.entryAllocIdx h5.queue).trans (congrArg (· + 1) hw.entryAlloc)
  · exact (congrArg TaskQueue.entryConsumedIdx h5.queue).trans hw.entryConsumed
  · exact (congrArg (Record.cleared · 0) h5.record).trans hw.cleared
  · rw [h5.seen]
    simp only [Seen.after, hw.entryAlloc, hw.entryConsumed, hw.listAlloc, hw.listRead]

/-- It takes an index, which is at most that of the first list again, and commits. -/
private theorem Going.committed {n : Nat} {w : Watched Unit Bool}
    (hw : Going n (n + 1) (.write (System.numbered n) n ∅) w)
    (hseen : w.seen (.gpu ()) = ⟨n, 2, n, 2⟩) (hn : n ≤ maxSgLists) :
    ∃ t, Going (n + 1) (n + 1) .idle t ∧ t.system.record.committed n = true := by
  have h0 : At (.write (System.numbered n) n ∅) ⟨n, 2, n, 2⟩ w.system.queue w.system.record w :=
    ⟨hw.reachable, hw.submit, hseen, rfl, rfl⟩
  obtain ⟨w1, h1⟩ := h0.free (y := .allocList (System.numbered n) n) (u := w.system.queue)
    (by rw [Submit.step, if_pos rfl]; rfl) rfl
  have hcheck : w1.ListsChecked (.submit (.gpu ())) := by
    refine listsChecked_allocList h1.submit (h1.queue ▸ hw.listAlloc)
      (Nat.lt_of_le_of_lt hn (by decide)) fun hlap => ?_
    obtain rfl : n = maxSgLists := Nat.le_antisymm hn hlap
    rw [h1.queue, hw.listRead, h1.seen, Nat.sub_self]
    exact ⟨Nat.add_le_add_right (Nat.le_succ _) 2,
      fun _ => (congrArg (Record.cleared · 0) h1.record).trans hw.cleared⟩
  obtain ⟨w2, h2⟩ := h1.access rfl hcheck
  -- the header, and the sequence
  obtain ⟨w3, h3⟩ := h2.free rfl rfl
  obtain ⟨w4, h4⟩ := h3.free rfl rfl
  obtain ⟨w5, h5⟩ := h4.free rfl rfl
  obtain ⟨w6, h6⟩ := h5.free rfl rfl
  obtain ⟨w7, h7⟩ := h6.free rfl rfl
  obtain ⟨w8, h8⟩ := h7.free rfl rfl
  refine ⟨w8, ⟨h8.reachable, h8.submit, ?_, ?_, ?_, ?_, ?_⟩, ?_⟩
  · exact (congrArg TaskQueue.listAllocIdx h8.queue).trans (congrArg (· + 1) hw.listAlloc)
  · exact (congrArg TaskQueue.listReadIdx h8.queue).trans hw.listRead
  · exact (congrArg TaskQueue.entryAllocIdx h8.queue).trans hw.entryAlloc
  · exact (congrArg TaskQueue.entryConsumedIdx h8.queue).trans hw.entryConsumed
  · exact (congrArg (Record.cleared · 0) h8.record).trans hw.cleared
  · refine (congrArg (Record.committed · n) h8.record).trans ?_
    exact (Function.update_apply ..).trans (if_pos hw.listAlloc.symm)

private theorem exists_going_add (m : Nat) (hm : m + 2 ≤ maxSgLists) :
    ∃ w, Going (m + 2) (m + 2) .idle w := by
  induction m with
  | zero => exact exists_going
  | succ m ih =>
    obtain ⟨w, hw⟩ := ih (Nat.le_of_succ_le hm)
    obtain ⟨t, ht, hseen⟩ := hw.written (Nat.le_add_left 2 m) (Nat.le_of_succ_le hm)
    obtain ⟨u, hu, -⟩ := ht.committed hseen (Nat.le_of_succ_le hm)
    exact ⟨u, hu⟩

/-- Of 513 lists two have been read, and the last one is in the cell of the first. -/
theorem ringIntegrity_of_reachable_reused : ∃ w : Watched Unit Bool,
    w.system.queue.listAllocIdx = maxSgLists + 1 ∧ w.system.queue.listReadIdx = 2 ∧
    w.system.record.cleared 0 = true ∧ w.system.record.committed maxSgLists = true ∧
    w.system.RingIntegrity ∧ w.system.KeepsUnread true := by
  obtain ⟨w, hw⟩ := exists_going_add 510 (Nat.le_refl _)
  obtain ⟨t, ht, hseen⟩ := hw.written (by decide) (Nat.le_refl _)
  obtain ⟨u, hu, hcommit⟩ := ht.committed hseen (Nat.le_refl _)
  exact ⟨u, hu.listAlloc, hu.listRead, hu.cleared, hcommit,
    ringIntegrity_of_reachable hu.reachable⟩

/-! ### A second pass over the pool -/

private instance {P : Party S B → Prop} [Fintype S] [Fintype B] [DecidablePred P] :
    Decidable (∀ p, P p) :=
  decidable_of_iff ((∀ x, P (.gpu x)) ∧ (∀ b, P (.functor b)) ∧ P .host)
    ⟨fun h p => by cases p with
      | gpu x => exact h.1 x
      | functor b => exact h.2.1 b
      | host => exact h.2.2,
    fun h => ⟨fun x => h (.gpu x), fun b => h (.functor b), h .host⟩⟩

private instance [Fintype S] [Fintype B] (s : System S B) (c : Nat) : Decidable (s.InUseFrom c) :=
  inferInstanceAs (Decidable (_ ∧ _))

private instance [Fintype S] [Fintype B] (w : Watched S B) (a : System.Act S B) :
    Decidable (w.PoolChecked a) := by
  refine @instDecidableAnd _ _ _ ?_
  rcases a with _ | p | _ <;> dsimp only
  case submit => split <;> infer_instance
  all_goals infer_instance

omit [DecidableEq S] [DecidableEq B] in
theorem poolChecked_of_lane (w : Watched S B) (a : System.Act S B) (h : a.lane = true) :
    w.PoolChecked a := by
  refine ⟨listsChecked_of_lane w a h, ?_⟩
  cases a with
  | write | convert | commit => trivial
  | _ => cases h

/-- A warp takes the whole pool. -/
private def taking : Watched Unit Bool :=
  (runWhile (step true) PoolChecked init (.call (.gpu ()) (System.sized maxSgPoolEntries) ::
    List.replicate 5 (.submit (.gpu ())))).get (by decide +kernel)

/-- It has written its entries, and commits the list; a block is about to convert it. -/
private def converting : Watched Unit Bool :=
  (runWhile (step true) PoolChecked
    ⟨taking.system.setSubmit (.gpu ()) (.write (System.sized maxSgPoolEntries) 0 ∅), taking.seen⟩
    (List.replicate 8 (.submit (.gpu ())) ++ List.replicate 16 (.transfer false 0))).get
      (by decide +kernel)

/-- It has, and is about to commit the descriptors. -/
private def committing : Watched Unit Bool :=
  (runWhile (step true) PoolChecked ⟨converting.system.laned false, converting.seen⟩
    [.transfer false 0]).get (by decide +kernel)

/-- It goes on, and calls `compute_fn` for the list.  When the call has returned, the warp submits a
list of one entry, and the other block calls `compute_fn` for it. -/
private def onward : List (System.Act Unit Bool) :=
  [List.replicate 4 (.transfer false 0), [.signal 0 1], List.replicate 2 (.transfer false 0),
    List.replicate 8 (.compute false), [.call (.gpu ()) (System.sized 1)],
    List.replicate 5 (.submit (.gpu ())), System.entryWrites (.gpu ()),
    List.replicate 8 (.submit (.gpu ())), List.replicate 16 (.transfer true 0),
    System.entryCopies true 0, [.transfer true 0], List.replicate 7 (.compute true)].flatten

private theorem reachable_committing : Reachable (step true) PoolChecked Init committing := by
  have htaking : Reachable (step true) PoolChecked Init taking :=
    (Reachable.initial init_init).runWhile (Option.some_get _).symm
  obtain ⟨as, hl, has⟩ := System.exists_run_zeros true (s := taking.system) (p := .gpu ())
    (r := System.sized maxSgPoolEntries) rfl (fun _ _ => rfl) fun _ _ => rfl
  have hconverting : Reachable (step true) PoolChecked Init converting :=
    (reachable_lanes poolChecked_of_lane htaking hl has).runWhile (Option.some_get _).symm
  obtain ⟨as, hl, has⟩ := System.exists_run_laned true converting.system false
  exact (reachable_lanes poolChecked_of_lane hconverting hl has).runWhile (Option.some_get _).symm

/-- A list of as many entries as the pool has, and one of a single entry in the same cell as its
first: both blocks call `compute_fn`. -/
theorem poolIntegrity_of_reachable_wrapped : ∃ w : Watched Unit Bool,
    w.system.queue.entryAllocIdx = maxSgPoolEntries + 1 ∧
    [false, true].map (fun b => (w.system.block b).calls.length) = [1, 1] ∧
    w.system.PoolIntegrity := by
  obtain ⟨as, hl, has⟩ := System.exists_run_laned true committing.system false
  have hreach := reachable_lanes poolChecked_of_lane reachable_committing hl has
  have hrun : (runWhile (step true) PoolChecked
      (⟨committing.system.laned false, committing.seen⟩ : Watched Unit Bool) onward).map
      (fun w => (w.system.queue.entryAllocIdx,
        [false, true].map (fun b => (w.system.block b).calls.length))) =
      some (maxSgPoolEntries + 1, [1, 1]) := by decide +kernel
  obtain ⟨w, hw, hsum⟩ := Option.map_eq_some_iff.mp hrun
  obtain ⟨halloc, hcalls⟩ := Prod.mk.inj hsum
  exact ⟨w, halloc, hcalls, poolIntegrity_of_reachable (hreach.runWhile hw)⟩

end Example

end Watched
end Gfd.Sg
