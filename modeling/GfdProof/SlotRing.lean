import Mathlib
import GfdProof.Transition

/-! # A ring of slots between many producers and many consumers

Producers take indices from a common counter, store an item's fields in the slot
of their index and commit it by storing the index's mark.  Consumers claim
indices from another counter, wait for the mark of theirs, load the fields, and
clear the mark when they are done with the slot.  Slots are indices modulo the
size of the ring, and any step of anyone may come next.

`Orderly` is the condition under which this works: an index is taken only when
the item that had its slot before has been cleared, and indices stay in the
range in which marks tell them apart.
-/
namespace SlotRing

open Transition

/-- The slots of a ring: how many, with which fields, and the mark of each index;
a marker that is zero is clear. -/
structure Layout (F : Type*) where
  size : Nat
  fields : List F
  all : ∀ f, f ∈ fields
  mark : Nat → Nat
  /-- Below it, marks tell the indices apart. -/
  bound : Nat
  mark_ne_zero : ∀ n, n < bound → mark n ≠ 0
  mark_inj : ∀ m n, m < bound → n < bound → mark m = mark n → m = n

inductive Producer (F V : Type*)
  | idle
  | storing (n : Nat) (x : F → V) (todo : List F)

inductive Consumer (F V : Type*)
  | idle
  | waiting (n : Nat)
  | loading (n : Nat) (todo : List F) (x : F → V)
  /-- It has read the item, and not cleared the slot. -/
  | holding (n : Nat) (x : F → V)

/-- A ring and its parties.  `read` is what each consumer has read so far, `item`
what each index was taken for, `claims` who has claimed it. -/
@[ext]
structure Ring (P C F V : Type*) where
  slot : Nat → F → V
  marker : Nat → Nat
  allocated : Nat
  claimed : Nat
  producer : P → Producer F V
  consumer : C → Consumer F V
  read : C → List (Nat × (F → V))
  item : Nat → F → V
  committed : Nat → Bool
  cleared : Nat → Bool
  claims : Nat → List C

inductive Act (P C F V : Type*)
  | allocate (p : P) (x : F → V)
  | store (p : P)
  | commit (p : P)
  | claim (c : C)
  /-- It finds the mark of its index. -/
  | see (c : C)
  | load (c : C)
  | finish (c : C)
  | clear (c : C)
  /-- It stops waiting. -/
  | leave (c : C)

variable {P C F V : Type*}

def step [DecidableEq P] [DecidableEq C] [DecidableEq F] [Zero V] (L : Layout F) (r : Ring P C F V) :
    Act P C F V → Option (Ring P C F V)
  | .allocate p x =>
    match r.producer p with
    | .idle =>
      some { r with
        allocated := r.allocated + 1
        producer := Function.update r.producer p (.storing r.allocated x L.fields)
        item := Function.update r.item r.allocated x }
    | _ => none
  | .store p =>
    match r.producer p with
    | .storing n x (f :: todo) =>
      some { r with
        slot := Function.update r.slot (n % L.size)
          (Function.update (r.slot (n % L.size)) f (x f))
        producer := Function.update r.producer p (.storing n x todo) }
    | _ => none
  | .commit p =>
    match r.producer p with
    | .storing n _ [] =>
      some { r with
        marker := Function.update r.marker (n % L.size) (L.mark n)
        producer := Function.update r.producer p .idle
        committed := Function.update r.committed n true }
    | _ => none
  | .claim c =>
    match r.consumer c with
    | .idle =>
      some { r with
        claimed := r.claimed + 1
        consumer := Function.update r.consumer c (.waiting r.claimed)
        claims := Function.update r.claims r.claimed (r.claims r.claimed ++ [c]) }
    | _ => none
  | .see c =>
    match r.consumer c with
    | .waiting n =>
      if r.marker (n % L.size) = L.mark n then
        some { r with consumer := Function.update r.consumer c (.loading n L.fields fun _ => 0) }
      else none
    | _ => none
  | .load c =>
    match r.consumer c with
    | .loading n (f :: todo) x =>
      let x := Function.update x f (r.slot (n % L.size) f)
      some { r with consumer := Function.update r.consumer c (.loading n todo x) }
    | _ => none
  | .finish c =>
    match r.consumer c with
    | .loading n [] x =>
      some { r with
        consumer := Function.update r.consumer c (.holding n x)
        read := Function.update r.read c (r.read c ++ [(n, x)]) }
    | _ => none
  | .clear c =>
    match r.consumer c with
    | .holding n _ =>
      some { r with
        marker := Function.update r.marker (n % L.size) 0
        consumer := Function.update r.consumer c .idle
        cleared := Function.update r.cleared n true }
    | _ => none
  | .leave c =>
    match r.consumer c with
    | .waiting _ => some { r with consumer := Function.update r.consumer c .idle }
    | _ => none

/-- An index is taken only after the slot's last item has been cleared, and no
index reaches the bound. -/
def Orderly (L : Layout F) (r : Ring P C F V) : Act P C F V → Prop
  | .allocate _ _ =>
    r.allocated < L.bound ∧ (r.allocated < L.size ∨ r.cleared (r.allocated - L.size) = true)
  | .claim _ => r.claimed < L.bound
  | _ => True

namespace Ring

/-- Before the first step. -/
structure Init (r : Ring P C F V) : Prop where
  marker : ∀ i, r.marker i = 0
  allocated : r.allocated = 0
  claimed : r.claimed = 0
  producer : ∀ p, r.producer p = .idle
  consumer : ∀ c, r.consumer c = .idle
  read : ∀ c, r.read c = []
  committed : ∀ n, r.committed n = false
  cleared : ∀ n, r.cleared n = false
  claims : ∀ n, r.claims n = []

/-- An item is in its slot, to be read. -/
def Full (r : Ring P C F V) (n : Nat) : Prop := r.committed n = true ∧ r.cleared n = false

/-- Some consumer has read the item. -/
def WasRead (r : Ring P C F V) (n : Nat) : Prop := ∃ c x, (n, x) ∈ r.read c

/-- How a consumer stands to the index it has claimed. -/
def Consuming (r : Ring P C F V) (c : C) : Prop :=
  match r.consumer c with
  | .idle => True
  | .waiting n => r.claims n = [c] ∧ n ∉ (r.read c).map Prod.fst
  | .loading n todo x =>
    r.claims n = [c] ∧ n ∉ (r.read c).map Prod.fst ∧ r.Full n ∧ ∀ f, f ∉ todo → x f = r.item n f
  | .holding n x => (n, x) ∈ r.read c ∧ r.Full n

/-- The invariant of a ring. -/
structure Valid (L : Layout F) (r : Ring P C F V) : Prop where
  storing : ∀ p n x todo, r.producer p = .storing n x todo →
    n < r.allocated ∧ r.committed n = false ∧ r.item n = x ∧
      ∀ f, f ∉ todo → r.slot (n % L.size) f = x f
  alone : ∀ p q n x y todo todo', r.producer p = .storing n x todo →
    r.producer q = .storing n y todo' → p = q
  /-- An index is committed, or a producer is at it. -/
  held : ∀ n, n < r.allocated → r.committed n = false →
    ∃ p x todo, r.producer p = .storing n x todo
  bound : r.allocated ≤ L.bound
  committed : ∀ n, r.committed n = true → n < r.allocated
  cleared : ∀ n, r.cleared n = true → r.committed n = true ∧ r.WasRead n
  /-- Only the last lap is in use. -/
  window : ∀ n, n + L.size < r.allocated → r.cleared n = true
  marker : ∀ i, r.marker i = 0 ∨ ∃ n, n % L.size = i ∧ r.marker i = L.mark n ∧ r.Full n
  full : ∀ n, r.Full n →
    r.marker (n % L.size) = L.mark n ∧ ∀ f, r.slot (n % L.size) f = r.item n f
  claimed : r.claimed ≤ L.bound
  unclaimed : ∀ n, r.claimed ≤ n → r.claims n = []
  once : ∀ n, n < r.claimed → ∃ c, r.claims n = [c]
  consumer : ∀ c, r.Consuming c
  read : ∀ c n x, (n, x) ∈ r.read c → r.claims n = [c] ∧ r.committed n = true ∧ x = r.item n
  nodup : ∀ c, ((r.read c).map Prod.fst).Nodup

variable {L : Layout F} {r r' : Ring P C F V}

theorem Init.valid (h : r.Init) : r.Valid L where
  storing p n x todo hp := by cases (h.producer p).symm.trans hp
  alone p q n x y todo todo' hp := by cases (h.producer p).symm.trans hp
  held n hn := by rw [h.allocated] at hn; exact absurd hn (Nat.not_lt_zero _)
  bound := h.allocated ▸ Nat.zero_le _
  committed n hn := by cases (h.committed n).symm.trans hn
  cleared n hn := by cases (h.cleared n).symm.trans hn
  window n hn := by rw [h.allocated] at hn; exact absurd hn (Nat.not_lt_zero _)
  marker i := .inl (h.marker i)
  full n hn := by cases (h.committed n).symm.trans hn.1
  claimed := h.claimed ▸ Nat.zero_le _
  unclaimed n _ := h.claims n
  once n hn := by rw [h.claimed] at hn; exact absurd hn (Nat.not_lt_zero _)
  consumer c := by simp only [Consuming, h.consumer c]
  read c n x hx := by rw [h.read c] at hx; cases hx
  nodup c := by rw [h.read c]; exact List.nodup_nil

/-- Of two indices with one slot, the earlier has been cleared. -/
theorem Valid.earlier (hv : r.Valid L) {k n : Nat} (hn : n < r.allocated) (h : k < n)
    (hc : k % L.size = n % L.size) : r.cleared k = true :=
  hv.window k ((Nat.ModEq.add_le_of_lt hc h).trans_lt hn)

/-- An index that has not been cleared is the last one of its slot. -/
theorem Valid.last (hv : r.Valid L) {k n : Nat} (hk : k < r.allocated) (hn : n < r.allocated)
    (hc : k % L.size = n % L.size) (hne : k ≠ n) (hclear : r.cleared n = false) :
    r.cleared k = true := by
  rcases Nat.lt_or_gt_of_ne hne with h | h
  · exact hv.earlier hn h hc
  · exact absurd ((hv.earlier hk h hc.symm).symm.trans hclear) (by decide)

theorem Valid.not_cleared (hv : r.Valid L) {n : Nat} (h : r.committed n = false) :
    r.cleared n = false := by
  cases hc : r.cleared n with
  | false => rfl
  | true => exact absurd ((hv.cleared n hc).1.symm.trans h) (by decide)

/-- The slot an index is stored to holds no item. -/
theorem Valid.vacant (hv : r.Valid L) {k n : Nat} (hn : n < r.allocated)
    (hnc : r.committed n = false) (hc : k % L.size = n % L.size) : ¬ r.Full k := by
  rintro ⟨hk, hkc⟩
  have hne : k ≠ n := by
    rintro rfl
    cases hk.symm.trans hnc
  exact absurd ((hv.last (hv.committed k hk) hn hc hne (hv.not_cleared hnc)).symm.trans hkc)
    (by decide)

/-- Nor is it stored to for another one. -/
theorem Valid.storing_eq (hv : r.Valid L) {p q : P} {n m : Nat} {x y : F → V} {todo todo' : List F}
    (hp : r.producer p = .storing n x todo) (hq : r.producer q = .storing m y todo')
    (hc : m % L.size = n % L.size) : m = n := by
  by_contra hne
  obtain ⟨hn, hnc, -⟩ := hv.storing p n x todo hp
  obtain ⟨hm, hmc, -⟩ := hv.storing q m y todo' hq
  have hcl := hv.last hm hn hc hne (hv.not_cleared hnc)
  exact absurd (hcl.symm.trans (hv.not_cleared hmc)) (by decide)

/-- A consumer that does not move keeps its place. -/
theorem Valid.consuming (hv : r.Valid L) {c : C} (hc : r'.consumer c = r.consumer c)
    (hread : r'.read c = r.read c) (hclaims : ∀ n, r.claims n = [c] → r'.claims n = [c])
    (hfull : ∀ n, r.claims n = [c] → r.Full n → r'.Full n ∧ r'.item n = r.item n) :
    r'.Consuming c := by
  have h := hv.consumer c
  unfold Consuming at h ⊢
  rw [hc]
  split at h
  · trivial
  · rw [hread]
    exact ⟨hclaims _ h.1, h.2⟩
  · obtain ⟨hn, hnew, hf, hx⟩ := h
    obtain ⟨hf', hitem⟩ := hfull _ hn hf
    rw [hread]
    exact ⟨hclaims _ hn, hnew, hf', fun f hft => (hx f hft).trans (congrFun hitem f).symm⟩
  · rw [hread]
    exact ⟨h.1, (hfull _ (hv.read c _ _ h.1).1 h.2).1⟩

/-- A consumer moves on and touches nothing else. -/
theorem Valid.advance [DecidableEq C] (hv : r.Valid L) {c : C} {x : Consumer F V}
    (hx : ({ r with consumer := Function.update r.consumer c x } : Ring P C F V).Consuming c) :
    ({ r with consumer := Function.update r.consumer c x } : Ring P C F V).Valid L :=
  { hv with
    consumer := fun d => by
      by_cases hdc : d = c
      · subst hdc
        exact hx
      · exact hv.consuming (Function.update_of_ne hdc _ _) rfl (fun _ h => h)
          fun _ _ hn => ⟨hn, rfl⟩ }

/-- A mark that is seen is that of the index itself. -/
theorem Valid.full_of_seen (hv : r.Valid L) {n : Nat} (hn : n < L.bound)
    (hm : r.marker (n % L.size) = L.mark n) : r.Full n := by
  rcases hv.marker (n % L.size) with h0 | ⟨k, -, hk, hf⟩
  · exact absurd (hm.symm.trans h0) (L.mark_ne_zero n hn)
  · have hkb := (hv.committed k hf.1).trans_le hv.bound
    exact L.mark_inj n k hn hkb (hm.symm.trans hk) ▸ hf

theorem Valid.claim_lt (hv : r.Valid L) {n : Nat} {c : C} (h : r.claims n = [c]) :
    n < r.claimed := by
  by_contra hn
  cases (hv.unclaimed n (Nat.le_of_not_lt hn)).symm.trans h

section Step

variable [DecidableEq P] [DecidableEq C] [DecidableEq F] [Zero V]

theorem valid_allocate (hv : r.Valid L) {p : P} {x : F → V} (ho : Orderly L r (.allocate p x))
    (hs : step L r (.allocate p x) = some r') : r'.Valid L := by
  simp only [step] at hs
  split at hs
  case h_2 => cases hs
  cases hs
  obtain ⟨hbound, hfree⟩ := ho
  have hitem : ∀ n, n < r.allocated → Function.update r.item r.allocated x n = r.item n :=
    fun n hn => Function.update_of_ne hn.ne _ _
  have hnew : r.committed r.allocated = false := by
    cases h : r.committed r.allocated with
    | false => rfl
    | true => exact absurd (hv.committed _ h) (Nat.lt_irrefl _)
  refine { hv with
    storing := fun q n y todo hq => ?_
    alone := fun q q' n y z todo todo' hq hq' => ?_
    held := fun n hn hc => ?_
    bound := hbound
    committed := fun n hn => Nat.lt_succ_of_lt (hv.committed n hn)
    window := fun n hn => ?_
    full := fun n hn => ?_
    consumer := fun c => ?_
    read := fun c n y hy => ?_ }
  · by_cases hqp : q = p
    · subst hqp
      cases (Function.update_self ..).symm.trans hq
      exact ⟨Nat.lt_succ_self _, hnew, Function.update_self .., fun f hf => absurd (L.all f) hf⟩
    · replace hq := (Function.update_of_ne hqp _ _).symm.trans hq
      obtain ⟨hn, hc, hi, hf⟩ := hv.storing q n y todo hq
      exact ⟨Nat.lt_succ_of_lt hn, hc, (hitem n hn).trans hi, hf⟩
  · have hlt : ∀ q n y todo, q ≠ p →
        Function.update r.producer p (.storing r.allocated x L.fields) q = .storing n y todo →
        n < r.allocated := fun q n y todo hqp hq =>
      (hv.storing q n y todo ((Function.update_of_ne hqp _ _).symm.trans hq)).1
    by_cases hqp : q = p
    · by_cases hqp' : q' = p
      · exact hqp.trans hqp'.symm
      · subst hqp
        cases (Function.update_self ..).symm.trans hq
        exact absurd (hlt q' _ z todo' hqp' hq') (Nat.lt_irrefl _)
    · by_cases hqp' : q' = p
      · subst hqp'
        cases (Function.update_self ..).symm.trans hq'
        exact absurd (hlt q _ y todo hqp hq) (Nat.lt_irrefl _)
      · exact hv.alone q q' n y z todo todo' ((Function.update_of_ne hqp _ _).symm.trans hq)
          ((Function.update_of_ne hqp' _ _).symm.trans hq')
  · rcases Nat.lt_succ_iff_lt_or_eq.mp hn with h | rfl
    · obtain ⟨q, y, todo, hq⟩ := hv.held n h hc
      have hqp : q ≠ p := by
        rintro rfl
        cases hq.symm.trans ‹r.producer q = .idle›
      exact ⟨q, y, todo, (Function.update_of_ne hqp _ _).trans hq⟩
    · exact ⟨p, x, L.fields, Function.update_self ..⟩
  · rcases Nat.lt_succ_iff_lt_or_eq.mp hn with h | h
    · exact hv.window n h
    · rcases hfree with hlt | hcl
      · exact absurd h (by omega)
      · rwa [← h, Nat.add_sub_cancel] at hcl
  · obtain ⟨hm, hf⟩ := hv.full n hn
    exact ⟨hm, fun f => (hf f).trans (congrFun (hitem n (hv.committed n hn.1)) f).symm⟩
  · exact hv.consuming rfl rfl (fun _ h => h)
      fun n _ hn => ⟨hn, hitem n (hv.committed n hn.1)⟩
  · obtain ⟨hc, hn, hy⟩ := hv.read c n y hy
    exact ⟨hc, hn, hy.trans (hitem n (hv.committed n hn)).symm⟩

theorem valid_store (hv : r.Valid L) {p : P} (hs : step L r (.store p) = some r') :
    r'.Valid L := by
  simp only [step] at hs
  split at hs
  case h_2 => cases hs
  rename_i n x f todo hp
  cases hs
  obtain ⟨hn, hnc, hitem, hx⟩ := hv.storing p n x _ hp
  refine { hv with
    storing := fun q m y todo' hq => ?_
    alone := fun q q' m y z t t' hq hq' => ?_
    held := fun m hm hc => ?_
    full := fun k hk => ⟨(hv.full k hk).1, fun g => ?_⟩
    consumer := fun c => hv.consuming rfl rfl (fun _ h => h) fun _ _ hk => ⟨hk, rfl⟩ }
  · by_cases hqp : q = p
    · subst hqp
      cases (Function.update_self ..).symm.trans hq
      refine ⟨hn, hnc, hitem, fun g hg => ?_⟩
      dsimp only
      rw [Function.update_self]
      by_cases hgf : g = f
      · subst hgf
        exact Function.update_self ..
      · rw [Function.update_of_ne hgf]
        exact hx g fun h => (List.mem_cons.mp h).elim hgf hg
    · replace hq := (Function.update_of_ne hqp _ _).symm.trans hq
      obtain ⟨hm, hmc, hi, hy⟩ := hv.storing q m y todo' hq
      refine ⟨hm, hmc, hi, fun g hg => ?_⟩
      have hne : m % L.size ≠ n % L.size := by
        intro hc
        have hmn := hv.storing_eq hp hq hc
        subst hmn
        exact hqp (hv.alone q p m y x _ _ hq hp)
      dsimp only
      rw [Function.update_of_ne hne]
      exact hy g hg
  · have hback : ∀ q m y t, Function.update r.producer p (.storing n x todo) q = .storing m y t →
        ∃ t, r.producer q = .storing m y t := by
      intro q m y t hq
      by_cases hqp : q = p
      · subst hqp
        cases (Function.update_self ..).symm.trans hq
        exact ⟨_, hp⟩
      · exact ⟨_, (Function.update_of_ne hqp _ _).symm.trans hq⟩
    obtain ⟨t, hq⟩ := hback q m y t hq
    obtain ⟨t', hq'⟩ := hback q' m z t' hq'
    exact hv.alone q q' m y z t t' hq hq'
  · obtain ⟨q, y, t, hq⟩ := hv.held m hm hc
    by_cases hqp : q = p
    · subst hqp
      cases hp.symm.trans hq
      exact ⟨q, x, todo, Function.update_self ..⟩
    · exact ⟨q, y, t, (Function.update_of_ne hqp _ _).trans hq⟩
  · have hne : k % L.size ≠ n % L.size := fun hc => hv.vacant hn hnc hc hk
    dsimp only
    rw [Function.update_of_ne hne]
    exact (hv.full k hk).2 g

theorem valid_commit (hv : r.Valid L) {p : P} (hs : step L r (.commit p) = some r') :
    r'.Valid L := by
  simp only [step] at hs
  split at hs
  case h_2 => cases hs
  rename_i n x hp
  cases hs
  obtain ⟨hn, hnc, hitem, hx⟩ := hv.storing p n x _ hp
  have hncl := hv.not_cleared hnc
  have hcommit : ∀ k, Function.update r.committed n true k = true →
      k = n ∨ r.committed k = true := fun k hk =>
    (eq_or_ne k n).imp_right fun hne => (Function.update_of_ne hne _ _).symm.trans hk
  have hkeep : ∀ k, r.committed k = true → Function.update r.committed n true k = true := by
    intro k hk
    by_cases hkn : k = n
    · subst hkn
      exact Function.update_self ..
    · exact (Function.update_of_ne hkn _ _).trans hk
  have hother : ∀ q m y t, Function.update r.producer p .idle q = .storing m y t →
      q ≠ p ∧ r.producer q = .storing m y t := by
    intro q m y t hq
    by_cases hqp : q = p
    · subst hqp
      cases (Function.update_self ..).symm.trans hq
    · exact ⟨hqp, (Function.update_of_ne hqp _ _).symm.trans hq⟩
  refine { hv with
    storing := fun q m y todo hq => ?_
    alone := fun q q' m y z t t' hq hq' =>
      hv.alone q q' m y z t t' (hother q m y t hq).2 (hother q' m z t' hq').2
    held := fun m hm hc => ?_
    committed := fun k hk => (hcommit k hk).elim (fun h => h ▸ hn) (hv.committed k)
    cleared := fun k hk => ⟨hkeep k (hv.cleared k hk).1, (hv.cleared k hk).2⟩
    marker := fun i => ?_
    full := fun k hk => ?_
    consumer := fun c =>
      hv.consuming rfl rfl (fun _ h => h) fun k _ hk => ⟨⟨hkeep k hk.1, hk.2⟩, rfl⟩
    read := fun c k y hy => ?_ }
  · obtain ⟨hqp, hq⟩ := hother q m y todo hq
    obtain ⟨hm, hmc, hi, hy⟩ := hv.storing q m y todo hq
    have hne : m ≠ n := fun h => hqp (hv.alone q p n y x todo _ (h ▸ hq) hp)
    exact ⟨hm, (Function.update_of_ne hne _ _).trans hmc, hi, hy⟩
  · have hmn : m ≠ n := by
      rintro rfl
      cases (Function.update_self ..).symm.trans hc
    obtain ⟨q, y, t, hq⟩ := hv.held m hm ((Function.update_of_ne hmn _ _).symm.trans hc)
    have hqp : q ≠ p := by
      rintro rfl
      cases hp.symm.trans hq
      exact hmn rfl
    exact ⟨q, y, t, (Function.update_of_ne hqp _ _).trans hq⟩
  · by_cases hi : i = n % L.size
    · subst hi
      exact .inr ⟨n, rfl, Function.update_self .., Function.update_self .., hncl⟩
    · dsimp only
      rw [Function.update_of_ne hi]
      exact (hv.marker i).imp_right fun ⟨k, hk, hmk, hf⟩ => ⟨k, hk, hmk, hkeep k hf.1, hf.2⟩
  · rcases hcommit k hk.1 with rfl | hk'
    · exact ⟨Function.update_self .., fun f => (hx f List.not_mem_nil).trans (congrFun hitem f).symm⟩
    · have hne : k % L.size ≠ n % L.size := fun hc => hv.vacant hn hnc hc ⟨hk', hk.2⟩
      obtain ⟨hm, hf⟩ := hv.full k ⟨hk', hk.2⟩
      exact ⟨(Function.update_of_ne hne _ _).trans hm, hf⟩
  · obtain ⟨hc, hk, hy⟩ := hv.read c k y hy
    exact ⟨hc, hkeep k hk, hy⟩

theorem valid_claim (hv : r.Valid L) {c : C} (ho : Orderly L r (.claim c))
    (hs : step L r (.claim c) = some r') : r'.Valid L := by
  simp only [step] at hs
  split at hs
  case h_2 => cases hs
  cases hs
  have hnone : r.claims r.claimed = [] := hv.unclaimed _ le_rfl
  have hkeep : ∀ n d, r.claims n = [d] →
      Function.update r.claims r.claimed (r.claims r.claimed ++ [c]) n = [d] := by
    intro n d hn
    have hne : n ≠ r.claimed := by
      rintro rfl
      cases hnone.symm.trans hn
    exact (Function.update_of_ne hne _ _).trans hn
  have hself : Function.update r.claims r.claimed (r.claims r.claimed ++ [c]) r.claimed = [c] := by
    rw [Function.update_self, hnone]
    rfl
  refine { hv with
    claimed := ho
    unclaimed := fun n hn => ?_
    once := fun n hn => ?_
    consumer := fun d => ?_
    read := fun d n y hy => ?_ }
  · have hne : n ≠ r.claimed := (Nat.lt_of_succ_le hn).ne'
    exact (Function.update_of_ne hne _ _).trans (hv.unclaimed n (Nat.le_of_succ_le hn))
  · rcases Nat.lt_succ_iff_lt_or_eq.mp hn with h | rfl
    · obtain ⟨d, hd⟩ := hv.once n h
      exact ⟨d, hkeep n d hd⟩
    · exact ⟨c, hself⟩
  · by_cases hdc : d = c
    · subst hdc
      simp only [Consuming, Function.update_self]
      refine ⟨by rw [hnone]; rfl, fun hmem => ?_⟩
      obtain ⟨⟨k, x⟩, hx, rfl⟩ := List.mem_map.mp hmem
      cases hnone.symm.trans (hv.read d _ x hx).1
    · exact hv.consuming (Function.update_of_ne hdc _ _) rfl (fun n hn => hkeep n d hn)
        fun _ _ hn => ⟨hn, rfl⟩
  · obtain ⟨hn, hrest⟩ := hv.read d n y hy
    exact ⟨hkeep n d hn, hrest⟩

theorem valid_see (hv : r.Valid L) {c : C} (hs : step L r (.see c) = some r') : r'.Valid L := by
  simp only [step] at hs
  split at hs
  case h_2 => cases hs
  rename_i n hc
  split at hs <;> cases hs
  rename_i hm
  obtain ⟨hn, hnew⟩ : r.claims n = [c] ∧ n ∉ (r.read c).map Prod.fst := by
    simpa only [Consuming, hc] using hv.consumer c
  have hf := hv.full_of_seen ((hv.claim_lt hn).trans_le hv.claimed) hm
  refine hv.advance ?_
  simp only [Consuming, Function.update_self]
  exact ⟨hn, hnew, hf, fun f h => absurd (L.all f) h⟩

theorem valid_load (hv : r.Valid L) {c : C} (hs : step L r (.load c) = some r') : r'.Valid L := by
  simp only [step] at hs
  split at hs
  case h_2 => cases hs
  rename_i n f todo x hc
  cases hs
  obtain ⟨hn, hnew, hf, hx⟩ : r.claims n = [c] ∧ n ∉ (r.read c).map Prod.fst ∧ r.Full n ∧
      ∀ g, g ∉ f :: todo → x g = r.item n g := by
    simpa only [Consuming, hc] using hv.consumer c
  refine hv.advance ?_
  simp only [Consuming, Function.update_self]
  refine ⟨hn, hnew, hf, fun g hg => ?_⟩
  by_cases hgf : g = f
  · subst hgf
    exact (Function.update_self ..).trans ((hv.full n hf).2 g)
  · exact (Function.update_of_ne hgf _ _).trans (hx g fun h => (List.mem_cons.mp h).elim hgf hg)

theorem valid_leave (hv : r.Valid L) {c : C} (hs : step L r (.leave c) = some r') :
    r'.Valid L := by
  simp only [step] at hs
  split at hs <;> cases hs
  refine hv.advance ?_
  simp only [Consuming, Function.update_self]

theorem valid_finish (hv : r.Valid L) {c : C} (hs : step L r (.finish c) = some r') :
    r'.Valid L := by
  simp only [step] at hs
  split at hs
  case h_2 => cases hs
  rename_i n x hc
  cases hs
  obtain ⟨hn, hnew, hf, hx⟩ : r.claims n = [c] ∧ n ∉ (r.read c).map Prod.fst ∧ r.Full n ∧
      ∀ g, g ∉ ([] : List F) → x g = r.item n g := by
    simpa only [Consuming, hc] using hv.consumer c
  have hmem : ∀ d k y, (k, y) ∈ Function.update r.read c (r.read c ++ [(n, x)]) d →
      (k, y) ∈ r.read d ∨ d = c ∧ k = n ∧ y = x := by
    intro d k y hy
    by_cases hdc : d = c
    · subst hdc
      rw [Function.update_self] at hy
      rcases List.mem_append.mp hy with h | h
      · exact .inl h
      · cases List.mem_singleton.mp h
        exact .inr ⟨rfl, rfl, rfl⟩
    · rw [Function.update_of_ne hdc] at hy
      exact .inl hy
  refine { hv with
    cleared := fun k hk => ⟨(hv.cleared k hk).1, ?_⟩
    consumer := fun d => ?_
    read := fun d k y hy => ?_
    nodup := fun d => ?_ }
  · obtain ⟨d, y, hy⟩ := (hv.cleared k hk).2
    refine ⟨d, y, ?_⟩
    by_cases hdc : d = c
    · subst hdc
      dsimp only
      rw [Function.update_self]
      exact List.mem_append_left _ hy
    · dsimp only
      rw [Function.update_of_ne hdc]
      exact hy
  · by_cases hdc : d = c
    · subst hdc
      simp only [Consuming, Function.update_self]
      exact ⟨List.mem_append_right _ (List.mem_singleton_self _), hf⟩
    · exact hv.consuming (Function.update_of_ne hdc _ _) (Function.update_of_ne hdc _ _)
        (fun _ h => h) fun _ _ hk => ⟨hk, rfl⟩
  · rcases hmem d k y hy with h | ⟨rfl, rfl, rfl⟩
    · exact hv.read d k y h
    · exact ⟨hn, hf.1, funext fun f => hx f List.not_mem_nil⟩
  · by_cases hdc : d = c
    · subst hdc
      dsimp only
      rw [Function.update_self, List.map_append, List.nodup_append]
      refine ⟨hv.nodup d, List.nodup_singleton _, fun k hk m hm => ?_⟩
      rintro rfl
      cases List.mem_singleton.mp hm
      exact hnew hk
    · dsimp only
      rw [Function.update_of_ne hdc]
      exact hv.nodup d

theorem valid_clear (hv : r.Valid L) {c : C} (hs : step L r (.clear c) = some r') :
    r'.Valid L := by
  simp only [step] at hs
  split at hs
  case h_2 => cases hs
  rename_i n x hc
  cases hs
  obtain ⟨hread, hf⟩ : (n, x) ∈ r.read c ∧ r.Full n := by
    simpa only [Consuming, hc] using hv.consumer c
  have hn := hv.committed n hf.1
  have hclear : ∀ k, k ≠ n → Function.update r.cleared n true k = r.cleared k :=
    fun k hk => Function.update_of_ne hk _ _
  have hback : ∀ k, Function.update r.cleared n true k = false → k ≠ n ∧ r.cleared k = false := by
    intro k hk
    have hne : k ≠ n := by
      rintro rfl
      cases (Function.update_self ..).symm.trans hk
    exact ⟨hne, (hclear k hne).symm.trans hk⟩
  have hslot : ∀ k, k ≠ n → r.Full k → k % L.size ≠ n % L.size := fun k hne hk hkn =>
    absurd ((hv.last (hv.committed k hk.1) hn hkn hne hf.2).symm.trans hk.2) (by decide)
  refine { hv with
    cleared := fun k hk => ?_
    window := fun k hk => ?_
    marker := fun i => ?_
    full := fun k hk => ?_
    consumer := fun d => ?_ }
  · by_cases hkn : k = n
    · subst hkn
      exact ⟨hf.1, c, x, hread⟩
    · exact hv.cleared k ((hclear k hkn).symm.trans hk)
  · by_cases hkn : k = n
    · subst hkn
      exact Function.update_self ..
    · exact (hclear k hkn).trans (hv.window k hk)
  · by_cases hi : i = n % L.size
    · subst hi
      exact .inl (Function.update_self ..)
    · dsimp only
      rw [Function.update_of_ne hi]
      refine (hv.marker i).imp_right fun ⟨k, hk, hmk, hfk⟩ => ⟨k, hk, hmk, hfk.1, ?_⟩
      have hne : k ≠ n := by
        rintro rfl
        exact hi hk.symm
      exact (hclear k hne).trans hfk.2
  · obtain ⟨hne, hkc⟩ := hback k hk.2
    obtain ⟨hm, hfk⟩ := hv.full k ⟨hk.1, hkc⟩
    exact ⟨(Function.update_of_ne (hslot k hne ⟨hk.1, hkc⟩) _ _).trans hm, hfk⟩
  · by_cases hdc : d = c
    · subst hdc
      simp only [Consuming, Function.update_self]
    · refine hv.consuming (Function.update_of_ne hdc _ _) rfl (fun _ h => h) fun k hk hfk => ?_
      have hne : k ≠ n := by
        rintro rfl
        cases (hv.read c _ x hread).1.symm.trans hk
        exact hdc rfl
      exact ⟨⟨hfk.1, (hclear k hne).trans hfk.2⟩, rfl⟩

theorem valid_step (hv : r.Valid L) {a : Act P C F V} (ho : Orderly L r a)
    (hs : step L r a = some r') : r'.Valid L := by
  cases a with
  | allocate p x => exact valid_allocate hv ho hs
  | store p => exact valid_store hv hs
  | commit p => exact valid_commit hv hs
  | claim c => exact valid_claim hv ho hs
  | see c => exact valid_see hv hs
  | load c => exact valid_load hv hs
  | finish c => exact valid_finish hv hs
  | clear c => exact valid_clear hv hs
  | leave c => exact valid_leave hv hs

/-- The ring keeps its invariant in orderly runs. -/
theorem valid_of_reachable (h : Reachable (step L) (Orderly L) Init r) : r.Valid L :=
  h.invariant (fun _ h => h.valid) fun _ _ _ hv ho hs => valid_step hv ho hs

end Step

/-- While no index has been taken, the consumers can be replaced by new ones. -/
theorem Valid.restart (hv : r.Valid L) (h0 : r.allocated = 0) :
    ({ r with consumer := fun _ => .idle, read := fun _ => [] } : Ring P C F V).Valid L := by
  have hnone : ∀ n, r.committed n ≠ true := fun n hn =>
    Nat.not_lt_zero n (h0 ▸ hv.committed n hn)
  exact { hv with
    cleared := fun n hn => absurd (hv.cleared n hn).1 (hnone n)
    consumer := fun _ => trivial
    read := fun c n x hx => absurd hx List.not_mem_nil
    nodup := fun _ => List.nodup_nil }

/-- The index whose slot a step stores to. -/
def stores (r : Ring P C F V) : Act P C F V → Option Nat
  | .store p | .commit p => match r.producer p with | .storing n _ _ => some n | _ => none
  | .clear c => match r.consumer c with | .holding n _ => some n | _ => none
  | _ => none

/-- **No overrun.**  When a slot is stored to, all other items it was taken for
have been read; and a consumer stores only to the slot of an item that has. -/
theorem Valid.wasRead (hv : r.Valid L) {a : Act P C F V} {n : Nat} (hs : r.stores a = some n)
    {k : Nat} (hk : k < r.allocated) (hc : k % L.size = n % L.size) (hne : k ≠ n) :
    r.WasRead k := by
  have hcleared : r.cleared k = true := by
    cases a with
    | store p | commit p =>
      simp only [stores] at hs
      split at hs <;> cases hs
      rename_i hp
      obtain ⟨hn, hnc, -⟩ := hv.storing _ _ _ _ hp
      exact hv.last hk hn hc hne (hv.not_cleared hnc)
    | clear c =>
      simp only [stores] at hs
      split at hs <;> cases hs
      rename_i hp
      have hf : r.Full n := by
        have := hv.consumer c
        simp only [Consuming, hp] at this
        exact this.2
      exact hv.last hk (hv.committed n hf.1) hc hne hf.2
    | _ => cases hs
  exact (hv.cleared k hcleared).2

end Ring
end SlotRing
