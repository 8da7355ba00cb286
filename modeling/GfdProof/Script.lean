import Mathlib
import GfdProof.Transition

/-! # One thread's calls among an environment's steps

A thread performs a list of calls one after the other; a call may be *blocked*
in the present state, and performing it may put further calls in front of the
rest, which is how a function call is expanded into its body at the moment it
is made.  Between any two calls the environment takes any number of its own
steps.

`Safe` says of a list of calls and a state that whatever the environment does,
the invariant holds at every moment, every call meets its precondition when it
is at the head, and the postcondition holds once the list is exhausted.  It is
indexed by the number of steps it looks ahead, so that the rules are proved by
induction on that number.  `Triple` is the Hoare triple over it; its assertions
have to be stable, i.e. preserved by the environment.
-/
namespace Script

variable {σ κ ε : Type*}

/-- What performing a call does, and what the environment does. -/
structure Machine (σ κ ε : Type*) where
  /-- The new state and the calls to make before anything else; `none` while
  the call is blocked. -/
  perform : σ → κ → Option (σ × List κ)
  env : σ → ε → Option σ

/-- A state and the calls that are left to make. -/
structure State (σ κ : Type*) where
  data : σ
  todo : List κ

/-- The thread's next call, or a step of the environment. -/
inductive Act (ε : Type*)
  | perform
  | env (e : ε)

namespace Machine

variable (M : Machine σ κ ε)

/-- One step of the thread or of its environment. -/
def step (s : State σ κ) : Act ε → Option (State σ κ)
  | .perform =>
    match s.todo with
    | [] => none
    | c :: rest => (M.perform s.data c).map fun r => ⟨r.1, r.2 ++ rest⟩
  | .env e => (M.env s.data e).map fun t => { s with data := t }

/-- The environment preserves `P`. -/
def Stable (P : σ → Prop) : Prop := ∀ s e t, P s → M.env s e = some t → P t

/-- What is required at every moment, and of a call about to be made. -/
structure Spec (σ κ : Type*) where
  inv : σ → Prop
  pre : κ → σ → Prop

/-- Only an invariant is required. -/
def Spec.always (I : σ → Prop) : Spec σ κ := ⟨I, fun _ _ => True⟩

/-- Nothing is required. -/
abbrev Spec.free : Spec σ κ := .always fun _ => True

/-- Both of two requirements. -/
def Spec.and (S T : Spec σ κ) : Spec σ κ :=
  ⟨fun s => S.inv s ∧ T.inv s, fun c s => S.pre c s ∧ T.pre c s⟩

/-- For the next `n` steps: the invariant holds, every call meets its
precondition, and `Q` holds while no call is left. -/
def Safe (S : Spec σ κ) (Q : σ → Prop) : Nat → List κ → σ → Prop
  | 0, _, _ => True
  | n + 1, l, s =>
    S.inv s ∧ (l = [] → Q s) ∧
      (∀ c rest, l = c :: rest → S.pre c s ∧
        ∀ t m, M.perform s c = some (t, m) → Safe S Q n (m ++ rest) t) ∧
      ∀ e t, M.env s e = some t → Safe S Q n l t

/-- From a state that meets `P`, the calls `l` are safe and end in `Q`. -/
def Triple (S : Spec σ κ) (P : σ → Prop) (l : List κ) (Q : σ → Prop) : Prop :=
  ∀ s, P s → ∀ n, M.Safe S Q n l s

variable {M} {S T : Spec σ κ} {P P' Q Q' R : σ → Prop}

theorem Stable.and (hP : M.Stable P) (hQ : M.Stable Q) : M.Stable fun s => P s ∧ Q s :=
  fun s e t h he => ⟨hP s e t h.1 he, hQ s e t h.2 he⟩

theorem Stable.imp_const {p : Prop} (hP : p → M.Stable P) : M.Stable fun s => p → P s :=
  fun s e t h he hp => hP hp s e t (h hp) he

theorem Stable.const (p : Prop) : M.Stable fun _ => p := fun _ _ _ h _ => h

theorem Stable.forall {ι : Sort*} {P : ι → σ → Prop} (h : ∀ i, M.Stable (P i)) :
    M.Stable fun s => ∀ i, P i s := fun s e t hs he i => h i s e t (hs i) he

/-! ## Rules for `Safe` -/

theorem Safe.inv {n : Nat} {l : List κ} {s : σ} (h : M.Safe S Q (n + 1) l s) : S.inv s := h.1

theorem Safe.post {n : Nat} {s : σ} (h : M.Safe S Q (n + 1) [] s) : Q s := h.2.1 rfl

theorem Safe.pre {n : Nat} {c : κ} {rest : List κ} {s : σ}
    (h : M.Safe S Q (n + 1) (c :: rest) s) : S.pre c s := (h.2.2.1 c rest rfl).1

theorem Safe.perform {n : Nat} {c : κ} {rest m : List κ} {s t : σ}
    (h : M.Safe S Q (n + 1) (c :: rest) s) (hp : M.perform s c = some (t, m)) :
    M.Safe S Q n (m ++ rest) t := (h.2.2.1 c rest rfl).2 t m hp

theorem Safe.env {n : Nat} {l : List κ} {s t : σ} {e : ε} (h : M.Safe S Q (n + 1) l s)
    (he : M.env s e = some t) : M.Safe S Q n l t := h.2.2.2 e t he

/-- No call left: the invariant and the postcondition, as long as both are stable. -/
theorem Safe.nil (hQ : M.Stable Q) (hinv : ∀ s, Q s → S.inv s) {s : σ} (hs : Q s) (n : Nat) :
    M.Safe S Q n [] s := by
  induction n generalizing s with
  | zero => trivial
  | succ n ih => exact ⟨hinv s hs, fun _ => hs, nofun, fun e t he => ih (hQ s e t hs he)⟩

/-- One call, from a stable assertion under which every outcome is safe. -/
theorem Safe.cons {c : κ} {rest : List κ} (hP : M.Stable P) (hinv : ∀ s, P s → S.inv s)
    (hpre : ∀ s, P s → S.pre c s)
    (hdo : ∀ s t m, P s → M.perform s c = some (t, m) → ∀ n, M.Safe S Q n (m ++ rest) t)
    {s : σ} (hs : P s) (n : Nat) : M.Safe S Q n (c :: rest) s := by
  induction n generalizing s with
  | zero => trivial
  | succ n ih =>
    refine ⟨hinv s hs, nofun, fun c' rest' h => ?_, fun e t he => ih (hP s e t hs he)⟩
    cases h
    exact ⟨hpre s hs, fun t m hp => hdo s t m hs hp n⟩

/-- Looking less far ahead asks for less. -/
theorem Safe.mono {m n : Nat} {l : List κ} {s : σ} (h : M.Safe S Q n l s) (hmn : m ≤ n) :
    M.Safe S Q m l s := by
  induction m generalizing n l s with
  | zero => trivial
  | succ m ih =>
    obtain ⟨n, rfl⟩ : ∃ k, n = k + 1 := ⟨n - 1, by omega⟩
    have hle : m ≤ n := Nat.le_of_succ_le_succ hmn
    refine ⟨h.inv, h.2.1, fun c rest hc => ?_, fun e t he => ih (h.env he) hle⟩
    exact ⟨(h.2.2.1 c rest hc).1, fun t k hp => ih ((h.2.2.1 c rest hc).2 t k hp) hle⟩

theorem Safe.append {n : Nat} {l l' : List κ} {s : σ} (h : M.Safe S Q n l s)
    (hQ : ∀ t, Q t → ∀ m, m ≤ n → M.Safe S R m l' t) : M.Safe S R n (l ++ l') s := by
  induction n generalizing l s with
  | zero => trivial
  | succ n ih =>
    have hQ' : ∀ t, Q t → ∀ m, m ≤ n → M.Safe S R m l' t := fun t ht m hm =>
      hQ t ht m (Nat.le_succ_of_le hm)
    cases l with
    | nil => exact hQ s h.post (n + 1) (Nat.le_refl _)
    | cons c rest =>
      refine ⟨h.inv, nofun, fun c' rest' hc => ?_, fun e t he => ih (h.env he) hQ'⟩
      cases hc
      refine ⟨h.pre, fun t m hp => ?_⟩
      have hrest := ih (h.perform hp) hQ'
      rwa [List.append_assoc] at hrest

theorem Safe.conseq {n : Nat} {l : List κ} {s : σ} (h : M.Safe S Q n l s)
    (hQ : ∀ t, Q t → R t) (hinv : ∀ t, S.inv t → T.inv t) (hpre : ∀ c t, S.pre c t → T.pre c t) :
    M.Safe T R n l s := by
  induction n generalizing l s with
  | zero => trivial
  | succ n ih =>
    refine ⟨hinv s h.inv, fun hl => hQ s (h.2.1 hl), fun c rest hl => ?_,
      fun e t he => ih (h.env he)⟩
    exact ⟨hpre c s (h.2.2.1 c rest hl).1, fun t m hp => ih ((h.2.2.1 c rest hl).2 t m hp)⟩

theorem Safe.and {n : Nat} {l : List κ} {s : σ} (h : M.Safe S Q n l s) (h' : M.Safe T R n l s) :
    M.Safe (S.and T) (fun s => Q s ∧ R s) n l s := by
  induction n generalizing l s with
  | zero => trivial
  | succ n ih =>
    refine ⟨⟨h.inv, h'.inv⟩, fun hl => ⟨h.2.1 hl, h'.2.1 hl⟩, fun c rest hl => ?_,
      fun e t he => ih (h.env he) (h'.env he)⟩
    exact ⟨⟨(h.2.2.1 c rest hl).1, (h'.2.2.1 c rest hl).1⟩, fun t m hp =>
      ih ((h.2.2.1 c rest hl).2 t m hp) ((h'.2.2.1 c rest hl).2 t m hp)⟩

/-! ## Rules for triples -/

theorem Triple.nil (hQ : M.Stable Q) (hinv : ∀ s, Q s → S.inv s) : M.Triple S Q [] Q :=
  fun _ hs n => Safe.nil hQ hinv hs n

theorem Triple.append {l l' : List κ} (h : M.Triple S P l Q) (h' : M.Triple S Q l' R) :
    M.Triple S P (l ++ l') R := fun s hs n => (h s hs n).append fun t ht m _ => h' t ht m

theorem Triple.cons {c : κ} {l : List κ} (h : M.Triple S P [c] Q) (h' : M.Triple S Q l R) :
    M.Triple S P (c :: l) R := h.append h'

theorem Triple.conseq {l : List κ} (h : M.Triple S P l Q) (hP : ∀ s, P' s → P s)
    (hQ : ∀ s, Q s → Q' s) : M.Triple S P' l Q' := fun s hs n =>
  (h s (hP s hs) n).conseq hQ (fun _ h => h) fun _ _ h => h

theorem Triple.weaken {l : List κ} (h : M.Triple S P l Q) (hinv : ∀ t, S.inv t → T.inv t)
    (hpre : ∀ c t, S.pre c t → T.pre c t) : M.Triple T P l Q := fun s hs n =>
  (h s hs n).conseq (fun _ h => h) hinv hpre

theorem Triple.and {l : List κ} (h : M.Triple S P l Q) (h' : M.Triple T P' l Q') :
    M.Triple (S.and T) (fun s => P s ∧ P' s) l fun s => Q s ∧ Q' s :=
  fun s hs n => (h s hs.1 n).and (h' s hs.2 n)

theorem Safe.forall {ι : Sort*} [Nonempty ι] {Q : ι → σ → Prop} {n : Nat} {l : List κ} {s : σ}
    (h : ∀ i, M.Safe S (Q i) n l s) : M.Safe S (fun s => ∀ i, Q i s) n l s := by
  induction n generalizing l s with
  | zero => trivial
  | succ n ih =>
    have i := Classical.arbitrary ι
    refine ⟨(h i).inv, fun hl j => (h j).2.1 hl, fun c rest hc => ?_,
      fun e t he => ih fun j => (h j).env he⟩
    exact ⟨((h i).2.2.1 c rest hc).1, fun t m hp => ih fun j => ((h j).2.2.1 c rest hc).2 t m hp⟩

theorem Triple.forall {ι : Sort*} [Nonempty ι] {Q : ι → σ → Prop} {l : List κ}
    (h : ∀ i, M.Triple S P l (Q i)) : M.Triple S P l fun s => ∀ i, Q i s :=
  fun s hs n => Safe.forall fun i => h i s hs n

/-- One call whose outcomes are safe. -/
theorem Triple.call {c : κ} (hP : M.Stable P) (hinv : ∀ s, P s → S.inv s)
    (hpre : ∀ s, P s → S.pre c s)
    (hdo : ∀ s t m, P s → M.perform s c = some (t, m) → ∀ n, M.Safe S Q n m t) :
    M.Triple S P [c] Q := fun _ hs n =>
  Safe.cons hP hinv hpre (fun s t m hs hp n => by
    rw [List.append_nil]; exact hdo s t m hs hp n) hs n

/-- One call that is done in a single step. -/
theorem Triple.atom {c : κ} (hP : M.Stable P) (hinv : ∀ s, P s → S.inv s)
    (hpre : ∀ s, P s → S.pre c s) (hQ : M.Stable Q) (hinv' : ∀ s, Q s → S.inv s)
    (hdo : ∀ s t m, P s → M.perform s c = some (t, m) → m = [] ∧ Q t) : M.Triple S P [c] Q :=
  Triple.call hP hinv hpre fun s t m hs hp n => by
    obtain ⟨rfl, ht⟩ := hdo s t m hs hp
    exact Safe.nil hQ hinv' ht n

/-- A call that only expands into its body. -/
theorem Triple.expand {c : κ} {body : σ → List κ} (hP : M.Stable P) (hinv : ∀ s, P s → S.inv s)
    (hpre : ∀ s, P s → S.pre c s) (hc : ∀ s, M.perform s c = some (s, body s))
    (hbody : ∀ s, P s → ∀ n, M.Safe S Q n (body s) s) : M.Triple S P [c] Q :=
  Triple.call hP hinv hpre fun s t m hs hp => by
    obtain ⟨rfl, rfl⟩ : s = t ∧ body s = m := by simpa using (hc s).symm.trans hp
    exact hbody s hs

/-- A call that is made again and again until it is done. -/
theorem Triple.loop {c : κ} (hP : M.Stable P) (hinv : ∀ s, P s → S.inv s)
    (hpre : ∀ s, P s → S.pre c s) (hQ : M.Stable Q) (hinv' : ∀ s, Q s → S.inv s)
    (hdo : ∀ s t m, P s → M.perform s c = some (t, m) → m = [] ∧ Q t ∨ m = [c] ∧ P t) :
    M.Triple S P [c] Q := by
  intro s hs n
  induction n generalizing s with
  | zero => trivial
  | succ n ih =>
    refine ⟨hinv s hs, nofun, fun c' rest hc => ?_, fun e t he => ih t (hP s e t hs he)⟩
    cases hc
    refine ⟨hpre s hs, fun t m hp => ?_⟩
    rcases hdo s t m hs hp with ⟨rfl, ht⟩ | ⟨rfl, ht⟩
    · exact Safe.nil hQ hinv' ht n
    · exact ih t ht

/-- The same call for each element of a list, each preserving `P`. -/
theorem Triple.map {α : Type*} {f : α → κ} {l : List α} (hP : M.Stable P)
    (hinv : ∀ s, P s → S.inv s) (h : ∀ a ∈ l, M.Triple S P [f a] P) :
    M.Triple S P (l.map f) P := by
  induction l with
  | nil => exact Triple.nil hP hinv
  | cons a l ih =>
    exact (h a (List.mem_cons_self ..)).append (ih fun b hb => h b (List.mem_cons_of_mem _ hb))

/-- The same calls for each element of a list, where `P k` holds once `k` of
them have been made. -/
theorem Triple.flatMap {α : Type*} {f : α → List κ} {l : List α} {P : Nat → σ → Prop}
    (hP : M.Stable (P l.length)) (hinv : ∀ s, P l.length s → S.inv s)
    (h : ∀ k a, l[k]? = some a → M.Triple S (P k) (f a) (P (k + 1))) :
    M.Triple S (P 0) (l.flatMap f) (P l.length) := by
  induction l generalizing P with
  | nil => exact Triple.nil hP hinv
  | cons a l ih =>
    exact (h 0 a rfl).append (ih (P := fun k => P (k + 1)) hP hinv fun k b hb => h (k + 1) b hb)

/-- Calls that each preserve `P`. -/
theorem Triple.all {l : List κ} (hP : M.Stable P) (hinv : ∀ s, P s → S.inv s)
    (h : ∀ c ∈ l, M.Triple S P [c] P) : M.Triple S P l P := by
  have := Triple.map (f := id) (l := l) hP hinv h
  rwa [List.map_id] at this

/-- **The frame rule.**  A class of calls each of which either preserves the
stable assertion `P` as a whole, or does so in its first step and expands into
calls of the class. -/
theorem Triple.closed {K : κ → Prop} (hP : M.Stable P) (hinv : ∀ s, P s → S.inv s)
    (hdo : ∀ c, K c → M.Triple S P [c] P ∨ ∀ s, P s → S.pre c s ∧
      ∀ t m, M.perform s c = some (t, m) → P t ∧ ∀ c' ∈ m, K c')
    {l : List κ} (hl : ∀ c ∈ l, K c) : M.Triple S P l P := by
  intro s hs n
  -- by the number of steps; a call that preserves `P` as a whole takes none of them
  induction n using Nat.strongRecOn generalizing l s with
  | _ n ih =>
    induction l generalizing s with
    | nil => exact Safe.nil hP hinv hs n
    | cons c rest ihl =>
      have hrest : ∀ c' ∈ rest, K c' := fun c' hc' => hl c' (List.mem_cons_of_mem _ hc')
      rcases hdo c (hl c (List.mem_cons_self ..)) with htriple | hstep
      · refine (htriple s hs n).append fun t ht m hm => ?_
        exact (ihl hrest t ht).mono hm
      · cases n with
        | zero => trivial
        | succ n =>
          have hlt : n < n + 1 := Nat.lt_succ_self n
          obtain ⟨hpre, hout⟩ := hstep s hs
          refine ⟨hinv s hs, nofun, fun c' rest' hc => ?_,
            fun e t he => ih n hlt hl t (hP s e t hs he)⟩
          cases hc
          refine ⟨hpre, fun t m hp => ?_⟩
          obtain ⟨ht, hm⟩ := hout t m hp
          refine ih n hlt (fun c' hc' => ?_) t ht
          exact (List.mem_append.mp hc').elim (hm c') (hrest c')

/-! ## From triples to runs -/

/-- Safe at every depth. -/
def Outlined (M : Machine σ κ ε) (S : Spec σ κ) (Q : σ → Prop) (s : State σ κ) : Prop :=
  ∀ n, M.Safe S Q n s.todo s.data

theorem Triple.outlined {l : List κ} (h : M.Triple S P l Q) {s : σ} (hs : P s) :
    Outlined M S Q ⟨s, l⟩ := h s hs

theorem Outlined.inv {s : State σ κ} (h : Outlined M S Q s) : S.inv s.data := (h 1).inv

theorem Outlined.post {s : State σ κ} (h : Outlined M S Q s) (hs : s.todo = []) : Q s.data :=
  (h 1).2.1 hs

theorem Outlined.pre {s : State σ κ} {c : κ} {rest : List κ} (h : Outlined M S Q s)
    (hs : s.todo = c :: rest) : S.pre c s.data := ((h 1).2.2.1 c rest hs).1

/-- A step of the thread or of the environment leaves the rest safe. -/
theorem Outlined.step {s t : State σ κ} {a : Act ε} (h : Outlined M S Q s)
    (hs : M.step s a = some t) : Outlined M S Q t := by
  intro n
  cases a with
  | perform =>
    simp only [Machine.step] at hs
    cases htodo : s.todo with
    | nil => rw [htodo] at hs; cases hs
    | cons c rest =>
      rw [htodo] at hs
      obtain ⟨⟨u, m⟩, hp, rfl⟩ := Option.map_eq_some_iff.mp hs
      have := h (n + 1)
      rw [htodo] at this
      exact this.perform hp
  | env e =>
    obtain ⟨u, hu, rfl⟩ := Option.map_eq_some_iff.mp hs
    exact (h (n + 1)).env hu

/-- A thread that makes calls chosen from outside, each once the one before has
returned. -/
def drive (M : Machine σ κ ε) (s : State σ κ) : κ ⊕ Act ε → Option (State σ κ)
  | .inl c => if s.todo.isEmpty then some { s with todo := [c] } else none
  | .inr a => M.step s a

/-- **Sequences of calls.**  If every allowed call leads from the stable
assertion `R` back to it, every state of every run is safe. -/
theorem outlined_of_drive {C : State σ κ → κ ⊕ Act ε → Prop} {init : State σ κ → Prop}
    (h0 : ∀ s, init s → s.todo = [] ∧ R s.data) (hR : M.Stable R) (hinv : ∀ s, R s → S.inv s)
    (hcall : ∀ s c, C s (.inl c) → R s.data → s.todo = [] → Outlined M S R ⟨s.data, [c]⟩)
    {s : State σ κ} (h : Transition.Reachable M.drive C init s) : Outlined M S R s := by
  refine h.invariant (fun s hs => ?_) fun s a t hs hc hst => ?_
  · obtain ⟨htodo, hr⟩ := h0 s hs
    intro n
    rw [htodo]
    exact Safe.nil hR hinv hr n
  · cases a with
    | inl c =>
      simp only [drive] at hst
      split at hst
      · rename_i hnil
        have hnil : s.todo = [] := List.isEmpty_iff.mp hnil
        cases hst
        exact hcall s c hc (hs.post hnil) hnil
      · cases hst
    | inr a => exact hs.step hst

/-! ## Calls made only under a condition -/

/-- The machine whose thread makes a call only where `A` allows it. -/
def only (M : Machine σ κ ε) (A : κ → σ → Prop) [∀ c s, Decidable (A c s)] : Machine σ κ ε where
  perform s c := if A c s then M.perform s c else none
  env := M.env

section Only
variable {A : κ → σ → Prop} [∀ c s, Decidable (A c s)]

theorem perform_only {s t : σ} {c : κ} {m : List κ} (h : (M.only A).perform s c = some (t, m)) :
    A c s ∧ M.perform s c = some (t, m) := by
  simp only [only] at h
  split at h
  · exact ⟨‹_›, h⟩
  · cases h

theorem perform_only_of {s : σ} {c : κ} (h : A c s) : (M.only A).perform s c = M.perform s c :=
  if_pos h

/-- A thread that makes fewer calls is as safe. -/
theorem Safe.only {n : Nat} {l : List κ} {s : σ} (h : M.Safe S Q n l s) :
    (M.only A).Safe S Q n l s := by
  induction n generalizing l s with
  | zero => trivial
  | succ n ih =>
    exact ⟨h.inv, h.2.1, fun c rest hc => ⟨(h.2.2.1 c rest hc).1, fun t m hp =>
      ih ((h.2.2.1 c rest hc).2 t m (perform_only hp).2)⟩, fun e t he => ih (h.env he)⟩

theorem Triple.only {l : List κ} (h : M.Triple S P l Q) : (M.only A).Triple S P l Q :=
  fun s hs n => (h s hs n).only

/-- A step whose call is allowed. -/
theorem step_only {s t : State σ κ} {a : Act ε} (h : M.step s a = some t)
    (ha : a = .perform → ∀ c rest, s.todo = c :: rest → A c s.data) :
    (M.only A).step s a = some t := by
  cases a with
  | env e => exact h
  | perform =>
    simp only [step] at h ⊢
    cases htodo : s.todo with
    | nil => rw [htodo] at h; cases h
    | cons c rest =>
      rw [htodo] at h
      simp only [perform_only_of (ha rfl c rest htodo)]
      exact h

end Only

end Machine
end Script
