import GfdProof.BatchPlan

/-! # The groups of a batch

`groupBatch` counts the descriptors of each id, opening a bucket for an id it
sees for the first time, and then scatters them.  From an empty bucket map it
gives each id below the bound that occurs, in order of first appearance, with
its descriptors as they stand in the batch, and leaves the map empty again
(`groupBatch_spec`).
-/
namespace Gfd

namespace Buckets

variable {t : Buckets} {ids : List Nat} {id b : Nat}

def empty : Buckets := ⟨fun _ => none, [], fun _ => 0⟩

/-- The tables after the descriptors with `ids` have been counted. -/
structure Valid (t : Buckets) (ids : List Nat) : Prop where
  nodup : t.active.Nodup
  map : ∀ id b, t.map id = some b ↔ t.active[b]? = some id
  active : ∀ id, id ∈ t.active ↔ id ∈ ids
  counts : ∀ b id, t.active[b]? = some id → t.counts b = ids.count id
  rest : ∀ b, t.active.length ≤ b → t.counts b = 0

theorem valid_empty : empty.Valid [] where
  nodup := List.nodup_nil
  map _ _ := by simp [empty]
  active _ := Iff.rfl
  counts _ _ h := by simp [empty] at h
  rest _ _ := rfl

/-- An id with a bucket is counted in it. -/
theorem valid_count_some (hv : t.Valid ids) (h : t.map id = some b) :
    Valid { t with counts := Function.update t.counts b (t.counts b + 1) } (ids ++ [id]) where
  nodup := hv.nodup
  map := hv.map
  active x := by
    have hid : id ∈ ids := (hv.active id).mp (List.mem_of_getElem? ((hv.map id b).mp h))
    rw [hv.active, List.mem_append, List.mem_singleton]
    exact ⟨.inl, fun hx => hx.elim (fun h => h) fun h => h ▸ hid⟩
  counts c x hx := by
    have hb := (hv.map id b).mp h
    have hc := hv.counts c x hx
    dsimp only at hx ⊢
    rw [List.count_append, List.count_singleton]
    by_cases hcb : c = b
    · subst hcb
      obtain rfl : x = id := Option.some.inj (hx.symm.trans hb)
      rw [Function.update_self, hc]
      simp
    · have hne : id ≠ x := fun he => hcb (Option.some.inj
        (((hv.map x c).mpr hx).symm.trans (he ▸ h)))
      rw [Function.update_of_ne hcb, hc]
      simp [hne]
  rest c hc := by
    have hlt := (List.getElem?_eq_some_iff.mp ((hv.map id b).mp h)).1
    dsimp only at hc ⊢
    rw [Function.update_of_ne (by omega), hv.rest c hc]

/-- A new id gets the next bucket. -/
theorem valid_count_none (hv : t.Valid ids) (h : t.map id = none) :
    Valid
      { map := Function.update t.map id (some t.active.length)
        active := t.active ++ [id]
        counts := Function.update t.counts t.active.length (t.counts t.active.length + 1) }
      (ids ++ [id]) := by
  have hnew : id ∉ t.active := fun hm => by
    obtain ⟨b, hb⟩ := List.mem_iff_getElem?.mp hm
    rw [(hv.map id b).mpr hb] at h
    cases h
  have hget : ∀ b x, (t.active ++ [id])[b]? = some x ↔
      t.active[b]? = some x ∨ b = t.active.length ∧ x = id := by
    intro b x
    rcases Nat.lt_trichotomy b t.active.length with hb | hb | hb
    · rw [List.getElem?_append_left hb]
      exact ⟨.inl, fun h => h.resolve_right fun ⟨he, _⟩ => by omega⟩
    · subst hb
      simp [eq_comm]
    · rw [List.getElem?_eq_none (by simp; omega), List.getElem?_eq_none (Nat.le_of_lt hb)]
      simp
      omega
  refine ⟨?_, fun x b => ?_, fun x => ?_, fun b x hx => ?_, fun b hb => ?_⟩
  · exact List.nodup_append.mpr ⟨hv.nodup, List.nodup_singleton _, fun x hx y hy hxy =>
      hnew (List.mem_singleton.mp hy ▸ hxy ▸ hx)⟩
  · dsimp only
    rw [hget]
    by_cases hx : x = id
    · subst hx
      rw [Function.update_self, Option.some.injEq, eq_comm]
      refine ⟨fun h => .inr ⟨h, rfl⟩, fun h => h.elim (fun h => ?_) And.left⟩
      exact absurd (List.mem_of_getElem? h) hnew
    · rw [Function.update_of_ne hx, hv.map]
      exact ⟨.inl, fun h => h.resolve_right fun ⟨_, he⟩ => hx he⟩
  · dsimp only
    rw [List.mem_append, List.mem_append, hv.active]
  · dsimp only at hx ⊢
    rw [List.count_append, List.count_singleton]
    rcases (hget b x).mp hx with hx | ⟨rfl, rfl⟩
    · have hlt := (List.getElem?_eq_some_iff.mp hx).1
      have hne : id ≠ x := fun he => hnew (he ▸ List.mem_of_getElem? hx)
      rw [Function.update_of_ne (by omega), hv.counts b x hx]
      simp [hne]
    · have hzero : ids.count x = 0 := List.count_eq_zero.mpr fun hm => hnew ((hv.active x).mpr hm)
      rw [Function.update_self, hv.rest _ (Nat.le_refl _), hzero]
      simp
  · dsimp only at hb ⊢
    rw [List.length_append, List.length_singleton] at hb
    rw [Function.update_of_ne (by omega), hv.rest b (by omega)]

theorem valid_count (hv : t.Valid ids) (id : Nat) : (t.count id).Valid (ids ++ [id]) := by
  unfold Buckets.count
  split
  · exact valid_count_some hv ‹_›
  · exact valid_count_none hv ‹_›

theorem valid_foldl (hv : t.Valid ids) (ds : List Descriptor) :
    (ds.foldl (fun t d => t.count d.group) t).Valid (ids ++ ds.map Descriptor.group) := by
  induction ds generalizing t ids with
  | nil => simpa using hv
  | cons d ds ih => simpa using ih (valid_count hv d.group)

/-- Clearing the active ids leaves the map empty. -/
theorem Valid.cleared (hv : t.Valid ids) :
    (t.active.foldl (fun m id => Function.update m id none) t.map) = fun _ => none := by
  have hclear : ∀ (l : List Nat) (m : Nat → Option Nat) (x : Nat),
      l.foldl (fun m id => Function.update m id none) m x = if x ∈ l then none else m x := by
    intro l
    induction l with
    | nil => intro m x; rfl
    | cons y l ih =>
      intro m x
      rw [List.foldl_cons, ih]
      by_cases hx : x ∈ l
      · simp [hx]
      · by_cases hy : x = y
        · simp [hy]
        · simp [hx, hy]
  funext x
  rw [hclear]
  split
  · rfl
  · rename_i hx
    cases hm : t.map x with
    | none => rfl
    | some b => exact absurd (List.mem_of_getElem? ((hv.map x b).mp hm)) hx

end Buckets

/-- What grouping a batch gives. -/
structure Grouped (bound : Nat) (batch : List Descriptor) (groups : List (Nat × List Descriptor)) :
    Prop where
  nodup : (groups.map Prod.fst).Nodup
  group : ∀ g ∈ groups, g.1 < bound ∧ g.2 = batch.filter fun d => d.group == g.1
  complete : ∀ d ∈ batch, d.group < bound → d.group ∈ groups.map Prod.fst

theorem groupBatch_spec (bound : Nat) (batch : List Descriptor) :
    Grouped bound batch (groupBatch bound (fun _ => none) batch).1 ∧
      (groupBatch bound (fun _ => none) batch).2 = fun _ => none := by
  unfold groupBatch
  dsimp only
  have hv := Buckets.valid_foldl Buckets.valid_empty (batch.filter fun d => d.group < bound)
  rw [List.nil_append] at hv
  change Buckets.Valid ((batch.filter fun d => d.group < bound).foldl (fun t d => t.count d.group)
    ⟨fun _ => none, [], fun _ => 0⟩) _ at hv
  generalize hkept : (batch.filter fun d => d.group < bound) = kept at hv ⊢
  generalize kept.foldl (fun t d => t.count d.group)
    (⟨fun _ => none, [], fun _ => 0⟩ : Buckets) = t at hv ⊢
  refine ⟨?_, hv.cleared⟩
  -- the bucket of a descriptor is the position of its id
  have hkey : ∀ d ∈ kept, ∀ b, (t.map d.group).getD 0 = b ↔ t.active[b]? = some d.group := by
    intro d hd b
    have hmem := (hv.active d.group).mpr (List.mem_map_of_mem hd)
    obtain ⟨c, hc⟩ := List.mem_iff_getElem?.mp hmem
    rw [← hv.map, (hv.map d.group c).mpr hc, Option.getD_some, Option.some.injEq]
  have hbucket : ∀ b id, t.active[b]? = some id →
      BucketScatter.bucket (fun d => (t.map d.group).getD 0) kept b =
        kept.filter fun d => d.group == id := by
    intro b id hb
    refine List.filter_congr fun d hd => ?_
    rw [Bool.eq_iff_iff, beq_iff_eq, beq_iff_eq, hkey d hd b, hb, Option.some.injEq, eq_comm]
  have hcounts : t.counts = BucketScatter.counts (fun d => (t.map d.group).getD 0) kept := by
    funext b
    rw [BucketScatter.counts_eq]
    cases hb : t.active[b]? with
    | some id =>
      rw [hv.counts b id hb, hbucket b id hb, List.count_eq_countP, List.countP_map,
        List.countP_eq_length_filter]
      rfl
    | none =>
      have hnil : BucketScatter.bucket (fun d => (t.map d.group).getD 0) kept b = [] := by
        refine List.filter_eq_nil_iff.mpr fun d hd => ?_
        rw [beq_iff_eq, hkey d hd b, hb]
        exact nofun
      rw [hv.rest b (List.getElem?_eq_none_iff.mp hb), hnil, List.length_nil]
  have hids : (t.active.zipIdx.map fun p => (p.1, (List.range (t.counts p.2)).map fun i =>
      BucketScatter.scatter (fun d => (t.map d.group).getD 0) kept (BucketScatter.offsets t.counts)
        (fun _ => default) (BucketScatter.offsets t.counts p.2 + i))).map Prod.fst = t.active := by
    rw [List.map_map]
    exact List.zipIdx_map_fst 0 t.active
  refine ⟨by rw [hids]; exact hv.nodup, fun g hg => ?_, fun d hd hlt => ?_⟩
  · obtain ⟨⟨id, b⟩, hp, rfl⟩ := List.mem_map.mp hg
    have hb : t.active[b]? = some id := List.mem_zipIdx_iff_getElem?.mp hp
    obtain ⟨d, hd, hdid⟩ := List.mem_map.mp ((hv.active id).mp (List.mem_of_getElem? hb))
    have hlt : id < bound := by
      rw [← hkept] at hd
      rw [← hdid]
      exact of_decide_eq_true (List.mem_filter.mp hd).2
    refine ⟨hlt, ?_⟩
    dsimp only
    rw [hcounts, BucketScatter.map_scatter_bucket, hbucket b id hb, ← hkept,
      List.filter_filter]
    refine List.filter_congr fun d _ => ?_
    by_cases hd : d.group = id
    · simp [hd, hlt]
    · simp [hd]
  · rw [hids]
    refine (hv.active _).mpr (List.mem_map_of_mem ?_)
    rw [← hkept]
    exact List.mem_filter.mpr ⟨hd, decide_eq_true hlt⟩

/-- There is no group without a descriptor. -/
theorem exists_of_mem_groupBatch {bound : Nat} {batch : List Descriptor} {id : Nat}
    (h : id ∈ (groupBatch bound (fun _ => none) batch).1.map Prod.fst) :
    ∃ d ∈ batch, d.group = id := by
  have hv := Buckets.valid_foldl Buckets.valid_empty (batch.filter fun d => d.group < bound)
  unfold groupBatch at h
  rw [List.map_map] at h
  obtain ⟨p, hp, rfl⟩ := List.mem_map.mp h
  obtain ⟨d, hd, hid⟩ := List.mem_map.mp ((hv.active _).mp
    (List.mem_of_getElem? (List.mem_zipIdx_iff_getElem?.mp hp)))
  exact ⟨d, List.mem_of_mem_filter hd, hid⟩

end Gfd
