import Mathlib

/-! # GPUs, NUMA nodes and exclusive cores

`discover_topology` reads the host's NUMA nodes and the node of each GPU, and falls back to a
heuristic for a GPU whose node it cannot read; `get_exclusive_cores` divides the cores of a node
among its GPUs.

The heuristic puts the second half of the GPUs on node 1, whether the host has one or not.  The
result is an exclusive partition of the cores exactly if that node exists or is not needed
(`partitioned_iff`), and the CPU numbers computed are values of `int`: for any number of GPUs,
however they are spread over the nodes, the GPUs of one node get consecutive blocks of it, numbered
by the GPUs before them.

The arithmetic is that of `int`: a result that is no `int` is undefined, and there is none here.
-/
namespace Gfd.Topology

/-! ## The topology -/

/-- The result of an operation on `int`. -/
def int (x : Int) : Option Int := if -2 ^ 31 ≤ x ∧ x < 2 ^ 31 then some x else none

theorem int_eq_some {x y : Int} : int x = some y ↔ (-2 ^ 31 ≤ x ∧ x < 2 ^ 31) ∧ x = y := by
  unfold int
  split_ifs with h
  · rw [Option.some.injEq, and_iff_right h]
  · exact iff_of_false (fun h' => by cases h') fun h' => h h'.1

theorem int_of_lt {x : Int} (h0 : -2 ^ 31 ≤ x) (h : x < 2 ^ 31) : int x = some x := if_pos ⟨h0, h⟩

/-- `GpuTopology` -/
structure GpuTopology where
  gpuId : Nat
  numaNode : Int
  pcieBus : Nat
  cpuStart : Int
  cpuEnd : Int
  htOffset : Int
  numPhysicalCores : Int
  deriving DecidableEq

/-- `TopologyConfig` -/
structure TopologyConfig where
  numGpus : Nat
  totalNumaNodes : Nat
  cpusPerNuma : Int
  physicalCoresPerNuma : Int
  gpus : List GpuTopology
  gpusPerNuma : List Nat
  deriving DecidableEq

/-- What `get_exclusive_cores` returns. -/
structure Cores where
  baseCpu : Int
  numCores : Int
  stride : Int
  deriving DecidableEq

/-- The cores of the range. -/
def Cores.Has (c : Cores) (cpu : Int) : Prop := c.baseCpu ≤ cpu ∧ cpu < c.baseCpu + c.numCores

/-- An element of a vector; there is none at a negative index or behind the end. -/
def vecGet {α : Type} (l : List α) (i : Int) : Option α := if 0 ≤ i then l[i.toNat]? else none

/-- `get_exclusive_cores`; undefined if an index is out of range, a node has no GPU or a number is no
`int`. -/
def TopologyConfig.getExclusiveCores (t : TopologyConfig) (gpuId : Nat) : Option Cores := do
  let g ← t.gpus[gpuId]?
  let numa := g.numaNode
  let ngpusOnNuma ← vecGet t.gpusPerNuma numa
  if ngpusOnNuma = 0 then none
  else
    let coresPerGpu := t.physicalCoresPerNuma.tdiv ngpusOnNuma
    let intraNumaIdx := (t.gpus.take gpuId).countP fun g' => g'.numaNode = numa
    let before ← int (intraNumaIdx * coresPerGpu)
    let outBaseCpu ← int (g.cpuStart + before)
    let behind ← int (outBaseCpu + coresPerGpu)
    let last ← int (behind - 1)
    if g.cpuEnd < last then do
      let most ← int (g.cpuEnd - outBaseCpu)
      let outNumCores ← int (most + 1)
      some ⟨outBaseCpu, outNumCores, 1⟩
    else some ⟨outBaseCpu, coresPerGpu, 1⟩

/-! ## Discovery -/

/-- What a Linux host tells: the number behind the dash in `node/online`, the numbers read from
`node0/cpulist`, and the node of each GPU; nothing where a file cannot be read. -/
structure Sysfs where
  online : Option Nat
  cpulist : List Int
  numaNode : Nat → Option Int
  cpulist_int : ∀ x ∈ cpulist, int x = some x

namespace Sysfs

def totalNumaNodes (host : Sysfs) : Nat := host.online.getD 0 + 1

def node0Start (host : Sysfs) : Int := host.cpulist.getD 0 0

def node0End (host : Sysfs) : Int := host.cpulist.getD 1 63

def htStart (host : Sysfs) : Int := host.cpulist.getD 2 128

/-- The node of a GPU: the one read, if it is one of the host's, and else a guess. -/
def gpuNuma (host : Sysfs) (numGpus g : Nat) : Int :=
  let gpuNuma := (host.numaNode g).getD (-1)
  if gpuNuma < 0 ∨ host.totalNumaNodes ≤ gpuNuma then
    if 1 < numGpus ∧ numGpus / 2 ≤ g then 1 else 0
  else gpuNuma

/-- One iteration of the loop over the GPUs. -/
def gpu (host : Sysfs) (numGpus : Nat) (cpusPerRange : Int) (g : Nat) : Option GpuTopology := do
  let numa := host.gpuNuma numGpus g
  let cpuStart ← int (numa * cpusPerRange)
  let next ← int (numa + 1)
  let behind ← int (next * cpusPerRange)
  let cpuEnd ← int (behind - 1)
  let htOffset ← int (host.htStart - host.node0Start)
  some ⟨g, numa, g, cpuStart, cpuEnd, htOffset, cpusPerRange⟩

/-- The loop over the GPUs. -/
def gpus (host : Sysfs) (numGpus : Nat) (cpusPerRange : Int) : List Nat → Option (List GpuTopology)
  | [] => some []
  | g :: gs => do
    let topo ← host.gpu numGpus cpusPerRange g
    let topos ← host.gpus numGpus cpusPerRange gs
    some (topo :: topos)

/-- Up to the counting of the GPUs. -/
def topo (host : Sysfs) (numGpus : Nat) : Option TopologyConfig := do
  let _ ← int host.totalNumaNodes
  let span ← int (host.node0End - host.node0Start)
  let cpusPerRange ← int (span + 1)
  let cpusPerNuma ← int (cpusPerRange * 2)
  let gpus ← host.gpus numGpus cpusPerRange (List.range numGpus)
  some
    { numGpus := numGpus
      totalNumaNodes := host.totalNumaNodes
      cpusPerNuma := cpusPerNuma
      physicalCoresPerNuma := cpusPerRange
      gpus := gpus
      gpusPerNuma := [] }

end Sysfs

/-- The two ways to compile `discover_topology`. -/
inductive Platform
  | linux (host : Sysfs)
  | other

/-- The loop that counts the GPUs of each node; undefined for a node that is out of range. -/
def countGpus : List GpuTopology → List Nat → Option (List Nat)
  | [], gpusPerNuma => some gpusPerNuma
  | g :: gs, gpusPerNuma =>
    if 0 ≤ g.numaNode ∧ g.numaNode < gpusPerNuma.length then
      countGpus gs (gpusPerNuma.modify g.numaNode.toNat (· + 1))
    else none

/-- `discover_topology` up to the counting of the GPUs. -/
def Platform.topo (p : Platform) (numGpus : Nat) : Option TopologyConfig :=
  match p with
  | .linux host => host.topo numGpus
  | .other =>
    some
      { numGpus := numGpus
        totalNumaNodes := 1
        cpusPerNuma := 16
        physicalCoresPerNuma := 8
        gpus := (List.range numGpus).map fun g => ⟨g, 0, g, 0, 15, 0, 8⟩
        gpusPerNuma := [] }

/-- `discover_topology` -/
def discoverTopology (p : Platform) (numGpus : Nat) : Option TopologyConfig := do
  let topo ← p.topo numGpus
  let gpusPerNuma ← countGpus topo.gpus (List.replicate topo.totalNumaNodes 0)
  some { topo with gpusPerNuma := gpusPerNuma }

/-- An exclusive partition of the cores. -/
structure Partitioned (t : TopologyConfig) : Prop where
  /-- Every GPU is on a node of the host. -/
  node : ∀ g ∈ t.gpus, 0 ≤ g.numaNode ∧ g.numaNode < t.totalNumaNodes
  /-- There is a count for each node, and they add up to the number of GPUs. -/
  length : t.gpusPerNuma.length = t.totalNumaNodes
  sum : t.gpusPerNuma.sum = t.numGpus
  /-- Every GPU gets its cores. -/
  cores : ∀ i < t.numGpus, ∃ g c, t.gpus[i]? = some g ∧ t.getExclusiveCores i = some c
  /-- They are cores of its node. -/
  own : ∀ i g c, t.gpus[i]? = some g → t.getExclusiveCores i = some c →
    ∀ cpu, c.Has cpu → g.cpuStart ≤ cpu ∧ cpu ≤ g.cpuEnd
  /-- No other GPU gets one of them. -/
  exclusive : ∀ i j c c', i ≠ j → t.getExclusiveCores i = some c →
    t.getExclusiveCores j = some c' → ∀ cpu, c.Has cpu → ¬ c'.Has cpu

/-- The node-0 CPUs are a range from zero. -/
def Platform.FromZero : Platform → Prop
  | .linux host => host.node0Start = 0 ∧ 0 ≤ host.node0End
  | .other => True

/-- Node 1 exists, or nothing is put there for want of a better node. -/
def Platform.Placeable (numGpus : Nat) : Platform → Prop
  | .linux host => 2 ≤ host.totalNumaNodes ∨ numGpus ≤ 1 ∨
    ∀ g < numGpus, numGpus / 2 ≤ g →
      ∃ n, host.numaNode g = some n ∧ 0 ≤ n ∧ n < host.totalNumaNodes
  | .other => True

/-- The CPUs of node 0. -/
def Sysfs.nodeCpus (host : Sysfs) : Int := host.node0End - host.node0Start + 1

/-- The nodes, the CPUs of two nodes, and those up to every node that has been read are counted by
an `int`. -/
def Platform.Countable (numGpus : Nat) : Platform → Prop
  | .linux host => (host.totalNumaNodes : Int) < 2 ^ 31 ∧ host.nodeCpus * 2 < 2 ^ 31 ∧
    ∀ g < numGpus, ∀ n, host.numaNode g = some n → 0 ≤ n → n < host.totalNumaNodes →
      (n + 1) * host.nodeCpus < 2 ^ 31
  | .other => True

/-! ## Counting the GPUs of a node -/

theorem sum_modify {l : List Nat} {i : Nat} (hi : i < l.length) :
    (l.modify i (· + 1)).sum = l.sum + 1 := by
  induction l generalizing i with
  | nil => cases hi
  | cons a l ih =>
    cases i with
    | zero => simp only [List.modify_zero_cons, List.sum_cons]; omega
    | succ i =>
      have hi : i < l.length := Nat.lt_of_succ_lt_succ hi
      rw [List.modify_succ_cons, List.sum_cons, List.sum_cons, ih hi, Nat.add_assoc]

/-- The counts exist if every GPU is on one of the nodes. -/
theorem exists_countGpus {gs : List GpuTopology} {per : List Nat}
    (h : ∀ g ∈ gs, 0 ≤ g.numaNode ∧ g.numaNode < per.length) :
    ∃ per', countGpus gs per = some per' := by
  induction gs generalizing per with
  | nil => exact ⟨per, rfl⟩
  | cons g gs ih =>
    obtain ⟨hg, hgs⟩ := List.forall_mem_cons.mp h
    rw [countGpus, if_pos hg]
    exact ih (by simpa using hgs)

/-- What the counting does: the GPUs are on the nodes counted, each of which has as many more. -/
theorem countGpus_spec {gs : List GpuTopology} {per per' : List Nat}
    (h : countGpus gs per = some per') :
    (∀ g ∈ gs, 0 ≤ g.numaNode ∧ g.numaNode < per.length) ∧ per'.length = per.length ∧
      per'.sum = per.sum + gs.length ∧
      ∀ n < per.length, per'[n]? = per[n]?.map (· + gs.countP fun g => g.numaNode = (n : Int)) := by
  induction gs generalizing per with
  | nil =>
    cases h
    simp
  | cons g gs ih =>
    rw [countGpus] at h
    split_ifs at h with hg
    obtain ⟨hgs, hlen, hsum, hget⟩ := ih h
    rw [List.length_modify] at hgs hlen hget
    have hlt : g.numaNode.toNat < per.length := by omega
    refine ⟨List.forall_mem_cons.mpr ⟨hg, hgs⟩, hlen, ?_, fun n hn => ?_⟩
    · rw [hsum, sum_modify hlt, List.length_cons]
      omega
    · rw [hget n hn, List.getElem?_modify, List.countP_cons]
      by_cases he : g.numaNode = n
      · cases per[n]? with
        | none => rfl
        | some k =>
          simp only [he, decide_true, if_true, Option.map_some, Option.map_eq_map,
            Int.toNat_natCast]
          congr 1
          omega
      · have hn' : ¬ g.numaNode.toNat = n := by omega
        simp [hn', he]

/-! ## Ranks

The GPUs of a node are numbered by how many GPUs of the node come before them. -/

section
variable {α : Type} {p : α → Bool} {l : List α}

/-- Of two elements that count, the later has the greater rank. -/
theorem rank_lt_rank {i j : Nat} {a : α} (hij : i < j) (hi : l[i]? = some a) (ha : p a = true) :
    (l.take i).countP p < (l.take j).countP p := by
  have hsucc : (l.take (i + 1)).countP p = (l.take i).countP p + 1 := by
    rw [List.take_add_one, hi, List.countP_append]
    simp [ha]
  have hle : (l.take (i + 1)).countP p ≤ (l.take j).countP p :=
    (List.take_sublist_take_left hij).countP_le
  omega

/-- The rank is less than the count. -/
theorem rank_lt_count {i : Nat} {a : α} (hi : l[i]? = some a) (ha : p a = true) :
    (l.take i).countP p < l.countP p := by
  have hlt : i < l.length := (List.getElem?_eq_some_iff.mp hi).1
  have hrank := rank_lt_rank hlt hi ha
  rwa [List.take_length] at hrank

end

/-! ## Blocks of cores -/

/-- What the division of the cores needs: the GPUs of a node have the same cores, as many as there
are to divide at least, those of different nodes have different ones, and the GPUs are counted. -/
structure Placed (t : TopologyConfig) : Prop where
  physical : 0 ≤ t.physicalCoresPerNuma
  same : ∀ g ∈ t.gpus, ∀ g' ∈ t.gpus, g.numaNode = g'.numaNode → g.cpuStart = g'.cpuStart
  apart : ∀ g ∈ t.gpus, ∀ g' ∈ t.gpus, g.numaNode ≠ g'.numaNode →
    g.cpuEnd < g'.cpuStart ∨ g'.cpuEnd < g.cpuStart
  room : ∀ g ∈ t.gpus, g.cpuStart + t.physicalCoresPerNuma ≤ g.cpuEnd + 1
  bound : ∀ g ∈ t.gpus, 0 ≤ g.cpuStart ∧ g.cpuEnd + 1 < 2 ^ 31
  counted : ∀ g ∈ t.gpus, vecGet t.gpusPerNuma g.numaNode =
    some (t.gpus.countP fun g' => g'.numaNode = g.numaNode)

namespace TopologyConfig
variable (t : TopologyConfig)

/-- The number of the GPU on its node. -/
def rank (g : GpuTopology) (i : Nat) : Nat :=
  (t.gpus.take i).countP fun g' => g'.numaNode = g.numaNode

/-- The cores for each GPU of the node. -/
def share (g : GpuTopology) : Int :=
  t.physicalCoresPerNuma / (t.gpus.countP fun g' => g'.numaNode = g.numaNode : Nat)

variable {t}

theorem rank_lt {g g' : GpuTopology} {i j : Nat} (hij : i < j) (hi : t.gpus[i]? = some g)
    (he : g.numaNode = g'.numaNode) : t.rank g i < t.rank g' j := by
  unfold rank
  rw [he]
  exact rank_lt_rank hij hi (decide_eq_true he)

end TopologyConfig

namespace Placed
variable {t : TopologyConfig}

theorem share_nonneg (ht : Placed t) (g : GpuTopology) : 0 ≤ t.share g :=
  Int.ediv_nonneg ht.physical (Int.natCast_nonneg _)

/-- The block of a GPU ends where the node's cores end at the latest. -/
theorem block_le (ht : Placed t) {g : GpuTopology} {i : Nat} (hi : t.gpus[i]? = some g) :
    (t.rank g i + 1) * t.share g ≤ t.physicalCoresPerNuma := by
  have hrank := rank_lt_count (p := fun g' => g'.numaNode = g.numaNode) hi (decide_eq_true rfl)
  set n := t.gpus.countP fun g' => g'.numaNode = g.numaNode with hn
  have hshare := ht.share_nonneg g
  calc (t.rank g i + 1) * t.share g ≤ (n : Int) * t.share g :=
        Int.mul_le_mul_of_nonneg_right (by unfold TopologyConfig.rank; omega) hshare
    _ ≤ t.physicalCoresPerNuma := Int.mul_ediv_self_le (by omega)

/-- Every GPU gets the block of its rank, unclamped. -/
theorem cores_eq (ht : Placed t) {g : GpuTopology} {i : Nat} (hi : t.gpus[i]? = some g) :
    t.getExclusiveCores i = some ⟨g.cpuStart + t.rank g i * t.share g, t.share g, 1⟩ := by
  have hmem : g ∈ t.gpus := List.mem_of_getElem? hi
  have hpos : (t.gpus.countP fun g' => g'.numaNode = g.numaNode) ≠ 0 := by
    rw [ne_eq, List.countP_eq_zero]
    exact fun h => h g hmem (decide_eq_true rfl)
  have hdiv : t.physicalCoresPerNuma.tdiv
      (t.gpus.countP fun g' => g'.numaNode = g.numaNode : Nat) = t.share g :=
    Int.tdiv_eq_ediv_of_nonneg ht.physical
  have hblock := ht.block_le hi
  have hroom := ht.room g hmem
  obtain ⟨hstart, hend⟩ := ht.bound g hmem
  have hshare := ht.share_nonneg g
  have hbefore : 0 ≤ (t.rank g i : Int) * t.share g := Int.mul_nonneg (Int.natCast_nonneg _) hshare
  rw [Int.add_mul, Int.one_mul] at hblock
  have hfit : ¬ g.cpuEnd < g.cpuStart + t.rank g i * t.share g + t.share g - 1 := by omega
  simp only [TopologyConfig.getExclusiveCores, hi, ht.counted g hmem, Option.bind_eq_bind,
    Option.bind_some, if_neg hpos, hdiv]
  change ((int (t.rank g i * t.share g)).bind fun _ => _) = _
  rw [int_of_lt (x := (t.rank g i : Int) * t.share g) (by omega) (by omega)]
  simp only [Option.bind_some, int_of_lt (x := g.cpuStart + t.rank g i * t.share g) (by omega) (by omega),
    int_of_lt (x := g.cpuStart + t.rank g i * t.share g + t.share g) (by omega) (by omega),
    int_of_lt (x := g.cpuStart + t.rank g i * t.share g + t.share g - 1) (by omega) (by omega)]
  exact if_neg hfit

/-- Its cores are those of its node. -/
theorem own (ht : Placed t) {g : GpuTopology} {i : Nat} {c : Cores} (hi : t.gpus[i]? = some g)
    (hc : t.getExclusiveCores i = some c) {cpu : Int} (hcpu : c.Has cpu) :
    g.cpuStart ≤ cpu ∧ cpu ≤ g.cpuEnd := by
  cases (ht.cores_eq hi).symm.trans hc
  obtain ⟨hlo, hhi⟩ := hcpu
  dsimp only at hlo hhi
  have hblock := ht.block_le hi
  have hroom := ht.room g (List.mem_of_getElem? hi)
  have hbase : 0 ≤ (t.rank g i : Int) * t.share g :=
    Int.mul_nonneg (Int.natCast_nonneg _) (ht.share_nonneg g)
  rw [Int.add_mul, Int.one_mul] at hblock
  omega

/-- Of two GPUs of a node, the later has the later block. -/
theorem block_lt (ht : Placed t) {g g' : GpuTopology} {i j : Nat} (hij : i < j)
    (hi : t.gpus[i]? = some g) (hj : t.gpus[j]? = some g') (he : g.numaNode = g'.numaNode) :
    g.cpuStart + t.rank g i * t.share g + t.share g ≤
      g'.cpuStart + t.rank g' j * t.share g' := by
  have hshare : t.share g' = t.share g := by
    unfold TopologyConfig.share
    rw [he]
  have hrank : (t.rank g i : Int) + 1 ≤ t.rank g' j := by
    exact_mod_cast TopologyConfig.rank_lt hij hi he
  have hmul := Int.mul_le_mul_of_nonneg_right hrank (ht.share_nonneg g)
  rw [ht.same g (List.mem_of_getElem? hi) g' (List.mem_of_getElem? hj) he, hshare]
  rw [Int.add_mul, Int.one_mul] at hmul
  omega

/-- **The blocks are exclusive.** -/
theorem exclusive (ht : Placed t) {g g' : GpuTopology} {i j : Nat} {c c' : Cores} (hij : i < j)
    (hi : t.gpus[i]? = some g) (hj : t.gpus[j]? = some g')
    (hc : t.getExclusiveCores i = some c) (hc' : t.getExclusiveCores j = some c') (cpu : Int)
    (hcpu : c.Has cpu) : ¬ c'.Has cpu := by
  intro hcpu'
  by_cases he : g.numaNode = g'.numaNode
  · have hblock := ht.block_lt hij hi hj he
    cases (ht.cores_eq hi).symm.trans hc
    cases (ht.cores_eq hj).symm.trans hc'
    have hhi := hcpu.2
    have hlo := hcpu'.1
    dsimp only at hhi hlo
    omega
  · have hown := ht.own hi hc hcpu
    have hown' := ht.own hj hc' hcpu'
    have hapart := ht.apart g (List.mem_of_getElem? hi) g' (List.mem_of_getElem? hj) he
    omega

end Placed

/-! ## Discovery -/

namespace Sysfs
variable {host : Sysfs} {numGpus : Nat}

/-- The node of a GPU is none that there is not, if the guess is not. -/
theorem gpuNuma_nonneg (g : Nat) : 0 ≤ host.gpuNuma numGpus g := by
  unfold gpuNuma
  dsimp only
  split_ifs <;> omega

/-- Where a GPU is put on a node of the host: its node has been read, or the guess is right. -/
theorem gpuNuma_lt_iff (g : Nat) : host.gpuNuma numGpus g < host.totalNumaNodes ↔
    2 ≤ host.totalNumaNodes ∨ ¬ (1 < numGpus ∧ numGpus / 2 ≤ g) ∨
      ∃ n, host.numaNode g = some n ∧ 0 ≤ n ∧ n < host.totalNumaNodes := by
  have hpos : 0 < host.totalNumaNodes := Nat.succ_pos _
  unfold gpuNuma
  dsimp only
  cases hg : host.numaNode g with
  | none =>
    simp only [Option.getD_none, reduceCtorEq, false_and, exists_false, or_false]
    split_ifs <;> omega
  | some n =>
    simp only [Option.getD_some, Option.some.injEq, exists_eq_left']
    split_ifs <;> omega

end Sysfs

namespace Sysfs
variable {host : Sysfs} {numGpus : Nat}

/-- What an iteration of the loop leaves where no number is too large. -/
def placed (host : Sysfs) (numGpus g : Nat) : GpuTopology where
  gpuId := g
  numaNode := host.gpuNuma numGpus g
  pcieBus := g
  cpuStart := host.gpuNuma numGpus g * host.nodeCpus
  cpuEnd := (host.gpuNuma numGpus g + 1) * host.nodeCpus - 1
  htOffset := host.htStart - host.node0Start
  numPhysicalCores := host.nodeCpus

theorem htStart_int (host : Sysfs) : int host.htStart = some host.htStart := by
  unfold htStart
  rw [List.getD_eq_getElem?_getD]
  cases h : host.cpulist[2]? with
  | none => rfl
  | some x => exact host.cpulist_int x (List.mem_of_getElem? h)

/-- An iteration of the loop computes no number larger than the end of the node. -/
theorem gpu_eq_some (hstart : host.node0Start = 0) (hend : 0 ≤ host.node0End) {g : Nat} {x : GpuTopology} :
    host.gpu numGpus host.nodeCpus g = some x ↔
      (host.gpuNuma numGpus g + 1) * host.nodeCpus < 2 ^ 31 ∧ host.placed numGpus g = x := by
  have hnuma : 0 ≤ host.gpuNuma numGpus g := host.gpuNuma_nonneg g
  have hcpus : 1 ≤ host.nodeCpus := by unfold nodeCpus; omega
  have hmul : (host.gpuNuma numGpus g + 1) * host.nodeCpus =
      host.gpuNuma numGpus g * host.nodeCpus + host.nodeCpus := by rw [Int.add_mul, Int.one_mul]
  have hpos : 0 ≤ host.gpuNuma numGpus g * host.nodeCpus := Int.mul_nonneg hnuma (by omega)
  have hnext : host.gpuNuma numGpus g ≤ host.gpuNuma numGpus g * host.nodeCpus :=
    le_mul_of_one_le_right hnuma hcpus
  have hht := host.htStart_int
  constructor
  · intro h
    simp only [gpu, Option.bind_eq_bind, Option.bind_eq_some_iff, int_eq_some] at h
    obtain ⟨_, ⟨-, rfl⟩, _, ⟨-, rfl⟩, _, ⟨⟨-, hlt⟩, rfl⟩, _, ⟨-, rfl⟩, _, ⟨-, rfl⟩, hx⟩ := h
    exact ⟨hlt, Option.some.inj hx⟩
  · rintro ⟨hlt, rfl⟩
    simp only [gpu, Option.bind_eq_bind, hstart, Int.sub_zero, hht]
    rw [int_of_lt (x := host.gpuNuma numGpus g * host.nodeCpus) (by omega) (by omega)]
    simp only [Option.bind_some, int_of_lt (x := host.gpuNuma numGpus g + 1) (by omega) (by omega),
      int_of_lt (x := (host.gpuNuma numGpus g + 1) * host.nodeCpus) (by omega) hlt,
      int_of_lt (x := (host.gpuNuma numGpus g + 1) * host.nodeCpus - 1) (by omega) (by omega)]
    simp only [placed, hstart, Int.sub_zero]

theorem gpus_eq_some (hstart : host.node0Start = 0) (hend : 0 ≤ host.node0End) {gs : List Nat}
    {xs : List GpuTopology} : host.gpus numGpus host.nodeCpus gs = some xs ↔
      (∀ g ∈ gs, (host.gpuNuma numGpus g + 1) * host.nodeCpus < 2 ^ 31) ∧
        gs.map (host.placed numGpus) = xs := by
  induction gs generalizing xs with
  | nil => simp [gpus]
  | cons g gs ih =>
    simp only [gpus, Option.bind_eq_bind, Option.bind_eq_some_iff, gpu_eq_some hstart hend, ih,
      List.forall_mem_cons, List.map_cons, Option.some.injEq]
    constructor
    · rintro ⟨_, ⟨hg, rfl⟩, _, ⟨hgs, rfl⟩, rfl⟩
      exact ⟨⟨hg, hgs⟩, rfl⟩
    · rintro ⟨⟨hg, hgs⟩, rfl⟩
      exact ⟨_, ⟨hg, rfl⟩, _, ⟨hgs, rfl⟩, rfl⟩

/-- The GPUs are on nodes 0 and 1 or on nodes that have been read. -/
theorem countable_iff (htwo : host.nodeCpus * 2 < 2 ^ 31) (hcpus : 0 ≤ host.nodeCpus) :
    (∀ g ∈ List.range numGpus, (host.gpuNuma numGpus g + 1) * host.nodeCpus < 2 ^ 31) ↔
      ∀ g < numGpus, ∀ n, host.numaNode g = some n → 0 ≤ n → n < host.totalNumaNodes →
        (n + 1) * host.nodeCpus < 2 ^ 31 := by
  simp only [List.mem_range]
  refine forall₂_congr fun g _ => ?_
  have hguess : ∀ {n : Int}, n = 1 ∨ n = 0 → (n + 1) * host.nodeCpus < 2 ^ 31 := by
    rintro n (rfl | rfl) <;> omega
  unfold gpuNuma
  dsimp only
  cases host.numaNode g with
  | none =>
    simp only [Option.getD_none, reduceCtorEq, false_implies, implies_true, iff_true]
    rw [if_pos (.inl (by decide))]
    split_ifs
    · exact hguess (.inl rfl)
    · exact hguess (.inr rfl)
  | some n =>
    simp only [Option.getD_some, Option.some.injEq, forall_eq']
    by_cases hn : n < 0 ∨ host.totalNumaNodes ≤ n
    · rw [if_pos hn]
      refine iff_of_true ?_ fun h0 hlt => by omega
      split_ifs
      · exact hguess (.inl rfl)
      · exact hguess (.inr rfl)
    · rw [if_neg hn]
      push Not at hn
      exact ⟨fun h _ _ => h, fun h => h hn.1 hn.2⟩

/-- What the discovery knows before it counts the GPUs. -/
def ideal (host : Sysfs) (numGpus : Nat) : TopologyConfig where
  numGpus := numGpus
  totalNumaNodes := host.totalNumaNodes
  cpusPerNuma := host.nodeCpus * 2
  physicalCoresPerNuma := host.nodeCpus
  gpus := (List.range numGpus).map (host.placed numGpus)
  gpusPerNuma := []

theorem topo_eq_some (hstart : host.node0Start = 0) (hend : 0 ≤ host.node0End) {t : TopologyConfig} :
    host.topo numGpus = some t ↔ (Platform.linux host).Countable numGpus ∧ host.ideal numGpus = t := by
  have hcpus : 1 ≤ host.nodeCpus := by unfold nodeCpus; omega
  have hspan : host.node0End - host.node0Start + 1 = host.nodeCpus := rfl
  constructor
  · intro h
    simp only [topo, Option.bind_eq_bind, Option.bind_eq_some_iff, int_eq_some] at h
    obtain ⟨_, ⟨⟨-, htotal⟩, -⟩, _, ⟨-, rfl⟩, _, ⟨-, rfl⟩, _, ⟨⟨-, htwo⟩, rfl⟩, xs, hxs, hx⟩ := h
    obtain ⟨hfit, rfl⟩ := (gpus_eq_some hstart hend).mp hxs
    exact ⟨⟨htotal, htwo, (countable_iff htwo (by omega)).mp hfit⟩, Option.some.inj hx⟩
  · rintro ⟨⟨htotal, htwo, hread⟩, rfl⟩
    have hgpus : host.gpus numGpus host.nodeCpus (List.range numGpus) =
        some ((List.range numGpus).map (host.placed numGpus)) :=
      (gpus_eq_some hstart hend).mpr ⟨(countable_iff htwo (by omega)).mpr hread, rfl⟩
    have htotal0 : (0 : Int) ≤ host.totalNumaNodes := Int.natCast_nonneg _
    simp only [topo, Option.bind_eq_bind, int_of_lt (x := host.totalNumaNodes) (by omega) htotal,
      Option.bind_some, int_of_lt (x := host.node0End - host.node0Start) (by omega) (by omega),
      hspan, int_of_lt (x := host.nodeCpus) (by omega) (by omega),
      int_of_lt (x := host.nodeCpus * 2) (by omega) htwo, hgpus]
    rfl

end Sysfs

namespace Platform
variable {p : Platform} {numGpus : Nat}

/-- What the discovery knows before it counts the GPUs. -/
def ideal (p : Platform) (numGpus : Nat) : TopologyConfig :=
  match p with
  | .linux host => host.ideal numGpus
  | .other => ⟨numGpus, 1, 16, 8, (List.range numGpus).map fun g => ⟨g, 0, g, 0, 15, 0, 8⟩, []⟩

theorem topo_eq_some (hzero : p.FromZero) {t : TopologyConfig} :
    p.topo numGpus = some t ↔ p.Countable numGpus ∧ p.ideal numGpus = t := by
  cases p with
  | linux host => exact Sysfs.topo_eq_some hzero.1 hzero.2
  | other =>
    rw [topo, Option.some.injEq, Countable, true_and]
    rfl

theorem mem_gpus_linux {host : Sysfs} {g : GpuTopology} :
    g ∈ ((linux host).ideal numGpus).gpus ↔ ∃ i < numGpus, host.placed numGpus i = g := by
  simp [ideal, Sysfs.ideal]

theorem mem_gpus_other {g : GpuTopology} :
    g ∈ (other.ideal numGpus).gpus ↔ ∃ i < numGpus, (⟨i, 0, i, 0, 15, 0, 8⟩ : GpuTopology) = g := by
  simp [ideal]

/-- The GPUs are on nodes of the host exactly if the guesses are. -/
theorem node_iff : (∀ g ∈ (p.ideal numGpus).gpus,
    0 ≤ g.numaNode ∧ g.numaNode < (p.ideal numGpus).totalNumaNodes) ↔ p.Placeable numGpus := by
  cases p with
  | other =>
    simp only [mem_gpus_other, Placeable, iff_true]
    rintro _ ⟨i, -, rfl⟩
    exact ⟨Int.le_refl 0, Int.zero_lt_one⟩
  | linux host =>
    have hall : (∀ g ∈ ((linux host).ideal numGpus).gpus,
        0 ≤ g.numaNode ∧ g.numaNode < ((linux host).ideal numGpus).totalNumaNodes) ↔
        ∀ i < numGpus, host.gpuNuma numGpus i < host.totalNumaNodes := by
      simp only [mem_gpus_linux]
      constructor
      · intro h i hi
        exact (h _ ⟨i, hi, rfl⟩).2
      · rintro h _ ⟨i, hi, rfl⟩
        exact ⟨host.gpuNuma_nonneg i, h i hi⟩
    rw [hall, Placeable]
    simp only [Sysfs.gpuNuma_lt_iff]
    constructor
    · intro h
      by_cases htwo : 2 ≤ host.totalNumaNodes
      · exact .inl htwo
      · refine .inr ((Nat.lt_or_ge 1 numGpus).symm.imp_right fun hn g hg hhalf => ?_)
        rcases h g hg with h2 | hnot | hread
        · exact absurd h2 htwo
        · exact absurd ⟨hn, hhalf⟩ hnot
        · exact hread
    · rintro (htwo | hone | hread) i hi
      · exact .inl htwo
      · exact .inr (.inl fun hn => by omega)
      · by_cases hhalf : numGpus / 2 ≤ i
        · exact .inr (.inr (hread i hi hhalf))
        · exact .inr (.inl fun hn => hhalf hn.2)

theorem discoverTopology_eq (hzero : p.FromZero) (hc : p.Countable numGpus) :
    discoverTopology p numGpus = (countGpus (p.ideal numGpus).gpus
      (List.replicate (p.ideal numGpus).totalNumaNodes 0)).map fun gpusPerNuma =>
        { p.ideal numGpus with gpusPerNuma := gpusPerNuma } := by
  unfold discoverTopology
  rw [(topo_eq_some hzero).mpr ⟨hc, rfl⟩, Option.map_eq_bind]
  rfl

/-- Discovery succeeds if the GPUs are on nodes of the host. -/
theorem exists_discoverTopology (hzero : p.FromZero) (hc : p.Countable numGpus)
    (h : p.Placeable numGpus) : ∃ t, discoverTopology p numGpus = some t := by
  have hcount : ∃ per, countGpus (p.ideal numGpus).gpus
      (List.replicate (p.ideal numGpus).totalNumaNodes 0) = some per := by
    refine exists_countGpus ?_
    rw [List.length_replicate]
    exact node_iff.mpr h
  obtain ⟨per, hper⟩ := hcount
  refine ⟨{ p.ideal numGpus with gpusPerNuma := per }, ?_⟩
  rw [discoverTopology_eq hzero hc, hper]
  rfl

/-- What discovery returns: the counts have been made. -/
theorem discoverTopology_spec {t : TopologyConfig} (hzero : p.FromZero)
    (h : discoverTopology p numGpus = some t) :
    (p.Placeable numGpus ∧ p.Countable numGpus) ∧ t.gpus = (p.ideal numGpus).gpus ∧ t.numGpus = numGpus ∧
      t.totalNumaNodes = (p.ideal numGpus).totalNumaNodes ∧
      t.physicalCoresPerNuma = (p.ideal numGpus).physicalCoresPerNuma ∧
      t.gpusPerNuma.length = t.totalNumaNodes ∧ t.gpusPerNuma.sum = numGpus ∧
      ∀ g ∈ t.gpus, vecGet t.gpusPerNuma g.numaNode =
        some (t.gpus.countP fun g' => g'.numaNode = g.numaNode) := by
  have hc : p.Countable numGpus := by
    obtain ⟨topo, htopo, -⟩ := Option.bind_eq_some_iff.mp h
    exact ((topo_eq_some hzero).mp htopo).1
  rw [discoverTopology_eq hzero hc] at h
  obtain ⟨per, hper, rfl⟩ := Option.map_eq_some_iff.mp h
  obtain ⟨hnode, hlen, hsum, hget⟩ := countGpus_spec hper
  rw [List.length_replicate] at hnode hlen hget
  have hgpus : (p.ideal numGpus).gpus.length = numGpus := by cases p <;> simp [ideal, Sysfs.ideal]
  have hnum : (p.ideal numGpus).numGpus = numGpus := by cases p <;> rfl
  refine ⟨⟨node_iff.mp hnode, hc⟩, rfl, hnum, rfl, rfl, hlen, ?_, fun g hg => ?_⟩
  · rw [hsum, hgpus]
    simp
  · obtain ⟨hlo, hhi⟩ := hnode g hg
    have hlt : g.numaNode.toNat < (p.ideal numGpus).totalNumaNodes := by omega
    dsimp only
    rw [vecGet, if_pos hlo, hget _ hlt, Int.toNat_of_nonneg hlo, List.getElem?_replicate,
      if_pos hlt, Option.map_some, Nat.zero_add]

/-- The spans of the nodes are as the division of the cores needs them. -/
theorem placed {t : TopologyConfig} (hzero : p.FromZero) (h : discoverTopology p numGpus = some t) :
    Placed t := by
  obtain ⟨⟨hplace, hc⟩, hgpus, -, -, hphys, -, -, hcounted⟩ := discoverTopology_spec hzero h
  cases p with
  | other =>
    have h8 : t.physicalCoresPerNuma = 8 := hphys
    refine ⟨by rw [h8]; decide, ?_, ?_, ?_, ?_, hcounted⟩
    all_goals
      rw [hgpus]
      simp only [mem_gpus_other]
    · rintro _ ⟨i, -, rfl⟩ _ ⟨j, -, rfl⟩ -
      rfl
    · rintro _ ⟨i, -, rfl⟩ _ ⟨j, -, rfl⟩ hne
      exact absurd rfl hne
    · rintro _ ⟨i, -, rfl⟩
      rw [h8]
      exact (by decide : (0 : Int) + 8 ≤ 15 + 1)
    · rintro _ ⟨i, -, rfl⟩
      exact ⟨Int.le_refl 0, (by decide : (15 : Int) + 1 < 2 ^ 31)⟩
  | linux host =>
    have hrange : 0 ≤ host.nodeCpus := by
      have := hzero.1
      have := hzero.2
      unfold Sysfs.nodeCpus
      omega
    have hfit := (Sysfs.countable_iff hc.2.1 hrange).mpr hc.2.2
    refine ⟨by rw [hphys]; exact hrange, ?_, ?_, ?_, ?_, hcounted⟩
    all_goals
      rw [hgpus]
      simp only [mem_gpus_linux]
    · rintro _ ⟨i, -, rfl⟩ _ ⟨j, -, rfl⟩ he
      exact congrArg (· * host.nodeCpus) he
    · rintro _ ⟨i, -, rfl⟩ _ ⟨j, -, rfl⟩ hne
      -- the node that is less has the cores before
      rcases Int.lt_or_gt_of_ne hne with hlt | hlt
      · have hmul := Int.mul_le_mul_of_nonneg_right (Int.add_one_le_of_lt hlt) hrange
        exact .inl (Int.sub_one_lt_of_le hmul)
      · have hmul := Int.mul_le_mul_of_nonneg_right (Int.add_one_le_of_lt hlt) hrange
        exact .inr (Int.sub_one_lt_of_le hmul)
    · rintro _ ⟨i, -, rfl⟩
      rw [hphys]
      dsimp only [Sysfs.placed, ideal, Sysfs.ideal]
      rw [Int.add_mul, Int.one_mul]
      omega
    · rintro _ ⟨i, hi, rfl⟩
      refine ⟨Int.mul_nonneg (host.gpuNuma_nonneg i) hrange, ?_⟩
      have hlt := hfit i (List.mem_range.mpr hi)
      dsimp only [Sysfs.placed]
      omega

end Platform

/-- Discovery on nodes that exist partitions the cores. -/
theorem partitioned_of_discoverTopology {p : Platform} {numGpus : Nat} {t : TopologyConfig}
    (hzero : p.FromZero) (h : discoverTopology p numGpus = some t) : Partitioned t := by
  have ht := Platform.placed hzero h
  obtain ⟨⟨hplace, -⟩, hgpus, hnum, htotal, -, hlen, hsum, -⟩ := Platform.discoverTopology_spec hzero h
  have hlength : t.gpus.length = t.numGpus := by
    rw [hgpus, hnum]
    cases p <;> simp [Platform.ideal, Sysfs.ideal]
  have hget : ∀ {i c}, t.getExclusiveCores i = some c → ∃ g, t.gpus[i]? = some g := by
    intro i c hc
    obtain ⟨g, hg, -⟩ := Option.bind_eq_some_iff.mp hc
    exact ⟨g, hg⟩
  refine ⟨?_, hlen, hsum.trans hnum.symm, fun i hi => ?_, fun i g c hg hc cpu => ht.own hg hc, ?_⟩
  · rw [hgpus, htotal]
    exact Platform.node_iff.mpr hplace
  · have hg := List.getElem?_eq_getElem (hlength ▸ hi)
    exact ⟨_, _, hg, ht.cores_eq hg⟩
  · intro i j c c' hne hc hc' cpu hcpu hcpu'
    obtain ⟨g, hg⟩ := hget hc
    obtain ⟨g', hg'⟩ := hget hc'
    rcases Nat.lt_or_gt_of_ne hne with hij | hji
    · exact ht.exclusive hij hg hg' hc hc' cpu hcpu hcpu'
    · exact ht.exclusive hji hg' hg hc' hc cpu hcpu' hcpu

/-- **When the cores are partitioned**: whatever the number of GPUs and of nodes, and whatever the
host tells of the nodes of the GPUs, exactly if node 1 exists or no GPU is put there by guess, and no
`int` overflows. -/
theorem partitioned_iff (p : Platform) (numGpus : Nat) (hzero : p.FromZero) :
    (∃ t, discoverTopology p numGpus = some t ∧ Partitioned t) ↔
      p.Placeable numGpus ∧ p.Countable numGpus := by
  constructor
  · rintro ⟨t, h, -⟩
    exact (Platform.discoverTopology_spec hzero h).1
  · rintro ⟨hplace, hc⟩
    obtain ⟨t, ht⟩ := Platform.exists_discoverTopology hzero hc hplace
    exact ⟨t, ht, partitioned_of_discoverTopology hzero ht⟩

private theorem cpus_int : ∀ x ∈ ([0, 63, 128] : List Int), int x = some x := by decide

/-- A host with two nodes of 64 cores, which tells the node of the third of four GPUs only. -/
private def twoNodes : Sysfs where
  online := some 1
  cpulist := [0, 63, 128]
  numaNode g := if g = 2 then some 0 else none
  cpulist_int := cpus_int

/-- A host with one node, which tells -1 for every GPU. -/
private def oneNode : Sysfs where
  online := none
  cpulist := [0, 63, 128]
  numaNode _ := some (-1)
  cpulist_int := cpus_int

theorem partitioned_iff_four :
    ∃ t, discoverTopology (.linux twoNodes) 4 = some t ∧ Partitioned t ∧
      (List.range 4).map t.getExclusiveCores = [some ⟨0, 21, 1⟩, some ⟨21, 21, 1⟩,
        some ⟨42, 21, 1⟩, some ⟨64, 64, 1⟩] := by
  have hcountable : (Platform.linux twoNodes).Countable 4 := by
    refine ⟨by decide, by decide, fun g _ n hn h0 hlt => ?_⟩
    have htotal : (twoNodes.totalNumaNodes : Int) = 2 := rfl
    have hcpus : twoNodes.nodeCpus = 64 := rfl
    rw [hcpus]
    omega
  obtain ⟨t, ht, hp⟩ := (partitioned_iff (.linux twoNodes) 4 ⟨rfl, by decide⟩).mpr
    ⟨.inl (by decide), hcountable⟩
  refine ⟨t, ht, hp, ?_⟩
  have hcores : (discoverTopology (.linux twoNodes) 4).map
      (fun t => (List.range 4).map t.getExclusiveCores) = some [some ⟨0, 21, 1⟩, some ⟨21, 21, 1⟩,
        some ⟨42, 21, 1⟩, some ⟨64, 64, 1⟩] := by decide +kernel
  rw [ht] at hcores
  exact Option.some.inj hcores

/-- Two GPUs whose node is unknown, on a host with one node: the second is put on node 1. -/
theorem exists_not_partitioned : ∃ p : Platform, p.FromZero ∧
    (p.topo 2).map (fun t => (t.gpus.map GpuTopology.numaNode, t.totalNumaNodes)) = some ([0, 1], 1) ∧
    ¬ ∃ t, discoverTopology p 2 = some t ∧ Partitioned t := by
  refine ⟨.linux oneNode, ⟨rfl, by decide⟩, by decide +kernel, ?_⟩
  rintro ⟨t, ht, -⟩
  have hnone : discoverTopology (.linux oneNode) 2 = none := by decide +kernel
  cases hnone.symm.trans ht

end Gfd.Topology
