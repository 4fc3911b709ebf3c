import NetSim.Lib.StridedArray
import NetSim.Routing.RouteLogic

/-! # Hierarchical routing

The tables of `RouteLogic` (`routing/route.cc`) for three levels of hierarchy. A cluster has a matrix
over its nodes, the clusters of its domain and the domains, which share one range of numbers: with `a`
nodes, `b - 1` clusters and `c - 1` domains, node `i` has the number `i`, cluster `i` the number
`a + i` and domain `i` the number `a + (b - 1) + i`. The node that a link to another cluster or domain
leads to is kept in a table of its own. The parts of an address count from 1, those of a text from 0.

An access outside of an allocated table answers `none`, and so does reading a cell of `hconnect_` that
was not written.
-/

namespace NetSim.Hier

open Function StridedArray RouteLogic

/-- The parts of an address, as `ns_strtok` reads them. -/
structure Addr where
  domain : ℕ
  cluster : ℕ
  node : ℕ
deriving DecidableEq

/-- `sprintf(…, "%d.%d.%d", X - 1, Y - 1, Z - 1)`. -/
def Addr.text (a : Addr) : Addr := ⟨a.domain - 1, a.cluster - 1, a.node - 1⟩

abbrev infCost : ℤ := 0x3fff

/-- `D_`, `C_` and `cluster_size_`. -/
structure Shape where
  D : ℕ
  C : ℕ → ℕ
  clusterSize : ℕ → ℕ

/-- `hsize_`, `hadj_`, `hroute_` and `hconnect_`. -/
structure Tables where
  hsize : ℕ → ℕ
  hadj : ℕ → ℕ → ℤ
  hroute : ℕ → ℕ → ℤ
  hconnect : ℕ → ℕ → Option Addr

namespace Shape

/-- The loop of `hier_init` that computes `Cmax_`. -/
def cmax (g : Shape) : ℕ :=
  (List.range' 1 (g.D - 1)).foldl (fun cmax i => if cmax < g.C i then g.C i else cmax) 0

def idx (g : Shape) (d c : ℕ) : ℕ := index g.cmax d c

def size (g : Shape) (d c : ℕ) : ℕ := g.clusterSize (g.idx d c)

/-- The number of rows of the matrix of a cluster. -/
def stride (g : Shape) (d c : ℕ) : ℕ := g.size d c + g.C d + g.D

def domains (g : Shape) : List ℕ := List.range' 1 (g.D - 1)

def clusters (g : Shape) (d : ℕ) : List ℕ := List.range' 1 (g.C d - 1)

end Shape

/-! ## The macros -/

def nnIndex (i j a b c : ℕ) : ℕ := i * (a + b + c) + j
def ncIndex (i j a b c : ℕ) : ℕ := i * (a + b + c) + (a + j)
def ndIndex (i j a b c : ℕ) : ℕ := i * (a + b + c) + (a + (b - 1) + j)
def ccIndex (i j a b c : ℕ) : ℕ := (a + i) * (a + b + c) + (a + j)
def cdIndex (i j a b c : ℕ) : ℕ := (a + i) * (a + b + c) + (a + (b - 1) + j)
def ddIndex (i j a b c : ℕ) : ℕ := (a + (b - 1) + i) * (a + b + c) + (a + (b - 1) + j)

/-! ## The tables -/

def hierInit : Tables where
  hsize := fun _ => 0
  hadj := fun _ _ => 0
  hroute := fun _ _ => 0
  hconnect := fun _ _ => none

/-- `hier_alloc`. The number of cells is an `int`. -/
def hierAlloc (g : Shape) (i : ℕ) (t : Tables) : Option Tables := do
  let m := g.clusterSize i + g.cmax + g.D
  guard (m * m < 2 ^ 31)
  return { hsize := update t.hsize i (m * m)
           hadj := update t.hadj i (fun _ => infCost)
           hroute := update t.hroute i (fun _ => infCost)
           hconnect := update t.hconnect i (fun _ => none) }

def hierCheck (g : Shape) (i : ℕ) (t : Tables) : Option Tables := do
  guard (i < g.cmax * g.D)
  if 0 < t.hsize i then return t else hierAlloc g i t

/-- `hadj_[i][x] = v`. -/
def setAdj (g : Shape) (i x : ℕ) (v : ℤ) (t : Tables) : Option Tables := do
  guard (i < g.cmax * g.D ∧ x < t.hsize i)
  return { t with hadj := update t.hadj i (update (t.hadj i) x v) }

/-- The text of an address is written to `hconnect_[i][x]`. -/
def setConnect (g : Shape) (i x : ℕ) (a : Addr) (t : Tables) : Option Tables := do
  guard (i < g.cmax * g.D ∧ 0 < t.hsize i ∧ x < (g.cmax + g.D) * (g.clusterSize i + 1))
  return { t with hconnect := update t.hconnect i (update (t.hconnect i) x (some a.text)) }

/-- The turn of `hier_insert` for a cluster of the domain, for a link to another cluster. -/
def insertCluster (g : Shape) (src dst : Addr) (cost : ℤ) (t : Tables) (y : ℕ) : Option Tables := do
  let i := g.idx src.domain y
  let n := g.clusterSize i
  let t ← hierCheck g i t
  let t ← setAdj g i (ccIndex src.cluster dst.cluster n (g.C src.domain) g.D) cost t
  if y = src.cluster then do
    let t ← setAdj g i (ncIndex src.node dst.cluster n (g.C src.domain) g.D) cost t
    setConnect g i (src.node * (g.C src.domain + g.D) + dst.cluster) dst t
  else return t

/-- The turns of `hier_insert` for the domains, for a link to another domain. -/
def insertDomains (g : Shape) (src dst : Addr) (cost : ℤ) (x : ℕ) (t : Tables) (y : ℕ) :
    Option Tables := do
  let i := g.idx x y
  let t ← hierCheck g i t
  setAdj g i (ddIndex src.domain dst.domain (g.clusterSize i) (g.C x) g.D) cost t

/-- The turn of `hier_insert` for the clusters of the domain, for a link to another domain. -/
def insertClusterDomain (g : Shape) (src dst : Addr) (cost : ℤ) (t : Tables) (y : ℕ) :
    Option Tables := do
  let i := g.idx src.domain y
  let t ← hierCheck g i t
  setAdj g i (cdIndex src.cluster dst.domain (g.clusterSize i) (g.C src.domain) g.D) cost t

def hierInsert (g : Shape) (src dst : Addr) (cost : ℤ) (t : Tables) : Option Tables :=
  let i := g.idx src.domain src.cluster
  let n := g.clusterSize i
  if src.domain = dst.domain then
    if src.cluster = dst.cluster then do
      let t ← hierCheck g i t
      setAdj g i (nnIndex src.node dst.node n (g.C src.domain) g.D) cost t
    else (g.clusters src.domain).foldlM (insertCluster g src dst cost) t
  else do
    let t ← g.domains.foldlM (fun t x => (g.clusters x).foldlM (insertDomains g src dst cost x) t) t
    let t ← (g.clusters src.domain).foldlM (insertClusterDomain g src dst cost) t
    let t ← setAdj g i (ndIndex src.node dst.domain n (g.C src.domain) g.D) cost t
    setConnect g i (src.node * (g.C src.domain + g.D) + (g.C src.domain - 1 + dst.domain)) dst t

/-- The turn of `hier_reset` for a cluster of the domain, for a link to another cluster. -/
def resetCluster (g : Shape) (src dst : Addr) (t : Tables) (y : ℕ) : Option Tables := do
  let i := g.idx src.domain y
  let n := g.clusterSize i
  let t ← setAdj g i (ccIndex src.cluster dst.cluster n (g.C src.domain) g.D) infCost t
  if y = src.cluster then
    setAdj g i (ncIndex src.node dst.cluster n (g.C src.domain) g.D) infCost t
  else return t

/-- The turn of `hier_reset` for a cluster, for a link to another domain. -/
def resetDomain (g : Shape) (src dst : Addr) (x : ℕ) (t : Tables) (y : ℕ) : Option Tables := do
  let i := g.idx x y
  let n := g.clusterSize i
  let t ← setAdj g i (ddIndex src.domain dst.domain n (g.C x) g.D) infCost t
  if x = src.domain then do
    let t ← setAdj g i (cdIndex src.cluster dst.domain n (g.C x) g.D) infCost t
    if y = src.cluster then setAdj g i (ndIndex src.node dst.domain n (g.C x) g.D) infCost t
    else return t
  else return t

def hierReset (g : Shape) (src dst : Addr) (t : Tables) : Option Tables :=
  let i := g.idx src.domain src.cluster
  let n := g.clusterSize i
  if src.domain = dst.domain then
    if src.cluster = dst.cluster then
      setAdj g i (nnIndex src.node dst.node n (g.C src.domain) g.D) infCost t
    else (g.clusters src.domain).foldlM (resetCluster g src dst) t
  else g.domains.foldlM (fun t x => (g.clusters x).foldlM (resetDomain g src dst x) t) t

/-! ## The routes -/

/-- `hier_compute_routes`; `hopcnt` is what the new array holds. -/
def hierComputeRoutes (hopcnt : ℕ → ℚ) (adj : ℕ → ℕ → ℚ) (size : ℕ) : ℕ → ℕ → ℕ :=
  (({ size, adj, route := none } : RouteLogic).computeRoutes hopcnt).route.getD (fun _ _ => 0)

/-- The turn of `hier_compute` for a cluster. -/
def computeCluster (g : Shape) (hopcnt : ℕ → ℕ → ℚ) (d : ℕ) (t : Tables) (c : ℕ) : Option Tables := do
  let i := g.idx d c
  let s := g.clusterSize i + g.C d + g.D
  guard (i < g.cmax * g.D ∧ s * s ≤ t.hsize i)
  let route := hierComputeRoutes (hopcnt i) (fun n m => (t.hadj i (index s n m) : ℚ)) s
  return { t with
    hroute := update t.hroute i (mapBlock (fun n m _ => (route n m : ℤ)) s s (t.hroute i)) }

def hierCompute (g : Shape) (hopcnt : ℕ → ℕ → ℚ) (t : Tables) : Option Tables :=
  g.domains.foldlM (fun t d => (g.clusters d).foldlM (computeCluster g hopcnt d) t) t

/-! ## Lookups -/

/-- The errors of `lookup_hier`. -/
inductive LookupError
  | negativeSrc
  | negativeDst
  | notComputed
  | outOfRange
deriving DecidableEq

def getRoute (g : Shape) (t : Tables) (i x : ℕ) : Option ℤ := do
  guard (i < g.cmax * g.D ∧ x < t.hsize i)
  return t.hroute i x

def getConnect (g : Shape) (t : Tables) (i x : ℕ) : Option Addr := do
  guard (i < g.cmax * g.D ∧ 0 < t.hsize i ∧ x < (g.cmax + g.D) * (g.clusterSize i + 1))
  t.hconnect i x

def getAddress (g : Shape) (t : Tables) (nextHop i d size : ℕ) (src : Addr) : Option Addr :=
  if nextHop ≤ size then some (Addr.text ⟨src.domain, src.cluster, nextHop⟩)
  else if size < nextHop ∧ nextHop < size + g.C d then
    let temp := nextHop - size
    getConnect g t i (src.node * (g.C d + g.D) + temp)
  else
    let temp := nextHop - size - (g.C d - 1)
    getConnect g t i (src.node * (g.C d + g.D) + (g.C d - 1 + temp))

/-- `lookup_hier`: an error, or the text of the next hop, `none` for `-1`. -/
def lookupHier (g : Shape) (t : Tables) (src dst : Addr) :
    Option (Except LookupError (Option Addr)) :=
  if src.domain = 0 ∨ src.cluster = 0 ∨ src.node = 0 then some (.error .negativeSrc)
  else if dst.domain = 0 then some (.error .negativeDst)
  else
    let d := src.domain
    let i := g.idx src.domain src.cluster
    let size := g.clusterSize i
    if t.hsize i = 0 then some (.error .notComputed)
    else if ¬ (src.domain < g.D ∨ dst.domain < g.D) then some (.error .outOfRange)
    else do
      let nextHop ←
        if (dst.cluster = 0 ∧ dst.node = 0) ∨ src.domain ≠ dst.domain then
          getRoute g t i (ndIndex src.node dst.domain size (g.C d) g.D)
        else if dst.node = 0 ∨ src.cluster ≠ dst.cluster then
          getRoute g t i (ncIndex src.node dst.cluster size (g.C d) g.D)
        else getRoute g t i (nnIndex src.node dst.node size (g.C d) g.D)
      if 0 < nextHop then do
        let target ← getAddress g t nextHop.toNat i d size src
        return .ok (some target)
      else return .ok none

/-! ## Runs -/

inductive Call
  | insert (src dst : Addr) (cost : ℤ)
  | reset (src dst : Addr)
deriving DecidableEq

def step (g : Shape) (t : Tables) : Call → Option Tables
  | .insert src dst cost => hierInsert g src dst cost t
  | .reset src dst => hierReset g src dst t

end NetSim.Hier
