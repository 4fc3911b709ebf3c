import Mathlib.Algebra.Order.Field.Rat
import Mathlib.Data.List.Range
import Mathlib.Logic.Function.Basic

/-! # Flat routing

`RouteLogic` keeps the costs of the links between its nodes, numbered from 1, in a matrix that grows as
links are inserted, and computes a table of next hops with one run of Dijkstra's algorithm for every
source. In a run `parent[v] = k` marks the nodes that are settled, and node 0 is a sentinel; `hopcnt` is
not initialised, and one array serves the runs of all sources.
-/

namespace NetSim.RouteLogic

def infinity : ℚ := 0x3fff

end RouteLogic

/-- `RouteLogic`; `route` is empty until the routes are computed. -/
structure RouteLogic where
  size : ℕ
  adj : ℕ → ℕ → ℚ
  route : Option (ℕ → ℕ → ℕ)

namespace RouteLogic

def init : RouteLogic where
  size := 0
  adj := fun _ _ => infinity
  route := none

/-- `alloc`; the number of cells is an `int`. -/
def alloc (r : RouteLogic) (n : ℕ) : Option RouteLogic :=
  if 2 ^ 31 ≤ n * n then none else some { r with size := n, adj := fun _ _ => infinity }

/-- The loop `while (m <= n) m <<= 1`; the bound on the rounds is not reached. -/
def double : ℕ → ℕ → ℕ → ℕ
  | 0, m, _ => m
  | rounds + 1, m, n => if m ≤ n then double rounds (2 * m) n else m

def check (r : RouteLogic) (n : ℕ) : Option RouteLogic :=
  if n < r.size then some r
  else
    (r.alloc (double (n + 1) (if r.size = 0 then 16 else r.size) n)).map (fun new =>
      { new with adj := fun i j => if i < r.size ∧ j < r.size then r.adj i j else new.adj i j })

def insert (r : RouteLogic) (src dst : ℕ) (cost : ℚ) : Option RouteLogic :=
  (r.check src).bind (fun r => (r.check dst).map (fun r =>
    { r with adj := Function.update r.adj src (Function.update (r.adj src) dst cost) }))

/-- The arrays of the run for one source. -/
structure Run where
  parent : ℕ → ℕ
  hopcnt : ℕ → ℚ
  route : ℕ → ℕ

def nodes (n : ℕ) : List ℕ := List.range' 1 (n - 1)

/-- The body of the loop that sets the routes of the neighbours. -/
def neighbour (adj : ℕ → ℕ → ℚ) (k : ℕ) (s : Run) (v : ℕ) : Run :=
  if s.parent v ≠ k then
    let s := { s with hopcnt := Function.update s.hopcnt v (adj k v) }
    if s.hopcnt v ≠ infinity then { s with route := Function.update s.route v v } else s
  else s

/-- The nearest node that is not settled, 0 when there is none. -/
def nearest (n k : ℕ) (s : Run) : ℕ :=
  (nodes n).foldl (fun o w => if s.parent w ≠ k ∧ s.hopcnt w < s.hopcnt o then w else o) 0

/-- The body of the loop that updates the nodes adjacent to `o`. -/
def relax (adj : ℕ → ℕ → ℚ) (k o : ℕ) (s : Run) (w : ℕ) : Run :=
  if s.parent w ≠ k ∧ s.hopcnt o + adj o w < s.hopcnt w then
    { s with
      route := Function.update s.route w (s.route o)
      hopcnt := Function.update s.hopcnt w (s.hopcnt o + adj o w) }
  else s

/-- The body of the loop that settles one node. -/
def settle (adj : ℕ → ℕ → ℚ) (n k : ℕ) (s : Run) : Run :=
  let s := { s with hopcnt := Function.update s.hopcnt 0 infinity }
  let o := nearest n k s
  let s := { s with parent := Function.update s.parent o k }
  if o = 0 then s else (nodes n).foldl (relax adj k o) s

/-- The run for the source `k`, with what the array `hopcnt` holds before. -/
def source (adj : ℕ → ℕ → ℚ) (n k : ℕ) (hopcnt : ℕ → ℚ) : Run :=
  let s : Run := { parent := fun v => v, hopcnt, route := fun _ => 0 }
  let s := (nodes n).foldl (neighbour adj k) s
  (nodes n).foldl (fun s _ => settle adj n k s) s

def sources (adj : ℕ → ℕ → ℚ) (n : ℕ) (hopcnt : ℕ → ℚ) : (ℕ → ℚ) × (ℕ → ℕ → ℕ) :=
  (nodes n).foldl
    (fun acc k =>
      let s := source adj n k acc.1
      (s.hopcnt, Function.update acc.2 k s.route))
    (hopcnt, fun _ _ => 0)

/-- `compute_routes`; `hopcnt` is what the new array holds. -/
def computeRoutes (hopcnt : ℕ → ℚ) (r : RouteLogic) : RouteLogic :=
  let route := (sources r.adj r.size hopcnt).2
  { r with
    route := some ((nodes r.size).foldl
      (fun route k => Function.update route k (Function.update (route k) k k)) route) }

/-- `lookup_flat`: the next hop, `-1` also when there is none. -/
def lookupFlat (r : RouteLogic) (sid did : ℕ) : ℤ :=
  match r.route with
  | none => -1
  | some route =>
    if r.size ≤ sid + 1 ∨ r.size ≤ did + 1 then -2 else (route (sid + 1) (did + 1) : ℤ) - 1

end NetSim.RouteLogic
