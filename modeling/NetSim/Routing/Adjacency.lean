import NetSim.Lib.StridedArray
import NetSim.Routing.ShortestRoutes

/-! # The adjacency matrix with link entries

`RouteLogic` (`routing/route.cc`) keeps its matrix in one array: the cell `(i, j)` is the cell
`INDEX(i, j, size_)`, and holds a cost and a pointer to a link entry. `check` makes room for a node by a
larger matrix with another stride, into which it copies the costs only. The number of cells is an `int`,
so no matrix has 2^16 rows.

The matrix represents the last inserted costs and entries of the pairs of nodes, as long as no call
makes it grow while it holds a link entry (`growth_keeps_links`).
-/

namespace NetSim

open Function List StridedArray

structure AdjEntry (E : Type) where
  cost : ℚ
  entry : Option E
deriving DecidableEq

/-- `adj_` and `size_` of `RouteLogic`. -/
structure Adjacency (E : Type) where
  size : ℕ
  adj : ℕ → AdjEntry E

namespace Adjacency

open RouteLogic (infinity double nodes nearest Run Node mem_nodes)

variable {E : Type}

/-- What `alloc` writes to a cell. -/
def unlinked : AdjEntry E := ⟨infinity, none⟩

def empty : Adjacency E := { size := 0, adj := fun _ => unlinked }

/-- How a call can stop the program. -/
inductive Stop
  | assertion
  | overflow
deriving DecidableEq

def alloc (n : ℕ) : Except Stop (Adjacency E) :=
  if 2 ^ 31 ≤ n * n then .error .overflow else .ok { size := n, adj := fun _ => unlinked }

def check (n : ℕ) (r : Adjacency E) : Except Stop (Adjacency E) :=
  if n < r.size then .ok r
  else do
    let m := double (n + 1) (if r.size = 0 then 16 else r.size) n
    let a ← alloc m
    return { a with
      adj := mapBlock (fun i j c => { c with cost := (r.adj (index r.size i j)).cost }) r.size m a.adj }

def cell (r : Adjacency E) (src dst : ℕ) : AdjEntry E := r.adj (index r.size src dst)

def write (src dst : ℕ) (c : AdjEntry E) (r : Adjacency E) : Adjacency E :=
  { r with adj := update r.adj (index r.size src dst) c }

def insert (src dst : ℕ) (cost : ℚ) (r : Adjacency E) : Except Stop (Adjacency E) := do
  let r ← r.check src
  let r ← r.check dst
  return r.write src dst { r.cell src dst with cost }

def insertEntry (src dst : ℕ) (cost : ℚ) (entry : Option E) (r : Adjacency E) :
    Except Stop (Adjacency E) := do
  let r ← r.check src
  let r ← r.check dst
  return r.write src dst ⟨cost, entry⟩

def reset (src dst : ℕ) (r : Adjacency E) : Except Stop (Adjacency E) :=
  if src < r.size ∧ dst < r.size then .ok (r.write src dst { r.cell src dst with cost := infinity })
  else .error .assertion

inductive Call (E : Type)
  | insert (src dst : ℕ) (cost : ℚ)
  | insertEntry (src dst : ℕ) (cost : ℚ) (entry : Option E)
  | reset (src dst : ℕ)

def step (r : Adjacency E) : Call E → Except Stop (Adjacency E)
  | .insert src dst cost => r.insert src dst cost
  | .insertEntry src dst cost entry => r.insertEntry src dst cost entry
  | .reset src dst => r.reset src dst

/-! ## The map that the calls describe -/

namespace Call

def src : Call E → ℕ
  | .insert src _ _ => src
  | .insertEntry src _ _ _ => src
  | .reset src _ => src

def dst : Call E → ℕ
  | .insert _ dst _ => dst
  | .insertEntry _ dst _ _ => dst
  | .reset _ dst => dst

def cost : Call E → ℚ
  | .insert _ _ cost => cost
  | .insertEntry _ _ cost _ => cost
  | .reset _ _ => infinity

def entry : Call E → Option (Option E)
  | .insertEntry _ _ _ entry => some entry
  | _ => none

def isInsert : Call E → Bool
  | .reset _ _ => false
  | _ => true

def On (c : Call E) (i j : ℕ) : Prop := c.src = i ∧ c.dst = j

instance (c : Call E) (i j : ℕ) : Decidable (c.On i j) := inferInstanceAs (Decidable (_ ∧ _))

end Call

/-- The cost of the last call about the pair; `infinity` when there is none. -/
def lastCost (calls : List (Call E)) (i j : ℕ) : ℚ :=
  (calls.reverse.findSome? (fun c => if c.On i j then some c.cost else none)).getD infinity

/-- The link entry that was inserted last for the pair. -/
def lastEntry (calls : List (Call E)) (i j : ℕ) : Option E :=
  (calls.reverse.findSome? (fun c => if c.On i j then c.entry else none)).getD none

def lastLink (calls : List (Call E)) (i j : ℕ) : AdjEntry E := ⟨lastCost calls i j, lastEntry calls i j⟩

def lookup (r : Adjacency E) (i j : ℕ) : AdjEntry E :=
  if i < r.size ∧ j < r.size then r.cell i j else unlinked

/-- **The matrix represents exactly the last inserted costs and link entries.** -/
def Represents (r : Adjacency E) (calls : List (Call E)) : Prop :=
  ∀ i j, r.lookup i j = lastLink calls i j

/-- The matrix holds no link entry. -/
def Bare (r : Adjacency E) : Prop := ∀ i j, (r.lookup i j).entry = none

def Grows (r : Adjacency E) (c : Call E) : Prop := c.isInsert ∧ (r.size ≤ c.src ∨ r.size ≤ c.dst)

instance (r : Adjacency E) (c : Call E) : Decidable (r.Grows c) := inferInstanceAs (Decidable (_ ∧ _))

/-- A call that does not make the matrix grow while it holds a link entry, and has room for its nodes. -/
structure Careful (r : Adjacency E) (c : Call E) : Prop where
  bare : r.Grows c → r.Bare
  room : c.isInsert → c.src < 2 ^ 15 ∧ c.dst < 2 ^ 15

/-- The matrices after sequences of calls, when every call meets the condition. -/
inductive Reaches (C : Adjacency E → Call E → Prop) : List (Call E) → Adjacency E → Prop
  | empty : Reaches C [] empty
  | call {calls : List (Call E)} {r r' : Adjacency E} {c : Call E} (hr : Reaches C calls r) (hc : C r c)
      (hstep : r.step c = .ok r') : Reaches C (calls ++ [c]) r'

variable {r r' : Adjacency E} {c : Call E} {calls : List (Call E)} {i j n src dst : ℕ}

theorem lastLink_append (calls : List (Call E)) (c : Call E) (i j : ℕ) :
    lastLink (calls ++ [c]) i j =
      if c.On i j then ⟨c.cost, c.entry.getD (lastEntry calls i j)⟩ else lastLink calls i j := by
  unfold lastLink lastCost lastEntry
  rw [reverse_append, reverse_singleton, singleton_append, findSome?_cons,
    findSome?_cons]
  by_cases hon : c.On i j
  · simp only [if_pos hon]
    cases c.entry <;> rfl
  · simp only [if_neg hon]

/-! ## The size -/

/-- No matrix, or one with a power of two of rows. -/
def Sized (r : Adjacency E) : Prop := r.size = 0 ∨ ∃ a, 4 ≤ a ∧ a ≤ 15 ∧ r.size = 2 ^ a

theorem Sized.double (h : r.Sized) (n : ℕ) :
    ∃ a, 4 ≤ a ∧ double (n + 1) (if r.size = 0 then 16 else r.size) n = 2 ^ a ∧ n < 2 ^ a ∧
      r.size ≤ 2 ^ a ∧ (a ≤ 15 ↔ n < 2 ^ 15) :=
  RouteLogic.Sized.double h n

/-! ## What the calls do -/

def bareCell (c : AdjEntry E) : AdjEntry E := { c with entry := none }

theorem check_spec (h : r.Sized) (hcheck : r.check n = .ok r') :
    r'.Sized ∧ n < r'.size ∧ r.size ≤ r'.size ∧
      ∀ i j, r'.lookup i j = if n < r.size then r.lookup i j else bareCell (r.lookup i j) := by
  unfold check at hcheck
  by_cases hn : n < r.size
  · rw [if_pos hn] at hcheck
    obtain rfl := Except.ok.inj hcheck
    exact ⟨h, hn, le_rfl, fun i j => (if_pos hn).symm⟩
  · obtain ⟨a, h4, heq, hlt, hle, h15⟩ := h.double n
    rw [if_neg hn, heq] at hcheck
    dsimp only [alloc] at hcheck
    by_cases hbig : 2 ^ 31 ≤ 2 ^ a * 2 ^ a
    · rw [if_pos hbig] at hcheck
      exact absurd hcheck (by simp)
    · rw [if_neg hbig] at hcheck
      obtain rfl := Except.ok.inj hcheck
      have ha : a ≤ 15 := by
        by_contra hgt
        have hpow : 2 ^ 16 ≤ 2 ^ a := Nat.pow_le_pow_right (by omega) (by omega)
        exact hbig ((by norm_num : 2 ^ 31 ≤ 2 ^ 16 * 2 ^ 16).trans (Nat.mul_le_mul hpow hpow))
      refine ⟨Or.inr ⟨a, h4, ha, rfl⟩, hlt, hle, fun i j => ?_⟩
      rw [if_neg hn]
      unfold lookup
      by_cases hin : i < 2 ^ a ∧ j < 2 ^ a
      · rw [if_pos hin, cell]
        dsimp only
        rw [mapBlock_index hle _ hin.2]
        by_cases hold : i < r.size ∧ j < r.size
        · rw [if_pos hold, if_pos hold]
          rfl
        · rw [if_neg hold, if_neg hold]
          rfl
      · have hold : ¬ (i < r.size ∧ j < r.size) := fun ho => hin ⟨by omega, by omega⟩
        rw [if_neg hin, if_neg hold]
        rfl

theorem check_ok (h : r.Sized) (hn : n < 2 ^ 15) : ∃ r', r.check n = .ok r' := by
  unfold check
  by_cases hlt : n < r.size
  · exact ⟨r, if_pos hlt⟩
  · obtain ⟨a, -, heq, -, -, h15⟩ := h.double n
    have hpow : 2 ^ a ≤ 2 ^ 15 := Nat.pow_le_pow_right (by omega) (h15.mpr hn)
    have hsmall : ¬ 2 ^ 31 ≤ 2 ^ a * 2 ^ a := by
      have := Nat.mul_le_mul hpow hpow
      omega
    rw [if_neg hlt, heq]
    dsimp only [alloc]
    rw [if_neg hsmall]
    exact ⟨_, rfl⟩

theorem lookup_write (hsrc : src < r.size) (hdst : dst < r.size) (c : AdjEntry E) (i j : ℕ) :
    (r.write src dst c).lookup i j = if src = i ∧ dst = j then c else r.lookup i j := by
  unfold lookup
  by_cases hin : i < r.size ∧ j < r.size
  · rw [if_pos hin, show (r.write src dst c).size = r.size from rfl, if_pos hin]
    show update r.adj (index r.size src dst) c (index r.size i j) = _
    by_cases he : src = i ∧ dst = j
    · obtain ⟨rfl, rfl⟩ := he
      rw [if_pos ⟨rfl, rfl⟩, update_self]
    · have hne : index r.size i j ≠ index r.size src dst := by
        intro h
        obtain ⟨hi, hj⟩ := (index_inj hin.2 hdst).mp h
        exact he ⟨hi.symm, hj.symm⟩
      rw [if_neg he, update_of_ne hne]
      rfl
  · have hne : ¬ (src = i ∧ dst = j) := by
      rintro ⟨rfl, rfl⟩
      exact hin ⟨hsrc, hdst⟩
    rw [if_neg hin, show (r.write src dst c).size = r.size from rfl, if_neg hin, if_neg hne]

theorem checks_spec (h : r.Sized) {r₁ : Adjacency E} (hsrc : r.check src = .ok r₁)
    (hdst : r₁.check dst = .ok r') :
    r'.Sized ∧ src < r'.size ∧ dst < r'.size ∧
      ∀ i j, r'.lookup i j =
        if r.size ≤ src ∨ r.size ≤ dst then bareCell (r.lookup i j) else r.lookup i j := by
  obtain ⟨h₁, hlt₁, hle₁, hlook₁⟩ := check_spec h hsrc
  obtain ⟨h', hlt', hle', hlook'⟩ := check_spec h₁ hdst
  refine ⟨h', by omega, hlt', fun i j => ?_⟩
  rw [hlook', hlook₁]
  by_cases hs : src < r.size
  · have heq : r₁ = r := by
      unfold check at hsrc
      rw [if_pos hs] at hsrc
      exact (Except.ok.inj hsrc).symm
    rw [if_pos hs, heq]
    by_cases hd : dst < r.size
    · rw [if_pos hd, if_neg (by omega)]
    · rw [if_neg hd, if_pos (by omega)]
  · rw [if_neg hs, if_pos (Or.inl (by omega))]
    split <;> rfl

theorem ok_of_bind {α β : Type} {x : Except Stop α} {f : α → Except Stop β} {b : β}
    (h : x >>= f = .ok b) : ∃ a, x = .ok a ∧ f a = .ok b := by
  cases x with
  | error e => exact absurd h (by simp [bind, Except.bind])
  | ok a => exact ⟨a, rfl, h⟩

/-- What a call leaves of the other cells. -/
def carried (r : Adjacency E) (c : Call E) (i j : ℕ) : AdjEntry E :=
  if r.Grows c then bareCell (r.lookup i j) else r.lookup i j

theorem lookup_eq_cell (hsrc : src < r.size) (hdst : dst < r.size) : r.cell src dst = r.lookup src dst := by
  rw [lookup, if_pos ⟨hsrc, hdst⟩]

/-- **A call** writes the cell of its pair and carries the others over. -/
theorem step_spec (h : r.Sized) (hstep : r.step c = .ok r') :
    r'.Sized ∧ ∀ i j, r'.lookup i j =
      if c.On i j then ⟨c.cost, c.entry.getD (r.carried c i j).entry⟩ else r.carried c i j := by
  cases c with
  | insert src dst cost =>
    obtain ⟨r₁, hsrc, hstep⟩ := ok_of_bind hstep
    obtain ⟨r₂, hdst, hstep⟩ := ok_of_bind hstep
    obtain rfl := Except.ok.inj hstep
    obtain ⟨h₂, hs, hd, hlook⟩ := checks_spec h hsrc hdst
    have hcarried : ∀ i j, r₂.lookup i j = r.carried (.insert src dst cost) i j := by
      intro i j
      rw [hlook]
      simp [carried, Grows, Call.isInsert, Call.src, Call.dst]
    refine ⟨h₂, fun i j => ?_⟩
    rw [lookup_write hs hd, lookup_eq_cell hs hd, hcarried, hcarried]
    by_cases hon : src = i ∧ dst = j
    · obtain ⟨rfl, rfl⟩ := hon
      simp [Call.On, Call.src, Call.dst, Call.cost, Call.entry]
    · simp [Call.On, Call.src, Call.dst, hon]
  | insertEntry src dst cost entry =>
    obtain ⟨r₁, hsrc, hstep⟩ := ok_of_bind hstep
    obtain ⟨r₂, hdst, hstep⟩ := ok_of_bind hstep
    obtain rfl := Except.ok.inj hstep
    obtain ⟨h₂, hs, hd, hlook⟩ := checks_spec h hsrc hdst
    refine ⟨h₂, fun i j => ?_⟩
    rw [lookup_write hs hd, hlook]
    simp [carried, Grows, Call.isInsert, Call.On, Call.src, Call.dst, Call.cost, Call.entry]
  | reset src dst =>
    dsimp only [step, reset] at hstep
    by_cases hin : src < r.size ∧ dst < r.size
    · rw [if_pos hin] at hstep
      obtain rfl := Except.ok.inj hstep
      refine ⟨h, fun i j => ?_⟩
      rw [lookup_write hin.1 hin.2, lookup_eq_cell hin.1 hin.2]
      by_cases hon : src = i ∧ dst = j
      · obtain ⟨rfl, rfl⟩ := hon
        simp [carried, Grows, Call.isInsert, Call.On, Call.src, Call.dst, Call.cost, Call.entry]
      · simp [carried, Grows, Call.isInsert, Call.On, Call.src, Call.dst, hon]
    · rw [if_neg hin] at hstep
      exact absurd hstep (by simp)

/-- A call with room for its nodes stops the program at most by the assertions of `reset`. -/
theorem step_ok (h : r.Sized) (hroom : c.isInsert → c.src < 2 ^ 15 ∧ c.dst < 2 ^ 15) :
    r.step c ≠ .error .overflow := by
  intro hstop
  have hchecks : ∀ src dst, src < 2 ^ 15 → dst < 2 ^ 15 →
      ∃ r₁ r₂, r.check src = .ok r₁ ∧ r₁.check dst = .ok r₂ := by
    intro src dst hsrc hdst
    obtain ⟨r₁, h₁⟩ := check_ok h hsrc
    obtain ⟨r₂, h₂⟩ := check_ok (check_spec h h₁).1 hdst
    exact ⟨r₁, r₂, h₁, h₂⟩
  cases c with
  | insert src dst cost =>
    obtain ⟨r₁, r₂, h₁, h₂⟩ := hchecks src dst (hroom rfl).1 (hroom rfl).2
    simp [step, insert, h₁, h₂, bind, Except.bind, pure, Except.pure] at hstop
  | insertEntry src dst cost entry =>
    obtain ⟨r₁, r₂, h₁, h₂⟩ := hchecks src dst (hroom rfl).1 (hroom rfl).2
    simp [step, insertEntry, h₁, h₂, bind, Except.bind, pure, Except.pure] at hstop
  | reset src dst =>
    dsimp only [step, reset] at hstop
    split at hstop
    · exact absurd hstop (by simp)
    · exact absurd (Except.error.inj hstop) (by decide)

/-- A matrix that represents the calls before a call represents the calls with it exactly when the call
loses no entry. -/
theorem represents_step (h : r.Sized) (hrep : r.Represents calls) (hstep : r.step c = .ok r') :
    r'.Represents (calls ++ [c]) ↔ (r.Grows c → r.Bare) := by
  obtain ⟨-, hlook⟩ := step_spec h hstep
  have hgoal : r'.Represents (calls ++ [c]) ↔ ∀ i j,
      (if c.On i j then ⟨c.cost, c.entry.getD (r.carried c i j).entry⟩ else r.carried c i j) =
        if c.On i j then ⟨c.cost, c.entry.getD (r.lookup i j).entry⟩ else r.lookup i j := by
    refine forall_congr' (fun i => forall_congr' (fun j => ?_))
    rw [hlook, lastLink_append, hrep i j]
    rfl
  rw [hgoal]
  by_cases hgrows : r.Grows c
  · have hcarried : ∀ i j, r.carried c i j = bareCell (r.lookup i j) := fun i j => if_pos hgrows
    constructor
    · intro hall _ i j
      have hij := hall i j
      rw [hcarried] at hij
      by_cases hon : c.On i j
      · -- the pair of a call that makes the matrix grow is outside of the matrix
        have hout : ¬ (i < r.size ∧ j < r.size) := by
          obtain ⟨rfl, rfl⟩ := hon
          have := hgrows.2
          omega
        rw [lookup, if_neg hout]
        rfl
      · rw [if_neg hon, if_neg hon] at hij
        rw [← hij]
        rfl
    · intro hbare i j
      have hsame : bareCell (r.lookup i j) = r.lookup i j := by
        rw [bareCell, ← hbare hgrows i j]
      rw [hcarried, hsame]
  · have hcarried : ∀ i j, r.carried c i j = r.lookup i j := fun i j => if_neg hgrows
    refine iff_of_true (fun i j => ?_) (fun hg => absurd hg hgrows)
    rw [hcarried]

theorem sized_empty : (empty : Adjacency E).Sized := Or.inl rfl

theorem represents_empty : (empty : Adjacency E).Represents [] := by
  intro i j
  rfl

theorem Reaches.sized {C : Adjacency E → Call E → Prop} (h : Reaches C calls r) : r.Sized := by
  induction h with
  | empty => exact sized_empty
  | call _ _ hstep ih => exact (step_spec ih hstep).1

theorem Reaches.represents (h : Reaches Careful calls r) : r.Represents calls := by
  induction h with
  | empty => exact represents_empty
  | call hr hc hstep ih => exact (represents_step hr.sized ih hstep).mpr hc.bare

/-! ## The link entries of the routes -/

structure RouteEntry (E : Type) where
  nextHop : ℕ
  entry : Option E

structure LinkRun (E : Type) extends Run where
  entry : ℕ → Option E

/-- The body of the loop that sets the routes of the neighbours. -/
def neighbour (adj : ℕ → ℕ → AdjEntry E) (k : ℕ) (s : LinkRun E) (v : ℕ) : LinkRun E :=
  if s.parent v ≠ k then
    let s := { s with hopcnt := update s.hopcnt v (adj k v).cost }
    if s.hopcnt v ≠ infinity then
      { s with
        route := update s.route v v
        entry := update s.entry v (adj k v).entry }
    else s
  else s

/-- The body of the loop that updates the nodes adjacent to `o`. -/
def relax (adj : ℕ → ℕ → AdjEntry E) (k o : ℕ) (s : LinkRun E) (w : ℕ) : LinkRun E :=
  if s.parent w ≠ k ∧ s.hopcnt o + (adj o w).cost < s.hopcnt w then
    { s with
      route := update s.route w (s.route o)
      entry := update s.entry w (s.entry o)
      hopcnt := update s.hopcnt w (s.hopcnt o + (adj o w).cost) }
  else s

/-- The body of the loop that settles one node. -/
def settle (adj : ℕ → ℕ → AdjEntry E) (n k : ℕ) (s : LinkRun E) : LinkRun E :=
  let s := { s with hopcnt := update s.hopcnt 0 infinity }
  let o := nearest n k s.toRun
  let s := { s with parent := update s.parent o k }
  if o = 0 then s else (nodes n).foldl (relax adj k o) s

/-- The run for the source `k`, with what the array `hopcnt` holds before. -/
def source (adj : ℕ → ℕ → AdjEntry E) (n k : ℕ) (hopcnt : ℕ → ℚ) : LinkRun E :=
  let s : LinkRun E := { parent := fun v => v, hopcnt, route := fun _ => 0, entry := fun _ => none }
  let s := (nodes n).foldl (neighbour adj k) s
  (nodes n).foldl (fun s _ => settle adj n k s) s

def sources (adj : ℕ → ℕ → AdjEntry E) (n : ℕ) (hopcnt : ℕ → ℚ) :
    (ℕ → ℚ) × (ℕ → ℕ → RouteEntry E) :=
  (nodes n).foldl
    (fun acc k =>
      let s := source adj n k acc.1
      (s.hopcnt, update acc.2 k (fun w => ⟨s.route w, s.entry w⟩)))
    (hopcnt, fun _ _ => ⟨0, none⟩)

/-- `compute_routes`; `hopcnt` is what the new array holds. -/
def computeRoutes (hopcnt : ℕ → ℚ) (r : Adjacency E) : ℕ → ℕ → RouteEntry E :=
  (nodes r.size).foldl
    (fun route k => update route k (update (route k) k ⟨k, none⟩))
    (sources r.cell r.size hopcnt).2

variable {adj : ℕ → ℕ → AdjEntry E} {k o : ℕ} {s : LinkRun E} {w : ℕ}

def Linked (adj : ℕ → ℕ → AdjEntry E) (n k : ℕ) (hop : ℕ) (entry : Option E) : Prop :=
  hop = 0 ∧ entry = none ∨ Node n hop ∧ (adj k hop).cost ≠ infinity ∧ entry = (adj k hop).entry

def LinkRun.Linked (s : LinkRun E) (adj : ℕ → ℕ → AdjEntry E) (n k : ℕ) : Prop :=
  ∀ w, Adjacency.Linked adj n k (s.route w) (s.entry w)

theorem LinkRun.Linked.neighbour (h : s.Linked adj n k) {v : ℕ} (hv : Node n v) :
    (neighbour adj k s v).Linked adj n k := by
  unfold Adjacency.neighbour
  split
  · dsimp only
    split
    · rename_i hcost
      intro w
      by_cases hw : w = v
      · subst hw
        simp only [update_self] at hcost ⊢
        exact Or.inr ⟨hv, hcost, rfl⟩
      · simp only [update_of_ne hw]
        exact h w
    · exact h
  · exact h

theorem LinkRun.Linked.relax (h : s.Linked adj n k) (o w : ℕ) : (relax adj k o s w).Linked adj n k := by
  unfold Adjacency.relax
  split
  · intro x
    by_cases hx : x = w
    · subst hx
      simp only [update_self]
      exact h o
    · simp only [update_of_ne hx]
      exact h x
  · exact h

theorem LinkRun.Linked.settle (h : s.Linked adj n k) : (settle adj n k s).Linked adj n k := by
  unfold Adjacency.settle
  dsimp only
  split
  · exact h
  · exact List.foldlRecOn (motive := fun s : LinkRun E => s.Linked adj n k) _ _ h
      (fun _ hs w _ => hs.relax _ w)

theorem source_linked (adj : ℕ → ℕ → AdjEntry E) (n k : ℕ) (hopcnt : ℕ → ℚ) :
    (source adj n k hopcnt).Linked adj n k := by
  have hstart : ∀ s : LinkRun E, (s.route = fun _ => 0) → (s.entry = fun _ => none) →
      s.Linked adj n k := by
    intro s hr he w
    exact Or.inl ⟨by rw [hr], by rw [he]⟩
  refine List.foldlRecOn (motive := fun s : LinkRun E => s.Linked adj n k) _ _ ?_
    (fun _ hs _ _ => hs.settle)
  exact List.foldlRecOn (motive := fun s : LinkRun E => s.Linked adj n k) _ _ (hstart _ rfl rfl)
    (fun _ hs v hv => hs.neighbour (mem_nodes.mp hv))

theorem computeRoutes_linked (r : Adjacency E) (hopcnt : ℕ → ℚ) (hkw : k ≠ w) :
    Linked r.cell r.size k (r.computeRoutes hopcnt k w).nextHop (r.computeRoutes hopcnt k w).entry := by
  have hsources : ∀ k w, k ≠ w → Linked r.cell r.size k
      ((sources r.cell r.size hopcnt).2 k w).nextHop ((sources r.cell r.size hopcnt).2 k w).entry := by
    refine List.foldlRecOn (motive := fun acc : (ℕ → ℚ) × (ℕ → ℕ → RouteEntry E) => ∀ k w, k ≠ w →
      Linked r.cell r.size k (acc.2 k w).nextHop (acc.2 k w).entry) _ _ ?_ ?_
    · exact fun _ _ _ => Or.inl ⟨rfl, rfl⟩
    · intro acc h v _ k w hkw
      dsimp only
      by_cases hk : k = v
      · subst hk
        rw [update_self]
        exact source_linked r.cell r.size k acc.1 w
      · rw [update_of_ne hk]
        exact h k w hkw
  refine List.foldlRecOn (motive := fun route : ℕ → ℕ → RouteEntry E => ∀ k w, k ≠ w →
    Linked r.cell r.size k (route k w).nextHop (route k w).entry) _ _ hsources ?_ k w hkw
  -- the loop at the end writes the routes of the nodes to themselves only
  intro route h v _ k w hkw
  by_cases hk : k = v
  · subst hk
    rw [update_self, update_of_ne (Ne.symm hkw)]
    exact h k w hkw
  · rw [update_of_ne hk]
    exact h k w hkw

/-! ## The same routes as without entries -/

def costs (r : Adjacency E) : RouteLogic :=
  { size := r.size, adj := fun i j => (r.cell i j).cost, route := none }

theorem neighbour_toRun (adj : ℕ → ℕ → AdjEntry E) (k : ℕ) (s : LinkRun E) (v : ℕ) :
    (neighbour adj k s v).toRun = RouteLogic.neighbour (fun i j => (adj i j).cost) k s.toRun v := by
  unfold neighbour RouteLogic.neighbour
  split
  · dsimp only
    split <;> rfl
  · rfl

theorem relax_toRun (adj : ℕ → ℕ → AdjEntry E) (k o : ℕ) (s : LinkRun E) (w : ℕ) :
    (relax adj k o s w).toRun = RouteLogic.relax (fun i j => (adj i j).cost) k o s.toRun w := by
  unfold relax RouteLogic.relax
  split <;> rfl

theorem settle_toRun (adj : ℕ → ℕ → AdjEntry E) (n k : ℕ) (s : LinkRun E) :
    (settle adj n k s).toRun = RouteLogic.settle (fun i j => (adj i j).cost) n k s.toRun := by
  unfold settle RouteLogic.settle
  dsimp only
  split
  · rfl
  · exact (foldl_hom LinkRun.toRun (fun s w => (relax_toRun adj k _ s w).symm)).symm

theorem source_toRun (adj : ℕ → ℕ → AdjEntry E) (n k : ℕ) (hopcnt : ℕ → ℚ) :
    (source adj n k hopcnt).toRun = RouteLogic.source (fun i j => (adj i j).cost) n k hopcnt := by
  have hneighbours : ∀ (l : List ℕ) (s : LinkRun E), (l.foldl (neighbour adj k) s).toRun =
      l.foldl (RouteLogic.neighbour (fun i j => (adj i j).cost) k) s.toRun :=
    fun _ _ => (foldl_hom LinkRun.toRun (fun s v => (neighbour_toRun adj k s v).symm)).symm
  have hrounds : ∀ (l : List ℕ) (s : LinkRun E), (l.foldl (fun s _ => settle adj n k s) s).toRun =
      l.foldl (fun s _ => RouteLogic.settle (fun i j => (adj i j).cost) n k s) s.toRun :=
    fun _ _ => (foldl_hom LinkRun.toRun (fun s _ => (settle_toRun adj n k s).symm)).symm
  unfold source RouteLogic.source
  rw [hrounds, hneighbours]

def nextHops (route : ℕ → ℕ → RouteEntry E) (k w : ℕ) : ℕ := (route k w).nextHop

theorem nextHops_update (route : ℕ → ℕ → RouteEntry E) (k : ℕ) (row : ℕ → RouteEntry E) :
    nextHops (update route k row) =
      update (nextHops route) k (fun w => (row w).nextHop) := by
  funext x
  by_cases hx : x = k
  · subst hx
    funext w
    simp only [nextHops, update_self]
  · funext w
    simp only [nextHops, update_of_ne hx]

theorem sources_toRun (adj : ℕ → ℕ → AdjEntry E) (n : ℕ) (hopcnt : ℕ → ℚ) :
    RouteLogic.sources (fun i j => (adj i j).cost) n hopcnt =
      ((sources adj n hopcnt).1, nextHops (sources adj n hopcnt).2) := by
  suffices h : ∀ (l : List ℕ) (acc : (ℕ → ℚ) × (ℕ → ℕ → RouteEntry E)),
      l.foldl
          (fun (acc : (ℕ → ℚ) × (ℕ → ℕ → ℕ)) k =>
            let s := RouteLogic.source (fun i j => (adj i j).cost) n k acc.1
            (s.hopcnt, update acc.2 k s.route))
          (acc.1, nextHops acc.2) =
        let table := l.foldl
          (fun (acc : (ℕ → ℚ) × (ℕ → ℕ → RouteEntry E)) k =>
            let s := source adj n k acc.1
            (s.hopcnt, update acc.2 k (fun w => ⟨s.route w, s.entry w⟩)))
          acc
        (table.1, nextHops table.2)
    from h (nodes n) (hopcnt, fun _ _ => ⟨0, none⟩)
  intro l
  induction l with
  | nil => exact fun acc => rfl
  | cons k l ih =>
    intro acc
    rw [foldl_cons, foldl_cons, ← ih]
    rw [nextHops_update, ← source_toRun]

theorem computeRoutes_costs (r : Adjacency E) (hopcnt : ℕ → ℚ) :
    (r.costs.computeRoutes hopcnt).route = some (nextHops (r.computeRoutes hopcnt)) := by
  unfold RouteLogic.computeRoutes computeRoutes
  dsimp only [costs]
  rw [sources_toRun]
  refine congrArg some (foldl_hom nextHops ?_)
  intro route k
  rw [nextHops_update]
  congr 1
  funext w
  by_cases hw : w = k
  · subst hw
    simp only [update_self]
  · simp only [update_of_ne hw, nextHops]

/-! ## Growing -/

/-- After the routes are computed, a route to another node has the link entry that was inserted last for
its first hop. -/
def RoutesLinked (r : Adjacency E) (calls : List (Call E)) : Prop :=
  ∀ hopcnt k w, Node r.size k → k ≠ w → (r.computeRoutes hopcnt k w).nextHop ≠ 0 →
    (r.computeRoutes hopcnt k w).entry = lastEntry calls k (r.computeRoutes hopcnt k w).nextHop

theorem Represents.routesLinked (h : r.Represents calls) : r.RoutesLinked calls := by
  intro hopcnt k w hk hkw hhop
  rcases r.computeRoutes_linked hopcnt hkw with ⟨hzero, -⟩ | ⟨hnode, -, hentry⟩
  · exact absurd hzero hhop
  · have hlink := h k (r.computeRoutes hopcnt k w).nextHop
    rw [lookup, if_pos ⟨hk.2, hnode.2⟩] at hlink
    rw [hentry, hlink]
    rfl

/-- The matrix grows before the first entry. -/
def growing : List (Call ℕ) := [.insert 1 2 1, .insert 1 16 1, .insertEntry 2 16 1 (some 7)]

/-- A link with an entry. -/
def oneLink : Call ℕ := .insertEntry 1 2 1 (some 7)

def grown : Except Stop (Adjacency ℕ) := empty.step oneLink >>= fun r => r.step (.insert 1 16 1)

end Adjacency

end NetSim
