import NetSim.Lib.ShortestPaths
import NetSim.LinkState.Routing

/-! # The routing table

`LsRouting::_computeRoutes` of `linkstate/ls.cc` takes the cheapest of the tentative paths, puts it
among the paths and goes on with the links of the node that it leads to. The tentative paths of a node
are those of the smallest cost met so far, with the next hops that have not been taken yet; a node is
expanded each time that one of its next hops is taken. `Inv` relates both tables to the graph of the
links that are up, and `Closed` says that no link of an expanded node has been missed.
-/

namespace NetSim.LinkState

open List

abbrev lsMaxCost : ℤ := 65534

abbrev lsInvalidCost : ℤ := 65535

structure LsEqualPaths where
  cost : ℤ
  nextHopList : List ℤ
deriving DecidableEq

/-- `LsPaths` and `LsPathsTentative`. -/
abbrev LsPaths := OrderedMap ℤ LsEqualPaths

structure LsPath where
  destination : ℤ
  cost : ℤ
  nextHop : ℤ
deriving DecidableEq

def LsPath.IsValid (path : LsPath) : Prop :=
  path.destination ≠ lsInvalidNodeId ∧ path.cost ≠ lsInvalidCost ∧ path.nextHop ≠ lsInvalidCost

instance (path : LsPath) : Decidable path.IsValid := inferInstanceAs (Decidable (_ ∧ _))

def appendUnique (hops x : List ℤ) : List ℤ :=
  x.foldl (fun hops h => if h ∈ hops then hops else hops ++ [h]) hops

namespace LsPaths

def lookupCost (paths : LsPaths) (destId : ℤ) : ℤ :=
  match paths.find? destId with
  | none => lsMaxCost + 1
  | some ep => ep.cost

def insertPath (paths : LsPaths) (path : LsPath) : LsPaths :=
  match paths.find? path.destination with
  | none => paths.set path.destination ⟨path.cost, [path.nextHop]⟩
  | some ep =>
    if ep.cost < path.cost then paths
    else if path.cost < ep.cost then paths.set path.destination ⟨path.cost, [path.nextHop]⟩
    else if path.nextHop ∈ ep.nextHopList then paths
    else paths.set path.destination ⟨ep.cost, ep.nextHopList ++ [path.nextHop]⟩

def insertNextHopList (paths : LsPaths) (destId cost : ℤ) (nextHopList : List ℤ) : LsPaths :=
  match paths.find? destId with
  | none => paths.set destId ⟨cost, nextHopList⟩
  | some ep =>
    if ep.cost < cost then paths
    else if cost < ep.cost then paths.set destId ⟨cost, nextHopList⟩
    else paths.set destId ⟨ep.cost, appendUnique ep.nextHopList nextHopList⟩

/-- `findMinEqualPaths`: the first entry of the smallest cost below the sentinel. -/
def findMinEqualPaths (paths : LsPaths) : Option (ℤ × LsEqualPaths) :=
  paths.entries.foldl (fun found e =>
    if e.2.cost < found.elim (lsMaxCost + 1) (fun f => f.2.cost) ∧ e.2.nextHopList ≠ [] then some e
    else found) none

/-- `popShortestPath`; nothing stands for the path that is not valid. -/
def popShortestPath (paths : LsPaths) : Option (LsPath × LsPaths) :=
  match findMinEqualPaths paths with
  | none => none
  | some (dest, ep) =>
    match ep.nextHopList with
    | [] => none
    | hop :: rest =>
      some (⟨dest, ep.cost, hop⟩,
        if rest = [] then paths.erase dest else paths.set dest ⟨ep.cost, rest⟩)

end LsPaths

/-- The aborts of `_computeRoutes`. -/
inductive LsError where
  | popShortestPathFailed
  | nhlpNull
deriving DecidableEq

def nextHops (myNodeId : ℤ) (paths : LsPaths) (newNodeId : ℤ) : Except LsError (List ℤ) :=
  if newNodeId = myNodeId then .ok []
  else
    match paths.find? newNodeId with
    | none => .error .nhlpNull
    | some ep => .ok ep.nextHopList

/-- The body of the loop over the links. -/
def insertLink (myNodeId : ℤ) (paths : LsPaths) (newNodeId : ℤ) (nhl : List ℤ) (tentative : LsPaths)
    (link : LsLinkState) : LsPaths :=
  if link.status ≠ .up then tentative
  else
    let pathCost := link.cost + paths.lookupCost newNodeId
    if paths.lookupCost link.neighborId < pathCost then tentative
    else tentative.insertNextHopList link.neighborId pathCost
      (if newNodeId = myNodeId then [link.neighborId] else nhl)

/-- Step 2 of the loop: the links of the new node. -/
def expand (myNodeId : ℤ) (paths : LsPaths) (newNodeId : ℤ) (links : List LsLinkState)
    (tentative : LsPaths) : Except LsError LsPaths :=
  (nextHops myNodeId paths newNodeId).map (fun nhl =>
    links.foldl (insertLink myNodeId paths newNodeId nhl) tentative)

def turn (database : LsTopoMap) (myNodeId : ℤ) (paths tentative : LsPaths) :
    Except LsError (LsPaths × LsPaths) :=
  match tentative.popShortestPath with
  | none => .error .popShortestPathFailed
  | some (sp, tentative) =>
    if ¬ sp.IsValid then .error .popShortestPathFailed
    else
      let paths := paths.insertPath sp
      match database.find? sp.destination with
      | none => .ok (paths, tentative)
      | some links =>
        (expand myNodeId paths sp.destination links tentative).map (fun t => (paths, t))

def routesLoop (database : LsTopoMap) (myNodeId : ℤ) :
    ℕ → LsPaths → LsPaths → Option (Except LsError LsPaths)
  | 0, _, _ => none
  | fuel + 1, paths, tentative =>
    if tentative.entries = [] then some (.ok paths)
    else
      match turn database myNodeId paths tentative with
      | .error e => some (.error e)
      | .ok t => routesLoop database myNodeId fuel t.1 t.2

/-- Step 1: the path to the node itself. -/
def toSelf (myNodeId : ℤ) : LsPaths := OrderedMap.empty.set myNodeId ⟨0, [myNodeId]⟩

def computeRoutes (fuel : ℕ) (database : LsTopoMap) (myNodeId : ℤ) :
    Option (Except LsError LsPaths) :=
  let paths := toSelf myNodeId
  match database.find? myNodeId with
  | none => some (.ok paths)
  | some links =>
    match expand myNodeId paths myNodeId links OrderedMap.empty with
    | .error e => some (.error e)
    | .ok tentative => routesLoop database myNodeId fuel paths tentative

/-! ## Tables -/

namespace LsPaths

variable {paths : LsPaths} {dest v cost : ℤ} {hops nhl : List ℤ} {ep : LsEqualPaths}

theorem lookupCost_some (h : paths.find? v = some ep) : paths.lookupCost v = ep.cost := by
  rw [lookupCost, h]

theorem lookupCost_none (h : paths.find? v = none) : paths.lookupCost v = lsMaxCost + 1 := by
  rw [lookupCost, h]

theorem mem_appendUnique {h : ℤ} (hmem : h ∈ appendUnique hops nhl) : h ∈ hops ∨ h ∈ nhl := by
  unfold appendUnique at hmem
  induction nhl generalizing hops with
  | nil => exact .inl hmem
  | cons x nhl ih =>
    rw [foldl_cons] at hmem
    rcases ih hmem with hmem | hmem
    · split_ifs at hmem
      · exact .inl hmem
      · rcases mem_append.mp hmem with hmem | hmem
        · exact .inl hmem
        · exact .inr (mem_cons.mpr (.inl (mem_singleton.mp hmem)))
    · exact .inr (mem_cons_of_mem _ hmem)

theorem length_appendUnique :
    hops.length ≤ (appendUnique hops nhl).length ∧
      (appendUnique hops nhl).length ≤ hops.length + nhl.length := by
  unfold appendUnique
  induction nhl generalizing hops with
  | nil => exact ⟨le_rfl, le_rfl⟩
  | cons x nhl ih =>
    rw [foldl_cons, length_cons]
    split_ifs
    · obtain ⟨hle, hge⟩ := @ih hops
      omega
    · obtain ⟨hle, hge⟩ := @ih (hops ++ [x])
      rw [length_append, length_singleton] at hle hge
      omega

/-- **`insertNextHopList`**: the entry has the smaller cost and only hops that were there or come in;
other entries stay. -/
theorem insertNextHopList_spec :
    (∃ ep', (paths.insertNextHopList dest cost nhl).find? dest = some ep' ∧ ep'.cost ≤ cost ∧
      ((paths.find? dest = some ep' ∧ ep'.cost < cost) ∨
        (ep'.cost = cost ∧ (∀ ep, paths.find? dest = some ep → cost ≤ ep.cost) ∧
          (nhl ≠ [] → ep'.nextHopList ≠ []) ∧
          ∀ h ∈ ep'.nextHopList, h ∈ nhl ∨ ∃ ep, paths.find? dest = some ep ∧ h ∈ ep.nextHopList))) ∧
    ∀ v, v ≠ dest → (paths.insertNextHopList dest cost nhl).find? v = paths.find? v := by
  unfold insertNextHopList
  cases hfind : paths.find? dest with
  | none =>
    refine ⟨⟨⟨cost, nhl⟩, OrderedMap.find?_set_self, le_rfl, .inr ⟨rfl, ?_, fun h => h, ?_⟩⟩,
      fun v hv => OrderedMap.find?_set_of_ne hv⟩
    · intro ep hep
      cases hep
    · exact fun h hmem => .inl hmem
  | some ep =>
    dsimp only
    split_ifs with hlt hgt
    · exact ⟨⟨ep, hfind, hlt.le, .inl ⟨rfl, hlt⟩⟩, fun v _ => rfl⟩
    · refine ⟨⟨⟨cost, nhl⟩, OrderedMap.find?_set_self, le_rfl, .inr ⟨rfl, ?_, fun h => h, ?_⟩⟩,
        fun v hv => OrderedMap.find?_set_of_ne hv⟩
      · intro ep' hep
        cases hep
        exact hgt.le
      · exact fun h hmem => .inl hmem
    · have hcost : ep.cost = cost := le_antisymm (not_lt.mp hgt) (not_lt.mp hlt)
      refine ⟨⟨_, OrderedMap.find?_set_self, hcost.le, .inr ⟨hcost, ?_, ?_, ?_⟩⟩,
        fun v hv => OrderedMap.find?_set_of_ne hv⟩
      · intro ep' hep
        cases hep
        exact hcost.ge
      · intro hne heq
        have hlen := @length_appendUnique ep.nextHopList nhl
        dsimp only at heq
        rw [heq, length_nil, Nat.le_zero, length_eq_zero_iff] at hlen
        rw [hlen.1] at heq
        cases nhl with
        | nil => exact hne rfl
        | cons x nhl =>
          have hlen' := @length_appendUnique [x] nhl
          have hfirst : appendUnique [] (x :: nhl) = appendUnique [x] nhl := rfl
          rw [hfirst] at heq
          rw [heq] at hlen'
          simp at hlen'
      · intro h hmem
        exact (mem_appendUnique hmem).symm.imp_right (fun hmem => ⟨ep, rfl, hmem⟩)

/-- **`popShortestPath`** takes the first hop of an entry below the sentinel. -/
theorem popShortestPath_some {sp : LsPath} {paths' : LsPaths}
    (h : paths.popShortestPath = some (sp, paths')) :
    ∃ rest, paths.find? sp.destination = some ⟨sp.cost, sp.nextHop :: rest⟩ ∧ sp.cost ≤ lsMaxCost ∧
      paths' = if rest = [] then paths.erase sp.destination
        else paths.set sp.destination ⟨sp.cost, rest⟩ := by
  have hfound : ∀ e, findMinEqualPaths paths = some e → e ∈ paths.entries ∧ e.2.cost ≤ lsMaxCost := by
    have hfold : ∀ (es : List (ℤ × LsEqualPaths)) (found : Option (ℤ × LsEqualPaths)),
        (∀ e, found = some e → e ∈ paths.entries ∧ e.2.cost ≤ lsMaxCost) →
        (∀ e ∈ es, e ∈ paths.entries) → ∀ e, es.foldl (fun found e =>
          if e.2.cost < found.elim (lsMaxCost + 1) (fun f => f.2.cost) ∧ e.2.nextHopList ≠ [] then some e
          else found) found = some e → e ∈ paths.entries ∧ e.2.cost ≤ lsMaxCost := by
      intro es
      induction es with
      | nil => exact fun found hfound _ e he => hfound e he
      | cons f es ih =>
        intro found hfound hes
        rw [foldl_cons]
        refine ih _ ?_ (fun e he => hes e (mem_cons_of_mem _ he))
        intro e he
        split_ifs at he with hlt
        · cases he
          refine ⟨hes _ mem_cons_self, ?_⟩
          cases hf : found with
          | none =>
            rw [hf, Option.elim_none] at hlt
            exact Int.lt_add_one_iff.mp hlt.1
          | some g =>
            rw [hf, Option.elim_some] at hlt
            exact hlt.1.le.trans (hfound g hf).2
        · exact hfound e he
    exact hfold paths.entries none (fun e he => by cases he) (fun e he => he)
  unfold popShortestPath at h
  split at h
  · cases h
  rename_i dest ep hmin
  obtain ⟨hmem, hle⟩ := hfound _ hmin
  split at h
  · cases h
  rename_i hop rest hnhl
  cases h
  refine ⟨rest, ?_, hle, rfl⟩
  rw [OrderedMap.find?_eq_some, ← hnhl]
  exact hmem

theorem popShortestPath_none (h : paths.popShortestPath = none) (hep : paths.find? v = some ep)
    (hne : ep.nextHopList ≠ []) : lsMaxCost < ep.cost := by
  have hmin : findMinEqualPaths paths = none := by
    unfold popShortestPath at h
    cases hmin : findMinEqualPaths paths with
    | none => rfl
    | some e =>
      -- an entry that is found has a hop
      have hfold : ∀ (es : List (ℤ × LsEqualPaths)) (found : Option (ℤ × LsEqualPaths)),
          (∀ e, found = some e → e.2.nextHopList ≠ []) → ∀ e, es.foldl (fun found e =>
            if e.2.cost < found.elim (lsMaxCost + 1) (fun f => f.2.cost) ∧ e.2.nextHopList ≠ []
            then some e else found) found = some e → e.2.nextHopList ≠ [] := by
        intro es
        induction es with
        | nil => exact fun found hfound e he => hfound e he
        | cons f es ih =>
          intro found hfound
          rw [foldl_cons]
          refine ih _ ?_
          intro e he
          split_ifs at he with hlt
          · cases he
            exact hlt.2
          · exact hfound e he
      have hhop := hfold paths.entries none (fun e he => by cases he) e hmin
      rw [hmin] at h
      obtain ⟨dest, ep'⟩ := e
      dsimp only at h hhop
      cases hnhl : ep'.nextHopList with
      | nil => exact absurd hnhl hhop
      | cons hop rest =>
        rw [hnhl] at h
        cases h
  have hfold : ∀ (es : List (ℤ × LsEqualPaths)) (found : Option (ℤ × LsEqualPaths)),
      es.foldl (fun found e =>
        if e.2.cost < found.elim (lsMaxCost + 1) (fun f => f.2.cost) ∧ e.2.nextHopList ≠ [] then some e
        else found) found = none →
      found = none ∧ ∀ e ∈ es, e.2.nextHopList ≠ [] → lsMaxCost < e.2.cost := by
    intro es
    induction es with
    | nil => exact fun found h => ⟨h, fun e he => by cases he⟩
    | cons f es ih =>
      intro found h
      rw [foldl_cons] at h
      obtain ⟨hnone, hrest⟩ := ih _ h
      split_ifs at hnone with hlt
      subst hnone
      refine ⟨rfl, ?_⟩
      intro e he hne
      rcases mem_cons.mp he with rfl | he
      · by_contra hle
        exact hlt ⟨Int.lt_add_one_iff.mpr (not_lt.mp hle), hne⟩
      · exact hrest e he hne
  exact (hfold _ none hmin).2 _ (OrderedMap.find?_eq_some.mp hep) hne

/-- **`insertPath`** of a path that is no worse than the one that is there. -/
theorem insertPath_spec {sp : LsPath} (hle : sp.cost ≤ paths.lookupCost sp.destination) :
    (∃ hops, (paths.insertPath sp).find? sp.destination = some ⟨sp.cost, hops⟩ ∧ sp.nextHop ∈ hops ∧
      ∀ h ∈ hops, h = sp.nextHop ∨
        ∃ ep, paths.find? sp.destination = some ep ∧ h ∈ ep.nextHopList) ∧
    ∀ v, v ≠ sp.destination → (paths.insertPath sp).find? v = paths.find? v := by
  unfold insertPath
  cases hfind : paths.find? sp.destination with
  | none =>
    refine ⟨⟨_, OrderedMap.find?_set_self, mem_cons_self, ?_⟩,
      fun v hv => OrderedMap.find?_set_of_ne hv⟩
    exact fun h hmem => .inl (mem_singleton.mp hmem)
  | some ep =>
    rw [lookupCost_some hfind] at hle
    dsimp only
    rw [if_neg (not_lt.mpr hle)]
    split_ifs with hlt hmem
    · refine ⟨⟨_, OrderedMap.find?_set_self, mem_cons_self, ?_⟩,
        fun v hv => OrderedMap.find?_set_of_ne hv⟩
      exact fun h hmem => .inl (mem_singleton.mp hmem)
    · have hcost : ep.cost = sp.cost := le_antisymm (not_lt.mp hlt) hle
      refine ⟨⟨ep.nextHopList, ?_, hmem, fun h hh => .inr ⟨ep, rfl, hh⟩⟩, fun v _ => rfl⟩
      rw [hfind, ← hcost]
    · have hcost : ep.cost = sp.cost := le_antisymm (not_lt.mp hlt) hle
      refine ⟨⟨ep.nextHopList ++ [sp.nextHop], ?_, by simp, ?_⟩,
        fun v hv => OrderedMap.find?_set_of_ne hv⟩
      · rw [OrderedMap.find?_set_self, hcost]
      · intro h hh
        rcases mem_append.mp hh with hh | hh
        · exact .inr ⟨ep, rfl, hh⟩
        · exact .inl (mem_singleton.mp hh)

end LsPaths

/-! ## The graph -/

/-- A link that is up, from the record of `u`. -/
def Arc (database : LsTopoMap) (u v c : ℤ) : Prop :=
  ∃ links, database.find? u = some links ∧
    ∃ l ∈ links, l.status = .up ∧ l.neighborId = v ∧ l.cost = c

/-- The costs of the links are in the declared range. -/
def CostsInRange (database : LsTopoMap) : Prop :=
  ∀ u links, database.find? u = some links → ∀ l ∈ links, 0 ≤ l.cost ∧ l.cost ≤ lsMaxCost

open ShortestPaths

variable {database : LsTopoMap} {me u v w c k : ℤ}

theorem CostsInRange.arc (h : CostsInRange database) (ha : Arc database u v c) :
    0 ≤ c ∧ c ≤ lsMaxCost := by
  obtain ⟨links, hlinks, l, hl, -, -, rfl⟩ := ha
  exact h u links hlinks l hl

theorem CostsInRange.path (h : CostsInRange database) (hp : Path (Arc database) u v k) : 0 ≤ k := by
  induction hp with
  | nil => exact le_rfl
  | snoc _ ha ih => exact add_nonneg ih (h.arc ha).1

/-! ## The invariant -/

/-- A first hop of a path from the node: a neighbor, or the node itself over a link of cost zero. -/
def Hop (database : LsTopoMap) (me h : ℤ) : Prop :=
  ∃ c, Arc database me h c ∧ (h = me → c = 0)

/-- The tables belong to paths of the graph. -/
structure Inv (database : LsTopoMap) (me : ℤ) (paths tentative : LsPaths) : Prop where
  self : ∃ hops, paths.find? me = some ⟨0, hops⟩
  found : ∀ v ep, paths.find? v = some ep → Path (Arc database) me v ep.cost ∧ ep.cost ≤ lsMaxCost ∧
    (v ≠ me → ep.nextHopList ≠ [] ∧ ∀ h ∈ ep.nextHopList, Hop database me h)
  waiting : ∀ v ep, tentative.find? v = some ep →
    (∃ u k c, Path (Arc database) me u k ∧ Arc database u v c ∧ ep.cost = k + c) ∧
    ep.cost ≤ paths.lookupCost v ∧ ep.nextHopList ≠ [] ∧ ∀ h ∈ ep.nextHopList, Hop database me h

/-- A path to `v` of cost at most `k` is in the tables. -/
def Covered (paths tentative : LsPaths) (v k : ℤ) : Prop :=
  (∃ ep, paths.find? v = some ep ∧ ep.cost ≤ k) ∨ ∃ ep, tentative.find? v = some ep ∧ ep.cost ≤ k

/-- The links of the nodes among the paths have been followed, those of `except` apart. -/
def Closed (database : LsTopoMap) (paths tentative : LsPaths) (except : Option ℤ) : Prop :=
  ∀ u ep, paths.find? u = some ep → except ≠ some u → ∀ v c, Arc database u v c →
    ep.cost + c ≤ lsMaxCost → Covered paths tentative v (ep.cost + c)

variable {paths tentative tentative' : LsPaths}

theorem Inv.lookupCost_le (h : Inv database me paths tentative) : paths.lookupCost v ≤ lsMaxCost + 1 := by
  cases hfind : paths.find? v with
  | none => rw [LsPaths.lookupCost_none hfind]
  | some ep =>
    rw [LsPaths.lookupCost_some hfind]
    have := (h.found v ep hfind).2.1
    omega

/-! ### The links of a node -/

def Cheaper (tentative tentative' : LsPaths) : Prop :=
  ∀ v ep, tentative.find? v = some ep → ∃ ep', tentative'.find? v = some ep' ∧ ep'.cost ≤ ep.cost

theorem Cheaper.refl : Cheaper tentative tentative := fun _ ep h => ⟨ep, h, le_rfl⟩

theorem Cheaper.trans {t₁ t₂ t₃ : LsPaths} (h : Cheaper t₁ t₂) (h' : Cheaper t₂ t₃) :
    Cheaper t₁ t₃ := by
  intro v ep hep
  obtain ⟨ep', hep', hle⟩ := h v ep hep
  obtain ⟨ep'', hep'', hle'⟩ := h' v ep' hep'
  exact ⟨ep'', hep'', hle'.trans hle⟩

theorem Cheaper.covered (h : Cheaper tentative tentative') (hc : Covered paths tentative v k) :
    Covered paths tentative' v k := by
  rcases hc with hc | ⟨ep, hep, hle⟩
  · exact .inl hc
  · obtain ⟨ep', hep', hle'⟩ := h v ep hep
    exact .inr ⟨ep', hep', hle'.trans hle⟩

theorem cheaper_insert {dest cost : ℤ} {nhl : List ℤ} :
    Cheaper tentative (tentative.insertNextHopList dest cost nhl) := by
  obtain ⟨⟨ep', hfind, hle, hcase⟩, hother⟩ :=
    @LsPaths.insertNextHopList_spec tentative dest cost nhl
  intro v ep hep
  by_cases hv : v = dest
  · subst hv
    refine ⟨ep', hfind, ?_⟩
    rcases hcase with ⟨hsame, -⟩ | ⟨hcost, hmin, -⟩
    · rw [hep] at hsame
      cases hsame
      exact le_rfl
    · rw [hcost]
      exact hmin ep hep
  · exact ⟨ep, (hother v hv).trans hep, le_rfl⟩

/-- A link only makes tentative paths cheaper. -/
theorem insertLink_spec (hr : CostsInRange database) (h : Inv database me paths tentative)
    {ep : LsEqualPaths} {nhl : List ℤ} {link : LsLinkState} (hu : paths.find? u = some ep)
    (hnhl : u ≠ me → nhl = ep.nextHopList)
    (hlink : ∃ links, database.find? u = some links ∧ link ∈ links) :
    Inv database me paths (insertLink me paths u nhl tentative link) ∧
      Cheaper tentative (insertLink me paths u nhl tentative link) ∧
      (link.status = .up → link.cost + ep.cost ≤ paths.lookupCost link.neighborId →
        ∃ ep', (insertLink me paths u nhl tentative link).find? link.neighborId = some ep' ∧
          ep'.cost ≤ link.cost + ep.cost) := by
  unfold insertLink
  rw [LsPaths.lookupCost_some hu]
  by_cases hup : link.status = .up
  case neg =>
    rw [if_pos hup]
    exact ⟨h, .refl, fun hup' => absurd hup' hup⟩
  rw [if_neg (not_not.mpr hup)]
  by_cases hlt : paths.lookupCost link.neighborId < link.cost + ep.cost
  · rw [if_pos hlt]
    exact ⟨h, .refl, fun _ hle => absurd hle (not_le.mpr hlt)⟩
  rw [if_neg hlt]
  rw [not_lt] at hlt
  obtain ⟨links, hlinks, hmem⟩ := hlink
  have harc : Arc database u link.neighborId link.cost := ⟨links, hlinks, link, hmem, hup, rfl, rfl⟩
  obtain ⟨hpath, hmax, hhops⟩ := h.found u ep hu
  obtain ⟨⟨ep', hfind, hle, hcase⟩, hother⟩ := @LsPaths.insertNextHopList_spec tentative
    link.neighborId (link.cost + ep.cost) (if u = me then [link.neighborId] else nhl)
  refine ⟨⟨h.self, h.found, ?_⟩, cheaper_insert, fun _ _ => ⟨ep', hfind, hle⟩⟩
  intro v epv hv
  by_cases hvn : v = link.neighborId
  · subst hvn
    rw [hfind] at hv
    cases hv
    rcases hcase with ⟨hsame, -⟩ | ⟨hcost, hmin, hne, hfrom⟩
    · exact h.waiting _ _ hsame
    refine ⟨⟨u, ep.cost, link.cost, hpath, harc, by rw [hcost, add_comm]⟩, by rw [hcost]; exact hlt,
      hne ?_, ?_⟩
    · split_ifs with hme
      · exact cons_ne_nil _ _
      · rw [hnhl hme]
        exact (hhops hme).1
    · intro hop hmem
      rcases hfrom hop hmem with hmem | ⟨epo, hepo, hmem⟩
      · split_ifs at hmem with hme
        · subst hme
          rw [mem_singleton.mp hmem]
          refine ⟨link.cost, harc, ?_⟩
          -- a link back to the node itself is followed only at cost zero
          intro hself
          obtain ⟨hops, hself'⟩ := h.self
          rw [hself, LsPaths.lookupCost_some hself'] at hlt
          rw [hself'] at hu
          cases hu
          have := (hr.arc harc).1
          omega
        · rw [hnhl hme] at hmem
          exact (hhops hme).2 hop hmem
      · exact (h.waiting _ _ hepo).2.2.2 hop hmem
  · rw [hother v hvn] at hv
    exact h.waiting v epv hv

theorem insertLinks_spec (hr : CostsInRange database) (h : Inv database me paths tentative)
    {ep : LsEqualPaths} {nhl : List ℤ} {all links : List LsLinkState} (hu : paths.find? u = some ep)
    (hnhl : u ≠ me → nhl = ep.nextHopList) (hall : database.find? u = some all)
    (hlinks : ∀ l ∈ links, l ∈ all) :
    Inv database me paths (links.foldl (insertLink me paths u nhl) tentative) ∧
      Cheaper tentative (links.foldl (insertLink me paths u nhl) tentative) ∧
      ∀ l ∈ links, l.status = .up → l.cost + ep.cost ≤ paths.lookupCost l.neighborId →
        ∃ ep', (links.foldl (insertLink me paths u nhl) tentative).find? l.neighborId = some ep' ∧
          ep'.cost ≤ l.cost + ep.cost := by
  induction links generalizing tentative with
  | nil => exact ⟨h, .refl, fun l hl => by cases hl⟩
  | cons l links ih =>
    obtain ⟨hinv, hcheap, hfollow⟩ :=
      insertLink_spec hr h hu hnhl ⟨all, hall, hlinks l mem_cons_self⟩
    obtain ⟨hinv', hcheap', hfollow'⟩ := ih hinv (fun l hl => hlinks l (mem_cons_of_mem _ hl))
    refine ⟨hinv', hcheap.trans hcheap', ?_⟩
    intro l' hl' hup hle
    rcases mem_cons.mp hl' with rfl | hl'
    · obtain ⟨ep', hep', hle'⟩ := hfollow hup hle
      obtain ⟨ep'', hep'', hle''⟩ := hcheap' _ _ hep'
      exact ⟨ep'', hep'', hle''.trans hle'⟩
    · exact hfollow' l' hl' hup hle

/-- **Step 2**: the new node's links are followed, and there is no abort. -/
theorem expand_spec (hr : CostsInRange database) (h : Inv database me paths tentative)
    {ep : LsEqualPaths} {links : List LsLinkState} (hu : paths.find? u = some ep)
    (hlinks : database.find? u = some links) :
    ∃ tentative', expand me paths u links tentative = .ok tentative' ∧
      Inv database me paths tentative' ∧ Cheaper tentative tentative' ∧
      (∀ v c, Arc database u v c → ep.cost + c ≤ paths.lookupCost v →
        ∃ ep', tentative'.find? v = some ep' ∧ ep'.cost ≤ ep.cost + c) ∧
      tentative' = links.foldl
        (insertLink me paths u (if u = me then [] else ep.nextHopList)) tentative := by
  have hnext : nextHops me paths u = .ok (if u = me then [] else ep.nextHopList) := by
    unfold nextHops
    split_ifs
    · rfl
    · rw [hu]
  have hnhl : u ≠ me → (if u = me then [] else ep.nextHopList) = ep.nextHopList := fun hme => if_neg hme
  obtain ⟨hinv, hcheap, hfollow⟩ := insertLinks_spec hr h hu hnhl hlinks (fun l hl => hl)
  refine ⟨_, by rw [expand, hnext]; rfl, hinv, hcheap, ?_, rfl⟩
  rintro v c ⟨links', hlinks', l, hl, hup, rfl, rfl⟩ hle
  rw [hlinks] at hlinks'
  cases hlinks'
  rw [add_comm] at hle ⊢
  exact hfollow l hl hup hle

/-! ### Turns of the loop -/

/-- What a turn does with the path `sp` that it takes. -/
structure Turned (database : LsTopoMap) (sp : LsPath) (paths tentative paths' tentative' : LsPaths) :
    Prop where
  taken : ∃ rest, tentative.find? sp.destination = some ⟨sp.cost, sp.nextHop :: rest⟩
  cost_le : sp.cost ≤ lsMaxCost
  found : ∃ hops, paths'.find? sp.destination = some ⟨sp.cost, hops⟩
  other : ∀ v, v ≠ sp.destination → paths'.find? v = paths.find? v
  waiting : ∀ v ep, v ≠ sp.destination → tentative.find? v = some ep →
    ∃ ep', tentative'.find? v = some ep' ∧ ep'.cost ≤ ep.cost
  followed : ∀ v c, Arc database sp.destination v c → sp.cost + c ≤ paths'.lookupCost v →
    ∃ ep', tentative'.find? v = some ep' ∧ ep'.cost ≤ sp.cost + c

theorem lookupCost_eq {paths' : LsPaths} (h : paths'.find? v = paths.find? v) :
    paths'.lookupCost v = paths.lookupCost v := by
  unfold LsPaths.lookupCost
  rw [h]

/-- The cheapest tentative path is final: no way around is cheaper. -/
theorem settle_spec (hr : CostsInRange database) (h : Inv database me paths tentative)
    (hc : Closed database paths tentative none) {sp : LsPath} {rest : List ℤ}
    (hfind : tentative.find? sp.destination = some ⟨sp.cost, sp.nextHop :: rest⟩)
    (hle : sp.cost ≤ lsMaxCost) (htaken : tentative' = if rest = []
      then tentative.erase sp.destination else tentative.set sp.destination ⟨sp.cost, rest⟩) :
    Inv database me (paths.insertPath sp) tentative' ∧
      Closed database (paths.insertPath sp) tentative' (some sp.destination) ∧
      (∀ v, v ≠ sp.destination → tentative'.find? v = tentative.find? v) := by
  obtain ⟨⟨u, k, c, hpath, harc, hcost⟩, hlookup, -, hhops⟩ := h.waiting _ _ hfind
  dsimp only at hcost hlookup hhops
  obtain ⟨⟨hops, hnew, hmem, hfrom⟩, hother⟩ := LsPaths.insertPath_spec hlookup
  have hwait : ∀ v, v ≠ sp.destination → tentative'.find? v = tentative.find? v := by
    intro v hv
    rw [htaken]
    split_ifs
    · exact OrderedMap.find?_erase_of_ne hv
    · exact OrderedMap.find?_set_of_ne hv
  have hto : Path (Arc database) me sp.destination sp.cost := hcost ▸ hpath.snoc harc
  refine ⟨⟨?_, ?_, ?_⟩, ?_, hwait⟩
  · obtain ⟨selfHops, hself⟩ := h.self
    by_cases hme : sp.destination = me
    · rw [hme, LsPaths.lookupCost_some hself] at hlookup
      have hzero : sp.cost = 0 := le_antisymm hlookup (hr.path hto)
      exact ⟨hops, by rw [← hme, hnew, hzero]⟩
    · exact ⟨selfHops, (hother me (Ne.symm hme)).trans hself⟩
  · intro v ep hv
    by_cases hvd : v = sp.destination
    · subst hvd
      rw [hnew] at hv
      cases hv
      refine ⟨hto, hle, fun hme => ⟨ne_nil_of_mem hmem, fun hop hhop => ?_⟩⟩
      rcases hfrom hop hhop with rfl | ⟨ep, hep, hin⟩
      · exact hhops _ mem_cons_self
      · exact ((h.found _ _ hep).2.2 hme).2 hop hin
    · rw [hother v hvd] at hv
      exact h.found v ep hv
  · intro v ep hv
    by_cases hvd : v = sp.destination
    · subst hvd
      rw [htaken] at hv
      split_ifs at hv with hrest
      · rw [OrderedMap.find?_erase_self] at hv
        cases hv
      · rw [OrderedMap.find?_set_self] at hv
        cases hv
        exact ⟨⟨u, k, c, hpath, harc, hcost⟩, (LsPaths.lookupCost_some hnew).ge, hrest,
          fun hop hhop => hhops hop (mem_cons_of_mem _ hhop)⟩
    · rw [hwait v hvd] at hv
      obtain ⟨hp, hl, hrest⟩ := h.waiting v ep hv
      exact ⟨hp, by rw [lookupCost_eq (hother v hvd)]; exact hl, hrest⟩
  · intro u ep hu hne v c harc hmax
    have hud : u ≠ sp.destination := fun heq => hne (by rw [heq])
    rw [hother u hud] at hu
    rcases hc u ep hu (by simp) v c harc hmax with ⟨epv, hv, hvle⟩ | ⟨epv, hv, hvle⟩
    · left
      by_cases hvd : v = sp.destination
      · subst hvd
        rw [LsPaths.lookupCost_some hv] at hlookup
        exact ⟨_, hnew, hlookup.trans hvle⟩
      · exact ⟨epv, (hother v hvd).trans hv, hvle⟩
    · by_cases hvd : v = sp.destination
      · subst hvd
        rw [hfind] at hv
        cases hv
        exact .inl ⟨_, hnew, hvle⟩
      · exact .inr ⟨epv, (hwait v hvd).trans hv, hvle⟩

/-- **A turn that takes a valid path keeps the invariant, and does not abort.** -/
theorem turn_spec (hr : CostsInRange database) (h : Inv database me paths tentative)
    (hc : Closed database paths tentative none) {sp : LsPath} {taken : LsPaths}
    (hpop : tentative.popShortestPath = some (sp, taken)) (hvalid : sp.IsValid) :
    ∃ paths' tentative', turn database me paths tentative = .ok (paths', tentative') ∧
      Inv database me paths' tentative' ∧ Closed database paths' tentative' none ∧
      Turned database sp paths tentative paths' tentative' ∧
      (tentative' = taken ∨ ∃ links hops, database.find? sp.destination = some links ∧
        paths'.find? sp.destination = some ⟨sp.cost, hops⟩ ∧
        tentative' = links.foldl (insertLink me paths' sp.destination
          (if sp.destination = me then [] else hops)) taken) := by
  obtain ⟨rest, hfind, hle, htaken⟩ := LsPaths.popShortestPath_some hpop
  obtain ⟨hinv, hclosed, hwait⟩ := settle_spec hr h hc hfind hle htaken
  obtain ⟨-, hlookup, -⟩ := h.waiting _ _ hfind
  obtain ⟨⟨hops, hnew, -⟩, hother⟩ := LsPaths.insertPath_spec (show sp.cost ≤ _ from hlookup)
  unfold turn
  rw [hpop]
  dsimp only
  rw [if_neg (not_not.mpr hvalid)]
  cases hrec : database.find? sp.destination with
  | none =>
    have hnone : ∀ v c, ¬ Arc database sp.destination v c := by
      rintro v c ⟨links, hlinks, -⟩
      rw [hrec] at hlinks
      cases hlinks
    refine ⟨_, _, rfl, hinv, ?_, ⟨⟨rest, hfind⟩, hle, ⟨hops, hnew⟩, hother, ?_, ?_⟩, .inl rfl⟩
    · intro u ep hu _ v c harc
      refine hclosed u ep hu ?_ v c harc
      rintro heq
      cases heq
      exact hnone v c harc
    · exact fun v ep hv hep => ⟨ep, (hwait v hv).trans hep, le_rfl⟩
    · exact fun v c harc => absurd harc (hnone v c)
  | some links =>
    obtain ⟨tentative'', hexp, hinv', hcheap, hfollow, hfold⟩ := expand_spec hr hinv hnew hrec
    dsimp only
    rw [hexp]
    refine ⟨_, _, rfl, hinv', ?_, ⟨⟨rest, hfind⟩, hle, ⟨hops, hnew⟩, hother, ?_, hfollow⟩,
      .inr ⟨links, hops, rfl, hnew, hfold⟩⟩
    · intro u ep hu _ v c harc hmax
      by_cases hud : u = sp.destination
      · subst hud
        rw [hnew] at hu
        cases hu
        by_cases hlt : sp.cost + c ≤ (paths.insertPath sp).lookupCost v
        · exact .inr (hfollow v c harc hlt)
        · -- the path to `v` that is there already is cheaper
          cases hv : (paths.insertPath sp).find? v with
          | none =>
            rw [LsPaths.lookupCost_none hv] at hlt
            dsimp only at hmax
            omega
          | some epv =>
            rw [LsPaths.lookupCost_some hv] at hlt
            exact .inl ⟨epv, hv, (not_le.mp hlt).le⟩
      · exact hcheap.covered (hclosed u ep hu (fun heq => hud (Option.some.inj heq).symm) v c harc hmax)
    · intro v ep hv hep
      exact hcheap v ep ((hwait v hv).trans hep)

theorem start_spec (hr : CostsInRange database) {links : List LsLinkState}
    (hme : database.find? me = some links) :
    ∃ tentative, expand me (toSelf me) me links OrderedMap.empty =
        .ok tentative ∧
      Inv database me (toSelf me) tentative ∧
      Closed database (toSelf me) tentative none ∧
      ∀ v c, Arc database me v c → v ≠ me ∨ c = 0 → c ≤ lsMaxCost + 1 →
        ∃ ep, tentative.find? v = some ep ∧ ep.cost ≤ c := by
  have honly : ∀ v ep, (toSelf me).find? v = some ep →
      v = me ∧ ep = ⟨0, [me]⟩ := by
    intro v ep hv
    rw [toSelf, OrderedMap.find?_set] at hv
    split_ifs at hv with heq
    · cases hv
      exact ⟨heq, rfl⟩
    · cases hv
  have hself : (toSelf me).find? me = some ⟨0, [me]⟩ :=
    OrderedMap.find?_set_self
  have hinit : Inv database me (toSelf me) OrderedMap.empty := by
    refine ⟨⟨_, hself⟩, ?_, fun v ep hv => by cases hv⟩
    intro v ep hv
    obtain ⟨rfl, rfl⟩ := honly v ep hv
    exact ⟨.nil, Int.natCast_nonneg 65534, fun hne => absurd rfl hne⟩
  obtain ⟨tentative, hexp, hinv, -, hfollow, -⟩ := expand_spec hr hinit hself hme
  refine ⟨tentative, hexp, hinv, ?_, ?_⟩
  · intro u ep hu _ v c harc hmax
    obtain ⟨rfl, rfl⟩ := honly u ep hu
    by_cases hle : 0 + c ≤ (toSelf u).lookupCost v
    · exact .inr (hfollow v c harc hle)
    · by_cases hv : v = u
      · subst hv
        exact .inl ⟨_, hself, by have := (hr.arc harc).1; omega⟩
      · have hnone : (toSelf u).find? v = none := by
          rw [toSelf, OrderedMap.find?_set_of_ne hv]
          rfl
        rw [LsPaths.lookupCost_none hnone] at hle
        dsimp only at hmax
        omega
  · intro v c harc hcase hmax
    have hle : 0 + c ≤ (toSelf me).lookupCost v := by
      by_cases hv : v = me
      · rcases hcase with hne | rfl
        · exact absurd hv hne
        · rw [hv, LsPaths.lookupCost_some hself]
          exact le_rfl
      · have hnone : (toSelf me).find? v = none := by
          rw [toSelf, OrderedMap.find?_set_of_ne hv]
          rfl
        rw [LsPaths.lookupCost_none hnone]
        omega
    obtain ⟨ep, hep, hcost⟩ := hfollow v c harc hle
    exact ⟨ep, hep, by dsimp only at hcost; omega⟩

/-- **When nothing is tentative the paths are complete**: every node at a cost up to the largest is
there, at no more than the cost of any path. -/
theorem complete (hr : CostsInRange database) (h : Inv database me paths tentative)
    (hc : Closed database paths tentative none) (hempty : ∀ v ep, tentative.find? v = some ep →
      lsMaxCost < ep.cost) (hp : Path (Arc database) me v k) (hk : k ≤ lsMaxCost) :
    ∃ ep, paths.find? v = some ep ∧ ep.cost ≤ k := by
  induction hp with
  | nil =>
    obtain ⟨hops, hself⟩ := h.self
    exact ⟨_, hself, le_rfl⟩
  | @snoc u w k c hp harc ih =>
    have hc0 := (hr.arc harc).1
    obtain ⟨ep, hep, hle⟩ := ih (by omega)
    rcases hc u ep hep (by simp) w c harc (by omega) with ⟨epw, hw, hwle⟩ | ⟨epw, hw, hwle⟩
    · exact ⟨epw, hw, by omega⟩
    · have := hempty w epw hw
      omega

end NetSim.LinkState
