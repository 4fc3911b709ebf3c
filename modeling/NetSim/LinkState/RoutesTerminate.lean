import NetSim.LinkState.ComputeRoutes

/-! # When the route computation ends

`_computeRoutes` comes to its end, and without an abort, exactly for the databases that are
`Harmless` (`routes_end_iff`). A cycle of links of cost zero within reach keeps the loop going; a node
whose cheapest path costs exactly one more than the largest cost becomes tentative and is never taken;
and a node with the invalid id is taken for a path that is not valid. Otherwise each turn replaces one
tentative hop by finitely many that are dearer, or as dear and nearer to the end of the links of cost
zero, so that the multiset of their ranks goes down.
-/

namespace NetSim.LinkState

open List ShortestPaths

variable {database : LsTopoMap} {me u v w c k d : ℤ} {paths tentative paths' tentative' : LsPaths}

/-! ## The condition -/

/-- A way back to `u` over links of cost zero. -/
def ZeroCycle (database : LsTopoMap) (u : ℤ) : Prop :=
  ∃ v, Arc database u v 0 ∧ Path (Arc database) v u 0

/-- Nothing in reach makes the loop go on for ever or abort. -/
structure Harmless (database : LsTopoMap) (me : ℤ) : Prop where
  acyclic : ∀ u k, Path (Arc database) me u k → k ≤ lsMaxCost → ¬ ZeroCycle database u
  below : ∀ v, ¬ IsDist (Arc database) me v (lsMaxCost + 1)
  valid : me ≠ lsInvalidNodeId → ∀ k, Path (Arc database) me lsInvalidNodeId k → lsMaxCost < k

/-- `_computeRoutes` comes to its end and returns a table. -/
def Ends (database : LsTopoMap) (me : ℤ) : Prop :=
  ∃ fuel paths, computeRoutes fuel database me = some (.ok paths)

theorem CostsInRange.zero_of_path (hr : CostsInRange database) (ha : Arc database u v c)
    (hp : Path (Arc database) v w k) (h : c + k = 0) : c = 0 ∧ k = 0 := by
  have hc := (hr.arc ha).1
  have hk := hr.path hp
  omega

theorem CostsInRange.dist_self (hr : CostsInRange database) (h : IsDist (Arc database) me me d) :
    d = 0 := le_antisymm (h.2 0 .nil) (hr.path h.1)

theorem CostsInRange.exists_dist (hr : CostsInRange database) (h : Path (Arc database) me v k) :
    ∃ d, IsDist (Arc database) me v d ∧ d ≤ k := by
  obtain ⟨d, hd, hmin⟩ := Int.exists_least_of_bdd (P := fun d => Path (Arc database) me v d)
    ⟨0, fun d hd => hr.path hd⟩ ⟨k, h⟩
  exact ⟨d, ⟨hd, hmin⟩, hmin k h⟩

/-! ## A loop that has ended -/

theorem loop_keeps (hr : CostsInRange database) {J : LsPaths → LsPaths → Prop}
    (hJ : ∀ {paths tentative paths' tentative' : LsPaths} {sp : LsPath},
      Inv database me paths tentative → Inv database me paths' tentative' → sp.IsValid →
      Turned database sp paths tentative paths' tentative' → J paths tentative → J paths' tentative')
    {fuel : ℕ} {table : LsPaths} (h : Inv database me paths tentative)
    (hc : Closed database paths tentative none) (hstart : J paths tentative)
    (hrun : routesLoop database me fuel paths tentative = some (.ok table)) :
    ∃ tentative', tentative'.entries = [] ∧ Inv database me table tentative' ∧
      Closed database table tentative' none ∧ J table tentative' := by
  induction fuel generalizing paths tentative with
  | zero => cases hrun
  | succ fuel ih =>
    rw [routesLoop] at hrun
    by_cases hempty : tentative.entries = []
    · rw [if_pos hempty] at hrun
      cases hrun
      exact ⟨tentative, hempty, h, hc, hstart⟩
    rw [if_neg hempty] at hrun
    cases hpop : tentative.popShortestPath with
    | none =>
      rw [turn, hpop] at hrun
      cases hrun
    | some t =>
      obtain ⟨sp, taken⟩ := t
      by_cases hvalid : sp.IsValid
      · obtain ⟨paths', tentative', hturn, h', hc', hturned, -⟩ := turn_spec hr h hc hpop hvalid
        rw [hturn] at hrun
        exact ih h' hc' (hJ h h' hvalid hturned hstart) hrun
      · rw [turn, hpop] at hrun
        dsimp only at hrun
        rw [if_pos hvalid] at hrun
        cases hrun

theorem not_mem_empty (h : tentative.entries = []) {ep : LsEqualPaths} :
    tentative.find? v ≠ some ep := by
  intro hv
  rw [OrderedMap.find?_eq_some, h] at hv
  cases hv

theorem table_dist (hr : CostsInRange database) (h : Inv database me paths tentative)
    (hc : Closed database paths tentative none) (hempty : tentative.entries = [])
    (hd : IsDist (Arc database) me v d) (hle : d ≤ lsMaxCost) :
    ∃ ep, paths.find? v = some ep ∧ ep.cost = d := by
  obtain ⟨ep, hep, hcost⟩ := complete hr h hc (fun v ep hv => absurd hv (not_mem_empty hempty)) hd.1 hle
  exact ⟨ep, hep, le_antisymm hcost (hd.2 _ (h.found v ep hep).1)⟩

/-- What holds at first and is kept by every turn holds when `_computeRoutes` has ended. -/
theorem ends_keeps (hr : CostsInRange database) {J : LsPaths → LsPaths → Prop}
    (hJ : ∀ {paths tentative paths' tentative' : LsPaths} {sp : LsPath},
      Inv database me paths tentative → Inv database me paths' tentative' → sp.IsValid →
      Turned database sp paths tentative paths' tentative' → J paths tentative → J paths' tentative')
    (hstart : ∀ tentative, (∀ v c, Arc database me v c → v ≠ me ∨ c = 0 → c ≤ lsMaxCost + 1 →
      ∃ ep, tentative.find? v = some ep ∧ ep.cost ≤ c) → J (toSelf me) tentative)
    (hends : Ends database me) (hrecord : database.find? me ≠ none) :
    ∃ table tentative, tentative.entries = [] ∧ Inv database me table tentative ∧
      Closed database table tentative none ∧ J table tentative := by
  obtain ⟨fuel, table, hrun⟩ := hends
  obtain ⟨links, hlinks⟩ := Option.ne_none_iff_exists'.mp hrecord
  obtain ⟨tentative, hexp, h, hc, hfollow⟩ := start_spec hr hlinks
  unfold computeRoutes at hrun
  rw [hlinks] at hrun
  dsimp only at hrun
  rw [hexp] at hrun
  obtain ⟨tentative', hempty, h', hc', hj⟩ := loop_keeps hr hJ h hc (hstart tentative hfollow) hrun
  exact ⟨table, tentative', hempty, h', hc', hj⟩

theorem toSelf_find {ep : LsEqualPaths} (h : (toSelf me).find? v = some ep) :
    v = me ∧ ep.cost = 0 := by
  rw [toSelf, OrderedMap.find?_set] at h
  split_ifs at h with heq
  · cases h
    exact ⟨heq, rfl⟩
  · cases h

theorem path_of_no_record (hrecord : database.find? me = none) (h : Path (Arc database) me v k) :
    v = me ∧ k = 0 := by
  rcases h.uncons with ⟨rfl, rfl⟩ | ⟨x, c, j, ⟨links, hlinks, -⟩, -⟩
  · exact ⟨rfl, rfl⟩
  · rw [hrecord] at hlinks
    cases hlinks

/-- The nodes of a cycle of cost zero through `u`, all at the cost of `u`. -/
structure OnCycle (database : LsTopoMap) (u z : ℤ) : Prop where
  out : Path (Arc database) u z 0
  back : Path (Arc database) z u 0

theorem OnCycle.dist {z : ℤ} (h : OnCycle database u z) (hd : IsDist (Arc database) me u d) :
    IsDist (Arc database) me z d := by
  refine ⟨?_, fun k hk => hd.2 k ?_⟩
  · have := hd.1.append h.out
    rwa [add_zero] at this
  · have := hk.append h.back
    rwa [add_zero] at this

theorem OnCycle.next (hr : CostsInRange database) (hu : ZeroCycle database u) {z : ℤ}
    (h : OnCycle database u z) : ∃ z', Arc database z z' 0 ∧ OnCycle database u z' := by
  have hstep : ∀ z', Arc database z z' 0 → Path (Arc database) z' u 0 → OnCycle database u z' := by
    intro z' harc hback
    refine ⟨?_, hback⟩
    have := h.out.snoc harc
    rwa [add_zero] at this
  rcases h.back.uncons with ⟨rfl, -⟩ | ⟨z', c, k, harc, hback, hsum⟩
  · obtain ⟨v, harc, hback⟩ := hu
    exact ⟨v, harc, hstep v harc hback⟩
  · obtain ⟨rfl, rfl⟩ := hr.zero_of_path harc hback hsum.symm
    exact ⟨z', harc, hstep z' harc hback⟩

theorem Ends.acyclic (hr : CostsInRange database) (h : Ends database me)
    (hp : Path (Arc database) me u k) (hk : k ≤ lsMaxCost) : ¬ ZeroCycle database u := by
  intro hcycle
  obtain ⟨d, hd, hdk⟩ := hr.exists_dist hp
  have hrecord : database.find? me ≠ none := by
    intro hnone
    obtain ⟨rfl, -⟩ := path_of_no_record hnone hp
    obtain ⟨v, ⟨links, hlinks, -⟩, -⟩ := hcycle
    rw [hnone] at hlinks
    cases hlinks
  have hself : OnCycle database u u := ⟨.nil, .nil⟩
  -- some node of the cycle is tentative, or none of them has been reached at its cost
  obtain ⟨table, tentative, hempty, hinv, hclosed, hj⟩ := ends_keeps hr
    (J := fun paths tentative =>
      (∃ z ep, OnCycle database u z ∧ tentative.find? z = some ep ∧ ep.cost ≤ d) ∨
        ∀ z ep, OnCycle database u z → paths.find? z = some ep → ep.cost ≠ d)
    (by
      intro paths tentative paths' tentative' sp hinv hinv' _ hturn hj
      by_cases hon : OnCycle database u sp.destination ∧ sp.cost = d
      · obtain ⟨hz, hcost⟩ := hon
        obtain ⟨z', harc, hz'⟩ := hz.next hr hcycle
        left
        have hle : sp.cost + 0 ≤ paths'.lookupCost z' := by
          rw [hcost, add_zero]
          cases hfind : paths'.find? z' with
          | none =>
            rw [LsPaths.lookupCost_none hfind]
            omega
          | some ep =>
            rw [LsPaths.lookupCost_some hfind]
            exact (hz'.dist hd).2 _ (hinv'.found z' ep hfind).1
        obtain ⟨ep, hep, hcost'⟩ := hturn.followed z' 0 harc hle
        exact ⟨z', ep, hz', hep, by omega⟩
      rcases hj with ⟨z, ep, hz, hep, hle⟩ | hnone
      · by_cases hzd : z = sp.destination
        · -- the path that is taken would have the cost of the cycle
          obtain ⟨rest, htaken⟩ := hturn.taken
          rw [hzd, htaken] at hep
          cases hep
          obtain ⟨⟨x, j, c, hpath, harc, hsum⟩, -⟩ := hinv.waiting _ _ htaken
          have hge := (hz.dist hd).2 _ (hzd ▸ hpath.snoc harc)
          dsimp only at hsum hle
          exact absurd ⟨hzd ▸ hz, by omega⟩ hon
        · obtain ⟨ep', hep', hle'⟩ := hturn.waiting z ep hzd hep
          exact .inl ⟨z, ep', hz, hep', hle'.trans hle⟩
      · right
        intro z ep hz hep
        by_cases hzd : z = sp.destination
        · obtain ⟨hops, hfound⟩ := hturn.found
          rw [hzd, hfound] at hep
          cases hep
          exact fun hcost => hon ⟨hzd ▸ hz, hcost⟩
        · rw [hturn.other z hzd] at hep
          exact hnone z ep hz hep)
    (by
      intro tentative hfollow
      by_cases hme : OnCycle database u me
      · left
        obtain ⟨z, harc, hz⟩ := hme.next hr hcycle
        obtain ⟨ep, hep, hcost⟩ := hfollow z 0 harc (.inr rfl) (by decide)
        rw [hr.dist_self (hme.dist hd)]
        exact ⟨z, ep, hz, hep, hcost⟩
      · right
        intro z ep hz hep
        obtain ⟨rfl, -⟩ := toSelf_find hep
        exact absurd hz hme)
    h hrecord
  obtain ⟨ep, hep, hcost⟩ := table_dist hr hinv hclosed hempty hd (hdk.trans hk)
  rcases hj with ⟨z, ep', -, hep', -⟩ | hnone
  · exact not_mem_empty hempty hep'
  · exact hnone u ep hself hep hcost

theorem exists_last_link (hr : CostsInRange database)
    (h : IsDist (Arc database) me v (lsMaxCost + 1)) :
    ∃ u w k c, IsDist (Arc database) me w (lsMaxCost + 1) ∧ IsDist (Arc database) me u k ∧
      k ≤ lsMaxCost ∧ Arc database u w c ∧ k + c = lsMaxCost + 1 := by
  obtain ⟨hp, hmin⟩ := h
  generalize hcost : lsMaxCost + 1 = d at hp hmin ⊢
  induction hp with
  | nil => exact absurd hcost (by decide)
  | @snoc u w k c hp harc ih =>
    have hu : ∀ j, Path (Arc database) me u j → k ≤ j := by
      intro j hj
      have := hmin _ (hj.snoc harc)
      omega
    by_cases hk : k ≤ lsMaxCost
    · exact ⟨u, w, k, c, ⟨hp.snoc harc, hmin⟩, ⟨hp, hu⟩, hk, harc, rfl⟩
    · -- the link costs nothing, and the node in front of it costs the same
      have hzero : c = 0 := by
        have := (hr.arc harc).1
        omega
      subst hzero
      rw [add_zero] at hcost ⊢
      exact ih hcost hu

/-- **A node whose cheapest path has the sentinel's cost stays tentative.** -/
theorem Ends.below (hr : CostsInRange database) (h : Ends database me) :
    ¬ IsDist (Arc database) me v (lsMaxCost + 1) := by
  intro hv
  obtain ⟨u, w, k, c, hw, hu, hk, harc, hsum⟩ := exists_last_link hr hv
  have hrecord : database.find? me ≠ none := by
    intro hnone
    exact absurd (path_of_no_record hnone hw.1).2 (by decide)
  have hme : u ≠ me := by
    rintro rfl
    have hzero := hr.dist_self hu
    have hmax := (hr.arc harc).2
    rw [hzero, zero_add] at hsum
    rw [hsum] at hmax
    exact absurd hmax (by decide)
  obtain ⟨table, tentative, hempty, hinv, hclosed, hj⟩ := ends_keeps hr
    (J := fun paths tentative => (∃ ep, tentative.find? w = some ep) ∨
      ∀ ep, paths.find? u = some ep → ep.cost ≠ k)
    (by
      intro paths tentative paths' tentative' sp hinv hinv' _ hturn hj
      by_cases htake : sp.destination = u ∧ sp.cost = k
      · obtain ⟨hdest, hcost⟩ := htake
        left
        have hle : sp.cost + c ≤ paths'.lookupCost w := by
          cases hfind : paths'.find? w with
          | none =>
            rw [LsPaths.lookupCost_none hfind]
            omega
          | some ep =>
            -- a path in the table costs less than the sentinel
            obtain ⟨hpath, hmax, -⟩ := hinv'.found w ep hfind
            have := hw.2 _ hpath
            omega
        obtain ⟨ep, hep, -⟩ := hturn.followed w c (hdest ▸ harc) hle
        exact ⟨ep, hep⟩
      rcases hj with ⟨ep, hep⟩ | hnone
      · left
        have hwd : w ≠ sp.destination := by
          rintro rfl
          obtain ⟨rest, htaken⟩ := hturn.taken
          obtain ⟨⟨x, j, e, hpath, hlast, hcost⟩, -⟩ := hinv.waiting _ _ htaken
          have hge := hw.2 _ (hpath.snoc hlast)
          have hle := hturn.cost_le
          dsimp only at hcost
          omega
        obtain ⟨ep', hep', -⟩ := hturn.waiting w ep hwd hep
        exact ⟨ep', hep'⟩
      · right
        intro ep hep
        by_cases hud : u = sp.destination
        · obtain ⟨hops, hfound⟩ := hturn.found
          rw [hud, hfound] at hep
          cases hep
          exact fun hcost => htake ⟨hud.symm, hcost⟩
        · rw [hturn.other u hud] at hep
          exact hnone ep hep)
    (by
      intro tentative _
      right
      intro ep hep
      exact absurd (toSelf_find hep).1 hme)
    h hrecord
  obtain ⟨ep, hep, hcost⟩ := table_dist hr hinv hclosed hempty hu hk
  rcases hj with ⟨ep', hep'⟩ | hnone
  · exact not_mem_empty hempty hep'
  · exact hnone ep hep hcost

theorem Ends.valid (hr : CostsInRange database) (h : Ends database me)
    (hme : me ≠ lsInvalidNodeId) (hp : Path (Arc database) me lsInvalidNodeId k) :
    lsMaxCost < k := by
  by_contra hk
  rw [not_lt] at hk
  have hrecord : database.find? me ≠ none :=
    fun hnone => hme (path_of_no_record hnone hp).1.symm
  obtain ⟨table, tentative, hempty, hinv, hclosed, hj⟩ := ends_keeps hr
    (J := fun paths _ => paths.find? lsInvalidNodeId = none)
    (by
      intro paths tentative paths' tentative' sp _ _ hvalid hturn hj
      rw [hturn.other _ (Ne.symm hvalid.1)]
      exact hj)
    (by
      intro tentative _
      cases hfind : (toSelf me).find? lsInvalidNodeId with
      | none => rfl
      | some ep => exact absurd (toSelf_find hfind).1.symm hme)
    h hrecord
  obtain ⟨d, hd, hdk⟩ := hr.exists_dist hp
  obtain ⟨ep, hep, -⟩ := table_dist hr hinv hclosed hempty hd (hdk.trans hk)
  rw [hj] at hep
  cases hep

/-! ## No abort -/

theorem Harmless.pop (hh : Harmless database me) (hr : CostsInRange database)
    (h : Inv database me paths tentative) (hc : Closed database paths tentative none)
    (hne : tentative.entries ≠ []) :
    ∃ sp taken, tentative.popShortestPath = some (sp, taken) ∧ sp.IsValid := by
  cases hpop : tentative.popShortestPath with
  | none =>
    exfalso
    have hall : ∀ v ep, tentative.find? v = some ep → lsMaxCost < ep.cost := fun v ep hv =>
      LsPaths.popShortestPath_none hpop hv (h.waiting v ep hv).2.2.1
    obtain ⟨⟨v, ep⟩, hmem⟩ := exists_mem_of_ne_nil _ hne
    have hv := OrderedMap.find?_eq_some.mpr hmem
    obtain ⟨⟨u, k, c, hpath, harc, hcost⟩, hle, -⟩ := h.waiting v ep hv
    have hlookup := h.lookupCost_le (v := v)
    have hgt := hall v ep hv
    have heq : k + c = lsMaxCost + 1 := by omega
    refine hh.below v ⟨heq ▸ hpath.snoc harc, fun j hj => ?_⟩
    by_contra hlt
    obtain ⟨epv, hepv, hcostv⟩ := complete hr h hc hall hj (by omega)
    rw [LsPaths.lookupCost_some hepv] at hle
    omega
  | some t =>
    obtain ⟨sp, taken⟩ := t
    refine ⟨sp, taken, rfl, ?_⟩
    obtain ⟨rest, hfind, hle, -⟩ := LsPaths.popShortestPath_some hpop
    obtain ⟨⟨u, k, c, hpath, harc, hcost⟩, hlookup, -, hhops⟩ := h.waiting _ _ hfind
    dsimp only at hcost hlookup hhops
    have hto := hpath.snoc harc
    refine ⟨?_, ?_, ?_⟩
    · intro hdest
      by_cases hme : me = lsInvalidNodeId
      · -- the node itself is tentative only on a cycle of cost zero
        obtain ⟨hops, hself⟩ := h.self
        rw [hdest, ← hme, LsPaths.lookupCost_some hself] at hlookup
        have hk := hr.path hpath
        have hc0 := (hr.arc harc).1
        dsimp only at hlookup
        have hk0 : k = 0 := by omega
        have hc00 : c = 0 := by omega
        subst hk0
        subst hc00
        rw [hdest, ← hme] at harc
        refine hh.acyclic me 0 .nil (by decide) ?_
        rcases hpath.uncons with ⟨rfl, -⟩ | ⟨x, e, j, hfirst, hrest, hsum⟩
        · exact ⟨me, harc, .nil⟩
        · obtain ⟨rfl, rfl⟩ := hr.zero_of_path hfirst hrest hsum.symm
          exact ⟨x, hfirst, by simpa using hrest.snoc harc⟩
      · have := hh.valid hme _ (hdest ▸ hto)
        omega
    · intro hinvalid
      rw [hinvalid] at hle
      exact absurd hle (by decide)
    · intro hhop
      obtain ⟨e, hfirst, hback⟩ := hhops _ mem_cons_self
      by_cases hme : sp.nextHop = me
      · rw [hme, hback hme] at hfirst
        exact hh.acyclic me 0 .nil (by decide) ⟨me, hfirst, .nil⟩
      · have hne : me ≠ lsInvalidNodeId := fun heq => hme (hhop.trans heq.symm)
        have hone := hh.valid hne _ (hhop ▸ Path.snoc .nil hfirst)
        have := (hr.arc hfirst).2
        omega

/-! ## Ranks -/

/-- The nodes behind `v` on links of cost zero. -/
def zeroReach (database : LsTopoMap) (v : ℤ) : Set ℤ :=
  {w | ∃ u, Arc database v u 0 ∧ Path (Arc database) u w 0}

theorem zeroReach_finite : (zeroReach database v).Finite := by
  have hfin : {w : ℤ | ∃ u c, Arc database u w c}.Finite := by
    apply (finite_toSet ((database.entries.flatMap (fun e => e.2)).map
      LsLinkState.neighborId)).subset
    rintro w ⟨u, c, links, hlinks, l, hl, -, rfl, -⟩
    have hmem : (u, links) ∈ database.entries := OrderedMap.find?_eq_some.mp hlinks
    exact mem_map.mpr ⟨l, mem_flatMap.mpr ⟨_, hmem, hl⟩, rfl⟩
  apply hfin.subset
  have hlast : ∀ u w k, Path (Arc database) u w k → w = u ∨ ∃ x c, Arc database x w c := by
    intro u w k hpath
    cases hpath with
    | nil => exact .inl rfl
    | snoc _ hlast => exact .inr ⟨_, _, hlast⟩
  rintro w ⟨u, harc, hpath⟩
  rcases hlast u w 0 hpath with rfl | hlast
  · exact ⟨v, 0, harc⟩
  · exact hlast

/-- The cost that is left, and the number of nodes behind `v` on links of cost zero. -/
noncomputable def rank (database : LsTopoMap) (v cost : ℤ) : ℕ ×ₗ ℕ :=
  toLex ((lsMaxCost + 1 - cost).toNat, (zeroReach database v).ncard)

theorem Harmless.rank_lt (hh : Harmless database me) (hr : CostsInRange database)
    (hp : Path (Arc database) me u k) (hk : k ≤ lsMaxCost) (harc : Arc database u v c) :
    rank database v (k + c) < rank database u k := by
  rw [rank, rank, Prod.Lex.lt_iff]
  have hc := (hr.arc harc).1
  rcases hc.eq_or_lt with rfl | hpos
  · right
    dsimp only [ofLex_toLex]
    refine ⟨by rw [add_zero], ?_⟩
    apply Set.ncard_lt_ncard _ zeroReach_finite
    rw [Set.ssubset_iff_of_subset]
    · refine ⟨v, ⟨v, harc, .nil⟩, ?_⟩
      rintro ⟨w, hnext, hback⟩
      exact hh.acyclic v (k + 0) (hp.snoc harc) (by omega) ⟨w, hnext, hback⟩
    · rintro w ⟨x, hnext, hpath⟩
      refine ⟨v, harc, ?_⟩
      have := Path.cons hnext hpath
      rwa [add_zero] at this
  · left
    dsimp only [ofLex_toLex]
    omega

/-- The ranks of the tentative hops. -/
noncomputable def weights (database : LsTopoMap) (tentative : LsPaths) : Multiset (ℕ ×ₗ ℕ) :=
  tentative.sum (fun v ep => Multiset.replicate ep.nextHopList.length (rank database v ep.cost))

theorem weights_insert {dest cost : ℤ} {nhl : List ℤ} :
    weights database (tentative.insertNextHopList dest cost nhl) ≤
      weights database tentative + Multiset.replicate nhl.length (rank database dest cost) := by
  have hset := fun ep : LsEqualPaths => OrderedMap.sum_set (m := tentative) (k := dest) (a := ep)
    (f := fun v ep => Multiset.replicate ep.nextHopList.length (rank database v ep.cost))
  unfold LsPaths.insertNextHopList
  cases hfind : tentative.find? dest with
  | none =>
    have := hset ⟨cost, nhl⟩
    rw [hfind, Option.elim_none, add_zero] at this
    exact this.le
  | some ep =>
    dsimp only
    split_ifs with hlt hgt
    · exact Multiset.le_add_right _ _
    · have := hset ⟨cost, nhl⟩
      exact (Multiset.le_add_right _ _).trans this.le
    · have hcost : ep.cost = cost := le_antisymm (not_lt.mp hgt) (not_lt.mp hlt)
      have := hset ⟨ep.cost, appendUnique ep.nextHopList nhl⟩
      rw [hfind, Option.elim_some] at this
      have hlen := (@LsPaths.length_appendUnique ep.nextHopList nhl).2
      rw [← hcost]
      apply le_of_add_le_add_right (a := Multiset.replicate ep.nextHopList.length
        (rank database dest ep.cost))
      rw [weights, this, add_assoc, add_comm (Multiset.replicate nhl.length _),
        ← Multiset.replicate_add]
      exact add_le_add_right ((Multiset.replicate_le_replicate _).mpr hlen) _

theorem weights_links (me : ℤ) (tentative : LsPaths) {ep : LsEqualPaths} (nhl : List ℤ)
    {all links : List LsLinkState}
    (hu : paths.find? u = some ep) (hall : database.find? u = some all)
    (hlinks : ∀ l ∈ links, l ∈ all) :
    ∃ added : Multiset (ℕ ×ₗ ℕ),
      weights database (links.foldl (insertLink me paths u nhl) tentative) ≤
        weights database tentative + added ∧
      ∀ r ∈ added, ∃ v c, Arc database u v c ∧ r = rank database v (ep.cost + c) := by
  induction links generalizing tentative with
  | nil => exact ⟨0, (add_zero _).ge, fun r hr => absurd hr (Multiset.notMem_zero r)⟩
  | cons l links ih =>
    obtain ⟨added, hle, hadded⟩ := @ih (insertLink me paths u nhl tentative l)
      (fun l hl => hlinks l (mem_cons_of_mem _ hl))
    rw [foldl_cons]
    by_cases hskip : l.status ≠ .up ∨ paths.lookupCost l.neighborId < l.cost + paths.lookupCost u
    · have hsame : insertLink me paths u nhl tentative l = tentative := by
        unfold insertLink
        rcases hskip with hdown | hlt
        · rw [if_pos hdown]
        · by_cases hdown : l.status ≠ .up
          · rw [if_pos hdown]
          · rw [if_neg hdown]
            exact if_pos hlt
      rw [hsame] at hle ⊢
      exact ⟨added, hle, hadded⟩
    · obtain ⟨hup, hge⟩ := not_or.mp hskip
      refine ⟨Multiset.replicate (if u = me then [l.neighborId] else nhl).length
        (rank database l.neighborId (l.cost + ep.cost)) + added, ?_, ?_⟩
      · refine hle.trans ?_
        rw [← add_assoc]
        apply add_le_add_left
        unfold insertLink
        rw [if_neg hup]
        rw [if_neg hge, LsPaths.lookupCost_some hu]
        exact weights_insert
      · intro r hrmem
        rcases Multiset.mem_add.mp hrmem with hrmem | hrmem
        · refine ⟨l.neighborId, l.cost, ⟨all, hall, l, hlinks l mem_cons_self,
            not_not.mp hup, rfl, rfl⟩, ?_⟩
          rw [Multiset.eq_of_mem_replicate hrmem, add_comm]
        · exact hadded r hrmem

theorem weights_taken {sp : LsPath} {rest : List ℤ}
    (hfind : tentative.find? sp.destination = some ⟨sp.cost, sp.nextHop :: rest⟩)
    (htaken : tentative' = if rest = [] then tentative.erase sp.destination
      else tentative.set sp.destination ⟨sp.cost, rest⟩) :
    weights database tentative' + {rank database sp.destination sp.cost} =
      weights database tentative := by
  subst htaken
  unfold weights
  split_ifs with hrest
  · have := OrderedMap.sum_erase (m := tentative) (k := sp.destination)
      (f := fun v ep => Multiset.replicate ep.nextHopList.length (rank database v ep.cost))
    rw [hfind, Option.elim_some] at this
    rw [← this, hrest]
    rfl
  · have := OrderedMap.sum_set (m := tentative) (k := sp.destination) (a := ⟨sp.cost, rest⟩)
      (f := fun v ep => Multiset.replicate ep.nextHopList.length (rank database v ep.cost))
    rw [hfind, Option.elim_some] at this
    rw [length_cons, Multiset.replicate_add, ← add_assoc, Multiset.replicate_one] at this
    rw [add_right_comm] at this
    exact add_right_cancel this

theorem dershowitzManna_of_le {α : Type} [Preorder α] [DecidableEq α] {M N added : Multiset α} {a : α}
    (h : M ≤ N + added) (hadded : ∀ b ∈ added, b < a) :
    Multiset.IsDershowitzMannaLT M (N + {a}) := by
  have hle : M - M ∩ added ≤ N := by
    rw [Multiset.le_iff_count]
    intro b
    have := Multiset.le_iff_count.mp h b
    rw [Multiset.count_add] at this
    rw [Multiset.count_sub, Multiset.count_inter]
    omega
  refine ⟨M - M ∩ added, M ∩ added, N - (M - M ∩ added) + {a}, ?_, ?_, ?_, ?_⟩
  · simp
  · exact (Multiset.sub_add_cancel (Multiset.inter_le_left)).symm
  · rw [← add_assoc, add_comm (M - M ∩ added), Multiset.sub_add_cancel hle]
  · intro b hb
    exact ⟨a, by simp, hadded b (Multiset.mem_of_le Multiset.inter_le_right hb)⟩

/-! ## The loop ends -/

theorem Harmless.loop_ends (hh : Harmless database me) (hr : CostsInRange database)
    (h : Inv database me paths tentative) (hc : Closed database paths tentative none) :
    ∃ fuel table, routesLoop database me fuel paths tentative = some (.ok table) := by
  classical
  generalize hw : weights database tentative = ws
  have hwf : WellFounded (Multiset.IsDershowitzMannaLT (α := ℕ ×ₗ ℕ)) :=
    Multiset.wellFounded_isDershowitzMannaLT
  induction ws using WellFounded.induction hwf generalizing paths tentative with
  | h ws ih =>
    by_cases hempty : tentative.entries = []
    · exact ⟨1, paths, by rw [routesLoop, if_pos hempty]⟩
    obtain ⟨sp, taken, hpop, hvalid⟩ := hh.pop hr h hc hempty
    obtain ⟨rest, hfind, hle, htaken⟩ := LsPaths.popShortestPath_some hpop
    obtain ⟨paths', tentative', hturn, h', hc', hturned, hshape⟩ := turn_spec hr h hc hpop hvalid
    have hout : weights database taken + {rank database sp.destination sp.cost} =
        weights database tentative := weights_taken hfind htaken
    have hlower : Multiset.IsDershowitzMannaLT (weights database tentative') ws := by
      rw [← hw, ← hout]
      rcases hshape with rfl | ⟨links, hops, hlinks, hnew, rfl⟩
      · exact dershowitzManna_of_le (add_zero _).ge
          (fun b hb => absurd hb (Multiset.notMem_zero b))
      · obtain ⟨added, hadd, hranks⟩ := weights_links me taken
          (if sp.destination = me then [] else hops) hnew hlinks (fun l hl => hl)
        refine dershowitzManna_of_le hadd (fun r hrmem => ?_)
        obtain ⟨v, c, harc, rfl⟩ := hranks r hrmem
        exact hh.rank_lt hr (h'.found _ _ hnew).1 hle harc
    obtain ⟨fuel, table, hrun⟩ := ih _ hlower h' hc' rfl
    exact ⟨fuel + 1, table, by rw [routesLoop, if_neg hempty, hturn]; exact hrun⟩

theorem Harmless.ends (hh : Harmless database me) (hr : CostsInRange database) : Ends database me := by
  cases hme : database.find? me with
  | none => exact ⟨0, toSelf me, by rw [computeRoutes, hme]⟩
  | some links =>
    obtain ⟨tentative, hexp, h, hc, -⟩ := start_spec hr hme
    obtain ⟨fuel, table, hrun⟩ := hh.loop_ends hr h hc
    refine ⟨fuel, table, ?_⟩
    rw [computeRoutes, hme]
    dsimp only
    rw [hexp]
    exact hrun

/-- **The route computation comes to its end without an abort exactly when the database is
harmless**: there is no cycle of links of cost zero in reach, no node's cheapest path costs the
sentinel, and no node in reach has the invalid id. -/
theorem routes_end_iff (hr : CostsInRange database) : Ends database me ↔ Harmless database me :=
  ⟨fun h => ⟨fun _ _ hp hk => h.acyclic hr hp hk, fun _ => h.below hr,
    fun hme _ hp => h.valid hr hme hp⟩, fun hh => hh.ends hr⟩

theorem costsInRange_of_entries (h : ∀ e ∈ database.entries, ∀ l ∈ e.2, 0 ≤ l.cost ∧ l.cost ≤ lsMaxCost) :
    CostsInRange database :=
  fun _ _ hlinks => h _ (OrderedMap.find?_eq_some.mp hlinks)

/-- A link of cost `cost` from 1 to 2, and one of cost `back` from 2 to `next`. -/
def twoLinks (cost next back : ℤ) : LsTopoMap :=
  (OrderedMap.empty.set 1 [⟨2, .up, cost, 0⟩]).set 2 [⟨next, .up, back, 0⟩]

theorem routes_end_three : Harmless (twoLinks 3 3 4) 1 :=
  (routes_end_iff (costsInRange_of_entries (by decide))).mp
    ⟨5, ((toSelf 1).set 2 ⟨3, [2]⟩).set 3 ⟨7, [2]⟩, by decide +kernel⟩

/-- Two links of cost zero back and forth, for which the loop does not end, and a path of cost 65535,
for which it aborts. -/
theorem routes_do_not_end :
    CostsInRange (twoLinks 0 1 0) ∧ ¬ Ends (twoLinks 0 1 0) 1 ∧
      CostsInRange (twoLinks 65534 3 1) ∧
      computeRoutes 2 (twoLinks 65534 3 1) 1 = some (.error .popShortestPathFailed) := by
  have hr : CostsInRange (twoLinks 0 1 0) := costsInRange_of_entries (by decide)
  refine ⟨hr, ?_, costsInRange_of_entries (by decide), by decide +kernel⟩
  intro h
  have hforth : Arc (twoLinks 0 1 0) 1 2 0 := ⟨_, rfl, _, mem_cons_self, rfl, rfl, rfl⟩
  have hback : Arc (twoLinks 0 1 0) 2 1 0 := ⟨_, rfl, _, mem_cons_self, rfl, rfl, rfl⟩
  exact h.acyclic hr .nil (by decide) ⟨2, hforth, by simpa using Path.nil.snoc hback⟩

end NetSim.LinkState
