import NetSim.Lib.Runs
import NetSim.Nix.Bfs
import NetSim.Nix.NixVecRoundTrip

/-! # Source routes

`GetNixVector` searches the graph from the node that asks and writes down, for every hop of the path
to the target, the index of the next node among the neighbours, in as many bits as the number of
neighbours needs. The nodes on the way read the vector with the same number of bits. The vector leads
to the target along a shortest path (`nix_route`).
-/

namespace NetSim

open Function List ShortestPaths NixVec

/-! ## Bits of an index -/

def bitlLoop (l : ℕ) : ℕ → ℕ
  | 0 => 1
  | h + 1 => if (1 <<< (h + 1)) &&& l ≠ 0 then h + 1 + 1 else bitlLoop l h

/-- `NixVec::GetBitl`: how many bits are needed for numbers up to `l`. -/
def getBitl (l : ℕ) : ℕ :=
  let h := if l &&& 0xFFFF0000 = 0 then if l &&& 0xFFFFFF00 = 0 then 7 else 15 else 31
  bitlLoop l h

theorem bitlLoop_spec {l h : ℕ} (hl : l < 2 ^ (h + 1)) :
    1 ≤ bitlLoop l h ∧ bitlLoop l h ≤ h + 1 ∧ l < 2 ^ bitlLoop l h := by
  induction h with
  | zero => exact ⟨le_rfl, le_rfl, hl⟩
  | succ h ih =>
    unfold bitlLoop
    by_cases hbit : (1 <<< (h + 1)) &&& l ≠ 0
    · rw [if_pos hbit]
      exact ⟨by omega, le_rfl, hl⟩
    · rw [if_neg hbit]
      have hclear : l.testBit (h + 1) = false := by
        have hz : ((1 <<< (h + 1)) &&& l).testBit (h + 1) = false := by
          rw [not_not.mp hbit, Nat.zero_testBit]
        simpa [Nat.testBit_and] using hz
      have hlt : l < 2 ^ (h + 1) := by
        apply Nat.lt_pow_two_of_testBit
        intro i hi
        by_cases heq : i = h + 1
        · rw [heq]
          exact hclear
        · exact Nat.testBit_lt_two_pow (hl.trans_le (Nat.pow_le_pow_right (by norm_num) (by omega)))
      obtain ⟨h1, h2, h3⟩ := ih hlt
      exact ⟨h1, by omega, h3⟩

theorem lt_of_and_eq_zero {l mask m : ℕ} (hl : l < 2 ^ 32) (hz : l &&& mask = 0)
    (hmask : ∀ i < 32, m ≤ i → mask.testBit i = true) : l < 2 ^ m := by
  apply Nat.lt_pow_two_of_testBit
  intro i hi
  by_cases h32 : i < 32
  · have hbit : (l &&& mask).testBit i = false := by
      rw [hz, Nat.zero_testBit]
    rw [Nat.testBit_and, hmask i h32 hi, Bool.and_true] at hbit
    exact hbit
  · exact Nat.testBit_lt_two_pow (hl.trans_le (Nat.pow_le_pow_right (by norm_num) (by omega)))

theorem getBitl_spec {l : ℕ} (hl : l < 2 ^ 32) :
    1 ≤ getBitl l ∧ getBitl l ≤ 32 ∧ l < 2 ^ getBitl l := by
  unfold getBitl
  by_cases h16 : l &&& 0xFFFF0000 = 0
  · by_cases h8 : l &&& 0xFFFFFF00 = 0
    · have hlt : l < 2 ^ 8 := lt_of_and_eq_zero hl h8 (by decide)
      obtain ⟨h1, h2, h3⟩ := @bitlLoop_spec l 7 hlt
      simp only [if_pos h16, if_pos h8]
      exact ⟨h1, by omega, h3⟩
    · have hlt : l < 2 ^ 16 := lt_of_and_eq_zero hl h16 (by decide)
      obtain ⟨h1, h2, h3⟩ := @bitlLoop_spec l 15 hlt
      simp only [if_pos h16, if_neg h8]
      exact ⟨h1, by omega, h3⟩
  · obtain ⟨h1, h2, h3⟩ := @bitlLoop_spec l 31 hl
    simp only [if_neg h16]
    exact ⟨h1, h2, h3⟩

namespace NixGraph

variable (g : NixGraph)

/-! ## Encoding and decoding -/

def getNixl (u : ℕ) : ℕ := getBitl (((g.adj u).length + (2 ^ 32 - 1)) % 2 ^ 32)

/-- `NixNode::GetNix`: the index of a neighbour, and its bits. -/
def getNix (u t : ℕ) : BitVec 32 × ℕ :=
  match (g.adj u).findIdx? (fun n => n == t) with
  | some i => (BitVec.ofNat 32 i, g.getNixl u)
  | none => (nixNone 32, 0)

/-- `NixPred`: the hops from `s` to `p`, added to `nv`. `none` stands for the exit on an error. -/
def nixPred (s : ℕ) (pred : ℕ → ℕ) : ℕ → ℕ → NixVec 32 → Option (NixVec 32)
  | 0, _, _ => none
  | fuel + 1, p, nv =>
    if s = p then some nv
    else if pred p = nodeNone then some nv
    else
      (nixPred s pred fuel (pred p) nv).bind (fun nv =>
        let n := g.getNix (pred p) p
        if n.1 = nixNone 32 then none else some (nv.add n))

/-- `NixNode::ComputeNixVector`: the vector, and where the static iterator stands afterwards. -/
def computeNixVector (s : ℕ) (prev : EdgeIter) (t : ℕ) : Option (NixVec 32 × EdgeIter) :=
  (g.bfs s prev).bind (fun b =>
    (g.nixPred s b.parent (g.size + 1) t (NixVec.empty 32)).map (fun nv => (nv, b.prev)))

/-- The vectors that the nodes keep (`m_pNixVecs`), and the static iterator. -/
structure NixTables where
  vecs : ℕ → ℕ → Option (NixVec 32)
  prev : EdgeIter

/-- `NixNode::GetNixVector` at node `r.1` for the target `r.2`. -/
def getNixVector (x : NixTables) (r : ℕ × ℕ) : Option (NixTables × NixVec 32) :=
  let keep := fun (v : NixVec 32) =>
    update x.vecs r.1 (update (x.vecs r.1) r.2 (some v))
  match x.vecs r.1 r.2 with
  | none =>
    (g.computeNixVector r.1 x.prev r.2).map (fun c =>
      ({ vecs := keep c.1.reset, prev := c.2 }, c.1.reset))
  | some v => some ({ x with vecs := keep v.reset }, v.reset)

/-- What `NixClassifier::find` decides for a packet at a node. -/
inductive NixFind
  | arrived
  | next (node used : ℕ)
  | outOfRange

/-- `NixClassifier::find` at node `u`, for a packet to `t` with position `used`. -/
def find (t : ℕ) (v : NixVec 32) (u used : ℕ) : NixFind :=
  if t = u then .arrived
  else
    let r := v.extract (g.getNixl u) used
    match (g.adj u)[r.1.toNat]? with
    | some n => .next n r.2
    | none => .outOfRange

/-- Carry a packet from node `u` on until it arrives: the number of hops. -/
def deliver (t : ℕ) (v : NixVec 32) : ℕ → ℕ → ℕ → Option ℕ
  | 0, _, _ => none
  | fuel + 1, u, used =>
    match g.find t v u used with
    | .arrived => some 0
    | .next n used => (deliver t v fuel n used).map (fun hops => hops + 1)
    | .outOfRange => none

variable {g : NixGraph} {s t u n l used fuel m k : ℕ} {v nv : NixVec 32} {b : BfsState}
  {ps : List (BitVec 32 × ℕ)} {post : List Bool}

theorem length_adj_le (g : NixGraph) (u : ℕ) : (g.adj u).length ≤ g.size := by
  rw [← toFinset_card_of_nodup (g.nodup u), ← Finset.card_range g.size]
  apply Finset.card_le_card
  intro v hv
  exact Finset.mem_range.mpr (g.adj_lt u v (mem_toFinset.mp hv))

theorem getNixl_spec {i : ℕ} (hi : i < (g.adj u).length) :
    1 ≤ g.getNixl u ∧ g.getNixl u ≤ 32 ∧ i < 2 ^ g.getNixl u := by
  have hlen := g.length_adj_le u
  have hsize := g.size_lt
  have hmod : ((g.adj u).length + (2 ^ 32 - 1)) % 2 ^ 32 = (g.adj u).length - 1 := by
    rw [show (g.adj u).length + (2 ^ 32 - 1) = (g.adj u).length - 1 + 2 ^ 32 from by omega,
      Nat.add_mod_right, Nat.mod_eq_of_lt (by omega)]
  unfold getNixl
  rw [hmod]
  obtain ⟨h1, h2, h3⟩ := @getBitl_spec ((g.adj u).length - 1) (by omega)
  exact ⟨h1, h2, lt_of_le_of_lt (by omega) h3⟩

/-- The index of a neighbour fits the bits of its node. -/
theorem getNix_spec (hn : n ∈ g.adj u) :
    ∃ i, (g.adj u)[i]? = some n ∧ g.getNix u n = (BitVec.ofNat 32 i, g.getNixl u) := by
  unfold getNix
  cases hfind : (g.adj u).findIdx? (fun x => x == n) with
  | none =>
    have hall := findIdx?_eq_none_iff.mp hfind n hn
    simp at hall
  | some i =>
    obtain ⟨hi, heq, -⟩ := findIdx?_eq_some_iff_getElem.mp hfind
    refine ⟨i, ?_, rfl⟩
    rw [getElem?_eq_getElem hi, beq_iff_eq.mp heq]

/-- The hops of a path from `s`, as `NixPred` writes them down. -/
inductive Route (g : NixGraph) (s : ℕ) : List (BitVec 32 × ℕ) → ℕ → Prop
  | nil : Route g s [] s
  | snoc {ps : List (BitVec 32 × ℕ)} {u n i : ℕ} : Route g s ps u → (g.adj u)[i]? = some n →
      Route g s (ps ++ [(BitVec.ofNat 32 i, g.getNixl u)]) n

theorem lt_of_getElem? {i : ℕ} (h : (g.adj u)[i]? = some n) :
    i < (g.adj u).length ∧ i < 2 ^ 32 - 1 := by
  obtain ⟨hi, -⟩ := List.getElem?_eq_some_iff.mp h
  have hlen := g.length_adj_le u
  have hsize := g.size_lt
  omega

theorem Route.path (h : Route g s ps t) : Path g.arc s t ps.length := by
  induction h with
  | nil => exact Path.nil
  | snoc _ hget ih =>
    rw [length_append]
    exact ih.snoc ⟨mem_of_getElem? hget, rfl⟩

theorem hop_fits {i : ℕ} (hget : (g.adj u)[i]? = some n) :
    1 ≤ g.getNixl u ∧ g.getNixl u ≤ 32 ∧ (BitVec.ofNat 32 i).toNat < 2 ^ g.getNixl u := by
  obtain ⟨hi, hi32⟩ := lt_of_getElem? hget
  rw [BitVec.toNat_ofNat, Nat.mod_eq_of_lt (by omega)]
  exact getNixl_spec hi

theorem Route.fit (h : Route g s ps t) : Fit ps := by
  induction h with
  | nil => exact fun p hp => absurd hp not_mem_nil
  | snoc _ hget ih =>
    intro p hp
    rcases mem_append.mp hp with hp | hp
    · exact ih p hp
    · rw [mem_singleton.mp hp]
      exact hop_fits hget

theorem ofNat_ne_nixNone {i : ℕ} (hi : i < 2 ^ 32 - 1) : BitVec.ofNat 32 i ≠ nixNone 32 := by
  intro heq
  have hval := congrArg BitVec.toNat heq
  rw [BitVec.toNat_ofNat, Nat.mod_eq_of_lt (by omega),
    show (nixNone 32).toNat = 2 ^ 32 - 1 from rfl] at hval
  omega

/-- By recursion up the tree of the search, which gives the route back from the target. -/
theorem nixPred_spec (h : Found g s b) (ht : b.color t = true) (hfuel : b.dist t < fuel) :
    ∃ ps, Route g s ps t ∧ ps.length = b.dist t ∧
      g.nixPred s b.parent fuel t nv = some (ps.foldl NixVec.add nv) := by
  induction fuel generalizing t with
  | zero => omega
  | succ fuel ih =>
    unfold nixPred
    by_cases hst : s = t
    · subst hst
      rw [if_pos rfl]
      have hzero : b.dist s = 0 := Nat.le_zero.mp ((h.dist s ht).2 0 Path.nil)
      exact ⟨[], Route.nil, hzero.symm, rfl⟩
    · obtain ⟨hp, hadj, hd⟩ := h.tree t ht (Ne.symm hst)
      have hsome : b.parent t ≠ nodeNone := ne_nodeNone_of_lt (h.valid _ hp)
      obtain ⟨ps, hroute, hlen, hrun⟩ := ih hp (by omega)
      obtain ⟨i, hget, hnix⟩ := getNix_spec hadj
      refine ⟨ps ++ [(BitVec.ofNat 32 i, g.getNixl (b.parent t))], hroute.snoc hget, ?_, ?_⟩
      · rw [length_append, hlen, hd]
        rfl
      · have hi := (lt_of_getElem? hget).2
        rw [if_neg hst, if_neg hsome, hrun, Option.bind_some]
        simp only [hnix]
        rw [if_neg (ofNat_ne_nixNone hi), foldl_append, foldl_cons, foldl_nil]

theorem find_next {pre : List Bool} {i : ℕ} (hne : t ≠ u) (hget : (g.adj u)[i]? = some n)
    (h : Holds v (pre ++ bits (BitVec.ofNat 32 i, g.getNixl u) ++ post)) :
    g.find t v u pre.length = .next n (pre.length + g.getNixl u) := by
  have hread := extract_field (p := (BitVec.ofNat 32 i, g.getNixl u)) le_rfl (hop_fits hget) h
    (Or.inl rfl)
  have hi := (lt_of_getElem? hget).2
  unfold find
  rw [if_neg hne]
  simp only [hread]
  rw [BitVec.toNat_ofNat, Nat.mod_eq_of_lt (by omega), hget]

theorem Route.deliver (h : Route g s ps u) (hv : Holds v (ps.flatMap bits ++ post))
    (hne : ∀ qs x, Route g s qs x → qs.length < ps.length → t ≠ x)
    (hrest : g.deliver t v m u (ps.flatMap bits).length = some k) :
    g.deliver t v (ps.length + m) s 0 = some (ps.length + k) := by
  induction h generalizing post m k with
  | nil => simpa using hrest
  | @snoc ps u n i hroute hget ih =>
    rw [flatMap_append, flatMap_singleton] at hv hrest
    have hstep : g.deliver t v (m + 1) u (ps.flatMap bits).length = some (k + 1) := by
      unfold NixGraph.deliver
      rw [find_next (hne ps u hroute (by simp)) hget hv]
      simp only
      rw [length_append, length_bits] at hrest
      rw [hrest, Option.map_some]
    rw [append_assoc] at hv
    have hall := ih hv (fun qs x hx hlt => hne qs x hx (by simp; omega)) hstep
    rw [length_append, length_singleton, Nat.add_assoc, Nat.add_comm 1 m,
      Nat.add_assoc, Nat.add_comm 1 k]
    exact hall

/-! ## Vectors lead to their targets -/

/-- The vector leads from `s` to `t` in as many hops as their distance, and is empty when there is no
way or none is needed. -/
def LeadsTo (g : NixGraph) (s t : ℕ) (v : NixVec 32) : Prop :=
  (Reaches g.arc s t →
    ∃ d, IsDist g.arc s t d ∧ ∀ fuel, d < fuel → g.deliver t v fuel s 0 = some d) ∧
  (¬ Reaches g.arc s t ∨ t = s → v.alth = 0)

/-- The vector that is computed leads to the target. -/
theorem computeNixVector_spec (hs : s < g.size) (ht : t < g.size) (prev : EdgeIter) :
    ∃ v prev', g.computeNixVector s prev t = some (v, prev') ∧ LeadsTo g s t v := by
  obtain ⟨b, hrun, hfound⟩ := bfs_spec g hs prev
  unfold computeNixVector
  rw [hrun, Option.bind_some]
  by_cases hcol : b.color t = true
  · obtain ⟨ps, hroute, hlen, hpred⟩ := @nixPred_spec g s t (g.size + 1) (NixVec.empty 32) b hfound hcol
      (Nat.lt_succ_of_lt (hfound.short t hcol))
    rw [hpred, Option.map_some]
    have hholds : Holds (addAll ps) (ps.flatMap bits ++ []) := by
      rw [append_nil]
      exact holds_addAll le_rfl hroute.fit
    have hdist := hfound.dist t hcol
    refine ⟨addAll ps, b.prev, rfl, fun _ => ⟨_, hdist, ?_⟩, ?_⟩
    · intro fuel hfuel
      rw [← hlen] at hdist hfuel ⊢
      obtain ⟨m, rfl⟩ := Nat.exists_eq_add_of_lt hfuel
      refine hroute.deliver (m := m + 1) (k := 0) hholds ?_ ?_
      · rintro qs x hx hlt rfl
        exact absurd (hdist.2 _ hx.path) (by omega)
      · unfold NixGraph.deliver find
        rw [if_pos rfl]
    · rintro (hno | rfl)
      · exact absurd ((hfound.reached t).mp hcol) hno
      · have hzero : b.dist t = 0 := Nat.le_zero.mp ((hdist).2 0 Path.nil)
        rw [hzero] at hlen
        rw [length_eq_zero_iff.mp hlen]
        rfl
  · have hno : ¬ Reaches g.arc s t := fun hr => hcol ((hfound.reached t).mpr hr)
    have hst : s ≠ t := by
      rintro rfl
      exact hno Path.nil.reaches
    have hnone : b.parent t = nodeNone := hfound.uncolored t (by simpa using hcol)
    unfold nixPred
    rw [if_neg hst, if_pos hnone, Option.map_some]
    exact ⟨NixVec.empty 32, b.prev, rfl, fun hr => absurd hr hno, fun _ => rfl⟩

theorem LeadsTo.reset (h : LeadsTo g s t v) : LeadsTo g s t v.reset := by
  have hdeliver : ∀ fuel u used, g.deliver t v.reset fuel u used = g.deliver t v fuel u used := by
    intro fuel
    induction fuel with
    | zero => exact fun _ _ => rfl
    | succ fuel ih =>
      intro u used
      have hfind : g.find t v.reset u used = g.find t v u used := rfl
      unfold NixGraph.deliver
      simp only [hfind, ih]
  unfold LeadsTo
  simp only [hdeliver]
  exact h

/-- The vectors that the nodes keep lead to their targets. -/
def Kept (g : NixGraph) (x : NixTables) : Prop :=
  ∀ s t v, s < g.size → t < g.size → x.vecs s t = some v → LeadsTo g s t v

theorem Kept.store {x : NixTables} (h : Kept g x) (hv : LeadsTo g s t v) (prev : EdgeIter) :
    Kept g { vecs := update x.vecs s (update (x.vecs s) t (some v)), prev } := by
  intro s' t' v' hs' ht' hv'
  simp only [update_apply] at hv'
  by_cases hss : s' = s
  · rw [if_pos hss] at hv'
    by_cases htt : t' = t
    · rw [update_apply, if_pos htt] at hv'
      cases hv'
      rw [hss, htt]
      exact hv
    · rw [update_apply, if_neg htt] at hv'
      exact h s' t' v' hs' ht' (hss ▸ hv')
  · rw [if_neg hss] at hv'
    exact h s' t' v' hs' ht' hv'

/-- A vector from the cache leads there as well. -/
theorem getNixVector_spec {x : NixTables} {r : ℕ × ℕ} (h : Kept g x)
    (hr : r.1 < g.size ∧ r.2 < g.size) :
    ∃ x' v, g.getNixVector x r = some (x', v) ∧ Kept g x' ∧ LeadsTo g r.1 r.2 v := by
  unfold getNixVector
  cases hvec : x.vecs r.1 r.2 with
  | none =>
    obtain ⟨v, prev', hrun, hv⟩ := computeNixVector_spec hr.1 hr.2 x.prev
    simp only [hrun]
    exact ⟨_, _, rfl, h.store hv.reset prev', hv.reset⟩
  | some v =>
    have hv := h r.1 r.2 v hr.1 hr.2 hvec
    exact ⟨_, _, rfl, h.store hv.reset x.prev, hv.reset⟩

end NixGraph

open NixGraph

/-- **Nix vectors lead to their targets.** However often and in which order nodes ask for vectors, and
wherever the static iterator stands at first, every vector leads to its target in as many hops as the
distance, and is empty when there is no way or none is needed. -/
theorem nix_route (g : NixGraph) (prev : EdgeIter) (rs : List (ℕ × ℕ))
    (hrs : ∀ r ∈ rs, r.1 < g.size ∧ r.2 < g.size) :
    ∃ x vs, Runs.run g.getNixVector { vecs := fun _ _ => none, prev } rs = some (x, vs) ∧
      List.Forall₂ (fun r v => LeadsTo g r.1 r.2 v) rs vs := by
  obtain ⟨x, vs, hrun, -, hall⟩ := @Runs.run_invariant _ _ _ g.getNixVector
    (fun _ r => r.1 < g.size ∧ r.2 < g.size) { vecs := fun _ _ => none, prev } rs
    (fun past outs x => Kept g x ∧ List.Forall₂ (fun r v => LeadsTo g r.1 r.2 v) past outs)
    (by
      intro past outs x r hinv hr
      obtain ⟨x', v, hstep, hkept, hv⟩ := getNixVector_spec hinv.1 hr
      refine ⟨x', v, hstep, hkept, ?_⟩
      exact rel_append hinv.2 (List.Forall₂.cons hv List.Forall₂.nil))
    ⟨fun _ _ _ _ _ hv => (nomatch hv), List.Forall₂.nil⟩ (Runs.meets_of_forall hrs)
  exact ⟨x, vs, hrun, hall⟩

/-- Three nodes in a row. -/
def NixGraph.row : NixGraph where
  size := 3
  adj u := if u = 0 then [1] else if u = 1 then [0, 2] else if u = 2 then [1] else []
  size_lt := by decide
  adj_lt u v hv := by
    split_ifs at hv <;> simp at hv <;> omega
  nodup u := by
    split_ifs <;> decide

/-- The two ends ask for each other, one of them twice. -/
theorem nix_route_row :
    ∃ x vs, Runs.run NixGraph.row.getNixVector { vecs := fun _ _ => none, prev := ⟨0, 0⟩ }
        [(0, 2), (2, 0), (0, 2)] = some (x, vs) ∧
      List.Forall₂ (fun r v => LeadsTo NixGraph.row r.1 r.2 v) [(0, 2), (2, 0), (0, 2)] vs := by
  apply nix_route NixGraph.row ⟨0, 0⟩
  decide

end NetSim
