import NetSim.Routing.Hierarchy

/-! # The tables of hierarchical routing

The row of a node in the matrix of its cluster has a finite entry only where a link of the node was
inserted and not reset since, and the table `hconnect_` holds the end of such a link (`Inv`). A write to
the row of a cluster or a domain, or of `INFINITY`, keeps that; the entry of a new link is right once its
end is written too.
-/

namespace NetSim.Hier

open Function List StridedArray RouteLogic

/-! ## Numbers -/

section Numbers

variable {g : Shape} {d c d' c' x : ℕ} {a b : Addr}

def InCluster (g : Shape) (d c : ℕ) : Prop := 1 ≤ d ∧ d < g.D ∧ 1 ≤ c ∧ c < g.C d

instance (g : Shape) (d c : ℕ) : Decidable (InCluster g d c) := inferInstanceAs (Decidable (_ ∧ _))

structure InRange (g : Shape) (a : Addr) : Prop where
  cluster : InCluster g a.domain a.cluster
  pos : 1 ≤ a.node
  le : a.node ≤ g.size a.domain a.cluster

instance (g : Shape) (a : Addr) : Decidable (InRange g a) :=
  decidable_of_iff (InCluster g a.domain a.cluster ∧ 1 ≤ a.node ∧ a.node ≤ g.size a.domain a.cluster)
    ⟨fun h => ⟨h.1, h.2.1, h.2.2⟩, fun h => ⟨h.cluster, h.pos, h.le⟩⟩

/-- The matrices have fewer than 2^31 cells. -/
def Room (g : Shape) : Prop :=
  ∀ d c, InCluster g d c → (g.size d c + g.cmax + g.D) * (g.size d c + g.cmax + g.D) < 2 ^ 31

def area (g : Shape) (d c : ℕ) : ℕ := (g.size d c + g.cmax + g.D) * (g.size d c + g.cmax + g.D)

theorem mem_domains : x ∈ g.domains ↔ 1 ≤ x ∧ x < g.D := by
  rw [Shape.domains, mem_range'_1]
  omega

theorem mem_clusters : c ∈ g.clusters d ↔ 1 ≤ c ∧ c < g.C d := by
  rw [Shape.clusters, mem_range'_1]
  omega

theorem le_foldl_max (f : ℕ → ℕ) (l : List ℕ) (m : ℕ) :
    m ≤ l.foldl (fun m i => if m < f i then f i else m) m ∧
      ∀ i ∈ l, f i ≤ l.foldl (fun m i => if m < f i then f i else m) m := by
  induction l generalizing m with
  | nil => exact ⟨le_rfl, fun i hi => absurd hi not_mem_nil⟩
  | cons i l ih =>
    obtain ⟨hm, hl⟩ := ih (if m < f i then f i else m)
    have hstart : m ≤ (if m < f i then f i else m) ∧ f i ≤ (if m < f i then f i else m) := by
      split <;> omega
    refine ⟨hstart.1.trans hm, fun j hj => ?_⟩
    rcases mem_cons.mp hj with rfl | hj
    · exact hstart.2.trans hm
    · exact hl j hj

theorem le_cmax (h : InCluster g d c) : g.C d ≤ g.cmax :=
  (le_foldl_max g.C (List.range' 1 (g.D - 1)) 0).2 d (mem_domains.mpr ⟨h.1, h.2.1⟩)

theorem idx_lt (h : InCluster g d c) : g.idx d c < g.cmax * g.D := by
  have hc : c < g.cmax := h.2.2.2.trans_le (le_cmax h)
  rw [mul_comm]
  exact index_lt h.2.1 hc

theorem idx_inj (h : InCluster g d c) (h' : InCluster g d' c') :
    g.idx d c = g.idx d' c' ↔ d = d' ∧ c = c' :=
  index_inj (h.2.2.2.trans_le (le_cmax h)) (h'.2.2.2.trans_le (le_cmax h'))

theorem stride_le (h : InCluster g d c) : g.stride d c * g.stride d c ≤ area g d c := by
  have hle : g.stride d c ≤ g.size d c + g.cmax + g.D := by
    have := le_cmax h
    unfold Shape.stride
    omega
  exact Nat.mul_le_mul hle hle

theorem cell_lt {r v : ℕ} (h : InCluster g d c) (hr : r < g.stride d c) (hv : v < g.stride d c) :
    index (g.stride d c) r v < area g d c :=
  (index_lt hr hv).trans_le (stride_le h)

/-! ## Columns -/

def col (g : Shape) (a b : Addr) : ℕ :=
  if a.domain = b.domain then
    if a.cluster = b.cluster then b.node else g.size a.domain a.cluster + b.cluster
  else g.size a.domain a.cluster + (g.C a.domain - 1) + b.domain

theorem col_lt (hb : InRange g b) : col g a b < g.stride a.domain a.cluster := by
  have h2 := hb.cluster.2.1
  have h3 := hb.cluster.2.2.2
  have h4 := hb.le
  unfold col Shape.stride
  split
  · rename_i hd
    rw [← hd] at h3 h4
    split
    · rename_i hc
      rw [← hc] at h4
      omega
    · omega
  · omega

theorem col_ne (ha : InRange g a) (hb : InRange g b) (hne : a ≠ b) : col g a b ≠ a.node := by
  have h1 := ha.le
  have h2 := hb.cluster.1
  have h3 := hb.cluster.2.2.1
  unfold col
  split
  · split
    · intro hn
      exact hne (by cases a; cases b; simp_all)
    · omega
  · omega

theorem eq_of_col_le (hb : InRange g b) (h : col g a b ≤ g.size a.domain a.cluster) :
    b = ⟨a.domain, a.cluster, col g a b⟩ := by
  have h2 := hb.cluster.1
  have h3 := hb.cluster.2.2.1
  unfold col at h ⊢
  split at h
  · rename_i hd
    split at h
    · rename_i hc
      rw [if_pos hd, if_pos hc, hd, hc]
    · omega
  · omega

theorem node_lt_stride (ha : InRange g a) : a.node < g.stride a.domain a.cluster := by
  have h1 := ha.le
  have h2 := ha.cluster.2.2.2
  unfold Shape.stride
  omega

end Numbers

/-! ## Links -/

/-- The link was inserted and not reset since. -/
def Live (calls : List Call) (a b : Addr) : Prop :=
  ∃ pre cost post, calls = pre ++ .insert a b cost :: post ∧ .reset a b ∉ post

section Live

variable {calls : List Call} {a b a' b' : Addr} {cost : ℤ}

theorem Live.concat {c : Call} (h : Live calls a b) (hc : c ≠ .reset a b) : Live (calls ++ [c]) a b := by
  obtain ⟨pre, cost, post, rfl, hpost⟩ := h
  refine ⟨pre, cost, post ++ [c], by simp, ?_⟩
  rw [mem_append, mem_singleton, not_or]
  exact ⟨hpost, fun he => hc he.symm⟩

theorem live_insert : Live (calls ++ [.insert a b cost]) a b :=
  ⟨calls, cost, [], rfl, not_mem_nil⟩

end Live

/-! ## The invariant -/

/-- The entry of the row of `a` in the column `v` stands for a link of `a`. -/
def Hop (g : Shape) (calls : List Call) (connect : ℕ → Option Addr) (a : Addr) (v : ℕ) : Prop :=
  ∃ b, InRange g b ∧ col g a b = v ∧ Live calls a b ∧
    (g.size a.domain a.cluster < v →
      connect (a.node * (g.C a.domain + g.D) + (v - g.size a.domain a.cluster)) = some b.text)

/-- What holds of the tables between the calls, except for the entries in `skip`. -/
structure Inv (g : Shape) (calls : List Call) (skip : Set (Addr × ℕ)) (t : Tables) : Prop where
  sizes : ∀ d c, InCluster g d c → t.hsize (g.idx d c) = 0 ∨ t.hsize (g.idx d c) = area g d c
  rows : ∀ a v, InRange g a → v < g.stride a.domain a.cluster → (a, v) ∉ skip →
    t.hsize (g.idx a.domain a.cluster) ≠ 0 →
    t.hadj (g.idx a.domain a.cluster) (index (g.stride a.domain a.cluster) a.node v) ≠ infCost →
    Hop g calls (t.hconnect (g.idx a.domain a.cluster)) a v

def Allocated (g : Shape) (t : Tables) (d c : ℕ) : Prop := t.hsize (g.idx d c) ≠ 0

/-- What is allocated stays so. -/
def Grows (t t' : Tables) : Prop := ∀ i, t.hsize i ≠ 0 → t'.hsize i ≠ 0

variable {g : Shape} {calls : List Call} {skip : Set (Addr × ℕ)} {t t' : Tables} {d c x v r : ℕ}
  {a b : Addr} {cost : ℤ}

theorem inv_init : Inv g [] ∅ hierInit :=
  ⟨fun _ _ _ => Or.inl rfl, fun _ _ _ _ _ halloc => absurd rfl halloc⟩

theorem Inv.unskip (h : Inv g calls {(a, v)} t)
    (hhop : Hop g calls (t.hconnect (g.idx a.domain a.cluster)) a v) : Inv g calls ∅ t := by
  refine ⟨h.sizes, fun a' v' ha' hv' _ halloc hcost => ?_⟩
  by_cases he : (a', v') = (a, v)
  · obtain ⟨rfl, rfl⟩ := Prod.mk.inj he
    exact hhop
  · exact h.rows a' v' ha' hv' he halloc hcost

theorem Inv.unskip_inf (h : Inv g calls {(a, v)} t)
    (hinf : t.hadj (g.idx a.domain a.cluster) (index (g.stride a.domain a.cluster) a.node v) = infCost) :
    Inv g calls ∅ t := by
  refine ⟨h.sizes, fun a' v' ha' hv' _ halloc hcost => ?_⟩
  by_cases he : (a', v') = (a, v)
  · obtain ⟨rfl, rfl⟩ := Prod.mk.inj he
    exact absurd hinf hcost
  · exact h.rows a' v' ha' hv' he halloc hcost

theorem Inv.insert (h : Inv g calls ∅ t) (a b : Addr) (cost : ℤ) :
    Inv g (calls ++ [.insert a b cost]) ∅ t := by
  refine ⟨h.sizes, fun a' v ha' hv hskip halloc hcost => ?_⟩
  obtain ⟨b', hb', hcol, hlive, hconnect⟩ := h.rows a' v ha' hv hskip halloc hcost
  exact ⟨b', hb', hcol, hlive.concat (by simp), hconnect⟩

theorem Inv.reset (h : Inv g calls ∅ t) (a b : Addr) :
    Inv g (calls ++ [.reset a b]) {(a, col g a b)} t := by
  refine ⟨h.sizes, fun a' v ha' hv hskip halloc hcost => ?_⟩
  obtain ⟨b', hb', hcol, hlive, hconnect⟩ := h.rows a' v ha' hv (Set.notMem_empty _) halloc hcost
  refine ⟨b', hb', hcol, hlive.concat ?_, hconnect⟩
  intro he
  obtain ⟨rfl, rfl⟩ := Call.reset.inj he
  rw [hcol] at hskip
  exact hskip rfl

/-! ## Writing to the tables -/

theorem Inv.check (h : Inv g calls skip t) (hroom : Room g) (hdc : InCluster g d c) :
    ∃ t', hierCheck g (g.idx d c) t = some t' ∧ Inv g calls skip t' ∧ Grows t t' ∧
      Allocated g t' d c := by
  by_cases halloc : 0 < t.hsize (g.idx d c)
  · refine ⟨t, ?_, h, fun _ hi => hi, by rw [Allocated]; omega⟩
    simp [hierCheck, idx_lt hdc, halloc]
  · have hpos : 0 < area g d c := by
      have hd := hdc.2.1
      exact Nat.mul_pos (by omega) (by omega)
    refine ⟨{ hsize := update t.hsize (g.idx d c) (area g d c)
              hadj := update t.hadj (g.idx d c) (fun _ => infCost)
              hroute := update t.hroute (g.idx d c) (fun _ => infCost)
              hconnect := update t.hconnect (g.idx d c) (fun _ => none) }, ?_, ?_, ?_, ?_⟩
    · have hfits : area g d c < 2147483648 := hroom d c hdc
      have harea : (g.clusterSize (g.idx d c) + g.cmax + g.D) *
          (g.clusterSize (g.idx d c) + g.cmax + g.D) = area g d c := rfl
      simp [hierCheck, hierAlloc, idx_lt hdc, halloc, harea, hfits]
    · refine ⟨fun d' c' hdc' => ?_, fun a v ha hv hskip hsize hcost => ?_⟩
      · by_cases he : g.idx d' c' = g.idx d c
        · obtain ⟨rfl, rfl⟩ := (idx_inj hdc' hdc).mp he
          exact Or.inr (update_self _ _ _)
        · dsimp only
          rw [update_of_ne he]
          exact h.sizes d' c' hdc'
      · by_cases he : g.idx a.domain a.cluster = g.idx d c
        · dsimp only at hcost
          rw [he, update_self] at hcost
          exact absurd rfl hcost
        · dsimp only at hsize hcost ⊢
          rw [update_of_ne he] at hsize hcost ⊢
          exact h.rows a v ha hv hskip hsize hcost
    · intro i hi
      dsimp only
      by_cases he : i = g.idx d c
      · rw [he, update_self]
        omega
      · rw [update_of_ne he]
        exact hi
    · show update t.hsize (g.idx d c) (area g d c) (g.idx d c) ≠ 0
      rw [update_self]
      omega

def written (g : Shape) (d c x : ℕ) (cost : ℤ) (t : Tables) : Tables :=
  { t with
    hadj := update t.hadj (g.idx d c) (update (t.hadj (g.idx d c)) x cost) }

theorem Inv.hsize_eq (h : Inv g calls skip t) (hdc : InCluster g d c) (halloc : Allocated g t d c) :
    t.hsize (g.idx d c) = area g d c :=
  (h.sizes d c hdc).resolve_left halloc

theorem Inv.setAdj_eq (h : Inv g calls skip t) (hdc : InCluster g d c) (halloc : Allocated g t d c)
    (hx : x < area g d c) (cost : ℤ) : setAdj g (g.idx d c) x cost t = some (written g d c x cost t) := by
  rw [← h.hsize_eq hdc halloc] at hx
  simp [setAdj, idx_lt hdc, hx, written]

theorem written_other {d' c' y : ℕ} (h : g.idx d' c' ≠ g.idx d c ∨ y ≠ x) :
    (written g d c x cost t).hadj (g.idx d' c') y = t.hadj (g.idx d' c') y := by
  dsimp only [written]
  by_cases he : g.idx d' c' = g.idx d c
  · rw [he, update_self, update_of_ne (h.resolve_left (fun hn => hn he))]
  · rw [update_of_ne he]

theorem written_self : (written g d c x cost t).hadj (g.idx d c) x = cost := by
  dsimp only [written]
  rw [update_self, update_self]

theorem Inv.writeInf (h : Inv g calls skip t) (d c x : ℕ) : Inv g calls skip (written g d c x infCost t) := by
  refine ⟨h.sizes, fun a v ha hv hskip halloc hcost => h.rows a v ha hv hskip halloc ?_⟩
  by_cases he : g.idx a.domain a.cluster = g.idx d c ∧ index (g.stride a.domain a.cluster) a.node v = x
  · rw [he.1, he.2, written_self] at hcost
    exact absurd rfl hcost
  · rwa [written_other (not_and_or.mp he)] at hcost

theorem Inv.writePseudo (h : Inv g calls skip t) (hdc : InCluster g d c) (hr : g.size d c < r)
    (hv : v < g.stride d c) (cost : ℤ) :
    Inv g calls skip (written g d c (index (g.stride d c) r v) cost t) := by
  refine ⟨h.sizes, fun a v' ha hv' hskip halloc hcost => h.rows a v' ha hv' hskip halloc ?_⟩
  rwa [written_other] at hcost
  by_cases he : g.idx a.domain a.cluster = g.idx d c
  · obtain ⟨hd, hc⟩ := (idx_inj ha.cluster hdc).mp he
    refine Or.inr (fun hcell => ?_)
    have hle := ha.le
    rw [hd, hc] at hcell hle hv'
    have hrow := ((index_inj hv' hv).mp hcell).1
    omega
  · exact Or.inl he

theorem Inv.writeNode (h : Inv g calls ∅ t) (ha : InRange g a) (hv : v < g.stride a.domain a.cluster)
    (cost : ℤ) :
    Inv g calls {(a, v)}
      (written g a.domain a.cluster (index (g.stride a.domain a.cluster) a.node v) cost t) := by
  refine ⟨h.sizes, fun a' v' ha' hv' hskip halloc hcost =>
    h.rows a' v' ha' hv' (Set.notMem_empty _) halloc ?_⟩
  rwa [written_other] at hcost
  by_cases he : g.idx a'.domain a'.cluster = g.idx a.domain a.cluster
  · obtain ⟨hd, hc⟩ := (idx_inj ha'.cluster ha.cluster).mp he
    refine Or.inr (fun hcell => hskip ?_)
    rw [hd, hc] at hcell hv'
    obtain ⟨hnode, rfl⟩ := (index_inj hv' hv).mp hcell
    have haa : a' = a := by cases a'; cases a; simp_all
    rw [haa]
    rfl
  · exact Or.inl he

def connected (g : Shape) (a b : Addr) (v : ℕ) (t : Tables) : Tables :=
  { t with
    hconnect := update t.hconnect (g.idx a.domain a.cluster)
      (update (t.hconnect (g.idx a.domain a.cluster))
        (a.node * (g.C a.domain + g.D) + (v - g.size a.domain a.cluster)) (some b.text)) }

theorem connect_lt (ha : InRange g a) (hv : v < g.stride a.domain a.cluster)
    (hsize : g.size a.domain a.cluster < v) :
    a.node * (g.C a.domain + g.D) + (v - g.size a.domain a.cluster) <
      (g.cmax + g.D) * (g.clusterSize (g.idx a.domain a.cluster) + 1) := by
  have hj : v - g.size a.domain a.cluster < g.C a.domain + g.D := by
    unfold Shape.stride at hv
    omega
  have hn : a.node < g.size a.domain a.cluster + 1 := Nat.lt_succ_of_le ha.le
  calc a.node * (g.C a.domain + g.D) + (v - g.size a.domain a.cluster)
      = index (g.C a.domain + g.D) a.node (v - g.size a.domain a.cluster) := by rw [index, mul_comm]
    _ < (g.size a.domain a.cluster + 1) * (g.C a.domain + g.D) := index_lt hn hj
    _ ≤ (g.size a.domain a.cluster + 1) * (g.cmax + g.D) :=
        Nat.mul_le_mul_left _ (Nat.add_le_add_right (le_cmax ha.cluster) _)
    _ = (g.cmax + g.D) * (g.clusterSize (g.idx a.domain a.cluster) + 1) := mul_comm _ _

theorem Inv.setConnect_eq (halloc : Allocated g t a.domain a.cluster) (ha : InRange g a)
    (hv : v < g.stride a.domain a.cluster) (hsize : g.size a.domain a.cluster < v) (b : Addr) :
    setConnect g (g.idx a.domain a.cluster)
      (a.node * (g.C a.domain + g.D) + (v - g.size a.domain a.cluster)) b t =
        some (connected g a b v t) := by
  have hpos : 0 < t.hsize (g.idx a.domain a.cluster) := Nat.pos_of_ne_zero halloc
  simp [setConnect, idx_lt ha.cluster, hpos, connect_lt ha hv hsize, connected]

theorem Inv.connect (h : Inv g calls {(a, v)} t) (ha : InRange g a) (hb : InRange g b)
    (hv : v < g.stride a.domain a.cluster) (hsize : g.size a.domain a.cluster < v)
    (hcol : col g a b = v) (hlive : Live calls a b) : Inv g calls ∅ (connected g a b v t) := by
  have hkept : Inv g calls {(a, v)} (connected g a b v t) := by
    refine ⟨h.sizes, fun a' v' ha' hv' hskip halloc hcost => ?_⟩
    obtain ⟨b', hb', hcol', hlive', hconnect⟩ := h.rows a' v' ha' hv' hskip halloc hcost
    refine ⟨b', hb', hcol', hlive', fun hsize' => ?_⟩
    rw [← hconnect hsize']
    dsimp only [connected]
    by_cases he : g.idx a'.domain a'.cluster = g.idx a.domain a.cluster
    · obtain ⟨hd, hc⟩ := (idx_inj ha'.cluster ha.cluster).mp he
      rw [hd, hc] at hsize' hv' ⊢
      rw [update_self]
      refine update_of_ne (fun hcell => hskip ?_) _ _
      have hj : v - g.size a.domain a.cluster < g.C a.domain + g.D := by
        unfold Shape.stride at hv
        omega
      have hj' : v' - g.size a.domain a.cluster < g.C a.domain + g.D := by
        unfold Shape.stride at hv'
        omega
      rw [mul_comm a'.node, mul_comm a.node] at hcell
      obtain ⟨hnode, hvv⟩ := (index_inj hj' hj).mp hcell
      have haa : a' = a := by cases a'; cases a; simp_all
      have hvv' : v' = v := by omega
      rw [haa, hvv']
      rfl
    · rw [update_of_ne he]
  refine hkept.unskip ⟨b, hb, hcol, hlive, fun _ => ?_⟩
  dsimp only [connected]
  rw [update_self, update_self]

end NetSim.Hier
