import Mathlib.Tactic.Linarith
import NetSim.MpSelect.Rtable

/-! # Which path `select_path` chooses

`mpath::select_path` asks `mpath::is_alive` of every path. The loop of `is_alive` does not go on to the
next path, and what it returns is that the path has *not* received anything lately. The module says for
which lists the two functions return (`select_path_returns`), and for which the choice is a least used
path that is alive (`select_path_right`).
-/

namespace NetSim

open Function List LinkedList

namespace Mpath

/-- The pair of interfaces of a path. -/
def pairOf (v : MpathItem) : NsAddr × NsAddr := (v.sIntf, v.dIntf)

/-- The path has received something lately. -/
def Alive (now : ℚ) (v : MpathItem) : Prop := now - v.lastRecvTime ≤ aliveInterval

instance (now : ℚ) (v : MpathItem) : Decidable (Alive now v) :=
  inferInstanceAs (Decidable (now - v.lastRecvTime ≤ aliveInterval))

/-- The loop of `is_alive` as it stands: `p` does not change. -/
def isAliveLoop (m : Mpath) (sIntf dIntf : NsAddr) (now : ℚ) : ℕ → Option ℕ → Option Bool
  | 0, _ => none
  | _ + 1, none => some false
  | fuel + 1, some p =>
    (m.paths.val p).bind (fun item =>
      if item.sIntf = sIntf ∧ item.dIntf = dIntf then
        some (decide (aliveInterval < now - item.lastRecvTime))
      else isAliveLoop m sIntf dIntf now fuel (some p))

/-- The paths along the list. -/
def items (m : Mpath) (fuel : ℕ) : List MpathItem := m.paths.toList fuel m.paths.head

variable {m m' : Mpath} {zs l r : List ℕ} {vs : List MpathItem} {v w : MpathItem} {now : ℚ} {fuel i j : ℕ}
  {sIntf dIntf : NsAddr} {ans : Option ℕ} {res : Option MpathItem}

/-! ## `is_alive` -/

theorem isAliveLoop_iff {b : Bool} :
    (∃ fuel, m.isAliveLoop sIntf dIntf now fuel m.paths.head = some b) ↔ m.isAlive sIntf dIntf now = some b := by
  rw [isAlive]
  cases hhead : m.paths.head with
  | none =>
    constructor
    · rintro ⟨fuel, hf⟩
      cases fuel with
      | zero => cases hf
      | succ fuel => exact hf
    · exact fun hb => ⟨1, hb⟩
  | some p =>
    dsimp only
    cases hv : m.paths.val p with
    | none =>
      constructor
      · rintro ⟨fuel, hf⟩
        cases fuel with
        | zero => cases hf
        | succ fuel =>
          rw [isAliveLoop, hv] at hf
          cases hf
      · exact fun hb => by cases hb
    | some item =>
      rw [Option.bind_some]
      by_cases hpair : item.sIntf = sIntf ∧ item.dIntf = dIntf
      · rw [if_pos hpair]
        constructor
        · rintro ⟨fuel, hf⟩
          cases fuel with
          | zero => cases hf
          | succ fuel =>
            rw [isAliveLoop, hv, Option.bind_some, if_pos hpair] at hf
            exact hf
        · intro hb
          refine ⟨1, ?_⟩
          rw [isAliveLoop, hv, Option.bind_some, if_pos hpair]
          exact hb
      · -- the same path again and again
        rw [if_neg hpair]
        have hnever : ∀ fuel, m.isAliveLoop sIntf dIntf now fuel (some p) = none := by
          intro fuel
          induction fuel with
          | zero => rfl
          | succ fuel ih => rw [isAliveLoop, hv, Option.bind_some, if_neg hpair, ih]
        constructor
        · rintro ⟨fuel, hf⟩
          rw [hnever] at hf
          cases hf
        · exact fun hb => by cases hb

theorem reads (h : m.paths.Holds zs) (hf : zs.length < fuel) :
    zs.map m.paths.val = (m.items fuel).map some := by
  have hlist : m.items fuel = zs.filterMap m.paths.val := by
    rw [Mpath.items, h.head]
    have hholds : m.paths.Holds ([] ++ zs) := h
    exact hholds.toList hf
  rw [hlist]
  have hall : ∀ z ∈ zs, ∃ v, m.paths.val z = some v := fun z hz => h.exists_val hz
  clear hlist h hf
  induction zs with
  | nil => rfl
  | cons z zs ih =>
    obtain ⟨v, hv⟩ := hall z mem_cons_self
    rw [map_cons, filterMap_cons_some hv, map_cons, hv,
      ih (fun y hy => hall y (mem_cons_of_mem z hy))]

theorem isAlive_eq (h : m.paths.Holds zs) (hf : zs.length < fuel) :
    m.isAlive sIntf dIntf now = match m.items fuel with
      | [] => some false
      | v :: _ => if pairOf v = (sIntf, dIntf) then some (decide (¬ Alive now v)) else none := by
  have hitems := reads h hf
  rw [isAlive, h.head]
  cases zs with
  | nil =>
    rw [map_nil, eq_comm, map_eq_nil_iff] at hitems
    rw [hitems]
    rfl
  | cons z zs =>
    cases hm : m.items fuel with
    | nil =>
      rw [hm] at hitems
      cases hitems
    | cons v vs =>
      rw [hm, map_cons, map_cons, List.cons.injEq] at hitems
      rw [head?_cons]
      dsimp only
      rw [hitems.1, Option.bind_some]
      simp only [pairOf, Prod.mk.injEq, Alive, not_le]

/-! ## The choice -/

/-- The loop of `select_path` over the paths from number `i` on, when all of them are found to be
"alive": `next` is 0, so a later path is taken only if its count is below 0. -/
def choose : ℕ → List MpathItem → Option ℕ → Option ℕ
  | _, [], ans => ans
  | i, v :: vs, ans => choose (i + 1) vs (if ans = none ∨ v.cnt < 0 then some i else ans)

theorem choose_eq (i : ℕ) (vs : List MpathItem) (ans : ℕ) :
    ∃ j, choose i vs (some ans) = some j ∧
      ((j = ans ∧ ∀ v ∈ vs, 0 ≤ v.cnt) ∨
        ∃ k v, j = i + k ∧ vs[k]? = some v ∧ v.cnt < 0 ∧ ∀ k' w, k < k' → vs[k']? = some w → 0 ≤ w.cnt) := by
  induction vs generalizing i ans with
  | nil => exact ⟨ans, rfl, Or.inl ⟨rfl, fun v hv => absurd hv not_mem_nil⟩⟩
  | cons v vs ih =>
    by_cases hneg : v.cnt < 0
    · obtain ⟨j, hj, hor⟩ := ih (i + 1) i
      refine ⟨j, by rw [choose, if_pos (Or.inr hneg), hj], Or.inr ?_⟩
      rcases hor with ⟨rfl, hall⟩ | ⟨k, w, rfl, hw, hw0, hrest⟩
      · refine ⟨0, v, rfl, rfl, hneg, fun k' w hk' hw => ?_⟩
        obtain ⟨k'', rfl⟩ := Nat.exists_eq_add_of_lt hk'
        exact hall w (mem_of_getElem? hw)
      · refine ⟨k + 1, w, by omega, hw, hw0, fun k' w' hk' hw' => ?_⟩
        cases k' with
        | zero => omega
        | succ k' => exact hrest k' w' (by omega) hw'
    · obtain ⟨j, hj, hor⟩ := ih (i + 1) ans
      refine ⟨j, by rw [choose, if_neg (by simp [hneg]), hj], ?_⟩
      rcases hor with ⟨rfl, hall⟩ | ⟨k, w, rfl, hw, hw0, hrest⟩
      · refine Or.inl ⟨rfl, fun w hw => ?_⟩
        rcases mem_cons.mp hw with rfl | hw
        · exact not_lt.mp hneg
        · exact hall w hw
      · refine Or.inr ⟨k + 1, w, by omega, hw, hw0, fun k' w' hk' hw' => ?_⟩
        cases k' with
        | zero => omega
        | succ k' => exact hrest k' w' (by omega) hw'

theorem selectLoop_yes (h : m.paths.Holds (l ++ r)) (hvs : r.map m.paths.val = vs.map some)
    (hf : r.length < fuel) (hyes : ∀ v ∈ vs, m.isAlive v.sIntf v.dIntf now = some true)
    (hans : ∀ j ∈ ans, j < l.length) :
    m.selectLoop now fuel r.head? (ans.bind (fun j => (l ++ r)[j]?)) =
      some ((choose l.length vs ans).bind (fun j => (l ++ r)[j]?)) := by
  induction r generalizing l fuel vs ans with
  | nil =>
    rw [map_nil, eq_comm, map_eq_nil_iff] at hvs
    subst hvs
    cases fuel with
    | zero => omega
    | succ fuel => rfl
  | cons z r ih =>
    cases vs with
    | nil => cases hvs
    | cons v vs =>
      rw [map_cons, map_cons, List.cons.injEq] at hvs
      cases fuel with
      | zero => omega
      | succ fuel =>
        have hnone : ans.bind (fun j => (l ++ z :: r)[j]?) = none ↔ ans = none := by
          cases ans with
          | none => simp
          | some j =>
            have hlt : j < (l ++ z :: r).length := by
              rw [length_append]
              exact Nat.lt_add_right _ (hans j rfl)
            simp [getElem?_eq_getElem hlt]
        have h' : m.paths.Holds ((l ++ [z]) ++ r) := by simpa using h
        have hlen : (l ++ [z]).length = l.length + 1 := by simp
        have happ : (l ++ [z]) ++ r = l ++ z :: r := by simp
        have hrest : ∀ ans' : Option ℕ, (∀ j ∈ ans', j < l.length + 1) →
            m.selectLoop now fuel r.head? (ans'.bind (fun j => (l ++ z :: r)[j]?)) =
              some ((choose (l.length + 1) vs ans').bind (fun j => (l ++ z :: r)[j]?)) := by
          intro ans' hans'
          have hstep := @ih _ _ _ ans' h' hvs.2 (by simpa using hf)
            (fun w hw => hyes w (mem_cons_of_mem v hw)) (fun j hj => hlen ▸ hans' j hj)
          rw [happ, hlen] at hstep
          exact hstep
        rw [head?_cons, selectLoop, hvs.1, Option.bind_some, hyes v mem_cons_self,
          Option.bind_some, h.next_eq, choose]
        by_cases hc : ans = none ∨ v.cnt < 0
        · have hz : some z = (some l.length).bind (fun j => (l ++ z :: r)[j]?) := by simp
          rw [if_pos ⟨rfl, hc.imp_left hnone.mpr⟩, if_pos hc, hz]
          exact hrest (some l.length) (fun j hj => by cases hj; exact Nat.lt_succ_self _)
        · rw [if_neg (fun hand => hc (hand.2.imp_left hnone.mp)), if_neg hc]
          exact hrest ans (fun j hj => Nat.lt_succ_of_lt (hans j hj))

theorem selectLoop_no {o : Option ℕ} (h : m.paths.Holds (l ++ r)) (hvs : r.map m.paths.val = vs.map some)
    (hf : r.length < fuel) (hno : ∀ v ∈ vs, m.isAlive v.sIntf v.dIntf now = some false) :
    m.selectLoop now fuel r.head? o = some o := by
  induction r generalizing l fuel vs with
  | nil =>
    cases fuel with
    | zero => omega
    | succ fuel => rfl
  | cons z r ih =>
    cases vs with
    | nil => cases hvs
    | cons v vs =>
      rw [map_cons, map_cons, List.cons.injEq] at hvs
      cases fuel with
      | zero => omega
      | succ fuel =>
        have h' : m.paths.Holds ((l ++ [z]) ++ r) := by simpa using h
        rw [head?_cons, selectLoop, hvs.1, Option.bind_some, hno v mem_cons_self,
          Option.bind_some, if_neg (by simp), h.next_eq]
        exact ih h' hvs.2 (by simpa using hf) (fun w hw => hno w (mem_cons_of_mem v hw))

theorem selectLoop_never {o : Option ℕ} (h : m.paths.Holds (l ++ r)) (hvs : r.map m.paths.val = vs.map some)
    (hv : v ∈ vs) (hnever : m.isAlive v.sIntf v.dIntf now = none) (fuel : ℕ) :
    m.selectLoop now fuel r.head? o = none := by
  induction r generalizing l fuel vs o with
  | nil =>
    rw [map_nil, eq_comm, map_eq_nil_iff] at hvs
    rw [hvs] at hv
    cases hv
  | cons z r ih =>
    cases vs with
    | nil => cases hv
    | cons w vs =>
      rw [map_cons, map_cons, List.cons.injEq] at hvs
      cases fuel with
      | zero => rfl
      | succ fuel =>
        have h' : m.paths.Holds ((l ++ [z]) ++ r) := by simpa using h
        rw [head?_cons, selectLoop, hvs.1, Option.bind_some]
        rcases mem_cons.mp hv with rfl | hv
        · rw [hnever, Option.bind_none]
        · cases m.isAlive w.sIntf w.dIntf now with
          | none => rfl
          | some b =>
            rw [Option.bind_some, h.next_eq]
            split
            · exact ih h' hvs.2 hv fuel
            · exact ih h' hvs.2 hv fuel

/-! ## Termination -/

def SamePair (vs : List MpathItem) : Prop := ∀ v ∈ vs, ∀ w ∈ vs.head?, pairOf v = pairOf w

instance (vs : List MpathItem) : Decidable (SamePair vs) :=
  inferInstanceAs (Decidable (∀ v ∈ vs, ∀ w ∈ vs.head?, pairOf v = pairOf w))

theorem isAlive_same (h : m.paths.Holds zs) (hf : zs.length < fuel) (hsame : SamePair (m.items fuel))
    (hfirst : (m.items fuel).head? = some w) (hv : v ∈ m.items fuel) :
    m.isAlive v.sIntf v.dIntf now = some (decide (¬ Alive now w)) := by
  rw [isAlive_eq h hf]
  have hpair := hsame v hv w hfirst
  cases hm : m.items fuel with
  | nil =>
    rw [hm] at hv
    cases hv
  | cons u us =>
    rw [hm, head?_cons, Option.some.injEq] at hfirst
    subst hfirst
    exact if_pos hpair.symm

theorem isAliveLoop_returns_iff (h : m.paths.Holds zs) (hf : zs.length < fuel) :
    (∃ n b, m.isAliveLoop sIntf dIntf now n m.paths.head = some b) ↔
      ∀ w ∈ (m.items fuel).head?, pairOf w = (sIntf, dIntf) := by
  have hiff : (∃ n b, m.isAliveLoop sIntf dIntf now n m.paths.head = some b) ↔
      ∃ b, m.isAlive sIntf dIntf now = some b := by
    rw [exists_comm]
    exact exists_congr (fun b => isAliveLoop_iff)
  rw [hiff, isAlive_eq h hf]
  cases m.items fuel with
  | nil => simp
  | cons v vs =>
    by_cases hpair : pairOf v = (sIntf, dIntf)
    · simp [Classical.em]
    · simp [hpair]

theorem selectPath_returns_iff (h : m.paths.Holds zs) (hf : zs.length < fuel) :
    (∃ n res, m.selectPath now n = some res) ↔ SamePair (m.items fuel) := by
  constructor
  · rintro ⟨n, res, hres⟩ v hv w hw
    by_contra hpair
    have hnever : m.isAlive v.sIntf v.dIntf now = none := by
      rw [isAlive_eq h hf]
      cases hm : m.items fuel with
      | nil =>
        rw [hm] at hw
        cases hw
      | cons u us =>
        rw [hm, head?_cons, Option.mem_some_iff] at hw
        subst hw
        exact if_neg (fun heq => hpair heq.symm)
    have hholds : m.paths.Holds ([] ++ zs) := h
    have hloop := selectLoop_never (o := none) hholds (reads h hf) hv hnever n
    rw [selectPath, h.head, hloop] at hres
    cases hres
  · intro hsame
    have hholds : m.paths.Holds ([] ++ zs) := h
    have hret : ∃ o, m.selectLoop now fuel m.paths.head none = some o ∧ ∀ p ∈ o, p ∈ zs := by
      rw [h.head]
      cases hm : (m.items fuel).head? with
      | none =>
        refine ⟨none, selectLoop_no hholds (reads h hf) hf (fun v hv => ?_), fun p hp => by cases hp⟩
        rw [head?_eq_none_iff] at hm
        rw [hm] at hv
        cases hv
      | some w =>
        have hall := fun v hv => @isAlive_same _ _ v _ now _ h hf hsame hm hv
        by_cases halive : Alive now w
        · refine ⟨none, selectLoop_no hholds (reads h hf) hf (fun v hv => ?_), fun p hp => by cases hp⟩
          rw [hall v hv]
          simp [halive]
        · refine ⟨_, @selectLoop_yes _ _ _ _ _ _ none hholds (reads h hf) hf (fun v hv => ?_) (fun j hj => by cases hj), fun p hp => ?_⟩
          · rw [hall v hv]
            simp [halive]
          · obtain ⟨j, -, hj⟩ := Option.bind_eq_some_iff.mp hp
            exact mem_of_getElem? hj
    obtain ⟨o, hloop, hmem⟩ := hret
    cases o with
    | none => exact ⟨fuel, _, by rw [selectPath, hloop]; rfl⟩
    | some p =>
      obtain ⟨v, hv⟩ := h.exists_val (hmem p rfl)
      exact ⟨fuel, _, by rw [selectPath, hloop, Option.bind_some]; dsimp only; rw [hv]; rfl⟩

/-- **Which calls return.** `is_alive` returns if the list is empty or the pair is that of the first path,
and `select_path` if all paths have the pair of the first one; no other call returns. -/
theorem select_path_returns (m : Mpath) (zs : List ℕ) (h : m.paths.Holds zs) (fuel : ℕ) (hf : zs.length < fuel)
    (now : ℚ) :
    (∀ sIntf dIntf, (∃ n b, m.isAliveLoop sIntf dIntf now n m.paths.head = some b) ↔
      ∀ w ∈ (m.items fuel).head?, pairOf w = (sIntf, dIntf)) ∧
    ((∃ n res, m.selectPath now n = some res) ↔ SamePair (m.items fuel)) :=
  ⟨fun _ _ => isAliveLoop_returns_iff h hf, selectPath_returns_iff h hf⟩

/-- Two paths with the same pair: the first was quiet for long, and the other one has a count below 0. -/
def twoPaths : Mpath :=
  { selectAddr := 1
    paths :=
      { next := fun a => if a = 1 then some 0 else none
        prev := fun a => if a = 0 then some 1 else none
        val := fun a => if a = 1 then some ⟨11, 12, 0, 0⟩ else if a = 0 then some ⟨11, 12, 5, -1⟩ else none
        head := some 1 } }

theorem twoPaths_holds : twoPaths.paths.Holds [1, 0] := by
  refine ⟨rfl, ⟨rfl, rfl, rfl, rfl, trivial⟩, by decide, fun a => ?_⟩
  by_cases h1 : a = 1
  · simp [twoPaths, h1]
  · by_cases h0 : a = 0
    · simp [twoPaths, h0]
    · simp [twoPaths, h0]

/-- The two functions return for two paths with the same pair. -/
theorem select_path_returns_twoPaths :
    (∃ n b, twoPaths.isAliveLoop 11 12 6 n twoPaths.paths.head = some b) ∧
      ∃ n res, twoPaths.selectPath 6 n = some res := by
  have hret := select_path_returns twoPaths [1, 0] twoPaths_holds 3 (by decide) 6
  exact ⟨(hret.1 11 12).mpr (by decide +kernel), hret.2.mpr (by decide +kernel)⟩

/-- Two paths to different interfaces. -/
def forkedPaths : Mpath :=
  { twoPaths with paths := { twoPaths.paths with
      val := fun a => if a = 1 then some ⟨11, 12, 0, 0⟩ else if a = 0 then some ⟨21, 22, 0, 0⟩ else none } }

theorem forkedPaths_holds : forkedPaths.paths.Holds [1, 0] := by
  refine twoPaths_holds.of_val rfl rfl rfl (fun a => ?_)
  by_cases h1 : a = 1
  · simp [twoPaths, forkedPaths, h1]
  · by_cases h0 : a = 0
    · simp [twoPaths, forkedPaths, h0]
    · simp [twoPaths, forkedPaths, h0]

/-- `is_alive` of the second path does not return, and so `select_path` does not. -/
theorem select_path_hangs :
    forkedPaths.paths.Holds [1, 0] ∧
      (¬ ∃ n b, forkedPaths.isAliveLoop 21 22 1 n forkedPaths.paths.head = some b) ∧
      ¬ ∃ n res, forkedPaths.selectPath 1 n = some res := by
  have hitems : forkedPaths.items 3 = [⟨11, 12, 0, 0⟩, ⟨21, 22, 0, 0⟩] := rfl
  refine ⟨forkedPaths_holds, fun hret => ?_, fun hret => ?_⟩
  · obtain ⟨n, b, hb⟩ := hret
    have halive := isAliveLoop_iff.mp ⟨n, hb⟩
    rw [isAlive_eq forkedPaths_holds (show [1, 0].length < 3 by decide), hitems] at halive
    simp [pairOf] at halive
  · obtain ⟨n, res, hres⟩ := hret
    have hholds : forkedPaths.paths.Holds ([] ++ [1, 0]) := forkedPaths_holds
    have hloop := @selectLoop_never _ _ _ ([⟨11, 12, 0, 0⟩, ⟨21, 22, 0, 0⟩]) (⟨21, 22, 0, 0⟩) 1 none hholds rfl (by simp) (by decide +kernel) n
    rw [selectPath, show forkedPaths.paths.head = [1, 0].head? from rfl, hloop] at hres
    cases hres

/-! ## A live, least used path -/

/-- **The choice is right**: no path is alive and none is chosen, or a path that is alive and least used
among those is chosen, and its count, and no other, is incremented. -/
def Right (m : Mpath) (fuel : ℕ) (now : ℚ) : Prop :=
  ∃ m' res, m.selectPath now fuel = some (m', res) ∧
    match res with
    | none => (∀ v ∈ m.items fuel, ¬ Alive now v) ∧ m'.items fuel = m.items fuel
    | some path => ∃ i v, (m.items fuel)[i]? = some v ∧ Alive now v ∧
        (∀ w ∈ m.items fuel, Alive now w → v.cnt ≤ w.cnt) ∧ pairOf path = pairOf v ∧
        m'.items fuel = (m.items fuel).set i { v with cnt := v.cnt + 1 }

/-- The lists for which the choice is right: the list is empty; or all paths have the pair of the first
one, which is not alive, and the last path with a count below 0 is alive and least used among those. -/
def Lucky (now : ℚ) (vs : List MpathItem) : Prop :=
  vs = [] ∨ SamePair vs ∧ (∀ w ∈ vs.head?, ¬ Alive now w) ∧
    ∃ (i : ℕ) (v : MpathItem), vs[i]? = some v ∧ v.cnt < 0 ∧
      (∀ (k : ℕ) (w : MpathItem), i < k → vs[k]? = some w → 0 ≤ w.cnt) ∧ Alive now v ∧
      ∀ w ∈ vs, Alive now w → v.cnt ≤ w.cnt

def setItem (m : Mpath) (z : ℕ) (v : MpathItem) : Mpath :=
  { m with paths := { m.paths with val := update m.paths.val z (some v) } }

theorem setItem_items {z : ℕ} (h : m.paths.Holds zs) (hf : zs.length < fuel) (hz : zs[j]? = some z) :
    (m.setItem z v).paths.Holds zs ∧ (m.setItem z v).items fuel = (m.items fuel).set j v := by
  have hmem : z ∈ zs := mem_of_getElem? hz
  have hholds : (m.setItem z v).paths.Holds zs := by
    refine h.of_val rfl rfl rfl (fun a => ?_)
    show (update m.paths.val z (some v) a).isSome = true ↔ _
    by_cases ha : a = z
    · rw [ha, update_self, h.live]
      simp [hmem]
    · rw [update_of_ne ha]
  refine ⟨hholds, map_injective_iff.mpr (Option.some_injective _) ?_⟩
  rw [← reads hholds hf, map_set, ← reads h hf]
  refine ext_getElem? (fun i => ?_)
  rw [getElem?_set, getElem?_map, length_map, getElem?_map]
  split
  case isTrue hi =>
    subst hi
    rw [if_pos (List.getElem?_eq_some_iff.mp hz).1, hz, Option.map_some]
    exact congrArg some (update_self _ _ _)
  case isFalse hi =>
    cases hx : zs[i]? with
    | none => rfl
    | some x =>
      have hne : x ≠ z := by
        rintro rfl
        exact hi ((getElem?_inj (List.getElem?_eq_some_iff.mp hz).1 h.nodup).mp (hz.trans hx.symm))
      exact congrArg some (update_of_ne hne _ _)

theorem selectPath_same (h : m.paths.Holds zs) (hf : zs.length < fuel) (hsame : SamePair (m.items fuel)) :
    ((∀ w ∈ (m.items fuel).head?, Alive now w) ∧ m.selectPath now fuel = some (m, none)) ∨
    ((∃ w ∈ (m.items fuel).head?, ¬ Alive now w) ∧ ∃ j v, choose 0 (m.items fuel) none = some j ∧
      (m.items fuel)[j]? = some v ∧ ∃ m', m.selectPath now fuel = some (m', some { v with cnt := v.cnt + 1 }) ∧
        m'.paths.Holds zs ∧ m'.items fuel = (m.items fuel).set j { v with cnt := v.cnt + 1 }) := by
  have hholds : m.paths.Holds ([] ++ zs) := h
  have hreads := reads h hf
  cases hm : (m.items fuel).head? with
  | none =>
    refine Or.inl ⟨fun w hw => (by cases hw), ?_⟩
    have hloop := @selectLoop_no _ _ _ _ now _ none hholds hreads hf (fun v hv => by
      rw [head?_eq_none_iff] at hm
      rw [hm] at hv
      cases hv)
    rw [selectPath, h.head, hloop]
    rfl
  | some w =>
    have hall := fun v hv => @isAlive_same _ _ v _ now _ h hf hsame hm hv
    by_cases halive : Alive now w
    · refine Or.inl ⟨fun u hu => by cases hu; exact halive, ?_⟩
      have hloop := @selectLoop_no _ _ _ _ now _ none hholds hreads hf (fun v hv => by rw [hall v hv]; simp [halive])
      rw [selectPath, h.head, hloop]
      rfl
    · refine Or.inr ⟨⟨w, rfl, halive⟩, ?_⟩
      have hloop := @selectLoop_yes _ _ _ _ now _ none hholds hreads hf (fun v hv => by rw [hall v hv]; simp [halive]) (fun j hj => by cases hj)
      rw [Option.bind_none, length_nil, nil_append] at hloop
      have hlen : (m.items fuel).length = zs.length := by
        have hcong := congrArg List.length hreads
        simpa using hcong.symm
      obtain ⟨j, hj, hjlt⟩ : ∃ j, choose 0 (m.items fuel) none = some j ∧ j < (m.items fuel).length := by
        cases hitems : m.items fuel with
        | nil =>
          rw [hitems] at hm
          cases hm
        | cons u us =>
          obtain ⟨j, hj, hor⟩ := choose_eq 1 us 0
          refine ⟨j, hj, ?_⟩
          rcases hor with ⟨rfl, -⟩ | ⟨k, x, rfl, hx, -⟩
          · simp
          · have hk := (List.getElem?_eq_some_iff.mp hx).1
            rw [length_cons]
            omega
      obtain ⟨v, hv⟩ : ∃ v, (m.items fuel)[j]? = some v := ⟨_, getElem?_eq_getElem hjlt⟩
      have hz : zs[j]? = some (zs.get ⟨j, hlen ▸ hjlt⟩) := getElem?_eq_getElem _
      generalize zs.get ⟨j, hlen ▸ hjlt⟩ = z at hz
      have hval : m.paths.val z = some v := by
        have hcong := congrArg (fun xs => xs[j]?) hreads
        simp only [getElem?_map, hz, hv, Option.map_some, Option.some.injEq] at hcong
        exact hcong
      refine ⟨j, v, hj, hv, m.setItem z { v with cnt := v.cnt + 1 }, ?_, setItem_items h hf hz⟩
      rw [selectPath, h.head, hloop, hj, Option.bind_some, Option.bind_some, hz]
      dsimp only
      rw [hval]
      rfl

theorem set_eq_set {vs : List MpathItem} (hi : vs[i]? = some v)
    (hset : vs.set i { v with cnt := v.cnt + 1 } = vs.set j { w with cnt := w.cnt + 1 }) : i = j := by
  by_contra hne
  have hcong := congrArg (fun xs => xs[i]?) hset
  simp only [getElem?_set, if_true, if_neg (fun h : j = i => hne h.symm),
    if_pos (List.getElem?_eq_some_iff.mp hi).1, hi, Option.some.injEq] at hcong
  have hcnt := congrArg MpathItem.cnt hcong
  simp at hcnt

theorem right_iff (h : m.paths.Holds zs) (hf : zs.length < fuel) :
    Right m fuel now ↔ Lucky now (m.items fuel) := by
  constructor
  · rintro ⟨m', res, hres, hright⟩
    have hsame : SamePair (m.items fuel) := (selectPath_returns_iff h hf).mp ⟨fuel, _, hres⟩
    by_cases hnil : m.items fuel = []
    · exact Or.inl hnil
    obtain ⟨u, us, hitems⟩ := exists_cons_of_ne_nil hnil
    rcases @selectPath_same _ _ now _ h hf hsame with ⟨hfirst, heq⟩ | ⟨⟨w, hw, hnot⟩, j, v, hj, hv, m'', heq, -, hset⟩
    · -- The first path is alive, and none is chosen.
      rw [heq] at hres
      cases hres
      have halive := hfirst u (by rw [hitems]; rfl)
      exact absurd halive (hright.1 u (by rw [hitems]; exact mem_cons_self))
    · rw [heq] at hres
      cases hres
      obtain ⟨i, x, hi, hx, hleast, -, hset'⟩ := hright
      obtain rfl := set_eq_set hi (hset'.symm.trans hset)
      rw [hi] at hv
      cases hv
      have hchoose := choose_eq 1 us 0
      obtain ⟨k, hk, hor⟩ := hchoose
      have hk' : choose 0 (m.items fuel) none = some k := by rw [hitems]; exact hk
      rw [hj] at hk'
      cases hk'
      refine Or.inr ⟨hsame, fun w' hw' => ?_, ?_⟩
      · rw [hw] at hw'
        cases hw'
        exact hnot
      -- `choose` ends at the first path or at the last one with a count below 0
      · rcases hor with ⟨rfl, -⟩ | ⟨k, y, rfl, hy, hneg, hlater⟩
        · -- the first path itself, which is not alive
          rw [hitems] at hi hw
          cases hi
          cases hw
          exact absurd hx hnot
        · rw [hitems, Nat.add_comm, getElem?_cons_succ] at hi
          rw [hy] at hi
          cases hi
          refine ⟨1 + k, _, ?_, hneg, fun k' w' hk' hw' => ?_, hx, hleast⟩
          · rw [hitems, Nat.add_comm, getElem?_cons_succ]
            exact hy
          · cases k' with
            | zero => omega
            | succ k' =>
              rw [hitems, getElem?_cons_succ] at hw'
              exact hlater k' w' (by omega) hw'
  · rintro (hnil | ⟨hsame, hfirst, i, v, hi, hneg, hlater, hv, hleast⟩)
    · have hsame : SamePair (m.items fuel) := by
        rw [hnil]
        exact fun v hv => absurd hv not_mem_nil
      rcases @selectPath_same _ _ now _ h hf hsame with ⟨-, heq⟩ | ⟨⟨w, hw, -⟩, -⟩
      · refine ⟨m, none, heq, fun v hv => ?_, rfl⟩
        rw [hnil] at hv
        exact absurd hv not_mem_nil
      · rw [hnil] at hw
        cases hw
    · obtain ⟨u, us, hitems⟩ := exists_cons_of_ne_nil
        (ne_nil_of_mem (mem_of_getElem? hi))
      rcases @selectPath_same _ _ now _ h hf hsame with ⟨halive, -⟩ | ⟨-, j, w, hj, hw, m', heq, -, hset⟩
      · have hu : u ∈ (m.items fuel).head? := by rw [hitems]; rfl
        exact absurd (halive u hu) (hfirst u hu)
      · -- The last count below 0 is the one that is chosen.
        have hij : i = j := by
          obtain ⟨k, hk, hor⟩ := choose_eq 1 us 0
          have hk' : choose 0 (m.items fuel) none = some k := by rw [hitems]; exact hk
          rw [hj] at hk'
          cases hk'
          have hi0 : i ≠ 0 := by
            rintro rfl
            rw [hitems] at hi
            cases hi
            exact hfirst v (by rw [hitems]; rfl) hv
          obtain ⟨i, rfl⟩ := Nat.exists_eq_succ_of_ne_zero hi0
          rw [hitems, getElem?_cons_succ] at hi
          rcases hor with ⟨rfl, hall⟩ | ⟨k, y, rfl, hy, hyneg, hylater⟩
          · exact absurd hneg (by have := hall v (mem_of_getElem? hi); omega)
          · rcases lt_trichotomy i k with hlt | rfl | hlt
            · have hk := hlater (k + 1) y (by omega) (by rw [hitems]; exact hy)
              omega
            · omega
            · have hk := hylater i v hlt hi
              omega
        subst hij
        rw [hi] at hw
        cases hw
        exact ⟨m', _, heq, i, v, hi, hv, hleast, rfl, hset⟩

/-! ## Runs of selections -/

def selectStep (fuel : ℕ) (m : Mpath) (now : ℚ) : Option (Mpath × Option MpathItem) := m.selectPath now fuel

def AllRight (m : Mpath) (fuel : ℕ) (times : List ℚ) : Prop :=
  ∀ past now, past ++ [now] <+: times →
    ∃ m' outs, Runs.run (selectStep fuel) m past = some (m', outs) ∧ Right m' fuel now

/-- The counts of the paths that are alive differ by at most 1. -/
def Balanced (now : ℚ) (vs : List MpathItem) : Prop :=
  ∀ v ∈ vs, ∀ w ∈ vs, Alive now v → Alive now w → v.cnt ≤ w.cnt + 1

/-- **Load balancing**: in a run in which the same paths are alive all the time, from equal counts on, the
counts stay balanced. -/
def StaysBalanced (m : Mpath) (fuel : ℕ) (times : List ℚ) : Prop :=
  (∀ now ∈ times, ∀ now' ∈ times, ∀ v ∈ m.items fuel, Alive now v ↔ Alive now' v) →
    (∀ now ∈ times, ∀ v ∈ m.items fuel, ∀ w ∈ m.items fuel, Alive now v → Alive now w → v.cnt = w.cnt) →
      ∀ past, past <+: times → ∀ m' outs, Runs.run (selectStep fuel) m past = some (m', outs) →
        ∀ now ∈ times, Balanced now (m'.items fuel)

theorem Balanced.set {t : ℚ} (h : Balanced t vs) (hi : vs[i]? = some v)
    (hleast : ∀ w ∈ vs, Alive t w → v.cnt ≤ w.cnt) : Balanced t (vs.set i { v with cnt := v.cnt + 1 }) := by
  have hmem : ∀ x ∈ vs.set i { v with cnt := v.cnt + 1 }, x ∈ vs ∨ x = { v with cnt := v.cnt + 1 } :=
    fun x hx => mem_or_eq_of_mem_set hx
  intro x hx y hy hax hay
  rcases hmem x hx with hx | rfl
  · rcases hmem y hy with hy | rfl
    · exact h x hx y hy hax hay
    · have hxv := h x hx v (mem_of_getElem? hi) hax hay
      show x.cnt ≤ v.cnt + 1 + 1
      omega
  · rcases hmem y hy with hy | rfl
    · have hvy := hleast y hy hay
      show v.cnt + 1 ≤ y.cnt + 1
      omega
    · omega

theorem alive_set {vs : List MpathItem} {P : MpathItem → Prop} (hP : ∀ v n, P v → P { v with cnt := n })
    (hi : vs[i]? = some v) (hall : ∀ x ∈ vs, P x) : ∀ x ∈ vs.set i { v with cnt := v.cnt + 1 }, P x := by
  intro x hx
  rcases mem_or_eq_of_mem_set hx with hx | rfl
  · exact hall x hx
  · exact hP v _ (hall v (mem_of_getElem? hi))

theorem selectPath_holds (h : m.paths.Holds zs) (hf : zs.length < fuel)
    (hs : m.selectPath now fuel = some (m', res)) : m'.paths.Holds zs := by
  have hsame : SamePair (m.items fuel) := (selectPath_returns_iff h hf).mp ⟨fuel, _, hs⟩
  rcases @selectPath_same _ _ now _ h hf hsame with ⟨-, heq⟩ | ⟨-, j, v, -, -, m'', heq, hholds, -⟩
  · rw [heq] at hs
    cases hs
    exact h
  · rw [heq] at hs
    cases hs
    exact hholds

theorem run_holds {times : List ℚ} {outs : List (Option MpathItem)} (h : m.paths.Holds zs)
    (hf : zs.length < fuel) (hrun : Runs.run (selectStep fuel) m times = some (m', outs)) :
    m'.paths.Holds zs :=
  @Runs.run_preserves _ _ _ _ (fun _ _ => True) _ _ _ _ [] (fun _ m => m.paths.Holds zs) (fun _ _ _ _ _ h _ hs => selectPath_holds h hf hs) h (Runs.meets_of_forall (fun _ _ => trivial)) hrun

theorem AllRight.staysBalanced {times : List ℚ} (hright : AllRight m fuel times) : StaysBalanced m fuel times := by
  intro hsame hequal past hpast
  -- what is kept: the same paths are alive at all times, and the counts are balanced
  have hinv : ∀ past, past <+: times → ∀ m' outs, Runs.run (selectStep fuel) m past = some (m', outs) →
      (∀ now ∈ times, ∀ now' ∈ times, ∀ v ∈ m'.items fuel, Alive now v ↔ Alive now' v) ∧
        ∀ now ∈ times, Balanced now (m'.items fuel) := by
    intro past
    induction past using List.reverseRecOn with
    | nil =>
      intro _ m' outs hrun
      cases hrun
      exact ⟨hsame, fun now hnow v hv w hw hav haw => by
        rw [hequal now hnow v hv w hw hav haw]
        omega⟩
    | append_singleton past t ih =>
      intro hpre m' outs hrun
      obtain ⟨m₁, outs₁, hrun₁, m₂, res, hres, hchoice⟩ := hright past t hpre
      obtain ⟨hsame₁, hbal₁⟩ := ih ((prefix_append _ _).trans hpre) m₁ outs₁ hrun₁
      have hstep : selectStep fuel m₁ t = some (m₂, res) := hres
      rw [Runs.run_concat hrun₁ hstep] at hrun
      cases hrun
      have ht : t ∈ times := hpre.subset (by simp)
      cases res with
      | none =>
        rw [hchoice.2]
        exact ⟨hsame₁, hbal₁⟩
      | some path =>
        obtain ⟨i, v, hi, hv, hleast, -, hset⟩ := hchoice
        rw [hset]
        refine ⟨fun now hnow now' hnow' => ?_, fun now hnow => ?_⟩
        · exact alive_set (P := fun x => Alive now x ↔ Alive now' x) (fun x n hx => hx) hi
            (hsame₁ now hnow now' hnow')
        · refine (hbal₁ now hnow).set hi (fun w hw haw => hleast w hw ?_)
          exact (hsame₁ now hnow t ht w hw).mp haw
  intro m' outs hrun
  exact (hinv past hpast m' outs hrun).2

/-- **Path selection, exactly.** The selections of a run are right, and balance the load, if and only if
each meets a list for which the choice is right. -/
theorem select_path_right (m : Mpath) (zs : List ℕ) (h : m.paths.Holds zs) (fuel : ℕ) (hf : zs.length < fuel)
    (times : List ℚ) :
    (AllRight m fuel times ∧ StaysBalanced m fuel times) ↔
      Runs.Meets (selectStep fuel) (fun m now => Lucky now (m.items fuel)) m times := by
  constructor
  · rintro ⟨hright, -⟩
    refine Runs.meets_of_prefixes (fun past now r hpre _ hr => ?_)
    obtain ⟨m', outs, hrun, hr'⟩ := hright past now hpre
    rw [hrun] at hr
    cases hr
    exact (right_iff (run_holds h hf hrun) hf).mp hr'
  · intro hmeets
    have hright : AllRight m fuel times := by
      intro past now hpre
      obtain ⟨rest, rfl⟩ := hpre
      obtain ⟨hpast, hlast⟩ := Runs.meets_concat.mp hmeets.append_left
      obtain ⟨m', outs, hrun, hholds⟩ := @Runs.run_invariant _ _ _ _ _ _ _ (fun _ _ m => m.paths.Holds zs) (fun _ _ m₁ now₁ h₁ hlucky => by
          obtain ⟨m₂, res, hres, -⟩ := (right_iff h₁ hf).mpr hlucky
          exact ⟨m₂, res, hres, selectPath_holds h₁ hf hres⟩) h hpast
      exact ⟨m', outs, hrun, (right_iff hholds hf).mpr (hlast _ hrun)⟩
    exact ⟨hright, hright.staysBalanced⟩

/-- Of the two paths, the one that is alive is chosen. -/
theorem select_path_right_twoPaths : AllRight twoPaths 3 [6] ∧ StaysBalanced twoPaths 3 [6] := by
  refine (select_path_right twoPaths [1, 0] twoPaths_holds 3 (by decide) [6]).mpr ⟨Or.inr ?_, fun _ _ => trivial⟩
  have hitems : twoPaths.items 3 = [⟨11, 12, 0, 0⟩, ⟨11, 12, 5, -1⟩] := rfl
  rw [hitems]
  refine ⟨by decide, by decide +kernel, 1, ⟨11, 12, 5, -1⟩, rfl, by decide, fun k w hk hw => ?_,
    by decide +kernel, by decide +kernel⟩
  obtain ⟨k, rfl⟩ := Nat.exists_eq_add_of_lt hk
  simp at hw

/-- A path that was added at the time 0. -/
def onePath : Mpath :=
  { selectAddr := 1
    paths :=
      { next := fun _ => none
        prev := fun _ => none
        val := fun a => if a = 0 then some ⟨11, 12, 0, 0⟩ else none
        head := some 0 } }

theorem onePath_holds : onePath.paths.Holds [0] := by
  refine ⟨rfl, ⟨rfl, rfl, trivial⟩, by decide, fun a => ?_⟩
  by_cases h0 : a = 0
  · simp [onePath]
  · simp [onePath]

/-- At the time 1 no path is chosen, though the only path is alive. -/
theorem live_path_not_selected : onePath.paths.Holds [0] ∧ ¬ AllRight onePath 2 [1] := by
  refine ⟨onePath_holds, fun hright => ?_⟩
  obtain ⟨m', outs, hrun, hr⟩ := hright [] 1 (prefix_refl _)
  cases hrun
  rcases (right_iff onePath_holds (by decide)).mp hr with hnil | ⟨-, hfirst, -⟩
  · cases hnil
  · exact hfirst ⟨11, 12, 0, 0⟩ (by rfl) (by decide +kernel)

end Mpath

end NetSim
