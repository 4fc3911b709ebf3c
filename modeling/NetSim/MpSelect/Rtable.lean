import NetSim.Lib.HeadList
import NetSim.Lib.Runs
import Mathlib.Data.Rat.Defs

/-! # The routing table of mpSelect

`mpRtable` of `mpSelect/mpSelect_rtable.cc`: a doubly linked list of routes and one of selects. A
select (`mpath`) has a doubly linked list of paths, and a route with `mp_flag_` points to a select.

The lists are `HeadList`s, so a node that has been freed has no value. `none` stands for an access
to a null pointer or to a freed node, and for a loop that does not end.
-/

namespace NetSim

open Function List LinkedList

abbrev NsAddr := BitVec 32

def ipBroadcast : NsAddr := 0xffffffff

structure MpathItem where
  sIntf : NsAddr
  dIntf : NsAddr
  lastRecvTime : ℚ
  cnt : ℤ

structure Mpath where
  selectAddr : NsAddr
  paths : HeadList MpathItem

/-- `route_item`. `mptable` is not initialised by `add_item`; it is not read before `mp_flag_` is
set. -/
structure RouteItem where
  daddrSeg : NsAddr
  mask : NsAddr
  nextHop : NsAddr
  mpFlag : Bool
  mptable : Option ℕ

/-- `mpRtable`; `fresh` is the next address that `new` returns. -/
structure MpRtable where
  routes : HeadList RouteItem
  selects : HeadList Mpath
  fresh : ℕ

/-! ## Paths -/

namespace Mpath

def addMpathItem (m : Mpath) (addr : ℕ) (sIntf dIntf : NsAddr) (now : ℚ) : Option Mpath :=
  (m.paths.pushFront addr { sIntf, dIntf, lastRecvTime := now, cnt := 0 }).map
    (fun paths => { m with paths })

def deleteMpathItem (m : Mpath) (fuel : ℕ) (sIntf dIntf : NsAddr) : Option Mpath :=
  (m.paths.find (fun p => p.sIntf = sIntf ∧ p.dIntf = dIntf) fuel m.paths.head).bind (fun p =>
    match p with
    | none => some m
    | some p => (m.paths.unlink p).map (fun paths => { m with paths }))

/-- `mpath::clear`: free the paths from the first one on. -/
def clear : ℕ → HeadList MpathItem → Option (HeadList MpathItem)
  | 0, _ => none
  | fuel + 1, paths =>
    match paths.head with
    | none => some paths
    | some p =>
      (paths.val p).bind (fun _ =>
        clear fuel { paths with head := paths.next p, val := update paths.val p none })

def aliveInterval : ℚ := 2

/-- `mpath::is_alive`. The loop does not go to the next path, so it does not end if the first path
is another one. -/
def isAlive (m : Mpath) (sIntf dIntf : NsAddr) (now : ℚ) : Option Bool :=
  match m.paths.head with
  | none => some false
  | some p =>
    (m.paths.val p).bind (fun item =>
      if item.sIntf = sIntf ∧ item.dIntf = dIntf then
        some (decide (aliveInterval < now - item.lastRecvTime))
      else none)

/-- The loop of `mpath::select_path`; `ans` is the path chosen so far. `next` is 0 throughout. -/
def selectLoop (m : Mpath) (now : ℚ) : ℕ → Option ℕ → Option ℕ → Option (Option ℕ)
  | 0, _, _ => none
  | _ + 1, none, ans => some ans
  | fuel + 1, some p, ans =>
    (m.paths.val p).bind (fun item =>
      (m.isAlive item.sIntf item.dIntf now).bind (fun alive =>
        if alive ∧ (ans = none ∨ item.cnt < 0) then selectLoop m now fuel (m.paths.next p) (some p)
        else selectLoop m now fuel (m.paths.next p) ans))

/-- `mpath::select_path`: the chosen path, with its `cnt_` incremented. `none` inside: there is no
path, and `IP_BROADCAST` is returned. -/
def selectPath (m : Mpath) (now : ℚ) (fuel : ℕ) : Option (Mpath × Option MpathItem) :=
  (m.selectLoop now fuel m.paths.head none).bind (fun ans =>
    match ans with
    | none => some (m, none)
    | some p =>
      (m.paths.val p).map (fun item =>
        let item := { item with cnt := item.cnt + 1 }
        ({ m with paths := { m.paths with val := update m.paths.val p (some item) } },
          some item)))

def updateRecvTime (m : Mpath) (fuel : ℕ) (sIntf dIntf : NsAddr) (t : ℚ) : Option Mpath :=
  (m.paths.find (fun p => p.sIntf = sIntf ∧ p.dIntf = dIntf) fuel m.paths.head).bind (fun p =>
    match p with
    | none => some m
    | some p =>
      (m.paths.val p).map (fun item =>
        { m with paths := { m.paths with
            val := update m.paths.val p (some { item with lastRecvTime := t }) } }))

end Mpath

/-! ## The table -/

namespace MpRtable

/-- The number of nodes is at most `fresh`, which bounds the walks. -/
def fuel (t : MpRtable) : ℕ := t.fresh + 1

def empty : MpRtable := { routes := HeadList.empty, selects := HeadList.empty, fresh := 0 }

def addItem (t : MpRtable) (destSeg mask nextHop : NsAddr) : Option MpRtable :=
  (t.routes.pushFront t.fresh
    { daddrSeg := destSeg, mask, nextHop, mpFlag := false, mptable := none }).map
    (fun routes => { t with routes, fresh := t.fresh + 1 })

/-- The new select in `add_mpath`. Unlike `add_item`, it does not set the `prev` of the first
node. -/
def pushSelect (L : HeadList Mpath) (a : ℕ) (m : Mpath) : HeadList Mpath :=
  { next := update L.next a L.head
    prev := update L.prev a none
    val := update L.val a (some m)
    head := some a }

def findSelect (t : MpRtable) (select : NsAddr) : Option (Option ℕ) :=
  t.selects.find (fun m => m.selectAddr = select) t.fuel t.selects.head

def findRoute (t : MpRtable) (destSeg mask : NsAddr) : Option (Option ℕ) :=
  t.routes.find (fun r => r.daddrSeg = destSeg ∧ r.mask = mask) t.fuel t.routes.head

def addMpath (t : MpRtable) (select sIntf dIntf : NsAddr) (now : ℚ) : Option MpRtable :=
  (t.findSelect select).bind (fun ptr =>
    match ptr with
    | none =>
      (Mpath.addMpathItem { selectAddr := select, paths := HeadList.empty } t.fresh sIntf dIntf
        now).map (fun m =>
          { t with selects := pushSelect t.selects (t.fresh + 1) m, fresh := t.fresh + 2 })
    | some ptr =>
      ((t.selects.val ptr).bind (fun m => m.addMpathItem t.fresh sIntf dIntf now)).map (fun m =>
        { t with
          selects := { t.selects with val := update t.selects.val ptr (some m) }
          fresh := t.fresh + 1 }))

def deleteItem (t : MpRtable) (destSeg mask : NsAddr) : Option MpRtable :=
  (t.findRoute destSeg mask).bind (fun r =>
    match r with
    | none => some t
    | some r => (t.routes.unlink r).map (fun routes => { t with routes }))

def deleteMpath (t : MpRtable) (select sIntf dIntf : NsAddr) : Option MpRtable :=
  (t.selects.forEach
    (fun m => if m.selectAddr = select then m.deleteMpathItem t.fuel sIntf dIntf else some m)
    t.fuel t.selects.head).map (fun selects => { t with selects })

/-- The links of a select that is deleted. The last assignment writes `next_select_` of the node
itself, where `delete_item` writes `prev_` of the next one. -/
def unlinkSelect (L : HeadList Mpath) (p : ℕ) : Option (HeadList Mpath) :=
  if L.head = some p then
    (L.touch (L.next p)).map (fun _ =>
      { L with head := L.next p, prev := setField L.prev (L.next p) none })
  else
    (L.prev p).bind (fun q =>
      (L.val q).map (fun _ =>
        let next := update L.next q (L.next p)
        { L with next := if (next p).isSome then update next p (L.prev p) else next }))

/-- The second loop of `delete_select`. -/
def deleteLoop (select : NsAddr) : ℕ → Option ℕ → HeadList Mpath → Option (HeadList Mpath)
  | 0, _, _ => none
  | _ + 1, none, L => some L
  | fuel + 1, some p, L =>
    (L.val p).bind (fun m =>
      (if m.selectAddr = select then
        (unlinkSelect L p).bind (fun L =>
          (Mpath.clear fuel m.paths).map (fun _ =>
            { L with val := update L.val p none }))
      else some L).bind (fun L =>
        -- the increment of the loop reads `next_select_` of `p`
        (L.val p).bind (fun _ => deleteLoop select fuel (L.next p) L)))

/-- The flag of a route in the first loop of `delete_select`. -/
def unflag (selects : HeadList Mpath) (select : NsAddr) (r : RouteItem) : Option RouteItem :=
  if r.mpFlag then
    (r.mptable.bind selects.val).map (fun m =>
      if m.selectAddr = select then { r with mpFlag := false } else r)
  else some r

def deleteSelect (t : MpRtable) (select : NsAddr) : Option MpRtable :=
  (t.routes.forEach (unflag t.selects select) t.fuel t.routes.head).bind (fun routes =>
    (deleteLoop select t.fuel t.selects.head t.selects).map (fun selects =>
      { t with routes, selects }))

def setRoute (t : MpRtable) (r : ℕ) (mpFlag : Bool) (mptable : Option ℕ) : Option MpRtable :=
  (t.routes.val r).map (fun v =>
    { t with routes := { t.routes with
        val := update t.routes.val r (some { v with mpFlag, mptable }) } })

def attachSelect (t : MpRtable) (destSeg mask select : NsAddr) : Option MpRtable :=
  (t.findRoute destSeg mask).bind (fun r =>
    (t.findSelect select).bind (fun p =>
      match r, p with
      | some r, some p => t.setRoute r true (some p)
      | _, _ => some t))

def detachSelect (t : MpRtable) (destSeg mask select : NsAddr) : Option MpRtable :=
  (t.findRoute destSeg mask).bind (fun r =>
    (t.findSelect select).bind (fun p =>
      match r, p with
      | some r, some _ => t.setRoute r false none
      | _, _ => some t))

def routeMatches (daddr : NsAddr) (r : RouteItem) : Bool := daddr &&& r.mask = r.daddrSeg

def findMP (t : MpRtable) (daddr : NsAddr) : Option Bool :=
  (t.routes.find (routeMatches daddr) t.fuel t.routes.head).bind (fun r =>
    match r with
    | none => some false
    | some r => (t.routes.val r).map (·.mpFlag))

def lookup (t : MpRtable) (daddr : NsAddr) : Option NsAddr :=
  (t.routes.find (routeMatches daddr) t.fuel t.routes.head).bind (fun r =>
    match r with
    | none => some ipBroadcast
    | some r => (t.routes.val r).map (·.nextHop))

/-- The select that the `lookup` for several paths asks, if there is one: that of the first route
that matches and has one. -/
def consult (t : MpRtable) (daddr : NsAddr) : Option (Option ℕ) :=
  (t.routes.find (fun r => routeMatches daddr r && (r.mpFlag && r.mptable.isSome)) t.fuel
    t.routes.head).bind (fun r =>
      match r with
      | none => some none
      | some r => (t.routes.val r).map (·.mptable))

/-- `mpRtable::lookup` for several paths: the address of the select, and the path. `none` inside
is `IP_BROADCAST`. -/
def lookupMP (t : MpRtable) (daddr : NsAddr) (now : ℚ) :
    Option (MpRtable × Option (NsAddr × MpathItem)) :=
  (t.consult daddr).bind (fun p =>
    match p with
    | none => some (t, none)
    | some p =>
      (t.selects.val p).bind (fun m =>
        (m.selectPath now t.fuel).map (fun r =>
          ({ t with selects := { t.selects with val := update t.selects.val p (some r.1) } },
            r.2.map (fun item => (m.selectAddr, item))))))

def updateRtime (t : MpRtable) (select sIntf dIntf : NsAddr) (time : ℚ) : Option MpRtable :=
  (t.selects.forEach
    (fun m => if m.selectAddr = select then m.updateRecvTime t.fuel sIntf dIntf time else some m)
    t.fuel t.selects.head).map (fun selects => { t with selects })

/-- The selects along the list. -/
def selectList (t : MpRtable) : List Mpath := t.selects.toList t.fuel t.selects.head

inductive Op where
  | addItem (destSeg mask nextHop : NsAddr)
  | deleteItem (destSeg mask : NsAddr)
  | addMpath (select sIntf dIntf : NsAddr) (now : ℚ)
  | deleteMpath (select sIntf dIntf : NsAddr)
  | attachSelect (destSeg mask select : NsAddr)
  | detachSelect (destSeg mask select : NsAddr)
  | deleteSelect (select : NsAddr)

def perform (t : MpRtable) : Op → Option MpRtable
  | .addItem destSeg mask nextHop => t.addItem destSeg mask nextHop
  | .deleteItem destSeg mask => t.deleteItem destSeg mask
  | .addMpath select sIntf dIntf now => t.addMpath select sIntf dIntf now
  | .deleteMpath select sIntf dIntf => t.deleteMpath select sIntf dIntf
  | .attachSelect destSeg mask select => t.attachSelect destSeg mask select
  | .detachSelect destSeg mask select => t.detachSelect destSeg mask select
  | .deleteSelect select => t.deleteSelect select

def step (t : MpRtable) (op : Op) : Option (MpRtable × Unit) := (t.perform op).map (fun t => (t, ()))

/-! ## Well-formed tables -/

variable {t t' : MpRtable} {xs ys : List ℕ} {select destSeg mask sIntf dIntf nextHop daddr : NsAddr}
  {now : ℚ}

def PathsHold (fresh : ℕ) (m : Mpath) : Prop :=
  ∃ zs, m.paths.Holds zs ∧ zs.length ≤ fresh ∧ ∀ z ∈ zs, z < fresh

/-- The routes are the nodes `xs` and the selects the nodes `ys`; both lists and those of the paths
are well formed, and a route with `mp_flag_` points to one of the selects. -/
structure Good (t : MpRtable) (xs ys : List ℕ) : Prop where
  routes : t.routes.Holds xs
  selects : t.selects.Holds ys
  routesLength : xs.length ≤ t.fresh
  selectsLength : ys.length ≤ t.fresh
  routesFresh : ∀ x ∈ xs, x < t.fresh
  selectsFresh : ∀ y ∈ ys, y < t.fresh
  paths : ∀ y m, t.selects.val y = some m → PathsHold t.fresh m
  flagged : ∀ x v, t.routes.val x = some v → v.mpFlag = true → ∃ y ∈ ys, v.mptable = some y

theorem PathsHold.mono {k k' : ℕ} {m : Mpath} (h : PathsHold k m) (hle : k ≤ k') :
    PathsHold k' m := by
  obtain ⟨zs, hz, hlen, hlt⟩ := h
  exact ⟨zs, hz, hlen.trans hle, fun z hz' => (hlt z hz').trans_le hle⟩

theorem good_empty : Good empty [] [] :=
  ⟨HeadList.holds_empty, HeadList.holds_empty, le_rfl, le_rfl, by simp, by simp,
    fun y m hm => (by cases hm), fun x v hv => (by cases hv)⟩

theorem Good.findSelect (h : Good t xs ys) (select : NsAddr) :
    t.findSelect select =
      some (ys.find? (fun y => (t.selects.val y).any (fun m => m.selectAddr = select))) := by
  rw [MpRtable.findSelect, h.selects.head]
  have hholds : t.selects.Holds ([] ++ ys) := h.selects
  exact hholds.find _ (Nat.lt_succ_of_le h.selectsLength)

theorem Good.findRoutes (h : Good t xs ys) (c : RouteItem → Bool) :
    t.routes.find c t.fuel t.routes.head = some (xs.find? (fun x => (t.routes.val x).any c)) := by
  rw [h.routes.head]
  have hholds : t.routes.Holds ([] ++ xs) := h.routes
  exact hholds.find _ (Nat.lt_succ_of_le h.routesLength)

theorem Good.selectList (h : Good t xs ys) : t.selectList = ys.filterMap t.selects.val := by
  rw [MpRtable.selectList, h.selects.head]
  have hholds : t.selects.Holds ([] ++ ys) := h.selects
  exact hholds.toList (Nat.lt_succ_of_le h.selectsLength)

theorem Good.mem_selectList (h : Good t xs ys) {m : Mpath} :
    m ∈ t.selectList ↔ ∃ y ∈ ys, t.selects.val y = some m := by
  rw [h.selectList, mem_filterMap]

theorem Good.find_eq_none (h : Good t xs ys) :
    ys.find? (fun y => (t.selects.val y).any (fun m => m.selectAddr = select)) = none ↔
      ∀ m ∈ t.selectList, m.selectAddr ≠ select := by
  rw [find?_eq_none]
  constructor
  · intro hnone m hm heq
    obtain ⟨y, hy, hv⟩ := h.mem_selectList.mp hm
    refine hnone y hy ?_
    rw [hv]
    simpa using heq
  · intro hall y hy hany
    obtain ⟨m, hv⟩ := h.selects.exists_val hy
    rw [hv, Option.any_some, decide_eq_true_eq] at hany
    exact hall m (h.mem_selectList.mpr ⟨y, hy, hv⟩) hany

/-! ## The operations on routes -/

theorem Good.addItem (h : Good t xs ys) :
    ∃ t', t.addItem destSeg mask nextHop = some t' ∧ Good t' (t.fresh :: xs) ys := by
  have hnew : t.fresh ∉ xs := fun hm => lt_irrefl _ (h.routesFresh _ hm)
  obtain ⟨L', heq, hholds, hval⟩ := h.routes.pushFront hnew
    { daddrSeg := destSeg, mask, nextHop, mpFlag := false, mptable := none }
  rw [MpRtable.addItem, heq]
  refine ⟨_, rfl, hholds, h.selects, Nat.succ_le_succ h.routesLength, h.selectsLength.trans (Nat.le_succ _),
    fun x hx => ?_, fun y hy => (h.selectsFresh y hy).trans (Nat.lt_succ_self _),
    fun y m hm => (h.paths y m hm).mono (Nat.le_succ _), fun x v hv hflag => ?_⟩
  · rcases mem_cons.mp hx with rfl | hx
    · exact Nat.lt_succ_self _
    · exact (h.routesFresh x hx).trans (Nat.lt_succ_self _)
  · rw [hval, update_apply] at hv
    split at hv
    · cases hv
      cases hflag
    · exact h.flagged x v hv hflag

theorem Good.deleteItem (h : Good t xs ys) :
    ∃ t' xs', t.deleteItem destSeg mask = some t' ∧ Good t' xs' ys := by
  rw [MpRtable.deleteItem, findRoute, h.findRoutes, Option.bind_some]
  cases hfind : xs.find? (fun x => (t.routes.val x).any
      (fun r => decide (r.daddrSeg = destSeg ∧ r.mask = mask))) with
  | none => exact ⟨t, xs, rfl, h⟩
  | some x =>
    obtain ⟨l, r, rfl⟩ := append_of_mem (mem_of_find?_eq_some hfind)
    obtain ⟨L', heq, hholds, hval⟩ := h.routes.unlink
    have hsub : (l ++ r).Sublist (l ++ x :: r) :=
      List.Sublist.append (List.Sublist.refl l) (sublist_cons_self x r)
    refine ⟨{ t with routes := L' }, l ++ r, by simp only [heq]; rfl, hholds, h.selects,
      hsub.length_le.trans h.routesLength, h.selectsLength,
      fun y hy => h.routesFresh y (hsub.subset hy), h.selectsFresh, h.paths, fun y v hv => ?_⟩
    rw [hval, update_apply] at hv
    split at hv
    · cases hv
    · exact h.flagged y v hv

theorem Good.setRoute (h : Good t xs ys) {x : ℕ} (hx : x ∈ xs) {mpFlag : Bool} {mptable : Option ℕ}
    (hflag : mpFlag = true → ∃ y ∈ ys, mptable = some y) :
    ∃ t', t.setRoute x mpFlag mptable = some t' ∧ Good t' xs ys := by
  obtain ⟨v, hv⟩ := h.routes.exists_val hx
  rw [MpRtable.setRoute, hv]
  refine ⟨_, rfl, h.routes.of_val rfl rfl rfl (fun a => ?_), h.selects, h.routesLength, h.selectsLength,
    h.routesFresh, h.selectsFresh, h.paths, fun a w hw hwf => ?_⟩
  · show (update t.routes.val x _ a).isSome = true ↔ _
    rw [update_apply]
    split
    case isTrue ha =>
      rw [ha, hv]
      simp
    case isFalse => exact Iff.rfl
  · change update t.routes.val x _ a = some w at hw
    rw [update_apply] at hw
    split at hw
    · cases hw
      exact hflag hwf
    · exact h.flagged a w hw hwf

theorem Good.attachSelect (h : Good t xs ys) :
    ∃ t', t.attachSelect destSeg mask select = some t' ∧ Good t' xs ys := by
  rw [MpRtable.attachSelect, findRoute, h.findRoutes, Option.bind_some, h.findSelect,
    Option.bind_some]
  split
  case h_1 x y hx hy =>
    exact h.setRoute (mem_of_find?_eq_some hx)
      (fun _ => ⟨y, mem_of_find?_eq_some hy, rfl⟩)
  case h_2 => exact ⟨t, rfl, h⟩

theorem Good.detachSelect (h : Good t xs ys) :
    ∃ t', t.detachSelect destSeg mask select = some t' ∧ Good t' xs ys := by
  rw [MpRtable.detachSelect, findRoute, h.findRoutes, Option.bind_some, h.findSelect,
    Option.bind_some]
  split
  case h_1 x y hx hy =>
    exact h.setRoute (mem_of_find?_eq_some hx) (fun hf => by cases hf)
  case h_2 => exact ⟨t, rfl, h⟩

/-! ## The operations on paths -/

/-- A path is added at the front. -/
theorem addMpathItem_spec {m : Mpath} {fresh : ℕ} (h : PathsHold fresh m) :
    ∃ m', m.addMpathItem fresh sIntf dIntf now = some m' ∧ m'.selectAddr = m.selectAddr ∧
      PathsHold (fresh + 1) m' := by
  obtain ⟨zs, hz, hlen, hlt⟩ := h
  have hnew : fresh ∉ zs := fun hm => lt_irrefl _ (hlt _ hm)
  obtain ⟨L', heq, hholds, -⟩ := hz.pushFront hnew { sIntf, dIntf, lastRecvTime := now, cnt := 0 }
  rw [Mpath.addMpathItem, heq]
  refine ⟨_, rfl, rfl, fresh :: zs, hholds, Nat.succ_le_succ hlen, fun z hz' => ?_⟩
  rcases mem_cons.mp hz' with rfl | hz'
  · exact Nat.lt_succ_self _
  · exact (hlt z hz').trans (Nat.lt_succ_self _)

/-- The first path of the pair, if there is one, is unlinked. -/
theorem deleteMpathItem_spec {m : Mpath} {fresh : ℕ} (h : PathsHold fresh m) :
    ∃ m', m.deleteMpathItem (fresh + 1) sIntf dIntf = some m' ∧ PathsHold fresh m' := by
  obtain ⟨zs, hz, hlen, hlt⟩ := h
  have hholds : m.paths.Holds ([] ++ zs) := hz
  rw [Mpath.deleteMpathItem, hz.head, hholds.find _ (Nat.lt_succ_of_le hlen), Option.bind_some]
  cases hfind : zs.find? (fun z => (m.paths.val z).any
      (fun p => decide (p.sIntf = sIntf ∧ p.dIntf = dIntf))) with
  | none => exact ⟨m, rfl, zs, hz, hlen, hlt⟩
  | some z =>
    obtain ⟨l, r, rfl⟩ := append_of_mem (mem_of_find?_eq_some hfind)
    obtain ⟨L', heq, hholds', -⟩ := hz.unlink
    have hsub : (l ++ r).Sublist (l ++ z :: r) :=
      List.Sublist.append (List.Sublist.refl l) (sublist_cons_self z r)
    exact ⟨_, by simp only [heq]; rfl, l ++ r, hholds', hsub.length_le.trans hlen,
      fun y hy => hlt y (hsub.subset hy)⟩

theorem Good.deleteMpath (h : Good t xs ys) :
    ∃ t', t.deleteMpath select sIntf dIntf = some t' ∧ Good t' xs ys := by
  have hitem : ∀ y ∈ ys, ∀ m ∈ t.selects.val y,
      (if m.selectAddr = select then m.deleteMpathItem t.fuel sIntf dIntf else some m) =
        some ((if m.selectAddr = select then m.deleteMpathItem t.fuel sIntf dIntf else some m).getD m) := by
    intro y _ m hm
    split
    · obtain ⟨m', heq, -⟩ := @deleteMpathItem_spec sIntf dIntf m t.fresh (h.paths y m hm)
      rw [show t.fuel = t.fresh + 1 from rfl, heq]
      rfl
    · rfl
  have hholds : t.selects.Holds ([] ++ ys) := h.selects
  obtain ⟨L', heq, hholds', hval⟩ := hholds.forEach hitem (Nat.lt_succ_of_le h.selectsLength)
  rw [MpRtable.deleteMpath, h.selects.head]
  change ∃ t', Option.map _ (HeadList.forEach _ (t.fresh + 1) _ _) = _ ∧ _
  rw [show (t.fresh + 1) = t.fresh.succ from rfl, heq]
  refine ⟨_, rfl, h.routes, hholds', h.routesLength, h.selectsLength, h.routesFresh, h.selectsFresh,
    fun y m hm => ?_, h.flagged⟩
  rw [hval] at hm
  split at hm
  · obtain ⟨m₀, hm₀, rfl⟩ := Option.map_eq_some_iff.mp hm
    split
    · obtain ⟨m', heq', hpaths⟩ := @deleteMpathItem_spec sIntf dIntf m₀ t.fresh (h.paths y m₀ hm₀)
      rw [show t.fuel = t.fresh + 1 from rfl, heq']
      exact hpaths
    · exact h.paths y m₀ hm₀
  · exact h.paths y m hm

/-! ## The operations on selects -/

/-- The condition under which the table stays well formed: a select is added to an empty table only,
and none is deleted. -/
def Clean (t : MpRtable) : Op → Prop
  | .addMpath select _ _ _ => t.selectList = [] ∨ ∃ m ∈ t.selectList, m.selectAddr = select
  | .deleteSelect select => ∀ m ∈ t.selectList, m.selectAddr ≠ select
  | _ => True

theorem Good.addPath (h : Good t xs ys) {y : ℕ} (hy : y ∈ ys) :
    ∃ t', (((t.selects.val y).bind (fun m => m.addMpathItem t.fresh sIntf dIntf now)).map (fun m =>
        { t with
          selects := { t.selects with val := update t.selects.val y (some m) }
          fresh := t.fresh + 1 })) = some t' ∧ Good t' xs ys := by
  obtain ⟨m, hm⟩ := h.selects.exists_val hy
  obtain ⟨m', heq, -, hpaths⟩ := @addMpathItem_spec sIntf dIntf now m t.fresh (h.paths y m hm)
  rw [hm, Option.bind_some, heq]
  refine ⟨_, rfl, h.routes, h.selects.of_val rfl rfl rfl (fun a => ?_),
    h.routesLength.trans (Nat.le_succ _), h.selectsLength.trans (Nat.le_succ _),
    fun x hx => (h.routesFresh x hx).trans (Nat.lt_succ_self _),
    fun z hz => (h.selectsFresh z hz).trans (Nat.lt_succ_self _), fun z mz hz => ?_, h.flagged⟩
  · show (update t.selects.val y (some m') a).isSome = true ↔ _
    rw [update_apply]
    split
    case isTrue ha =>
      rw [ha, hm]
      simp
    case isFalse => exact Iff.rfl
  · change update t.selects.val y (some m') z = some mz at hz
    rw [update_apply] at hz
    split at hz
    · cases hz
      exact hpaths
    · exact (h.paths z mz hz).mono (Nat.le_succ _)

theorem Good.addMpath (h : Good t xs ys) (hok : Clean t (.addMpath select sIntf dIntf now)) :
    ∃ t' ys', t.addMpath select sIntf dIntf now = some t' ∧ Good t' xs ys' := by
  rw [MpRtable.addMpath, h.findSelect, Option.bind_some]
  cases hfind : ys.find? (fun y => (t.selects.val y).any (fun m => decide (m.selectAddr = select))) with
  | some y =>
    obtain ⟨t', heq, h'⟩ := @Good.addPath t xs ys sIntf dIntf now h y (mem_of_find?_eq_some hfind)
    exact ⟨t', ys, heq, h'⟩
  | none =>
    have hnone := h.find_eq_none.mp hfind
    have hempty : t.selectList = [] := by
      refine hok.resolve_right ?_
      rintro ⟨m, hm, heq⟩
      exact hnone m hm heq
    have hys : ys = [] := by
      cases ys with
      | nil => rfl
      | cons y ys =>
        obtain ⟨m, hm⟩ := h.selects.exists_val (show y ∈ y :: ys by simp)
        have hmem := h.mem_selectList.mpr ⟨y, by simp, hm⟩
        rw [hempty] at hmem
        cases hmem
    subst hys
    have hpaths : PathsHold t.fresh { selectAddr := select, paths := HeadList.empty } :=
      ⟨[], HeadList.holds_empty, Nat.zero_le _, by simp⟩
    obtain ⟨m', heq, -, hpaths'⟩ := @addMpathItem_spec sIntf dIntf now _ t.fresh hpaths
    have hnil : ∀ a, t.selects.val a = none := by
      intro a
      have hlive := h.selects.live a
      simpa using hlive
    refine ⟨{ t with selects := pushSelect t.selects (t.fresh + 1) m', fresh := t.fresh + 2 },
      [t.fresh + 1], by simp only [heq]; rfl, h.routes, ⟨rfl, ⟨?_, ?_, trivial⟩, by simp, fun a => ?_⟩,
      h.routesLength.trans (by show t.fresh ≤ t.fresh + 2; omega), ?_,
      fun x hx => (h.routesFresh x hx).trans (by show t.fresh < t.fresh + 2; omega), ?_,
      fun z mz hz => ?_, fun x v hv hflag => ?_⟩
    · exact update_self _ _ _
    · show update t.selects.next (t.fresh + 1) t.selects.head (t.fresh + 1) = _
      rw [update_self, h.selects.head]
      rfl
    · show (update t.selects.val (t.fresh + 1) (some m') a).isSome = true ↔ _
      rw [update_apply]
      split
      case isTrue ha => simp [ha]
      case isFalse ha => simp [hnil, ha]
    · show 1 ≤ t.fresh + 2
      omega
    · intro z hz
      rw [mem_singleton] at hz
      show z < t.fresh + 2
      omega
    · change update t.selects.val (t.fresh + 1) (some m') z = some mz at hz
      rw [update_apply] at hz
      split at hz
      · cases hz
        exact hpaths'.mono (Nat.le_succ _)
      · rw [hnil] at hz
        cases hz
    · obtain ⟨y, hy, -⟩ := h.flagged x v hv hflag
      cases hy

theorem deleteLoop_absent {L : HeadList Mpath} {l r : List ℕ} {fuel : ℕ} (h : L.Holds (l ++ r))
    (hno : ∀ y ∈ r, ∀ m ∈ L.val y, m.selectAddr ≠ select) (hfuel : r.length < fuel) :
    deleteLoop select fuel r.head? L = some L := by
  induction r generalizing l fuel with
  | nil =>
    cases fuel with
    | zero => omega
    | succ fuel => rfl
  | cons y r ih =>
    cases fuel with
    | zero => omega
    | succ fuel =>
      obtain ⟨m, hm⟩ := h.exists_val (show y ∈ l ++ y :: r by simp)
      have h' : L.Holds ((l ++ [y]) ++ r) := by simpa using h
      rw [head?_cons, deleteLoop, hm, Option.bind_some, if_neg (hno y (by simp) m hm),
        Option.bind_some, hm, Option.bind_some, h.next_eq]
      exact ih h' (fun z hz => hno z (by simp [hz])) (by simpa using hfuel)

/-- The loop of `delete_select` when there is such a select: it reads the node that it has freed, if
it gets so far. -/
theorem deleteLoop_present {L : HeadList Mpath} {l r : List ℕ} {fuel : ℕ} (h : L.Holds (l ++ r))
    (hsome : ∃ y ∈ r, ∃ m ∈ L.val y, m.selectAddr = select) :
    deleteLoop select fuel r.head? L = none := by
  induction r generalizing l fuel with
  | nil =>
    obtain ⟨y, hy, -⟩ := hsome
    cases hy
  | cons y r ih =>
    cases fuel with
    | zero => rfl
    | succ fuel =>
      obtain ⟨m, hm⟩ := h.exists_val (show y ∈ l ++ y :: r by simp)
      have h' : L.Holds ((l ++ [y]) ++ r) := by simpa using h
      rw [head?_cons, deleteLoop, hm, Option.bind_some]
      split
      case isTrue =>
        cases unlinkSelect L y with
        | none => rfl
        | some L₁ =>
          cases Mpath.clear fuel m.paths with
          | none => rfl
          | some paths =>
            simp only [Option.bind_some, Option.map_some, update_self,
              Option.bind_none]
      case isFalse hne =>
        rw [Option.bind_some, hm, Option.bind_some, h.next_eq]
        refine ih h' ?_
        obtain ⟨z, hz, w, hw, heq⟩ := hsome
        rcases mem_cons.mp hz with rfl | hz
        · rw [hm] at hw
          cases hw
          exact absurd heq hne
        · exact ⟨z, hz, w, hw, heq⟩

theorem Good.deleteSelect (h : Good t xs ys) (hok : Clean t (.deleteSelect select)) :
    ∃ t', t.deleteSelect select = some t' ∧ Good t' xs ys ∧ t'.selectList = t.selectList := by
  have hno : ∀ y ∈ ys, ∀ m ∈ t.selects.val y, m.selectAddr ≠ select :=
    fun y hy m hm => hok m (h.mem_selectList.mpr ⟨y, hy, hm⟩)
  have hunflag : ∀ x ∈ xs, ∀ v ∈ t.routes.val x, unflag t.selects select v = some (id v) := by
    intro x _ v hv
    unfold unflag
    split
    case isTrue hflag =>
      obtain ⟨y, hy, hptr⟩ := h.flagged x v hv hflag
      obtain ⟨m, hm⟩ := h.selects.exists_val hy
      rw [hptr, Option.bind_some, hm, Option.map_some, if_neg (hno y hy m hm)]
      rfl
    case isFalse => rfl
  have hroutes : t.routes.Holds ([] ++ xs) := h.routes
  have hselects : t.selects.Holds ([] ++ ys) := h.selects
  obtain ⟨L', heq, hholds, hval⟩ := hroutes.forEach hunflag (Nat.lt_succ_of_le h.routesLength)
  have hloop := deleteLoop_absent hselects hno (Nat.lt_succ_of_le h.selectsLength)
  have hsame : ∀ a, L'.val a = t.routes.val a := by
    intro a
    rw [hval]
    split <;> simp
  rw [MpRtable.deleteSelect, h.routes.head, h.selects.head, fuel]
  rw [heq, Option.bind_some]
  rw [hloop]
  refine ⟨_, rfl, ⟨hholds, h.selects, h.routesLength, h.selectsLength, h.routesFresh, h.selectsFresh,
    h.paths, fun x v hv => ?_⟩, rfl⟩
  rw [hsame] at hv
  exact h.flagged x v hv

/-! ## The condition is needed -/

theorem Good.addMpath_clean (h : Good t xs ys) {ys' : List ℕ}
    (heq : t.addMpath select sIntf dIntf now = some t') (h' : t'.selects.Holds ys') :
    Clean t (.addMpath select sIntf dIntf now) := by
  by_contra hnot
  obtain ⟨hne, hnone⟩ := not_or.mp hnot
  have hfind := h.find_eq_none.mpr (fun m hm heq => hnone ⟨m, hm, heq⟩)
  cases ys with
  | nil => exact hne (by rw [h.selectList]; rfl)
  | cons y ys =>
    have hpaths : PathsHold t.fresh { selectAddr := select, paths := HeadList.empty } :=
      ⟨[], HeadList.holds_empty, Nat.zero_le _, by simp⟩
    obtain ⟨m', hm', -, -⟩ := @addMpathItem_spec sIntf dIntf now _ t.fresh hpaths
    rw [MpRtable.addMpath, h.findSelect, Option.bind_some, hfind] at heq
    simp only [hm', Option.map_some, Option.some.injEq] at heq
    have hy : y ≠ t.fresh + 1 := by
      have := h.selectsFresh y (by simp)
      omega
    have hprev : t.selects.prev y = none := h.selects.path.1
    have hhead' := h'.head
    have hpath' := h'.path
    rw [← heq] at hhead' hpath'
    cases ys' with
    | nil => cases hhead'
    | cons a rest =>
      have ha : t.fresh + 1 = a := Option.some.inj hhead'
      subst ha
      obtain ⟨-, hnext, hrest⟩ := hpath'
      have hnext' : update t.selects.next (t.fresh + 1) t.selects.head (t.fresh + 1) =
          rest.head?.or none := hnext
      rw [update_self, Option.or_none, h.selects.head] at hnext'
      cases rest with
      | nil => cases hnext'
      | cons b rest =>
        have hb : y = b := Option.some.inj hnext'
        subst hb
        have hback : update t.selects.prev (t.fresh + 1) none y = some (t.fresh + 1) :=
          hrest.1
        rw [update_of_ne hy, hprev] at hback
        cases hback

theorem Good.deleteSelect_clean (h : Good t xs ys) (heq : t.deleteSelect select = some t') :
    Clean t (.deleteSelect select) := by
  intro m hm haddr
  obtain ⟨y, hy, hv⟩ := h.mem_selectList.mp hm
  have hselects : t.selects.Holds ([] ++ ys) := h.selects
  have hloop : deleteLoop select t.fuel t.selects.head t.selects = none := by
    rw [h.selects.head]
    exact deleteLoop_present hselects ⟨y, hy, m, hv, haddr⟩
  rw [MpRtable.deleteSelect, hloop] at heq
  cases hr : t.routes.forEach (unflag t.selects select) t.fuel t.routes.head with
  | none =>
    rw [hr] at heq
    cases heq
  | some routes =>
    rw [hr] at heq
    cases heq

/-! ## Runs -/

/-- What a well-formed table is for: when `find_MP` is true, the `lookup` for several paths asks the
select that the first matching route points to, which is in the table. -/
theorem Good.consult (h : Good t xs ys) (hmp : t.findMP daddr = some true) :
    ∃ x v y m, xs.find? (fun x => (t.routes.val x).any (routeMatches daddr)) = some x ∧
      t.routes.val x = some v ∧ v.mptable = some y ∧ t.consult daddr = some (some y) ∧
      y ∈ ys ∧ t.selects.val y = some m := by
  rw [findMP, h.findRoutes, Option.bind_some] at hmp
  cases hfind : xs.find? (fun x => (t.routes.val x).any (routeMatches daddr)) with
  | none =>
    rw [hfind] at hmp
    cases hmp
  | some x =>
    rw [hfind] at hmp
    obtain ⟨v, hv, hflag⟩ := Option.map_eq_some_iff.mp hmp
    obtain ⟨y, hy, hptr⟩ := h.flagged x v hv hflag
    obtain ⟨m, hm⟩ := h.selects.exists_val hy
    refine ⟨x, v, y, m, rfl, hv, hptr, ?_, hy, hm⟩
    -- no route before it matches, and it has a select itself
    have hfirst : xs.find? (fun x => (t.routes.val x).any
        (fun r => routeMatches daddr r && (r.mpFlag && r.mptable.isSome))) = some x := by
      rw [find?_eq_some_iff_append] at hfind ⊢
      obtain ⟨hx, l, r, hxs, hbefore⟩ := hfind
      refine ⟨?_, l, r, hxs, fun a ha => ?_⟩
      · rw [hv, Option.any_some] at hx ⊢
        rw [hx, hflag, hptr]
        rfl
      · have hno := hbefore a ha
        cases hva : t.routes.val a with
        | none => rfl
        | some w =>
          rw [hva, Option.any_some] at hno
          rw [Option.any_some]
          simp only [Bool.not_eq_true'] at hno
          rw [hno]
          rfl
    rw [MpRtable.consult, h.findRoutes, Option.bind_some, hfirst]
    simp only [hv, Option.map_some, hptr]

/-- **The integrity of the table**: the routes `xs` and the selects `ys` are doubly linked lists of
nodes that are allocated, and so are the paths of every select; a route with `mp_flag_` points to a
select of the table; and when `find_MP` is true, `lookup` asks the select of the first matching
route. -/
def Integrity (t : MpRtable) : Prop :=
  ∃ xs ys, t.routes.Holds xs ∧ t.selects.Holds ys ∧
    (∀ y m, t.selects.val y = some m → ∃ zs, m.paths.Holds zs) ∧
    (∀ x v, t.routes.val x = some v → v.mpFlag = true → ∃ y ∈ ys, v.mptable = some y) ∧
    ∀ daddr, t.findMP daddr = some true →
      ∃ x v y m, xs.find? (fun x => (t.routes.val x).any (routeMatches daddr)) = some x ∧
        t.routes.val x = some v ∧ v.mptable = some y ∧ t.consult daddr = some (some y) ∧
        y ∈ ys ∧ t.selects.val y = some m

theorem Good.integrity (h : Good t xs ys) : Integrity t :=
  ⟨xs, ys, h.routes, h.selects, fun y m hm => (h.paths y m hm).imp (fun _ hz => hz.1), h.flagged,
    fun _ hmp => h.consult hmp⟩

/-- The step lemma: a clean call leaves sound lists and frees what it unlinks. -/
theorem Good.step (h : Good t xs ys) (op : Op) (hok : Clean t op) :
    ∃ t' xs' ys', MpRtable.step t op = some (t', ()) ∧ Good t' xs' ys' ∧
      ∀ s, op = .deleteSelect s → t'.selectList = t.selectList.filter (fun m => m.selectAddr ≠ s) := by
  cases op with
  | addItem destSeg mask nextHop =>
    obtain ⟨t', heq, h'⟩ := @Good.addItem t xs ys destSeg mask nextHop h
    exact ⟨t', _, _, by rw [MpRtable.step, perform, heq]; rfl, h', fun s hs => (by cases hs)⟩
  | deleteItem destSeg mask =>
    obtain ⟨t', xs', heq, h'⟩ := @Good.deleteItem t xs ys destSeg mask h
    exact ⟨t', _, _, by rw [MpRtable.step, perform, heq]; rfl, h', fun s hs => (by cases hs)⟩
  | addMpath select sIntf dIntf now =>
    obtain ⟨t', ys', heq, h'⟩ := h.addMpath hok
    exact ⟨t', _, _, by rw [MpRtable.step, perform, heq]; rfl, h', fun s hs => (by cases hs)⟩
  | deleteMpath select sIntf dIntf =>
    obtain ⟨t', heq, h'⟩ := @Good.deleteMpath t xs ys select sIntf dIntf h
    exact ⟨t', _, _, by rw [MpRtable.step, perform, heq]; rfl, h', fun s hs => (by cases hs)⟩
  | attachSelect destSeg mask select =>
    obtain ⟨t', heq, h'⟩ := @Good.attachSelect t xs ys select destSeg mask h
    exact ⟨t', _, _, by rw [MpRtable.step, perform, heq]; rfl, h', fun s hs => (by cases hs)⟩
  | detachSelect destSeg mask select =>
    obtain ⟨t', heq, h'⟩ := @Good.detachSelect t xs ys select destSeg mask h
    exact ⟨t', _, _, by rw [MpRtable.step, perform, heq]; rfl, h', fun s hs => (by cases hs)⟩
  | deleteSelect select =>
    obtain ⟨t', heq, h', hlist⟩ := h.deleteSelect hok
    refine ⟨t', _, _, by rw [MpRtable.step, perform, heq]; rfl, h', fun s hs => ?_⟩
    cases hs
    rw [hlist, filter_eq_self.mpr (fun m hm => by simpa using hok m hm)]

/-- **The integrity of the table, exactly.** The operations of a sequence keep the table well
formed, and `delete_select` removes exactly the select, if and only if a new select is added to an
empty table only and `delete_select` is only called for selects that are not in the table. -/
theorem rtable_integrity (ops : List Op) :
    (∀ pre op, pre ++ [op] <+: ops → ∃ t outs t', Runs.run step empty pre = some (t, outs) ∧
      t.step op = some (t', ()) ∧ Integrity t' ∧
      ∀ s, op = .deleteSelect s →
        t'.selectList = t.selectList.filter (fun m => m.selectAddr ≠ s)) ↔
    Runs.Meets step Clean empty ops := by
  have hgood : ∀ is, Runs.Meets step Clean empty is →
      ∃ t outs, Runs.run step empty is = some (t, outs) ∧ ∃ xs ys, Good t xs ys := by
    intro is hok
    exact @Runs.run_invariant _ _ _ step Clean empty is (fun _ _ t => ∃ xs ys, Good t xs ys)
      (fun _ _ t op h hop => by
        obtain ⟨xs, ys, h⟩ := h
        obtain ⟨t', xs', ys', heq, h', -⟩ := h.step op hop
        exact ⟨t', (), heq, xs', ys', h'⟩) ⟨[], [], good_empty⟩ hok
  constructor
  · intro hall
    refine Runs.meets_of_prefixes (fun pre op r hp hpre hr => ?_)
    obtain ⟨t₀, outs₀, hrun, xs, ys, h⟩ := hgood pre hpre
    obtain ⟨t, outs, t', hrun', hstep, hint, -⟩ := hall pre op hp
    rw [hrun'] at hr hrun
    cases hr
    cases hrun
    obtain ⟨t'', hperf, heq⟩ := Option.map_eq_some_iff.mp hstep
    cases heq
    cases op with
    | addMpath select sIntf dIntf now =>
      obtain ⟨xs', ys', -, hselects, -⟩ := hint
      exact h.addMpath_clean hperf hselects
    | deleteSelect select => exact h.deleteSelect_clean hperf
    | addItem | deleteItem | deleteMpath | attachSelect | detachSelect => trivial
  · intro hok pre op hp
    obtain ⟨post, rfl⟩ := hp
    have hok' := hok.append_left
    obtain ⟨hpre, hlast⟩ := Runs.meets_concat.mp hok'
    obtain ⟨t, outs, hrun, xs, ys, h⟩ := hgood pre hpre
    obtain ⟨t', xs', ys', hstep, h', hlist⟩ := h.step op (hlast _ hrun)
    exact ⟨t, outs, t', hrun, hstep, h'.integrity, hlist⟩

/-- Two selects are added; the `prev` of the first one is not set to the second. When the first one
is deleted, its `prev` is a null pointer. When the only select is deleted, the node is read after it
has been freed. -/
theorem delete_select_faults :
    (∃ t outs, Runs.run step empty [.addMpath 1 11 12 0, .addMpath 2 21 22 0] = some (t, outs) ∧
      t.selects.head = some 3 ∧ t.selects.next 3 = some 1 ∧ t.selects.prev 1 = none) ∧
    Runs.run step empty [.addMpath 1 11 12 0, .addMpath 2 21 22 0, .deleteSelect 1] = none ∧
    Runs.run step empty [.addMpath 1 11 12 0, .deleteSelect 1] = none := by
  refine ⟨?_, ?_, ?_⟩
  · obtain ⟨r, hr⟩ : ∃ r, Runs.run step empty [.addMpath 1 11 12 0, .addMpath 2 21 22 0] = some r :=
      Option.isSome_iff_exists.mp (by decide +kernel)
    have hfinal : ∀ r' ∈ Runs.run step empty [.addMpath 1 11 12 0, .addMpath 2 21 22 0],
        r'.1.selects.head = some 3 ∧ r'.1.selects.next 3 = some 1 ∧ r'.1.selects.prev 1 = none := by
      decide +kernel
    exact ⟨r.1, r.2, hr, hfinal r hr⟩
  · exact Option.isNone_iff_eq_none.mp (by decide +kernel)
  · exact Option.isNone_iff_eq_none.mp (by decide +kernel)

end MpRtable

end NetSim
