import NetSim.MpSelect.Rtable

/-! # Ping rounds

`mpSelect::send_ping_handler` asks `mpRtable::get_path_item` for one path after another, sends a ping on it
and updates its ping fields (`mpRtable::update_ping_info`). The cursor of `get_path_item` is a pair of
static pointers, `s` and `p`, so all tables share it: here a pointer says whose table it points into.

A table is a `HeadList` of selects with a `HeadList` of paths each. A path has the fields of `mpath_item`
that the pings use. As in the routing table, `none` stands for an access to a node that does not exist, and
for a loop that does not end.
-/

namespace NetSim

open Function List LinkedList

/-- The interfaces and the ping fields of `mpath_item`. -/
structure PingItem where
  sIntf : NsAddr
  dIntf : NsAddr
  sendDelay : ℚ
  pingSendTime : ℚ
  pingSeq : ℕ
  deriving DecidableEq

structure PingSelect where
  selectAddr : NsAddr
  paths : HeadList PingItem

abbrev PingTable := HeadList PingSelect

structure PingPkt where
  sIntf : NsAddr
  dIntf : NsAddr
  sSelect : NsAddr
  dSelect : NsAddr
  sendTime : ℚ
  pingSeq : ℕ
  deriving DecidableEq

namespace Ping

variable {A : Type}

/-- The static `s` and `p` of `get_path_item`: a select in the table of an agent, and a path of a select. -/
structure Cursor (A : Type) where
  s : Option (A × ℕ)
  p : Option (A × ℕ × ℕ)

def Cursor.null : Cursor A := ⟨none, none⟩

/-- `p->next_path()`. -/
def nextPath (tables : A → PingTable) (p : A × ℕ × ℕ) : Option (Option (A × ℕ × ℕ)) :=
  ((tables p.1).val p.2.1).bind (fun m =>
    (m.paths.val p.2.2).map (fun _ => (m.paths.next p.2.2).map (fun z => (p.1, p.2.1, z))))

/-- The loop of `get_path_item`. -/
def pathLoop (tables : A → PingTable) :
    ℕ → Option (A × ℕ) → Option (A × ℕ × ℕ) → Option (Cursor A × Option (NsAddr × PingItem))
  | 0, _, _ => none
  | _ + 1, none, p => some (⟨none, p⟩, none)
  | fuel + 1, some s, p =>
    ((tables s.1).val s.2).bind (fun m =>
      (match p with
        | none => some (m.paths.head.map (fun z => (s.1, s.2, z)))
        | some p => nextPath tables p).bind (fun p =>
          match p with
          | some p =>
            ((tables p.1).val p.2.1).bind (fun m' =>
              (m'.paths.val p.2.2).map (fun item => (⟨some s, some p⟩, some (m.selectAddr, item))))
          | none => pathLoop tables fuel (((tables s.1).next s.2).map (fun y => (s.1, y))) none))

def getPathItem (tables : A → PingTable) (fuel : ℕ) (a : A) (c : Cursor A) :
    Option (Cursor A × Option (NsAddr × PingItem)) :=
  match (tables a).head with
  | none => some (c, none)
  | some h => pathLoop tables fuel (if c.p = none ∧ c.s = none then some (a, h) else c.s) c.p

/-- What `update_ping` does to a path. -/
def bump (now : ℚ) (item : PingItem) : PingItem := { item with pingSendTime := now, pingSeq := item.pingSeq + 1 }

/-- A search for the path with the pair, whose fields change. -/
def onPath (m : PingSelect) (fuel : ℕ) (sIntf dIntf : NsAddr) (f : PingItem → PingItem) : Option PingSelect :=
  (m.paths.find (fun p => p.sIntf = sIntf ∧ p.dIntf = dIntf) fuel m.paths.head).bind (fun p =>
    match p with
    | none => some m
    | some p =>
      (m.paths.val p).map (fun item =>
        { m with paths := { m.paths with val := update m.paths.val p (some (f item)) } }))

/-- The same for every select with the address. -/
def onSelects (t : PingTable) (fuel : ℕ) (select sIntf dIntf : NsAddr) (f : PingItem → PingItem) :
    Option PingTable :=
  t.forEach (fun m => if m.selectAddr = select then onPath m fuel sIntf dIntf f else some m) fuel t.head

/-- `mpRtable::update_ping_info` with `mpath::update_ping`. -/
def updatePingInfo (t : PingTable) (fuel : ℕ) (select sIntf dIntf : NsAddr) (now : ℚ) : Option PingTable :=
  onSelects t fuel select sIntf dIntf (bump now)

/-- The packet of a path, as `send_ping_handler` fills it. -/
def packet (raAddr : NsAddr) (now : ℚ) (select : NsAddr) (path : PingItem) : PingPkt :=
  { sIntf := path.sIntf, dIntf := path.dIntf, sSelect := raAddr, dSelect := select, sendTime := now,
    pingSeq := path.pingSeq }

def sendPingHandler [DecidableEq A] (raAddr : NsAddr) (a : A) (now : ℚ) (fuel : ℕ) :
    ℕ → (A → PingTable) → Cursor A → Option ((A → PingTable) × Cursor A × List PingPkt)
  | 0, _, _ => none
  | n + 1, tables, c =>
    (getPathItem tables fuel a c).bind (fun r =>
      match r.2 with
      | none => some (tables, r.1, [])
      | some (select, path) =>
        (updatePingInfo (tables a) fuel select path.sIntf path.dIntf now).bind (fun t =>
          (sendPingHandler raAddr a now fuel n (update tables a t) r.1).map (fun q =>
            (q.1, q.2.1, packet raAddr now select path :: q.2.2))))

/-! ## Tables -/

/-- A table: the nodes of the selects and of their paths, and what they hold. The selects have different
addresses, since `add_mpath` looks an address up first, and the paths of one select different pairs. -/
structure Holds (t : PingTable) (ys : List ℕ) (zs : ℕ → List ℕ) (addr : ℕ → NsAddr)
    (item : ℕ → ℕ → PingItem) : Prop where
  selects : HeadList.Holds t ys
  select : ∀ y ∈ ys, ∃ m, t.val y = some m ∧ m.selectAddr = addr y ∧ HeadList.Holds m.paths (zs y) ∧
    ∀ z ∈ zs y, m.paths.val z = some (item y z)
  addrs : ∀ y ∈ ys, ∀ y' ∈ ys, addr y = addr y' → y = y'
  pairs : ∀ y ∈ ys, ∀ z ∈ zs y, ∀ z' ∈ zs y, (item y z).sIntf = (item y z').sIntf →
    (item y z).dIntf = (item y z').dIntf → z = z'

/-- The paths of a table, select by select. -/
def positions (ys : List ℕ) (zs : ℕ → List ℕ) : List (ℕ × ℕ) := ys.flatMap (fun y => (zs y).map (fun z => (y, z)))

variable {tables tables' : A → PingTable} {a : A} {t : PingTable} {ys l r : List ℕ} {zs : ℕ → List ℕ}
  {addr : ℕ → NsAddr} {item : ℕ → ℕ → PingItem} {fuel y z : ℕ} {now : ℚ} {R : List (ℕ × ℕ)}
  {c : Cursor A}

def Remaining (a : A) (ys : List ℕ) (zs : ℕ → List ℕ) (c : Cursor A) (R : List (ℕ × ℕ)) : Prop :=
  (c = .null ∧ R = positions ys zs) ∨
    ∃ l y r l' z r', ys = l ++ y :: r ∧ zs y = l' ++ z :: r' ∧ c = ⟨some (a, y), some (a, y, z)⟩ ∧
      R = r'.map (fun z => (y, z)) ++ positions r zs

/-- A call returns the first of the paths, and the others are still to come; or there is none, and the
cursor is cleared. -/
def Yields (a : A) (ys : List ℕ) (zs : ℕ → List ℕ) (addr : ℕ → NsAddr) (item : ℕ → ℕ → PingItem)
    (call : Option (Cursor A × Option (NsAddr × PingItem))) : List (ℕ × ℕ) → Prop
  | [] => call = some (.null, none)
  | (y, z) :: R => ∃ c, call = some (c, some (addr y, item y z)) ∧ Remaining a ys zs c R

theorem pathLoop_next (h : Holds (tables a) ys zs addr item) (hys : ys = l ++ r) (hf : r.length < fuel) :
    Yields a ys zs addr item (pathLoop tables fuel (r.head?.map (fun y => (a, y))) none) (positions r zs) := by
  induction r generalizing l fuel with
  | nil =>
    cases fuel with
    | zero => omega
    | succ fuel => rfl
  | cons y r ih =>
    cases fuel with
    | zero => omega
    | succ fuel =>
      have hy : y ∈ ys := by rw [hys]; simp
      obtain ⟨m, hm, haddr, hpaths, hitems⟩ := h.select y hy
      have hnext : (tables a).next y = r.head? := by
        have hsel := h.selects
        rw [hys] at hsel
        exact hsel.next_eq
      have hpos : positions (y :: r) zs = (zs y).map (fun z => (y, z)) ++ positions r zs := rfl
      have hloop : pathLoop tables (fuel + 1) ((y :: r).head?.map (fun y => (a, y))) none =
          m.paths.head.elim (pathLoop tables fuel (r.head?.map (fun y => (a, y))) none)
            (fun z => (m.paths.val z).map (fun item => (⟨some (a, y), some (a, y, z)⟩,
              some (m.selectAddr, item)))) := by
        rw [head?_cons, Option.map_some, pathLoop, hm, Option.bind_some, Option.bind_some, hnext]
        cases m.paths.head with
        | none => rfl
        | some z =>
          rw [Option.map_some, Option.elim_some]
          dsimp only
          rw [hm, Option.bind_some]
      rw [hloop, hpaths.head, hpos]
      cases hz : zs y with
      | nil =>
        exact ih (l := l ++ [y]) (by rw [hys]; simp) (by simpa using hf)
      | cons z r' =>
        have hzmem : z ∈ zs y := by rw [hz]; exact mem_cons_self
        rw [map_cons, cons_append, head?_cons, Option.elim_some]
        rw [hitems z hzmem, haddr]
        exact ⟨_, rfl, Or.inr ⟨l, y, r, [], z, r', hys, by rw [hz]; rfl, rfl, rfl⟩⟩

/-- **`get_path_item`** returns the next path, and clears the cursor behind the last one. -/
theorem getPathItem_next (h : Holds (tables a) ys zs addr item) (hf : ys.length + 1 < fuel)
    (hc : Remaining a ys zs c R) : Yields a ys zs addr item (getPathItem tables fuel a c) R := by
  rcases hc with ⟨rfl, rfl⟩ | ⟨l, y, r, l', z, r', hys, hzs, rfl, rfl⟩
  · -- the first call
    have hnext := pathLoop_next (l := []) (r := ys) h rfl (show ys.length < fuel by omega)
    rw [getPathItem, h.selects.head]
    cases ys with
    | nil => rfl
    | cons y ys =>
      exact hnext
  · -- a call behind the path `z` of the select `y`
    have hy : y ∈ ys := by rw [hys]; simp
    obtain ⟨m, hm, haddr, hpaths, hitems⟩ := h.select y hy
    have hz : z ∈ zs y := by rw [hzs]; simp
    have hsel := h.selects
    rw [hys] at hsel
    rw [hzs] at hpaths
    obtain ⟨b, hb⟩ : ∃ b, (tables a).head = some b := by
      cases hh : (tables a).head with
      | none =>
        rw [hsel.head, head?_eq_none_iff] at hh
        simp at hh
      | some b => exact ⟨b, rfl⟩
    obtain ⟨fuel, rfl⟩ : ∃ n, fuel = n + 1 := ⟨fuel - 1, by omega⟩
    have hloop : getPathItem tables (fuel + 1) a ⟨some (a, y), some (a, y, z)⟩ =
        r'.head?.elim (pathLoop tables fuel (r.head?.map (fun y => (a, y))) none)
          (fun z' => (m.paths.val z').map (fun item => (⟨some (a, y), some (a, y, z')⟩,
            some (m.selectAddr, item)))) := by
      rw [getPathItem, hb]
      dsimp only
      rw [if_neg (by simp), pathLoop, hm, Option.bind_some]
      dsimp only
      rw [nextPath, hm, Option.bind_some, hitems z hz, Option.map_some, Option.bind_some, hpaths.next_eq,
        hsel.next_eq]
      cases r'.head? with
      | none => rfl
      | some z' =>
        rw [Option.map_some, Option.elim_some]
        dsimp only
        rw [hm, Option.bind_some]
    rw [hloop]
    cases r' with
    | nil =>
      have hlen : r.length < fuel := by
        rw [hys, length_append, length_cons] at hf
        omega
      exact pathLoop_next (l := l ++ [y]) (r := r) h (by rw [hys]; simp) hlen
    | cons z' r' =>
      have hz' : z' ∈ zs y := by rw [hzs]; simp
      rw [map_cons, cons_append, head?_cons, Option.elim_some]
      rw [hitems z' hz', haddr]
      exact ⟨_, rfl, Or.inr ⟨l, y, r, l' ++ [z], z', r', hys, by rw [hzs]; simp, rfl, rfl⟩⟩

/-! ## The ping fields change -/

/-- A path with the pair changes, the others do not. -/
def change (sIntf dIntf : NsAddr) (f : PingItem → PingItem) (path : PingItem) : PingItem :=
  if path.sIntf = sIntf ∧ path.dIntf = dIntf then f path else path

def KeepsPair (f : PingItem → PingItem) : Prop := ∀ path, (f path).sIntf = path.sIntf ∧ (f path).dIntf = path.dIntf

theorem keepsPair_bump : KeepsPair (bump now) := fun _ => ⟨rfl, rfl⟩

variable {sIntf dIntf select : NsAddr} {f : PingItem → PingItem} {m : PingSelect} {it : ℕ → PingItem}
  {ws : List ℕ}

theorem change_pair (hf : KeepsPair f) (path : PingItem) :
    (change sIntf dIntf f path).sIntf = path.sIntf ∧ (change sIntf dIntf f path).dIntf = path.dIntf := by
  unfold change
  split
  · exact hf path
  · exact ⟨rfl, rfl⟩

theorem onPath_holds (h : HeadList.Holds m.paths ws) (hit : ∀ z ∈ ws, m.paths.val z = some (it z))
    (hpairs : ∀ z ∈ ws, ∀ z' ∈ ws, (it z).sIntf = (it z').sIntf → (it z).dIntf = (it z').dIntf → z = z')
    (hlen : ws.length < fuel) :
    ∃ m', onPath m fuel sIntf dIntf f = some m' ∧ m'.selectAddr = m.selectAddr ∧
      HeadList.Holds m'.paths ws ∧ ∀ z ∈ ws, m'.paths.val z = some (change sIntf dIntf f (it z)) := by
  have hholds : HeadList.Holds m.paths ([] ++ ws) := h
  have hfind := hholds.find (fun p => decide (p.sIntf = sIntf ∧ p.dIntf = dIntf)) hlen
  rw [onPath, h.head, hfind, Option.bind_some]
  cases hc : ws.find? (fun a => (m.paths.val a).any (fun p => decide (p.sIntf = sIntf ∧ p.dIntf = dIntf))) with
  | none =>
    refine ⟨m, rfl, rfl, h, fun z hz => ?_⟩
    have hnot := find?_eq_none.mp hc z hz
    rw [hit z hz, Option.any_some, decide_eq_true_eq] at hnot
    rw [hit z hz, change, if_neg hnot]
  | some p =>
    have hp : p ∈ ws := mem_of_find?_eq_some hc
    have hpair := find?_some hc
    rw [hit p hp, Option.any_some, decide_eq_true_eq] at hpair
    dsimp only
    rw [hit p hp, Option.map_some]
    refine ⟨_, rfl, rfl, h.of_val rfl rfl rfl (fun b => ?_), fun z hz => ?_⟩
    · show (update m.paths.val p (some (f (it p))) b).isSome = true ↔ _
      by_cases hb : b = p
      · rw [hb, update_self, hit p hp]
        simp
      · rw [update_of_ne hb]
    · show update m.paths.val p (some (f (it p))) z = _
      by_cases hzp : z = p
      · rw [hzp, update_self, change, if_pos hpair]
      · -- another path has another pair
        have hne : ¬ ((it z).sIntf = sIntf ∧ (it z).dIntf = dIntf) := fun hz' =>
          hzp (hpairs z hz p hp (hz'.1.trans hpair.1.symm) (hz'.2.trans hpair.2.symm))
        rw [update_of_ne hzp, hit z hz, change, if_neg hne]

/-- The items of a table after a change. -/
def changeAll (addr : ℕ → NsAddr) (select sIntf dIntf : NsAddr) (f : PingItem → PingItem)
    (item : ℕ → ℕ → PingItem) (y z : ℕ) : PingItem :=
  if addr y = select then change sIntf dIntf f (item y z) else item y z

theorem onSelects_holds (h : Holds t ys zs addr item) (hlen : ys.length < fuel)
    (hlens : ∀ y ∈ ys, (zs y).length < fuel) (hf : KeepsPair f) :
    ∃ t', onSelects t fuel select sIntf dIntf f = some t' ∧
      Holds t' ys zs addr (changeAll addr select sIntf dIntf f item) := by
  have hsel : HeadList.Holds t ([] ++ ys) := h.selects
  have hone : ∀ y ∈ ys, ∀ m ∈ t.val y,
      (if m.selectAddr = select then onPath m fuel sIntf dIntf f else some m) =
        some ((if m.selectAddr = select then onPath m fuel sIntf dIntf f else some m).getD m) := by
    intro y hy m hm
    obtain ⟨m', hm', haddr, hpaths, hitems⟩ := h.select y hy
    rw [hm'] at hm
    cases hm
    split
    · obtain ⟨m'', heq, -⟩ := @onPath_holds _ sIntf dIntf f _ _ _ hpaths hitems (h.pairs y hy) (hlens y hy)
      rw [heq]
      rfl
    · rfl
  obtain ⟨t', heq, hholds, hval⟩ := hsel.forEach hone hlen
  refine ⟨t', by rw [onSelects, h.selects.head]; exact heq, hholds, fun y hy => ?_, h.addrs, ?_⟩
  · obtain ⟨m, hm, haddr, hpaths, hitems⟩ := h.select y hy
    have hval' := hval y
    rw [if_pos hy, hm, Option.map_some] at hval'
    by_cases hselect : addr y = select
    · obtain ⟨m', heq', haddr', hpaths', hitems'⟩ := @onPath_holds _ sIntf dIntf f _ _ _ hpaths hitems (h.pairs y hy) (hlens y hy)
      rw [if_pos (haddr.trans hselect), heq', Option.getD_some] at hval'
      refine ⟨m', hval', haddr'.trans haddr, hpaths', fun z hz => ?_⟩
      rw [hitems' z hz, changeAll, if_pos hselect]
    · rw [if_neg (fun h => hselect (haddr.symm.trans h)), Option.getD_some] at hval'
      refine ⟨m, hval', haddr, hpaths, fun z hz => ?_⟩
      rw [hitems z hz, changeAll, if_neg hselect]
  · have hpair : ∀ y z, (changeAll addr select sIntf dIntf f item y z).sIntf = (item y z).sIntf ∧
        (changeAll addr select sIntf dIntf f item y z).dIntf = (item y z).dIntf := by
      intro y z
      unfold changeAll
      split
      · exact change_pair hf _
      · exact ⟨rfl, rfl⟩
    intro y hy z hz z' hz' hs hd
    rw [(hpair y z).1, (hpair y z').1] at hs
    rw [(hpair y z).2, (hpair y z').2] at hd
    exact h.pairs y hy z hz z' hz' hs hd

/-! ## A round -/

def pinged (now : ℚ) (R : List (ℕ × ℕ)) (item : ℕ → ℕ → PingItem) (y z : ℕ) : PingItem :=
  if (y, z) ∈ R then item y z else bump now (item y z)

theorem changeAll_pinged {item₀ : ℕ → ℕ → PingItem} (h : Holds t ys zs addr (pinged now ((y, z) :: R) item₀))
    (hy : y ∈ ys) (hz : z ∈ zs y) (hnodup : (y, z) ∉ R) {y' z' : ℕ} (hy' : y' ∈ ys) (hz' : z' ∈ zs y') :
    changeAll addr (addr y) (item₀ y z).sIntf (item₀ y z).dIntf (bump now) (pinged now ((y, z) :: R) item₀) y' z' =
      pinged now R item₀ y' z' := by
  have hfirst : pinged now ((y, z) :: R) item₀ y z = item₀ y z := if_pos mem_cons_self
  by_cases heq : y' = y ∧ z' = z
  · obtain ⟨rfl, rfl⟩ := heq
    rw [changeAll, if_pos rfl, hfirst, change, if_pos ⟨rfl, rfl⟩, pinged, if_neg hnodup]
  · have hpinged : pinged now ((y, z) :: R) item₀ y' z' = pinged now R item₀ y' z' := by
      have hiff : (y', z') ∈ (y, z) :: R ↔ (y', z') ∈ R := by
        rw [mem_cons, or_iff_right (fun h => heq (Prod.mk.inj h))]
      unfold pinged
      simp only [hiff]
    rw [changeAll]
    split
    case isTrue haddr =>
      obtain rfl := h.addrs y' hy' y hy haddr
      have hne : ¬ ((pinged now ((y', z) :: R) item₀ y' z').sIntf = (item₀ y' z).sIntf ∧
          (pinged now ((y', z) :: R) item₀ y' z').dIntf = (item₀ y' z).dIntf) := by
        rintro ⟨hs, hd⟩
        rw [← hfirst] at hs hd
        exact heq ⟨rfl, h.pairs y' hy z' hz' z hz hs hd⟩
      rw [change, if_neg hne, hpinged]
    case isFalse => exact hpinged

theorem Holds.congr {item' : ℕ → ℕ → PingItem} (h : Holds t ys zs addr item)
    (heq : ∀ y ∈ ys, ∀ z ∈ zs y, item y z = item' y z) : Holds t ys zs addr item' := by
  refine ⟨h.selects, fun y hy => ?_, h.addrs, fun y hy z hz z' hz' hs hd => ?_⟩
  · obtain ⟨m, hm, haddr, hpaths, hitems⟩ := h.select y hy
    exact ⟨m, hm, haddr, hpaths, fun z hz => (hitems z hz).trans (congrArg some (heq y hy z hz))⟩
  · rw [← heq y hy z hz, ← heq y hy z' hz'] at hs hd
    exact h.pairs y hy z hz z' hz' hs hd

theorem Remaining.subset (h : Remaining a ys zs c R) : R <:+ positions ys zs := by
  rcases h with ⟨-, rfl⟩ | ⟨l, y, r, l', z, r', rfl, hzs, -, rfl⟩
  · exact suffix_refl _
  · refine ⟨positions l zs ++ l'.map (fun z => (y, z)) ++ [(y, z)], ?_⟩
    simp [positions, hzs]

theorem positions_nodup (hys : ys.Nodup) (hzs : ∀ y ∈ ys, (zs y).Nodup) : (positions ys zs).Nodup := by
  induction ys with
  | nil => exact nodup_nil
  | cons y ys ih =>
    have hpos : positions (y :: ys) zs = (zs y).map (fun z => (y, z)) ++ positions ys zs := rfl
    rw [hpos, List.nodup_append]
    refine ⟨(hzs y mem_cons_self).map (fun _ _ h => (Prod.mk.inj h).2),
      ih (nodup_cons.mp hys).2 (fun y' hy' => hzs y' (mem_cons_of_mem y hy')), fun p hp q hq => ?_⟩
    rintro rfl
    obtain ⟨z, -, rfl⟩ := mem_map.mp hp
    obtain ⟨y', hy', hmem⟩ := mem_flatMap.mp hq
    obtain ⟨z', -, heq⟩ := mem_map.mp hmem
    cases heq
    exact (nodup_cons.mp hys).1 hy'

theorem mem_positions {y z : ℕ} : (y, z) ∈ positions ys zs ↔ y ∈ ys ∧ z ∈ zs y := by
  rw [positions, mem_flatMap]
  constructor
  · rintro ⟨y', hy', hmem⟩
    obtain ⟨z', hz', heq⟩ := mem_map.mp hmem
    cases heq
    exact ⟨hy', hz'⟩
  · rintro ⟨hy, hz⟩
    exact ⟨y, hy, mem_map.mpr ⟨z, hz, rfl⟩⟩

/-- **The round from a cursor on**: by induction on the paths that are still to come. -/
theorem sendPingHandler_from [DecidableEq A] {raAddr : NsAddr} {item₀ : ℕ → ℕ → PingItem} {n : ℕ}
    (h : Holds (tables a) ys zs addr (pinged now R item₀)) (hc : Remaining a ys zs c R)
    (hlen : ys.length + 1 < fuel) (hlens : ∀ y ∈ ys, (zs y).length < fuel) (hn : R.length < n) :
    ∃ t', sendPingHandler raAddr a now fuel n tables c =
        some (update tables a t', .null,
          R.map (fun p => packet raAddr now (addr p.1) (item₀ p.1 p.2))) ∧
      Holds t' ys zs addr (pinged now [] item₀) := by
  induction R generalizing tables c n with
  | nil =>
    obtain ⟨n, rfl⟩ : ∃ k, n = k + 1 := ⟨n - 1, by omega⟩
    have hcall : getPathItem tables fuel a c = some (.null, none) := getPathItem_next h hlen hc
    refine ⟨tables a, ?_, h⟩
    rw [sendPingHandler, hcall, Option.bind_some, update_eq_self]
    rfl
  | cons q R ih =>
    obtain ⟨y, z⟩ := q
    obtain ⟨n, rfl⟩ : ∃ k, n = k + 1 := ⟨n - 1, by omega⟩
    obtain ⟨c', hcall, hrem⟩ : ∃ c', getPathItem tables fuel a c =
        some (c', some (addr y, pinged now ((y, z) :: R) item₀ y z)) ∧ Remaining a ys zs c' R :=
      getPathItem_next h hlen hc
    have hfirst : pinged now ((y, z) :: R) item₀ y z = item₀ y z := if_pos mem_cons_self
    have hpos := mem_positions.mp (hc.subset.subset mem_cons_self)
    have hnodup : (y, z) ∉ R := by
      have hall := positions_nodup h.selects.nodup (fun y hy => by
        obtain ⟨m, -, -, hpaths, -⟩ := h.select y hy
        exact hpaths.nodup)
      exact (nodup_cons.mp (hall.sublist hc.subset.sublist)).1
    obtain ⟨t₁, ht₁, hholds₁⟩ := @onSelects_holds _ _ _ _ _ _ ((item₀ y z).sIntf) ((item₀ y z).dIntf) (addr y) _ h (show ys.length < fuel by omega) hlens (@keepsPair_bump now)
    have hholds₂ : Holds (update tables a t₁ a) ys zs addr (pinged now R item₀) := by
      rw [update_self]
      exact hholds₁.congr (fun y' hy' z' hz' => changeAll_pinged h hpos.1 hpos.2 hnodup hy' hz')
    obtain ⟨t', hrest, hfinal⟩ := ih hholds₂ hrem (by simpa using hn)
    refine ⟨t', ?_, hfinal⟩
    rw [sendPingHandler, hcall, hfirst, Option.bind_some]
    dsimp only
    rw [updatePingInfo, ht₁, Option.bind_some, hrest, Option.map_some, update_idem]
    rfl

/-! ## Rounds of several agents -/

def configured (fuel : ℕ) (t : PingTable) : List (NsAddr × PingItem) :=
  (t.toList fuel t.head).flatMap (fun m => (m.paths.toList fuel m.paths.head).map (fun path => (m.selectAddr, path)))

def WellFormed (t : PingTable) : Prop := ∃ ys zs addr item, Holds t ys zs addr item

/-- A well-formed table that is not larger than `n`. -/
def Sized (n : ℕ) (t : PingTable) : Prop :=
  ∃ ys zs addr item, Holds t ys zs addr item ∧ ys.length + 1 < n ∧ (∀ y ∈ ys, (zs y).length < n) ∧
    (positions ys zs).length < n

/-- The tables of the agents, and the static cursor. -/
structure Agents (A : Type) where
  tables : A → PingTable
  cursor : Cursor A

inductive Op (A : Type) where
  | round (a : A) (now : ℚ)
  | edit (a : A) (t : PingTable)

def step [DecidableEq A] (raAddr : A → NsAddr) (fuel : ℕ) (s : Agents A) : Op A → Option (Agents A × List PingPkt)
  | .round a now =>
    (sendPingHandler (raAddr a) a now fuel fuel s.tables s.cursor).map (fun r => (⟨r.1, r.2.1⟩, r.2.2))
  | .edit a t => some ({ s with tables := update s.tables a t }, [])

/-- **A round is right**: one packet for every configured path of the agent, whose `ping_seq_` is
incremented; nothing else changes, and the cursor is cleared. -/
def RoundOk (raAddr : A → NsAddr) (fuel : ℕ) (s : Agents A) (op : Op A) (s' : Agents A) (out : List PingPkt) :
    Prop :=
  match op with
  | .round a now =>
    out = (configured fuel (s.tables a)).map (fun p => packet (raAddr a) now p.1 p.2) ∧
      configured fuel (s'.tables a) = (configured fuel (s.tables a)).map (fun p => (p.1, bump now p.2)) ∧
      (∀ b, b ≠ a → s'.tables b = s.tables b) ∧ s'.cursor = .null
  | .edit _ _ => s'.cursor = .null

/-- Every round of the run is right. -/
def RoundsOk [DecidableEq A] (raAddr : A → NsAddr) (fuel : ℕ) (tables : A → PingTable) (ops : List (Op A)) :
    Prop :=
  ∀ past op, past ++ [op] <+: ops → ∃ s outs s' out,
    Runs.run (step raAddr fuel) ⟨tables, .null⟩ past = some (s, outs) ∧
      step raAddr fuel s op = some (s', out) ∧ s.cursor = .null ∧ RoundOk raAddr fuel s op s' out

variable {n n' : ℕ}

theorem Sized.mono (h : Sized n t) (hle : n ≤ n') : Sized n' t := by
  obtain ⟨ys, zs, addr, item, hholds, h1, h2, h3⟩ := h
  exact ⟨ys, zs, addr, item, hholds, by omega, fun y hy => (h2 y hy).trans_le hle, by omega⟩

theorem WellFormed.sized (h : WellFormed t) : ∃ n, Sized n t := by
  obtain ⟨ys, zs, addr, item, hholds⟩ := h
  have hbound : ∀ ys : List ℕ, ∃ k, ∀ y ∈ ys, (zs y).length < k := by
    intro ys
    induction ys with
    | nil => exact ⟨0, fun y hy => absurd hy not_mem_nil⟩
    | cons y ys ih =>
      obtain ⟨k, hk⟩ := ih
      refine ⟨k + (zs y).length + 1, fun y' hy' => ?_⟩
      rcases mem_cons.mp hy' with rfl | hy'
      · omega
      · have hlt := hk y' hy'
        omega
  obtain ⟨k, hk⟩ := hbound ys
  refine ⟨ys.length + 2 + k + (positions ys zs).length + 1, ys, zs, addr, item, hholds, by omega, fun y hy => ?_,
    by omega⟩
  have hlt := hk y hy
  omega

theorem Holds.configured (h : Holds t ys zs addr item) (hlen : ys.length < fuel)
    (hlens : ∀ y ∈ ys, (zs y).length < fuel) :
    Ping.configured fuel t = (positions ys zs).map (fun p => (addr p.1, item p.1 p.2)) := by
  have hsel : HeadList.Holds t ([] ++ ys) := h.selects
  have hpart : ∀ r : List ℕ, (∀ y ∈ r, y ∈ ys) → (r.filterMap t.val).flatMap (fun m =>
      (m.paths.toList fuel m.paths.head).map (fun path => (m.selectAddr, path))) =
        (positions r zs).map (fun p => (addr p.1, item p.1 p.2)) := by
    intro r
    induction r with
    | nil => exact fun _ => rfl
    | cons y r ih =>
      intro hr
      obtain ⟨m, hm, haddr, hpaths, hitems⟩ := h.select y (hr y mem_cons_self)
      have hrest := ih (fun y' hy' => hr y' (mem_cons_of_mem y hy'))
      have hholds : HeadList.Holds m.paths ([] ++ zs y) := hpaths
      have hvals : (zs y).filterMap m.paths.val = (zs y).map (item y) := by
        rw [← filterMap_eq_map]
        exact filterMap_congr (fun z hz => hitems z hz)
      have hpos : positions (y :: r) zs = (zs y).map (fun z => (y, z)) ++ positions r zs := rfl
      rw [filterMap_cons_some hm, flatMap_cons, hrest, hpaths.head,
        hholds.toList (hlens y (hr y mem_cons_self)), hvals, haddr, hpos, map_append, map_map,
        map_map]
      rfl
  rw [Ping.configured, h.selects.head, hsel.toList hlen]
  exact hpart ys (fun y hy => hy)

theorem round_ok [DecidableEq A] {raAddr : A → NsAddr} {s : Agents A} (h : Sized fuel (s.tables a))
    (hc : s.cursor = .null) :
    ∃ s' out, step raAddr fuel s (.round a now) = some (s', out) ∧ Sized fuel (s'.tables a) ∧
      RoundOk raAddr fuel s (.round a now) s' out := by
  obtain ⟨ys, zs, addr, item, hholds, h1, h2, h3⟩ := h
  have hstart : Holds (s.tables a) ys zs addr (pinged now (positions ys zs) item) :=
    hholds.congr (fun y hy z hz => (if_pos (mem_positions.mpr ⟨hy, hz⟩)).symm)
  obtain ⟨t', hcall, hholds'⟩ := @sendPingHandler_from _ _ _ _ _ _ _ _ _ _ _ (raAddr a) _ fuel hstart (Or.inl ⟨rfl, rfl⟩) h1 h2 h3
  have hconf := hholds.configured (show ys.length < fuel by omega) h2
  have hconf' := hholds'.configured (show ys.length < fuel by omega) h2
  refine ⟨⟨update s.tables a t', .null⟩,
    (positions ys zs).map (fun p => packet (raAddr a) now (addr p.1) (item p.1 p.2)), ?_, ?_, ?_, ?_, ?_, rfl⟩
  · rw [step, hc, hcall]
    rfl
  · show Sized fuel (update s.tables a t' a)
    rw [update_self]
    exact ⟨ys, zs, addr, _, hholds', h1, h2, h3⟩
  · rw [hconf, map_map]
    rfl
  · show Ping.configured fuel (update s.tables a t' a) = _
    rw [update_self, hconf', hconf, map_map]
    refine map_congr_left (fun p _ => ?_)
    rfl
  · exact fun b hb => update_of_ne hb _ _

/-- **A ping round visits every path exactly once**, in every run of rounds of any agents, with any
well-formed tables: each returns, sends one packet for each path, increments its `ping_seq_`, and leaves the
static cursor as it was. -/
theorem ping_rounds [DecidableEq A] (raAddr : A → NsAddr) (tables : A → PingTable) (ops : List (Op A))
    (htables : ∀ a, WellFormed (tables a)) (hedits : ∀ a t, Op.edit a t ∈ ops → WellFormed t) :
    ∃ n, ∀ fuel, n ≤ fuel → RoundsOk raAddr fuel tables ops := by
  -- a bound on the tables of the agents whose timers fire
  have hbound : ∀ ops : List (Op A), (∀ a t, Op.edit a t ∈ ops → WellFormed t) →
      ∃ n, (∀ a now, Op.round a now ∈ ops → Sized n (tables a)) ∧ ∀ a t, Op.edit a t ∈ ops → Sized n t := by
    intro ops
    induction ops with
    | nil =>
      exact fun _ => ⟨0, fun a now h => absurd h not_mem_nil, fun a t h => absurd h not_mem_nil⟩
    | cons op ops ih =>
      intro hwf
      obtain ⟨n, hrounds, hed⟩ := ih (fun a t h => hwf a t (mem_cons_of_mem op h))
      obtain ⟨k, hk⟩ : ∃ k, (∀ a now, op = .round a now → Sized k (tables a)) ∧
          ∀ a t, op = .edit a t → Sized k t := by
        cases op with
        | round a now =>
          obtain ⟨k, hk⟩ := (htables a).sized
          exact ⟨k, fun _ _ h => (by cases h; exact hk), fun _ _ h => (by cases h)⟩
        | edit a t =>
          obtain ⟨k, hk⟩ := (hwf a t mem_cons_self).sized
          exact ⟨k, fun _ _ h => (by cases h), fun _ _ h => (by cases h; exact hk)⟩
      refine ⟨n + k, fun a now h => ?_, fun a t h => ?_⟩
      · rcases mem_cons.mp h with h | h
        · exact (hk.1 a now h.symm).mono (by omega)
        · exact (hrounds a now h).mono (by omega)
      · rcases mem_cons.mp h with h | h
        · exact (hk.2 a t h.symm).mono (by omega)
        · exact (hed a t h).mono (by omega)
  obtain ⟨n, hrounds, hed⟩ := hbound ops hedits
  refine ⟨n, fun fuel hle => ?_⟩
  -- the invariant: the cursor is cleared, and the tables that matter are not larger than `fuel`
  have hinv : ∀ past, past <+: ops → ∃ s outs, Runs.run (step raAddr fuel) ⟨tables, .null⟩ past = some (s, outs) ∧
      s.cursor = .null ∧ ∀ a now, Op.round a now ∈ ops → Sized fuel (s.tables a) := by
    intro past
    induction past using List.reverseRecOn with
    | nil => exact fun _ => ⟨_, [], rfl, rfl, fun a now h => (hrounds a now h).mono hle⟩
    | append_singleton past op ih =>
      intro hpre
      obtain ⟨s, outs, hrun, hc, hsized⟩ := ih ((prefix_append _ _).trans hpre)
      have hop : op ∈ ops := hpre.subset (by simp)
      cases op with
      | round a now =>
        obtain ⟨s', out, hs, hsized', -, -, hothers, hc'⟩ := @round_ok _ _ _ now _ raAddr _ (hsized a now hop) hc
        refine ⟨s', _, Runs.run_concat hrun hs, hc', fun b t hb => ?_⟩
        by_cases hba : b = a
        · exact hba ▸ hsized'
        · rw [hothers b hba]
          exact hsized b t hb
      | edit a t =>
        refine ⟨_, _, Runs.run_concat hrun rfl, hc, fun b now hb => ?_⟩
        by_cases hba : b = a
        · subst hba
          show Sized fuel (update s.tables b t b)
          rw [update_self]
          exact (hed b t hop).mono hle
        · show Sized fuel (update s.tables a t b)
          rw [update_of_ne hba]
          exact hsized b now hb
  intro past op hpre
  obtain ⟨s, outs, hrun, hc, hsized⟩ := hinv past ((prefix_append _ _).trans hpre)
  have hop : op ∈ ops := hpre.subset (by simp)
  cases op with
  | round a now =>
    obtain ⟨s', out, hs, -, hok⟩ := @round_ok _ _ _ now _ raAddr _ (hsized a now hop) hc
    exact ⟨s, outs, s', out, hrun, hs, hc, hok⟩
  | edit a t => exact ⟨s, outs, _, _, hrun, rfl, hc, hc⟩

/-- A table of two selects: one with two paths, and one without a path. -/
def twoSelects : PingTable :=
  { next := fun y => if y = 1 then some 0 else none
    prev := fun y => if y = 0 then some 1 else none
    val := fun y =>
      if y = 1 then some
        { selectAddr := 7
          paths :=
            { next := fun z => if z = 1 then some 0 else none
              prev := fun z => if z = 0 then some 1 else none
              val := fun z => if z = 1 then some ⟨11, 12, 0, 0, 0⟩ else if z = 0 then some ⟨21, 22, 0, 0, 0⟩ else none
              head := some 1 } }
      else if y = 0 then some { selectAddr := 8, paths := HeadList.empty } else none
    head := some 1 }

theorem twoSelects_holds : Holds twoSelects [1, 0] (fun y => if y = 1 then [1, 0] else [])
    (fun y => if y = 1 then 7 else 8) (fun _ z => if z = 1 then ⟨11, 12, 0, 0, 0⟩ else ⟨21, 22, 0, 0, 0⟩) := by
  have hlive : ∀ {V : Type} (v w : V) (a : ℕ), (if a = 1 then some v else if a = 0 then some w else none).isSome ↔
      a ∈ [1, 0] := by
    intro V v w a
    by_cases h1 : a = 1
    · simp [h1]
    · by_cases h0 : a = 0
      · simp [h0]
      · simp [h0]
  refine ⟨⟨rfl, ⟨rfl, rfl, rfl, rfl, trivial⟩, by decide, hlive _ _⟩, fun y hy => ?_, by decide, by decide⟩
  rcases mem_cons.mp hy with rfl | hy
  · exact ⟨_, rfl, rfl, ⟨rfl, ⟨rfl, rfl, rfl, rfl, trivial⟩, by decide, hlive _ _⟩, by decide⟩
  · obtain rfl := mem_singleton.mp hy
    exact ⟨_, rfl, rfl, HeadList.holds_empty, by decide⟩

/-- The agent `true` has such a table, and the other agent has an empty one. -/
theorem ping_rounds_twoAgents : ∃ n, ∀ fuel, n ≤ fuel →
    RoundsOk (fun b : Bool => if b then 1 else 2) fuel (fun b => if b then twoSelects else HeadList.empty)
      [.round true 1, .round false 1, .round true 2] := by
  refine ping_rounds _ _ _ (fun b => ?_) (fun b t hedit => by simp at hedit)
  cases b with
  | false =>
    exact ⟨[], fun _ => [], fun _ => 0, fun _ _ => ⟨0, 0, 0, 0, 0⟩, HeadList.holds_empty, by simp, by simp, by simp⟩
  | true => exact ⟨_, _, _, _, twoSelects_holds⟩

end Ping

end NetSim
