import Mathlib.Algebra.Order.Field.Rat
import Mathlib.Data.List.Basic

/-! # TORA destinations

A TORA node has for every destination a height, the heights of its neighbours, and the direction of the
link to each neighbour (`tora/tora_dest.cc`, `tora/tora_neighbor.cc`), and changes its height by the rules
of `recvQRY`, `recvUPD` and `recvCLR` (`tora/tora.cc`).
-/

namespace NetSim.Tora

structure Height where
  tau : ℚ
  oid : ℤ
  r : ℤ
  delta : ℤ
  id : ℤ
deriving DecidableEq

namespace Height

def init (id : ℤ) : Height := ⟨-1, -1, -1, -1, id⟩

def isNull (h : Height) : Bool := h.tau = -1 ∧ h.oid = -1 ∧ h.r = -1 ∧ h.delta = -1

def compare (h h' : Height) : ℤ :=
  if h.tau < h'.tau then 1 else if h'.tau < h.tau then -1
  else if h.oid < h'.oid then 1 else if h'.oid < h.oid then -1
  else if h.r < h'.r then 1 else if h'.r < h.r then -1
  else if h.delta < h'.delta then 1 else if h'.delta < h.delta then -1
  else if h.id < h'.id then 1 else if h'.id < h.id then -1
  else 0

def zero (h : Height) : Height := ⟨0, 0, 0, 0, h.id⟩

def null (h : Height) : Height := ⟨-1, -1, -1, -1, h.id⟩

def sameRef (h h' : Height) : Bool := h.tau = h'.tau ∧ h.oid = h'.oid ∧ h.r = h'.r

end Height

inductive LinkStatus
  | up | dn | un
deriving DecidableEq

structure TORANeighbor where
  index : ℤ
  height : Height
  lnkStat : LinkStatus
  timeAct : ℚ
deriving DecidableEq

namespace TORANeighbor

def init (id : ℤ) (now : ℚ) : TORANeighbor := ⟨id, Height.init id, .un, now⟩

/-- `TORANeighbor::update_link_status`. Heights that are equal leave the status as it is. -/
def updateLinkStatus (tn : TORANeighbor) (h : Height) : TORANeighbor :=
  if tn.height.isNull then { tn with lnkStat := .un }
  else if h.isNull then { tn with lnkStat := .dn }
  else if 0 < tn.height.compare h then { tn with lnkStat := .dn }
  else if tn.height.compare h < 0 then { tn with lnkStat := .up }
  else tn

/-- The height becomes `NULL`, and the link undirected. -/
def clear (tn : TORANeighbor) : TORANeighbor := { tn with height := tn.height.null, lnkStat := .un }

end TORANeighbor

structure TORADest where
  index : ℤ
  height : Height
  rtReq : Bool
  timeUpd : ℚ
  nblist : List TORANeighbor
  numActive : ℤ
  numDown : ℤ
  numUp : ℤ
deriving DecidableEq

inductive Msg
  | qry (dst : ℤ)
  | upd (dst : ℤ) (h : Height)
  | clr (dst : ℤ) (tau : ℚ) (oid : ℤ)
deriving DecidableEq

structure Outcome where
  td : TORADest
  sent : List Msg
  levels : List Height

namespace TORADest

def init (id : ℤ) : TORADest where
  index := id
  height := Height.init id
  rtReq := false
  timeUpd := 0
  nblist := []
  numActive := 0
  numDown := 0
  numUp := 0

/-! ## Neighbours -/

def nbAdd (td : TORADest) (now : ℚ) (id : ℤ) : TORADest :=
  let tn := TORANeighbor.init id now
  if id = td.index then
    { td with
      nblist := { tn with height := tn.height.zero, lnkStat := .dn } :: td.nblist
      numActive := td.numActive + 1
      numDown := td.numDown + 1 }
  else { td with nblist := tn :: td.nblist, numActive := td.numActive + 1 }

def nbFind (td : TORADest) (id : ℤ) : Option TORANeighbor := td.nblist.find? (·.index = id)

/-- The neighbour that is first among the lowest ones. -/
def lowest (l : List TORANeighbor) : Option TORANeighbor :=
  l.foldl (fun tnMin tn =>
    match tnMin with
    | none => some tn
    | some m => if m.height.compare tn.height < 0 then some tn else some m) none

/-- The neighbour that is first among the highest ones. -/
def highest (l : List TORANeighbor) : Option TORANeighbor :=
  l.foldl (fun tnMax tn =>
    match tnMax with
    | none => some tn
    | some m => if 0 < m.height.compare tn.height then some tn else some m) none

def nbFindNextHop (td : TORADest) : Option TORANeighbor :=
  lowest (td.nblist.filter (fun tn => ¬ tn.height.isNull ∧ tn.lnkStat = .dn))

def nbFindMinHeight (td : TORADest) (r : ℤ) : Option TORANeighbor :=
  lowest (td.nblist.filter (·.height.r = r))

def nbFindMinNonnullHeight (td : TORADest) (h : Height) : Option TORANeighbor :=
  lowest (td.nblist.filter (fun tn => ¬ tn.height.isNull ∧ tn.height.sameRef h))

def nbFindMaxHeight (td : TORADest) : Option TORANeighbor :=
  highest (td.nblist.filter (fun tn => ¬ tn.height.isNull))

def nbCheckSameRef (td : TORADest) : Bool :=
  match td.nblist.filter (fun tn => ¬ tn.height.isNull) with
  | [] => true
  | tref :: rest => rest.all (fun tn => tref.height.sameRef tn.height)

/-! ## Heights -/

def updateHeight (td : TORADest) (h : Height) : TORADest :=
  let nblist := td.nblist.map (·.updateLinkStatus h)
  { td with
    height := h
    nblist := nblist
    numActive := nblist.length
    numDown := nblist.countP (·.lnkStat = .dn)
    numUp := nblist.countP (·.lnkStat = .up) }

def recount (num : ℤ) (status before after : LinkStatus) : ℤ :=
  num - (if before = status then 1 else 0) + (if after = status then 1 else 0)

def updateHeightNb (td : TORADest) (tn : TORANeighbor) (h : Height) : TORADest :=
  let tn' := { tn with height := h }.updateLinkStatus td.height
  { td with
    nblist := td.nblist.map (fun x => if x.index = tn.index then tn' else x)
    numDown := recount td.numDown .dn tn.lnkStat tn'.lnkStat
    numUp := recount td.numUp .up tn.lnkStat tn'.lnkStat }

/-- The node takes a height. -/
def adopt (td : TORADest) (now : ℚ) (h : Height) : Outcome :=
  let td := { td.updateHeight h with timeUpd := now }
  ⟨td, [.upd td.index td.height], []⟩

/-- The node creates a reference level. -/
def create (td : TORADest) (now : ℚ) (oid id : ℤ) : TORADest × List Height :=
  let h : Height := ⟨now, oid, 0, 0, id⟩
  (td.updateHeight h, [h])

/-- `TORADest::nb_del`; the result tells whether the last downstream link is lost. -/
def nbDel (td : TORADest) (now : ℚ) (id : ℤ) : TORADest × Bool × List Height :=
  match td.nbFind id with
  | none => (td, false, [])
  | some tn =>
    let td :=
      { td with
        nblist := td.nblist.eraseP (·.index = id)
        numActive := td.numActive - 1
        numDown := recount td.numDown .dn tn.lnkStat .un
        numUp := recount td.numUp .up tn.lnkStat .un }
    if td.numDown = 0 then
      if 0 < td.numUp then
        let r := td.create now td.index td.index
        (r.1, true, r.2)
      else (td.updateHeight ⟨-1, -1, -1, -1, td.index⟩, true, [])
    else (td, false, [])

/-- The node loses its height and tells its neighbours. -/
def giveUp (td : TORADest) (now : ℚ) : Outcome :=
  let td := { td with height := td.height.null, timeUpd := now }
  ⟨td, [.upd td.index td.height], []⟩

def restart (td : TORADest) (now : ℚ) (ipaddr : ℤ) : Outcome :=
  let r := td.create now ipaddr ipaddr
  let td := { r.1 with rtReq := false, timeUpd := now }
  ⟨td, [.upd td.index td.height], r.2⟩

/-- All heights but that of the destination become `NULL`. -/
def erase (td : TORADest) : TORADest :=
  { td with
    height := td.height.null
    numDown := 0
    numUp := 0
    nblist := td.nblist.map (fun tn =>
      if tn.index = td.index then { tn with height := tn.height.zero, lnkStat := .dn } else tn.clear) }

/-! ## Messages -/

def recvQRY (td : TORADest) (now : ℚ) (ipaddr src : ℤ) : Outcome :=
  if td.rtReq then ⟨td, [], []⟩
  else if td.height.r = 0 then
    match td.nbFind src with
    | some tn =>
      if td.timeUpd < tn.timeAct then
        ⟨{ td with timeUpd := now }, [.upd td.index td.height], []⟩
      else ⟨td, [], []⟩
    | none => ⟨td, [], []⟩
  else
    match td.nbFindMinHeight 0 with
    | some tn => td.adopt now ⟨tn.height.tau, tn.height.oid, tn.height.r, tn.height.delta + 1, ipaddr⟩
    | none => ⟨{ td with rtReq := true }, if 1 < td.numActive then [.qry td.index] else [], []⟩

/-- The rules of `toraAgent::recvUPD` for a node without downstream links; `none` where an assertion
fails. -/
def react (td : TORADest) (now : ℚ) (ipaddr : ℤ) : Option Outcome :=
  if td.numUp = 0 then
    some (if td.height.isNull then ⟨td, [], []⟩ else td.giveUp now)
  else if td.nbCheckSameRef then
    match td.nbFindMinHeight 0 with
    | some tn => some (td.adopt now ⟨tn.height.tau, tn.height.oid, 1, 0, ipaddr⟩)
    | none =>
      if td.height.oid = ipaddr then
        some ⟨td.erase, [.clr td.index td.height.tau td.height.oid], []⟩
      else some (td.restart now ipaddr)
  else
    td.nbFindMaxHeight.bind (fun n => (td.nbFindMinNonnullHeight n.height).map (fun m =>
      td.adopt now ⟨m.height.tau, m.height.oid, m.height.r, m.height.delta - 1, ipaddr⟩))

def recvUPD (td : TORADest) (now : ℚ) (ipaddr src : ℤ) (h : Height) : Option Outcome :=
  match td.nbFind src with
  | none => some ⟨td, [], []⟩
  | some tn =>
    let td := td.updateHeightNb tn h
    if td.rtReq ∧ h.r = 0 then
      some ({ td with rtReq := false }.adopt now ⟨h.tau, h.oid, h.r, h.delta + 1, ipaddr⟩)
    else if td.numDown = 0 then td.react now ipaddr
    else some ⟨td, [], []⟩

/-- `toraAgent::recvCLR`. The numbers of links are not changed where a neighbour is cleared. -/
def recvCLR (td : TORADest) (now : ℚ) (ipaddr src : ℤ) (tau : ℚ) (oid : ℤ) : Outcome :=
  if td.height.tau = tau ∧ td.height.oid = oid ∧ td.height.r = 1 then
    ⟨td.erase, if 1 < td.numActive then [.clr td.index td.height.tau td.height.oid] else [], []⟩
  else
    match td.nbFind src with
    | none => ⟨td, [], []⟩
    | some tn =>
      let td :=
        { td with
          nblist := td.nblist.map (fun x =>
            if x.index = tn.index ∨ x.height.tau = tau ∧ x.height.oid = oid ∧ x.height.r = 1 then
              x.clear
            else x) }
      if td.numDown = 0 then
        if td.numUp = 0 then
          if td.height.isNull then ⟨td, [], []⟩ else td.giveUp now
        else td.restart now ipaddr
      else ⟨td, [], []⟩

end TORADest

end NetSim.Tora
