import Mathlib.Tactic.Ring
import NetSim.MpSelect.Rtable

/-! # The agents of mpSelect

`mpSelect` of `mpSelect/mpSelect.cc`. A core agent that forwards a packet over a multipath route
gives it a header of its own and sends it to an interface; the interface agents relay it; and the
core agent that receives it restores the packet and forwards it on.

`Outcome.fault` is an access to a null pointer, or a call that does not return, in the routing
table.
-/

namespace NetSim

inductive Direction where
  | down
  | none
  | up
  deriving DecidableEq

structure Packet where
  ptype : ℕ
  size : ℤ
  numForwards : ℤ
  direction : Direction
  nextHop : NsAddr
  saddr : NsAddr
  daddr : NsAddr
  dport : ℤ
  ttl : ℤ
  type : ℤ
  formerAddr : NsAddr
  formerPort : ℤ
  formerPtype : ℕ
  sIntf : NsAddr
  dIntf : NsAddr
  sSelect : NsAddr
  dSelect : NsAddr
  deriving DecidableEq

def ptMpSelect : ℕ := 74
def dataPkt : ℤ := 0
def ipHdrLen : ℤ := 20
def mpSelectHdrLen : ℤ := 40

inductive DropReason where
  | routeLoop
  | ttl
  | noRoute
  deriving DecidableEq

/-- What becomes of a packet: it is passed to the upper layer, scheduled for the target, dropped, or
was a ping. -/
inductive Outcome where
  | up (p : Packet)
  | send (p : Packet)
  | drop (reason : DropReason)
  | ping
  | fault

inductive SelectType where
  | core
  | intf
  deriving DecidableEq

/-- `mpSelect`; `dport` is the destination port of the agent. -/
structure MpSelect where
  selectType : SelectType
  raAddr : NsAddr
  dport : ℤ
  rtable : MpRtable

namespace MpSelect

/-- What `recv` does with a packet before it calls another function. -/
inductive Receipt where
  | drop (reason : DropReason)
  | ping
  | relay (p : Packet)
  | plain (p : Packet)
  | encapsulated (p : Packet)

/-- The beginning of `recv`: a packet of this agent gets its IP header, or is in a loop. -/
def prologue (a : MpSelect) (p : Packet) : Option Packet :=
  if p.saddr = a.raAddr then
    if 0 < p.numForwards then none
    else if p.numForwards = 0 then some { p with size := p.size + ipHdrLen }
    else some p
  else some p

def receive (a : MpSelect) (p : Packet) : Receipt :=
  match a.prologue p with
  | none => .drop .routeLoop
  | some p =>
    if p.ptype = ptMpSelect then
      match a.selectType with
      | .core => if p.type = dataPkt then .encapsulated p else .ping
      | .intf => .relay p
    else if p.ttl - 1 < 0 then .drop .ttl
    else .plain { p with ttl := p.ttl - 1 }

def forwardMpSPkt (a : MpSelect) (p : Packet) : Outcome :=
  if p.daddr ≠ p.sIntf ∧ p.daddr ≠ p.dIntf then .drop .noRoute
  else if p.sSelect = a.raAddr then .send { p with daddr := p.dIntf, nextHop := p.dIntf }
  else .send { p with daddr := a.raAddr }

def encapsulate (a : MpSelect) (p : Packet) (destSelect : NsAddr) (path : MpathItem) : Packet :=
  { p with
    size := p.size + mpSelectHdrLen
    type := dataPkt
    formerAddr := p.daddr
    formerPort := p.dport
    formerPtype := p.ptype
    sIntf := path.sIntf
    dIntf := path.dIntf
    sSelect := a.raAddr
    dSelect := destSelect
    daddr := path.sIntf
    dport := a.dport
    ptype := ptMpSelect
    nextHop := path.sIntf }

def forwardData (a : MpSelect) (p : Packet) (now : ℚ) : MpSelect × Outcome :=
  if p.direction = .up ∧ (p.daddr = ipBroadcast ∨ p.daddr = a.raAddr) then (a, .up p)
  else
    let p := { p with direction := .down }
    if p.daddr = ipBroadcast then (a, .send { p with nextHop := ipBroadcast })
    else
      match a.rtable.findMP p.daddr with
      | none => (a, .fault)
      | some true =>
        match a.rtable.lookupMP p.daddr now with
        | none => (a, .fault)
        | some (rtable, none) => ({ a with rtable }, .drop .noRoute)
        | some (rtable, some (destSelect, path)) =>
          if destSelect = ipBroadcast then ({ a with rtable }, .drop .noRoute)
          else ({ a with rtable }, .send (a.encapsulate p destSelect path))
      | some false =>
        match a.rtable.lookup p.daddr with
        | none => (a, .fault)
        | some nextHop =>
          if nextHop = ipBroadcast then (a, .drop .noRoute)
          else (a, .send { p with nextHop })

/-- The packet is restored in `recv_data_pkt`. -/
def restore (a : MpSelect) (p : Packet) : Packet :=
  { p with
    daddr := p.formerAddr
    dport := p.formerPort
    ptype := p.formerPtype
    size := p.size - mpSelectHdrLen
    direction := if p.formerAddr = a.raAddr then .up else p.direction }

def recvDataPkt (a : MpSelect) (p : Packet) (now : ℚ) : MpSelect × Outcome :=
  match a.rtable.updateRtime p.sSelect p.dIntf p.sIntf now with
  | none => (a, .fault)
  | some rtable => { a with rtable }.forwardData (a.restore p) now

def recv (a : MpSelect) (p : Packet) (now : ℚ) : MpSelect × Outcome :=
  match a.receive p with
  | .drop reason => (a, .drop reason)
  | .ping => (a, .ping)
  | .relay p => (a, a.forwardMpSPkt p)
  | .plain p => a.forwardData p now
  | .encapsulated p => a.recvDataPkt p now

/-- The packet that `recv` hands to `forward_data`, if it does. -/
def handed (a : MpSelect) (p : Packet) : Option Packet :=
  match a.receive p with
  | .plain p => some p
  | .encapsulated p => some (a.restore p)
  | _ => none

/-! ## The way of a packet from core to core -/

/-- A link adds to `num_forwards_`, or does not. -/
def hop (p : Packet) (forwards : ℕ) : Packet := { p with numForwards := p.numForwards + forwards }

/-- An interface agent relays the packet. `none`: it does not arrive. -/
def relay (a : MpSelect) (p : Packet) : Option Packet :=
  match a.receive p with
  | .relay p =>
    match a.forwardMpSPkt p with
    | .send p => some p
    | _ => none
  | _ => none

def relays : List (ℕ × MpSelect) → Packet → Option Packet
  | [], p => some p
  | (forwards, a) :: intfs, p => (a.relay (hop p forwards)).bind (relays intfs)

/-- A multipath hop: the time at which the packet is forwarded, the interface agents, and the core
agent at the end, each behind a link. -/
structure Leg where
  now : ℚ
  intfs : List (ℕ × MpSelect)
  forwards : ℕ
  core : MpSelect

/-- The core agent `a` forwards the packet over a multipath route: the packet that it sends. -/
def sendMultipath (a : MpSelect) (p : Packet) (now : ℚ) : Option Packet :=
  match a.rtable.findMP p.daddr, (a.forwardData p now).2 with
  | some true, .send q => if q.ptype = ptMpSelect then some q else none
  | _, _ => none

/-- The packet that the last core agent hands to `forward_data`, when `a` has handed `p` to it. -/
def travel : MpSelect → Packet → List Leg → Option Packet
  | _, p, [] => some p
  | a, p, leg :: legs =>
    (a.sendMultipath p leg.now).bind (fun p =>
      (relays leg.intfs p).bind (fun p =>
        (leg.core.handed (hop p leg.forwards)).bind (fun p => travel leg.core p legs)))

/-- The agents that receive the packet on a leg. -/
def Leg.agents (leg : Leg) : List MpSelect := leg.intfs.map Prod.snd ++ [leg.core]

def origins (saddr : NsAddr) (agents : List MpSelect) : ℕ :=
  agents.countP (fun a => saddr = a.raAddr)

/-! ## What the agents keep -/

variable {a : MpSelect} {p p' q : Packet} {n : ℕ} {now : ℚ}

/-- 1 if the agent runs with the source address of the packet. -/
def origin (saddr : NsAddr) (a : MpSelect) : ℕ := if saddr = a.raAddr then 1 else 0

theorem origins_cons (saddr : NsAddr) (a : MpSelect) (agents : List MpSelect) :
    origins saddr (a :: agents) = origin saddr a + origins saddr agents := by
  rw [origins, List.countP_cons, Nat.add_comm]
  simp [origin, origins]

theorem origins_append (saddr : NsAddr) (l r : List MpSelect) :
    origins saddr (l ++ r) = origins saddr l + origins saddr r := List.countP_append

theorem prologue_spec (h : a.prologue p = some q) (hnum : 0 ≤ p.numForwards) :
    q = { p with size := p.size + ipHdrLen * origin p.saddr a } := by
  unfold prologue at h
  unfold origin
  split at h
  case isTrue hsrc =>
    rw [if_pos hsrc]
    split at h
    · cases h
    · have hzero : p.numForwards = 0 := by omega
      rw [if_pos hzero] at h
      cases h
      simp
  case isFalse hsrc =>
    rw [if_neg hsrc]
    cases h
    simp

/-- The packet `q` is `p`, with the IP header added `n` times. -/
structure Same (p q : Packet) (n : ℕ) : Prop where
  saddr : q.saddr = p.saddr
  daddr : q.daddr = p.daddr
  dport : q.dport = p.dport
  ptype : q.ptype = p.ptype
  size : q.size = p.size + ipHdrLen * n
  num : 0 ≤ q.numForwards

/-- The packet `q` carries `p` in an mpSelect header. -/
structure Carries (p q : Packet) (n : ℕ) : Prop where
  saddr : q.saddr = p.saddr
  daddr : q.formerAddr = p.daddr
  dport : q.formerPort = p.dport
  formerPtype : q.formerPtype = p.ptype
  type : q.type = dataPkt
  ptype : q.ptype = ptMpSelect
  size : q.size = p.size + mpSelectHdrLen + ipHdrLen * n
  num : 0 ≤ q.numForwards

theorem Carries.hop (h : Carries p q n) (forwards : ℕ) : Carries p (MpSelect.hop q forwards) n := by
  refine ⟨h.saddr, h.daddr, h.dport, h.formerPtype, h.type, h.ptype, h.size, ?_⟩
  have := h.num
  show 0 ≤ q.numForwards + forwards
  omega

theorem Carries.prologue (h : Carries p q n) (hq : a.prologue q = some p') :
    Carries p p' (n + origin p.saddr a) := by
  obtain rfl := prologue_spec hq h.num
  refine ⟨h.saddr, h.daddr, h.dport, h.formerPtype, h.type, h.ptype, ?_, h.num⟩
  rw [h.size, h.saddr]
  push_cast
  ring

theorem sendMultipath_spec (h : Same p q n) (hdata : p.ptype ≠ ptMpSelect)
    (hs : a.sendMultipath q now = some p') : Carries p p' n := by
  unfold sendMultipath at hs
  have hq : q.ptype ≠ ptMpSelect := by rw [h.ptype]; exact hdata
  split at hs
  case h_2 => cases hs
  case h_1 r hmp hsend =>
    split at hs
    case isFalse => cases hs
    case isTrue hr =>
      cases hs
      rw [forwardData] at hsend
      split at hsend
      · cases hsend
      dsimp only at hsend
      split at hsend
      · cases hsend
        exact absurd hr hq
      rw [hmp] at hsend
      dsimp only at hsend
      split at hsend
      · cases hsend
      · cases hsend
      · split at hsend
        · cases hsend
        · cases hsend
          refine ⟨h.saddr, h.daddr, h.dport, h.ptype, rfl, rfl, ?_, h.num⟩
          show q.size + mpSelectHdrLen = _
          rw [h.size]
          ring

theorem Carries.receive (h : Carries p q n) :
    a.receive q = .drop .routeLoop ∨ ∃ r, Carries p r (n + origin p.saddr a) ∧
      a.receive q = match a.selectType with
        | .core => .encapsulated r
        | .intf => .relay r := by
  unfold MpSelect.receive
  cases hpro : a.prologue q with
  | none => exact Or.inl rfl
  | some r =>
    have hr := h.prologue hpro
    refine Or.inr ⟨r, hr, ?_⟩
    simp only [if_pos hr.ptype, if_pos hr.type]

theorem Carries.relay (h : Carries p q n) (hr : a.relay q = some p') :
    Carries p p' (n + origin p.saddr a) := by
  unfold MpSelect.relay at hr
  rcases h.receive (a := a) with heq | ⟨r, hc, heq⟩
  · rw [heq] at hr
    cases hr
  · rw [heq] at hr
    cases htype : a.selectType with
    | core =>
      rw [htype] at hr
      cases hr
    | intf =>
      rw [htype] at hr
      dsimp only at hr
      unfold forwardMpSPkt at hr
      by_cases hno : r.daddr ≠ r.sIntf ∧ r.daddr ≠ r.dIntf
      · rw [if_pos hno] at hr
        cases hr
      · rw [if_neg hno] at hr
        by_cases hsel : r.sSelect = a.raAddr
        · rw [if_pos hsel] at hr
          cases hr
          exact ⟨hc.saddr, hc.daddr, hc.dport, hc.formerPtype, hc.type, hc.ptype, hc.size, hc.num⟩
        · rw [if_neg hsel] at hr
          cases hr
          exact ⟨hc.saddr, hc.daddr, hc.dport, hc.formerPtype, hc.type, hc.ptype, hc.size, hc.num⟩

theorem Carries.relays {intfs : List (ℕ × MpSelect)} (h : Carries p q n)
    (hr : relays intfs q = some p') : Carries p p' (n + origins p.saddr (intfs.map Prod.snd)) := by
  induction intfs generalizing q n with
  | nil =>
    cases hr
    exact h
  | cons i intfs ih =>
    rw [MpSelect.relays, Option.bind_eq_some_iff] at hr
    obtain ⟨q₁, hq₁, hr⟩ := hr
    have h' := ih ((h.hop i.1).relay hq₁) hr
    rw [List.map_cons, origins_cons, ← Nat.add_assoc]
    exact h'

theorem Carries.handed (h : Carries p q n) (hq : a.handed q = some p') :
    Same p p' (n + origin p.saddr a) := by
  unfold MpSelect.handed at hq
  rcases h.receive (a := a) with heq | ⟨r, hc, heq⟩
  · rw [heq] at hq
    cases hq
  · rw [heq] at hq
    cases htype : a.selectType with
    | intf =>
      rw [htype] at hq
      cases hq
    | core =>
      rw [htype] at hq
      cases hq
      refine ⟨hc.saddr, hc.daddr, hc.dport, hc.formerPtype, ?_, hc.num⟩
      show r.size - mpSelectHdrLen = _
      rw [hc.size]
      ring

theorem handed_plain (hdata : p.ptype ≠ ptMpSelect) (hnum : 0 ≤ p.numForwards)
    (hq : a.handed p = some q) : Same p q (origin p.saddr a) := by
  unfold MpSelect.handed receive at hq
  cases hpro : a.prologue p with
  | none => simp [hpro] at hq
  | some p₁ =>
    obtain rfl := prologue_spec hpro hnum
    simp only [hpro, if_neg hdata] at hq
    split at hq
    case h_1 r heq =>
      split at heq
      · cases heq
      · cases heq
        cases hq
        exact ⟨rfl, rfl, rfl, rfl, rfl, hnum⟩
    case h_2 r heq => split at heq <;> cases heq
    case h_3 => cases hq

/-- By induction on the legs of the chain. -/
theorem travel_spec {legs : List Leg} (h : Same p q n) (hdata : p.ptype ≠ ptMpSelect)
    (ht : travel a q legs = some p') :
    Same p p' (n + origins p.saddr (legs.flatMap Leg.agents)) := by
  induction legs generalizing a q n with
  | nil =>
    cases ht
    exact h
  | cons leg legs ih =>
    rw [travel, Option.bind_eq_some_iff] at ht
    obtain ⟨q₁, hq₁, ht⟩ := ht
    rw [Option.bind_eq_some_iff] at ht
    obtain ⟨q₂, hq₂, ht⟩ := ht
    rw [Option.bind_eq_some_iff] at ht
    obtain ⟨q₃, hq₃, ht⟩ := ht
    have h₂ := (sendMultipath_spec h hdata hq₁).relays hq₂
    have h₃ := (h₂.hop leg.forwards).handed hq₃
    have h' := ih h₃ ht
    rw [List.flatMap_cons, origins_append, Leg.agents, origins_append, origins_cons]
    have hzero : origins p.saddr [] = 0 := rfl
    rw [hzero, Nat.add_zero, ← Nat.add_assoc, ← Nat.add_assoc]
    exact h'

/-- **The encapsulation is transparent, exactly.** A data packet arrives at the core agent `a` and is
carried over multipath hops; the last core agent hands `q` to `forward_data`. The destination, the
port and the type are those of the packet, and its size has grown by the IP header at most once, if
and only if at most one of the agents that received it runs with its source address. -/
theorem encapsulation_transparent {legs : List Leg} (hdata : p.ptype ≠ ptMpSelect)
    (hnum : 0 ≤ p.numForwards) (hq : (a.handed p).bind (fun r => travel a r legs) = some q) :
    (q.daddr = p.daddr ∧ q.dport = p.dport ∧ q.ptype = p.ptype ∧
      (q.size = p.size ∨ q.size = p.size + ipHdrLen)) ↔
      origins p.saddr (a :: legs.flatMap Leg.agents) ≤ 1 := by
  obtain ⟨r, hr, ht⟩ := Option.bind_eq_some_iff.mp hq
  have h := travel_spec (handed_plain hdata hnum hr) hdata ht
  rw [← origins_cons] at h
  have hsize := h.size
  have hlen : ipHdrLen = 20 := rfl
  rw [hlen] at hsize ⊢
  constructor
  · rintro ⟨-, -, -, hor⟩
    omega
  · intro hle
    exact ⟨h.daddr, h.dport, h.ptype, by omega⟩

/-- The core agent with the address `raAddr` and a multipath route to 9 over the core agent
`select`. -/
def coreTo (raAddr select sIntf dIntf : NsAddr) : MpSelect :=
  { selectType := .core, raAddr, dport := 255
    rtable := (Runs.run MpRtable.step MpRtable.empty
      [.addItem 9 0xffffffff 7, .addMpath select sIntf dIntf 0, .attachSelect 9 0xffffffff select]).elim
        MpRtable.empty Prod.fst }

def intfOf (raAddr : NsAddr) : MpSelect :=
  { selectType := .intf, raAddr, dport := 255, rtable := MpRtable.empty }

def dataTo9 (saddr : NsAddr) (ttl : ℤ) : Packet :=
  { ptype := 2, size := 1000, numForwards := 0, direction := .down, nextHop := 0, saddr, daddr := 9,
    dport := 80, ttl, type := 0, formerAddr := 0, formerPort := 0, formerPtype := 0, sIntf := 0,
    dIntf := 0, sSelect := 0, dSelect := 0 }

/-- From 1 to 2 and on to 3, over two interface agents each. -/
def twoLegs : List Leg :=
  [{ now := 5, intfs := [(0, intfOf 1), (1, intfOf 2)], forwards := 0, core := coreTo 2 3 22 33 },
    { now := 6, intfs := [(0, intfOf 2), (0, intfOf 3)], forwards := 1, core := coreTo 3 4 34 43 }]

theorem encapsulation_transparent_twoLegs :
    ∃ q, ((coreTo 1 2 11 12).handed (dataTo9 5 32)).bind
        (fun r => travel (coreTo 1 2 11 12) r twoLegs) = some q ∧
      ((q.daddr = 9 ∧ q.dport = 80 ∧ q.ptype = 2 ∧ (q.size = 1000 ∨ q.size = 1000 + ipHdrLen)) ↔
        origins 5 (coreTo 1 2 11 12 :: twoLegs.flatMap Leg.agents) ≤ 1) := by
  obtain ⟨q, hq⟩ : ∃ q, ((coreTo 1 2 11 12).handed (dataTo9 5 32)).bind
      (fun r => travel (coreTo 1 2 11 12) r twoLegs) = some q :=
    Option.isSome_iff_exists.mp (by decide +kernel)
  exact ⟨q, hq, encapsulation_transparent (show (dataTo9 5 32).ptype ≠ ptMpSelect by decide)
    (by decide) hq⟩

/-- A packet of the core agent 1 itself. The interface agent on its side runs with the same address
and adds the IP header once more: 1040 instead of 1020. -/
theorem ip_header_twice :
    ∃ q, ((coreTo 1 2 11 12).handed (dataTo9 1 32)).bind
        (fun r => travel (coreTo 1 2 11 12) r
          [{ now := 5, intfs := [(0, intfOf 1), (0, intfOf 2)], forwards := 0,
             core := coreTo 2 3 22 33 }]) = some q ∧ q.size = (dataTo9 1 32).size + 2 * ipHdrLen := by
  obtain ⟨q, hq⟩ : ∃ q, ((coreTo 1 2 11 12).handed (dataTo9 1 32)).bind
      (fun r => travel (coreTo 1 2 11 12) r
        [{ now := 5, intfs := [(0, intfOf 1), (0, intfOf 2)], forwards := 0,
           core := coreTo 2 3 22 33 }]) = some q :=
    Option.isSome_iff_exists.mp (by decide +kernel)
  have hsize : ∀ q' ∈ ((coreTo 1 2 11 12).handed (dataTo9 1 32)).bind
      (fun r => travel (coreTo 1 2 11 12) r
        [{ now := 5, intfs := [(0, intfOf 1), (0, intfOf 2)], forwards := 0,
           core := coreTo 2 3 22 33 }]), q'.size = (dataTo9 1 32).size + 2 * ipHdrLen := by
    decide +kernel
  exact ⟨q, hq, hsize q hq⟩

end MpSelect

end NetSim
