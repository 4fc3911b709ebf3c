import Mathlib
import NetSim.Dsr.RequestTable

/-! # DSR: nested errors

A packet that cannot be passed on goes back as an error (`dsr/dsragent.cc`); when the error cannot be
passed on either, the next error is nested in the same packet. A header has room for three route errors,
three unknown flows and three unknown default flows, and the node that an error tells takes the last one
out and sends the rest on.

`sendUnknownFlow` compares the number of unknown default flows with the room also where it adds an
unknown flow. So a packet stays within its header exactly as long as that number is not smaller than the
room while the flows are full (`errors_within_header_iff`).

The changes to the route cache and the flow table are not modelled, nor are the copies that are salvaged.
-/

namespace NetSim.Dsr

def maxRouteErrors : ℕ := 3

structure LinkDown where
  addrType : IDType
  tellAddr : ℕ
  fromAddr : ℕ
  toAddr : ℕ
deriving DecidableEq

structure FlowError where
  flowSrc : ℕ
  flowDst : ℕ
  flowId : ℕ
deriving DecidableEq

structure ErrorList (α : Type) where
  valid : Bool
  count : ℕ
  entries : ℕ → α

/-- The fields of a header that routing sets. -/
structure Routing where
  numAddrs : ℤ
  curAddr : ℤ
  addrs : ℕ → ID
  routeRequest : Bool
  routeReply : Bool
  flowHeader : Bool
  flowTimeout : Bool

/-- A packet: the nodes of its IP header, and its `hdr_sr`. -/
structure ErrorPacket where
  src : ℕ
  dest : ℕ
  routing : Routing
  routeErrors : ErrorList LinkDown
  unknownFlows : ErrorList FlowError
  unknownDefaults : ErrorList FlowError

/-- What the program stops with: an assertion, or an access outside of an array. -/
inductive ErrorStop
  | assertion
  | write
  | read
deriving DecidableEq

/-- A node: `net_id` and `MAC_id`. -/
structure ErrorNode where
  netId : ID
  MACId : ID

def ErrorList.write {α : Type} (l : ErrorList α) (i : ℕ) (e : α) : Except ErrorStop (ErrorList α) :=
  if i < maxRouteErrors then .ok { l with entries := Function.update l.entries i e }
  else .error .write

namespace ErrorPacket

/-- The unknown flows, or the unknown default flows. -/
def flows (p : ErrorPacket) (asDefault : Bool) : ErrorList FlowError :=
  if asDefault then p.unknownDefaults else p.unknownFlows

def setFlows (p : ErrorPacket) (asDefault : Bool) (l : ErrorList FlowError) : ErrorPacket :=
  if asDefault then { p with unknownDefaults := l } else { p with unknownFlows := l }

/-- The place of the new entry, with the new count; both kinds of flows test `num_default_unknown`. -/
def flowSlot (p : ErrorPacket) (asDefault : Bool) : Option (ErrorList FlowError × ℕ) :=
  let l := p.flows asDefault
  if ¬ l.valid then some ({ l with valid := true, count := 1 }, 0)
  else if p.unknownDefaults.count < maxRouteErrors then some ({ l with count := l.count + 1 }, l.count)
  else none

def Routing.asError (r : Routing) : Routing :=
  { r with routeReply := false, routeRequest := false, flowHeader := false, flowTimeout := false }

/-- `sendUnknownFlow`: the packet that is sent, `none` when it is freed. -/
def sendUnknownFlow (n : ErrorNode) (p : ErrorPacket) (asDefault : Bool) (flowid : ℕ) :
    Except ErrorStop (Option ErrorPacket) :=
  if p.routing.numAddrs ≠ 0 then .error .assertion
  else if ID.ofIP p.src = n.netId then .ok none
  else
    match p.flowSlot asDefault with
    | none => .ok none
    | some (l, i) =>
      if n.netId.type ≠ .ip then .error .assertion
      else do
        let l ← l.write i ⟨p.src, p.dest, flowid⟩
        return some
          { p.setFlows asDefault l with
            src := n.netId.addr
            dest := p.src
            routing := Routing.asError p.routing }

/-- `xmitFailed`: the packet that is sent, `none` when it is freed. -/
def xmitFailed (n : ErrorNode) (p : ErrorPacket) : Except ErrorStop (Option ErrorPacket) :=
  let r := { p.routing with curAddr := p.routing.curAddr - 1 }
  if r.numAddrs - 1 ≤ r.curAddr then .ok none
  else if r.routeRequest then .ok none
  else if r.curAddr < 0 then .error .read
  else
    let type := (r.addrs r.curAddr.toNat).type
    let tellId : ID := ⟨(r.addrs 0).addr, type⟩
    let fromId : ID := ⟨(r.addrs r.curAddr.toNat).addr, type⟩
    let toId : ID := ⟨(r.addrs (r.curAddr.toNat + 1)).addr, type⟩
    if fromId ≠ n.netId ∧ fromId ≠ n.MACId then .error .assertion
    else if tellId = n.netId ∨ tellId = n.MACId then .ok none
    else if maxRouteErrors ≤ p.routeErrors.count then .ok none
    else do
      let l ← p.routeErrors.write p.routeErrors.count ⟨type, tellId.addr, fromId.addr, toId.addr⟩
      return some
        { p with
          src := n.netId.addr
          dest := tellId.addr
          routing := Routing.asError r
          routeErrors := { l with valid := true, count := p.routeErrors.count + 1 } }

/-- `processBrokenRouteError`: the copy that goes to the next node, if there is one. -/
def processBrokenRouteError (n : ErrorNode) (p : ErrorPacket) : Except ErrorStop (Option ErrorPacket) :=
  let l := p.routeErrors
  if ¬ l.valid then .ok none
  else if l.count = 0 then .error .assertion
  else if maxRouteErrors < l.count then .error .read
  else if ¬ ((List.range l.count).all (fun c => (l.entries c).addrType = .ip)) then .error .assertion
  else
    let who := ID.ofIP (l.entries (l.count - 1)).tellAddr
    if who ≠ n.netId ∧ who ≠ n.MACId then .ok none
    else if l.count = 1 then .ok none
    else .ok (some
      { p with
        src := n.netId.addr
        dest := (l.entries (l.count - 1 - 1)).tellAddr
        routing := { p.routing with flowHeader := false, flowTimeout := false }
        routeErrors := { l with count := l.count - 1 } })

/-- `processUnknownFlowError`, where `known` is what `defaultFlow` of the flow table returns for the last
entry: the copy that goes to the next node, if there is one. -/
def processUnknownFlowError (n : ErrorNode) (p : ErrorPacket) (asDefault known : Bool) :
    Except ErrorStop (Option ErrorPacket) :=
  let l := p.flows asDefault
  if ¬ l.valid ∨ l.count = 0 then .error .assertion
  else if maxRouteErrors < l.count then .error .read
  else
    let fe := l.entries (l.count - 1)
    -- an unknown flow without a default flow skips the test whom it is for
    if (asDefault ∨ known) ∧ fe.flowSrc ≠ n.netId.addr then .ok none
    else if l.count = 1 then .ok none
    else .ok (some
      { p.setFlows asDefault { l with count := l.count - 1 } with
        src := n.netId.addr
        dest := (l.entries (l.count - 1 - 1)).flowSrc
        routing := { p.routing with flowHeader := false, flowTimeout := false } })

def init (src dest : ℕ) (routing : Routing) : ErrorPacket where
  src := src
  dest := dest
  routing := routing
  routeErrors := ⟨false, 0, fun _ => ⟨.none, 0, 0, 0⟩⟩
  unknownFlows := ⟨false, 0, fun _ => ⟨0, 0, 0⟩⟩
  unknownDefaults := ⟨false, 0, fun _ => ⟨0, 0, 0⟩⟩

inductive Event
  | routed (routing : Routing)
  | xmitFailed (n : ErrorNode)
  | unknownFlow (n : ErrorNode) (asDefault : Bool) (flowid : ℕ)
  | brokenRoute (n : ErrorNode)
  | unknownFlowError (n : ErrorNode) (asDefault known : Bool)

/-- The packet after an event; `none` when it is freed. A node that sends no copy on leaves it alone. -/
def step (p : ErrorPacket) : Event → Except ErrorStop (Option ErrorPacket)
  | .routed routing => .ok (some { p with routing })
  | .xmitFailed n => p.xmitFailed n
  | .unknownFlow n asDefault flowid => p.sendUnknownFlow n asDefault flowid
  | .brokenRoute n => (p.processBrokenRouteError n).map (fun copy => some (copy.getD p))
  | .unknownFlowError n asDefault known =>
    (p.processUnknownFlowError n asDefault known).map (fun copy => some (copy.getD p))

def run (p : ErrorPacket) : List Event → Except ErrorStop (Option ErrorPacket)
  | [] => .ok (some p)
  | e :: events => do
    match ← p.step e with
    | none => return none
    | some p => run p events

/-- The counts are within the header. -/
structure Within (p : ErrorPacket) : Prop where
  routeErrors : p.routeErrors.count ≤ maxRouteErrors
  unknownFlows : p.unknownFlows.count ≤ maxRouteErrors
  unknownDefaults : p.unknownDefaults.count ≤ maxRouteErrors

/-- A copy that is sent on has one entry less and goes to the node that the last one names. -/
def Unwrapped {α : Type} (tell : α → ℕ) (l l' : ErrorList α) (copy : ErrorPacket) : Prop :=
  l'.count + 1 = l.count ∧ 0 < l'.count ∧ l'.entries = l.entries ∧
    copy.dest = tell (l'.entries (l'.count - 1))

/-- The event keeps the packet within its header, and unwraps the last entry. -/
structure Kept (p : ErrorPacket) (e : Event) : Prop where
  write : p.step e ≠ .error .write
  within : ∀ p', p.step e = .ok (some p') → p'.Within
  brokenRoute : ∀ n copy, e = .brokenRoute n → p.processBrokenRouteError n = .ok (some copy) →
    Unwrapped LinkDown.tellAddr p.routeErrors copy.routeErrors copy
  unknownFlow : ∀ n asDefault known copy, e = .unknownFlowError n asDefault known →
    p.processUnknownFlowError n asDefault known = .ok (some copy) →
    Unwrapped FlowError.flowSrc (p.flows asDefault) (copy.flows asDefault) copy

/-- The wrong count lets a full list of unknown flows grow: the error is sent, and the unknown default
flows are fewer than their room. -/
def Misjudged (p : ErrorPacket) : Event → Prop
  | .unknownFlow n false _ =>
    p.routing.numAddrs = 0 ∧ ID.ofIP p.src ≠ n.netId ∧ n.netId.type = .ip ∧
      p.unknownFlows.valid = true ∧ maxRouteErrors ≤ p.unknownFlows.count ∧
      p.unknownDefaults.count < maxRouteErrors
  | _ => False

variable {p p' : ErrorPacket} {e : Event} {n : ErrorNode} {asDefault known : Bool} {flowid : ℕ}

theorem write_of_lt {α : Type} {l : ErrorList α} {i : ℕ} (x : α) (h : i < maxRouteErrors) :
    l.write i x = .ok { l with entries := Function.update l.entries i x } :=
  if_pos h

theorem write_of_le {α : Type} {l : ErrorList α} {i : ℕ} (x : α) (h : maxRouteErrors ≤ i) :
    l.write i x = .error .write :=
  if_neg (not_lt.mpr h)

/-! ## What one node does -/

/-- A broken route error never writes outside; it is only added while there is room. -/
theorem xmitFailed_spec (p : ErrorPacket) (n : ErrorNode) :
    p.xmitFailed n ≠ .error .write ∧
      ∀ p', p.xmitFailed n = .ok (some p') →
        p'.routeErrors.count = p.routeErrors.count + 1 ∧ p.routeErrors.count < maxRouteErrors ∧
          p'.unknownFlows = p.unknownFlows ∧ p'.unknownDefaults = p.unknownDefaults := by
  unfold xmitFailed
  dsimp only
  split_ifs with hlast hrequest hneg hfrom htell hroom
  all_goals try solve | (constructor <;> simp)
  have hlt : p.routeErrors.count < maxRouteErrors := not_le.mp hroom
  rw [write_of_lt _ hlt]
  constructor
  · intro h
    cases h
  · intro p' h
    have hp : some _ = some p' := Except.ok.inj h
    rw [← Option.some.inj hp]
    exact ⟨rfl, hlt, rfl, rfl⟩

/-- The place that `sendUnknownFlow` takes, when it takes one: the first of an empty list, or the one
after the last, for which the default flows had room. -/
theorem flowSlot_some {l : ErrorList FlowError} {i : ℕ} (h : p.flowSlot asDefault = some (l, i)) :
    l.count = i + 1 ∧
      ((p.flows asDefault).valid = false ∧ i = 0 ∨
        (p.flows asDefault).valid = true ∧ i = (p.flows asDefault).count ∧
          p.unknownDefaults.count < maxRouteErrors) := by
  unfold flowSlot at h
  dsimp only at h
  split_ifs at h with hvalid hroom
  · cases h
    exact ⟨rfl, Or.inr ⟨hvalid, rfl, hroom⟩⟩
  · cases h
    exact ⟨rfl, Or.inl ⟨by simpa using hvalid, rfl⟩⟩

/-- **An unknown flow error** stays within the header unless a full list takes one more. -/
theorem sendUnknownFlow_spec (h : p.Within) :
    (p.sendUnknownFlow n asDefault flowid ≠ .error .write ∧
        ∀ p', p.sendUnknownFlow n asDefault flowid = .ok (some p') → p'.Within) ↔
      ¬ (p.routing.numAddrs = 0 ∧ ID.ofIP p.src ≠ n.netId ∧ n.netId.type = .ip ∧
        ∃ l i, p.flowSlot asDefault = some (l, i) ∧ maxRouteErrors ≤ i) := by
  unfold sendUnknownFlow
  by_cases hnum : p.routing.numAddrs = 0
  case neg => simp [hnum]
  by_cases hsrc : ID.ofIP p.src = n.netId
  case pos => simp [hnum, hsrc]
  rw [if_neg (not_not.mpr hnum), if_neg hsrc]
  cases hslot : p.flowSlot asDefault with
  | none => simp
  | some li =>
    obtain ⟨l, i⟩ := li
    dsimp only
    by_cases htype : n.netId.type = .ip
    case neg => simp [htype]
    rw [if_neg (not_not.mpr htype)]
    by_cases hi : maxRouteErrors ≤ i
    · -- the entry would be written outside
      rw [write_of_le _ hi]
      constructor
      · exact fun hk => absurd rfl hk.1
      · exact fun hk => absurd ⟨hnum, hsrc, htype, l, i, rfl, hi⟩ hk
    · rw [write_of_lt _ (not_le.mp hi)]
      constructor
      · rintro - ⟨-, -, -, l', i', heq, hi'⟩
        cases heq
        exact hi hi'
      · intro _
        constructor
        · intro hw
          cases hw
        · intro p' hp
          have hp : some _ = some p' := Except.ok.inj hp
          rw [← Option.some.inj hp]
          have hcount : l.count ≤ maxRouteErrors := by
            rw [(flowSlot_some hslot).1]
            exact not_le.mp hi
          cases asDefault
          · exact ⟨h.routeErrors, hcount, h.unknownDefaults⟩
          · exact ⟨h.routeErrors, h.unknownFlows, hcount⟩

/-- A broken route error is unwrapped by one entry at its next receiver. -/
theorem processBrokenRouteError_spec (p : ErrorPacket) (n : ErrorNode) :
    p.processBrokenRouteError n ≠ .error .write ∧
      ∀ copy, p.processBrokenRouteError n = .ok (some copy) →
        Unwrapped LinkDown.tellAddr p.routeErrors copy.routeErrors copy ∧
          copy.unknownFlows = p.unknownFlows ∧ copy.unknownDefaults = p.unknownDefaults := by
  unfold processBrokenRouteError
  dsimp only
  split_ifs with hvalid hzero hmax htypes hwho hone
  all_goals try solve | (constructor <;> simp)
  constructor
  · intro h
    cases h
  · intro copy h
    have hcopy : some _ = some copy := Except.ok.inj h
    rw [← Option.some.inj hcopy]
    -- there were at least two entries
    have hcount : p.routeErrors.count - 1 + 1 = p.routeErrors.count := Nat.succ_pred_eq_of_ne_zero hzero
    have hpos : 0 < p.routeErrors.count - 1 := by omega
    exact ⟨⟨hcount, hpos, rfl, rfl⟩, rfl, rfl⟩

theorem processUnknownFlowError_spec (p : ErrorPacket) (n : ErrorNode) (asDefault known : Bool) :
    p.processUnknownFlowError n asDefault known ≠ .error .write ∧
      ∀ copy, p.processUnknownFlowError n asDefault known = .ok (some copy) →
        Unwrapped FlowError.flowSrc (p.flows asDefault) (copy.flows asDefault) copy ∧
          copy.routeErrors = p.routeErrors ∧ copy.flows (!asDefault) = p.flows (!asDefault) := by
  unfold processUnknownFlowError
  dsimp only
  split_ifs with hempty hmax hwho hone
  all_goals try solve | (constructor <;> simp)
  constructor
  · intro h
    cases h
  · intro copy h
    have hcopy : some _ = some copy := Except.ok.inj h
    rw [← Option.some.inj hcopy]
    have hzero : (p.flows asDefault).count ≠ 0 := fun h0 => hempty (Or.inr h0)
    have hcount : (p.flows asDefault).count - 1 + 1 = (p.flows asDefault).count :=
      Nat.succ_pred_eq_of_ne_zero hzero
    have hpos : 0 < (p.flows asDefault).count - 1 := by omega
    cases asDefault
    · exact ⟨⟨hcount, hpos, rfl, rfl⟩, rfl, rfl⟩
    · exact ⟨⟨hcount, hpos, rfl, rfl⟩, rfl, rfl⟩

/-! ## One event -/

/-- An event that is no unwrapping keeps the packet if it writes inside and the counts stay within. -/
theorem kept_of_step (hroute : ∀ n, e ≠ .brokenRoute n) (hflow : ∀ n d k, e ≠ .unknownFlowError n d k) :
    Kept p e ↔ p.step e ≠ .error .write ∧ ∀ p', p.step e = .ok (some p') → p'.Within := by
  constructor
  · exact fun h => ⟨h.write, h.within⟩
  · intro h
    refine ⟨h.1, h.2, ?_, ?_⟩
    · exact fun n _ he => absurd he (hroute n)
    · exact fun n d k _ he => absurd he (hflow n d k)

theorem getD_map {r : Except ErrorStop (Option ErrorPacket)}
    (h : r.map (fun copy => some (copy.getD p)) = .ok (some p')) :
    p' = p ∨ r = .ok (some p') := by
  cases r with
  | error x => cases h
  | ok copy =>
    have hp : some (copy.getD p) = some p' := Except.ok.inj h
    cases copy with
    | none => exact Or.inl (Option.some.inj hp).symm
    | some c =>
      right
      rw [show c = p' from Option.some.inj hp]

theorem map_ne_error {α β : Type} {r : Except ErrorStop α} {f : α → β} (h : r ≠ .error .write) :
    r.map f ≠ .error .write := by
  cases r with
  | error x =>
    intro hmap
    apply h
    rw [show x = .write from Except.error.inj hmap]
  | ok a =>
    intro hmap
    cases hmap

theorem misjudged_iff : Misjudged p (.unknownFlow n asDefault flowid) ↔
    p.routing.numAddrs = 0 ∧ ID.ofIP p.src ≠ n.netId ∧ n.netId.type = .ip ∧
      ∃ l i, p.flowSlot asDefault = some (l, i) ∧ maxRouteErrors ≤ i := by
  cases asDefault with
  | true =>
    -- the default flows are tested against their own number
    constructor
    · exact fun hm => hm.elim
    · rintro ⟨-, -, -, l, i, hslot, hi⟩
      rcases (flowSlot_some hslot).2 with ⟨-, hzero⟩ | ⟨-, hcount, hroom⟩
      · rw [hzero] at hi
        exact absurd hi (by decide)
      · have hself : p.flows true = p.unknownDefaults := rfl
        rw [hcount, hself] at hi
        exact absurd hroom (not_lt.mpr hi)
  | false =>
    constructor
    · rintro ⟨hnum, hsrc, htype, hvalid, hfull, hroom⟩
      refine ⟨hnum, hsrc, htype, { p.unknownFlows with count := p.unknownFlows.count + 1 },
        p.unknownFlows.count, ?_, hfull⟩
      have hvalid' : ¬ ¬ (p.flows false).valid = true := not_not.mpr hvalid
      calc p.flowSlot false
          = if p.unknownDefaults.count < maxRouteErrors then
              some ({ p.flows false with count := (p.flows false).count + 1 }, (p.flows false).count)
            else none := if_neg hvalid'
        _ = _ := if_pos hroom
    · rintro ⟨hnum, hsrc, htype, l, i, hslot, hi⟩
      rcases (flowSlot_some hslot).2 with ⟨-, hzero⟩ | ⟨hvalid, hcount, hroom⟩
      · rw [hzero] at hi
        exact absurd hi (by decide)
      · rw [hcount] at hi
        exact ⟨hnum, hsrc, htype, hvalid, hi, hroom⟩

/-- One event keeps a packet within its header exactly if it does not misjudge the room. -/
theorem kept_iff (h : p.Within) : Kept p e ↔ ¬ Misjudged p e := by
  cases e with
  | routed routing =>
    rw [kept_of_step (by simp) (by simp)]
    have hwithin : ∀ p', p.step (.routed routing) = .ok (some p') → p'.Within := by
      intro p' hp
      have hp : some _ = some p' := Except.ok.inj hp
      rw [← Option.some.inj hp]
      exact ⟨h.routeErrors, h.unknownFlows, h.unknownDefaults⟩
    exact iff_of_true ⟨by simp [step], hwithin⟩ (fun hm => hm)
  | xmitFailed n =>
    rw [kept_of_step (by simp) (by simp)]
    have hspec := xmitFailed_spec p n
    have hwithin : ∀ p', p.step (.xmitFailed n) = .ok (some p') → p'.Within := by
      intro p' hp
      obtain ⟨hcount, hroom, hflows, hdefaults⟩ := hspec.2 p' hp
      constructor
      · rw [hcount]
        exact hroom
      · rw [hflows]
        exact h.unknownFlows
      · rw [hdefaults]
        exact h.unknownDefaults
    exact iff_of_true ⟨hspec.1, hwithin⟩ (fun hm => hm)
  | unknownFlow n asDefault flowid =>
    rw [kept_of_step (by simp) (by simp), misjudged_iff]
    exact sendUnknownFlow_spec h
  | brokenRoute n =>
    have hspec := processBrokenRouteError_spec p n
    refine iff_of_true ⟨map_ne_error hspec.1, ?_, ?_, ?_⟩ (fun hm => hm)
    · intro p' hp
      rcases getD_map hp with rfl | hcopy
      · exact h
      · obtain ⟨⟨hcount, -, -, -⟩, hflows, hdefaults⟩ := hspec.2 p' hcopy
        have hbound := h.routeErrors
        exact ⟨by omega, hflows ▸ h.unknownFlows, hdefaults ▸ h.unknownDefaults⟩
    · intro m copy he hcopy
      cases he
      exact (hspec.2 copy hcopy).1
    · intro _ _ _ _ he
      cases he
  | unknownFlowError n asDefault known =>
    have hspec := processUnknownFlowError_spec p n asDefault known
    refine iff_of_true ⟨map_ne_error hspec.1, ?_, ?_, ?_⟩ (fun hm => hm)
    · intro p' hp
      rcases getD_map hp with rfl | hcopy
      · exact h
      · obtain ⟨⟨hcount, -, -, -⟩, herrors, hother⟩ := hspec.2 p' hcopy
        have hflows := h.unknownFlows
        have hdefaults := h.unknownDefaults
        cases asDefault
        · have hself : p.flows false = p.unknownFlows := rfl
          have hself' : p'.flows false = p'.unknownFlows := rfl
          have hother' : p'.unknownDefaults = p.unknownDefaults := hother
          rw [hself, hself'] at hcount
          exact ⟨herrors ▸ h.routeErrors, by omega, hother' ▸ h.unknownDefaults⟩
        · have hself : p.flows true = p.unknownDefaults := rfl
          have hself' : p'.flows true = p'.unknownDefaults := rfl
          have hother' : p'.unknownFlows = p.unknownFlows := hother
          rw [hself, hself'] at hcount
          exact ⟨herrors ▸ h.routeErrors, hother' ▸ h.unknownFlows, by omega⟩
    · intro _ _ he
      cases he
    · intro m d k copy he hcopy
      cases he
      exact (hspec.2 copy hcopy).1

/-! ## A run -/

theorem run_append_singleton {events : List Event} {q : ErrorPacket}
    (h : p.run events = .ok (some q)) : p.run (events ++ [e]) = q.step e := by
  induction events generalizing p with
  | nil =>
    have hp : some p = some q := Except.ok.inj h
    rw [Option.some.inj hp]
    show (do match ← q.step e with | none => return none | some r => run r []) = q.step e
    cases q.step e with
    | error x => rfl
    | ok r => cases r <;> rfl
  | cons e' events ih =>
    unfold run at h
    rw [List.cons_append]
    unfold run
    cases hstep : p.step e' with
    | error x =>
      rw [hstep] at h
      cases h
    | ok r =>
      rw [hstep] at h
      cases r with
      | none => cases Except.ok.inj h
      | some r => exact ih h

theorem run_concat {events : List Event} {q : ErrorPacket}
    (h : p.run (events ++ [e]) = .ok (some q)) :
    ∃ r, p.run events = .ok (some r) ∧ r.step e = .ok (some q) := by
  induction events generalizing p with
  | nil =>
    refine ⟨p, rfl, ?_⟩
    have hlast : p.run ([] ++ [e]) = p.step e := run_append_singleton rfl
    rwa [hlast] at h
  | cons e' events ih =>
    rw [List.cons_append] at h
    unfold run at h
    cases hstep : p.step e' with
    | error x =>
      rw [hstep] at h
      cases h
    | ok r =>
      rw [hstep] at h
      cases r with
      | none => cases Except.ok.inj h
      | some r =>
        obtain ⟨t, hrun, hlast⟩ := ih h
        refine ⟨t, ?_, hlast⟩
        unfold run
        rw [hstep]
        exact hrun

/-- Every event of the list that meets the packet satisfies `P`. -/
def Along (P : ErrorPacket → Event → Prop) (p : ErrorPacket) (events : List Event) : Prop :=
  ∀ past e rest, events = past ++ e :: rest → ∀ q, p.run past = .ok (some q) → P q e

theorem init_within (src dest : ℕ) (routing : Routing) : (init src dest routing).Within :=
  ⟨Nat.zero_le _, Nat.zero_le _, Nat.zero_le _⟩

/-- Every packet of a run is within its header, if that is what `P` gives for each of its events. -/
theorem within_of_along {P : ErrorPacket → Event → Prop} {events : List Event}
    (hP : ∀ q e, q.Within → P q e → Kept q e) (hp : p.Within) (h : p.Along P events) :
    ∀ past rest, events = past ++ rest → ∀ q, p.run past = .ok (some q) → q.Within := by
  intro past
  induction past using List.reverseRecOn with
  | nil =>
    intro rest _ q hq
    have hpq : some p = some q := Except.ok.inj hq
    rw [← Option.some.inj hpq]
    exact hp
  | append_singleton past e ih =>
    intro rest hevents q hq
    obtain ⟨r, hr, hstep⟩ := run_concat hq
    have hsplit : events = past ++ e :: rest := by
      rw [hevents, List.append_assoc, List.singleton_append]
    have hwithin : r.Within := ih (e :: rest) hsplit r hr
    exact (hP r e hwithin (h past e rest hsplit r hr)).within q hstep

/-- **A packet stays within its header as long as no room is misjudged**, and no longer. -/
theorem errors_within_header_iff (src dest : ℕ) (routing : Routing) (events : List Event) :
    (init src dest routing).Along Kept events ↔
      (init src dest routing).Along (fun q e => ¬ Misjudged q e) events := by
  have hinit := init_within src dest routing
  constructor
  · intro h past e rest hevents q hq
    have hwithin : q.Within :=
      within_of_along (fun q e _ hk => hk) hinit h past (e :: rest) hevents q hq
    exact (kept_iff hwithin).mp (h past e rest hevents q hq)
  · intro h past e rest hevents q hq
    have hwithin : q.Within :=
      within_of_along (fun q e hq hm => (kept_iff hq).mpr hm) hinit h past (e :: rest) hevents q hq
    exact (kept_iff hwithin).mpr (h past e rest hevents q hq)

def unknownAt (k : ℕ) : Event := .unknownFlow ⟨⟨k, .ip⟩, ⟨k, .mac⟩⟩ false 9

/-- Four nodes in turn do not know the flow; the fourth writes outside of the unknown flows. -/
theorem fourth_flow_outside :
    ¬ (init 10 20 ⟨0, 0, fun _ => ⟨0, .none⟩, false, false, true, false⟩).Along Kept
      [unknownAt 1, unknownAt 2, unknownAt 3, unknownAt 4] := by
  intro h
  have hrun : ∃ q, (init 10 20 ⟨0, 0, fun _ => ⟨0, .none⟩, false, false, true, false⟩).run
      [unknownAt 1, unknownAt 2, unknownAt 3] = .ok (some q) ∧ q.step (unknownAt 4) = .error .write :=
    ⟨_, rfl, rfl⟩
  obtain ⟨q, hq, hlast⟩ := hrun
  exact (h [unknownAt 1, unknownAt 2, unknownAt 3] (unknownAt 4) [] rfl q hq).write hlast

end ErrorPacket

end NetSim.Dsr
