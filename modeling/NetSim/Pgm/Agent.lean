import NetSim.Pgm.Receiver

/-! # The PGM router

`PgmAgent` (`pgm/pgm-agent.cc`): for each session and each sequence number that a NAK or an NCF named, a
repair state. The four timers of a repair state are kept beside it, since a timer that is still pending when
its repair state is erased would expire into a deleted object; the expiry of such a timer has the result
`none`, and so has a call of `abort`.

An RDATA packet itself goes to the first of those who asked for it, and copies of it to the others. A
`PgmReceiver` frees what it gets, and so does a link that drops it: then the headers are cleared, and the
copies are made of a cleared packet.
-/

namespace NetSim.Pgm

open Function

inductive RepairPhase where
  | nakPending
  | nakConfirmed
  deriving DecidableEq

/-- Where a NAK comes from, and where an RDATA packet goes: an interface, or an agent of the node. -/
inductive Target where
  | iface (i : ℤ)
  | agent (a : ℕ)
  deriving DecidableEq

/-- The packet is freed there at once: by a `PgmReceiver` always, by a link when it is dropped. -/
def Target.frees (dropped : Bool) : Target → Bool
  | .iface _ => dropped
  | .agent _ => true

/-- `class RepairState`, without the timers. -/
structure RepairState where
  seqno : ℤ
  source : NsAddr
  group : NsAddr
  nakState : RepairPhase
  nakElimination : Bool
  ifaceList : List ℤ
  agentList : List ℕ
  deriving DecidableEq

structure RepairTimers where
  nakRetrans : Timer
  nakRpt : Timer
  nakRdata : Timer
  nakElim : Timer
  deriving DecidableEq

inductive TimerType where
  | nakRetrans
  | nakRpt
  | nakRdata
  | nakElim
  deriving DecidableEq

def RepairTimers.idle : RepairTimers := ⟨none, none, none, none⟩

def RepairTimers.get (t : RepairTimers) : TimerType → Timer
  | .nakRetrans => t.nakRetrans
  | .nakRpt => t.nakRpt
  | .nakRdata => t.nakRdata
  | .nakElim => t.nakElim

def RepairState.init (seqno : ℤ) (source group : NsAddr) : RepairState where
  seqno := seqno
  source := source
  group := group
  nakState := .nakPending
  nakElimination := true
  ifaceList := []
  agentList := []

def RepairState.addTarget (r : RepairState) : Target → RepairState
  | .iface i => { r with ifaceList := if i ∈ r.ifaceList then r.ifaceList else r.ifaceList ++ [i] }
  | .agent a => { r with agentList := if a ∈ r.agentList then r.agentList else r.agentList ++ [a] }

/-- Those who get an RDATA packet, in this order. -/
def RepairState.targets (r : RepairState) : List Target := r.ifaceList.map .iface ++ r.agentList.map .agent

structure StateInfo where
  spmSeqno : ℤ
  upstreamNode : NsAddr
  upstreamIface : ℤ
  repair : ℤ → Option RepairState

/-- The bound variables of `PgmAgent`, its address, and what the node knows. -/
structure AgentConfig where
  here : NsAddr
  nakRetransIval : ℚ
  nakRptIval : ℚ
  nakRdataIval : ℚ
  nakElimIval : ℚ
  /-- `iface2link` finds a link. -/
  hasLink : ℤ → Bool
  /-- `pkt2agent`, by the source port of the packet. -/
  agentAt : ℤ → Option ℕ

def AgentConfig.target (cfg : AgentConfig) (iface sport : ℤ) : Option Target :=
  if iface < 0 then (cfg.agentAt sport).map .agent
  else if cfg.hasLink iface then some (.iface iface) else none

/-- `class PgmAgent`; a repair state is named by its session and its number. -/
structure Agent where
  clock : ℚ
  states : NsAddr → Option StateInfo
  timers : NsAddr × ℤ → RepairTimers
  numUnsolicitedNcf : ℕ
  numUnsolicitedRdata : ℕ
  numSuppressedNaks : ℕ
  numNaksTransmitted : ℕ

/-- What a router receives. For RDATA also whether the link that it is given to first drops it. -/
inductive AgentEvent where
  | spm (hp : Hdr) (spmPath : NsAddr) (iface : ℤ)
  | odata (hp : Hdr)
  | rdata (hp : Hdr) (dropped : Bool)
  | nak (hp : Hdr) (source group : NsAddr) (iface sport : ℤ)
  | ncf (hp : Hdr) (src dst : NsAddr) (iface : ℤ)
  | expire (type : TimerType) (tsi : NsAddr) (seqno : ℤ)
  deriving DecidableEq

/-- What a router sends; `cleared` is a copy of a packet that was freed. -/
inductive AgentOutput where
  | spm (hp : Hdr) (spmPath : NsAddr)
  | odata (hp : Hdr)
  | rdata (tgt : Target) (hp : Hdr)
  | cleared (tgt : Target)
  | ncf (tgt : Target) (hp : Hdr) (src dst : NsAddr)
  | nak (p : NakPacket)
  deriving DecidableEq

namespace Agent

def init : Agent where
  clock := 0
  states := fun _ => none
  timers := fun _ => RepairTimers.idle
  numUnsolicitedNcf := 0
  numUnsolicitedRdata := 0
  numSuppressedNaks := 0
  numNaksTransmitted := 0

variable (cfg : AgentConfig) (s : Agent) (now : ℚ)

def repairAt (key : NsAddr × ℤ) : Option RepairState := (s.states key.1).bind (fun state => state.repair key.2)

def setRepair (tsi : NsAddr) (state : StateInfo) (seqno : ℤ) (r : Option RepairState)
    (t : RepairTimers) : Agent :=
  { s with
    states := update s.states tsi
      (some { state with repair := update state.repair seqno r })
    timers := update s.timers (tsi, seqno) t }

def removeRepairState (tsi : NsAddr) (state : StateInfo) (r : RepairState) : Agent :=
  s.setRepair tsi state r.seqno none RepairTimers.idle

def handleSpm (hp : Hdr) (spmPath : NsAddr) (iface : ℤ) : Agent × List AgentOutput :=
  match s.states hp.tsi with
  | none =>
    ({ s with
        states := update s.states hp.tsi (some {
          spmSeqno := hp.seqno
          upstreamNode := spmPath
          upstreamIface := iface
          repair := fun _ => none }) }, [.spm hp cfg.here])
  | some state =>
    if state.spmSeqno < hp.seqno then
      ({ s with
          states := update s.states hp.tsi (some { state with
            spmSeqno := hp.seqno
            upstreamNode := spmPath
            upstreamIface := iface }) }, [.spm hp cfg.here])
    else (s, [])

/-- The loops of `handle_rdata`: the packet itself goes to the first, and is copied for the others. -/
def forward (hp : Hdr) (dropped : Bool) : List Target → List AgentOutput
  | [] => []
  | tgt :: targets =>
    .rdata tgt hp ::
      targets.map (fun tgt' => if tgt.frees dropped then .cleared tgt' else .rdata tgt' hp)

/-- `PgmAgent::handle_rdata`. When both lists are empty, the source only counts the packet and goes on. -/
def handleRdata (hp : Hdr) (dropped : Bool) : Option (Agent × List AgentOutput) :=
  match s.states hp.tsi with
  | none => some ({ s with numUnsolicitedRdata := s.numUnsolicitedRdata + 1 }, [])
  | some state =>
    match state.repair hp.seqno with
    | none => some ({ s with numUnsolicitedRdata := s.numUnsolicitedRdata + 1 }, [])
    | some r =>
      let unsolicited := if r.ifaceList = [] ∧ r.agentList = [] then 1 else 0
      let s := { s with numUnsolicitedRdata := s.numUnsolicitedRdata + unsolicited }
      if r.ifaceList.all cfg.hasLink then
        some (s.removeRepairState hp.tsi state r, forward hp dropped r.targets)
      else none

def handleNak (hp : Hdr) (source group : NsAddr) (iface sport : ℤ) : Option (Agent × List AgentOutput) :=
  match s.states hp.tsi with
  | none => some (s, [])
  | some state =>
    (cfg.target iface sport).map (fun tgt =>
      let ncf : AgentOutput := .ncf tgt hp source group
      let nak : AgentOutput := .nak ⟨state.upstreamNode, hp.tsi, hp.seqno, source, group⟩
      match state.repair hp.seqno with
      | none =>
        ({ s with numNaksTransmitted := s.numNaksTransmitted + 1 }.setRepair hp.tsi state hp.seqno
            (some ((RepairState.init hp.seqno source group).addTarget tgt))
            { RepairTimers.idle with
              nakRetrans := Timer.resched now cfg.nakRetransIval
              nakRpt := Timer.resched now cfg.nakRptIval }, [ncf, nak])
      | some r =>
        let r := r.addTarget tgt
        if r.nakElimination = false then
          ({ s with numNaksTransmitted := s.numNaksTransmitted + 1 }.setRepair hp.tsi state hp.seqno
              (some { r with nakState := .nakPending, nakElimination := true })
              { nakRetrans := Timer.resched now cfg.nakRetransIval
                nakRpt := Timer.resched now cfg.nakRptIval
                nakRdata := none
                nakElim := none }, [ncf, nak])
        else
          ({ s with numSuppressedNaks := s.numSuppressedNaks + 1 }.setRepair hp.tsi state hp.seqno
              (some r) (s.timers (hp.tsi, hp.seqno)), [ncf]))

def handleNcf (hp : Hdr) (src dst : NsAddr) (iface : ℤ) : Agent :=
  match s.states hp.tsi with
  | none => { s with numUnsolicitedNcf := s.numUnsolicitedNcf + 1 }
  | some state =>
    if iface ≠ state.upstreamIface then { s with numUnsolicitedNcf := s.numUnsolicitedNcf + 1 }
    else
      let confirmed : RepairTimers :=
        { nakRetrans := none
          nakRpt := none
          nakRdata := Timer.resched now cfg.nakRdataIval
          nakElim := Timer.resched now cfg.nakElimIval }
      match state.repair hp.seqno with
      | none =>
        { s with numUnsolicitedNcf := s.numUnsolicitedNcf + 1 }.setRepair hp.tsi state hp.seqno
          (some { RepairState.init hp.seqno src dst with nakState := .nakConfirmed }) confirmed
      | some r =>
        s.setRepair hp.tsi state hp.seqno (some { r with nakState := .nakConfirmed }) confirmed

/-- `PgmAgent::timeout` for a timer of the repair state `r`; the timer is idle unless it is started again. -/
def timeout (type : TimerType) (tsi : NsAddr) (state : StateInfo) (seqno : ℤ) (r : RepairState) :
    Agent × List AgentOutput :=
  let t := s.timers (tsi, seqno)
  match type with
  | .nakRetrans =>
    ({ s with numNaksTransmitted := s.numNaksTransmitted + 1 }.setRepair tsi state seqno (some r)
        { t with nakRetrans := Timer.resched now cfg.nakRetransIval },
      [.nak ⟨state.upstreamNode, tsi, r.seqno, r.source, r.group⟩])
  | .nakRpt => (s.removeRepairState tsi state r, [])
  | .nakRdata => (s.removeRepairState tsi state r, [])
  | .nakElim =>
    (s.setRepair tsi state seqno (some { r with nakElimination := false }) { t with nakElim := none }, [])

/-- `PgmAgent::recv`, and `PgmAgent::timeout`. -/
def step (s : Agent) (e : ℚ × AgentEvent) : Option (Agent × List AgentOutput) :=
  let s := { s with clock := e.1 }
  match e.2 with
  | .spm hp spmPath iface => some (s.handleSpm cfg hp spmPath iface)
  | .odata hp => some (s, [.odata hp])
  | .rdata hp dropped => s.handleRdata cfg hp dropped
  | .nak hp source group iface sport => s.handleNak cfg e.1 hp source group iface sport
  | .ncf hp src dst iface => some (s.handleNcf cfg e.1 hp src dst iface, [])
  | .expire type tsi seqno =>
    (s.states tsi).bind (fun state =>
      (state.repair seqno).map (fun r => s.timeout cfg e.1 type tsi state seqno r))

end Agent

end NetSim.Pgm
