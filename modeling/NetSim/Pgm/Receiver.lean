import NetSim.Mcast.RcvBuffer

/-! # The PGM receiver

`PgmReceiver` (`pgm/pgm-receiver.cc`): the packets that a receiver of a multicast session has, and the
state of its requests for those that it misses. A timer is what `TimerHandler` keeps of it between two
events: whether it is pending, and for which time. The back-off periods come from a random number
generator and are inputs here.
-/

namespace NetSim.Pgm

structure NsAddr where
  addr : ℤ
  port : ℤ
  deriving DecidableEq

/-- `hdr_pgm`, without the type. -/
structure Hdr where
  tsi : NsAddr
  seqno : ℤ
  deriving DecidableEq

/-- A NAK packet, as `send_nak` fills it in. -/
structure NakPacket where
  dst : NsAddr
  tsi : NsAddr
  seqno : ℤ
  source : NsAddr
  group : NsAddr
  deriving DecidableEq

/-- A timer: the time for which it is pending. -/
abbrev Timer := Option ℚ

def Timer.resched (now delay : ℚ) : Timer := some (now + delay)

inductive NakState where
  | backOff
  | waitNcf
  | waitData
  deriving DecidableEq

structure NakItem where
  nakState : NakState
  nakSent : Bool
  seqno : ℤ
  ncfRetryCount : ℤ
  dataRetryCount : ℤ
  nakTimer : Timer
  deriving DecidableEq

def NakItem.init (seqno : ℤ) : NakItem where
  nakState := .backOff
  nakSent := false
  seqno := seqno
  ncfRetryCount := 0
  dataRetryCount := 0
  nakTimer := none

structure ReceiverConfig where
  maxNakNcfRetries : ℤ
  maxNakDataRetries : ℤ
  nakRptIvl : ℚ
  nakRdataIvl : ℚ

structure Receiver where
  haveTsiState : Bool
  spmSeqno : ℤ
  tsi : NsAddr
  upstreamNode : NsAddr
  upstreamIface : ℤ
  source : NsAddr
  group : NsAddr
  rcvbuf : RcvBuffer
  naks : ℤ → Option NakItem
  naksTransmitted : ℕ
  naksDuplicated : ℕ

inductive ReceiverEvent where
  | spm (hp : Hdr) (src dst spmPath : NsAddr) (iface : ℤ)
  | odata (hp : Hdr) (backoff : ℤ → ℚ)
  | rdata (hp : Hdr)
  | nak (hp : Hdr)
  | ncf (hp : Hdr)
  /-- The timer of the number expires. -/
  | expire (seqno : ℤ) (backoff : ℚ)

inductive ReceiverOutput where
  | nak (p : NakPacket)
  /-- `stopping NAK generation`. -/
  | stopped (seqno : ℤ)
  deriving DecidableEq

namespace Receiver

def init : Receiver where
  haveTsiState := false
  spmSeqno := -1
  tsi := ⟨0, 0⟩
  upstreamNode := ⟨0, 0⟩
  upstreamIface := 0
  source := ⟨0, 0⟩
  group := ⟨0, 0⟩
  rcvbuf := RcvBuffer.init
  naks := fun _ => none
  naksTransmitted := 0
  naksDuplicated := 0

variable (cfg : ReceiverConfig) (s : Receiver) (now : ℚ)

def setNak (seqno : ℤ) (nitem : NakItem) : Receiver :=
  { s with naks := Function.update s.naks seqno (some nitem) }

def handleSpm (hp : Hdr) (src dst spmPath : NsAddr) (iface : ℤ) : Receiver :=
  if s.haveTsiState = false then
    { s with
      haveTsiState := true
      tsi := hp.tsi
      source := src
      group := dst
      spmSeqno := hp.seqno
      upstreamNode := spmPath
      upstreamIface := iface }
  else if hp.tsi ≠ s.tsi then s
  else if hp.seqno ≤ s.spmSeqno then s
  else { s with spmSeqno := hp.seqno, upstreamNode := spmPath, upstreamIface := iface }

def generateNak (seqno : ℤ) (backoff : ℚ) : Receiver :=
  match s.naks seqno with
  | some _ => s
  | none => s.setNak seqno { NakItem.init seqno with nakTimer := Timer.resched now backoff }

/-- The loop of `handle_odata`, from `i` on. -/
def generateNaks (now : ℚ) (backoff : ℤ → ℚ) : Receiver → ℤ → ℕ → Receiver
  | s, _, 0 => s
  | s, i, n + 1 => generateNaks now backoff (s.generateNak now i (backoff i)) (i + 1) n

/-- `PgmReceiver::cancel_Nak`; the timer goes with the item. -/
def cancelNak (seqno : ℤ) : Receiver :=
  match s.naks seqno with
  | none => s
  | some _ => { s with naks := Function.update s.naks seqno none }

/-- The packet is of another session. -/
def incorrectTsi (hp : Hdr) : Bool := s.haveTsiState && hp.tsi != s.tsi

def handleOdata (hp : Hdr) (backoff : ℤ → ℚ) : Option Receiver :=
  if s.incorrectTsi hp then some s
  else
    let lo := s.rcvbuf.nextpkt
    let s := if s.haveTsiState then generateNaks now backoff s lo (hp.seqno - lo).toNat else s
    (s.rcvbuf.addPkt hp.seqno now).map (fun b => { s with rcvbuf := b }.cancelNak hp.seqno)

def handleRdata (hp : Hdr) : Option Receiver :=
  if s.incorrectTsi hp then some s
  else
    let s :=
      if hp.seqno < s.rcvbuf.nextpkt ∧ s.rcvbuf.existsPkt hp.seqno = false then s.cancelNak hp.seqno
      else s
    (s.rcvbuf.addPkt hp.seqno now).map (fun b => { s with rcvbuf := b })

def handleNak (hp : Hdr) : Receiver :=
  if s.incorrectTsi hp then s
  else
    match s.naks hp.seqno with
    | none => s
    | some nitem =>
      match nitem.nakState with
      | .backOff | .waitNcf =>
        s.setNak hp.seqno { nitem with
          nakState := .waitNcf
          nakTimer := Timer.resched now cfg.nakRptIvl }
      | .waitData =>
        s.setNak hp.seqno { nitem with nakTimer := Timer.resched now cfg.nakRdataIvl }

def handleNcf (hp : Hdr) : Receiver :=
  if s.incorrectTsi hp then s
  else
    match s.naks hp.seqno with
    | none => s
    | some nitem =>
      s.setNak hp.seqno { nitem with
        nakState := .waitData
        nakTimer := Timer.resched now cfg.nakRdataIvl }

def nakPacket (seqno : ℤ) : NakPacket where
  dst := s.upstreamNode
  tsi := s.tsi
  seqno := seqno
  source := s.source
  group := s.group

def timeoutNak (seqno : ℤ) (nitem : NakItem) (backoff : ℚ) : Receiver × List ReceiverOutput :=
  match nitem.nakState with
  | .backOff =>
    ({ s with
        naksDuplicated := if nitem.nakSent then s.naksDuplicated + 1 else s.naksDuplicated
        naksTransmitted := s.naksTransmitted + 1 }.setNak seqno { nitem with
          nakSent := true
          nakState := .waitNcf
          nakTimer := Timer.resched now cfg.nakRptIvl },
      [.nak (s.nakPacket nitem.seqno)])
  | .waitNcf =>
    if cfg.maxNakNcfRetries < nitem.ncfRetryCount then
      (s.cancelNak nitem.seqno, [.stopped nitem.seqno])
    else
      (s.setNak seqno { nitem with
        ncfRetryCount := nitem.ncfRetryCount + 1
        nakState := .backOff
        nakTimer := Timer.resched now backoff }, [])
  | .waitData =>
    if cfg.maxNakDataRetries < nitem.dataRetryCount then
      (s.cancelNak nitem.seqno, [.stopped nitem.seqno])
    else
      (s.setNak seqno { nitem with
        dataRetryCount := nitem.dataRetryCount + 1
        nakState := .backOff
        nakTimer := Timer.resched now backoff }, [])

/-- `PgmReceiver::recv` and `PgmReceiver::timeout`. There is no expiry at a time for which the timer is
not pending. -/
def step (e : ℚ × ReceiverEvent) : Option (Receiver × List ReceiverOutput) :=
  match e.2 with
  | .spm hp src dst spmPath iface => some (s.handleSpm hp src dst spmPath iface, [])
  | .odata hp backoff => (s.handleOdata e.1 hp backoff).map (·, [])
  | .rdata hp => (s.handleRdata e.1 hp).map (·, [])
  | .nak hp => some (s.handleNak cfg e.1 hp, [])
  | .ncf hp => some (s.handleNcf cfg e.1 hp, [])
  | .expire seqno backoff =>
    (s.naks seqno).bind (fun nitem =>
      if nitem.nakTimer = some e.1 then some (s.timeoutNak cfg e.1 seqno nitem backoff) else none)

end Receiver

end NetSim.Pgm
