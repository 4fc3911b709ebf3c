import Mathlib.Data.Int.Order.Basic
import Mathlib.Data.List.Basic
import Mathlib.Logic.Function.Basic

/-! # HDLC stations

A station (`satellite/sat-hdlc.cc`) numbers the packets that it sends, keeps them until they are
acknowledged, and recovers lost ones with go-back-N or with selective repeat. `ARQstate` also holds the
frames that are on the way to the peer, and what the station accepted and passed up. A connection is set up,
and a step in which a station would reset is `none`.
-/

namespace NetSim.Hdlc

open Function

/-- `HDLC_MWS`, the number of slots of `seen_`. -/
def mws : ℤ := 65536

def hdrLen : ℤ := 28

structure Packet where
  data : ℕ
  size : ℤ
deriving DecidableEq

structure Numbered where
  sendSeqno : ℤ
  pkt : Packet
deriving DecidableEq

def Numbered.strip (p : Numbered) : Packet := { p.pkt with size := p.pkt.size - hdrLen }

inductive Frame
  | iframe (p : Numbered) (recvSeqno : ℤ)
  | rr (recvSeqno : ℤ)
  | rej (recvSeqno : ℤ)
  | srej (recvSeqno : ℤ)
  | sabme
deriving DecidableEq

structure Config where
  wnd : ℤ
  queueSize : ℤ
  maxTimeouts : ℤ
  selRepeat : Bool
  delAck : Bool

/-- `ARQstate`. The delay timer is pending when `save` is set. -/
structure ARQstate where
  tSeqno : ℤ
  seqno : ℤ
  maxseq : ℤ
  highestAck : ℤ
  recvSeqno : ℤ
  ntimeouts : ℤ
  sabmeReq : ℤ
  sentREJ : Bool
  save : Bool
  seen : ℤ → Option Packet
  nextpkt : ℤ
  maxseen : ℤ
  rtxTimer : Bool
  sendBuf : List Numbered
  link : List Frame
  accepted : List Packet
  passedUp : List Packet

def newEntry (sabmeReq : ℤ) : ARQstate where
  tSeqno := 0
  seqno := 0
  maxseq := 0
  highestAck := -1
  recvSeqno := -1
  ntimeouts := 0
  sabmeReq := sabmeReq
  sentREJ := false
  save := false
  seen := fun _ => none
  nextpkt := 0
  maxseen := 0
  rtxTimer := false
  sendBuf := []
  link := []
  accepted := []
  passedUp := []

def getPkt (buffer : List Numbered) (seqno : ℤ) : Option Numbered :=
  buffer.find? (·.sendSeqno = seqno)

namespace ARQstate

variable (cfg : Config) (a : ARQstate)

/-! ## Sending -/

def sendDown (f : Frame) : ARQstate := { a with link := a.link ++ [f] }

/-- The number that I frames and RR frames acknowledge with. -/
def ackSeqno : ℤ := if cfg.selRepeat then a.nextpkt else a.recvSeqno

/-- `HDLC::output`. The retransmission timer is pending afterwards in any case. -/
def output (p : Numbered) (seqno : ℤ) : ARQstate :=
  let a := { a with save := false }
  let a := a.sendDown (.iframe p (a.ackSeqno cfg))
  { a with
    maxseq := if a.maxseq < seqno then seqno else a.maxseq
    rtxTimer := true }

/-- The packet with the number `t_seqno_` is sent. -/
def outputNext (p : Numbered) : ARQstate :=
  { a.output cfg p a.tSeqno with tSeqno := a.tSeqno + 1 }

/-- `HDLC::dataToSend`, and the condition of the loop of `sendMuch`. -/
def dataToSend : Option Numbered :=
  if a.tSeqno ≤ a.highestAck + cfg.wnd then getPkt a.sendBuf a.tSeqno else none

def sendMuchLoop : ℕ → ARQstate → ARQstate
  | 0, a => a
  | n + 1, a =>
    match a.dataToSend cfg with
    | some p => sendMuchLoop n (a.outputNext cfg p)
    | none => a

/-- `HDLC::sendMuch`: at most the window is sent. -/
def sendMuch : ARQstate := sendMuchLoop cfg (a.highestAck + cfg.wnd + 1 - a.tSeqno).toNat a

def inSendBuffer (p : Packet) : ARQstate :=
  if cfg.queueSize ≤ a.sendBuf.length then a
  else
    { a with
      seqno := a.seqno + 1
      sendBuf := a.sendBuf ++ [⟨a.seqno, { p with size := p.size + hdrLen }⟩]
      accepted := a.accepted ++ [p] }

def requestConnection : ARQstate :=
  if a.sabmeReq = 0 ∧ a.tSeqno = 0 then
    { a.sendDown .sabme with sabmeReq := 1, rtxTimer := true }
  else a

def recvOutgoing (p : Packet) : ARQstate :=
  let a := a.requestConnection.inSendBuffer cfg p
  if a.sabmeReq = 2 then a.sendMuch cfg else a

def sendRR : ARQstate := a.sendDown (.rr (a.ackSeqno cfg))

def ack : ARQstate :=
  if 0 < a.tSeqno then
    match a.dataToSend cfg with
    | some p => a.outputNext cfg p
    | none => a.sendRR cfg
  else a.sendRR cfg

def delayTimeout : ARQstate := { a.ack cfg with save := false }

/-- `HDLC::timeout`; `none` where the station resets, or has no packet to ask for a connection with. -/
def timeout : Option ARQstate :=
  let a := { a with rtxTimer := false, ntimeouts := a.ntimeouts + 1 }
  if cfg.maxTimeouts < a.ntimeouts then none
  else if a.sabmeReq ≠ 0 ∧ a.tSeqno = 0 then
    (getPkt a.sendBuf 0).map (fun _ => { a.sendDown .sabme with rtxTimer := true })
  else if a.highestAck = a.maxseq then
    some { a with rtxTimer := true, tSeqno := a.highestAck + 1 }
  else some ({ a with tSeqno := a.highestAck + 1 }.sendMuch cfg)

/-! ## Receiving -/

def goBackNMode (p : Numbered) : ARQstate :=
  if p.sendSeqno = a.recvSeqno then
    let a := { a with sentREJ := false, recvSeqno := a.recvSeqno + 1 }
    let a := if cfg.delAck then { a with save := true } else a.ack cfg
    { a with passedUp := a.passedUp ++ [p.strip] }
  else if a.recvSeqno < p.sendSeqno then
    if a.sentREJ then a else { a with sentREJ := true }.sendDown (.rej a.recvSeqno)
  else a.ack cfg

/-- The loop of `selectiveRepeatMode` that passes packets up, at most one for each slot. -/
def passUpLoop : ℕ → ARQstate → ARQstate
  | 0, a => a
  | n + 1, a =>
    match a.seen (a.nextpkt % mws) with
    | some pkt =>
      passUpLoop n { a with
        seen := update a.seen (a.nextpkt % mws) none
        passedUp := a.passedUp ++ [pkt]
        nextpkt := a.nextpkt + 1 }
    | none => a

/-- The packets between `maxseen_` and `seq` are requested, and `seq` is the highest one seen. -/
def requestMissing (seq : ℤ) (pkt : Packet) : ARQstate :=
  { a with
    link := a.link ++
      (List.range (seq - a.maxseen - 1).toNat).map (fun (i : ℕ) => .srej (a.maxseen + 1 + i))
    maxseen := seq
    seen := update a.seen (seq % mws) (some pkt) }

def selectiveRepeatMode (p : Numbered) : ARQstate :=
  let seq := p.sendSeqno
  let justMarkedAsSeen : Bool := a.maxseen < seq
  let a := if justMarkedAsSeen then a.requestMissing seq p.strip else a
  if seq < a.nextpkt then a.ack cfg
  else if a.nextpkt ≤ seq ∧ seq ≤ a.maxseen then
    if (a.seen (seq % mws)).isSome ∧ ¬ justMarkedAsSeen then a.ack cfg
    else
      let a := { a with seen := update a.seen (seq % mws) (some p.strip) }
      (passUpLoop mws.toNat a).ack cfg
  else a

/-- The packet with the number `seqno` is acknowledged, and removed. -/
def removeAcked (seqno : ℤ) : ARQstate :=
  { a with sendBuf := a.sendBuf.eraseP (·.sendSeqno = seqno), highestAck := seqno }

/-- `HDLC::handlePiggyAck`; `none` where `datapkt` is `NULL`. -/
def handlePiggyAck (recvSeqno : ℤ) : Option ARQstate :=
  let seqno := recvSeqno - 1
  if a.highestAck < seqno then
    (getPkt a.sendBuf seqno).map (fun _ =>
      { a.removeAcked seqno with
        rtxTimer := decide (seqno < a.tSeqno ∨ seqno < a.maxseq)
        ntimeouts := 0 })
  else some { a with ntimeouts := 0 }

def handleRR (recvSeqno : ℤ) : ARQstate :=
  if a.sabmeReq ≠ 2 then a
  else
    let seqno := recvSeqno - 1
    let a :=
      if a.highestAck < seqno then
        { (match getPkt a.sendBuf seqno with
          | some _ => a.removeAcked seqno
          | none => a) with
          rtxTimer := decide (seqno < a.tSeqno - 1 ∨ seqno < a.maxseq) }
      else a
    { a with ntimeouts := 0 }.sendMuch cfg

def handleREJ (seqno : ℤ) : ARQstate :=
  if a.sabmeReq ≠ 2 then a else { a with tSeqno := seqno }.sendMuch cfg

/-- `HDLC::handleSREJ`; `none` where the packet is `NULL`. -/
def handleSREJ (seqno : ℤ) : Option ARQstate :=
  if a.sabmeReq ≠ 2 then some a
  else (getPkt a.sendBuf seqno).map (fun p => a.output cfg p seqno)

/-- The first data packet sets the connection up. -/
def thirdLeg : ARQstate :=
  if a.recvSeqno = -1 ∧ a.sabmeReq = 0 then { a with sabmeReq := 2 } else a

/-- The first data packet starts the numbers. -/
def firstData (p : Numbered) : ARQstate :=
  if p.sendSeqno = 0 ∧ a.recvSeqno = -1 then { a with recvSeqno := 0 } else a

/-- `HDLC::recvIframe`; `none` also where the assertion of `sendMuch` fails. -/
def recvIframe (p : Numbered) (rseq : ℤ) : Option ARQstate :=
  if a.sabmeReq = 1 then some a
  else
    let a := a.thirdLeg
    (if -1 < rseq then a.handlePiggyAck rseq else some a).bind (fun a =>
      let a := a.firstData p
      let a := if cfg.selRepeat then a.selectiveRepeatMode cfg p else a.goBackNMode cfg p
      if -1 < rseq then (if a.sabmeReq = 2 then some (a.sendMuch cfg) else none) else some a)

/-- `HDLC::recvIncoming`; `none` also where the station resets. -/
def recvIncoming : Frame → Option ARQstate
  | .iframe p rseq => a.recvIframe cfg p rseq
  | .rr recvSeqno => some (a.handleRR cfg recvSeqno)
  | .rej recvSeqno => some (a.handleREJ cfg recvSeqno)
  | .srej recvSeqno => a.handleSREJ cfg recvSeqno
  | .sabme => none

end ARQstate

/-! ## Two stations -/

/-- What happens: a packet for the peer is queued at a station, the first frame on the way to it arrives, a
frame on the way from it is lost, and its timers expire. -/
inductive Event
  | queue (x : Bool) (p : Packet)
  | arrive (x : Bool)
  | lose (x : Bool) (place : ℕ)
  | timeout (x : Bool)
  | delayTimeout (x : Bool)

def step (cfg : Bool → Config) (s : Bool → ARQstate) : Event → Option (Bool → ARQstate)
  | .queue x p => some (update s x ((s x).recvOutgoing (cfg x) p))
  | .arrive x =>
    match (s !x).link with
    | [] => none
    | f :: rest =>
      ((s x).recvIncoming (cfg x) f).map (fun a =>
        update (update s (!x) { s (!x) with link := rest }) x a)
  | .lose x place =>
    some (update s x { s x with link := (s x).link.eraseIdx place })
  | .timeout x =>
    if (s x).rtxTimer then ((s x).timeout (cfg x)).map (update s x) else none
  | .delayTimeout x =>
    if (s x).save then some (update s x ((s x).delayTimeout (cfg x))) else none

def start (opener : Bool) : Bool → ARQstate := fun x => newEntry (if x = opener then 2 else 0)

inductive Reachable (cfg : Bool → Config) (opener : Bool) : (Bool → ARQstate) → Prop
  | start : Reachable cfg opener (start opener)
  | step {s s' : Bool → ARQstate} (e : Event) :
      Reachable cfg opener s → step cfg s e = some s' → Reachable cfg opener s'

def run (cfg : Bool → Config) : List Event → (Bool → ARQstate) → Option (Bool → ARQstate)
  | [], s => some s
  | e :: rest, s => (step cfg s e).bind (run cfg rest)

theorem Reachable.run {cfg : Bool → Config} {opener : Bool} {events : List Event}
    {s s' : Bool → ARQstate} (hs : Reachable cfg opener s) (h : Hdlc.run cfg events s = some s') :
    Reachable cfg opener s' := by
  induction events generalizing s with
  | nil =>
    cases h
    exact hs
  | cons e rest ih =>
    obtain ⟨s₁, hstep, hrun⟩ := Option.bind_eq_some_iff.mp h
    exact ih (hs.step e hstep) hrun

end NetSim.Hdlc
