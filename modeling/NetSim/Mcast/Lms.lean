import NetSim.Mcast.RcvBuffer

/-! # Light-weight multicast services

The agents `LmsReceiver` (`mcast/lms-receiver.cc`) and `LmsSender` (`mcast/lms-sender.cc`). A receiver asks
for every gap with a NAK that it sends again when its timer expires, and answers the requests of others
with repairs. A packet of the list of requests is the request that it holds, and a NAK is an address with
its fields; what aborts has the result `none`.
-/

namespace NetSim.Lms

def lmsNoaddr : ℤ := -1
def lmsNoiface : ℤ := -99

def lmsRqlMax : ℕ := 10
def lmsRdlMax : ℕ := 10

def lmsCostThr : ℤ := 1

/-- A packet of type `LMS_REQ`: the fields of `hdr_lms`, and of the `lms_nak` in its data. -/
structure Request where
  src : ℤ
  group : ℤ
  tpAddr : ℤ
  tpPort : ℤ
  tpIface : ℤ
  lo : ℤ
  hi : ℤ
  nakSeqn : ℕ
  dupCnt : ℕ
deriving DecidableEq

inductive LmsPkt
  | setup (saddr daddr lhFrom : ℤ) (ts : ℚ) (cost : ℤ)
  | spm (path : ℤ)
  | links
  | srcRefresh
  | other
deriving DecidableEq

/-- A retransmission to the turning point of a request. -/
structure Dmcast where
  seqno : ℤ
  size : ℤ
  lhFrom : ℤ
  src : ℤ
  group : ℤ
  tpAddr : ℤ
  tpPort : ℤ
  tpIface : ℤ
  flowid : ℤ
deriving DecidableEq

inductive Sent
  | nak (daddr lhFrom : ℤ) (rq : Request)
  | refresh (daddr lhFrom src group cost : ℤ)
  | dmcast (p : Dmcast)
deriving DecidableEq

/-! ## The list of requests -/

structure RequestList where
  requests : List Request
  size : ℤ
  maxDupNaks : ℕ
deriving DecidableEq

/-- The same range and turning point. -/
def Request.Same (p rq : Request) : Prop :=
  p.lo = rq.lo ∧ p.hi = rq.hi ∧ p.tpAddr = rq.tpAddr ∧ p.tpIface = rq.tpIface

instance (p rq : Request) : Decidable (p.Same rq) := inferInstanceAs (Decidable (_ ∧ _))

/-- `add_req`, with a loop that compares the first `n` requests. If there are more, it stops at the one
behind them, and the request behind that is deleted. -/
def RequestList.addReq (n : ℕ) (l : RequestList) (rq : Request) : RequestList × Bool :=
  if l.requests = [] then ({ l with requests := [rq], size := 1 }, true)
  else
    match (l.requests.take n).findIdx? (fun p => decide (p.Same rq)) with
    | some k =>
      let requests := l.requests.modify k (fun p => { p with dupCnt := p.dupCnt + 1 })
      let cnt := (requests[k]?.map (·.dupCnt)).getD 0
      ({ l with requests := requests, maxDupNaks := max l.maxDupNaks cnt }, false)
    | none =>
      if l.requests[n + 1]?.isSome then
        -- the new request makes up for the deleted one
        ({ l with requests := rq :: l.requests.take (n + 1), size := l.size - 1 + 1 }, true)
      else ({ l with requests := rq :: l.requests, size := l.size + 1 }, true)

def Request.range (rq : Request) : List ℤ :=
  (List.range (rq.hi - rq.lo + 1).toNat).map (fun k : ℕ => rq.lo + k)

/-! ## The receiver -/

/-- `class LmsNak`; the timer holds the time when it expires, as long as it is pending. -/
structure LmsNak where
  addr : ℕ
  lo : ℤ
  hi : ℤ
  seqn : ℕ
  nakTimeout : ℚ
  nakTimer : Option ℚ
deriving DecidableEq

/-- What `timeout` does to the NAK: the next number, and exponential back-off. -/
def LmsNak.resend (now : ℚ) (n : LmsNak) : LmsNak :=
  { n with seqn := n.seqn + 1, nakTimeout := n.nakTimeout * 2, nakTimer := some (now + n.nakTimeout * 2) }

/-- `class LmsReceiver`; `made` is the number of its NAKs so far, and their addresses are below. -/
structure LmsReceiver where
  addr : ℤ
  port : ℤ
  rcvbuf : RcvBuffer
  dataSize : ℤ
  rtt : ℚ
  lmsSrc : ℤ
  lmsGroup : ℤ
  upstreamLms : ℤ
  lmsCost : ℤ
  rql : RequestList
  rdl : List (ℤ × ℚ)
  rdlSz : ℤ
  nak : List LmsNak
  made : ℕ
  lsLastRq : ℤ
  lsSmplIvl : ℤ
  lsCntdown : ℤ
  reqSent : ℤ
  reqRcvd : ℕ
  dupReqs : ℕ

namespace LmsReceiver

/-- `LmsReceiver::LmsReceiver`; the constructor does not set `rql_sz_`. -/
def init (addr port rqlSz : ℤ) : LmsReceiver where
  addr := addr
  port := port
  rcvbuf := RcvBuffer.init
  dataSize := 0
  rtt := 0
  lmsSrc := lmsNoaddr
  lmsGroup := lmsNoaddr
  upstreamLms := lmsNoaddr
  lmsCost := 0
  rql := ⟨[], rqlSz, 0⟩
  rdl := []
  rdlSz := 0
  nak := []
  made := 0
  lsLastRq := 0
  lsSmplIvl := 0
  lsCntdown := 0
  reqSent := 0
  reqRcvd := 0
  dupReqs := 0

variable (r : LmsReceiver)

def sendNak (sqn : ℕ) (lo hi : ℤ) : Sent :=
  .nak r.upstreamLms r.addr ⟨r.lmsSrc, r.lmsGroup, lmsNoaddr, -1, lmsNoiface, lo, hi, sqn, 0⟩

def sendRefresh : Sent := .refresh r.upstreamLms r.addr r.lmsSrc r.lmsGroup r.lmsCost

def sendDmcast (rq : Request) (seqno fid : ℤ) : Sent :=
  .dmcast ⟨seqno, r.dataSize, r.addr, r.lmsSrc, r.lmsGroup, rq.tpAddr, rq.tpPort, rq.tpIface, fid⟩

def newNak (now : ℚ) (lo hi : ℤ) : LmsNak := ⟨r.made, lo, hi, 0, r.rtt * 2, some (now + r.rtt * 2)⟩

def createNak (now : ℚ) (lo hi : ℤ) : LmsReceiver :=
  { r with nak := r.newNak now lo hi :: r.nak, made := r.made + 1 }

def findNak (i : ℤ) : Option LmsNak := r.nak.find? (fun n => n.lo ≤ i ∧ i ≤ n.hi)

/-- `LmsReceiver::delete_nak`; the timer is cancelled, which aborts unless it is pending. -/
def deleteNak (n : LmsNak) : Option LmsReceiver :=
  if n.nakTimer.isSome then some { r with nak := r.nak.eraseP (·.addr = n.addr) } else none

/-- `LmsReceiver::add_rdl`: at most `LMS_RDL_MAX` repairs are to be remembered. -/
def addRdl (rseq : ℤ) (clock : ℚ) : LmsReceiver :=
  let rdl := (rseq, clock) :: r.rdl
  if (lmsRdlMax : ℤ) < r.rdlSz + 1 then { r with rdl := rdl.take (lmsRdlMax + 1), rdlSz := r.rdlSz + 1 - 1 }
  else { r with rdl := rdl, rdlSz := r.rdlSz + 1 }

def existsRdl (rseq : ℤ) : Bool := r.rdl.any (·.1 = rseq)

/-- The parts of the NAK without the number. -/
def splitNak (now : ℚ) (n : LmsNak) (rseq : ℤ) : LmsReceiver :=
  if n.lo = n.hi then r
  else if rseq = n.lo then r.createNak now (rseq + 1) n.hi
  else if rseq = n.hi then r.createNak now n.lo (rseq - 1)
  else (r.createNak now n.lo (rseq - 1)).createNak now (rseq + 1) n.hi

def sampleLoss : Option (LmsReceiver × List Sent) :=
  if r.lsSmplIvl = 0 then some (r, [])
  else
    let r := { r with lsCntdown := r.lsCntdown - 1 }
    if r.lsCntdown ≠ 0 then some (r, [])
    else
      let newcost := r.reqSent - r.lsLastRq
      if newcost < 0 then none
      else
        let r :=
          if lmsCostThr ≤ |newcost - r.lmsCost| then
            { r with lmsCost := newcost, lsLastRq := if 0 < newcost then r.reqSent else r.lsLastRq }
          else r
        some ({ r with lsCntdown := r.lsSmplIvl }, [r.sendRefresh])

/-- What `recv` does about a gap, or about a retransmission. -/
def recvGap (now : ℚ) (rseq : ℤ) : Option (LmsReceiver × List Sent) :=
  if r.rcvbuf.nextpkt < rseq then
    let lo := r.rcvbuf.nextpkt
    let hi := rseq - 1
    let r := { r with reqSent := r.reqSent + 1 }
    some (r.createNak now lo hi, [r.sendNak 0 lo hi])
  else if rseq < r.rcvbuf.nextpkt ∧ r.rcvbuf.existsPkt rseq = false then
    let r := r.addRdl rseq now
    (r.findNak rseq).bind (fun n => ((r.splitNak now n rseq).deleteNak n).map (·, []))
  else some (r, [])

def recv (now : ℚ) (rseq size : ℤ) : Option (LmsReceiver × List Sent) :=
  (recvGap { r with dataSize := size } now rseq).bind (fun g =>
    (g.1.rcvbuf.addPkt rseq now).bind (fun b =>
      (sampleLoss { g.1 with rcvbuf := b }).map (fun l => (l.1, g.2 ++ l.2))))

/-- `handle_lms_pkt`, for a request. -/
def recvRequest (rq : Request) : LmsReceiver × List Sent :=
  let (rql, st) := r.rql.addReq lmsRqlMax rq
  let r := { r with reqRcvd := r.reqRcvd + 1, rql := rql }
  if st then
    (r, (rq.range.filter (fun i => !(rq.nakSeqn = 0 && r.existsRdl i) && r.rcvbuf.existsPkt i)).map
      (fun i => r.sendDmcast rq i 3))
  else ({ r with dupReqs := r.dupReqs + 1 }, [])

/-- `handle_lms_pkt`, for another packet. -/
def recvLms (now : ℚ) : LmsPkt → Option (LmsReceiver × List Sent)
  | .setup saddr daddr lhFrom ts cost =>
    let r :=
      { r with
        lmsSrc := saddr, lmsGroup := daddr, rtt := 2 * (now - ts), upstreamLms := lhFrom, dataSize := cost }
    some (r, [r.sendRefresh])
  | .spm path => some ({ r with upstreamLms := path }, [])
  | .links => some (r, [])
  | .srcRefresh => some (r, [])
  | .other => none

def timeout (now : ℚ) (lo hi : ℤ) : Option (LmsReceiver × List Sent) :=
  (r.findNak lo).map (fun n =>
    ({ r with nak := r.nak.map (fun x => if x.addr = n.addr then n.resend now else x) },
      [r.sendNak (n.seqn + 1) lo hi]))

/-- The timer of the NAK at `a` expires: it is not pending while `timeout` runs. -/
def expire (now : ℚ) (a : ℕ) : Option (LmsReceiver × List Sent) :=
  (r.nak.find? (·.addr = a)).bind (fun n =>
    timeout { r with nak := r.nak.map (fun x => if x.addr = a then { x with nakTimer := none } else x) }
      now n.lo n.hi)

end LmsReceiver

inductive Event
  | data (rseq size : ℤ)
  | request (rq : Request)
  | lms (pkt : LmsPkt)
  | nakTimer (a : ℕ)
deriving DecidableEq

def LmsReceiver.step (r : LmsReceiver) (e : ℚ × Event) : Option (LmsReceiver × List Sent) :=
  match e.2 with
  | .data rseq size => r.recv e.1 rseq size
  | .request rq => some (r.recvRequest rq)
  | .lms pkt => r.recvLms e.1 pkt
  | .nakTimer a => r.expire e.1 a

/-! ## The sender -/

/-- `class LmsSender`, as far as it handles requests. -/
structure LmsSender where
  addr : ℤ
  daddr : ℤ
  packetSize : ℤ
  reqList : RequestList
  reqRcvd : ℕ
  dupReqs : ℕ
  dmcastsSent : ℕ
deriving DecidableEq

namespace LmsSender

/-- `LmsSender::LmsSender`; the constructor does not set `req_list_sz_`. -/
def init (addr daddr packetSize reqListSz : ℤ) : LmsSender :=
  ⟨addr, daddr, packetSize, ⟨[], reqListSz, 0⟩, 0, 0, 0⟩

variable (s : LmsSender)

def sendDmcast (rq : Request) (seqno fid : ℤ) : Sent :=
  .dmcast ⟨seqno, s.packetSize, s.addr, s.addr, s.daddr, rq.tpAddr, rq.tpPort, rq.tpIface, fid⟩

/-- `LmsSender::handle_lms_pkt`, for a request. The loop of its `add_req` makes one round more than that of
a receiver. -/
def recvRequest (rq : Request) : Option (LmsSender × List Sent) :=
  if rq.src ≠ s.addr then none
  else
    let (reqList, st) := s.reqList.addReq (lmsRqlMax + 1) rq
    let s := { s with reqRcvd := s.reqRcvd + 1, reqList := reqList }
    some (if st then
        ({ s with dmcastsSent := s.dmcastsSent + rq.range.length }, rq.range.map (fun i => s.sendDmcast rq i 3))
      else ({ s with dupReqs := s.dupReqs + 1 }, []))

end LmsSender

end NetSim.Lms
