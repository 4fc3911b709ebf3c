import NetSim.Tcp.ReassemblyQueue

/-! # FullTcp: the model

`FullTcpAgent` and `SackFullTcpAgent` (`tcp/tcp-full.cc`) from the state `ESTABLISHED` on. The
receiving side is the reassembly queue `rq_` with `rcv_nxt_`; the sending side (`Sender`) has the
scoreboard `sq_` with `sack_min_`. `recv` follows one segment: header prediction, trimming, the
processing of the acknowledgment, and the delivery of data (`step6`).

Windows, timers, timestamps and the decisions of the sending side are not computed: what they
contribute to one call comes in with `Env`, and what `send_much` leaves behind with `Sent`. On the
receiving side an `int` wraps around (`wrap`). A `none` stands for `abort`.
-/

namespace NetSim

open ReassemblyQueue

namespace FullTcp

/-! ## Segments and states -/

def thFin : ℕ := 0x01

def thSyn : ℕ := 0x02

def thAck : ℕ := 0x10

def tfNeedfin : ℕ := 0x0800

def hasFlag (flags bits : ℕ) : Bool := flags &&& bits != 0

def clearFlag (flags bits : ℕ) : ℕ := flags ^^^ (flags &&& bits)

/-- The 32-bit `int` that an expression is. -/
def wrap (n : ℤ) : ℤ := n.bmod (2 ^ 32)

theorem wrap_eq {n : ℤ} (hlo : -2 ^ 31 ≤ n) (hhi : n < 2 ^ 31) : wrap n = n :=
  Int.bmod_eq_of_le (by omega) (by omega)

/-- The states from `TCPS_ESTABLISHED` on, and `TCPS_CLOSED`. -/
inductive State where
  | established
  | closeWait
  | finWait1
  | closing
  | lastAck
  | finWait2
  | closed
deriving DecidableEq

def State.haveRcvdFin : State → Bool
  | .closing | .closed | .closeWait => true
  | _ => false

/-- What `recv` reads of a packet. -/
structure Segment where
  seqno : ℤ
  /-- `th->size() - tcph->hlen()`. -/
  datalen : ℕ
  ackno : ℤ
  flags : ℕ
  /-- `sa_left(i)` and `sa_right(i)` for `i < sa_length()`. -/
  sacks : List (ℤ × ℤ)
deriving DecidableEq

structure Config where
  nopredict : Bool
  ecn : Bool
  bugFix : Bool
  dupsegFix : Bool
  dupackReset : Bool
  clearOnTimeout : Bool
  tcprexmtthresh : ℤ
  maxSackBlocks : ℤ
  maxseg : ℤ
  iss : ℤ

structure Sender where
  highestAck : ℤ
  maxseq : ℤ
  tSeqno : ℤ
  recover : ℤ
  dupacks : ℤ
  fastrecov : Bool
  pipectrl : Bool
  pipe : ℤ
  hSeqno : ℤ
  /-- `sq_`, whose reference stands for `sack_min_`. -/
  sq : ReassemblyQueue

def Sender.sackMin (s : Sender) : ℤ := s.sq.rcvNxt

/-- What `send_much` leaves behind: `maxseq_` can only have grown, and the application may have
closed its side. -/
structure Sent where
  more : ℕ
  tSeqno : ℤ
  pipe : ℤ
  hSeqno : ℤ
  flags : ℕ
  close : Bool

/-- What timers, windows and timestamps contribute to one call of `recv`. -/
structure Env where
  /-- `!ts_option_ || no_ts_ || ts() >= recent_`. -/
  tsok : Bool
  /-- The timestamp check drops the segment. -/
  paws : Bool
  ecnecho : Bool
  /-- `cwnd_ >= wnd_`. -/
  cwndFull : Bool
  /-- `rtx_timer_.status() == TIMER_PENDING`. -/
  rtxPending : Bool
  /-- `last_cwnd_action_ == CWND_ACTION_ECN`. -/
  lastActionEcn : Bool
  /-- `last_cwnd_action_ == CWND_ACTION_DUPACK`. -/
  lastActionDupack : Bool
  sent : Sent

/-- What a call reports: the bytes that `recvBytes` hands to the application, and the value that
`dupack_action` computes for `pipe_`. -/
inductive Event where
  | recvBytes (n : ℤ)
  | pipe (n : ℤ)
deriving DecidableEq

/-! ## The functions that the agents redefine -/

structure Actions where
  processSack : Config → Sender → Segment → Option Sender
  dupackAction : Config → Env → Sender → Sender × List Event
  packAction : Config → Sender → Option Sender
  ackAction : Config → Sender → Option Sender
  timeoutAction : Config → Sender → Option Sender

/-- `FullTcpAgent::dupack_action`; the fast retransmission itself is part of `Sent`. -/
def dupackAction (c : Config) (env : Env) (s : Sender) : Sender × List Event :=
  let s' := { s with fastrecov := true }
  let full := s.recover < s.highestAck ∨ (!c.bugFix ∧ !c.ecn) ∨ env.lastActionDupack ∨
    s.highestAck = 0
  if full ∨ (c.ecn ∧ env.lastActionEcn) ∨ !c.bugFix then ({ s' with recover := s.maxseq }, [])
  else (s', [])

def packAction (s : Sender) : Sender := { s with fastrecov := false, dupacks := 0 }

def timeoutAction (c : Config) (s : Sender) : Sender :=
  { s with
    recover := s.maxseq
    tSeqno := if s.highestAck < 0 then c.iss else s.highestAck
    fastrecov := false
    dupacks := 0 }

def fullTcpAgent : Actions where
  processSack _ s _ := some s
  dupackAction := dupackAction
  packAction _ s := some (packAction s)
  ackAction _ s := some (packAction s)
  timeoutAction c s := some (timeoutAction c s)

def addSacks (flags : ℕ) : ReassemblyQueue → List (ℤ × ℤ) → Option ReassemblyQueue
  | sq, [] => some sq
  | sq, (left, right) :: rest =>
    if !hasFlag flags thFin ∧ right ≤ left then addSacks flags sq rest
    else (sq.add left right 0 0).bind (fun r => addSacks flags r.1 rest)

def sackProcessSack (c : Config) (s : Sender) (pkt : Segment) : Option Sender :=
  if c.maxSackBlocks ≤ 0 then some s
  else (addSacks pkt.flags s.sq pkt.sacks).map (fun sq => { s with sq })

def sackDupackAction (c : Config) (env : Env) (s : Sender) : Sender × List Event :=
  let pipe := s.maxseq - s.highestAck - s.sq.total
  let s' := { s with fastrecov := true, pipe }
  if s.recover < s.highestAck ∨ (!c.bugFix ∧ !c.ecn) then
    ({ s' with pipectrl := true, recover := s.maxseq }, [.pipe pipe])
  else if c.ecn ∧ env.lastActionEcn then
    ({ s' with pipectrl := true, recover := s.maxseq }, [.pipe pipe])
  else if c.bugFix then (s', [.pipe pipe])
  else ({ s' with pipectrl := true, recover := s.maxseq }, [.pipe pipe])

/-- `if (!sq_.empty() && sack_min_ < highest_ack_)`: clear the scoreboard up to `highest_ack_`. -/
def pruneSacks (s : Sender) : Option Sender :=
  if s.sq.fifo.head ≠ none ∧ s.sackMin < s.highestAck then
    ({ s.sq with rcvNxt := s.highestAck } : ReassemblyQueue).cleartonxt.map
      (fun r => { s with sq := r.1 })
  else some s

/-- `if (h_seqno_ < highest_ack_) h_seqno_ = highest_ack_`. -/
def raiseHSeqno (s : Sender) : Sender :=
  { s with hSeqno := if s.hSeqno < s.highestAck then s.highestAck else s.hSeqno }

def sackPackAction (c : Config) (s : Sender) : Option Sender :=
  (pruneSacks s).map (fun s => raiseHSeqno { s with pipe := s.pipe - c.maxseg })

def sackAckAction (s : Sender) : Option Sender :=
  (pruneSacks { s with fastrecov := false, pipectrl := false }).map
    (fun s => raiseHSeqno { s with dupacks := 0 })

def sackTimeoutAction (c : Config) (s : Sender) : Option Sender :=
  let s := timeoutAction c s
  if c.clearOnTimeout then
    s.sq.clear.map (fun sq => { s with sq := { sq with rcvNxt := s.highestAck } })
  else some s

def sackFullTcpAgent : Actions where
  processSack := sackProcessSack
  dupackAction := sackDupackAction
  packAction := sackPackAction
  ackAction _ s := sackAckAction s
  timeoutAction := sackTimeoutAction

end FullTcp

open FullTcp

structure FullTcp where
  state : State
  /-- `flags_`. -/
  flags : ℕ
  /-- `rq_`, whose reference stands for `rcv_nxt_`. -/
  rq : ReassemblyQueue
  snd : Sender

namespace FullTcp

def rcvNxt (a : FullTcp) : ℤ := a.rq.rcvNxt

def advance (a : FullTcp) (n : ℤ) : FullTcp := { a with rq := { a.rq with rcvNxt := wrap (a.rcvNxt + n) } }

/-! ## Sending -/

/-- The application closes its side (`usrclosed`, or `TF_NEEDCLOSE` in `foutput`). -/
def State.close : State → State
  | .established => .finWait1
  | .closeWait => .lastAck
  | st => st

def sendMuch (a : FullTcp) (sent : Sent) : FullTcp :=
  { a with
    state := if sent.close then a.state.close else a.state
    flags := sent.flags
    snd := { a.snd with
      maxseq := a.snd.maxseq + sent.more
      tSeqno := sent.tSeqno
      pipe := sent.pipe
      hSeqno := sent.hSeqno } }

/-! ## Header prediction -/

def predictOk (c : Config) (a : FullTcp) (pkt : Segment) (env : Env) : Bool :=
  a.state = .established ∧ pkt.flags &&& (thSyn ||| thFin ||| thAck) = thAck ∧
    !hasFlag a.flags tfNeedfin ∧ env.tsok ∧ pkt.seqno = a.rcvNxt ∧
    a.snd.tSeqno = a.snd.maxseq ∧ (!c.ecn ∨ !env.ecnecho) ∧ pkt.sacks = []

def newack (s : Sender) (ackno : ℤ) : Sender :=
  let highest := if s.highestAck < ackno then ackno else s.highestAck
  { s with
    highestAck := highest
    tSeqno := if s.tSeqno < highest then highest else s.tSeqno }

def predictsAck (c : Config) (a : FullTcp) (pkt : Segment) (env : Env) : Bool :=
  !c.nopredict ∧ predictOk c a pkt env ∧ pkt.datalen = 0 ∧ a.snd.highestAck < pkt.ackno ∧
    pkt.ackno < a.snd.maxseq ∧ env.cwndFull ∧ !a.snd.fastrecov

def predictsData (c : Config) (a : FullTcp) (pkt : Segment) (env : Env) : Bool :=
  !c.nopredict ∧ predictOk c a pkt env ∧ pkt.datalen ≠ 0 ∧ pkt.ackno = a.snd.highestAck ∧
    a.rq.fifo.head = none

/-! ## Trimming -/

/-- A segment after its redundant data has been trimmed. `size` is what the packet says, `datalen`
and `tiflags` are local variables of `recv`. -/
structure Trimmed where
  seqno : ℤ
  size : ℤ
  datalen : ℤ
  tiflags : ℕ
  dupseg : Bool

/-- The check for redundant data at the head of the segment. -/
def trim (a : FullTcp) (pkt : Segment) : Trimmed :=
  let todrop := wrap (a.rcvNxt - pkt.seqno)
  if 0 < todrop ∧ (hasFlag pkt.flags thSyn ∨ 0 < pkt.datalen) then
    let syn : ℤ := if hasFlag pkt.flags thSyn then 1 else 0
    let tiflags := clearFlag pkt.flags thSyn
    let todrop := todrop - syn
    if pkt.datalen < todrop ∨ (todrop = pkt.datalen ∧ !hasFlag tiflags thFin) then
      -- a complete duplicate
      ⟨pkt.seqno + syn + pkt.datalen, pkt.datalen - syn - pkt.datalen, 0, clearFlag tiflags thFin,
        true⟩
    else
      ⟨pkt.seqno + syn + todrop, pkt.datalen - syn - todrop, pkt.datalen - todrop, tiflags, false⟩
  else ⟨pkt.seqno, pkt.datalen, pkt.datalen, pkt.flags, false⟩

/-! ## Acknowledgments -/

/-- Where `recv` goes on after the acknowledgment. -/
inductive Next where
  | drop
  | dropafterack
  | step6
deriving DecidableEq

def pack (s : Sender) (pkt : Segment) : Bool :=
  s.fastrecov ∧ s.highestAck ≤ pkt.ackno ∧ pkt.ackno < s.recover

/-- A duplicate or old acknowledgment. -/
def dupAck (c : Config) (act : Actions) (s : Sender) (pkt : Segment) (t : Trimmed) (env : Env) :
    Sender × List Event × Next :=
  if t.datalen = 0 ∧ (!c.dupsegFix ∨ !t.dupseg) then
    if !env.rtxPending ∨ pkt.ackno < s.highestAck then ({ s with dupacks := 0 }, [], .step6)
    else
      let s := { s with dupacks := s.dupacks + 1 }
      if s.dupacks = c.tcprexmtthresh then
        let r := act.dupackAction c env s
        (r.1, r.2, .drop)
      else if c.tcprexmtthresh < s.dupacks then (s, [], .drop)
      else (s, [], .step6)
  else if c.dupackReset then ({ s with dupacks := 0, fastrecov := false }, [], .step6)
  else (s, [], .step6)

def newAck (c : Config) (act : Actions) (s : Sender) (pkt : Segment) : Option Sender :=
  let s := newack s pkt.ackno
  if pack s pkt then act.packAction c s else act.ackAction c s

/-- The processing of the acknowledgment in `recv`. -/
def processAck (c : Config) (act : Actions) (s : Sender) (pkt : Segment) (t : Trimmed)
    (env : Env) : Option (Sender × List Event × Next) :=
  (if pkt.sacks = [] then some s else act.processSack c s pkt).bind (fun s =>
    let s := { s with
      pipe := if s.fastrecov ∧ (t.datalen = 0 ∨ s.highestAck < pkt.ackno) then s.pipe - c.maxseg
        else s.pipe }
    if pkt.ackno ≤ s.highestAck then some (dupAck c act s pkt t env)
    else if s.maxseq < pkt.ackno then some (s, [], .dropafterack)
    else (newAck c act s pkt).map (fun s => (s, [], .step6)))

/-- `FullTcpAgent::reset`, with the scoreboard of `SackFullTcpAgent::reset`. -/
def reset (c : Config) (a : FullTcp) : Option FullTcp :=
  a.rq.clear.bind (fun rq => a.snd.sq.clear.map (fun sq =>
    { state := a.state
      flags := 0
      rq := { rq with rcvNxt := -1 }
      snd := { highestAck := -1, maxseq := -1, tSeqno := c.iss, recover := 0, dupacks := 0,
               fastrecov := false, pipectrl := a.snd.pipectrl, pipe := 0, hSeqno := -1,
               sq := { sq with rcvNxt := -1 } } }))

/-- The closing states, once all that was sent is acknowledged. -/
def State.finAcked : State → State
  | .finWait1 => .finWait2
  | .closing => .closed
  | .lastAck => .closed
  | st => st

/-! ## Data -/

/-- `FullTcpAgent::reass`: the agent and the flags that are due. -/
def reass (a : FullTcp) (pkt : Segment) (t : Trimmed) : Option (FullTcp × ℕ) :=
  let start := t.seqno
  let stop := wrap (start + t.size)
  let fillshole := start = a.rcvNxt
  if start = stop ∧ !hasFlag pkt.flags thFin then none
  else
    (a.rq.add start stop pkt.flags 0).bind (fun r =>
      if a.state = .closed ∨ ¬ fillshole then some ({ a with rq := r.1 }, 0)
      else (r.1.cleartonxt).map (fun r' => ({ a with rq := r'.1 }, r.2 ||| r'.2)))

/-- The processing of data at `step6`: the flags that are left, and what is delivered. -/
def deliver (a : FullTcp) (pkt : Segment) (t : Trimmed) : Option (FullTcp × ℕ × List Event) :=
  if (0 < t.datalen ∨ hasFlag t.tiflags thFin) ∧ !a.state.haveRcvdFin then
    if t.seqno = a.rcvNxt ∧ a.rq.fifo.head = none then
      -- in order, with nothing in the reassembly queue
      some (a.advance t.datalen, pkt.flags &&& thFin,
        if t.datalen ≠ 0 then [.recvBytes t.datalen] else [])
    else
      (reass a pkt t).map (fun r =>
        (r.1, r.2, if a.rcvNxt < r.1.rcvNxt then [.recvBytes (r.1.rcvNxt - a.rcvNxt)] else []))
  else some (a, clearFlag t.tiflags thFin, [])

/-- The states that a `FIN` leads to. -/
def State.fin : State → State
  | .established => .closeWait
  | .finWait1 => .closing
  | .finWait2 => .closed
  | st => st

/-- The processing of a `FIN`. -/
def fin (a : FullTcp) (tiflags : ℕ) : FullTcp :=
  if hasFlag tiflags thFin then
    { (if a.state.haveRcvdFin then a else a.advance 1) with state := a.state.fin }
  else a

/-- `recv` from `step6` on. -/
def step6 (a : FullTcp) (pkt : Segment) (t : Trimmed) (env : Env) :
    Option (FullTcp × List Event) :=
  (deliver a pkt t).map (fun r => ((fin r.1 r.2.1).sendMuch env.sent, r.2.2))

/-! ## A segment arrives -/

/-- `recv`, when header prediction has failed. -/
def slowPath (c : Config) (act : Actions) (a : FullTcp) (pkt : Segment) (env : Env) :
    Option (FullTcp × List Event) :=
  if a.state = .lastAck ∧ hasFlag pkt.flags thFin then some (a, [])
  else if env.paws then some (a.sendMuch env.sent, [])
  else
    let t := trim a pkt
    if hasFlag t.tiflags thSyn then some (a, [])
    else if !hasFlag t.tiflags thAck then some (a, [])
    else
      (processAck c act a.snd pkt t env).bind (fun r =>
        let a' := { a with snd := r.1 }
        match r.2.2 with
        | .drop => some (a'.sendMuch env.sent, r.2.1)
        | .dropafterack => some (a'.sendMuch env.sent, r.2.1)
        | .step6 =>
          if a.snd.highestAck < pkt.ackno ∧ pkt.ackno = a'.snd.maxseq then
            -- our FIN is acknowledged, in the closing states
            if a.state = .lastAck then
              (reset c { a' with state := .closed }).map (fun a => (a, r.2.1))
            else
              (step6 { a' with state := a.state.finAcked } pkt t env).map
                (fun q => (q.1, r.2.1 ++ q.2))
          else (step6 a' pkt t env).map (fun q => (q.1, r.2.1 ++ q.2)))

def recv (c : Config) (act : Actions) (a : FullTcp) (pkt : Segment) (env : Env) :
    Option (FullTcp × List Event) :=
  if a.state = .closed then some (if hasFlag pkt.flags thFin then a.sendMuch env.sent else a, [])
  else if predictsAck c a pkt env then
    some ({ a with snd := newack a.snd pkt.ackno }.sendMuch env.sent, [])
  else if predictsData c a pkt env then
    some ((a.advance pkt.datalen).sendMuch env.sent, [.recvBytes pkt.datalen])
  else slowPath c act a pkt env

def timeout (c : Config) (act : Actions) (a : FullTcp) (sent : Sent) :
    Option (FullTcp × List Event) :=
  (act.timeoutAction c a.snd).map (fun s => ({ a with snd := s }.sendMuch sent, []))

inductive Input where
  | segment (pkt : Segment) (env : Env)
  | timeout (sent : Sent)
  | send (sent : Sent)

def step (c : Config) (act : Actions) (a : FullTcp) : Input → Option (FullTcp × List Event)
  | .segment pkt env => recv c act a pkt env
  | .timeout sent => timeout c act a sent
  | .send sent => some (a.sendMuch sent, [])

end FullTcp

end NetSim
