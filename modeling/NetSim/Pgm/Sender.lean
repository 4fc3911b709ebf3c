import NetSim.Lib.ObjectPool
import NetSim.Lib.OrderedMap
import NetSim.Pgm.Agent

/-! # The PGM sender

`PgmSender` (`pgm/pgm-sender.cc`), as far as it answers NAKs. The packets are objects of `Packet` and its free
list (`common/packet.h`): a repair holds the address of its packet, and `handed` is what the links and agents
get, with the header that the packet has then. A link keeps the packet until it is freed elsewhere; an agent
of the node is a `PgmReceiver`, which frees it. What aborts has the result `none`.
-/

namespace NetSim.Pgm

open List

def ptPgm : ℕ := 52

def pgmRdata : ℕ := 5
def pgmNcf : ℕ := 10

def hdrPgmSize : ℤ := 16

/-- The headers of a packet; cleared, all of it is 0. -/
structure PktBits where
  ptype : ℕ
  size : ℤ
  fid : ℤ
  type : ℕ
  tsi : NsAddr
  seqno : ℤ
  deriving DecidableEq

instance : Zero PktBits := ⟨⟨0, 0, 0, 0, ⟨0, 0⟩, 0⟩⟩

structure RdataItem where
  seqno : ℤ
  rdataPkt : ℕ
  rdataTimer : Timer
  ifaceList : List ℤ
  agentList : List ℕ
  deriving DecidableEq

/-- Largest size we will allow the reply list to grow. -/
def maxReplyListSize : ℕ := 100

/-- The bound variables of `PgmSender`, its address, and what the node knows. -/
structure SenderConfig where
  here : NsAddr
  rdataDelay : ℚ
  /-- `iface2link` finds a link. -/
  hasLink : ℤ → Bool
  /-- `pkt2agent`, by the source port of the packet. -/
  agentAt : ℤ → Option ℕ

def SenderConfig.target (cfg : SenderConfig) (iface sport : ℤ) : Option Target :=
  if iface < 0 then (cfg.agentAt sport).map .agent
  else if cfg.hasLink iface then some (.iface iface) else none

/-- `class PgmSender`, with the packets. -/
structure Sender where
  pool : Pool PktBits
  pktSize : ℤ
  pendingRdata : OrderedMap ℤ RdataItem
  /-- A `ReplyItem` is its number and its retransmissions. -/
  reply : List (ℤ × ℕ)
  numNaksReceived : ℕ
  numRdataSent : ℕ
  maxNumRepeatedRdata : ℕ

/-- A packet that is handed to a link or an agent. -/
structure Handed where
  tgt : Target
  pkt : ℕ
  bits : PktBits
  deriving DecidableEq

inductive SenderEvent where
  | nak (pkt : ℕ) (hp : Hdr) (iface sport : ℤ)
  | expire (seqno : ℤ)
  | alloc
  | free (pkt : ℕ)
  deriving DecidableEq

def RdataItem.addTarget (item : RdataItem) : Target → RdataItem
  | .iface i => { item with ifaceList := if i ∈ item.ifaceList then item.ifaceList else item.ifaceList ++ [i] }
  | .agent a => { item with agentList := if a ∈ item.agentList then item.agentList else item.agentList ++ [a] }

/-- What the receiver of a packet does with it. -/
def Target.take (p : Pool PktBits) (pkt : ℕ) : Target → Pool PktBits
  | .iface _ => p
  | .agent _ => p.release pkt

namespace Sender

variable (cfg : SenderConfig) (s : Sender) (now : ℚ)

/-- `PgmSender::PgmSender`, where the packets are these. -/
def init (pool : Pool PktBits) : Sender where
  pool := pool
  pktSize := 0
  pendingRdata := .empty
  reply := []
  numNaksReceived := 0
  numRdataSent := 0
  maxNumRepeatedRdata := 0

/-- `allocpkt`, and the header that is filled in. -/
def allocpkt (p : Pool PktBits) (bits : PktBits) : Pool PktBits × ℕ := (p.alloc.1.write p.alloc.2 bits, p.alloc.2)

def ncfBits (seqno : ℤ) : PktBits := ⟨ptPgm, hdrPgmSize, 6, pgmNcf, cfg.here, seqno⟩

def rdataBits (seqno : ℤ) : PktBits := ⟨ptPgm, s.pktSize, 3, pgmRdata, cfg.here, seqno⟩

/-- The NCF packet, sent at once to where the NAK came from. -/
def sendNcf (seqno : ℤ) (tgt : Target) : Sender × List Handed :=
  let (pool, ncf) := allocpkt s.pool (ncfBits cfg seqno)
  ({ s with pool := tgt.take pool ncf }, [⟨tgt, ncf, pool.bits ncf⟩])

def queueRdata (seqno : ℤ) (tgt : Target) : Sender :=
  match s.pendingRdata.find? seqno with
  | none =>
    let (pool, pkt) := allocpkt s.pool (s.rdataBits cfg seqno)
    let item := RdataItem.addTarget ⟨seqno, pkt, Timer.resched now cfg.rdataDelay, [], []⟩ tgt
    { s with pool := pool, pendingRdata := s.pendingRdata.set seqno item }
  | some item => { s with pendingRdata := s.pendingRdata.set seqno (item.addTarget tgt) }

def handleNak (hp : Hdr) (iface sport : ℤ) : Option (Sender × List Handed) :=
  if hp.tsi ≠ cfg.here then some (s, [])
  else
    (cfg.target iface sport).map (fun tgt =>
      let (s, handed) := sendNcf cfg { s with numNaksReceived := s.numNaksReceived + 1 } hp.seqno tgt
      (s.queueRdata cfg now hp.seqno tgt, handed))

/-- `PgmSender::recv`, for a NAK: all packets that this agent receives are freed. -/
def recv (pkt : ℕ) (hp : Hdr) (iface sport : ℤ) : Option (Sender × List Handed) :=
  (s.handleNak cfg now hp iface sport).map (fun r => ({ r.1 with pool := r.1.pool.release pkt }, r.2))

/-- The list of sent retransmissions. -/
def noteReply (seqno : ℤ) : Sender :=
  match s.reply.findIdx? (·.1 = seqno) with
  | some i =>
    let reply := s.reply.modify i (fun r => (r.1, r.2 + 1))
    let n := (reply[i]?.map (·.2)).getD 0
    { s with reply := reply, maxNumRepeatedRdata := max s.maxNumRepeatedRdata n }
  | none =>
    let reply := if maxReplyListSize ≤ s.reply.length then s.reply.tail else s.reply
    { s with reply := reply ++ [(seqno, 0)] }

/-- A loop of `send_rdata`: the first of the list gets the packet, the others get copies. -/
def hand (pkt : ℕ) : Pool PktBits → Bool → List Target → Pool PktBits × List Handed
  | p, _, [] => (p, [])
  | p, flag, tgt :: tgts =>
    let (p, a) := if flag then p.copy pkt else (p, pkt)
    let rest := hand pkt (tgt.take p a) true tgts
    (rest.1, ⟨tgt, a, p.bits a⟩ :: rest.2)

def sendRdata (item : RdataItem) : Sender × List Handed :=
  let s := s.noteReply item.seqno
  let (pool, links) := hand item.rdataPkt s.pool false (item.ifaceList.map .iface)
  let (pool, agents) := hand item.rdataPkt pool false (item.agentList.map .agent)
  -- the number to erase is read from the packet
  ({ s with
      pool := pool
      numRdataSent := s.numRdataSent + 1
      pendingRdata := s.pendingRdata.erase (pool.bits item.rdataPkt).seqno },
    links ++ agents)

/-- The timer of a repair expires. -/
def expire (seqno : ℤ) : Option (Sender × List Handed) :=
  (s.pendingRdata.find? seqno).map (fun item =>
    let item := { item with rdataTimer := none }
    { s with pendingRdata := s.pendingRdata.set seqno item }.sendRdata item)

def step (e : ℚ × SenderEvent) : Option (Sender × List Handed) :=
  match e.2 with
  | .nak pkt hp iface sport => s.recv cfg e.1 pkt hp iface sport
  | .expire seqno => s.expire seqno
  | .alloc => some ({ s with pool := s.pool.alloc.1 }, [])
  | .free pkt => some ({ s with pool := s.pool.release pkt }, [])

end Sender

end NetSim.Pgm
