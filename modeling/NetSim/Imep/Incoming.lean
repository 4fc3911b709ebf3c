import Mathlib.Algebra.Order.Field.Rat
import Mathlib.Logic.Function.Basic

/-! # IMEP: objects that arrive

An `imepAgent` (`imep/imep.cc`) hands the object packets of a neighbour up in the order of their 8-bit
sequence numbers, and keeps those that come too early in a resequencing queue (`imep/dest_queue.cc`),
one list a neighbour. A timer gives up on a hole. A packet has the number that its sender gave it, of
which the object block has the lowest 8 bits. The result is `none` where an assertion fails.
-/

namespace NetSim.Imep

structure Packet where
  saddr : ℕ
  number : ℕ
deriving DecidableEq

def Packet.obSequence (p : Packet) : ℕ := p.number % 256

def toInt8 (x : ℤ) : ℤ := x.bmod 256

structure Txent where
  expire : ℚ
  seqno : ℕ
  pkt : Packet
deriving DecidableEq

def illegalSeq : ℕ := 257

structure Dstent where
  ipaddr : ℕ
  txents : List Txent
  seqno : ℕ
deriving DecidableEq

def maxRetransTime : ℚ := 3 / 2

/-- The part of an `imepAgent` that handles incoming objects: `last_seq_` of the links, the resequencing
queue, and the packets that were passed to `imep_object_process`, the last one first. -/
structure Agent where
  lastSeq : ℕ → Option ℕ
  incomingQ : List Dstent
  processed : List Packet

/-! ## `dest_queue.cc` -/

def seqGt (a b : ℕ) : Bool := 0 < toInt8 (toInt8 a - toInt8 b)

def insertEntry (t : Txent) : List Txent → List Txent
  | [] => [t]
  | u :: us => if seqGt u.seqno t.seqno then t :: u :: us else u :: insertEntry t us

namespace Dstent

def findEntry (d : Dstent) (s : ℕ) : Option Txent := d.txents.find? (·.seqno = s)

def addEntry (d : Dstent) (t : Txent) : Dstent :=
  if (d.findEntry t.seqno).isSome then d else { d with txents := insertEntry t d.txents }

def expire (d : Dstent) : ℚ :=
  d.txents.foldl
    (fun min t => if min = 0 ∨ (t.expire ≠ 0 ∧ t.expire < min) then t.expire else min) 0

/-- The round of the loop of `dstQueue::getNextPacket` for one destination: the entry it returns, if
any. -/
def pull (now : ℚ) (d : Dstent) : Option (Dstent × Option Txent) :=
  match d.txents with
  | [] => some ({ d with seqno := illegalSeq }, none)
  | t :: ts =>
    if d.expire = 0 then none
    else if now < d.expire ∧ d.seqno = illegalSeq then some (d, none)
    else if t.expire ≤ now then some ({ d with seqno := t.seqno, txents := ts }, some t)
    else if d.seqno = illegalSeq then some ({ d with txents := ts }, some t)
    else if t.seqno ≠ (d.seqno + 1) % 256 then some ({ d with seqno := illegalSeq }, none)
    else some ({ d with seqno := t.seqno, txents := ts }, some t)

end Dstent

/-- Apply `f` to the entry of a destination. -/
def updateDst (dst : ℕ) (f : Dstent → Dstent) : List Dstent → List Dstent
  | [] => []
  | d :: ds => if d.ipaddr = dst then f d :: ds else d :: updateDst dst f ds

def addEntry (q : List Dstent) (dst : ℕ) (t : Txent) : List Dstent :=
  if (q.find? (·.ipaddr = dst)).isSome then updateDst dst (·.addEntry t) q
  else ({ ipaddr := dst, txents := [], seqno := illegalSeq } : Dstent).addEntry t :: q

def getPacket (q : List Dstent) (dst s : ℕ) : Option (Packet × List Dstent) :=
  (q.find? (·.ipaddr = dst)).bind (fun d =>
    (d.findEntry s).map (fun t =>
      (t.pkt, updateDst dst (fun d => { d with txents := d.txents.eraseP (·.seqno = s) }) q)))

/-- `dstQueue::getNextPacket`: the destination and the entry it returns, if any. -/
def getNextPacket (now : ℚ) : List Dstent → Option (List Dstent × Option (ℕ × Txent))
  | [] => some ([], none)
  | d :: ds =>
    (d.pull now).bind (fun r =>
      match r.2 with
      | some t => some (r.1 :: ds, some (d.ipaddr, t))
      | none => (getNextPacket now ds).map (fun rest => (r.1 :: rest.1, rest.2)))

def getNextExpire (q : List Dstent) : ℚ :=
  q.foldl (fun min d => if min = 0 ∨ (d.expire ≠ 0 ∧ d.expire < min) then d.expire else min) 0

def entries (q : List Dstent) : ℕ := (q.map (·.txents.length)).sum

/-! ## `imep.cc` -/

namespace Agent

/-- Pass a packet up and advance `last_seq_` of its sender. -/
def deliver (a : Agent) (src : ℕ) (p : Packet) (seq : ℕ) : Agent :=
  { a with lastSeq := Function.update a.lastSeq src (some seq), processed := p :: a.processed }

/-- The loop that delivers as many packets in sequence as possible; `lastSeq() + 1` is an `int`. -/
def chain (src : ℕ) : ℕ → Agent → Option Agent
  | 0, _ => none
  | fuel + 1, a =>
    (a.lastSeq src).bind (fun last =>
      match getPacket a.incomingQ src (last + 1) with
      | none => some a
      | some (p, q) => chain src fuel (({ a with incomingQ := q }).deliver src p ((last + 1) % 256)))

def scheduleIncoming (a : Agent) (now : ℚ) (p : Packet) : Agent :=
  { a with
    incomingQ := addEntry a.incomingQ p.saddr ⟨now + maxRetransTime, p.obSequence, p⟩ }

/-- `imep_object_input`. `lastSeqValid()` returns a reference to `last_seq_`. -/
def objectInput (a : Agent) (now : ℚ) (p : Packet) : Option Agent :=
  (a.lastSeq p.saddr).bind (fun last =>
    let last := if last = 0 then (p.obSequence + 255) % 256 else last
    let a := { a with lastSeq := Function.update a.lastSeq p.saddr (some last) }
    let reg := toInt8 (toInt8 p.obSequence - toInt8 last)
    if reg ≤ 0 then some a
    else
      let a := if reg = 1 then a.deliver p.saddr p p.obSequence else a.scheduleIncoming now p
      chain p.saddr (entries a.incomingQ + 1) a)

/-- The loop of `handlerIncomingTimer`. -/
def retire (now : ℚ) : ℕ → Agent → Option Agent
  | 0, _ => none
  | fuel + 1, a =>
    (getNextPacket now a.incomingQ).bind (fun r =>
      match r.2 with
      | none => some { a with incomingQ := r.1 }
      | some (src, t) =>
        if (a.lastSeq src).isNone then none
        else
          (chain src (entries r.1 + 1)
            (({ a with incomingQ := r.1 }).deliver src t.pkt t.seqno)).bind (retire now fuel))

def handlerIncomingTimer (a : Agent) (now : ℚ) : Option Agent :=
  (retire now (entries a.incomingQ + 1) a).bind (fun a =>
    let expire := getNextExpire a.incomingQ
    if expire ≠ 0 ∧ expire ≤ now then none else some a)

/-- The effect of `imepSetLinkInStatus` on a link that was down. -/
def linkIn (a : Agent) (index : ℕ) : Agent :=
  { a with lastSeq := Function.update a.lastSeq index (some 0) }

/-- The effect of `imepSetLinkDownStatus` on the resequencing queue. -/
def linkDown (a : Agent) (index : ℕ) : Agent :=
  { a with incomingQ := a.incomingQ.eraseP (·.ipaddr = index) }

end Agent

inductive Event
  | object (now : ℚ) (p : Packet)
  | incomingTimer (now : ℚ)
  | linkIn (index : ℕ)
  | linkDown (index : ℕ)

def step (a : Agent) : Event → Option (Agent × Unit)
  | .object now p => (a.objectInput now p).map (·, ())
  | .incomingTimer now => (a.handlerIncomingTimer now).map (·, ())
  | .linkIn index => some (a.linkIn index, ())
  | .linkDown index => some (a.linkDown index, ())

end NetSim.Imep
