import NetSim.Queue.Sfq

/-! # Deficit round robin

`DRR` keeps one queue for each bucket of a hash and a circle of the buckets that are not empty. `deque`
serves the bucket at `curr`: once a turn it adds the quantum to its deficit counter, and it sends
packets as long as the counter suffices; then the turn goes to the next bucket.

The hash is computed in 32 bits as that of `SFQ` is, and may be negative: an arrival whose index is not
one of the buckets is not modelled any further.
-/

namespace NetSim

open Function

structure DrrPacket where
  saddr : BitVec 32
  size : ℕ
deriving DecidableEq

/-- `PacketDRR`; the links `prev` and `next` are kept by the scheduler. -/
structure PacketDRR where
  queue : List DrrPacket
  pkts : ℕ
  src : ℤ
  bcount : ℕ
  deficitCounter : ℕ
  turn : Bool

structure Drr where
  buckets : ℕ
  blimit : ℤ
  quantum : ℕ
  mask : Bool
  bytecnt : ℕ
  pktcnt : ℕ
  flwcnt : ℕ
  curr : Option ℕ
  drr : ℕ → PacketDRR
  prev : ℕ → ℕ
  next : ℕ → ℕ

namespace Drr

def init (buckets : ℕ) (blimit : ℤ) (quantum : ℕ) (mask : Bool) : Drr where
  buckets := buckets
  blimit := blimit
  quantum := quantum
  mask := mask
  bytecnt := 0
  pktcnt := 0
  flwcnt := 0
  curr := none
  drr := fun _ =>
    { queue := [], pkts := 0, src := -1, bcount := 0, deficitCounter := 0, turn := false }
  prev := fun _ => 0
  next := fun _ => 0

/-- The part of the source address that `DRR::hash` looks at. -/
def hashed (mask : Bool) (saddr : BitVec 32) : BitVec 32 := if mask then saddr &&& 0xfff0 else saddr

def hash (s : Drr) (saddr : BitVec 32) : ℤ :=
  (mixAddress (hashed s.mask saddr)).tmod ((2 : ℤ) <<< 23 - 1) + 1

def index (s : Drr) (saddr : BitVec 32) : ℤ := (s.hash saddr).tmod s.buckets

/-- The bucket of a packet, when its index is in range. -/
def which (s : Drr) (p : DrrPacket) : ℕ := (s.index p.saddr).toNat

def set (s : Drr) (q : ℕ) (b : PacketDRR) : Drr := { s with drr := update s.drr q b }

/-- `PacketDRR::activate`, with the head `curr`, to which the result is assigned. -/
def activate (s : Drr) (q : ℕ) : Drr :=
  match s.curr with
  | some head =>
    let prev := update s.prev q (s.prev head)
    let next := update s.next q head
    let next := update next (prev head) q
    let prev := update prev head q
    { s with prev, next }
  | none =>
    { s with prev := update s.prev q q, next := update s.next q q, curr := some q }

/-- `PacketDRR::idle`, with the head `head`; the result is assigned to `curr`. -/
def idle (s : Drr) (q head : ℕ) : Drr :=
  if head = q then
    if s.next q = q then { s with curr := none }
    else
      let prev := update s.prev (s.next q) (s.prev q)
      let next := update s.next (prev q) (s.next q)
      { s with prev, next, curr := some (next q) }
  else
    let prev := update s.prev (s.next q) (s.prev q)
    let next := update s.next (prev q) (s.next q)
    { s with prev, next, curr := some head }

def maxflowLoop (s : Drr) : ℕ → ℕ → ℕ → ℕ
  | 0, _, maxflow => maxflow
  | i + 1, tmp, maxflow =>
    maxflowLoop s i (s.next tmp)
      (if (s.drr maxflow).bcount < (s.drr tmp).bcount then tmp else maxflow)

def getMaxflow (s : Drr) (curr : ℕ) : ℕ := maxflowLoop s s.flwcnt curr curr

/-- The loop of `enque` that drops packets over the limit; every round drops one. -/
def dropLoop : ℕ → Drr → List DrrPacket → Option (Drr × List DrrPacket)
  | 0, _, _ => none
  | fuel + 1, s, dropped =>
    if s.blimit < s.bytecnt then
      s.curr.bind (fun curr =>
        let remq := s.getMaxflow curr
        let b := s.drr remq
        match b.queue with
        | [] => none
        | p :: rest =>
          let b := { b with queue := rest, bcount := b.bcount - p.size, pkts := b.pkts - 1 }
          let s := { s.set remq b with bytecnt := s.bytecnt - p.size, pktcnt := s.pktcnt - 1 }
          let s := if b.pkts = 0 then { s.idle remq curr with flwcnt := s.flwcnt - 1 } else s
          dropLoop fuel s (dropped ++ [p]))
    else some (s, dropped)

/-- `enque` up to the check of the limit. -/
def accept (s : Drr) (pkt : DrrPacket) : Drr :=
  let q := s.which pkt
  let b := s.drr q
  let b :=
    { b with
      src := if b.src = -1 then (hashed s.mask pkt.saddr).toInt else b.src
      queue := b.queue ++ [pkt]
      pkts := b.pkts + 1
      bcount := b.bcount + pkt.size }
  let s := { s.set q b with pktcnt := s.pktcnt + 1, bytecnt := s.bytecnt + pkt.size }
  if b.pkts = 1 then
    { (s.activate q).set q { b with deficitCounter := 0 } with flwcnt := s.flwcnt + 1 }
  else s

def enque (s : Drr) (pkt : DrrPacket) : Option (Drr × List DrrPacket) :=
  if InRange s.buckets (s.index pkt.saddr) then dropLoop (s.pktcnt + 2) (s.accept pkt) [] else none

/-- The beginning of a turn at `c`: the quantum, unless the turn began in an earlier call. -/
def grant (s : Drr) (c : ℕ) : Drr :=
  let b := s.drr c
  if b.turn then s
  else s.set c { b with deficitCounter := b.deficitCounter + s.quantum, turn := true }

/-- The first packet `p` of bucket `c` leaves, `rest` stays. -/
def send (s : Drr) (c : ℕ) (p : DrrPacket) (rest : List DrrPacket) : Drr :=
  let b := s.drr c
  let b :=
    { b with
      deficitCounter := b.deficitCounter - p.size
      queue := rest
      bcount := b.bcount - p.size
      pkts := b.pkts - 1 }
  let s := { s.set c b with pktcnt := s.pktcnt - 1, bytecnt := s.bytecnt - p.size }
  if b.pkts = 0 then
    { s.set c { b with turn := false, deficitCounter := 0 } with flwcnt := s.flwcnt - 1 }.idle c c
  else s

/-- The end of the turn of `c`. -/
def pass (s : Drr) (c : ℕ) : Drr :=
  { s.set c { s.drr c with turn := false } with curr := some (s.next c) }

/-- The loop of `deque`. `none` stands for a null pointer that is followed, or for running out of the
bound on the rounds. -/
def dequeLoop : ℕ → Drr → Option (Drr × DrrPacket)
  | 0, _ => none
  | fuel + 1, s =>
    s.curr.bind (fun c =>
      let s := s.grant c
      match (s.drr c).queue with
      | [] => none
      | p :: rest =>
        if p.size ≤ (s.drr c).deficitCounter then some (s.send c p rest, p)
        else dequeLoop fuel (s.pass c))

/-- `DRR::deque`. Every round but the first adds to the deficit of a flow that is smaller than its
first packet, so the bound is not reached. -/
def deque (s : Drr) : Option (Drr × Option DrrPacket) :=
  if s.bytecnt = 0 then some (s, none)
  else (dequeLoop (s.flwcnt * s.bytecnt + 2) s).map (fun r => (r.1, some r.2))

inductive Event
  | enque (pkt : DrrPacket)
  | deque

inductive Outcome
  | dropped (pkts : List DrrPacket)
  | sent (pkt : Option DrrPacket)

def step (s : Drr) : Event → Option (Drr × Outcome)
  | .enque pkt => (s.enque pkt).map (fun r => (r.1, .dropped r.2))
  | .deque => s.deque.map (fun r => (r.1, .sent r.2))

end Drr

end NetSim
