import Mathlib.Algebra.Order.Field.Rat
import NetSim.Lib.ByteMemory
import NetSim.Lib.OrderedMap

/-! # The update packets of a DSDV agent

`DSDV_Agent` (`dsdv/dsdv.cc`) again, with what `Dsdv/Agent.lean` leaves out: the update packets as bytes, with
destinations and sequence numbers of 32 bits. An `Event` that a table entry points to is a number. A failed
assertion has the result `none`.
-/

namespace NetSim.DsdvNode

open List ByteMemory

/-- `nsaddr_t`; the routing table is in its signed order. -/
def NsAddr : Type := BitVec 32

instance : LinearOrder NsAddr :=
  LinearOrder.lift' (fun a : BitVec 32 => a.toInt) (fun _ _ h => BitVec.eq_of_toInt_eq h)

def big : ℕ := 250

/-- A data packet; `uid` tells it from the others. -/
structure DataPacket where
  uid : ℕ
  src : NsAddr
  dst : NsAddr
  ttl : ℤ
  numForwards : ℕ
deriving DecidableEq

structure RtableEnt where
  hop : NsAddr
  metric : ℕ
  seqnum : BitVec 32
  advertiseOkAt : ℚ
  advertSeqnum : Bool
  advertMetric : Bool
  triggerEvent : Option ℕ
  lastAdvertisedMetric : ℕ
  changedAt : ℚ
  newSeqnumAt : ℚ
  wst : ℚ
  timeoutEvent : Bool
  q : Option (List DataPacket)
deriving DecidableEq

/-- An entry after `bzero`. -/
def RtableEnt.zero : RtableEnt where
  hop := (0 : BitVec 32)
  metric := 0
  seqnum := 0
  advertiseOkAt := 0
  advertSeqnum := false
  advertMetric := false
  triggerEvent := none
  lastAdvertisedMetric := 0
  changedAt := 0
  newSeqnumAt := 0
  wst := 0
  timeoutEvent := false
  q := none

abbrev RoutingTable := OrderedMap NsAddr RtableEnt

def RoutingTable.addEntry (t : RoutingTable) (dst : NsAddr) (ent : RtableEnt) : Option RoutingTable :=
  if ent.metric ≤ big then some (t.set dst ent) else none

/-- A route in an update packet. -/
structure Advert where
  dst : NsAddr
  metric : ℕ
  seqnum : BitVec 32
deriving DecidableEq

/-- The address and the bound variables of an agent, and its place in the network. -/
structure DsdvConfig where
  myaddr : NsAddr
  useMac : Bool
  diffSubnet : NsAddr → Bool
  baseStn : NsAddr
  alpha : ℚ
  wst0 : ℚ
  alpha_nonneg : 0 ≤ alpha
  alpha_le_one : alpha ≤ 1
  wst0_nonneg : 0 ≤ wst0

/-- `DSDV_Agent`; `made` is the number of trigger events that were made. -/
structure DsdvAgent where
  seqno : BitVec 32
  table : RoutingTable
  lasttup : ℚ
  triggers : List (ℕ × ℚ)
  made : ℕ

namespace DsdvAgent

variable (cfg : DsdvConfig) (n : DsdvAgent) (now : ℚ)

/-- The entry that `startUp` adds. -/
def ownEnt : RtableEnt :=
  { RtableEnt.zero with
    hop := cfg.myaddr
    advertSeqnum := true
    advertMetric := true
    changedAt := now
    newSeqnumAt := now }

def startUp : DsdvAgent where
  seqno := 2
  table := OrderedMap.empty.set cfg.myaddr (ownEnt cfg now)
  lasttup := -10
  triggers := []
  made := 0

/-! ## Updates are sent -/

/-- The own entry in a periodic update. -/
def freshEnt : RtableEnt :=
  { RtableEnt.zero with
    hop := cfg.myaddr
    seqnum := n.seqno
    advertSeqnum := true
    changedAt := now
    newSeqnumAt := now }

/-- An entry with news that may be advertised. -/
def changed (e : RtableEnt) : Bool := (e.advertSeqnum || e.advertMetric) && e.advertiseOkAt ≤ now

def goes (periodic : Bool) (e : RtableEnt) : Bool := if periodic then e.advertiseOkAt ≤ now else changed now e

def advertised (periodic : Bool) (e : RtableEnt) : RtableEnt :=
  if goes now periodic e then
    { e with
      lastAdvertisedMetric := e.metric
      advertSeqnum := false
      advertMetric := if periodic then false else e.advertMetric }
  else e

def renew : Option DsdvAgent :=
  let n := { n with seqno := n.seqno + 2 }
  (n.table.addEntry cfg.myaddr (n.freshEnt cfg now)).map (fun table => { n with table := table })

def changeCount : ℕ := n.table.entries.countP (fun x => changed now x.2)

def muchChanged : Bool := n.table.size < n.changeCount now * 3 && 3 < n.changeCount now

/-- The bytes of an entry, the highest byte of a number first. -/
def entBytes (dst : NsAddr) (e : RtableEnt) : List Byte :=
  (wordBytes 4 dst).reverse ++ [BitVec.ofNat 8 e.metric] ++ (wordBytes 4 e.seqnum).reverse

/-- The loop that writes the entries at `walk`, and counts down. -/
def writeEnts (periodic : Bool) : List (NsAddr × RtableEnt) → Memory → ℤ → ℤ → Option (Memory × ℤ)
  | [], data, _, changeCount => some (data, changeCount)
  | x :: xs, data, walk, changeCount =>
    if goes now periodic x.2 then
      (data.store walk (entBytes x.1 x.2)).bind
        (fun data => writeEnts periodic xs data (walk + 9) (changeCount - 1))
    else writeEnts periodic xs data walk changeCount

/-- `DSDV_Agent::makeUpdate`: the agent, whether the update is periodic, and its data, which lie in `fresh`
memory. The number of entries is written into one byte. -/
def makeUpdate (periodic : Bool) (fresh : ℤ → Byte) : Option (DsdvAgent × Bool × Option Memory) :=
  let rtblSz : ℤ := n.table.size
  let unadvertiseable : ℤ := n.table.entries.countP (fun x => now < x.2.advertiseOkAt)
  let periodic := periodic || n.muchChanged now
  let changeCount : ℤ := if periodic then rtblSz - unadvertiseable else n.changeCount now
  (if periodic then n.renew cfg now else some n).bind (fun n =>
    if changeCount = 0 then some (n, periodic, none)
    else
      (Memory.store ⟨(changeCount * 9 + 1).toNat, fresh⟩ 0 [BitVec.ofInt 8 changeCount]).bind (fun data =>
        (writeEnts now periodic n.table.entries data 1 changeCount).bind (fun r =>
          if r.2 = 0 then
            some ({ n with table := n.table.mapVals (fun _ => advertised now periodic) }, periodic, some r.1)
          else none)))

/-! ## Updates are received -/

def advertOf (l : List Byte) : Advert :=
  ⟨word 4 (l.take 4).reverse, (l.getD 4 0).toNat, word 4 (l.drop 5).reverse⟩

/-- What the loop of `processUpdate` reads. -/
def readAdverts (data : Memory) : ℕ → ℤ → Option (List Advert)
  | 0, _ => some []
  | i + 1, w => (data.load w 9).bind (fun l => (readAdverts data i (w + 9)).map (advertOf l :: ·))

def decode (data : Memory) : Option (List Advert) :=
  (data.load 0 1).bind (fun l => readAdverts data (l.headD 0).toNat 1)

end DsdvAgent

end NetSim.DsdvNode
