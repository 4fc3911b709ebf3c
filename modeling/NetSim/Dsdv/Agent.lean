import Mathlib.Algebra.Order.Field.Rat
import Mathlib.Data.List.Basic

/-! # The DSDV agent

A `DSDV_Agent` (`dsdv/dsdv.cc`) keeps for every destination that it heard of the next hop, the metric and
the newest sequence number, advertises them to its neighbours, and queues data packets for destinations
without a route. Updates may be sent at any time here, so the timers of triggered updates are not modelled.
-/

namespace NetSim.Dsdv

def big : ℕ := 250

def maxQueueLength : ℕ := 5

def ipDefTtl : ℤ := 32

structure DataPacket where
  src : ℕ
  dst : ℕ
  ttl : ℤ
  numForwards : ℕ
deriving DecidableEq

/-- `rtable_ent`, with the packets of its queue, and whether it has a timeout event. -/
structure RtableEnt where
  dst : ℕ
  hop : ℕ
  metric : ℕ
  seqnum : ℕ
  advertiseOkAt : ℚ
  advertSeqnum : Bool
  advertMetric : Bool
  lastAdvertisedMetric : ℕ
  changedAt : ℚ
  newSeqnumAt : ℚ
  wst : ℚ
  timeoutEvent : Bool
  q : Option (List DataPacket)
deriving DecidableEq

/-- An entry after `bzero`. -/
def RtableEnt.zero : RtableEnt where
  dst := 0
  hop := 0
  metric := 0
  seqnum := 0
  advertiseOkAt := 0
  advertSeqnum := false
  advertMetric := false
  lastAdvertisedMetric := 0
  changedAt := 0
  newSeqnumAt := 0
  wst := 0
  timeoutEvent := false
  q := none

abbrev RoutingTable := List RtableEnt

namespace RoutingTable

def getEntry (t : RoutingTable) (dst : ℕ) : Option RtableEnt := t.find? (·.dst = dst)

def insert (ent : RtableEnt) : RoutingTable → RoutingTable
  | [] => [ent]
  | e :: t => if ent.dst < e.dst then ent :: e :: t else e :: insert ent t

def modify (t : RoutingTable) (dst : ℕ) (f : RtableEnt → RtableEnt) : RoutingTable :=
  t.map (fun e => if e.dst = dst then f e else e)

def addEntry (t : RoutingTable) (ent : RtableEnt) : RoutingTable :=
  if (t.getEntry ent.dst).isSome then t.modify ent.dst (fun _ => ent) else insert ent t

end RoutingTable

/-- A route in an update packet. -/
structure Advert where
  dst : ℕ
  metric : ℕ
  seqnum : ℕ
deriving DecidableEq

/-- `DSDV_Agent`, with the update packets that it sent and the data packets that it sent on, each with its
next hop. -/
structure Agent where
  myaddr : ℕ
  seqno : ℕ
  useMac : Bool
  diffSubnet : ℕ → Bool
  baseStn : ℕ
  alpha : ℚ
  wst0 : ℚ
  table : RoutingTable
  updates : List (List Advert)
  forwarded : List (DataPacket × ℕ)

namespace Agent

/-- The entry that `startUp` adds. -/
def ownEnt (myaddr : ℕ) (now : ℚ) : RtableEnt :=
  { RtableEnt.zero with
    dst := myaddr
    hop := myaddr
    advertSeqnum := true
    advertMetric := true
    changedAt := now
    newSeqnumAt := now }

def startUp (myaddr : ℕ) (now : ℚ) (useMac : Bool) (diffSubnet : ℕ → Bool) (baseStn : ℕ)
    (alpha wst0 : ℚ) : Agent where
  myaddr := myaddr
  seqno := 2
  useMac := useMac
  diffSubnet := diffSubnet
  baseStn := baseStn
  alpha := alpha
  wst0 := wst0
  table := [ownEnt myaddr now]
  updates := []
  forwarded := []

/-! ## Updates are sent -/

/-- The own entry in a periodic update. -/
def freshEnt (n : Agent) (now : ℚ) : RtableEnt :=
  { RtableEnt.zero with
    dst := n.myaddr
    hop := n.myaddr
    seqnum := n.seqno
    advertSeqnum := true
    changedAt := now
    newSeqnumAt := now }

/-- An entry with news that may be advertised. -/
def changed (now : ℚ) (e : RtableEnt) : Bool :=
  (e.advertSeqnum || e.advertMetric) && e.advertiseOkAt ≤ now

def goes (now : ℚ) (periodic : Bool) (e : RtableEnt) : Bool :=
  if periodic then e.advertiseOkAt ≤ now else changed now e

def advertised (now : ℚ) (periodic : Bool) (e : RtableEnt) : RtableEnt :=
  if goes now periodic e then
    { e with
      lastAdvertisedMetric := e.metric
      advertSeqnum := false
      advertMetric := if periodic then false else e.advertMetric }
  else e

/-- The entries are written into an update packet. -/
def advertise (n : Agent) (now : ℚ) (periodic : Bool) : Agent :=
  { n with
    table := n.table.map (advertised now periodic)
    updates := n.updates ++
      [(n.table.filter (goes now periodic)).map (fun e => ⟨e.dst, e.metric, e.seqnum⟩)] }

/-- The new sequence number of a periodic update. -/
def renew (n : Agent) (now : ℚ) : Agent :=
  let n := { n with seqno := n.seqno + 2 }
  { n with table := n.table.addEntry (n.freshEnt now) }

/-- `DSDV_Agent::makeUpdate`, and the packet is sent. -/
def makeUpdate (n : Agent) (now : ℚ) (periodic : Bool) : Agent :=
  let changeCount := n.table.countP (changed now)
  let rtblSz := n.table.length
  let unadvertiseable := n.table.countP (fun e => now < e.advertiseOkAt)
  if periodic || (rtblSz < changeCount * 3 && 3 < changeCount) then
    let n := n.renew now
    if rtblSz - unadvertiseable = 0 then n else n.advertise now true
  else if changeCount = 0 then n else n.advertise now false

/-! ## Data packets -/

def route (n : Agent) (dst : ℕ) : Option RtableEnt :=
  (n.table.getEntry dst).filter (·.metric ≠ big)

def send (n : Agent) (p : DataPacket) (dst : ℕ) (prte : RtableEnt) : Agent :=
  { n with forwarded := n.forwarded ++ [(p, if 1 < prte.metric then prte.hop else dst)] }

def enque (p : DataPacket) (prte : RtableEnt) : RtableEnt :=
  let q := prte.q.getD [] ++ [p]
  { prte with q := some (q.drop (q.length - maxQueueLength)) }

def newEnt (n : Agent) (now : ℚ) (p : DataPacket) : RtableEnt :=
  { RtableEnt.zero with
    dst := p.dst
    hop := p.dst
    metric := big
    advertiseOkAt := now + 604800
    changedAt := now
    newSeqnumAt := now
    wst := n.wst0
    q := some [p] }

def forwardPacket (n : Agent) (now : ℚ) (p : DataPacket) : Agent :=
  match n.route p.dst with
  | some prte => n.send p p.dst prte
  | none =>
    if n.diffSubnet p.dst then
      match n.route n.baseStn with
      | some prte => n.send p n.baseStn prte
      | none => n
    else if (n.table.getEntry p.dst).isSome then
      { n with table := n.table.modify p.dst (enque p) }
    else { n with table := n.table.addEntry (n.newEnt now p) }

/-- `DSDV_Agent::recv`, for a data packet. -/
def recv (n : Agent) (now : ℚ) (p : DataPacket) : Agent :=
  if p.src = n.myaddr then
    if p.numForwards = 0 then n.forwardPacket now { p with ttl := ipDefTtl } else n
  else if p.ttl - 1 = 0 then n
  else n.forwardPacket now { p with ttl := p.ttl - 1 }

/-- The loop over the queue of a destination: each packet is received again. It may put the packet into
the same queue, so the loop may not end. -/
def flush (now : ℚ) (dst : ℕ) : ℕ → Agent → Option Agent
  | 0, _ => none
  | fuel + 1, n =>
    match (n.table.getEntry dst).bind (·.q) with
    | some (p :: q) =>
      flush now dst fuel
        (({ n with table := n.table.modify dst (fun e => { e with q := some q }) }).recv now p)
    | _ => some n

/-- More rounds than the loop makes, if it ends. -/
def rounds (q : List DataPacket) : ℕ := (q.map (fun p => p.ttl.toNat + 1)).sum + 1

/-! ## Updates are received -/

/-- The candidate for the table: `rte` after the meta data were filled in. -/
def candidate (n : Agent) (now : ℚ) (src : ℕ) (a : Advert) : RtableEnt :=
  let prte := n.table.getEntry a.dst
  let rte := prte.getD RtableEnt.zero
  let metric := if a.metric ≠ big then a.metric + 1 else a.metric
  let wst :=
    match prte with
    | none => n.wst0
    | some e =>
      if e.seqnum = a.seqnum then e.wst
      else n.alpha * e.wst + (1 - n.alpha) * (e.changedAt - e.newSeqnumAt)
  { rte with
    dst := a.dst
    hop := src
    metric := metric
    seqnum := a.seqnum
    changedAt := now
    wst := wst
    newSeqnumAt :=
      match prte with
      | none => now
      | some e => if e.seqnum = a.seqnum then e.newSeqnumAt else now
    advertiseOkAt :=
      if metric ≠ big ∧ (prte.map (·.metric)) ≠ some big then now + wst * 2 else now }

/-- The decision whether the table takes the candidate, and the candidate with its flags. -/
def decideRoute (n : Agent) (now : ℚ) (rte : RtableEnt) : Agent × RtableEnt :=
  let take (rte : RtableEnt) : Agent × RtableEnt := ({ n with table := n.table.addEntry rte }, rte)
  match n.table.getEntry rte.dst with
  | none => take (if rte.metric < big then { rte with advertMetric := true } else rte)
  | some prte =>
    if prte.seqnum = rte.seqnum then
      if rte.metric < prte.metric then
        take { rte with advertMetric := decide (rte.metric ≠ prte.lastAdvertisedMetric) }
      else (n, rte)
    else if prte.seqnum < rte.seqnum then
      take
        { rte with
          advertSeqnum := true
          advertMetric := decide (rte.metric ≠ prte.lastAdvertisedMetric) }
    else if rte.metric = big ∧ prte.metric ≠ big then
      ({ n with
          table := n.table.modify rte.dst
            (fun e => { e with advertiseOkAt := now, advertMetric := true }) }, rte)
    else (n, rte)

/-- The part of `processUpdate` for one destination. -/
def processAdvert (n : Agent) (now : ℚ) (src : ℕ) (a : Advert) : Option Agent :=
  if a.dst = n.myaddr then some n
  else
    let r := n.decideRoute now (n.candidate now src a)
    match r.2.q with
    | none => some r.1
    | some q =>
      if r.2.metric ≠ big then
        (flush now a.dst (rounds q) r.1).map (fun n =>
          -- the candidate is written back, whatever was decided
          { n with table := n.table.addEntry { r.2 with q := none } })
      else some r.1

/-- The loop of `processUpdate`. -/
def processAdverts (now : ℚ) (src : ℕ) : List Advert → Agent → Option Agent
  | [], n => some n
  | a :: adverts, n => (n.processAdvert now src a).bind (processAdverts now src adverts)

/-- The entry of a neighbour that did not advertise itself. -/
def fakeEnt (n : Agent) (now : ℚ) (src : ℕ) : RtableEnt :=
  { RtableEnt.zero with
    dst := src
    hop := src
    metric := 1
    advertiseOkAt := now + 604800
    changedAt := now
    newSeqnumAt := now
    wst := n.wst0
    timeoutEvent := true }

/-- The end of `processUpdate`: the timeout of the neighbour. -/
def keepNeighbor (n : Agent) (now : ℚ) (src : ℕ) : Agent :=
  if (n.table.getEntry src).isSome then
    { n with table := n.table.modify src (fun e => { e with timeoutEvent := true }) }
  else { n with table := n.table.addEntry (n.fakeEnt now src) }

/-- `DSDV_Agent::processUpdate`. The packet holds the number of its routes in a byte. -/
def processUpdate (n : Agent) (now : ℚ) (src : ℕ) (adverts : List Advert) : Option Agent :=
  (processAdverts now src (adverts.take (adverts.length % 256)) n).map (·.keepNeighbor now src)

/-! ## Neighbours are lost -/

/-- An entry whose next hop is lost. -/
def lose (now : ℚ) (hop : ℕ) (e : RtableEnt) : RtableEnt :=
  if e.hop = hop ∧ e.metric ≠ big then
    { e with
      metric := big
      advertiseOkAt := now
      advertMetric := true
      advertSeqnum := true
      seqnum := e.seqnum + 1 }
  else e

/-- `DSDV_Agent::helper_callback`, for the timeout event of a neighbour. -/
def helperCallback (n : Agent) (now : ℚ) (hop : ℕ) : Agent :=
  let table : RoutingTable := n.table.map (lose now hop)
  { n with table := table.modify hop (fun e => { e with timeoutEvent := false }) }

/-- `DSDV_Agent::lost_link`, for a packet to the next hop `hop`. -/
def lostLink (n : Agent) (now : ℚ) (p : DataPacket) (hop : ℕ) : Agent :=
  match n.useMac, n.table.getEntry hop with
  | true, some prte =>
    if prte.timeoutEvent ∨ prte.metric ≠ big then (n.helperCallback now hop).recv now p
    else n.recv now p
  | _, _ => n

end Agent

end NetSim.Dsdv
