import Mathlib.Algebra.Order.Floor.Defs
import Mathlib.Data.Rat.Floor

/-! # A node of AODV

The routing table of a node and the handlers of `AODV`. A handler answers with the node after the event,
or with `none` when an assertion fails. The packets that a node hands to `target_` are kept in `target`,
in order. The clock is an argument of the handlers, a rational number; sequence numbers do not wrap.
-/

namespace NetSim.Aodv

/-! ## Constants -/

abbrev infinity2 : ℕ := 0xff
abbrev myRouteTimeout : ℚ := 10
abbrev activeRouteTimeout : ℚ := 10
abbrev revRouteLife : ℚ := 6
abbrev bcastIdSave : ℚ := 6
abbrev rreqRetries : ℕ := 3
abbrev maxRreqTimeout : ℚ := 10
abbrev ttlStart : ℕ := 5
abbrev ttlThreshold : ℕ := 7
abbrev ttlIncrement : ℕ := 2
abbrev nodeTraversalTime : ℚ := 3 / 100
abbrev networkDiameter : ℕ := 30
abbrev maxHistory : ℕ := 3
abbrev helloInterval : ℚ := 1
abbrev allowedHelloLoss : ℚ := 3
abbrev aodvRtqMaxLen : ℕ := 64
abbrev aodvRtqTimeout : ℚ := 30

/-! ## Packets -/

structure Rreq where
  rqHopCount : ℕ
  rqBcastId : ℕ
  rqDst : ℕ
  rqDstSeqno : ℕ
  rqSrc : ℕ
  rqSrcSeqno : ℕ
  rqTimestamp : ℚ
deriving DecidableEq

structure Rrep where
  rpHopCount : ℕ
  rpDst : ℕ
  rpDstSeqno : ℕ
  rpSrc : ℕ
  rpLifetime : ℚ
  rpTimestamp : ℚ
deriving DecidableEq

/-- What a packet carries. An error lists the unreachable destinations with their sequence numbers. -/
inductive Body
  | data
  | rreq (rq : Rreq)
  | rrep (rp : Rrep)
  | rerr (unreachable : List (ℕ × ℕ))
  | hello (rpDst rpDstSeqno : ℕ)
deriving DecidableEq

/-- A packet. The destination `none` is the broadcast address; `up` tells that the packet is on its way
up the stack. -/
structure Packet where
  saddr : ℕ
  daddr : Option ℕ
  ttl : ℤ
  nextHop : ℕ
  numForwards : ℕ
  up : Bool
  body : Body
deriving DecidableEq

abbrev DataPacket := { p : Packet // p.body = .data }

def DataPacket.withTtl (p : DataPacket) (ttl : ℤ) : DataPacket := ⟨{ p.1 with ttl }, p.2⟩

/-! ## The routing table -/

/-- The state of a route. -/
inductive Flags
  | down
  | up
  | inRepair
deriving DecidableEq

structure RtEntry where
  rtDst : ℕ
  rtSeqno : ℕ
  rtHops : ℕ
  rtLastHopCount : ℕ
  rtNexthop : ℕ
  rtPclist : List ℕ
  rtExpire : ℚ
  rtFlags : Flags
  rtReqTimeout : ℚ
  rtReqCnt : ℕ
  rtDiscLatency : List ℚ
  histIndx : ℕ
  rtReqLastTtl : ℕ
deriving DecidableEq

namespace RtEntry

def new (id : ℕ) : RtEntry where
  rtDst := id
  rtSeqno := 0
  rtHops := infinity2
  rtLastHopCount := infinity2
  rtNexthop := 0
  rtPclist := []
  rtExpire := 0
  rtFlags := .down
  rtReqTimeout := 0
  rtReqCnt := 0
  rtDiscLatency := List.replicate maxHistory 0
  histIndx := 0
  rtReqLastTtl := 0

def pcInsert (rt : RtEntry) (id : ℕ) : RtEntry :=
  if id ∈ rt.rtPclist then rt else { rt with rtPclist := id :: rt.rtPclist }

def pcDelete (rt : RtEntry) (id : ℕ) : RtEntry := { rt with rtPclist := rt.rtPclist.erase id }

def rtUpdate (rt : RtEntry) (seqnum metric nexthop : ℕ) (expireTime : ℚ) : RtEntry :=
  { rt with
    rtSeqno := seqnum
    rtHops := metric
    rtFlags := .up
    rtNexthop := nexthop
    rtExpire := expireTime }

def rtDown (rt : RtEntry) : RtEntry :=
  if rt.rtFlags = .down then rt
  else
    { rt with
      rtLastHopCount := rt.rtHops
      rtHops := infinity2
      rtFlags := .down
      rtNexthop := 0
      rtExpire := 0 }

def perHopTime (rt : RtEntry) : ℚ :=
  let latencies := rt.rtDiscLatency.filter (fun l => 0 < l)
  if 0 < latencies.length then latencies.sum / latencies.length else nodeTraversalTime

def Fresher (rt : RtEntry) (seqno hops : ℕ) : Prop :=
  rt.rtSeqno < seqno ∨ rt.rtSeqno = seqno ∧ hops < rt.rtHops

instance (rt : RtEntry) (seqno hops : ℕ) : Decidable (rt.Fresher seqno hops) :=
  inferInstanceAs (Decidable (_ ∨ _))

/-- `recvRequest`: the entry takes the reverse route. -/
def learnRequest (now : ℚ) (saddr : ℕ) (rq : Rreq) (rt0 : RtEntry) : RtEntry :=
  let rt0 :=
    rt0.rtUpdate rq.rqSrcSeqno rq.rqHopCount saddr (max rt0.rtExpire (now + revRouteLife))
  if 0 < rt0.rtReqTimeout then
    { rt0 with
      rtReqCnt := 0
      rtReqTimeout := 0
      rtReqLastTtl := rq.rqHopCount
      rtExpire := now + activeRouteTimeout }
  else rt0

/-- `recvReply`: the entry takes the route; `mine` tells that the reply is for this node. -/
def learnReply (now : ℚ) (mine : Bool) (rp : Rrep) (rt : RtEntry) : RtEntry :=
  let rt :=
    { rt.rtUpdate rp.rpDstSeqno rp.rpHopCount rp.rpSrc (now + rp.rpLifetime) with
      rtReqCnt := 0
      rtReqTimeout := 0
      rtReqLastTtl := rp.rpHopCount }
  if mine then
    { rt with
      rtDiscLatency := rt.rtDiscLatency.set rt.histIndx ((now - rp.rpTimestamp) / rp.rpHopCount)
      histIndx := (rt.histIndx + 1) % maxHistory }
  else rt

end RtEntry

structure BroadcastId where
  src : ℕ
  id : ℕ
  expire : ℚ

structure Neighbor where
  nbAddr : ℕ
  nbExpire : ℚ

/-- `AODV`. `rqueue` holds the buffered packets with their deadlines, `lrtimer` the destinations of the
local repairs whose timers are scheduled. -/
structure Node where
  index : ℕ
  seqno : ℕ
  bid : ℕ
  rtable : List RtEntry
  bihead : List BroadcastId
  nbhead : List Neighbor
  rqueue : List (DataPacket × ℚ)
  lrtimer : List ℕ
  target : List Packet

def modifyEntry (dst : ℕ) (f : RtEntry → RtEntry) : List RtEntry → List RtEntry
  | [] => []
  | rt :: l => if rt.rtDst = dst then f rt :: l else rt :: modifyEntry dst f l

def assert (p : Prop) [Decidable p] : Option Unit := if p then some () else none

namespace Node

def init (id : ℕ) : Node where
  index := id
  seqno := 2
  bid := 1
  rtable := []
  bihead := []
  nbhead := []
  rqueue := []
  lrtimer := []
  target := []

def rtLookup (n : Node) (id : ℕ) : Option RtEntry := n.rtable.find? (fun rt => rt.rtDst = id)

def rtAdd (n : Node) (id : ℕ) : Option Node := do
  assert (n.rtLookup id = none)
  some { n with rtable := RtEntry.new id :: n.rtable }

/-- The entry, which is added when there is none. -/
def rtFind (n : Node) (id : ℕ) : Option Node := if n.rtLookup id = none then n.rtAdd id else some n

def modify (n : Node) (dst : ℕ) (f : RtEntry → RtEntry) : Node :=
  { n with rtable := modifyEntry dst f n.rtable }

/-- `Scheduler::schedule(target_, p, …)`. -/
def send (n : Node) (p : Packet) : Node := { n with target := n.target ++ [p] }

/-! ## The buffer of packets -/

/-- `aodv_rqueue::purge`. -/
def rqPurge (now : ℚ) (n : Node) : Node := { n with rqueue := n.rqueue.filter (fun b => now ≤ b.2) }

def enque (now : ℚ) (p : DataPacket) (n : Node) : Node :=
  let n := n.rqPurge now
  let rqueue := if n.rqueue.length = aodvRtqMaxLen then n.rqueue.tail else n.rqueue
  { n with rqueue := rqueue ++ [(p, now + aodvRtqTimeout)] }

/-- `aodv_rqueue::find`. -/
def rqFind (n : Node) (dst : ℕ) : Bool := n.rqueue.any (fun b => b.1.1.daddr = some dst)

/-- The packets that `while ((p = rqueue.deque(dst)))` runs through. -/
def rqPackets (now : ℚ) (dst : ℕ) (n : Node) : List DataPacket :=
  ((n.rqPurge now).rqueue.filter (fun b => b.1.1.daddr = some dst)).map Prod.fst

/-- The buffer after that loop. -/
def rqDrop (now : ℚ) (dst : ℕ) (n : Node) : Node :=
  { n with rqueue := (n.rqPurge now).rqueue.filter (fun b => b.1.1.daddr ≠ some dst) }

/-! ## Packet transmission -/

/-- `forward`, along the entry of a destination or to all. -/
def forward (now : ℚ) (dst : Option ℕ) (p : Packet) (n : Node) : Option Node :=
  if p.ttl = 0 then some n
  else if p.body = .data ∧ p.up ∧ p.daddr = none ∨ p.daddr = some n.index then some n
  else
    match dst with
    | some dst => do
      let rt ← n.rtLookup dst
      assert (rt.rtFlags = .up)
      let n := n.modify dst (fun rt => { rt with rtExpire := now + activeRouteTimeout })
      some (n.send { p with nextHop := rt.rtNexthop, up := false })
    | none => some (n.send { p with up := false })

/-- The loops that take the packets for `dst` out of the buffer and forward them. -/
def forwardBuffered (now : ℚ) (dst : ℕ) (n : Node) : Option Node :=
  (n.rqPackets now dst).foldlM (fun n p => n.forward now (some dst) p.1) (n.rqDrop now dst)

/-- The time to live of a request, from the last one, and whether it goes to the whole network. -/
def requestTtl (lastTtl : ℕ) : ℕ × Bool :=
  if lastTtl = 0 then (ttlStart, false)
  else if lastTtl < ttlThreshold then (lastTtl + ttlIncrement, false)
  else (networkDiameter, true)

def sendRequest (now : ℚ) (dst : ℕ) (n : Node) : Option Node := do
  let rt ← n.rtLookup dst
  if rt.rtFlags = .up then do
    assert (rt.rtHops ≠ infinity2)
    some n
  else if now < rt.rtReqTimeout then some n
  else if rreqRetries < rt.rtReqCnt then
    some ((n.modify dst (fun rt =>
      { rt with rtReqTimeout := now + maxRreqTimeout, rtReqCnt := 0 })).rqDrop now dst)
  else
    let ttl := (requestTtl (max rt.rtReqLastTtl rt.rtLastHopCount)).1
    let cnt := rt.rtReqCnt + (requestTtl (max rt.rtReqLastTtl rt.rtLastHopCount)).2.toNat
    let timeout := 2 * ttl * rt.perHopTime * (if 0 < cnt then cnt else 1)
    let n := n.modify dst (fun rt =>
      { rt with
        rtReqLastTtl := ttl
        rtReqCnt := cnt
        rtReqTimeout := min (timeout + now) (now + maxRreqTimeout)
        rtExpire := 0 })
    let bid := n.bid
    let n := { n with bid := n.bid + 1, seqno := n.seqno + 2 }
    assert (n.seqno % 2 = 0)
    some (n.send
      { saddr := n.index, daddr := none, ttl := ttl, nextHop := 0, numForwards := 0, up := false
        body := .rreq
          { rqHopCount := 1, rqBcastId := bid, rqDst := dst, rqDstSeqno := rt.rtSeqno
            rqSrc := n.index, rqSrcSeqno := n.seqno, rqTimestamp := now } })

/-- `sendReply`; the hop count has 8 bits. -/
def sendReply (ipdst hopCount rpdst rpseq : ℕ) (lifetime timestamp : ℚ) (n : Node) : Option Node := do
  let rt ← n.rtLookup ipdst
  some (n.send
    { saddr := n.index, daddr := some ipdst, ttl := networkDiameter, nextHop := rt.rtNexthop
      numForwards := 0, up := false
      body := .rrep
        { rpHopCount := hopCount % 256, rpDst := rpdst, rpDstSeqno := rpseq, rpSrc := n.index
          rpLifetime := lifetime, rpTimestamp := timestamp } })

def sendError (unreachable : List (ℕ × ℕ)) (n : Node) : Node :=
  if unreachable = [] then n
  else n.send
    { saddr := n.index, daddr := none, ttl := 1, nextHop := 0, numForwards := 0, up := false
      body := .rerr unreachable }

def sendHello (n : Node) : Node :=
  n.send
    { saddr := n.index, daddr := none, ttl := 1, nextHop := 0, numForwards := 0, up := false
      body := .hello n.index n.seqno }

/-! ## Link failures -/

/-- The body of the loop of `handle_link_failure`. -/
def linkFailed (id : ℕ) (acc : Node × List (ℕ × ℕ)) (dst : ℕ) : Option (Node × List (ℕ × ℕ)) := do
  let (n, unreachable) := acc
  let rt ← n.rtLookup dst
  if rt.rtHops ≠ infinity2 ∧ rt.rtNexthop = id then do
    assert (rt.rtFlags = .up)
    assert (rt.rtSeqno % 2 = 0)
    let n := n.modify dst (fun rt => { rt with rtSeqno := rt.rtSeqno + 1 }.rtDown)
    some (n.modify dst (·.pcDelete id), unreachable ++ [(dst, rt.rtSeqno + 1)])
  else some (n.modify dst (·.pcDelete id), unreachable)

def handleLinkFailure (id : ℕ) (n : Node) : Option Node := do
  let (n, unreachable) ← (n.rtable.map RtEntry.rtDst).foldlM (linkFailed id) (n, [])
  some (n.sendError unreachable)

def nbDelete (id : ℕ) (n : Node) : Option Node := do
  let n := { n with seqno := n.seqno + 2 }
  assert (n.seqno % 2 = 0)
  let n := { n with nbhead := n.nbhead.eraseP (fun nb => nb.nbAddr = id) }
  n.handleLinkFailure id

def nbPurge (now : ℚ) (n : Node) : Option Node :=
  n.nbhead.foldlM (fun n nb => if nb.nbExpire ≤ now then n.nbDelete nb.nbAddr else some n) n

def localRtRepair (now : ℚ) (dst : ℕ) (p : DataPacket) (n : Node) : Option Node := do
  let n := n.enque now p
  let n := n.modify dst (fun rt => { rt with rtFlags := .inRepair })
  let n ← n.sendRequest now dst
  some { n with lrtimer := n.lrtimer ++ [dst] }

def rtLlFailed (now : ℚ) (p : Packet) (n : Node) : Option Node :=
  if h : p.body = .data then
    match p.daddr with
    | none => some n
    | some dst =>
      match n.rtLookup dst with
      | none => some n
      | some rt =>
        if rt.rtHops < p.numForwards then n.localRtRepair now dst ⟨p, h⟩
        else n.nbDelete p.nextHop
  else some n

/-- `LocalRepairTimer::handle`. -/
def lrTimer (dst : ℕ) (n : Node) : Node :=
  let n := { n with lrtimer := n.lrtimer.erase dst }
  match n.rtLookup dst with
  | none => n
  | some rt => if rt.rtFlags ≠ .up then n.modify dst RtEntry.rtDown else n

/-! ## Routes -/

def rtResolve (now : ℚ) (dst : ℕ) (p : DataPacket) (n : Node) : Option Node := do
  let n ← n.rtFind dst
  let rt ← n.rtLookup dst
  if rt.rtFlags = .up then do
    assert (rt.rtHops ≠ infinity2)
    n.forward now (some dst) p.1
  else if p.1.saddr = n.index then (n.enque now p).sendRequest now dst
  else if rt.rtFlags = .inRepair then some (n.enque now p)
  else do
    assert (rt.rtFlags = .down)
    some (n.sendError [(dst, rt.rtSeqno)])

/-- The body of the loop of `rt_purge`. -/
def purgeRoute (now : ℚ) (n : Node) (dst : ℕ) : Option Node := do
  let rt ← n.rtLookup dst
  if rt.rtFlags = .up ∧ rt.rtExpire < now then do
    assert (rt.rtHops ≠ infinity2)
    let n := n.rqDrop now dst
    assert ((rt.rtSeqno + 1) % 2 = 1)
    some (n.modify dst (fun rt => { rt with rtSeqno := rt.rtSeqno + 1 }.rtDown))
  else if rt.rtFlags = .up then do
    assert (rt.rtHops ≠ infinity2)
    n.forwardBuffered now dst
  else if n.rqFind dst then n.sendRequest now dst
  else some n

def rtPurge (now : ℚ) (n : Node) : Option Node :=
  (n.rtable.map RtEntry.rtDst).foldlM (purgeRoute now) n

/-! ## Packet reception -/

def idInsert (now : ℚ) (id bid : ℕ) (n : Node) : Node :=
  { n with bihead := { src := id, id := bid, expire := now + bcastIdSave } :: n.bihead }

def idLookup (n : Node) (id bid : ℕ) : Bool := n.bihead.any (fun b => b.src = id ∧ b.id = bid)

def idPurge (now : ℚ) (n : Node) : Node :=
  { n with bihead := n.bihead.filter (fun b => now < b.expire) }

/-- `recvRequest`: the reverse route is fresher than what the entry has. -/
def reverseRoute (now : ℚ) (p : Packet) (rq : Rreq) (n : Node) : Option Node := do
  let n := n.modify rq.rqSrc (·.learnRequest now p.saddr rq)
  let rt0 ← n.rtLookup rq.rqSrc
  assert (rt0.rtFlags = .up)
  assert (n.rqPackets now rq.rqSrc = [] ∨ rt0.rtHops ≠ infinity2)
  n.forwardBuffered now rq.rqSrc

def toUInt32 (x : ℚ) : ℚ := ((if 0 ≤ x then ⌊x⌋ else ⌈x⌉) % 2 ^ 32 : ℤ)

/-- `recvRequest`: the request goes on. -/
def forwardRequest (now : ℚ) (p : Packet) (rq : Rreq) (dstSeqno : ℕ) (n : Node) : Option Node :=
  n.forward now none
    { p with
      saddr := n.index
      daddr := none
      body := .rreq { rq with rqHopCount := (rq.rqHopCount + 1) % 256, rqDstSeqno := dstSeqno } }

/-- `recvRequest`: the answer, once there is a reverse route. -/
def answerRequest (now : ℚ) (p : Packet) (rq : Rreq) (n : Node) : Option Node :=
  if rq.rqDst = n.index then
    let seqno := max n.seqno rq.rqDstSeqno + 1
    let n := { n with seqno := if seqno % 2 = 1 then seqno + 1 else seqno }
    n.sendReply rq.rqSrc 1 n.index n.seqno myRouteTimeout rq.rqTimestamp
  else
    match n.rtLookup rq.rqDst with
    | none => n.forwardRequest now p rq rq.rqDstSeqno
    | some rt =>
      if rt.rtHops ≠ infinity2 ∧ rq.rqDstSeqno ≤ rt.rtSeqno then do
        assert (rq.rqDst = rt.rtDst)
        let n ← n.sendReply rq.rqSrc (rt.rtHops + 1) rq.rqDst rt.rtSeqno
          (toUInt32 (rt.rtExpire - now)) rq.rqTimestamp
        let rt0 ← n.rtLookup rq.rqSrc
        some ((n.modify rq.rqDst (·.pcInsert rt0.rtNexthop)).modify rq.rqSrc
          (·.pcInsert rt.rtNexthop))
      else n.forwardRequest now p rq (max rt.rtSeqno rq.rqDstSeqno)

def recvRequest (now : ℚ) (p : Packet) (rq : Rreq) (n : Node) : Option Node :=
  if rq.rqSrc = n.index then some n
  else if n.idLookup rq.rqSrc rq.rqBcastId then some n
  else do
    let n ← (n.idInsert now rq.rqSrc rq.rqBcastId).rtFind rq.rqSrc
    let n := n.modify rq.rqSrc (fun rt0 =>
      { rt0 with rtExpire := max rt0.rtExpire (now + revRouteLife) })
    let rt0 ← n.rtLookup rq.rqSrc
    if rt0.Fresher rq.rqSrcSeqno rq.rqHopCount then do
      let n ← n.reverseRoute now p rq
      n.answerRequest now p rq
    else n.answerRequest now p rq

/-- `recvReply`: the entry takes the route. -/
def acceptReply (now : ℚ) (p : Packet) (rp : Rrep) (n : Node) : Option Node := do
  let n := n.modify rp.rpDst (·.learnReply now (p.daddr = some n.index) rp)
  let rt ← n.rtLookup rp.rpDst
  if rt.rtHops ≠ infinity2 then do
    assert (n.rqPackets now rp.rpDst = [] ∨ rt.rtFlags = .up)
    n.forwardBuffered now rp.rpDst
  else some (n.rqDrop now rp.rpDst)

/-- `recvReply`: the reply goes on. -/
def forwardReply (now : ℚ) (p : Packet) (rp : Rrep) (n : Node) : Option Node :=
  match p.daddr with
  | none => some n
  | some dst =>
    match n.rtLookup dst with
    | none => some n
    | some rt0 =>
      if rt0.rtHops ≠ infinity2 then do
        assert (rt0.rtFlags = .up)
        let n ← n.forward now (some dst)
          { p with
            body := .rrep { rp with rpHopCount := (rp.rpHopCount + 1) % 256, rpSrc := n.index } }
        some (n.modify rp.rpDst (·.pcInsert rt0.rtNexthop))
      else some n

def recvReply (now : ℚ) (p : Packet) (rp : Rrep) (n : Node) : Option Node := do
  let n ← n.rtFind rp.rpDst
  let rt ← n.rtLookup rp.rpDst
  if rt.Fresher rp.rpDstSeqno rp.rpHopCount then do
    let n ← n.acceptReply now p rp
    if p.daddr = some n.index then some n else n.forwardReply now p rp
  else some n

/-- The body of the loop of `recvError`. -/
def routeError (saddr : ℕ) (acc : Node × List (ℕ × ℕ)) (u : ℕ × ℕ) : Option (Node × List (ℕ × ℕ)) :=
  let (n, unreachable) := acc
  match n.rtLookup u.1 with
  | none => some (n, unreachable)
  | some rt =>
    if rt.rtHops ≠ infinity2 ∧ rt.rtNexthop = saddr ∧ rt.rtSeqno ≤ u.2 then do
      assert (rt.rtFlags = .up)
      assert (rt.rtSeqno % 2 = 0)
      let n := n.modify u.1 (fun rt => { rt with rtSeqno := u.2 }.rtDown)
      if rt.rtPclist = [] then some (n, unreachable)
      else some (n.modify u.1 (fun rt => { rt with rtPclist := [] }), unreachable ++ [u])
    else some (n, unreachable)

def recvError (p : Packet) (unreachable : List (ℕ × ℕ)) (n : Node) : Option Node := do
  let (n, unreachable) ← unreachable.foldlM (routeError p.saddr) (n, [])
  some (n.sendError unreachable)

def nbInsert (now : ℚ) (id : ℕ) (n : Node) : Option Node := do
  let nbExpire := now + 3 / 2 * allowedHelloLoss * helloInterval
  let n := { n with nbhead := { nbAddr := id, nbExpire } :: n.nbhead, seqno := n.seqno + 2 }
  assert (n.seqno % 2 = 0)
  some n

def renew (id : ℕ) (nbExpire : ℚ) : List Neighbor → List Neighbor
  | [] => []
  | nb :: l => if nb.nbAddr = id then { nb with nbExpire } :: l else nb :: renew id nbExpire l

def recvHello (now : ℚ) (rpDst : ℕ) (n : Node) : Option Node :=
  if n.nbhead.any (fun nb => nb.nbAddr = rpDst) then
    some { n with
      nbhead := renew rpDst (now + 3 / 2 * allowedHelloLoss * helloInterval) n.nbhead }
  else n.nbInsert now rpDst

/-- `recv`, for a data packet. -/
def recvData (now : ℚ) (p : DataPacket) (n : Node) : Option Node :=
  if p.1.saddr = n.index ∧ p.1.numForwards = 0 then
    match p.1.daddr with
    | some dst => n.rtResolve now dst (p.withTtl networkDiameter)
    | none => n.forward now none p.1
  else if p.1.saddr = n.index then some n
  else if p.1.ttl - 1 = 0 then some n
  else
    match p.1.daddr with
    | some dst => n.rtResolve now dst (p.withTtl (p.1.ttl - 1))
    | none => n.forward now none (p.withTtl (p.1.ttl - 1)).1

/-- `recv` and `recvAODV`. -/
def recv (now : ℚ) (p : Packet) (n : Node) : Option Node :=
  match h : p.body with
  | .data => n.recvData now ⟨p, h⟩
  | .rreq rq => n.recvRequest now { p with ttl := p.ttl - 1 } rq
  | .rrep rp => n.recvReply now { p with ttl := p.ttl - 1 } rp
  | .rerr unreachable => n.recvError { p with ttl := p.ttl - 1 } unreachable
  | .hello rpDst _ => n.recvHello now rpDst

end Node

end NetSim.Aodv
