import Mathlib
import NetSim.Lib.OrderedMap
import NetSim.Lib.Runs

/-! # Link-state routing

The link-state protocol of `linkstate/ls.cc` and `linkstate/rtProtoLS.cc`: the store of messages
that all nodes share (`LsMessageCenter`), the numbers that a node has seen (`LsMessageHistory`), its
unacknowledged messages (`LsRetransmissionManager`), the node itself (`LsRouting`) and the packets in
flight, which carry the id of a message. The routing table is computed in `ComputeRoutes.lean`; no
message depends on it. Undefined behaviour and the aborts of `ls_error` are `none`.
-/

namespace NetSim.LinkState

abbrev UInt32T := Fin (2 ^ 32)

scoped instance neZero : NeZero (2 ^ 32) := ⟨by decide⟩

abbrev lsInvalidNodeId : ℤ := 65535
abbrev lsMessageCenterSizeFactor : ℕ := 4
abbrev lsInvalidMessageId : UInt32T := 0

abbrev lsWraparoundThreshold : UInt32T := 1073741824

inductive LsStatus where
  | down
  | up
deriving DecidableEq

/-- `LsLinkState`. The constructor leaves the sequence number unset. -/
structure LsLinkState where
  neighborId : ℤ
  status : LsStatus
  cost : ℤ
  sequenceNumber : UInt32T
deriving DecidableEq

/-! ## The topology map -/

abbrev LsTopoMap := OrderedMap ℤ (List LsLinkState)

/-- The inner loop of `LsTopoMap::update`: write a new link state over the old one of the same
neighbor. The sequence number stays when the links are the node's own. -/
def updateLink (own : Bool) (new : LsLinkState) : List LsLinkState → List LsLinkState × Bool
  | [] => ([new], true)
  | old :: rest =>
    if new.neighborId = old.neighborId then
      ({ old with
          sequenceNumber := if own then old.sequenceNumber else new.sequenceNumber
          status := new.status
          cost := new.cost } :: rest,
        new.status ≠ old.status ∨ new.cost ≠ old.cost)
    else
      let r := updateLink own new rest
      (old :: r.1, r.2)

/-- `LsTopoMap::update`; the flag tells whether there is a change. -/
def LsTopoMap.update (myNodeId : ℤ) (topo : LsTopoMap) (nodeId : ℤ)
    (linkStateList : List LsLinkState) : LsTopoMap × Bool :=
  match topo.find? nodeId with
  | none => (topo.set nodeId linkStateList, true)
  | some olds =>
    let r := linkStateList.foldl (fun (r : List LsLinkState × Bool) new =>
      let u := updateLink (nodeId = myNodeId) new r.1
      (u.1, r.2 || u.2)) (olds, false)
    (topo.set nodeId r.1, r.2)

/-! ## Messages and the message center -/

inductive LsMessageType where
  | lsa
  | tpm
  | lsaAck
  | tpmAck
deriving DecidableEq

/-- The union of `LsMessage`: a list of link states, or a pointer to the topology map of a node. -/
inductive LsContent where
  | null
  | lsl (list : List LsLinkState)
  | topo (node : ℤ)
deriving DecidableEq

structure LsMessage where
  type : LsMessageType
  messageId : UInt32T
  sequenceNumber : UInt32T
  originNodeId : ℤ
  content : LsContent
deriving DecidableEq

/-- `LsMessageCenter`. A pointer to a message is given by the message's key. -/
structure LsMessageCenter where
  currentLsaId : UInt32T
  currentOtherId : UInt32T
  maxSize : ℕ
  lsaMessages : OrderedMap UInt32T LsMessage
  otherMessages : OrderedMap UInt32T LsMessage

namespace LsMessageCenter

def start : LsMessageCenter :=
  { currentLsaId := lsInvalidMessageId + 1
    currentOtherId := lsInvalidMessageId + 2
    maxSize := 0
    lsaMessages := OrderedMap.empty
    otherMessages := OrderedMap.empty }

def setNodeNumber (c : LsMessageCenter) (numberOfNodes : ℕ) : LsMessageCenter :=
  { c with maxSize := numberOfNodes * lsMessageCenterSizeFactor % 2 ^ 32 }

/-- `init`, for when nothing is provided by Tcl code. -/
def init (c : LsMessageCenter) : LsMessageCenter := { c with maxSize := 300 }

/-- The center with a maximal size. -/
def ready (c : LsMessageCenter) : LsMessageCenter := if c.maxSize = 0 then c.init else c

def recycle (maxSize : ℕ) (storage : OrderedMap UInt32T LsMessage) :
    OrderedMap UInt32T LsMessage :=
  if maxSize ≤ storage.size then storage.eraseBegin else storage

/-- The id behind an id. -/
def nextId (id : UInt32T) : UInt32T :=
  if id + 2 = lsInvalidMessageId then id + 2 + 2 else id + 2

def newMessage (c : LsMessageCenter) (nodeId : ℤ) (type : LsMessageType) :
    Option (LsMessageCenter × LsMessage) :=
  let c := c.ready
  if type = .lsa ∨ type = .tpm then
    let msg : LsMessage := ⟨type, c.currentLsaId, c.currentLsaId, nodeId, .null⟩
    ((recycle c.maxSize c.lsaMessages).insert c.currentLsaId msg).map (fun m =>
      ({ c with currentLsaId := nextId c.currentLsaId, lsaMessages := m }, msg))
  else
    let msg : LsMessage := ⟨type, c.currentOtherId, c.currentOtherId, nodeId, .null⟩
    ((recycle c.maxSize c.otherMessages).insert c.currentOtherId msg).map (fun m =>
      ({ c with currentOtherId := nextId c.currentOtherId, otherMessages := m }, msg))

/-- `isLSA`: the last bit of the id is not that of the invalid id. -/
def isLsa (msgId : UInt32T) : Bool := msgId.val % 2 = 1

def retrieveMessagePtr (c : LsMessageCenter) (msgId : UInt32T) : Option LsMessage :=
  if isLsa msgId then c.lsaMessages.find? msgId else c.otherMessages.find? msgId

def write (c : LsMessageCenter) (msg : LsMessage) : LsMessageCenter :=
  if msg.type = .lsa ∨ msg.type = .tpm then
    { c with lsaMessages := c.lsaMessages.set msg.messageId msg }
  else { c with otherMessages := c.otherMessages.set msg.messageId msg }

def deleteMessage (c : LsMessageCenter) (msgId : UInt32T) : LsMessageCenter :=
  { c with otherMessages := c.otherMessages.erase msgId }

end LsMessageCenter

/-! ## Sequence numbers -/

/-- The test of `isNewMessage` and of `receiveTopo`: the stored number is older than the one
received. -/
def older (stored received : UInt32T) : Bool :=
  stored < received ∨ lsWraparoundThreshold < stored - received

abbrev LsMessageHistory := OrderedMap ℤ UInt32T

/-- `isNewMessage`, which also saves the number of a new message. -/
def LsMessageHistory.isNewMessage (history : LsMessageHistory) (msg : LsMessage) :
    LsMessageHistory × Bool :=
  match history.find? msg.originNodeId with
  | some stored =>
    if older stored msg.sequenceNumber then
      (history.set msg.originNodeId msg.sequenceNumber, true)
    else (history, false)
  | none => (history.set msg.originNodeId msg.sequenceNumber, true)

/-! ## Unacknowledged messages -/

structure LsIdSeq where
  msgId : UInt32T
  seq : UInt32T
deriving DecidableEq

/-- `LsUnackPeer`; `pending` is the state of its timer. -/
structure LsUnackPeer where
  pending : Bool
  tpmSeq : UInt32T
  lsaMap : OrderedMap ℤ LsIdSeq

def LsUnackPeer.fresh : LsUnackPeer := ⟨false, lsInvalidMessageId, OrderedMap.empty⟩

/-- Nothing waits for an ack. -/
def LsUnackPeer.Done (u : LsUnackPeer) : Prop :=
  u.tpmSeq = lsInvalidMessageId ∧ u.lsaMap.entries = []

instance (u : LsUnackPeer) : Decidable u.Done := inferInstanceAs (Decidable (_ ∧ _))

abbrev LsRetransmissionManager := OrderedMap ℤ LsUnackPeer

namespace LsRetransmissionManager

/-- `initTimeout`; a peer that is there already stays. -/
def initTimeout (m : LsRetransmissionManager) (neighbors : List ℤ) : LsRetransmissionManager :=
  neighbors.foldl (fun m id => (m.insert id LsUnackPeer.fresh).getD m) m

def cancelTimer (m : LsRetransmissionManager) (nbrId : ℤ) : LsRetransmissionManager :=
  match m.find? nbrId with
  | none => m
  | some _ => m.set nbrId LsUnackPeer.fresh

/-- The record that `messageOut` makes for a message. -/
def record (u : LsUnackPeer) (msg : LsMessage) : LsUnackPeer :=
  match msg.type with
  | .tpm => { u with tpmSeq := msg.sequenceNumber }
  | .lsa => { u with lsaMap := u.lsaMap.set msg.originNodeId ⟨msg.messageId, msg.sequenceNumber⟩ }
  | .lsaAck => u
  | .tpmAck => u

/-- `messageOut`, called when a message is sent out. -/
def messageOut (m : LsRetransmissionManager) (peerId : ℤ) (msg : LsMessage) :
    LsRetransmissionManager :=
  m.set peerId { record ((m.find? peerId).getD LsUnackPeer.fresh) msg with pending := true }

/-- What the ack removes. -/
def clearRecord (u : LsUnackPeer) (msg : LsMessage) : LsUnackPeer :=
  match msg.type with
  | .tpmAck => if u.tpmSeq = msg.sequenceNumber then { u with tpmSeq := lsInvalidMessageId } else u
  | .lsaAck =>
    if (u.lsaMap.find? msg.originNodeId).map LsIdSeq.seq = some msg.sequenceNumber then
      { u with lsaMap := u.lsaMap.erase msg.originNodeId }
    else u
  | .tpm => u
  | .lsa => u

/-- `ackIn`. `TimerHandler::cancel` aborts when the timer is not scheduled. -/
def ackIn (m : LsRetransmissionManager) (peerId : ℤ) (msg : LsMessage) :
    Option LsRetransmissionManager :=
  match m.find? peerId with
  | none => some m
  | some u =>
    if u.Done then some m
    else
      let u := clearRecord u msg
      if u.Done then
        if u.pending then some (m.set peerId { u with pending := false }) else none
      else some (m.set peerId u)

end LsRetransmissionManager

/-! ## The nodes -/

structure IdMsgPtr where
  peerId : ℤ
  msgPtr : UInt32T
deriving DecidableEq

/-- `LsRouting`, with the lists of `rtProtoLS` that it points to. -/
structure LsRouting where
  peerIdList : List ℤ
  linkStateList : List LsLinkState
  linkStateDatabase : LsTopoMap
  lsaHistory : LsMessageHistory
  tpmHistory : LsMessageHistory
  ackManager : LsRetransmissionManager
  messageBuffer : List IdMsgPtr

def LsRouting.isUp (r : LsRouting) (neighborId : ℤ) : Bool :=
  match r.linkStateList.find? (fun l => l.neighborId = neighborId) with
  | some l => l.status = .up
  | none => false

structure NsAddr where
  addr : ℤ
  port : ℤ
deriving DecidableEq

structure RtProtoLS where
  here : NsAddr
  peerAddrMap : OrderedMap ℤ NsAddr
  routing : LsRouting

def RtProtoLS.findPeerNodeId (p : RtProtoLS) (agentAddr : NsAddr) : ℤ :=
  match p.peerAddrMap.entries.find? (fun e => e.2 = agentAddr) with
  | some e => e.1
  | none => lsInvalidNodeId

/-- A packet in flight, with the `msgId` of its `hdr_LS`. -/
structure Packet where
  src : NsAddr
  dst : NsAddr
  msgId : UInt32T
deriving DecidableEq

structure LsSystem where
  center : LsMessageCenter
  nodes : OrderedMap ℤ RtProtoLS
  packets : List Packet

def LsSystem.start : LsSystem := ⟨LsMessageCenter.start, OrderedMap.empty, []⟩

namespace LsSystem

/-- Change the `LsRouting` of a node. -/
def modifyRouting (s : LsSystem) (n : ℤ) (f : LsRouting → LsRouting) : LsSystem :=
  match s.nodes.find? n with
  | none => s
  | some p => { s with nodes := s.nodes.set n { p with routing := f p.routing } }

/-- The `LsRouting` of a node. -/
def routing? (s : LsSystem) (n : ℤ) : Option LsRouting :=
  (s.nodes.find? n).map RtProtoLS.routing

/-! ### Sending -/

def sendMessage (s : LsSystem) (n destId : ℤ) (messageId : UInt32T) : LsSystem :=
  match s.nodes.find? n with
  | none => s
  | some p =>
    match p.peerAddrMap.find? destId with
    | none => s
    | some dst => { s with packets := s.packets ++ [⟨p.here, dst, messageId⟩] }

/-- `ackManager_.messageOut`. -/
def messageOut (s : LsSystem) (n peerId : ℤ) (msg : LsMessage) : LsSystem :=
  s.modifyRouting n (fun r => { r with ackManager := r.ackManager.messageOut peerId msg })

def bufferedSend (s : LsSystem) (n peerId : ℤ) (mp : UInt32T) : LsSystem :=
  s.modifyRouting n (fun r => { r with messageBuffer := r.messageBuffer ++ [⟨peerId, mp⟩] })

def sendToPeers (s : LsSystem) (peers : List ℤ) (test : ℤ → Bool)
    (send : LsSystem → ℤ → LsSystem) : LsSystem :=
  (peers.filter test).foldl send s

def sendLinkStates (s : LsSystem) (n : ℤ) (buffer : Bool) : Option LsSystem :=
  (s.routing? n).bind (fun r =>
    if r.peerIdList = [] then some s
    else
      match r.linkStateDatabase.find? n with
      | none => some s
      | some [] => some s
      | some (first :: rest) =>
        (s.center.newMessage n .lsa).map (fun (c, msg) =>
          let lsl := (first :: rest).map
            (fun l => { l with sequenceNumber := msg.sequenceNumber })
          let msg := { msg with content := .lsl lsl }
          let s := { s with center := c.write msg }.modifyRouting n
            (fun r => { r with linkStateDatabase := r.linkStateDatabase.set n lsl })
          s.sendToPeers r.peerIdList r.isUp (fun s peer =>
            if buffer then s.bufferedSend n peer msg.messageId
            else (s.sendMessage n peer msg.messageId).messageOut n peer msg)))

def sendAck (s : LsSystem) (n nbrId : ℤ) (type : LsMessageType) (originNodeIdAcked : ℤ)
    (seqAcked : UInt32T) : Option LsSystem :=
  (s.center.newMessage n type).map (fun (c, msg) =>
    let msg := { msg with originNodeId := originNodeIdAcked, sequenceNumber := seqAcked }
    { s with center := c.write msg }.sendMessage n nbrId msg.messageId)

/-- `sendTopo`: the message points to the node's own map. -/
def sendTopo (s : LsSystem) (n neighborId : ℤ) : Option LsSystem :=
  (s.center.newMessage n .tpm).map (fun (c, msg) =>
    let msg := { msg with content := .topo n }
    { s with center := c.write msg }.bufferedSend n neighborId msg.messageId)

/-- `regenAndSend`. The copy of the list is never put into the message. -/
def regenAndSend (s : LsSystem) (n exception origin : ℤ) (lsl : List LsLinkState) :
    Option LsSystem :=
  match lsl with
  | [] => none
  | first :: _ =>
    (s.routing? n).bind (fun r =>
      (s.center.newMessage origin .lsa).map (fun (c, msg) =>
        let msg := { msg with sequenceNumber := first.sequenceNumber, originNodeId := origin }
        { s with center := c.write msg }.sendToPeers r.peerIdList
          (fun peer => peer ≠ origin ∧ peer ≠ exception ∧ r.isUp peer)
          (fun s peer => s.bufferedSend n peer msg.messageId)))

/-- The body of the loop of `sendBufferedMessages`, which reads through the pointer. -/
def sendBuffered (n : ℤ) (s : LsSystem) (b : IdMsgPtr) : Option LsSystem :=
  (s.center.lsaMessages.find? b.msgPtr).map (fun msg =>
    (s.messageOut n b.peerId msg).sendMessage n b.peerId msg.messageId)

def sendBufferedMessages (s : LsSystem) (n : ℤ) : Option LsSystem :=
  (s.routing? n).bind (fun r =>
    (r.messageBuffer.foldlM (sendBuffered n) s).map (fun s =>
      s.modifyRouting n (fun r => { r with messageBuffer := [] })))

/-- `resendMessages`, called by the timer for a peer. -/
def resendMessages (s : LsSystem) (n peerId : ℤ) : Option LsSystem :=
  (s.routing? n).bind (fun r =>
    (r.ackManager.find? peerId).map (fun u =>
      let s := if u.tpmSeq ≠ lsInvalidMessageId then s.sendMessage n peerId u.tpmSeq else s
      let s := u.lsaMap.entries.foldl (fun s e => s.sendMessage n peerId e.2.msgId) s
      s.modifyRouting n (fun r =>
        { r with ackManager := r.ackManager.set peerId { u with pending := true } })))

/-! ### Changes of the links -/

/-- The body of the loop of `linkStateChanged`, for the new and the old state of a link. -/
def linkTurn (n : ℤ) (s : LsSystem) (link : LsLinkState × LsLinkState) :
    Option (LsSystem × Unit) :=
  if link.1.neighborId ≠ link.2.neighborId then none
  else
    let s :=
      if link.1.status = .down then
        s.modifyRouting n
          (fun r => { r with ackManager := r.ackManager.cancelTimer link.1.neighborId })
      else s
    if link.1.status = .down ∨ link.2.status = .up then some (s, ())
    else (s.sendTopo n link.1.neighborId).map (fun s => (s, ()))

/-- The first part of `linkStateChanged`: the change goes into the map and to the peers. -/
def updateOwn (s : LsSystem) (n : ℤ) (r : LsRouting) : Option LsSystem :=
  let u := r.linkStateDatabase.update n n r.linkStateList
  let s := s.modifyRouting n (fun r => { r with linkStateDatabase := u.1 })
  if u.2 then s.sendLinkStates n true else some s

/-- `linkStateChanged`. The loop walks over the old list without looking at its end. -/
def linkStateChanged (s : LsSystem) (n : ℤ) : Option LsSystem :=
  (s.routing? n).bind (fun r =>
    (r.linkStateDatabase.find? n).bind (fun oldlsl =>
      if oldlsl.length < r.linkStateList.length then none
      else
        (updateOwn s n r).bind (fun s =>
          (Runs.run (linkTurn n) s (r.linkStateList.zip oldlsl)).map Prod.fst)))

/-! ### Receiving -/

/-- `receiveLSA`; the flag tells whether the routes have changed. -/
def receiveLSA (s : LsSystem) (n senderId : ℤ) (msg : LsMessage) : Option (LsSystem × Bool) :=
  (s.sendAck n senderId .lsaAck msg.originNodeId msg.messageId).bind (fun s =>
    (s.routing? n).bind (fun r =>
      if msg.originNodeId = n then some (s, false)
      else
        let h := r.lsaHistory.isNewMessage msg
        if h.2 = false then some (s, false)
        else
          let s := s.modifyRouting n (fun r => { r with lsaHistory := h.1 })
          let s := s.sendToPeers r.peerIdList
            (fun peer => peer ≠ msg.originNodeId ∧ peer ≠ senderId ∧ r.isUp peer)
            (fun s peer => (s.messageOut n peer msg).sendMessage n peer msg.messageId)
          match msg.content with
          | .null => some (s, false)
          | .topo _ => none
          | .lsl lsl =>
            let u := r.linkStateDatabase.update n msg.originNodeId lsl
            some (s.modifyRouting n (fun r => { r with linkStateDatabase := u.1 }), u.2)))

def outdated (myRecord : Option (List LsLinkState)) (first : LsLinkState) : Bool :=
  match myRecord with
  | none => true
  | some [] => true
  | some (mine :: _) => older mine.sequenceNumber first.sequenceNumber

/-- The body of the loop of `receiveTopo`, for one record of the received map. An empty record is
read behind its end, or stops `regenAndSend`; behind `regenAndSend` the loop reads through the
pointer to the message again. -/
def topoRecord (n neighborId : ℤ) (msgId : UInt32T) (s : LsSystem)
    (rec : ℤ × List LsLinkState) : Option (LsSystem × Bool) :=
  if rec.1 = n then some (s, false)
  else
    match rec.2 with
    | [] => none
    | first :: _ =>
      (s.routing? n).bind (fun r =>
        if outdated (r.linkStateDatabase.find? rec.1) first then
          let s := s.modifyRouting n
            (fun r => { r with linkStateDatabase := r.linkStateDatabase.set rec.1 rec.2 })
          (s.regenAndSend n neighborId rec.1 rec.2).bind (fun s =>
            if (s.center.retrieveMessagePtr msgId).isSome then some (s, true) else none)
        else some (s, false))

/-- The first part of `receiveTopo`: the ack, and the test whether the message is new. -/
def openTopo (s : LsSystem) (n neighborId : ℤ) (msg : LsMessage) : Option (LsSystem × Bool) :=
  (s.sendAck n neighborId .tpmAck neighborId msg.sequenceNumber).bind (fun s =>
    (s.routing? n).map (fun r =>
      let h := r.tpmHistory.isNewMessage msg
      (s.modifyRouting n (fun r => { r with tpmHistory := h.1 }), h.2)))

/-- `receiveTopo`. The map is the one that the message points to, as it is now. -/
def receiveTopo (s : LsSystem) (n neighborId : ℤ) (msg : LsMessage) : Option (LsSystem × Bool) :=
  (openTopo s n neighborId msg).bind (fun t =>
    if t.2 = false then some (t.1, false)
    else
      match msg.content with
      | .null => some (t.1, false)
      | .lsl _ => none
      | .topo node =>
        (t.1.routing? node).bind (fun sender =>
          (Runs.run (topoRecord n neighborId msg.messageId) t.1
          sender.linkStateDatabase.entries).map
            (fun u => (u.1, u.2.any id))))

/-- `receiveAck`, behind which the ack is deleted. -/
def receiveAck (s : LsSystem) (n neighborId : ℤ) (msg : LsMessage) : Option LsSystem :=
  (s.routing? n).bind (fun r =>
    (r.ackManager.ackIn neighborId msg).map (fun m =>
      let s := s.modifyRouting n (fun r => { r with ackManager := m })
      { s with center := s.center.deleteMessage msg.messageId }))

def receiveMessage (s : LsSystem) (n senderId : ℤ) (msgId : UInt32T) :
    Option (LsSystem × Bool) :=
  if senderId = lsInvalidNodeId then some (s, false)
  else
    match s.center.retrieveMessagePtr msgId with
    | none => some (s, false)
    | some msg =>
      match msg.type with
      | .tpm => s.receiveTopo n senderId msg
      | .lsa => s.receiveLSA n senderId msg
      | .lsaAck => (s.receiveAck n senderId msg).map (fun s => (s, false))
      | .tpmAck => (s.receiveAck n senderId msg).map (fun s => (s, false))

/-! ### Events -/

/-- `rtProtoLS::initialize` with what Tcl tells: the peers with their addresses, the links, and the
neighbors with an estimated delay. -/
def initNode (s : LsSystem) (n : ℤ) (here : NsAddr) (peers : List (ℤ × NsAddr))
    (links : List LsLinkState) (delays : List ℤ) : Option LsSystem :=
  let routing : LsRouting :=
    { peerIdList := peers.map Prod.fst
      linkStateList := links
      linkStateDatabase := OrderedMap.empty.set n links
      lsaHistory := OrderedMap.empty
      tpmHistory := OrderedMap.empty
      ackManager := LsRetransmissionManager.initTimeout OrderedMap.empty delays
      messageBuffer := [] }
  let peerAddrMap := peers.foldl (fun (m : OrderedMap ℤ NsAddr) e => (m.insert e.1 e.2).getD m)
    OrderedMap.empty
  (s.nodes.insert n ⟨here, peerAddrMap, routing⟩).map (fun nodes => { s with nodes := nodes })

/-- `rtProtoLS::intfChanged` with the states of the links that Tcl tells. -/
def intfChanged (s : LsSystem) (n : ℤ) (links : List LsLinkState) : Option LsSystem :=
  (s.modifyRouting n (fun r => { r with linkStateList := links })).linkStateChanged n

/-- The timer for a peer, which calls `resendMessages`. -/
def expire (s : LsSystem) (n peerId : ℤ) : Option LsSystem :=
  (s.routing? n).bind (fun r =>
    (r.ackManager.find? peerId).bind (fun u =>
      if u.pending then s.resendMessages n peerId else none))

/-- `rtProtoLS::recv` of a packet at the node with its address. -/
def recv (s : LsSystem) (p : Packet) : Option (LsSystem × Bool) :=
  match s.nodes.entries.find? (fun e => e.2.here = p.dst) with
  | none => some (s, false)
  | some e => s.receiveMessage e.1 (e.2.findPeerNodeId p.src) p.msgId

end LsSystem

inductive Event where
  | setNodeNumber (numberOfNodes : ℕ)
  | initNode (n : ℤ) (here : NsAddr) (peers : List (ℤ × NsAddr)) (links : List LsLinkState)
      (delays : List ℤ)
  | intfChanged (n : ℤ) (links : List LsLinkState)
  | sendUpdates (n : ℤ)
  | sendBufferedMessages (n : ℤ)
  | recv (k : ℕ)
  | lose (k : ℕ)
  | expire (n peerId : ℤ)

/-- One event; the flag tells whether `receiveMessage` asks for new routes. -/
def step (s : LsSystem) : Event → Option (LsSystem × Bool)
  | .setNodeNumber numberOfNodes =>
    some ({ s with center := s.center.setNodeNumber numberOfNodes }, false)
  | .initNode n here peers links delays =>
    (s.initNode n here peers links delays).map (fun s => (s, false))
  | .intfChanged n links => (s.intfChanged n links).map (fun s => (s, false))
  | .sendUpdates n => (s.sendLinkStates n false).map (fun s => (s, false))
  | .sendBufferedMessages n => (s.sendBufferedMessages n).map (fun s => (s, false))
  | .recv k => s.packets[k]?.bind (fun p => { s with packets := s.packets.eraseIdx k }.recv p)
  | .lose k => s.packets[k]?.map (fun _ => ({ s with packets := s.packets.eraseIdx k }, false))
  | .expire n peerId => (s.expire n peerId).map (fun s => (s, false))

/-! ## What a handler leaves as it is -/

namespace LsSystem

variable {s s' : LsSystem} {n m : ℤ} {r : LsRouting}

theorem routing?_modifyRouting {f : LsRouting → LsRouting} :
    (s.modifyRouting n f).routing? m = if m = n then (s.routing? n).map f else s.routing? m := by
  unfold modifyRouting routing?
  cases hp : s.nodes.find? n with
  | none =>
    split_ifs with h
    · simp [h, hp]
    · rfl
  | some p =>
    rw [OrderedMap.find?_set]
    split_ifs with h
    · rfl
    · rfl

@[simp] theorem center_modifyRouting {f : LsRouting → LsRouting} :
    (s.modifyRouting n f).center = s.center := by
  unfold modifyRouting
  split <;> rfl

@[simp] theorem packets_modifyRouting {f : LsRouting → LsRouting} :
    (s.modifyRouting n f).packets = s.packets := by
  unfold modifyRouting
  split <;> rfl

@[simp] theorem center_sendMessage {destId : ℤ} {id : UInt32T} :
    (s.sendMessage n destId id).center = s.center := by
  unfold sendMessage
  split
  · rfl
  · split <;> rfl

@[simp] theorem nodes_sendMessage {destId : ℤ} {id : UInt32T} :
    (s.sendMessage n destId id).nodes = s.nodes := by
  unfold sendMessage
  split
  · rfl
  · split <;> rfl

@[simp] theorem routing?_sendMessage {destId : ℤ} {id : UInt32T} :
    (s.sendMessage n destId id).routing? m = s.routing? m := by
  rw [routing?, nodes_sendMessage, routing?]

theorem routing?_sendAck {neighborId origin : ℤ} {type : LsMessageType} {seq : UInt32T}
    (h : s.sendAck n neighborId type origin seq = some s') : s'.routing? m = s.routing? m := by
  obtain ⟨t, -, rfl⟩ := Option.map_eq_some_iff.mp h
  rw [routing?_sendMessage]
  rfl

@[simp] theorem center_messageOut {peerId : ℤ} {msg : LsMessage} :
    (s.messageOut n peerId msg).center = s.center := center_modifyRouting

@[simp] theorem center_bufferedSend {peerId : ℤ} {mp : UInt32T} :
    (s.bufferedSend n peerId mp).center = s.center := center_modifyRouting

theorem sendToPeers_keeps {P : LsSystem → Prop} {peers : List ℤ} {test : ℤ → Bool}
    {send : LsSystem → ℤ → LsSystem} (hs : P s)
    (hstep : ∀ t peer, P t → P (send t peer)) : P (s.sendToPeers peers test send) := by
  unfold sendToPeers
  generalize peers.filter test = l
  induction l generalizing s with
  | nil => exact hs
  | cons peer l ih => exact ih (hstep s peer hs)

end LsSystem

end NetSim.LinkState
