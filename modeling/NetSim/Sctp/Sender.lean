import NetSim.Lib.Walk
import NetSim.Sctp.Receiver

/-! # The SCTP sender

The send side of `SctpAgent` (`sctp/sctp.cc`): the send buffer, the destinations with their
congestion control, the processing of SACK chunks and the retransmissions. The destinations in
`sDestList` are numbered, `spDest` and the other pointers are such numbers.

Timers and RTT measurements only decide when the next event comes and are left out, and so are the
windows `uiPeerRwnd` and `uiAvailSwnd`, which only `SendMuch` looks at. NR-SACKs are not in use.
-/

namespace NetSim.Sctp

open Walk

inductive MarkedForRtx where
  | noRtx
  | fastRtx
  | timeoutRtx
  deriving DecidableEq

inductive DestStatus where
  | inactive
  | possiblyFailed
  | active
  | unconfirmed
  deriving DecidableEq

inductive RtxToAlt where
  | off
  | on
  | timeoutsOnly
  deriving DecidableEq

inductive DormantAction where
  | hop
  | primary
  | lastDest
  deriving DecidableEq

inductive RtxLimit where
  | onePacket
  | cwnd
  | zero
  deriving DecidableEq

/-- `SctpSendBufferNode_S` with the header fields of its chunk. -/
structure SendBufferNode (n : ℕ) where
  uiTsn : ℤ
  usLength : ℕ
  usStreamId : ℕ
  eAdvancedAcked : Bool
  eGapAcked : Bool
  eAddedToPartialBytesAcked : Bool
  iNumMissingReports : ℤ
  iUnrelRtxLimit : ℤ
  eMarkedForRtx : MarkedForRtx
  eIneligibleForFastRtx : Bool
  iNumTxs : ℤ
  spDest : Fin n
  deriving DecidableEq

structure Dest where
  iCwnd : ℤ
  iSsthresh : ℤ
  iPartialBytesAcked : ℤ
  iOutstandingBytes : ℤ
  iNumNewlyAckedBytes : ℤ
  iErrorCount : ℕ
  eStatus : DestStatus
  eCcApplied : Bool
  deriving DecidableEq

/-- What is set up before the association; `spOutStreams i` is the mode of the stream `i`. -/
structure SenderConfig where
  uiMaxDataSize : ℕ
  uiMaxPayloadSize : ℕ
  iFastRtxTrigger : ℤ
  eUseMaxBurst : Bool
  eRtxToAlt : RtxToAlt
  eDormantAction : DormantAction
  spOutStreams : ℕ → StreamMode

structure SendState (n : ℕ) where
  sSendBuffer : List (SendBufferNode n)
  sDestList : Fin n → Dest
  spPrimaryDest : Fin n
  spNewTxDest : Fin n
  uiNextTsn : ℤ
  uiCumAckPoint : ℤ
  uiAdvancedPeerAckPoint : ℤ
  uiHighestTsnNewlyAcked : ℤ
  uiHighestTsnSent : ℤ
  uiRecover : ℤ
  eMarkedChunksPending : Bool
  eApplyMaxBurst : Bool
  uiBurstLength : ℕ

structure GapAckBlock where
  usStartOffset : ℕ
  usEndOffset : ℕ

/-- `SctpSackChunk_S` with the gap ack blocks behind it. -/
structure SackChunk where
  uiCumAck : ℤ
  gapAckBlocks : List GapAckBlock

variable {n : ℕ}

def SendState.init (cfg : SenderConfig) (iInitialSsthresh : ℤ) (spPrimaryDest : Fin n) :
    SendState n :=
  { sSendBuffer := []
    sDestList := fun _ =>
      { iCwnd := min (4 * cfg.uiMaxDataSize) (max 4380 (2 * cfg.uiMaxDataSize))
        iSsthresh := iInitialSsthresh
        iPartialBytesAcked := 0
        iOutstandingBytes := 0
        iNumNewlyAckedBytes := 0
        iErrorCount := 0
        eStatus := .active
        eCcApplied := false }
    spPrimaryDest := spPrimaryDest
    spNewTxDest := spPrimaryDest
    uiNextTsn := 0
    uiCumAckPoint := 0
    uiAdvancedPeerAckPoint := 0
    uiHighestTsnNewlyAcked := 0
    uiHighestTsnSent := 0
    uiRecover := 0
    eMarkedChunksPending := false
    eApplyMaxBurst := false
    uiBurstLength := 0 }

def SendState.setDest (s : SendState n) (d : Fin n) (f : Dest → Dest) : SendState n :=
  { s with sDestList := Function.update s.sDestList d (f (s.sDestList d)) }

def SendState.addOutstanding (s : SendState n) (d : Fin n) (bytes : ℤ) : SendState n :=
  s.setDest d (fun dest => { dest with iOutstandingBytes := dest.iOutstandingBytes + bytes })

/-! ## New chunks -/

def addToSendBuffer (uiTsn : ℤ) (usLength usStreamId : ℕ) (uiReliability : ℤ) (spDest : Fin n)
    (s : SendState n) : SendState n :=
  { s with
    sSendBuffer := s.sSendBuffer ++
      [{ uiTsn := uiTsn
         usLength := usLength
         usStreamId := usStreamId
         eAdvancedAcked := false
         eGapAcked := false
         eAddedToPartialBytesAcked := false
         iNumMissingReports := 0
         iUnrelRtxLimit := uiReliability
         eMarkedForRtx := .noRtx
         eIneligibleForFastRtx := false
         iNumTxs := 1
         spDest := spDest }] }

def genOneDataChunk (usLength usStreamId : ℕ) (uiReliability : ℤ) (s : SendState n) : SendState n :=
  let s := { s with uiNextTsn := s.uiNextTsn + 1 }
  (addToSendBuffer s.uiNextTsn usLength usStreamId uiReliability s.spNewTxDest s).addOutstanding
    s.spNewTxDest usLength

/-! ## Retransmission -/

def markChunkForRtx (cfg : SenderConfig) (eMarkedForRtx : MarkedForRtx) (node : SendBufferNode n)
    (s : SendState n) : SendBufferNode n × SendState n :=
  let r :=
    if cfg.spOutStreams node.usStreamId = .unreliable ∧ node.iUnrelRtxLimit < node.iNumTxs then
      ({ node with eAdvancedAcked := true, eMarkedForRtx := .noRtx },
        s.addOutstanding node.spDest (-node.usLength))
    else ({ node with eMarkedForRtx := eMarkedForRtx }, s)
  if r.1.eMarkedForRtx ≠ .noRtx then (r.1, { r.2 with eMarkedChunksPending := true }) else r

def anyMarkedChunks (buffer : List (SendBufferNode n)) : Bool :=
  buffer.any (fun node => node.eMarkedForRtx ≠ .noRtx)

/-- The next destination in `sDestList`, around to its head. -/
def spNext (d : Fin n) : Fin n := ⟨(d + 1) % n, Nat.mod_lt _ d.pos⟩

def nextDestLoop (s : SendState n) (spCurr : Fin n) : ℕ → Fin n → Fin n
  | 0, d => d
  | fuel + 1, d =>
    if (s.sDestList (spNext d)).eStatus = .inactive ∧ spNext d ≠ spCurr then
      nextDestLoop s spCurr fuel (spNext d)
    else spNext d

def getNextDest (cfg : SenderConfig) (s : SendState n) (spDest : Fin n) : Fin n :=
  let next := nextDestLoop s spDest n spDest
  if next = spDest ∧ (s.sDestList next).eStatus = .inactive then
    match cfg.eDormantAction with
    | .hop => spNext next
    | .primary => s.spPrimaryDest
    | .lastDest => next
  else next

/-- The destination that `RtxMarkedChunks` picks for the first marked chunk. -/
def rtxDestOf (cfg : SenderConfig) (s : SendState n) (node : SendBufferNode n) : Fin n :=
  match cfg.eRtxToAlt with
  | .off =>
    if (s.sDestList node.spDest).eStatus = .active then node.spDest
    else getNextDest cfg s node.spDest
  | .on => getNextDest cfg s node.spDest
  | .timeoutsOnly =>
    if node.eMarkedForRtx = .fastRtx ∧ (s.sDestList node.spDest).eStatus = .active then
      node.spDest
    else getNextDest cfg s node.spDest

def firstMarked (buffer : List (SendBufferNode n)) : Option (SendBufferNode n) :=
  buffer.find? (fun node => node.eMarkedForRtx ≠ .noRtx)

/-- A step of the loops that count the marked chunks as not outstanding (`sign` is `-1`) and as
outstanding again (`sign` is `1`). -/
def countMarked (sign : ℤ) (node : SendBufferNode n) (s : SendState n) :
    SendBufferNode n × SendState n :=
  if node.eMarkedForRtx ≠ .noRtx then (node, s.addOutstanding node.spDest (sign * node.usLength))
  else (node, s)

def paddedSize (usLength : ℕ) : ℕ :=
  if usLength % 4 ≠ 0 then usLength + (4 - usLength % 4) else usLength

/-- One packet of `RtxMarkedChunks`. -/
structure RtxPacket (n : ℕ) where
  passed : List (SendBufferNode n)
  rest : List (SendBufferNode n)
  iOutDataSize : ℕ
  state : SendState n

/-- The inner loop of `RtxMarkedChunks`: marked chunks are put into the packet until one does not
fit. `BundleControlChunks` bundles none. -/
def fillPacket (cfg : SenderConfig) (spRtxDest : Fin n) :
    List (SendBufferNode n) → ℕ → SendState n → RtxPacket n
  | [], iOutDataSize, s => ⟨[], [], iOutDataSize, s⟩
  | node :: rest, iOutDataSize, s =>
    if node.eMarkedForRtx ≠ .noRtx then
      if cfg.uiMaxPayloadSize < iOutDataSize + node.usLength then
        ⟨[], node :: rest, iOutDataSize, s⟩
      else
        let r := fillPacket cfg spRtxDest rest (iOutDataSize + paddedSize node.usLength)
          (s.addOutstanding spRtxDest node.usLength)
        { r with
          passed :=
            { node with
              spDest := spRtxDest
              iNumTxs := node.iNumTxs + 1
              eMarkedForRtx := .noRtx } :: r.passed }
    else
      let r := fillPacket cfg spRtxDest rest iOutDataSize s
      { r with passed := node :: r.passed }

def maxBurst : ℕ := 4

/-- The test for `Max.Burst` after a packet: whether the loop is left. -/
def burstReached (cfg : SenderConfig) (s : SendState n) : SendState n × Bool :=
  if cfg.eUseMaxBurst = true ∧ s.eApplyMaxBurst = true then
    if maxBurst ≤ s.uiBurstLength then
      ({ s with uiBurstLength := s.uiBurstLength + 1, eApplyMaxBurst := false }, true)
    else ({ s with uiBurstLength := s.uiBurstLength + 1 }, false)
  else (s, false)

/-- The condition of the outer loop of `RtxMarkedChunks`, without the end of the buffer. -/
def rtxAllowed (eLimit : RtxLimit) (spRtxDest : Fin n) (iNumPacketsSent : ℕ) (s : SendState n) :
    Prop :=
  (eLimit = .onePacket ∧ iNumPacketsSent < 1) ∨
    (eLimit = .cwnd ∧
      (s.sDestList spRtxDest).iOutstandingBytes < (s.sDestList spRtxDest).iCwnd)

instance (eLimit : RtxLimit) (spRtxDest : Fin n) (iNumPacketsSent : ℕ) (s : SendState n) :
    Decidable (rtxAllowed eLimit spRtxDest iNumPacketsSent s) :=
  inferInstanceAs (Decidable (_ ∨ _))

/-- The outer loop of `RtxMarkedChunks`, with what it makes of the chunks from the current one on.
It does not return when a chunk does not fit into an empty packet. -/
def rtxLoop (cfg : SenderConfig) (eLimit : RtxLimit) (spRtxDest : Fin n) :
    ℕ → ℕ → List (SendBufferNode n) → SendState n → Option (List (SendBufferNode n) × SendState n)
  | 0, _, _, _ => none
  | fuel + 1, iNumPacketsSent, curr, s =>
    if curr ≠ [] ∧ rtxAllowed eLimit spRtxDest iNumPacketsSent s then
      let r := fillPacket cfg spRtxDest curr 0 s
      if 0 < r.iOutDataSize then
        let b := burstReached cfg r.state
        if b.2 = true then some (r.passed ++ r.rest, b.1)
        else
          (rtxLoop cfg eLimit spRtxDest fuel (iNumPacketsSent + 1) r.rest b.1).map
            (fun t => (r.passed ++ t.1, t.2))
      else
        (rtxLoop cfg eLimit spRtxDest fuel iNumPacketsSent r.rest r.state).map
          (fun t => (r.passed ++ t.1, t.2))
    else some (curr, s)

/-- `RtxMarkedChunks`. Without a marked chunk there is no destination, and the limit `RTX_LIMIT_CWND`
looks at it. -/
def rtxMarkedChunks (cfg : SenderConfig) (eLimit : RtxLimit) (s : SendState n) :
    Option (SendState n) :=
  let s := { s with uiBurstLength := 0 }
  match firstMarked s.sSendBuffer with
  | none => if eLimit = .cwnd then none else some { s with eMarkedChunksPending := false }
  | some node =>
    let counted := walk (countMarked (-1)) s.sSendBuffer s
    (rtxLoop cfg eLimit (rtxDestOf cfg s node) (counted.1.length + 1) 0 counted.1 counted.2).map
      (fun t =>
        let recounted := walk (countMarked 1) t.1 t.2
        { recounted.2 with
          sSendBuffer := recounted.1
          eMarkedChunksPending := anyMarkedChunks recounted.1 })

/-- A step of the loop of `TimeoutRtx`. -/
def timeoutChunk (cfg : SenderConfig) (spDest : Fin n) (node : SendBufferNode n)
    (s : SendState n) : SendBufferNode n × SendState n :=
  if node.spDest = spDest ∧ node.eGapAcked = false ∧ node.eAdvancedAcked = false then
    let r := markChunkForRtx cfg .timeoutRtx node s
    ({ r.1 with iNumMissingReports := 0 }, r.2)
  else (node, s)

def timeoutRtx (cfg : SenderConfig) (spDest : Fin n) (s : SendState n) : Option (SendState n) :=
  let r := walk (timeoutChunk cfg spDest) s.sSendBuffer s
  let s : SendState n := { r.2 with sSendBuffer := r.1 }
  if s.eMarkedChunksPending = true then rtxMarkedChunks cfg .onePacket s else some s

/-- `GetHighestOutstandingTsn`, which also raises `uiHighestTsnSent`. -/
def getHighestOutstandingTsn (buffer : List (SendBufferNode n)) (s : SendState n) :
    ℤ × SendState n :=
  let uiTsn := match buffer.reverse.find? (fun node => node.eMarkedForRtx = .noRtx) with
    | some node => node.uiTsn
    | none => 0
  if uiTsn < s.uiHighestTsnSent then (s.uiHighestTsnSent, s)
  else (uiTsn, { s with uiHighestTsnSent := uiTsn })

/-- A step of the loop of `FastRtx`. -/
def cutCwnd (cfg : SenderConfig) (buffer : List (SendBufferNode n)) (s : SendState n)
    (node : SendBufferNode n) : SendState n :=
  if (node.eMarkedForRtx ≠ .noRtx ∨ node.eAdvancedAcked = true) ∧
      (s.sDestList node.spDest).eCcApplied = false ∧ s.uiRecover < node.uiTsn then
    let s := s.setDest node.spDest (fun dest =>
      { dest with
        iSsthresh := max (dest.iCwnd.tdiv 2) (4 * cfg.uiMaxDataSize)
        iCwnd := max (dest.iCwnd.tdiv 2) (4 * cfg.uiMaxDataSize)
        iPartialBytesAcked := 0
        eCcApplied := true })
    let r := getHighestOutstandingTsn buffer s
    { r.2 with uiRecover := r.1 }
  else s

def fastRtx (cfg : SenderConfig) (s : SendState n) : Option (SendState n) :=
  let s := { s with sDestList := fun d => { s.sDestList d with eCcApplied := false } }
  let s := s.sSendBuffer.foldl (cutCwnd cfg s.sSendBuffer) s
  if s.eMarkedChunksPending = true then rtxMarkedChunks cfg .onePacket s else some s

/-! ## SACK chunks -/

def clearErrors (d : Fin n) (s : SendState n) : SendState n :=
  let s := s.setDest d (fun dest => { dest with iErrorCount := 0, eStatus := .active })
  if d = s.spPrimaryDest ∧ s.spNewTxDest ≠ s.spPrimaryDest then
    { s with spNewTxDest := s.spPrimaryDest }
  else s

/-- What `SendBufferDequeueUpTo` does with a chunk before it deletes it. -/
def dequeueChunk (node : SendBufferNode n) (s : SendState n) : SendState n :=
  let s :=
    if node.eGapAcked = false ∧ node.eAdvancedAcked = false then
      { s with uiHighestTsnNewlyAcked := node.uiTsn }.setDest node.spDest (fun dest =>
        { dest with
          iNumNewlyAckedBytes := dest.iNumNewlyAckedBytes + node.usLength
          iPartialBytesAcked :=
            if dest.iSsthresh < dest.iCwnd ∧ dest.iCwnd ≤ dest.iOutstandingBytes then
              dest.iPartialBytesAcked + node.usLength
            else dest.iPartialBytesAcked })
    else s
  let s := if node.eIneligibleForFastRtx = true then { s with eApplyMaxBurst := true } else s
  if (s.sDestList node.spDest).iErrorCount ≠ 0 ∧ node.eMarkedForRtx ≠ .timeoutRtx ∧
      node.eGapAcked = false then
    clearErrors node.spDest s
  else s

def dequeueLoop (uiTsn : ℤ) :
    List (SendBufferNode n) → SendState n → List (SendBufferNode n) × SendState n
  | [], s => ([], s)
  | node :: rest, s =>
    if node.uiTsn ≤ uiTsn then dequeueLoop uiTsn rest (dequeueChunk node s) else (node :: rest, s)

def sendBufferDequeueUpTo (uiTsn : ℤ) (s : SendState n) : SendState n :=
  let r := dequeueLoop uiTsn s.sSendBuffer s
  { r.2 with sSendBuffer := r.1 }

/-- A chunk that the SACK does not acknowledge any more. -/
def unGapAck (node : SendBufferNode n) (s : SendState n) : SendBufferNode n × SendState n :=
  if node.eGapAcked = true then
    ({ node with eGapAcked := false }, s.addOutstanding node.spDest node.usLength)
  else (node, s)

/-- A chunk that is acknowledged by a gap ack block. -/
def gapAck (eNewCumAck : Bool) (node : SendBufferNode n) (s : SendState n) :
    SendBufferNode n × SendState n :=
  if node.eGapAcked = false then
    let s := { s with uiHighestTsnNewlyAcked := max s.uiHighestTsnNewlyAcked node.uiTsn }
    let s :=
      if node.eAdvancedAcked = false then
        s.setDest node.spDest (fun dest =>
          { dest with iNumNewlyAckedBytes := dest.iNumNewlyAckedBytes + node.usLength })
      else s
    let partialBytes := (s.sDestList node.spDest).iSsthresh < (s.sDestList node.spDest).iCwnd ∧
      eNewCumAck = true ∧ node.eAddedToPartialBytesAcked = false
    let s :=
      if partialBytes then
        s.setDest node.spDest (fun dest =>
          { dest with iPartialBytesAcked := dest.iPartialBytesAcked + node.usLength })
      else s
    let s :=
      if (s.sDestList node.spDest).iErrorCount ≠ 0 ∧ node.eMarkedForRtx ≠ .timeoutRtx then
        clearErrors node.spDest s
      else s
    ({ node with
        eGapAcked := true
        eAddedToPartialBytesAcked :=
          if partialBytes then true else node.eAddedToPartialBytesAcked
        eMarkedForRtx := .noRtx }, s)
  else (node, s)

/-- The loops of `ProcessGapAckBlocks` over the send buffer and the gap ack blocks. The last
component is `uiHighestTsnSacked`. -/
def gapAckLoop (uiCumAck : ℤ) (eNewCumAck : Bool) :
    List GapAckBlock → List (SendBufferNode n) → SendState n → ℤ →
      List (SendBufferNode n) × SendState n × ℤ
  | block :: blocks, node :: rest, s, high =>
    let uiStartTsn := uiCumAck + block.usStartOffset
    let uiEndTsn := uiCumAck + block.usEndOffset
    let high := max high uiEndTsn
    if node.uiTsn < uiStartTsn then
      let r := unGapAck node s
      let t := gapAckLoop uiCumAck eNewCumAck (block :: blocks) rest r.2 high
      (r.1 :: t.1, t.2)
    else if node.uiTsn ≤ uiEndTsn then
      let r := gapAck eNewCumAck node s
      let t := gapAckLoop uiCumAck eNewCumAck (block :: blocks) rest r.2 (max high node.uiTsn)
      (r.1 :: t.1, t.2)
    else
      -- past the block; this chunk is not compared with the next one
      let r := unGapAck node s
      let t := gapAckLoop uiCumAck eNewCumAck blocks rest r.2 high
      (r.1 :: t.1, t.2)
  | [], nodes, s, high =>
    let r := walk unGapAck nodes s
    (r.1, r.2, high)
  | blocks, [], s, high =>
    ([], s, blocks.foldl (fun high block => max high (uiCumAck + block.usEndOffset)) high)

/-- A step of the loop of `ProcessGapAckBlocks` that counts the missing reports. -/
def reportMissing (cfg : SenderConfig) (eNewCumAck : Bool) (uiHighestTsnSacked : ℤ)
    (node : SendBufferNode n) (r : SendState n × Bool) :
    SendBufferNode n × SendState n × Bool :=
  let s := r.1
  if node.eGapAcked = false ∧
      (node.uiTsn < s.uiHighestTsnNewlyAcked ∨
        (eNewCumAck = true ∧ s.uiHighestTsnNewlyAcked ≤ s.uiRecover ∧
          node.uiTsn < uiHighestTsnSacked)) then
    let node := { node with iNumMissingReports := node.iNumMissingReports + 1 }
    if cfg.iFastRtxTrigger ≤ node.iNumMissingReports ∧ node.eIneligibleForFastRtx = false ∧
        node.eAdvancedAcked = false then
      let m := markChunkForRtx cfg .fastRtx node s
      ({ m.1 with eIneligibleForFastRtx := true }, m.2, true)
    else (node, s, r.2)
  else (node, s, r.2)

/-- `ProcessGapAckBlocks`; the result is `eFastRtxNeeded`. -/
def processGapAckBlocks (cfg : SenderConfig) (sack : SackChunk) (eNewCumAck : Bool)
    (s : SendState n) : SendState n × Bool :=
  if s.sSendBuffer = [] then (s, false)
  else
    let g := gapAckLoop sack.uiCumAck eNewCumAck sack.gapAckBlocks s.sSendBuffer s
      s.uiHighestTsnNewlyAcked
    let m := walk (reportMissing cfg eNewCumAck g.2.2) g.1 (g.2.1, false)
    ({ m.2.1 with sSendBuffer := m.1 }, m.2.2)

def adjustCwnd (cfg : SenderConfig) (dest : Dest) : Dest :=
  if dest.iCwnd ≤ dest.iSsthresh then
    if dest.iCwnd ≤ dest.iOutstandingBytes then
      { dest with iCwnd := dest.iCwnd + min dest.iNumNewlyAckedBytes cfg.uiMaxDataSize }
    else dest
  else if dest.iCwnd ≤ dest.iPartialBytesAcked ∧ dest.iCwnd ≤ dest.iOutstandingBytes then
    { dest with
      iPartialBytesAcked :=
        if dest.iCwnd ≤ dest.iPartialBytesAcked then dest.iPartialBytesAcked - dest.iCwnd else 0
      iCwnd := dest.iCwnd + cfg.uiMaxDataSize }
  else dest

/-- What `ProcessSackChunk` does with a destination once the chunks are acknowledged. -/
def settleDest (cfg : SenderConfig) (adjust : Bool) (dest : Dest) : Dest :=
  let dest :=
    if adjust = true ∧ 0 < dest.iNumNewlyAckedBytes then adjustCwnd cfg dest else dest
  let dest :=
    { dest with
      iOutstandingBytes :=
        if dest.iNumNewlyAckedBytes ≤ dest.iOutstandingBytes then
          dest.iOutstandingBytes - dest.iNumNewlyAckedBytes
        else 0 }
  if dest.iOutstandingBytes = 0 then { dest with iPartialBytesAcked := 0 } else dest

def advanceLoop : ℤ → List (SendBufferNode n) → ℤ
  | uiAdvancedPeerAckPoint, [] => uiAdvancedPeerAckPoint
  | uiAdvancedPeerAckPoint, node :: rest =>
    if node.eAdvancedAcked = false ∧ node.eGapAcked = false then uiAdvancedPeerAckPoint
    else advanceLoop node.uiTsn rest

def advancePeerAckPoint (s : SendState n) : SendState n :=
  { s with
    uiAdvancedPeerAckPoint :=
      advanceLoop (max s.uiAdvancedPeerAckPoint s.uiCumAckPoint) s.sSendBuffer }

/-- The part of `ProcessSackChunk` that acknowledges chunks, for a SACK that is not ignored; the
result is `eFastRtxNeeded`. -/
def ackChunks (cfg : SenderConfig) (sack : SackChunk) (s : SendState n) : SendState n × Bool :=
  let eNewCumAck := decide (s.uiCumAckPoint < sack.uiCumAck)
  let s := { s with sDestList := fun d => { s.sDestList d with iNumNewlyAckedBytes := 0 } }
  let s :=
    if eNewCumAck = true then
      { sendBufferDequeueUpTo sack.uiCumAck s with uiCumAckPoint := sack.uiCumAck }
    else s
  if sack.gapAckBlocks ≠ [] then processGapAckBlocks cfg sack eNewCumAck s else (s, false)

def processSackChunk (cfg : SenderConfig) (sack : SackChunk) (s : SendState n) :
    Option (SendState n) :=
  if sack.uiCumAck < s.uiCumAckPoint then
    some { s with sDestList := fun d => { s.sDestList d with iNumNewlyAckedBytes := 0 } }
  else
    let eNewCumAck := decide (s.uiCumAckPoint < sack.uiCumAck)
    let r := ackChunks cfg sack s
    let adjust := eNewCumAck && decide (r.1.uiRecover ≤ sack.uiCumAck)
    let s := advancePeerAckPoint
      { r.1 with sDestList := fun d => settleDest cfg adjust (r.1.sDestList d) }
    if r.2 = true then fastRtx cfg s
    else
      let s := { s with eMarkedChunksPending := anyMarkedChunks s.sSendBuffer }
      if s.eMarkedChunksPending = true then rtxMarkedChunks cfg .cwnd s else some s

/-! ## Runs -/

/-- What happens to a sender. `path` stands for everything else that changes the destinations: timers,
heartbeats and timeouts set their congestion windows, error counts and status, and choose the primary
destination and the one for new chunks. -/
inductive SendEvent (n : ℕ) where
  | newChunk (usLength usStreamId : ℕ) (uiReliability : ℤ)
  | sack (chunk : SackChunk)
  | timeout (spDest : Fin n)
  | path (spDest : Fin n) (iCwnd iSsthresh iPartialBytesAcked : ℤ) (iErrorCount : ℕ)
      (eStatus : DestStatus) (spPrimaryDest spNewTxDest : Fin n)

def sendStep (cfg : SenderConfig) (s : SendState n) : SendEvent n → Option (SendState n × Unit)
  | .newChunk usLength usStreamId uiReliability =>
    some (genOneDataChunk usLength usStreamId uiReliability s, ())
  | .sack chunk => (processSackChunk cfg chunk s).map (·, ())
  | .timeout spDest => (timeoutRtx cfg spDest s).map (·, ())
  | .path spDest iCwnd iSsthresh iPartialBytesAcked iErrorCount eStatus spPrimaryDest spNewTxDest =>
    some ({ s with spPrimaryDest := spPrimaryDest, spNewTxDest := spNewTxDest }.setDest spDest
      (fun dest =>
        { dest with
          iCwnd := iCwnd
          iSsthresh := iSsthresh
          iPartialBytesAcked := iPartialBytesAcked
          iErrorCount := iErrorCount
          eStatus := eStatus }), ())

end NetSim.Sctp
