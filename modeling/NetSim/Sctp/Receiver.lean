import Mathlib
import NetSim.Lib.Runs

/-! # The SCTP receiver

The receive side of `SctpAgent` (`sctp/sctp.cc`): which TSNs have arrived (`uiCumAck`,
`uiHighestRecvTsn`, `sRecvTsnBlockList`), the in-streams with their buffered chunks, and the receiver
window. TSNs are integers: below `2 ^ 31`, where `ProcessForwardTsnChunk` compares them as `int`, the
arithmetic of `u_int` does not wrap. Stream sequence numbers are 16 bits wide and wrap.

The chunks that `PassToUpperLayer` is called with are kept in order in `upperLayer`.
-/

namespace NetSim.Sctp

/-- `SctpDataChunkHdr_S`; `unordered` is the flag `SCTP_DATA_FLAG_UNORDERED`. -/
structure DataChunk where
  uiTsn : ℤ
  usLength : ℕ
  usStreamId : ℕ
  usStreamSeqNum : ℕ
  unordered : Bool
  deriving DecidableEq

structure RecvTsnBlock where
  uiStartTsn : ℤ
  uiEndTsn : ℤ
  deriving DecidableEq

inductive StreamMode where
  | reliable
  | unreliable
  deriving DecidableEq

structure InStream where
  eMode : StreamMode
  usNextStreamSeqNum : ℕ
  sBufferedChunkList : List DataChunk

/-- The receive variables of `SctpAgent`. The array `spInStreams` has `iNumInStreams` cells; a cell
beyond them is never looked at by `UpdateAllStreams`. -/
structure Receiver where
  uiMyRwnd : ℕ
  uiCumAck : ℤ
  uiHighestRecvTsn : ℤ
  sRecvTsnBlockList : List RecvTsnBlock
  sDupTsnList : List ℤ
  eSackChunkNeeded : Bool
  iNumInStreams : ℕ
  spInStreams : ℕ → InStream
  upperLayer : List DataChunk

def Receiver.init (c0 : ℤ) (rwnd numInStreams : ℕ) (mode : ℕ → StreamMode) : Receiver :=
  { uiMyRwnd := rwnd
    uiCumAck := c0
    uiHighestRecvTsn := c0
    sRecvTsnBlockList := []
    sDupTsnList := []
    eSackChunkNeeded := false
    iNumInStreams := numInStreams
    spInStreams := fun i =>
      { eMode := mode i, usNextStreamSeqNum := 0, sBufferedChunkList := [] }
    upperLayer := [] }

/-- The linear search and insertion of `InsertDuplicateTsn` and `InsertInStreamBuffer`: before the
first larger key, unless the key is there already. -/
def insertByKey {α κ : Type} [LE κ] [DecidableLE κ] [DecidableEq κ] (key : α → κ) (a : α) :
    List α → List α
  | [] => [a]
  | curr :: rest =>
    if key a ≤ key curr then
      if key a ≠ key curr then a :: curr :: rest else curr :: rest
    else curr :: insertByKey key a rest

/-! ## Received TSNs -/

def updateHighestTsn (uiTsn : ℤ) (s : Receiver) : Receiver × Bool :=
  if s.uiHighestRecvTsn < uiTsn then ({ s with uiHighestRecvTsn := uiTsn }, true) else (s, false)

/-- The loop of `IsDuplicateChunk`. -/
def inBlocks (uiTsn : ℤ) : List RecvTsnBlock → Bool
  | [] => false
  | curr :: rest =>
    if curr.uiStartTsn ≤ uiTsn ∧ uiTsn ≤ curr.uiEndTsn then true
    else if uiTsn < curr.uiEndTsn then false
    else inBlocks uiTsn rest

def isDuplicateChunk (s : Receiver) (uiTsn : ℤ) : Bool :=
  if uiTsn ≤ s.uiCumAck then true
  else if ¬ (s.uiCumAck < uiTsn ∧ uiTsn ≤ s.uiHighestRecvTsn) then false
  else if s.sRecvTsnBlockList.length = 0 then false
  else inBlocks uiTsn s.sRecvTsnBlockList

def insertDuplicateTsn (uiTsn : ℤ) (s : Receiver) : Receiver :=
  { s with sDupTsnList := insertByKey id uiTsn s.sDupTsnList }

def cumAckLoop : ℤ → List RecvTsnBlock → ℤ
  | uiCumAck, [] => uiCumAck
  | uiCumAck, curr :: rest =>
    if uiCumAck + 1 = curr.uiStartTsn then cumAckLoop curr.uiEndTsn rest else uiCumAck

/-- The tracked TSNs after `UpdateCumAck`, which leaves the list as it is. -/
def updateCumAck (r : ℤ × List RecvTsnBlock) : ℤ × List RecvTsnBlock := (cumAckLoop r.1 r.2, r.2)

/-- The loop of `UpdateRecvTsnBlocks`. The nodes that are passed stand in `behind`, the nearest first
(`spPrevNode`); there is one where the source takes its end, since `uiLow` is `uiCumAck + 1` at the
first node. -/
def recvTsnLoop (uiTsn uiCumAck : ℤ) :
    ℤ → List RecvTsnBlock → List RecvTsnBlock → ℤ × List RecvTsnBlock
  | uiLow, behind, curr :: rest =>
    let uiHigh := curr.uiStartTsn - 1
    if uiLow ≤ uiTsn ∧ uiTsn ≤ uiHigh then
      if 1 < uiHigh - uiLow + 1 then
        if uiTsn = uiHigh then
          updateCumAck (uiCumAck, behind.reverse ++ { curr with uiStartTsn := uiTsn } :: rest)
        else if uiTsn = uiLow then
          if uiTsn = uiCumAck + 1 then
            updateCumAck (uiCumAck + 1, behind.reverse ++ curr :: rest)
          else
            match behind with
            | [] => (uiCumAck, curr :: rest)
            | prev :: before =>
              updateCumAck (uiCumAck,
                before.reverse ++ { prev with uiEndTsn := uiTsn } :: curr :: rest)
        else (uiCumAck, behind.reverse ++ ⟨uiTsn, uiTsn⟩ :: curr :: rest)
      else if uiLow = uiCumAck + 1 then
        updateCumAck (curr.uiEndTsn, behind.reverse ++ rest)
      else
        match behind with
        | [] => (uiCumAck, curr :: rest)
        | prev :: before =>
          updateCumAck (uiCumAck,
            before.reverse ++ { prev with uiEndTsn := curr.uiEndTsn } :: rest)
    else recvTsnLoop uiTsn uiCumAck (curr.uiEndTsn + 1) (curr :: behind) rest
  | uiLow, behind, [] =>
    if uiTsn = uiLow then
      if uiTsn = uiCumAck + 1 then updateCumAck (uiTsn, behind.reverse)
      else
        match behind with
        | [] => (uiCumAck, [])
        | prev :: before =>
          (uiCumAck, before.reverse ++ [{ prev with uiEndTsn := prev.uiEndTsn + 1 }])
    else (uiCumAck, behind.reverse ++ [⟨uiTsn, uiTsn⟩])

def updateRecvTsnBlocks (uiTsn : ℤ) (s : Receiver) : Receiver :=
  let r := recvTsnLoop uiTsn s.uiCumAck (s.uiCumAck + 1) [] s.sRecvTsnBlockList
  { s with uiCumAck := r.1, sRecvTsnBlockList := r.2 }

/-! ## Streams -/

def passToUpperLayer (s : Receiver) (chunk : DataChunk) : Receiver :=
  { s with uiMyRwnd := s.uiMyRwnd + chunk.usLength, upperLayer := s.upperLayer ++ [chunk] }

def insertInStreamBuffer (chunk : DataChunk) (buffered : List DataChunk) : List DataChunk :=
  insertByKey DataChunk.usStreamSeqNum chunk buffered

def passToStream (chunk : DataChunk) (s : Receiver) : Receiver :=
  if chunk.unordered then passToUpperLayer s chunk
  else
    let stream := s.spInStreams chunk.usStreamId
    { s with
      spInStreams := Function.update s.spInStreams chunk.usStreamId
        { stream with
          sBufferedChunkList := insertInStreamBuffer chunk stream.sBufferedChunkList } }

/-- The inner loop of `UpdateAllStreams`: the next stream sequence number, the chunks that are passed
up, and those that stay. -/
def drain (uiCumAck : ℤ) (eMode : StreamMode) :
    ℕ → List DataChunk → ℕ × List DataChunk × List DataChunk
  | next, [] => (next, [], [])
  | next, chunk :: rest =>
    if eMode = .unreliable ∧ chunk.uiTsn ≤ uiCumAck then
      let r := drain uiCumAck eMode ((chunk.usStreamSeqNum + 1) % 2 ^ 16) rest
      (r.1, chunk :: r.2.1, r.2.2)
    else if chunk.usStreamSeqNum = next then
      let r := drain uiCumAck eMode ((next + 1) % 2 ^ 16) rest
      (r.1, chunk :: r.2.1, r.2.2)
    else (next, [], chunk :: rest)

/-- One step of the outer loop. -/
def updateStream (s : Receiver) (i : ℕ) : Receiver :=
  let stream := s.spInStreams i
  let r := drain s.uiCumAck stream.eMode stream.usNextStreamSeqNum stream.sBufferedChunkList
  r.2.1.foldl passToUpperLayer
    { s with
      spInStreams := Function.update s.spInStreams i
        { stream with usNextStreamSeqNum := r.1, sBufferedChunkList := r.2.2 } }

def updateAllStreams (s : Receiver) : Receiver := (List.range s.iNumInStreams).foldl updateStream s

/-! ## Chunks -/

/-- What `ProcessDataChunk` does with a chunk. -/
inductive Handling where
  | dropped
  | duplicate
  | passed
  deriving DecidableEq

def processDataChunk (chunk : DataChunk) (s : Receiver) : Receiver × Handling :=
  if chunk.usLength ≤ s.uiMyRwnd then
    let r := updateHighestTsn chunk.uiTsn s
    if r.2 ≠ true ∧ isDuplicateChunk r.1 chunk.uiTsn = true then
      ({ insertDuplicateTsn chunk.uiTsn r.1 with eSackChunkNeeded := true }, .duplicate)
    else
      let s := { r.1 with uiMyRwnd := r.1.uiMyRwnd - chunk.usLength }
      (updateAllStreams (passToStream chunk (updateRecvTsnBlocks chunk.uiTsn s)), .passed)
  else ({ s with eSackChunkNeeded := false }, .dropped)

def forwardLoop : ℕ → ℤ → Receiver → Receiver
  | 0, _, s => s
  | count + 1, i, s =>
    forwardLoop count (i + 1) (if isDuplicateChunk s i = false then updateRecvTsnBlocks i s else s)

def processForwardTsnChunk (uiNewCum : ℤ) (s : Receiver) : Receiver :=
  updateAllStreams (forwardLoop (uiNewCum - s.uiCumAck).toNat (s.uiCumAck + 1) s)

end NetSim.Sctp
