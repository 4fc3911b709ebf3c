import Mathlib.Data.List.Basic
import NetSim.Lib.Ring

/-! # The DCCP ack vector

`DCCPAckVector` of `dccp/dccp_ackv.cc`: the states of the packets from `seq_tail_` to `seq_head_`,
run-length encoded in the bytes of a ring, the newest packets first. A byte holds a state in two
bits and the number of packets minus one in six. The ring grows when it is full.

Sequence numbers are 32 bits wide, and their differences wrap. The variables of the walks are
structures of their own.
-/

namespace NetSim

open Function

/-- `dccp_packet_state`. -/
inductive PacketState where
  | recv
  | ecn
  | reserved
  | notRecv
  deriving DecidableEq

namespace PacketState

def toBits : PacketState → ℕ
  | .recv => 0
  | .ecn => 1
  | .reserved => 2
  | .notRecv => 3

def ofBits (n : ℕ) : PacketState :=
  match n % 4 with
  | 0 => .recv
  | 1 => .ecn
  | 2 => .reserved
  | _ => .notRecv

/-- `ackv_cons_[old][new]`. -/
def cons : PacketState → PacketState → PacketState
  | .recv, .reserved => .reserved
  | .recv, _ => .recv
  | .ecn, .reserved => .reserved
  | .ecn, _ => .ecn
  | .reserved, _ => .reserved
  | .notRecv, state => state

end PacketState

def u32 (x : ℤ) : ℕ := (x % 2 ^ 32).toNat

def i32 (x : ℤ) : ℤ := (x + 2 ^ 31) % 2 ^ 32 - 2 ^ 31

def dccpMaxAckvSize : ℕ := 0xFFFF

/-- `vector_[i] & DCCP_RUN_LENGTH_MASK`. -/
def runlen (b : ℕ) : ℕ := b % 64

/-- `vector_[i] >> DCCP_RUN_LENGTH_BITS`. -/
def stateBits (b : ℕ) : PacketState := PacketState.ofBits (b / 64)

def item (state : PacketState) (runlen : ℕ) : ℕ := state.toBits * 64 + runlen

structure DccpAckVector where
  vector : ℕ → ℕ
  size : ℕ
  maxSize : ℕ
  head : ℕ
  tail : ℕ
  seqHead : ℕ
  seqTail : ℕ
  ene : ℕ

namespace DccpAckVector

def init (initialSize : ℕ) : DccpAckVector :=
  { vector := fun _ => 0, size := 0, maxSize := initialSize, head := 0, tail := 0, seqHead := 0,
    seqTail := 0, ene := 0 }

def doubleMaxSize (v : DccpAckVector) : DccpAckVector × Bool :=
  if v.maxSize = dccpMaxAckvSize then (v, false)
  else
    ({ v with
        vector := fun i => if i < v.size then v.vector ((v.head + i) % v.maxSize) else 0
        maxSize := min (v.maxSize * 2) dccpMaxAckvSize
        head := if 0 < v.size then 0 else v.head
        tail := if 0 < v.size then v.size - 1 else v.tail }, true)

/-- The ring can only be doubled until it has `DCCP_MAX_ACKV_SIZE` bytes, which bounds the number of
recursive calls. -/
def growths (v : DccpAckVector) : ℕ := dccpMaxAckvSize + 1 - v.maxSize

/-- `while (walker != stop) { vector_[walker] = a; walker = (walker + 1) % n; }`. -/
def fill (n a stop : ℕ) : ℕ → ℕ → (ℕ → ℕ) → ℕ → ℕ
  | 0, _, vector => vector
  | fuel + 1, walker, vector =>
    if walker = stop then vector
    else fill n a stop fuel ((walker + 1) % n) (update vector walker a)

def addItems (state : PacketState) (runlen count : ℕ) : ℕ → DccpAckVector → DccpAckVector × Bool
  | 0, v => (v, false)
  | fuel + 1, v =>
    if v.maxSize < v.size + count then
      let r := v.doubleMaxSize
      if r.2 then addItems state runlen count fuel r.1 else r
    else
      let newHead := (v.head + v.maxSize - count) % v.maxSize
      ({ v with
          seqHead := if v.size ≠ 0 then u32 (v.seqHead + (runlen + 1) * count) else v.seqHead
          vector := fill v.maxSize (item state runlen) v.head v.maxSize newHead v.vector
          size := v.size + count
          head := newHead }, true)

/-- The loop of `findSeqNum`: `where`, `seq_start` and `seq_end`. -/
def findLoop (v : DccpAckVector) (seqnum stop : ℕ) : ℕ → ℕ → ℕ → Option (ℕ × ℕ × ℕ)
  | 0, _, _ => none
  | fuel + 1, pos, seqStart =>
    let seqEnd := u32 (seqStart - runlen (v.vector pos))
    if seqEnd ≤ seqnum ∧ seqnum ≤ seqStart then some (pos, seqStart, seqEnd)
    else
      let next := (pos + 1) % v.maxSize
      if next = stop then none else findLoop v seqnum stop fuel next (u32 (seqEnd - 1))

def findSeqNum (v : DccpAckVector) (seqnum : ℕ) : Option (ℕ × ℕ × ℕ) :=
  if v.size = 0 ∨ v.seqHead < seqnum ∨ seqnum < v.seqTail then none
  else findLoop v seqnum ((v.tail + 1) % v.maxSize) v.maxSize v.head v.seqHead

def getState (v : DccpAckVector) (seqnum : ℕ) : Option PacketState :=
  if v.size = 0 ∨ v.seqHead < seqnum ∨ seqnum < v.seqTail then none
  else (v.findSeqNum seqnum).map (fun r => stateBits (v.vector r.1))

/-- The loop of `alterState` that moves the cells from the head up to `pos`. -/
def moveLoop (n pos : ℕ) : ℕ → ℕ → ℕ → (ℕ → ℕ) → ℕ → ℕ
  | 0, _, _, vector => vector
  | fuel + 1, src, dst, vector =>
    if src = pos then vector
    else moveLoop n pos fuel ((src + 1) % n) ((dst + 1) % n)
      (update vector dst (vector src))

/-- The end of `alterState`: the cell at `pos` is replaced by two or three items. -/
def replace (v : DccpAckVector) (pos : ℕ) (items : List ℕ) : DccpAckVector :=
  let n := v.maxSize
  let more := items.length - 1
  let v' :=
    if pos = v.tail then
      { v with
        tail := (v.tail + more) % n
        vector := Ring.store n items pos v.vector }
    else if pos = v.head then
      let head := (v.head + n - more) % n
      { v with head, vector := Ring.store n items head v.vector }
    else
      let head := (v.head + n - more) % n
      { v with
        head
        vector := Ring.store n items ((pos + n - more) % n)
          (moveLoop n pos n v.head head v.vector) }
  { v' with size := v.size + more }

/-- What `alterState` writes for a packet of a cell that has another state: the new items, or the
cell itself when it is a single packet. -/
def alteredItems (b seqnum seqStart seqEnd : ℕ) (newstate : PacketState) : List ℕ :=
  if runlen b = 0 then [item newstate 0]
  else if seqnum = seqStart then [item newstate 0, item (stateBits b) (runlen b - 1)]
  else if seqnum = seqEnd then [item (stateBits b) (runlen b - 1), item newstate 0]
  else
    [item (stateBits b) (runlen b - 1 - (seqnum - seqEnd)), item newstate 0,
      item (stateBits b) (runlen b - 1 - (seqStart - seqnum))]

def alterState (seqnum : ℕ) (newstate : PacketState) : ℕ → DccpAckVector → DccpAckVector × Bool
  | 0, v => (v, false)
  | fuel + 1, v =>
    match v.findSeqNum seqnum with
    | none => (v, false)
    | some (pos, seqStart, seqEnd) =>
      let b := v.vector pos
      let items := alteredItems b seqnum seqStart seqEnd newstate
      if stateBits b = newstate then (v, true)
      else if runlen b = 0 then
        ({ v with vector := update v.vector pos (item newstate 0) }, true)
      else if v.maxSize < v.size + (items.length - 1) then
        let r := v.doubleMaxSize
        if r.2 then alterState seqnum newstate fuel r.1 else r
      else (v.replace pos items, true)

def addPacket (seqnum : ℕ) (state : PacketState) : ℕ → DccpAckVector → DccpAckVector × Bool
  | 0, v => (v, false)
  | fuel + 1, v =>
    let dist := i32 (seqnum - v.seqHead)
    if v.size = 0 then
      let v := { v with seqHead := seqnum, seqTail := seqnum, head := 0, tail := v.maxSize - 1 }
      addItems state 0 1 v.growths v
    else if 1 < dist then
      -- some packets are missing
      let numFulls := (dist - 2).toNat / 64
      let lastRunlen := (dist - 2).toNat % 64
      if v.maxSize < v.size + numFulls + 1 + 1 then
        let r := v.doubleMaxSize
        if r.2 then addPacket seqnum state fuel r.1 else r
      else
        let v := if 0 < numFulls then (addItems .notRecv 63 numFulls v.growths v).1 else v
        let v := (addItems .notRecv lastRunlen 1 v.growths v).1
        addItems state 0 1 v.growths v
    else if dist = 1 then
      -- expected packet
      let b := v.vector v.head
      if runlen b < 63 ∧ stateBits b = state then
        ({ v with vector := update v.vector v.head (b + 1), seqHead := seqnum }, true)
      else addItems state 0 1 v.growths v
    else
      match v.getState seqnum with
      | none => (v, false)
      | some curr => alterState seqnum (curr.cons state) v.growths v

def removePackets (v : DccpAckVector) (seqnum : ℕ) : DccpAckVector :=
  if v.size = 0 ∨ seqnum < v.seqTail then v
  else if v.seqHead < seqnum then
    { v with size := 0, seqTail := v.seqHead, tail := v.head, ene := 0 }
  else
    match v.findSeqNum seqnum with
    | none => v
    | some (pos, seqStart, seqEnd) =>
      if 0 < seqStart - seqEnd ∧ seqStart ≠ seqnum then
        { v with
          vector := update v.vector pos (v.vector pos - (seqnum - seqEnd + 1))
          size := (pos + v.maxSize - v.head) % v.maxSize + 1
          tail := pos
          seqTail := u32 (seqnum + 1) }
      else if pos = v.head then
        { v with size := 0, seqTail := v.seqHead, tail := v.head, ene := 0 }
      else
        let pos := (pos + v.maxSize - 1) % v.maxSize
        { v with
          size := (pos + v.maxSize - v.head) % v.maxSize + 1
          tail := pos
          seqTail := u32 (seqnum + 1) }

/-! ## Walks -/

structure PacketWalk where
  pWalk : ℕ
  seqPWalk : ℕ
  deltaPWalk : ℕ
  pWalking : Bool
  pReverse : Bool

def startPacketWalk (v : DccpAckVector) : PacketWalk :=
  { pWalk := v.head, seqPWalk := v.seqHead, deltaPWalk := 0, pWalking := v.size ≠ 0,
    pReverse := false }

/-- `nextPacket`; `none` stands for the result false. -/
def nextPacket (v : DccpAckVector) (w : PacketWalk) : Option ((ℕ × PacketState) × PacketWalk) :=
  if w.pWalking = false ∨ w.pReverse = true then none
  else
    let beyond := runlen (v.vector w.pWalk) < w.deltaPWalk
    let pWalk := if beyond then (w.pWalk + 1) % v.maxSize else w.pWalk
    some ((w.seqPWalk, stateBits (v.vector pWalk)),
      { w with
        pWalk
        deltaPWalk := if beyond then 1 else w.deltaPWalk + 1
        pWalking := w.seqPWalk ≠ v.seqTail
        seqPWalk := u32 (w.seqPWalk - 1) })

def startReversePacketWalk (v : DccpAckVector) : PacketWalk :=
  { pWalk := v.tail, seqPWalk := v.seqTail, deltaPWalk := 0, pWalking := v.size ≠ 0,
    pReverse := true }

def prevPacket (v : DccpAckVector) (w : PacketWalk) : Option ((ℕ × PacketState) × PacketWalk) :=
  if w.pWalking = false ∨ w.pReverse = false then none
  else
    let beyond := runlen (v.vector w.pWalk) < w.deltaPWalk
    let pWalk := if beyond then (w.pWalk + v.maxSize - 1) % v.maxSize else w.pWalk
    some ((w.seqPWalk, stateBits (v.vector pWalk)),
      { w with
        pWalk
        deltaPWalk := if beyond then 1 else w.deltaPWalk + 1
        pWalking := w.seqPWalk ≠ v.seqHead
        seqPWalk := u32 (w.seqPWalk + 1) })

structure IntervalWalk where
  iWalk : ℕ
  seqIWalk : ℕ
  iWalking : Bool

def startIntervalWalk (v : DccpAckVector) : IntervalWalk :=
  { iWalk := v.head, seqIWalk := v.seqHead, iWalking := v.size ≠ 0 }

/-- `nextInterval`: the byte, `seq_start`, `seq_end` and the state. -/
def nextInterval (v : DccpAckVector) (w : IntervalWalk) :
    Option ((ℕ × ℕ × ℕ × PacketState) × IntervalWalk) :=
  if w.iWalking = false then none
  else
    let b := v.vector w.iWalk
    let seqEnd := u32 (w.seqIWalk - runlen b)
    some ((b, w.seqIWalk, seqEnd, stateBits b),
      { iWalking := w.iWalk ≠ v.tail
        iWalk := (w.iWalk + 1) % v.maxSize
        seqIWalk := u32 (seqEnd - 1) })

/-- Everything that a walk returns, for at most `fuel` calls. -/
def collect {σ ω : Type} (next : σ → Option (ω × σ)) : ℕ → σ → List ω
  | 0, _ => []
  | fuel + 1, w =>
    match next w with
    | none => []
    | some (x, w) => x :: collect next fuel w

end DccpAckVector

end NetSim
