import Mathlib.Algebra.Order.Field.Rat
import Mathlib.Data.List.Basic
import Mathlib.Logic.Function.Basic

/-! # The Snoop agent

A `Snoop` agent (`tcp/snoop.cc`) at a base station keeps copies of the data packets that it sent on and that
were not acknowledged yet, in a ring of `maxbufs_` slots in the order of their sequence numbers, and sends
the first one again after a timeout or a duplicate acknowledgement. The copy doubles as the event of the
timeout. A copy is known by the number `id` of its allocation; the model logs the copies that were freed
and keeps the events of the agent that are in the scheduler. The result is `none` where a null pointer is
used or the scheduler aborts.
-/

namespace NetSim.Snoop

open Function

def snoopClosed : BitVec 16 := 0x02#16

def snoopNoack : BitVec 16 := 0x04#16

def snoopFull : BitVec 16 := 0x08#16

def snoopAlive : BitVec 16 := 0x20#16

def snoopMaxwind : ℕ := 100

def snoopMaxRxmit : ℕ := 10

/-- `SNOOP_PROPAGATE` and `SNOOP_SUPPRESS`. -/
inductive Verdict
  | propagate | suppress
deriving DecidableEq

/-- A copy of a packet, with its `hdr_snoop`. -/
structure Pkt where
  id : ℕ
  seqno : ℤ
  numRxmit : ℕ
  senderRxmit : Bool
  sndTime : ℚ
deriving DecidableEq

/-- The part of a `Snoop` object that caches data packets. -/
structure Agent where
  maxbufs : ℕ
  lru : Bool
  fstate : BitVec 16
  lastSeen : ℤ
  lastAck : ℤ
  expNextAck : ℕ
  expDupacks : ℤ
  bufhead : ℕ
  buftail : ℕ
  toutPending : Option ℕ
  pkts : ℕ → Option Pkt
  scheduled : List ℕ
  freed : List ℕ
  copies : ℕ

/-- Where a packet belongs. -/
inductive Place
  | cached (i : ℕ)
  | before (i : ℕ)
  | behind
deriving DecidableEq

namespace Agent

def init (maxbufs : ℕ) (lru : Bool) : Agent where
  maxbufs := maxbufs
  lru := lru
  fstate := 0
  lastSeen := -1
  lastAck := -1
  expNextAck := 0
  expDupacks := 0
  bufhead := 0
  buftail := 0
  toutPending := none
  pkts := fun _ => none
  scheduled := []
  freed := []
  copies := 0

/-- A test of bits of `fstate_`. -/
def has (s : Agent) (mask : BitVec 16) : Bool := s.fstate &&& mask ≠ 0

def next (s : Agent) (i : ℕ) : ℕ := (i + 1) % s.maxbufs

def prev (s : Agent) (i : ℕ) : ℕ := if i = 0 then s.maxbufs - 1 else i - 1

def empty (s : Agent) : Bool := s.bufhead = s.buftail && !s.has snoopFull

/-- `Packet::free` for the packet in a slot, which becomes empty. -/
def free (s : Agent) (i : ℕ) : Option Agent :=
  (s.pkts i).map (fun p =>
    { s with freed := p.id :: s.freed, pkts := update s.pkts i none })

/-- `s.cancel(toutPending_)` where it is set. -/
def cancel (s : Agent) : Agent :=
  match s.toutPending with
  | none => s
  | some e => { s with scheduled := s.scheduled.erase e, toutPending := none }

/-- The packet in a slot becomes `toutPending_` and is scheduled. -/
def schedule (s : Agent) (i : ℕ) : Option Agent :=
  (s.pkts i).bind (fun p =>
    if p.id ∈ s.scheduled then none
    else some { s with scheduled := p.id :: s.scheduled, toutPending := some p.id })

/-- The loop of `Snoop::reset` over the slots from `i` on. -/
def resetFrom : ℕ → ℕ → Agent → Agent
  | 0, _, s => s
  | n + 1, i, s => resetFrom n (i + 1) ((s.free i).getD s)

def reset (s : Agent) : Agent :=
  resetFrom snoopMaxwind 0
    { s.cancel with
      fstate := 0
      lastSeen := -1
      lastAck := -1
      expNextAck := 0
      expDupacks := 0
      bufhead := 0
      buftail := 0 }

/-! ## Data packets -/

/-- The part of `Snoop::snoop_insert` that makes room in a full cache. -/
def makeRoom (s : Agent) : Option Agent :=
  if s.has snoopFull then
    (s.free s.buftail).map (fun s =>
      { s with buftail := s.next s.buftail, fstate := s.fstate ||| ~~~ snoopFull })
  else some s

def search (s : Agent) (seq : ℤ) : ℕ → ℕ → Option Place
  | 0, _ => none
  | fuel + 1, i =>
    if i = s.bufhead then some .behind
    else
      (s.pkts i).bind (fun sh =>
        if sh.seqno = seq then some (.cached i)
        else if seq < sh.seqno then some (.before i)
        else s.search seq fuel (s.next i))

/-- The loop of `Snoop::snoop_insert` that moves the packets before the slot `i` back. -/
def shift (s : Agent) (i : ℕ) : ℕ → ℕ → (ℕ → Option Pkt) → ℕ → Option Pkt
  | 0, _, pkts => pkts
  | fuel + 1, j, pkts =>
    if j = i then pkts
    else s.shift i fuel (s.next j) (update pkts (s.prev j) (pkts j))

/-- The slot for a packet that is put in front of `bufhead_`. -/
def atHead (s : Agent) : Agent × ℕ :=
  ({ s with bufhead := s.next s.bufhead }, s.bufhead)

/-- The slot for a packet that is put before the packet in the slot `i`. -/
def inMiddle (s : Agent) (i : ℕ) : Agent × ℕ :=
  let temp := s.pkts (s.prev s.buftail)
  let pkts := s.shift i s.maxbufs s.buftail s.pkts
  ({ s with
    pkts := update pkts (s.prev i) temp
    buftail := s.prev s.buftail }, s.prev i)

def savepkt (s : Agent) (now : ℚ) (seq : ℤ) (i : ℕ) : Agent :=
  { s with
    pkts := update s.pkts i (some ⟨s.copies, seq, 0, false, now⟩)
    copies := s.copies + 1 }

/-- Change the header of the packet in a slot. -/
def mark (s : Agent) (i : ℕ) (f : Pkt → Pkt) : Agent :=
  { s with pkts := update s.pkts i ((s.pkts i).map f) }

/-- The end of `Snoop::snoop_insert`, for a packet that was not cached; whether it returns
`SNOOP_TAIL`. -/
def save (s : Agent) (now : ℚ) (seq : ℤ) (i : ℕ) : Agent × Bool :=
  let s := s.savepkt now seq i
  let s := if s.bufhead = s.buftail then { s with fstate := s.fstate ||| snoopFull } else s
  if seq < s.lastSeen then
    let s :=
      if s.buftail = i then s.mark i (fun sh => { sh with senderRxmit := true, numRxmit := 0 }) else s
    ({ s with expNextAck := s.buftail }, true)
  else ({ s with lastSeen := seq }, false)

/-- `Snoop::snoop_insert`; whether it returns `SNOOP_TAIL`. -/
def snoopInsert (s : Agent) (now : ℚ) (seq : ℤ) : Option (Agent × Bool) :=
  if seq ≤ s.lastAck then some (s, false)
  else
    s.makeRoom.bind (fun s =>
      match s.pkts s.buftail with
      | none => some (s.atHead.1.save now seq s.atHead.2)
      | some tail =>
        if s.lastSeen < seq then some (s.atHead.1.save now seq s.atHead.2)
        else if seq < tail.seqno then
          some (({ s with buftail := s.prev s.buftail }).save now seq (s.prev s.buftail))
        else
          (s.search seq (s.maxbufs + 1) s.buftail).map (fun place =>
            match place with
            | .cached i =>
              (s.mark i (fun sh =>
                { sh with numRxmit := 0, senderRxmit := true, sndTime := now }), true)
            | .before i => (s.inMiddle i).1.save now seq (s.inMiddle i).2
            | .behind => s.atHead.1.save now seq s.atHead.2))

/-- The end of `Snoop::snoop_data`. -/
def restart (s : Agent) (resetPending : Bool) : Option Agent :=
  let s := if resetPending then s.cancel else s
  if s.toutPending = none ∧ ¬ s.empty then s.schedule s.buftail else some s

/-- `Snoop::snoop_data`; the interface queue has room or not. -/
def snoopData (s : Agent) (now : ℚ) (seq : ℤ) (room : Bool) : Option Agent :=
  let s := if s.has snoopAlive ∧ seq = 0 then s.reset else s
  let s := { s with fstate := s.fstate ||| snoopAlive }
  if s.has snoopFull ∧ ¬ s.lru then some { s with lastSeen := max s.lastSeen seq }
  else if room then (s.snoopInsert now seq).bind (fun r => r.1.restart r.2)
  else s.restart false

/-! ## Retransmission -/

/-- `Snoop::snoop_rxmit`, for the packet in a slot. -/
def snoopRxmit (s : Agent) (now : ℚ) (i : ℕ) : Option (Agent × Verdict) :=
  (s.pkts i).bind (fun sh =>
    if sh.numRxmit < snoopMaxRxmit then
      ((s.mark i (fun sh => { sh with sndTime := now, numRxmit := sh.numRxmit + 1 })).cancel.schedule
        i).map (·, .suppress)
    else some (s, .propagate))

def handle (s : Agent) (now : ℚ) : Option Agent :=
  let s := { s with toutPending := none }
  match s.pkts s.buftail with
  | none => some s
  | some sh =>
    if sh.seqno ≠ s.lastAck + 1 then some s
    else if s.bufhead ≠ s.buftail ∨ s.has snoopFull then
      (s.snoopRxmit now s.buftail).map (fun r =>
        if r.2 = .suppress then { r.1 with expNextAck := r.1.next r.1.buftail } else r.1)
    else some s

/-! ## Acknowledgements -/

/-- The loop of `Snoop::snoop_cleanbufs_`: the slot at which it ends, and the last `sndTime`. -/
def cleanFrom (ack : ℤ) : ℕ → ℕ → ℚ → Agent → Option (Agent × ℕ × ℚ)
  | 0, _, _, _ => none
  | fuel + 1, i, sndTime, s =>
    (s.pkts i).bind (fun sh =>
      if sh.seqno ≤ ack then
        (s.free i).bind (fun s =>
          let s := { s with fstate := s.fstate &&& ~~~ snoopFull }
          let i := s.next i
          if i ≠ s.bufhead then cleanFrom ack fuel i sh.sndTime s else some (s, i, sh.sndTime))
      else some (s, i, sndTime))

def snoopCleanbufs (s : Agent) (ack : ℤ) : Option (Agent × ℚ) :=
  let s := s.cancel
  if s.empty then some (s, -1)
  else
    (cleanFrom ack s.maxbufs s.buftail (-1) s).bind (fun (r : Agent × ℕ × ℚ) =>
      let i := r.2.1
      let s :=
        if i ≠ r.1.buftail ∨ r.1.bufhead ≠ r.1.buftail then
          { r.1 with fstate := r.1.fstate &&& ~~~ snoopFull, buftail := i }
        else r.1
      (if s.empty then some s else s.schedule s.buftail).map (fun s => (s, r.2.2)))

/-- The duplicate acknowledgements of `Snoop::snoop_ack`, where `thresh` is the value of its static
counter. -/
def dupack (s : Agent) (now : ℚ) (thresh : ℤ) (sh : Pkt) : Option (Agent × Verdict) :=
  if s.expDupacks = 0 then
    if thresh < 1 then some (s, .propagate)
    else if sh.senderRxmit then some (s, .propagate)
    else
      let exp : ℤ := s.bufhead - s.expNextAck
      let exp := if exp < 0 then exp + snoopMaxwind else exp
      let s := { s with expDupacks := exp - 2, expNextAck := s.next s.buftail }
      if sh.numRxmit = 0 then s.snoopRxmit now s.buftail else some (s, .propagate)
  else if 0 < s.expDupacks then some ({ s with expDupacks := s.expDupacks - 1 }, .suppress)
  else if s.expDupacks = -1 then
    if sh.numRxmit < 2 then s.snoopRxmit now s.buftail else some (s, .propagate)
  else some (s, .propagate)

def snoopAck (s : Agent) (now : ℚ) (ack : ℤ) (thresh : ℤ) : Option (Agent × Verdict) :=
  if s.has snoopClosed ∨ ack < s.lastAck then some (s, .propagate)
  else if s.lastAck = ack then
    match s.pkts s.buftail with
    | none => some (s, .propagate)
    | some sh => if ack + 1 < sh.seqno then some (s, .propagate) else s.dupack now thresh sh
  else
    (({ s with fstate := s.fstate &&& ~~~ snoopNoack }).snoopCleanbufs ack).map (fun (r : Agent × ℚ) =>
      ({ r.1 with expDupacks := 0, expNextAck := r.1.buftail, lastAck := ack }, .propagate))

end Agent

inductive Event
  | data (now : ℚ) (seq : ℤ) (room : Bool)
  | ack (now : ℚ) (ack : ℤ) (thresh : ℤ)
  | timeout (now : ℚ)
deriving DecidableEq

def step (s : Agent) : Event → Option (Agent × Unit)
  | .data now seq room => (s.snoopData now seq room).map (·, ())
  | .ack now ack thresh => (s.snoopAck now ack thresh).map (fun r => (r.1, ()))
  | .timeout now =>
    match s.scheduled with
    | [] => some (s, ())
    | _ :: rest => (({ s with scheduled := rest }).handle now).map (·, ())

end NetSim.Snoop
