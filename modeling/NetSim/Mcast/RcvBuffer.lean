import Mathlib.Algebra.Order.Field.Rat
import NetSim.Lib.ForwardList

/-! # The multicast receive buffer

`RcvBuffer` (`mcast/rcvbuf.cc`) keeps what a receiver did not get: a singly linked list of gaps. The
`Gap` objects are addresses, and every field of the objects is a map from addresses; a deleted object is
not used again. A function that reads through a null pointer has the result `none`.
-/

namespace NetSim

open Function LinkedList

structure RcvBuffer where
  nextpkt : ℤ
  maxpkt : ℤ
  pktsRecovered : ℤ
  duplicates : ℤ
  delaySum : ℚ
  maxDelay : ℚ
  minDelay : ℚ
  gap : Option ℕ
  tail : Option ℕ
  start : ℕ → ℤ
  stop : ℕ → ℤ
  time : ℕ → ℚ
  next : ℕ → Option ℕ
  /-- The number of objects made by `new`: the addresses below it. -/
  allocated : ℕ

namespace RcvBuffer

def init : RcvBuffer where
  nextpkt := 0
  maxpkt := -1
  pktsRecovered := 0
  duplicates := 0
  delaySum := 0
  maxDelay := 0
  minDelay := 1000000
  gap := none
  tail := none
  start := fun _ => 0
  stop := fun _ => 0
  time := fun _ => 0
  next := fun _ => none
  allocated := 0

variable (b : RcvBuffer)

/-- A loop over the gaps takes at most this many steps. -/
def fuel : ℕ := b.allocated + 1

def inGap (i : ℤ) (g : ℕ) : Bool := b.start g ≤ i ∧ i ≤ b.stop g

/-- The loop of `exists_pkt`. -/
def notInGaps (i : ℤ) : ℕ → Option ℕ → Bool
  | 0, _ => true
  | _ + 1, none => true
  | fuel + 1, some g => if b.inGap i g then false else notInGaps i fuel (b.next g)

def existsPkt (i : ℤ) : Bool :=
  if i ≤ b.maxpkt then true
  else if b.nextpkt ≤ i then false
  else b.notInGaps i b.fuel b.gap

def newGap (start stop : ℤ) (time : ℚ) (next : Option ℕ) : RcvBuffer :=
  { b with
    start := update b.start b.allocated start
    stop := update b.stop b.allocated stop
    time := update b.time b.allocated time
    next := update b.next b.allocated next
    allocated := b.allocated + 1 }

def openGap (i : ℤ) (tnow : ℚ) : Option RcvBuffer :=
  let g := b.allocated
  let b' := { b.newGap b.nextpkt (i - 1) tnow none with nextpkt := i + 1 }
  match b.gap with
  | none => some { b' with gap := some g, tail := some g }
  | some _ => b.tail.map (fun t =>
    { b' with next := update b'.next t (some g), tail := some g })

def recovered (d : ℚ) : RcvBuffer :=
  { b with
    pktsRecovered := b.pktsRecovered + 1
    delaySum := b.delaySum + d
    maxDelay := if b.maxDelay < d then d else b.maxDelay
    minDelay := if d < b.minDelay then d else b.minDelay }

/-- The first packet of the first gap. -/
def advance (g : ℕ) : RcvBuffer :=
  let b := { b with maxpkt := b.maxpkt + 1, start := update b.start g (b.start g + 1) }
  if b.stop g < b.start g then
    match b.next g with
    | some g' => { b with gap := some g', maxpkt := b.start g' - 1 }
    | none => { b with gap := none, maxpkt := b.nextpkt - 1, tail := none }
  else b

/-- The first packet of the gap `g` behind `pg`. -/
def dropFirst (pg g : ℕ) : RcvBuffer :=
  let b := { b with start := update b.start g (b.start g + 1) }
  if b.stop g < b.start g then
    { b with
      next := update b.next pg (b.next g)
      tail := if b.tail = some g then some pg else b.tail }
  else b

/-- The last packet of the gap `g`, or one in the middle of it. -/
def shrink (g : ℕ) (i : ℤ) : RcvBuffer :=
  if b.stop g = i then { b with stop := update b.stop g (b.stop g - 1) }
  else
    let pg := b.allocated
    let b' := b.newGap (i + 1) (b.stop g) (b.time g) (b.next g)
    { b' with
      next := update b'.next g (some pg)
      stop := update b'.stop g (i - 1)
      tail := if b.tail = some g then some pg else b.tail }

def recover (i : ℤ) (tnow : ℚ) : Option RcvBuffer :=
  b.gap.bind (fun g₀ =>
    if b.inGap i g₀ then
      let b := b.recovered (tnow - b.time g₀)
      some (if i = b.maxpkt + 1 then b.advance g₀ else b.shrink g₀ i)
    else
      -- locate the gap this packet belongs to
      (findFrom b.next (b.inGap i) b.fuel g₀ (b.next g₀)).map (fun r =>
        let b := b.recovered (tnow - b.time r.2)
        if b.start r.2 = i then b.dropFirst r.1 r.2 else b.shrink r.2 i))

def addPkt (i : ℤ) (tnow : ℚ) : Option RcvBuffer :=
  if b.existsPkt i then some { b with duplicates := b.duplicates + 1 }
  else if i = b.nextpkt then
    some { b with
      nextpkt := b.nextpkt + 1
      maxpkt := if i = b.maxpkt + 1 then b.maxpkt + 1 else b.maxpkt }
  else if b.nextpkt < i then b.openGap i tnow
  else b.recover i tnow

end RcvBuffer

end NetSim
