import NetSim.Lib.IntervalList
import NetSim.Lib.LinkedList

/-! # Media segments: the model

A `MediaSegmentList` (`rap/media-app.cc`) keeps the received segments of a layer on a doubly linked
list in order, together with the number of bytes in them. The list elements are addresses, the fields of
the elements maps from addresses. A call that ends in `abort`, fails an assertion or does not end has the
result `none`. Offsets are integers without a bound.
-/

namespace NetSim

open Function LinkedList IntervalList

/-! ## `DoubleList` -/

def detach (L : DLinks ℕ) (e : ℕ) : DLinks ℕ where
  head := if L.head = some e then L.next e else L.head
  tail := if L.tail = some e then L.prev e else L.tail
  next := update (setField L.next (L.prev e) (L.next e)) e none
  prev := update (setField L.prev (L.next e) (L.prev e)) e none

/-- `DoubleList::insert`: `src` goes before `dst`. -/
def insertBefore (L : DLinks ℕ) (src dst : ℕ) : DLinks ℕ where
  next := setField (update L.next src (some dst)) (L.prev dst) (some src)
  prev := update (update L.prev src (L.prev dst)) dst (some src)
  head := if L.head = some dst then some src else L.head
  tail := L.tail

def appendAfter (L : DLinks ℕ) (src dst : ℕ) : DLinks ℕ where
  next := update (update L.next src (L.next dst)) dst (some src)
  prev := setField (update L.prev src (some dst)) (L.next dst) (some src)
  head := L.head
  tail := if L.tail = some dst then some src else L.tail

/-! ## `MediaSegment` -/

/-- `MediaSegment`; `stop` is the field `end_`. -/
structure MediaSegment where
  start : ℤ
  stop : ℤ
  flags : ℕ
deriving DecidableEq

namespace MediaSegment

def datasize (t : MediaSegment) : ℤ := t.stop - t.start

def within (t s : MediaSegment) : Bool := s.start ≤ t.start ∧ t.stop ≤ s.stop

def before (t s : MediaSegment) : Bool := t.stop ≤ s.start

def overlap (t s : MediaSegment) : Option Bool :=
  if s.start ≤ s.stop then some (decide (t.start ≤ s.stop ∧ s.start ≤ t.stop)) else none

/-- `merge`: the segment that grows and the overlapping size. -/
def merge (t s : MediaSegment) : Option (MediaSegment × ℤ) :=
  if s.stop < t.start ∨ t.stop < s.start then some (t, 0)
  else
    let size := t.datasize + s.datasize
    let t' := { t with
      start := if s.start < t.start then s.start else t.start
      stop := if t.stop < s.stop then s.stop else t.stop }
    if t'.datasize ≤ size then some (t', size - t'.datasize) else none

end MediaSegment

/-! ## `MediaSegmentList` -/

/-- `MediaSegmentList`, with the elements it works on. -/
structure MediaSegmentList where
  links : DLinks ℕ
  seg : ℕ → MediaSegment
  /-- The number of elements made by `new`: the addresses below it. -/
  allocated : ℕ
  length : ℤ

namespace MediaSegmentList

def init : MediaSegmentList where
  links := ⟨fun _ => none, fun _ => none, none, none⟩
  seg := fun _ => ⟨0, 0, 0⟩
  allocated := 0
  length := 0

/-- A loop over the list takes at most this many rounds. -/
def fuel (m : MediaSegmentList) : ℕ := m.allocated + 1

def sizeFrom (m : MediaSegmentList) : ℕ → Option ℕ → Option ℤ
  | 0, _ => none
  | _ + 1, none => some 0
  | fuel + 1, some p => (m.sizeFrom fuel (m.links.next p)).map ((m.seg p).datasize + ·)

def getsize (m : MediaSegmentList) : Option ℤ := m.sizeFrom m.fuel m.links.head

/-- `if (getsize() != length_) abort();`. -/
def checked (m : MediaSegmentList) : Option MediaSegmentList :=
  m.getsize.bind (fun size => if size = m.length then some m else none)

/-- The first segment that is not before `s`. -/
def seek (m : MediaSegmentList) (s : MediaSegment) : Option (Option ℕ) :=
  m.links.walkNext (fun p => (m.seg p).before s) m.fuel m.links.head

/-- `tmp->merge(*q); detach(q); delete q;`. -/
def absorb (m : MediaSegmentList) (tmp q : ℕ) : Option MediaSegmentList :=
  ((m.seg tmp).merge (m.seg q)).map (fun merged =>
    { m with
      seg := update m.seg tmp merged.1
      links := detach m.links q })

/-- The first loop of `merge_seg`. -/
def mergeNext (tmp : ℕ) : ℕ → MediaSegmentList → Option MediaSegmentList
  | 0, _ => none
  | fuel + 1, m =>
    match m.links.next tmp with
    | none => some m
    | some q =>
      ((m.seg q).overlap (m.seg tmp)).bind (fun overlaps =>
        if overlaps then
          if (m.seg tmp).start = (m.seg q).start ∧ (m.seg tmp).stop = (m.seg q).stop then none
          else (m.absorb tmp q).bind (mergeNext tmp fuel)
        else some m)

/-- The second loop of `merge_seg`. -/
def mergePrev (tmp : ℕ) : ℕ → MediaSegmentList → Option MediaSegmentList
  | 0, _ => none
  | fuel + 1, m =>
    match m.links.prev tmp with
    | none => some m
    | some q =>
      ((m.seg q).overlap (m.seg tmp)).bind (fun overlaps =>
        if overlaps then
          if m.links.tail = some q then none
          else (m.absorb tmp q).bind (mergePrev tmp fuel)
        else some m)

def mergeSeg (m : MediaSegmentList) (tmp : ℕ) : Option MediaSegmentList :=
  (mergeNext tmp m.fuel m).bind (fun m => mergePrev tmp m.fuel m)

/-- `new MediaSegment(s)`, at the address `m.allocated`. -/
def new (m : MediaSegmentList) (s : MediaSegment) : MediaSegmentList :=
  { m with
    seg := update m.seg m.allocated s
    links := { m.links with
      next := update m.links.next m.allocated none
      prev := update m.links.prev m.allocated none }
    allocated := m.allocated + 1 }

/-- A new element that holds `s` at the end of the list. -/
def appendNew (m : MediaSegmentList) (s : MediaSegment) : Option MediaSegmentList :=
  let p := m.allocated
  let m := m.new s
  if m.links.head = none then
    some { m with links := { m.links with head := some p, tail := some p } }
  else
    match m.links.tail with
    | none => none
    | some tail => some { m with links := appendAfter m.links p tail }

/-- All segments are before `s`: it goes to the end. -/
def addTail (m : MediaSegmentList) (s : MediaSegment) : Option MediaSegmentList :=
  let m := { m with length := m.length + s.datasize }
  match m.links.tail with
  | none => m.appendNew s
  | some tail =>
    ((m.seg tail).overlap s).bind (fun overlaps =>
      if overlaps then
        ((m.seg tail).merge s).map (fun merged =>
          { m with seg := update m.seg tail merged.1 })
      else m.appendNew s)

/-- Merge `s` into `tmp` or insert it before; the element that holds `s`. -/
def place (m : MediaSegmentList) (tmp : ℕ) (s : MediaSegment) :
    Option (MediaSegmentList × ℕ) :=
  ((m.seg tmp).overlap s).bind (fun overlaps =>
    if overlaps then
      ((m.seg tmp).merge s).map (fun merged =>
        ({ m with
          seg := update m.seg tmp merged.1
          length := m.length + (s.datasize - merged.2) }, tmp))
    else
      let p := m.allocated
      let m := m.new s
      some ({ m with
        links := insertBefore m.links p tmp
        length := m.length + s.datasize }, p))

def add (m : MediaSegmentList) (s : MediaSegment) : Option MediaSegmentList :=
  (m.seek s).bind (fun found =>
    match found with
    | none => (m.addTail s).bind checked
    | some tmp =>
      -- the source takes this for "`s` is already in cache"
      if (m.seg tmp).within s then some m
      else
        (m.place tmp s).bind (fun placed =>
          placed.1.checked.bind (fun m => (m.mergeSeg placed.2).bind checked)))

/-- `in`. -/
def contains (m : MediaSegmentList) (s : MediaSegment) : Option Bool :=
  (m.seek s).map (fun found =>
    match found with
    | none => false
    | some tmp => s.within (m.seg tmp))

end MediaSegmentList

end NetSim
