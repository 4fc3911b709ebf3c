import NetSim.Lib.LinkedList
import NetSim.Lib.IntervalList

/-! # The reassembly queue: the model

`ReassemblyQueue` (`tcp/rq.cc`) keeps blocks of sequence numbers on two doubly linked lists at
once: the FIFO in order of sequence numbers, and the LIFO in order of insertion. The nodes are
`seginfo` objects, here addresses: every field of the objects is a map from addresses. Freed
objects wait on `freelist_`, linked by their `next_` fields.

A function that reads through a null pointer, calls `abort` or does not end has the result `none`.
Sequence numbers (`TcpSeq`) and counts are integers without a bound, flags (`TcpFlag`) bit masks.
-/

namespace NetSim

open Function LinkedList IntervalList

/-- `class ReassemblyQueue`, with the `seginfo` objects it works on. -/
structure ReassemblyQueue where
  /-- `next_` and `prev_` of the objects, `head_` and `tail_`. -/
  fifo : DLinks ℕ
  /-- `snext_` and `sprev_` of the objects, `top_` and `bottom_`. -/
  lifo : DLinks ℕ
  startseq : ℕ → ℤ
  endseq : ℕ → ℤ
  pflags : ℕ → ℕ
  rqflags : ℕ → ℕ
  cnt : ℕ → ℤ
  /-- The number of objects made by `new`: the addresses below it. -/
  allocated : ℕ
  freelist : Option ℕ
  hint : Option ℕ
  total : ℤ
  /-- The integer that the reference `rcv_nxt_` stands for. -/
  rcvNxt : ℤ

namespace ReassemblyQueue

/-- `ReassemblyQueue::ReassemblyQueue`, before any object was allocated. -/
def init (rcvnxt : ℤ) : ReassemblyQueue :=
  let none' : DLinks ℕ := ⟨fun _ => none, fun _ => none, none, none⟩
  { fifo := none', lifo := none', startseq := fun _ => 0, endseq := fun _ => 0,
    pflags := fun _ => 0, rqflags := fun _ => 0, cnt := fun _ => 0, allocated := 0,
    freelist := none, hint := none, total := 0, rcvNxt := rcvnxt }

/-! ## Nodes -/

def newseginfo (q : ReassemblyQueue) : ReassemblyQueue × ℕ :=
  match q.freelist with
  | some s => ({ q with freelist := q.fifo.next s }, s)
  | none => ({ q with allocated := q.allocated + 1 }, q.allocated)

def deleteseginfo (q : ReassemblyQueue) (s : ℕ) : ReassemblyQueue :=
  { q with
    fifo := { q.fifo with next := update q.fifo.next s q.freelist }
    freelist := some s }

def fremove (q : ReassemblyQueue) (p : ℕ) : ReassemblyQueue :=
  { q with
    hint := if q.hint = some p then none else q.hint
    fifo := q.fifo.remove p }

def sremove (q : ReassemblyQueue) (p : ℕ) : ReassemblyQueue :=
  { q with
    hint := if q.hint = some p then none else q.hint
    lifo := q.lifo.remove p }

def push (q : ReassemblyQueue) (p : ℕ) : ReassemblyQueue :=
  { q with lifo := q.lifo.link none p q.lifo.head }

/-- Write the fields of a new block. -/
def fill (q : ReassemblyQueue) (n : ℕ) (start stop : ℤ) (tiflags : ℕ) (rqflags : ℕ)
    (cnt : ℤ) : ReassemblyQueue :=
  { q with
    startseq := update q.startseq n start
    endseq := update q.endseq n stop
    pflags := update q.pflags n tiflags
    rqflags := update q.rqflags n rqflags
    cnt := update q.cnt n cnt }

/-- A walk of a loop over a list takes at most this many steps. -/
def fuel (q : ReassemblyQueue) : ℕ := q.allocated + 1

/-! ## Adding a segment -/

/-- If the block `b` advances the highest in-sequence value, move `rcv_nxt_` to its end. -/
def reached (q : ReassemblyQueue) (b : ℕ) : ReassemblyQueue :=
  { q with rcvNxt := if q.startseq b ≤ q.rcvNxt then q.endseq b else q.rcvNxt }

/-- The new block `n` fills the hole between `p` and `r`: `p` takes over both. -/
def fillHole (q : ReassemblyQueue) (p n r : ℕ) : ReassemblyQueue :=
  let q := (((q.sremove n).fremove n).sremove r).fremove r
  let q := { q with
    endseq := update q.endseq p (q.endseq r)
    cnt := update q.cnt p (q.cnt p + (q.cnt n + q.cnt r))
    pflags := update q.pflags p (q.pflags p ||| q.pflags n) }
  (q.deleteseginfo n).deleteseginfo r

/-- The new block `n` joins the block `p` before it. -/
def joinLeft (q : ReassemblyQueue) (p n : ℕ) : ReassemblyQueue :=
  let q := (q.sremove n).fremove n
  let q := { q with
    endseq := update q.endseq p (q.endseq n)
    pflags := update q.pflags p (q.pflags p ||| q.pflags n)
    cnt := update q.cnt p (q.cnt p + q.cnt n) }
  q.deleteseginfo n

/-- The new block `n` joins the block `r` after it. -/
def joinRight (q : ReassemblyQueue) (n r : ℕ) : ReassemblyQueue :=
  let q := (q.sremove n).fremove n
  let q := { q with
    startseq := update q.startseq r (q.startseq n)
    pflags := update q.pflags r (q.pflags r ||| q.pflags n)
    cnt := update q.cnt r (q.cnt r + q.cnt n) }
  q.deleteseginfo n

def coalesce (q : ReassemblyQueue) (p : Option ℕ) (n : ℕ) (r : Option ℕ) :
    Option (ReassemblyQueue × ℕ) :=
  match p, r with
  | some p, some r =>
    if q.endseq p = q.startseq n ∧ q.endseq n = q.startseq r then
      some ((q.fillHole p n r).reached p, (q.fillHole p n r).pflags p)
    else if q.endseq p = q.startseq n then
      some ((q.joinLeft p n).reached p, (q.joinLeft p n).pflags p)
    else if q.endseq n = q.startseq r then
      some ((q.joinRight n r).reached r, (q.joinRight n r).pflags r)
    else some (q.reached p, 0)
  | some p, none =>
    if q.endseq p = q.startseq n then
      some ((q.joinLeft p n).reached p, (q.joinLeft p n).pflags p)
    else some (q.reached p, 0)
  | none, some r =>
    if q.endseq n = q.startseq r then
      some ((q.joinRight n r).reached r, (q.joinRight n r).pflags r)
    else none
  | none, none => none

/-- Link a new block between `p` and `r`, on top of the stack. -/
def linkNew (q : ReassemblyQueue) (p r : Option ℕ) (start stop : ℤ) (tiflags : ℕ)
    (rqflags : ℕ) (initcnt : ℤ) : ReassemblyQueue :=
  let n := q.newseginfo.2
  let q := (q.newseginfo.1.fill n start stop tiflags rqflags initcnt).push n
  { q with fifo := q.fifo.link p n r }

/-- The label `endfast` of `add`. -/
def endfast (q : ReassemblyQueue) (p r : Option ℕ) (start stop : ℤ) (tiflags : ℕ)
    (rqflags : ℕ) (initcnt : ℤ) (needmerge : Bool) : Option (ReassemblyQueue × ℕ) :=
  let n := q.newseginfo.2
  let q := { q.linkNew p r start stop tiflags rqflags initcnt with
    total := q.total + (stop - start) }
  if needmerge then q.coalesce p n r else some (q.reached n, tiflags)

/-- What the loop over the overlapped blocks ends with: a block that is the segment exactly, or
the queue without the blocks that the segment covers. -/
inductive Killed where
  | exact (q : ReassemblyQueue) (flags : ℕ)
  | rest (q : ReassemblyQueue) (tiflags : ℕ) (initcnt : ℤ) (altered : Bool)

/-- The loop of `add` that kills what is completely overlapped, from `b` up to `upto`. -/
def kill (start stop : ℤ) (upto : Option ℕ) :
    ℕ → ReassemblyQueue → Option ℕ → ℕ → ℤ → Bool → Option Killed
  | 0, _, _, _, _, _ => none
  | _ + 1, q, none, tiflags, initcnt, altered => some (.rest q tiflags initcnt altered)
  | fuel + 1, q, some b, tiflags, initcnt, altered =>
    if upto = some b then some (.rest q tiflags initcnt altered)
    else if start = q.startseq b ∧ stop = q.endseq b then
      -- exact overlap; duplicates are not counted
      let flags := q.pflags b ||| tiflags
      some (.exact { q with pflags := update q.pflags b flags } flags)
    else if start ≤ q.startseq b ∧ q.endseq b ≤ stop then
      -- complete overlap, not exact
      let q' := { q with total := q.total - (q.endseq b - q.startseq b) }
      kill start stop upto fuel (((q'.fremove b).sremove b).deleteseginfo b) (q.fifo.next b)
        (tiflags ||| q.pflags b) (initcnt + q.cnt b) true
    else kill start stop upto fuel q (q.fifo.next b) tiflags initcnt altered

def leftBlock (q : ReassemblyQueue) (p : Option ℕ) (start : ℤ) : Option (Option ℕ) :=
  match p with
  | none => q.fifo.head.map some
  | some p => (q.fifo.next p).map (fun b => if q.startseq b < start then some b else none)

def rightBlock (q : ReassemblyQueue) (r : Option ℕ) (stop : ℤ) : Option (Option ℕ) :=
  match r with
  | none => q.fifo.tail.map some
  | some r => (q.fifo.prev r).map (fun b => if stop < q.endseq b then some b else none)

/-- The left-side merge: update the block's start. -/
def mergeLeft (q : ReassemblyQueue) (b : ℕ) (start : ℤ) (tiflags : ℕ) :
    ReassemblyQueue :=
  { q with
    total := if start < q.startseq b then q.total + (q.startseq b - start) else q.total
    startseq := if start < q.startseq b then update q.startseq b start else q.startseq
    pflags := update q.pflags b (q.pflags b ||| tiflags)
    cnt := update q.cnt b (q.cnt b + 1) }

/-- The right-side merge: update the block's end. The count of the block is not touched, since
`needmerge` has just been set when it is tested. -/
def mergeRight (q : ReassemblyQueue) (b : ℕ) (stop : ℤ) (tiflags : ℕ) :
    ReassemblyQueue :=
  { q with
    total := if q.endseq b < stop then q.total + (stop - q.endseq b) else q.total
    endseq := if q.endseq b < stop then update q.endseq b stop else q.endseq
    pflags := update q.pflags b (q.pflags b ||| tiflags) }

/-- The end of `add`, when both merges are done and `[start, stop)` is left of the segment. -/
def insertRest (q : ReassemblyQueue) (p r : Option ℕ) (start stop : ℤ) (tiflags : ℕ)
    (rqflags : ℕ) (initcnt : ℤ) (merged : Bool) : Option (ReassemblyQueue × ℕ) :=
  if stop ≤ start then q.fifo.head.map (fun h => (q.reached h, tiflags))
  else if merged then q.endfast p r start stop tiflags rqflags initcnt true
  else
    match p, r with
    | some a, some b =>
      -- the two neighbours are adjacent and the new block fits between them
      q.endfast p r start stop tiflags rqflags initcnt
        (decide (q.fifo.next a = some b ∧ q.endseq a ≤ start ∧ stop ≤ q.startseq b ∧
          (q.endseq a = start ∨ q.startseq b = stop)))
    | _, _ => none

/-- The right-side merge of `add` and what follows it. -/
def insertRight (q : ReassemblyQueue) (p r : Option ℕ) (start stop : ℤ) (tiflags : ℕ)
    (rqflags : ℕ) (initcnt : ℤ) (merged : Bool) : Option (ReassemblyQueue × ℕ) :=
  match q.rightBlock r stop with
  | none => none
  | some none => q.insertRest p r start stop tiflags rqflags initcnt merged
  | some (some b) =>
    let q' := q.mergeRight b stop tiflags
    q'.insertRest p (some b) start (q'.startseq b) tiflags rqflags initcnt true

/-- The part of `add` behind the loop over the overlapped blocks. -/
def insertPartial (q : ReassemblyQueue) (p r : Option ℕ) (start stop : ℤ)
    (tiflags : ℕ) (rqflags : ℕ) (initcnt : ℤ) : Option (ReassemblyQueue × ℕ) :=
  match q.leftBlock p start with
  | none => none
  | some none => q.insertRight p r start stop tiflags rqflags initcnt false
  | some (some b) =>
    let q' := q.mergeLeft b start tiflags
    q'.insertRight (some b) r (q'.endseq b) stop tiflags rqflags (initcnt - 1) true

/-- The label `again2` of `add`: the queue is not empty. -/
def again2 (start stop : ℤ) (rqflags : ℕ) :
    ℕ → ReassemblyQueue → ℕ → ℤ → Option (ReassemblyQueue × ℕ)
  | 0, _, _, _ => none
  | fuel + 1, q, tiflags, initcnt =>
    match q.fifo.head, q.fifo.tail with
    | some head, some tail =>
      if q.endseq tail ≤ start then
        -- at the tail, no overlap
        q.endfast (some tail) none start stop tiflags rqflags initcnt
          (decide (start = q.endseq tail))
      else if stop ≤ q.startseq head then
        -- at the head, no overlap
        q.endfast none (some head) start stop tiflags rqflags initcnt
          (decide (stop = q.startseq head))
      else
        match q.fifo.walkNext (fun b => q.startseq b < stop) q.fuel q.fifo.head,
          q.fifo.walkPrev (fun b => start < q.endseq b) q.fuel q.fifo.tail with
        | some r, some p =>
          match kill start stop r q.fuel q (p.or q.fifo.head) tiflags initcnt false with
          | none => none
          | some (.exact q flags) => some (q, flags)
          | some (.rest q tiflags initcnt altered) =>
            if q.fifo.head = none then
              q.endfast p r start stop tiflags rqflags initcnt false
            else if altered then again2 start stop rqflags fuel q tiflags initcnt
            else q.insertPartial p r start stop tiflags rqflags initcnt
        | _, _ => none
    | _, _ => none

def add (q : ReassemblyQueue) (start stop : ℤ) (tiflags : ℕ) (rqflags : ℕ) :
    Option (ReassemblyQueue × ℕ) :=
  if stop < start then none
  else if q.fifo.head = none then
    if q.lifo.head ≠ none then none
    else
      let n := q.newseginfo.2
      let q := { q.linkNew none none start stop tiflags rqflags 1 with total := stop - start }
      some (q.reached n, tiflags)
  else again2 start stop rqflags q.fuel q tiflags 1

/-! ## Clearing and reading -/

/-- The loop of `clearto` over the blocks up to `seq`: the first block that stays. -/
def clearBlocks (seq : ℤ) : ℕ → ReassemblyQueue → Option ℕ → ℕ →
    Option (ReassemblyQueue × Option ℕ × ℕ)
  | 0, _, _, _ => none
  | _ + 1, q, none, flag => some (q, none, flag)
  | fuel + 1, q, some p, flag =>
    if q.endseq p ≤ seq then
      let q' := { q with total := q.total - (q.endseq p - q.startseq p) }
      clearBlocks seq fuel (((q'.sremove p).fremove p).deleteseginfo p) (q.fifo.next p)
        (flag ||| q.pflags p)
    else some (q, some p, flag)

def clearto (q : ReassemblyQueue) (seq : ℤ) : Option (ReassemblyQueue × ℕ) :=
  match clearBlocks seq q.fuel q q.fifo.head 0 with
  | none => none
  | some (q, none, flag) => some (q, flag)
  | some (q, some p, flag) =>
    if q.startseq p ≤ seq ∧ seq < q.endseq p then
      -- trimming in the middle of a block
      some ({ q with
        total := q.total - (seq - q.startseq p)
        startseq := update q.startseq p seq }, flag ||| q.pflags p)
    else some (q, flag)

def cleartonxt (q : ReassemblyQueue) : Option (ReassemblyQueue × ℕ) := q.clearto q.rcvNxt

def freeAll : ℕ → ReassemblyQueue → Option ReassemblyQueue
  | 0, _ => none
  | fuel + 1, q =>
    match q.fifo.head with
    | none => some q
    | some p =>
      freeAll fuel ({ q with fifo := { q.fifo with head := q.fifo.next p } }.deleteseginfo p)

def clear (q : ReassemblyQueue) : Option ReassemblyQueue :=
  (freeAll q.fuel { q with
    fifo := { q.fifo with tail := none }
    lifo := { q.lifo with head := none, tail := none }
    hint := none }).map (fun q => { q with fifo := { q.fifo with tail := none }, total := 0 })

def maxseq (q : ReassemblyQueue) : ℤ := q.fifo.tail.elim (-1) q.endseq

/-- `ReassemblyQueue::cnts`: the number of blocks from `p` on, and their bytes. -/
def cnts (q : ReassemblyQueue) : ℕ → Option ℕ → Option (ℤ × ℤ)
  | 0, _ => none
  | _ + 1, none => some (0, 0)
  | fuel + 1, some p =>
    (q.cnts fuel (q.fifo.next p)).map (fun c => (c.1 + 1, (q.endseq p - q.startseq p) + c.2))

/-- The loop of `nexthole`: the hole, and the blocks and bytes above it. -/
def findHole (q : ReassemblyQueue) (seq : ℤ) : ℕ → Option ℕ → Option (ℤ × ℤ × ℤ)
  | 0, _ => none
  | _ + 1, none => some (-1, -1, -1)
  | fuel + 1, some p =>
    if seq < q.startseq p then
      -- prior to the block: a legitimate hole
      (q.cnts q.fuel (some p)).map (fun c => (seq, c))
    else if q.startseq p ≤ seq ∧ seq ≤ q.endseq p then
      -- covered by the block: the hole is at its end
      match q.fifo.next p with
      | none => some (q.endseq p, -1, -1)
      | some b => (q.cnts q.fuel (some b)).map (fun c => (q.endseq p, c))
    else q.findHole seq fuel (q.fifo.next p)

def nexthole (q : ReassemblyQueue) (seq : ℤ) :
    Option (ReassemblyQueue × ℤ × ℤ × ℤ) :=
  (q.findHole seq q.fuel q.fifo.head).map (fun h => ({ q with hint := q.fifo.head }, h))

end ReassemblyQueue

end NetSim
