import Mathlib
import NetSim.Lib.Runs

/-! # The scoreboard of TCP-Linux

`ScoreBoard1` of `tcp/scoreboard1.cc`: the packets from `last_ack + 1` on as a list of blocks, each
in flight, SACKed, lost or retransmitted. One traversal splits, tags and merges the blocks and
keeps the two counters `sack_out_` and `fack_out_`.

The list is a `List` of nodes; a node keeps its address `addr` when it is split or merged, because
`nxt_to_retrx_` points into the list. `none` stands for the failing `ASSERT2`s.
-/

namespace NetSim

open List

/-- `SKB_FLAG_INFLIGHT`, `SKB_FLAG_SACKED`, `SKB_FLAG_LOST` and `SKB_FLAG_RETRANSMITTED`. -/
inductive SkbFlag where
  | inflight
  | sacked
  | lost
  | retransmitted
  deriving DecidableEq

/-- `ScoreBoardNode1`. `nxt` is the right edge of the block, or the `snd_nxt` at the time of
retransmission. -/
structure ScoreBoardNode1 where
  addr : ℕ
  flag : SkbFlag
  seq : ℤ
  nxt : ℤ
  retran : ℤ

namespace ScoreBoardNode1

def getEnd (n : ScoreBoardNode1) : ℤ := if n.flag = .retransmitted then n.seq else n.nxt

def getLength (n : ScoreBoardNode1) : ℤ :=
  if n.flag = .retransmitted then 1 else n.nxt + 1 - n.seq

def setFlag (n : ScoreBoardNode1) (flag : SkbFlag) : ScoreBoardNode1 :=
  { n with nxt := if n.flag = .retransmitted then n.seq else n.nxt, flag }

def setBegin (n : ScoreBoardNode1) (seq : ℤ) : ScoreBoardNode1 := { n with seq }

def inside (n : ScoreBoardNode1) (seq : ℤ) : Bool :=
  if n.flag = .retransmitted then seq = n.seq else n.seq ≤ seq ∧ seq ≤ n.nxt

def shouldClean (n : ScoreBoardNode1) (ackseq : ℤ) : ℤ :=
  if ackseq < n.seq then 0
  else if n.flag = .retransmitted ∨ n.nxt ≤ ackseq then -1
  else ackseq + 1 - n.seq

/-- `Mergable`, with the next node as argument. -/
def mergable (n next : ScoreBoardNode1) : Bool :=
  next.flag ≠ .retransmitted ∧ next.flag = n.flag

/-- `Merge`, with the next node as argument. -/
def merge (n next : ScoreBoardNode1) : ScoreBoardNode1 := { n with nxt := next.nxt }

/-- `Split`: the node itself, and the new one at the address `addr`. -/
def split (n : ScoreBoardNode1) (seq : ℤ) (addr : ℕ) : ScoreBoardNode1 × ScoreBoardNode1 :=
  ({ n with nxt := seq - 1 }, { addr, flag := n.flag, seq, nxt := n.nxt, retran := 0 })

/-- `MarkRetran`: the node, and the rest of the block that is split off. -/
def markRetran (n : ScoreBoardNode1) (sndNxt retransId : ℤ) (addr : ℕ) : List ScoreBoardNode1 :=
  if n.seq < n.nxt then
    let r := n.split (n.seq + 1) addr
    [{ r.1 with flag := .retransmitted, nxt := sndNxt, retran := retransId }, r.2]
  else [{ n with flag := .retransmitted, nxt := sndNxt, retran := retransId }]

end ScoreBoardNode1

open ScoreBoardNode1

/-- The fields of `ScoreBoard1`; `fresh` is the next address that `new` returns. -/
structure ScoreBoard1 where
  nodes : List ScoreBoardNode1
  nxtToRetrx : Option ℕ
  ackedRtxId : ℤ
  rtxId : ℤ
  fack : ℤ
  fackOut : ℤ
  sackOut : ℤ
  lastRtxSeq : ℤ
  fresh : ℕ

namespace ScoreBoard1

def flagDataSacked : ℕ := 2
def flagDataLost : ℕ := 8
def flagUnsureTstamp : ℕ := 16

def clearScoreBoard (b : ScoreBoard1) : ScoreBoard1 :=
  { b with
    nodes := [], nxtToRetrx := none, ackedRtxId := -1, rtxId := 0, fack := 0, fackOut := 0,
    sackOut := 0 }

def init : ScoreBoard1 :=
  { nodes := [], nxtToRetrx := none, ackedRtxId := -1, rtxId := 0, fack := 0, fackOut := 0,
    sackOut := 0, lastRtxSeq := -1, fresh := 0 }

/-! ## `CleanRtxQueue` -/

/-- The counters when `pktNum` packets of a block with the flag are deleted. -/
def discount (b : ScoreBoard1) (flag : SkbFlag) (pktNum : ℤ) : Option ScoreBoard1 :=
  match flag with
  | .sacked => if b.sackOut < pktNum then none else some { b with sackOut := b.sackOut - pktNum }
  | .lost => if b.fackOut < pktNum then none else some { b with fackOut := b.fackOut - pktNum }
  | _ => some b

/-- The bookkeeping when a whole node is deleted: the new `acked_rtx_id_`, `nxt_to_retrx_`, flag
and answer. -/
def drop (b : ScoreBoard1) (n : ScoreBoardNode1) (rest : List ScoreBoardNode1) (flag : ℕ)
    (changed : Bool) : ScoreBoard1 × ℕ × Bool :=
  let nxtToRetrx := if b.nxtToRetrx = some n.addr then rest.head?.map (·.addr) else b.nxtToRetrx
  if n.flag = .retransmitted then
    if b.ackedRtxId < n.retran then
      ({ b with nodes := rest, nxtToRetrx, ackedRtxId := n.retran }, flag ||| flagUnsureTstamp, true)
    else ({ b with nodes := rest, nxtToRetrx }, flag ||| flagUnsureTstamp, changed)
  else ({ b with nodes := rest, nxtToRetrx }, flag, changed)

def cleanLoop (lastAck : ℤ) :
    List ScoreBoardNode1 → ScoreBoard1 → ℕ → Bool → Option (ScoreBoard1 × ℕ × Bool)
  | [], b, flag, changed => some (b, flag, changed)
  | n :: rest, b, flag, changed =>
    let cmp := n.shouldClean lastAck
    if cmp = 0 then some (b, flag, changed)
    else
      (b.discount n.flag (if cmp < 0 then n.getLength else cmp)).bind (fun b =>
        if cmp < 0 then
          let r := b.drop n rest flag changed
          cleanLoop lastAck rest r.1 r.2.1 r.2.2
        else some ({ b with nodes := n.setBegin (lastAck + 1) :: rest }, flag, changed))

def cleanRtxQueue (b : ScoreBoard1) (lastAck : ℤ) : Option (ScoreBoard1 × ℕ × Bool) :=
  cleanLoop lastAck b.nodes b 0 false

/-! ## The traversal of `UpdateScoreBoard` -/

/-- Insert a block to the right place to keep increasing order. -/
def insertSack (sorted : List (ℤ × ℤ)) (s : ℤ × ℤ) : List (ℤ × ℤ) :=
  sorted.takeWhile (fun t => t.1 ≤ s.1) ++ s :: sorted.dropWhile (fun t => t.1 ≤ s.1)

def sortSacks (lastAck : ℤ) (sacks : List (ℤ × ℤ)) : List (ℤ × ℤ) :=
  (sacks.filter (fun s => lastAck ≤ s.1)).foldl insertSack []

/-- The variables of the traversal; `sacks` are the blocks from `sack_index` on. -/
structure Pass where
  ackedRtxId : ℤ
  fackOut : ℤ
  sackOut : ℤ
  nxtToRetrx : Option ℕ
  fresh : ℕ
  flag : ℕ
  thorough : Bool
  sacks : List (ℤ × ℤ)

/-- The node `now` is SACKed as a whole. -/
def Pass.sack (p : Pass) (now : ScoreBoardNode1) : Pass × ScoreBoardNode1 :=
  let p := match now.flag with
    | .lost => { p with fackOut := p.fackOut - now.getLength }
    | .retransmitted =>
      { p with ackedRtxId := now.retran, flag := p.flag ||| flagUnsureTstamp, thorough := true }
    | _ => p
  ({ p with sackOut := p.sackOut + now.getLength, flag := p.flag ||| flagDataSacked },
    now.setFlag .sacked)

/-- The first part of an iteration, for a node that is not SACKed: match it with the SACK block.
The last component is what is split off. -/
def Pass.tag (p : Pass) (now : ScoreBoardNode1) : Pass × ScoreBoardNode1 × List ScoreBoardNode1 :=
  match p.sacks with
  | [] => (p, now, [])
  | (left, right) :: _ =>
    if left ≤ now.getEnd then
      if now.seq < left then
        let r := now.split left p.fresh
        ({ p with fresh := p.fresh + 1 }, r.1, [r.2])
      else if right ≤ now.getEnd then
        let r := now.split right p.fresh
        let s := { p with fresh := p.fresh + 1 }.sack r.1
        (s.1, s.2, [r.2])
      else
        let s := p.sack now
        (s.1, s.2, [])
    else (p, now, [])

/-- The node `now` is lost. -/
def Pass.lose (p : Pass) (now : ScoreBoardNode1) (pktNum : ℤ) : Pass × ScoreBoardNode1 :=
  ({ p with
      fackOut := p.fackOut + pktNum
      flag := p.flag ||| flagDataLost
      nxtToRetrx := p.nxtToRetrx.or (some now.addr) },
    now.setFlag .lost)

/-- The second part of an iteration: check if the node is lost. -/
def Pass.check (p : Pass) (fack dupackThreshold : ℤ) (now : ScoreBoardNode1) :
    Pass × ScoreBoardNode1 × List ScoreBoardNode1 :=
  let lostSeqThreshold := fack - (dupackThreshold + 1)
  match now.flag with
  | .retransmitted =>
    if now.nxt ≤ fack ∨ now.retran + dupackThreshold + 1 < p.ackedRtxId then
      let s := p.lose now 1
      (s.1, s.2, [])
    else (p, now, [])
  | .inflight =>
    if now.seq ≤ lostSeqThreshold then
      if lostSeqThreshold < now.getEnd then
        let r := now.split (lostSeqThreshold + 1) p.fresh
        let s := { p with fresh := p.fresh + 1 }.lose r.1 r.1.getLength
        (s.1, s.2, [r.2])
      else
        let s := p.lose now now.getLength
        (s.1, s.2, [])
    else (p, now, [])
  | .lost => ({ p with nxtToRetrx := p.nxtToRetrx.or (some now.addr) }, now, [])
  | .sacked => (p, now, [])

/-- One iteration: the node `now`, and what is split off behind it. -/
def Pass.visit (p : Pass) (fack dupackThreshold : ℤ) (now : ScoreBoardNode1) :
    Pass × ScoreBoardNode1 × List ScoreBoardNode1 :=
  if now.flag = .sacked then (p, now, [])
  else
    let r := { p with sacks := p.sacks.dropWhile (fun s => s.2 ≤ now.seq) }.tag now
    if r.1.sacks.head?.all (fun s => r.2.1.getEnd < s.1) then
      let c := r.1.check fack dupackThreshold r.2.1
      (c.1, c.2.1, c.2.2 ++ r.2.2)
    else r

/-- Merge `now` with the previous node, or make it the previous one. The nodes before the previous
one, and the previous one. -/
def attach (merge : Bool) (done : List ScoreBoardNode1) (prev : Option ScoreBoardNode1)
    (now : ScoreBoardNode1) : List ScoreBoardNode1 × ScoreBoardNode1 :=
  match prev with
  | some q => if merge then (done, q.merge now) else (done ++ [q], now)
  | none => (done, now)

/-- The traversal: the nodes before `prev`, `prev`, and the nodes from `now` on. -/
def traverse (fack dupackThreshold : ℤ) :
    ℕ → List ScoreBoardNode1 → Option ScoreBoardNode1 → List ScoreBoardNode1 → Pass →
      Option (List ScoreBoardNode1 × Pass)
  | 0, _, _, _, _ => none
  | _ + 1, done, prev, [], p => some (done ++ prev.toList, p)
  | fuel + 1, done, prev, now :: rest, p =>
    if p.sacks = [] ∧ p.thorough = false then some (done ++ prev.toList ++ now :: rest, p)
    else
      let v := p.visit fack dupackThreshold now
      let next := v.2.2 ++ rest
      let a := attach (prev.any (fun q => q.mergable v.2.1)) done prev v.2.1
      if next = [] ∧ a.2.getEnd < fack then
        traverse fack dupackThreshold fuel a.1 (some a.2)
          [{ addr := v.1.fresh, flag := .inflight, seq := a.2.getEnd + 1, nxt := fack, retran := 0 }]
          { v.1 with fresh := v.1.fresh + 1 }
      else traverse fack dupackThreshold fuel a.1 (some a.2) next v.1

/-- `UpdateScoreBoard` after the pre-processing, with `sacks` sorted. The traversal goes from packet
to packet up to the end of the board or to `fack_`, which bounds the number of iterations. -/
def process (b : ScoreBoard1) (lastAck dupackThreshold : ℤ) (sacks : List (ℤ × ℤ)) (flag : ℕ)
    (thorough : Bool) : Option (ScoreBoard1 × ℕ) :=
  let right := sacks.getLast?.elim (b.fack + 1) (·.2)
  let thorough := thorough || decide (b.fack < right - 1)
  let fack := if b.fack < right - 1 then right - 1 else b.fack
  let nodes := if b.nodes = [] then
      [{ addr := b.fresh, flag := .inflight, seq := lastAck + 1, nxt := fack, retran := 0 }]
    else b.nodes
  let stop := max fack (nodes.getLast?.elim fack getEnd)
  (traverse fack dupackThreshold (stop - lastAck + 2).toNat [] none nodes
    { ackedRtxId := b.ackedRtxId, fackOut := b.fackOut, sackOut := b.sackOut, nxtToRetrx := none,
      fresh := b.fresh + 1, flag, thorough, sacks }).map (fun r =>
    ({ b with
        nodes := r.1, nxtToRetrx := r.2.nxtToRetrx, ackedRtxId := r.2.ackedRtxId, fack,
        fackOut := r.2.fackOut, sackOut := r.2.sackOut, fresh := r.2.fresh }, r.2.flag))

def updateScoreBoard (b : ScoreBoard1) (lastAck : ℤ) (sacks : List (ℤ × ℤ)) (dupackThreshold : ℤ) :
    Option (ScoreBoard1 × ℕ) :=
  (b.cleanRtxQueue lastAck).bind (fun r =>
    let b := if r.1.nodes = [] then r.1.clearScoreBoard else r.1
    let thorough := if r.1.nodes = [] then false else r.2.2
    if thorough = false ∧ sacks = [] then some (b, r.2.1)
    else if thorough = false ∧ sortSacks lastAck sacks = [] then some (b, r.2.1)
    else b.process lastAck dupackThreshold (sortSacks lastAck sacks) r.2.1 thorough)

/-! ## `MarkLoss` and `MarkRetran` -/

/-- `MarkLoss` meets the node `now`: the variables, and the node. -/
def Pass.loseNode (p : Pass) (lastLost : Bool) (now : ScoreBoardNode1) : Pass × ScoreBoardNode1 :=
  if now.flag = .sacked then (p, now)
  else
    ({ p with
        fackOut := if now.flag = .lost then p.fackOut else p.fackOut + (now.getEnd - now.seq + 1)
        nxtToRetrx := if lastLost then p.nxtToRetrx else p.nxtToRetrx.or (some now.addr) },
      now.setFlag .lost)

/-- The loop of `MarkLoss`: the nodes before `prev`, `prev`, `last_lost`, and the nodes from `now`
on. -/
def markLossLoop (sndNxt : ℤ) :
    ℕ → List ScoreBoardNode1 → Option ScoreBoardNode1 → Bool → List ScoreBoardNode1 → Pass →
      Option (List ScoreBoardNode1 × Pass)
  | 0, _, _, _, _, _ => none
  | _ + 1, done, prev, _, [], p => some (done ++ prev.toList, p)
  | fuel + 1, done, prev, lastLost, now :: rest, p =>
    let isLost := decide (now.flag ≠ .sacked)
    let v := p.loseNode lastLost now
    let a := attach (lastLost && isLost) done prev v.2
    if rest = [] ∧ a.2.getEnd + 1 < sndNxt then
      markLossLoop sndNxt fuel a.1 (some a.2) isLost
        [{ addr := v.1.fresh, flag := .inflight, seq := a.2.getEnd + 1, nxt := sndNxt - 1,
           retran := 0 }]
        { v.1 with fresh := v.1.fresh + 1 }
    else markLossLoop sndNxt fuel a.1 (some a.2) isLost rest v.1

def markLoss (b : ScoreBoard1) (sndUna sndNxt : ℤ) : Option ScoreBoard1 :=
  (markLossLoop sndNxt (b.nodes.length + 2) [] none false b.nodes
    { ackedRtxId := b.ackedRtxId, fackOut := b.fackOut, sackOut := b.sackOut, nxtToRetrx := none,
      fresh := b.fresh, flag := 0, thorough := false, sacks := [] }).map (fun r =>
    let b := { b with rtxId := 0, ackedRtxId := -1 }
    if r.1 = [] ∧ sndUna < sndNxt then
      -- the score board is empty
      { b with
        nodes := [{ addr := r.2.fresh, flag := .lost, seq := sndUna, nxt := sndNxt - 1, retran := 0 }]
        nxtToRetrx := some r.2.fresh
        fresh := r.2.fresh + 1
        fackOut := r.2.fackOut + (sndNxt - sndUna) }
    else
      { b with
        nodes := r.1, nxtToRetrx := r.2.nxtToRetrx, fresh := r.2.fresh, fackOut := r.2.fackOut })

/-- The node that a pointer points to, between those before it and those after it. `none`: there is
no such node. -/
def find (addr : ℕ) : List ScoreBoardNode1 →
    Option (List ScoreBoardNode1 × ScoreBoardNode1 × List ScoreBoardNode1)
  | [] => none
  | n :: rest =>
    if n.addr = addr then some ([], n, rest)
    else (find addr rest).map (fun r => (n :: r.1, r.2.1, r.2.2))

def getNextRetran (b : ScoreBoard1) : Option (ScoreBoard1 × ℤ) :=
  match b.nxtToRetrx with
  | none => some (b, -1)
  | some addr =>
    (find addr b.nodes).map (fun r =>
      match (r.2.1 :: r.2.2).find? (fun n => n.flag = .lost) with
      | some n => ({ b with nxtToRetrx := some n.addr }, n.seq)
      | none => ({ b with nxtToRetrx := none }, -1))

def markRetran (b : ScoreBoard1) (retranSeqno sndNxt : ℤ) : Option ScoreBoard1 :=
  (b.nxtToRetrx.bind (fun addr => find addr b.nodes)).bind (fun r =>
    if r.2.1.inside retranSeqno ∧ 1 ≤ b.fackOut then
      some { b with
        nodes := r.1 ++ (r.2.1.markRetran sndNxt b.rtxId b.fresh ++ r.2.2)
        fackOut := b.fackOut - 1
        rtxId := b.rtxId + 1
        lastRtxSeq := retranSeqno
        fresh := b.fresh + 1 }
    else none)

def packetsInFlight (b : ScoreBoard1) (sndUna sndNxt : ℤ) : ℤ :=
  sndNxt - sndUna - b.fackOut - b.sackOut

/-! ## Blocks that tile a range -/

/-- The nodes are consecutive blocks that are not empty, from `lo` to `hi` exclusively. -/
def Tiles : ℤ → List ScoreBoardNode1 → ℤ → Prop
  | lo, [], hi => lo = hi
  | lo, n :: l, hi => n.seq = lo ∧ n.seq ≤ n.getEnd ∧ Tiles (n.getEnd + 1) l hi

/-- The number of packets in the nodes with the flag. -/
def count (flag : SkbFlag) (l : List ScoreBoardNode1) : ℤ :=
  (l.map (fun n => if n.flag = flag then n.getLength else 0)).sum

variable {b b' : ScoreBoard1} {n n' now : ScoreBoardNode1} {l l' r rest : List ScoreBoardNode1}
  {lo hi mid : ℤ} {p p' : Pass} {f : SkbFlag}

theorem getLength_eq (n : ScoreBoardNode1) : n.getLength = n.getEnd + 1 - n.seq := by
  unfold getLength getEnd
  split <;> omega

@[simp] theorem count_nil : count f [] = 0 := rfl

@[simp] theorem count_cons :
    count f (n :: l) = (if n.flag = f then n.getLength else 0) + count f l := by
  simp [count]

@[simp] theorem count_append : count f (l ++ r) = count f l + count f r := by
  simp [count]

theorem tiles_append : Tiles lo (l ++ r) hi ↔ ∃ mid, Tiles lo l mid ∧ Tiles mid r hi := by
  induction l generalizing lo with
  | nil => simp [Tiles]
  | cons n l ih =>
    simp only [cons_append, Tiles, ih]
    constructor
    · rintro ⟨h1, h2, mid, h3, h4⟩
      exact ⟨mid, ⟨h1, h2, h3⟩, h4⟩
    · rintro ⟨mid, ⟨h1, h2, h3⟩, h4⟩
      exact ⟨h1, h2, mid, h3, h4⟩

theorem Tiles.le (h : Tiles lo l hi) : lo ≤ hi := by
  induction l generalizing lo with
  | nil => exact h.le
  | cons n l ih =>
    obtain ⟨h1, h2, h3⟩ := h
    have := ih h3
    omega

theorem Tiles.count_nonneg (h : Tiles lo l hi) : 0 ≤ count f l := by
  induction l generalizing lo with
  | nil => exact le_rfl
  | cons n l ih =>
    obtain ⟨h1, h2, h3⟩ := h
    have := ih h3
    have := getLength_eq n
    rw [count_cons]
    split <;> omega

theorem Tiles.count_le (h : Tiles lo l hi) : count .sacked l + count .lost l ≤ hi - lo := by
  induction l generalizing lo with
  | nil => exact (Int.sub_nonneg.mpr h.le)
  | cons n l ih =>
    obtain ⟨h1, h2, h3⟩ := h
    have := ih h3
    have := getLength_eq n
    rw [count_cons, count_cons]
    cases hf : n.flag <;> simp <;> omega

theorem Tiles.end_of_last (h : Tiles lo (l ++ [n]) hi) : n.getEnd + 1 = hi := by
  obtain ⟨mid, -, -, -, h3⟩ := tiles_append.mp h
  exact h3

/-! ## Splitting and flagging a node -/

/-- Both parts of a node together are the node. -/
theorem split_spec {seq : ℤ} {addr : ℕ} (hf : n.flag ≠ .retransmitted) (hlt : n.seq < seq)
    (hle : seq ≤ n.getEnd) :
    Tiles n.seq [(n.split seq addr).1, (n.split seq addr).2] (n.getEnd + 1) ∧
      ∀ f, count f [(n.split seq addr).1, (n.split seq addr).2] = count f [n] := by
  have hend : n.getEnd = n.nxt := if_neg hf
  have h1 : (n.split seq addr).1.getEnd = seq - 1 := if_neg hf
  have h2 : (n.split seq addr).2.getEnd = n.nxt := if_neg hf
  have hl1 : (n.split seq addr).1.getLength = seq - n.seq := by
    rw [getLength_eq, h1]
    show seq - 1 + 1 - n.seq = _
    omega
  have hl2 : (n.split seq addr).2.getLength = n.nxt + 1 - seq := by
    rw [getLength_eq, h2]
    rfl
  refine ⟨⟨rfl, ?_, ?_, ?_, ?_⟩, fun f => ?_⟩
  · rw [h1]
    show n.seq ≤ seq - 1
    omega
  · rw [h1]
    show seq = seq - 1 + 1
    omega
  · rw [h2]
    show seq ≤ n.nxt
    omega
  · show (n.split seq addr).2.getEnd + 1 = _
    rw [h2, hend]
  · simp only [count_cons, count_nil, hl1, hl2, getLength_eq n]
    show (if n.flag = f then seq - n.seq else 0) + ((if n.flag = f then n.nxt + 1 - seq else 0) + 0) = _
    split <;> omega

theorem getEnd_setFlag (hf : f ≠ .retransmitted) : (n.setFlag f).getEnd = n.getEnd := if_neg hf

theorem getLength_setFlag (hf : f ≠ .retransmitted) : (n.setFlag f).getLength = n.getLength := by
  rw [getLength_eq, getLength_eq, getEnd_setFlag hf]
  rfl

/-! ## One iteration of the traversal -/

/-- The node `n` becomes `n'` and the nodes `t` behind it: they tile the same range, the counters
are kept, and the new nodes have new addresses. -/
structure Visited (p : Pass) (n : ScoreBoardNode1) (p' : Pass) (n' : ScoreBoardNode1)
    (t : List ScoreBoardNode1) : Prop where
  tiles : Tiles n.seq (n' :: t) (n.getEnd + 1)
  addr : n'.addr = n.addr
  sackOut : p'.sackOut - count .sacked (n' :: t) = p.sackOut - count .sacked [n]
  fackOut : p'.fackOut - count .lost (n' :: t) = p.fackOut - count .lost [n]
  fresh : p.fresh ≤ p'.fresh
  nodup : (t.map ScoreBoardNode1.addr).Nodup
  new : ∀ m ∈ t, p.fresh ≤ m.addr ∧ m.addr < p'.fresh

theorem Visited.refl (hn : n.seq ≤ n.getEnd) (hs : p'.sackOut = p.sackOut)
    (hf : p'.fackOut = p.fackOut) (hfresh : p'.fresh = p.fresh) : Visited p n p' n [] :=
  ⟨⟨rfl, hn, rfl⟩, rfl, by rw [hs], by rw [hf], hfresh.ge, nodup_nil, by simp⟩

theorem Visited.trans {p'' : Pass} {n'' : ScoreBoardNode1} {t t' : List ScoreBoardNode1}
    (h : Visited p n p' n' t) (h' : Visited p' n' p'' n'' t') :
    Visited p n p'' n'' (t' ++ t) := by
  obtain ⟨hseq, hle, htail⟩ := h.tiles
  have hs := h.sackOut
  have hs' := h'.sackOut
  have hf := h.fackOut
  have hf' := h'.fackOut
  simp only [count_cons, count_nil] at hs hs' hf hf'
  refine ⟨?_, h'.addr.trans h.addr, ?_, ?_, h.fresh.trans h'.fresh, ?_, fun m hm => ?_⟩
  · rw [← cons_append, tiles_append]
    exact ⟨n'.getEnd + 1, hseq ▸ h'.tiles, htail⟩
  · simp only [count_cons, count_append, count_nil]
    omega
  · simp only [count_cons, count_append, count_nil]
    omega
  · rw [map_append, List.nodup_append]
    refine ⟨h'.nodup, h.nodup, fun a ha c hc heq => ?_⟩
    obtain ⟨m, hm, rfl⟩ := mem_map.mp ha
    obtain ⟨m', hm', rfl⟩ := mem_map.mp hc
    have := (h'.new m hm).1
    have := (h.new m' hm').2
    omega
  · have hfresh := h.fresh
    have hfresh' := h'.fresh
    rcases mem_append.mp hm with hm | hm
    · have := h'.new m hm
      omega
    · have := h.new m hm
      omega

theorem Visited.split {seq : ℤ} (hf : n.flag ≠ .retransmitted) (hlt : n.seq < seq)
    (hle : seq ≤ n.getEnd) (hs : p'.sackOut = p.sackOut) (hfo : p'.fackOut = p.fackOut)
    (hfresh : p'.fresh = p.fresh + 1) :
    Visited p n p' (n.split seq p.fresh).1 [(n.split seq p.fresh).2] := by
  obtain ⟨htiles, hcount⟩ := @split_spec n seq p.fresh hf hlt hle
  refine ⟨htiles, rfl, ?_, ?_, by omega, by simp, fun m hm => ?_⟩
  · rw [hcount, hs]
  · rw [hcount, hfo]
  · rw [mem_singleton] at hm
    subst hm
    exact ⟨le_rfl, by rw [hfresh]; exact Nat.lt_succ_self _⟩

theorem sack_spec (hn : n.seq ≤ n.getEnd) (hf : n.flag ≠ .sacked) :
    Visited p n (p.sack n).1 (p.sack n).2 [] ∧ (p.sack n).2.flag = .sacked ∧
      (p.sack n).1.nxtToRetrx = p.nxtToRetrx ∧ (p.sack n).1.sacks = p.sacks := by
  have hflag : (p.sack n).2.flag = .sacked := rfl
  have hlen : (p.sack n).2.getLength = n.getLength := getLength_setFlag (by simp)
  refine ⟨⟨⟨rfl, hn, rfl⟩, rfl, ?_, ?_, ?_, nodup_nil, by simp⟩,
    hflag, ?_, ?_⟩
  · simp only [count_cons, hflag, hlen, if_neg hf]
    unfold Pass.sack
    cases n.flag <;> simp
  · simp only [count_cons, hflag]
    unfold Pass.sack
    cases n.flag <;> simp
  · unfold Pass.sack
    cases n.flag <;> simp
  · unfold Pass.sack
    cases n.flag <;> simp
  · unfold Pass.sack
    cases n.flag <;> simp

theorem not_retransmitted {x : ℤ} (hlt : n.seq < x) (hle : x ≤ n.getEnd) :
    n.flag ≠ .retransmitted := by
  intro heq
  rw [getEnd, if_pos heq] at hle
  omega

theorem tag_spec (hn : n.seq ≤ n.getEnd) (hf : n.flag ≠ .sacked)
    (hsacks : ∀ s ∈ p.sacks.head?, n.seq < s.2) :
    Visited p n (p.tag n).1 (p.tag n).2.1 (p.tag n).2.2 ∧
      (p.tag n).1.nxtToRetrx = p.nxtToRetrx ∧ (p.tag n).1.sacks = p.sacks ∧
      ((p.tag n).2.1.flag = .sacked ∨
        (p.tag n).1.sacks.head?.all (fun s => (p.tag n).2.1.getEnd < s.1) = true) := by
  unfold Pass.tag
  split
  case h_1 hnil =>
    refine ⟨Visited.refl hn rfl rfl rfl, rfl, rfl, Or.inr ?_⟩
    rw [hnil]
    rfl
  case h_2 left right tl heq =>
    have hright : n.seq < right := hsacks (left, right) (by rw [heq]; rfl)
    split
    case isTrue hmeet =>
      split
      case isTrue hleft =>
        have hr := not_retransmitted hleft hmeet
        refine ⟨Visited.split hr hleft hmeet rfl rfl rfl, rfl, rfl, Or.inr ?_⟩
        have hend : (n.split left p.fresh).1.getEnd = left - 1 := if_neg hr
        rw [heq]
        simp only [head?_cons, Option.all_some, decide_eq_true_eq]
        omega
      case isFalse hleft =>
        split
        case isTrue hpart =>
          have hr := not_retransmitted hright hpart
          have hsplit := @Visited.split n p { p with fresh := p.fresh + 1 } right hr hright hpart rfl
            rfl rfl
          obtain ⟨hv, hflag, hnxt, hsk⟩ := @sack_spec (n.split right p.fresh).1
            { p with fresh := p.fresh + 1 } hsplit.tiles.2.1 hf
          exact ⟨hsplit.trans hv, hnxt, hsk, Or.inl hflag⟩
        case isFalse hpart =>
          obtain ⟨hv, hflag, hnxt, hsk⟩ := @sack_spec n p hn hf
          exact ⟨hv, hnxt, hsk, Or.inl hflag⟩
    case isFalse hmeet =>
      refine ⟨Visited.refl hn rfl rfl rfl, rfl, rfl, Or.inr ?_⟩
      rw [heq]
      simpa using hmeet

/-- What an iteration does to `nxt_to_retrx_`: it points to the first lost node. -/
def Points (p p' : Pass) (n n' : ScoreBoardNode1) : Prop :=
  if n'.flag = .lost then p'.nxtToRetrx = p.nxtToRetrx.or (some n.addr)
  else p'.nxtToRetrx = p.nxtToRetrx

theorem lose_spec {pktNum : ℤ} (hn : n.seq ≤ n.getEnd) (hs : n.flag ≠ .sacked)
    (hl : n.flag ≠ .lost) (hnum : pktNum = n.getLength) :
    Visited p n (p.lose n pktNum).1 (p.lose n pktNum).2 [] ∧
      Points p (p.lose n pktNum).1 n (p.lose n pktNum).2 := by
  have hlen : (p.lose n pktNum).2.getLength = n.getLength := getLength_setFlag (by simp)
  refine ⟨⟨⟨rfl, hn, rfl⟩, rfl, ?_, ?_, le_rfl, nodup_nil,
    by simp⟩, ?_⟩
  · simp only [count_cons, if_neg hs]
    rfl
  · simp only [count_cons, count_nil, hlen, if_neg hl]
    show p.fackOut + pktNum - (n.getLength + 0) = _
    omega
  · rfl

theorem check_spec (fack dupackThreshold : ℤ) (hn : n.seq ≤ n.getEnd) :
    Visited p n (p.check fack dupackThreshold n).1 (p.check fack dupackThreshold n).2.1
        (p.check fack dupackThreshold n).2.2 ∧
      Points p (p.check fack dupackThreshold n).1 n (p.check fack dupackThreshold n).2.1 := by
  have hsame : n.flag ≠ .lost → Visited p n p n [] ∧ Points p p n n := by
    intro hl
    refine ⟨Visited.refl hn rfl rfl rfl, ?_⟩
    rw [Points, if_neg hl]
  unfold Pass.check
  cases hflag : n.flag with
  | retransmitted =>
    dsimp only
    split
    · refine lose_spec hn (by simp [hflag]) (by simp [hflag]) ?_
      rw [getLength, if_pos hflag]
    · exact hsame (by simp [hflag])
  | inflight =>
    dsimp only
    split
    case isTrue hlost =>
      split
      case isTrue hpart =>
        have hr : n.flag ≠ .retransmitted := by simp [hflag]
        have hsplit := @Visited.split n p { p with fresh := p.fresh + 1 }
          (fack - (dupackThreshold + 1) + 1) hr (by omega) (by omega) rfl rfl rfl
        obtain ⟨hv, hpt⟩ := @lose_spec (n.split (fack - (dupackThreshold + 1) + 1) p.fresh).1
          { p with fresh := p.fresh + 1 } _ hsplit.tiles.2.1
          (show n.flag ≠ .sacked by simp [hflag]) (show n.flag ≠ .lost by simp [hflag]) rfl
        exact ⟨hsplit.trans hv, hpt⟩
      case isFalse hpart => exact lose_spec hn (by simp [hflag]) (by simp [hflag]) rfl
    case isFalse => exact hsame (by simp [hflag])
  | lost =>
    refine ⟨Visited.refl hn rfl rfl rfl, ?_⟩
    rw [Points, if_pos hflag]
  | sacked => exact hsame (by simp [hflag])

/-- One iteration of the traversal changes the counters with the flags. -/
theorem visit_spec (fack dupackThreshold : ℤ) (hn : n.seq ≤ n.getEnd) :
    Visited p n (p.visit fack dupackThreshold n).1 (p.visit fack dupackThreshold n).2.1
        (p.visit fack dupackThreshold n).2.2 ∧
      Points p (p.visit fack dupackThreshold n).1 n (p.visit fack dupackThreshold n).2.1 := by
  unfold Pass.visit
  split
  case isTrue hflag =>
    refine ⟨Visited.refl hn rfl rfl rfl, ?_⟩
    rw [Points, if_neg (by simp [hflag])]
  case isFalse hflag =>
    have hsacks : ∀ s ∈ (p.sacks.dropWhile (fun s => s.2 ≤ n.seq)).head?, n.seq < s.2 := by
      intro s hs
      have := head?_dropWhile_not (fun s : ℤ × ℤ => decide (s.2 ≤ n.seq)) p.sacks
      rw [hs] at this
      simpa using this
    obtain ⟨hv, hnxt, -, hor⟩ :=
      @tag_spec n { p with sacks := p.sacks.dropWhile (fun s => s.2 ≤ n.seq) } hn hflag hsacks
    have hv' : Visited p n _ _ _ :=
      ⟨hv.tiles, hv.addr, hv.sackOut, hv.fackOut, hv.fresh, hv.nodup, hv.new⟩
    dsimp only
    generalize ({ p with sacks := p.sacks.dropWhile (fun s => s.2 ≤ n.seq) } : Pass).tag n = r
      at hv' hnxt hor ⊢
    split
    case isTrue hcheck =>
      obtain ⟨hc, hpt⟩ := check_spec (p := r.1) fack dupackThreshold hv'.tiles.2.1
      refine ⟨hv'.trans hc, ?_⟩
      unfold Points at hpt ⊢
      rw [hv'.addr, hnxt] at hpt
      exact hpt
    case isFalse hcheck =>
      have hsacked : r.2.1.flag = .sacked := hor.resolve_right hcheck
      refine ⟨hv', ?_⟩
      rw [Points, if_neg (by simp [hsacked])]
      exact hnxt

/-! ## The traversal -/

/-- The addresses of the nodes are different, and were returned by `new` before. -/
structure Distinct (fresh : ℕ) (l : List ScoreBoardNode1) : Prop where
  nodup : (l.map ScoreBoardNode1.addr).Nodup
  lt : ∀ n ∈ l, n.addr < fresh

theorem Distinct.mono {k k' : ℕ} (h : Distinct k l) (hle : k ≤ k') : Distinct k' l :=
  ⟨h.nodup, fun n hn => (h.lt n hn).trans_le hle⟩

theorem Distinct.insert {k k' : ℕ} {t : List ScoreBoardNode1} (h : Distinct k (l ++ r))
    (ht : (t.map ScoreBoardNode1.addr).Nodup) (hnew : ∀ m ∈ t, k ≤ m.addr ∧ m.addr < k')
    (hle : k ≤ k') : Distinct k' (l ++ (t ++ r)) := by
  constructor
  · have hperm : ((l ++ (t ++ r)).map ScoreBoardNode1.addr).Perm
        (t.map ScoreBoardNode1.addr ++ (l ++ r).map ScoreBoardNode1.addr) := by
      rw [← map_append]
      refine List.Perm.map _ ?_
      rw [← append_assoc, ← append_assoc]
      exact perm_append_comm.append_right r
    rw [hperm.nodup_iff, List.nodup_append]
    refine ⟨ht, h.nodup, fun a ha c hc heq => ?_⟩
    obtain ⟨m, hm, rfl⟩ := mem_map.mp ha
    obtain ⟨m', hm', rfl⟩ := mem_map.mp hc
    have := (hnew m hm).1
    have := h.lt m' hm'
    omega
  · intro m hm
    have hor : m ∈ l ++ r ∨ m ∈ t := by
      simp only [mem_append] at hm ⊢
      tauto
    rcases hor with hm | hm
    · exact (h.lt m hm).trans_le hle
    · exact (hnew m hm).2

theorem Distinct.concat {k : ℕ} (h : Distinct k l) (hn : n.addr = k) :
    Distinct (k + 1) (l ++ [n]) := by
  refine Distinct.insert (t := [n]) (r := []) (by simpa using h) (by simp) (fun m hm => ?_)
    (Nat.le_succ k)
  rw [mem_singleton] at hm
  subst hm
  omega

theorem Distinct.of_sublist {k : ℕ} (h : Distinct k l)
    (hsub : (l'.map ScoreBoardNode1.addr).Sublist (l.map ScoreBoardNode1.addr)) : Distinct k l' := by
  refine ⟨h.nodup.sublist hsub, fun n hn => ?_⟩
  obtain ⟨m, hm, heq⟩ := mem_map.mp (hsub.subset (mem_map_of_mem hn))
  rw [← heq]
  exact h.lt m hm

theorem attach_addr (merge : Bool) (done : List ScoreBoardNode1) (prev : Option ScoreBoardNode1)
    (now : ScoreBoardNode1) :
    ((attach merge done prev now).1 ++ [(attach merge done prev now).2]).map ScoreBoardNode1.addr =
      (done ++ prev.toList).map ScoreBoardNode1.addr ++
        (if merge && prev.isSome then [] else [now.addr]) := by
  unfold attach
  cases prev with
  | none => simp
  | some q => cases merge <;> simp [ScoreBoardNode1.merge]

/-- Adjacent nodes with the same flag become one. -/
theorem merge_spec {q : ScoreBoardNode1} (hq : q.seq ≤ q.getEnd) (hnext : q.getEnd + 1 = now.seq)
    (hn : now.seq ≤ now.getEnd) (hflag : q.flag = now.flag) (hr : now.flag ≠ .retransmitted) :
    (q.merge now).getEnd = now.getEnd ∧ q.seq ≤ (q.merge now).getEnd ∧
      ∀ f, count f [q.merge now] = count f [q] + count f [now] := by
  have hend : (q.merge now).getEnd = now.getEnd := by
    have hr' : (q.merge now).flag ≠ .retransmitted := fun h => hr (hflag.symm.trans h)
    rw [getEnd, getEnd, if_neg hr', if_neg hr]
    rfl
  refine ⟨hend, by omega, fun f => ?_⟩
  have h1 := getLength_eq q
  have h2 := getLength_eq now
  have h3 := getLength_eq (q.merge now)
  change _ = _ - q.seq at h3
  simp only [count_cons, count_nil]
  show (if q.flag = f then (q.merge now).getLength else 0) + 0 = _
  rw [hflag]
  split <;> omega

theorem attach_spec {merge : Bool} {done : List ScoreBoardNode1} {prev : Option ScoreBoardNode1}
    (hleft : Tiles lo (done ++ prev.toList) mid) (hseq : now.seq = mid) (hn : now.seq ≤ now.getEnd)
    (hmerge : merge = true → ∀ q ∈ prev, q.flag = now.flag ∧ now.flag ≠ .retransmitted) :
    Tiles lo ((attach merge done prev now).1 ++ [(attach merge done prev now).2]) (now.getEnd + 1) ∧
      (attach merge done prev now).2.getEnd = now.getEnd ∧
      (attach merge done prev now).2.flag = now.flag ∧
      ∀ f, count f ((attach merge done prev now).1 ++ [(attach merge done prev now).2]) =
        count f (done ++ prev.toList) + count f [now] := by
  have hnow : Tiles mid [now] (now.getEnd + 1) := ⟨hseq, hn, rfl⟩
  unfold attach
  cases prev with
  | none =>
    rw [Option.toList_none, append_nil] at hleft ⊢
    exact ⟨tiles_append.mpr ⟨mid, hleft, hnow⟩, rfl, rfl, fun f => count_append⟩
  | some q =>
    rw [Option.toList_some] at hleft ⊢
    cases merge with
    | false =>
      refine ⟨tiles_append.mpr ⟨mid, hleft, hnow⟩, rfl, rfl, fun f => count_append⟩
    | true =>
      obtain ⟨hflag, hr⟩ := hmerge rfl q rfl
      obtain ⟨m, hdone, hq1, hq2, hq3⟩ := tiles_append.mp hleft
      obtain ⟨hend, hle, hcount⟩ :=
        merge_spec hq2 (hq3.trans hseq.symm) hn hflag hr
      refine ⟨tiles_append.mpr ⟨m, hdone, hq1, hle, ?_⟩, hend, hflag, fun f => ?_⟩
      · show (q.merge now).getEnd + 1 = _
        rw [hend]
      · simp only [if_true, count_append, hcount]
        omega

/-- The state of the traversal: what is behind tiles `[lo, mid)`, what is ahead `[mid, hi)`. -/
structure Midway (lo mid hi : ℤ) (done : List ScoreBoardNode1) (prev : Option ScoreBoardNode1)
    (rest : List ScoreBoardNode1) (p : Pass) : Prop where
  left : Tiles lo (done ++ prev.toList) mid
  right : Tiles mid rest hi
  sackOut : p.sackOut = count .sacked (done ++ prev.toList) + count .sacked rest
  fackOut : p.fackOut = count .lost (done ++ prev.toList) + count .lost rest
  distinct : Distinct p.fresh (done ++ prev.toList ++ rest)
  pointer : ∀ a ∈ p.nxtToRetrx, a ∈ (done ++ prev.toList).map ScoreBoardNode1.addr
  lost : ∀ q ∈ prev, q.flag = .lost → p.nxtToRetrx ≠ none

/-- The node `now` is visited, and merged with the previous one only if both have the same flag. -/
theorem Midway.visit {done rest : List ScoreBoardNode1} {prev : Option ScoreBoardNode1} {merge : Bool}
    (h : Midway lo mid hi done prev (now :: rest) p) (hv : Visited p now p' n' l)
    (hpt : Points p p' now n')
    (hmerge : merge = true → ∀ q ∈ prev, q.flag = n'.flag ∧ n'.flag ≠ .retransmitted) :
    Midway lo (n'.getEnd + 1) hi (attach merge done prev n').1 (some (attach merge done prev n').2)
      (l ++ rest) p' ∧ mid ≤ n'.getEnd := by
  obtain ⟨hmid, hnow, hrest⟩ := h.right
  obtain ⟨hseq, hn', htail⟩ := hv.tiles
  obtain ⟨ht, hend, hflag, hcount⟩ := attach_spec h.left (hseq.trans hmid) hn' hmerge
  have haddr := attach_addr merge done prev n'
  have hs := hv.sackOut
  have hf := hv.fackOut
  have hs' := h.sackOut
  have hf' := h.fackOut
  simp only [count_cons, count_nil] at hs hf hs' hf' hcount
  -- when the nodes are merged and lost, the pointer was set before
  have hsame : merge && prev.isSome → p'.nxtToRetrx = p.nxtToRetrx := by
    intro hany
    cases prev with
    | none => simp at hany
    | some q =>
      rw [Option.isSome_some, Bool.and_true] at hany
      unfold Points at hpt
      split at hpt
      case isTrue hl =>
        have hne := h.lost q rfl ((hmerge hany q rfl).1.trans hl)
        rw [hpt, Option.or_of_isSome (Option.isSome_iff_ne_none.mpr hne)]
      case isFalse => exact hpt
  refine ⟨⟨?_, tiles_append.mpr ⟨_, htail, hrest⟩, ?_, ?_, ?_, fun a ha => ?_, fun q hq hl => ?_⟩,
    by omega⟩
  · simpa using ht
  · simp only [Option.toList_some, hcount, count_append] at hs' ⊢
    omega
  · simp only [Option.toList_some, hcount, count_append] at hf' ⊢
    omega
  · have hins : Distinct p'.fresh (done ++ prev.toList ++ [now] ++ (l ++ rest)) :=
      Distinct.insert (by simpa using h.distinct) hv.nodup hv.new hv.fresh
    refine hins.of_sublist ?_
    have hright : (done ++ prev.toList ++ [now] ++ (l ++ rest)).map ScoreBoardNode1.addr =
        (done ++ prev.toList).map ScoreBoardNode1.addr ++ [now.addr] ++
          (l ++ rest).map ScoreBoardNode1.addr := by
      simp only [map_append, map_cons, map_nil]
    rw [Option.toList_some, map_append, haddr, hright]
    refine List.Sublist.append (List.Sublist.append (List.Sublist.refl _) ?_) (List.Sublist.refl _)
    split
    · exact nil_sublist _
    · simp [hv.addr]
  · rw [Option.toList_some, haddr, mem_append]
    by_cases hany : (merge && prev.isSome) = true
    · rw [hsame hany] at ha
      exact Or.inl (h.pointer a ha)
    · rw [if_neg hany, mem_singleton, hv.addr]
      unfold Points at hpt
      split at hpt
      · rw [hpt, Option.mem_def, Option.or_eq_some_iff] at ha
        rcases ha with ha | ⟨-, ha⟩
        · exact Or.inl (h.pointer a ha)
        · exact Or.inr (Option.some.inj ha).symm
      · rw [hpt] at ha
        exact Or.inl (h.pointer a ha)
  · cases hq
    unfold Points at hpt
    rw [if_pos (hflag.symm.trans hl)] at hpt
    rw [hpt]
    simp

theorem Midway.extend {done : List ScoreBoardNode1} {q : ScoreBoardNode1} {stop : ℤ}
    (h : Midway lo mid hi done (some q) [] p) (hlt : q.getEnd < stop) :
    Midway lo mid (stop + 1) done (some q)
      [{ addr := p.fresh, flag := .inflight, seq := q.getEnd + 1, nxt := stop, retran := 0 }]
      { p with fresh := p.fresh + 1 } := by
  have hend : q.getEnd + 1 = mid := h.left.end_of_last
  refine ⟨h.left, ⟨hend, ?_, rfl⟩, ?_, ?_, ?_, h.pointer, h.lost⟩
  · show q.getEnd + 1 ≤ stop
    omega
  · rw [h.sackOut]
    simp
  · rw [h.fackOut]
    simp
  · have hd := h.distinct
    rw [append_nil] at hd
    exact hd.concat rfl

/-- **The traversal** ends, with a board that tiles a range up to the old end or to `fack_`. -/
theorem traverse_spec {fack dupackThreshold : ℤ} {fuel : ℕ} {done rest : List ScoreBoardNode1}
    {prev : Option ScoreBoardNode1} (h : Midway lo mid hi done prev rest p)
    (hfuel : max hi (fack + 1) - mid < fuel) :
    ∃ l p' hi', traverse fack dupackThreshold fuel done prev rest p = some (l, p') ∧
      Midway lo hi' hi' l none [] p' ∧ hi ≤ hi' ∧ hi' ≤ max hi (fack + 1) := by
  have hright := h.right.le
  induction fuel generalizing mid hi done rest prev p with
  | zero =>
    omega
  | succ fuel ih =>
    cases rest with
    | nil =>
      obtain rfl : mid = hi := h.right
      refine ⟨done ++ prev.toList, p, mid, rfl, ⟨?_, rfl, ?_, ?_, ?_, ?_, by simp⟩, le_rfl,
        le_max_left _ _⟩
      · simpa using h.left
      · simpa using h.sackOut
      · simpa using h.fackOut
      · simpa using h.distinct
      · simpa using h.pointer
    | cons now rest =>
      rw [traverse]
      split
      case isTrue hstop =>
        refine ⟨_, p, hi, rfl, ⟨?_, rfl, ?_, ?_, ?_, ?_, by simp⟩, le_rfl, le_max_left _ _⟩
        · rw [Option.toList_none, append_nil, tiles_append]
          exact ⟨mid, h.left, h.right⟩
        · rw [h.sackOut, Option.toList_none, append_nil, count_append (r := now :: rest),
            count_nil, add_zero]
        · rw [h.fackOut, Option.toList_none, append_nil, count_append (r := now :: rest),
            count_nil, add_zero]
        · simpa using h.distinct
        · intro a ha
          have hmem := h.pointer a ha
          rw [Option.toList_none, append_nil, map_append]
          exact mem_append_left _ hmem
      case isFalse hgo =>
        obtain ⟨hv, hpt⟩ := visit_spec (p := p) fack dupackThreshold h.right.2.1
        dsimp only
        generalize p.visit fack dupackThreshold now = v at hv hpt ⊢
        have hmerge : prev.any (fun q => q.mergable v.2.1) = true →
            ∀ q ∈ prev, q.flag = v.2.1.flag ∧ v.2.1.flag ≠ .retransmitted := by
          intro hany q hq
          rw [hq] at hany
          simp only [Option.any_some, mergable, decide_eq_true_eq] at hany
          exact ⟨hany.2.symm, hany.1⟩
        obtain ⟨h', hmid⟩ := h.visit hv hpt hmerge
        generalize attach (prev.any (fun q => q.mergable v.2.1)) done prev v.2.1 = a at h' ⊢
        split
        case isTrue hext =>
          rw [hext.1] at h'
          have hhi : v.2.1.getEnd + 1 = hi := h'.right
          have hend : a.2.getEnd + 1 = v.2.1.getEnd + 1 := h'.left.end_of_last
          obtain ⟨l, p', hi', heq, hm, h1, h2⟩ := ih (h'.extend hext.2)
            (by omega) (by omega)
          rw [max_self] at h2
          exact ⟨l, p', hi', heq, hm, by omega, h2.trans (le_max_right _ _)⟩
        case isFalse =>
          exact ih h' (by omega) h'.right.le

/-! ## The board between the calls -/

/-- **The accounting of the scoreboard**: its nodes tile the packets from `lo` to `hi`, the counters
count them, and `nxt_to_retrx_` is one of them. -/
structure Board (b : ScoreBoard1) (lo hi : ℤ) : Prop where
  tiles : Tiles lo b.nodes hi
  sackOut : b.sackOut = count .sacked b.nodes
  fackOut : b.fackOut = count .lost b.nodes
  distinct : Distinct b.fresh b.nodes
  pointer : ∀ a ∈ b.nxtToRetrx, a ∈ b.nodes.map ScoreBoardNode1.addr

theorem board_clear (b : ScoreBoard1) (lo : ℤ) : Board b.clearScoreBoard lo lo :=
  ⟨rfl, rfl, rfl, ⟨nodup_nil, by simp [clearScoreBoard]⟩, by simp [clearScoreBoard]⟩

theorem Board.eq_of_nil (h : Board b lo hi) (hnil : b.nodes = []) : lo = hi := by
  have ht := h.tiles
  rw [hnil] at ht
  exact ht

/-! ## Cleaning -/

theorem shouldClean_neg {lastAck : ℤ} (hne : n.shouldClean lastAck ≠ 0) :
    (n.shouldClean lastAck < 0 → n.getEnd ≤ lastAck) ∧
      (¬ n.shouldClean lastAck < 0 → n.flag ≠ .retransmitted ∧ n.seq ≤ lastAck ∧
        lastAck < n.getEnd ∧ n.shouldClean lastAck = lastAck + 1 - n.seq) := by
  unfold shouldClean at hne ⊢
  unfold getEnd
  split at hne
  · exact absurd rfl hne
  · rename_i hge
    rw [if_neg hge]
    by_cases hr : n.flag = .retransmitted
    · rw [if_pos (Or.inl hr), if_pos hr]
      exact ⟨fun _ => not_lt.mp hge, fun h => absurd (by decide) h⟩
    · rw [if_neg hr]
      by_cases hle : n.nxt ≤ lastAck
      · rw [if_pos (Or.inr hle)]
        exact ⟨fun _ => hle, fun h => absurd (by decide) h⟩
      · rw [if_neg (fun h => h.elim hr hle)]
        exact ⟨fun h => by omega, fun _ => ⟨hr, by omega, by omega, rfl⟩⟩

theorem discount_spec {pktNum : ℤ} (hs : pktNum ≤ b.sackOut ∨ f ≠ .sacked)
    (hf : pktNum ≤ b.fackOut ∨ f ≠ .lost) :
    ∃ b', b.discount f pktNum = some b' ∧
      b'.sackOut = b.sackOut - (if f = .sacked then pktNum else 0) ∧
      b'.fackOut = b.fackOut - (if f = .lost then pktNum else 0) ∧ b'.nodes = b.nodes ∧
      b'.nxtToRetrx = b.nxtToRetrx ∧ b'.fresh = b.fresh ∧ b'.fack = b.fack := by
  unfold discount
  cases f with
  | sacked =>
    have hle := hs.resolve_right (fun h => h rfl)
    rw [if_neg (not_lt.mpr hle)]
    exact ⟨_, rfl, rfl, by simp, rfl, rfl, rfl, rfl⟩
  | lost =>
    have hle := hf.resolve_right (fun h => h rfl)
    rw [if_neg (not_lt.mpr hle)]
    exact ⟨_, rfl, by simp, rfl, rfl, rfl, rfl, rfl⟩
  | inflight => exact ⟨b, rfl, by simp, by simp, rfl, rfl, rfl, rfl⟩
  | retransmitted => exact ⟨b, rfl, by simp, by simp, rfl, rfl, rfl, rfl⟩

theorem drop_spec (rest : List ScoreBoardNode1) (flag : ℕ) (changed : Bool) :
    (b.drop n rest flag changed).1.nodes = rest ∧
      (b.drop n rest flag changed).1.sackOut = b.sackOut ∧
      (b.drop n rest flag changed).1.fackOut = b.fackOut ∧
      (b.drop n rest flag changed).1.fresh = b.fresh ∧
      (b.drop n rest flag changed).1.fack = b.fack ∧
      (b.drop n rest flag changed).1.nxtToRetrx =
        if b.nxtToRetrx = some n.addr then rest.head?.map ScoreBoardNode1.addr
        else b.nxtToRetrx := by
  unfold drop
  dsimp only
  split
  · split <;> exact ⟨rfl, rfl, rfl, rfl, rfl, rfl⟩
  · exact ⟨rfl, rfl, rfl, rfl, rfl, rfl⟩

theorem Board.drop (h : Board b lo hi) (hnodes : b.nodes = n :: rest) {b₁ : ScoreBoard1}
    (hs : b₁.sackOut = b.sackOut - (if n.flag = .sacked then n.getLength else 0))
    (hf : b₁.fackOut = b.fackOut - (if n.flag = .lost then n.getLength else 0))
    (hp : b₁.nxtToRetrx = b.nxtToRetrx) (hfresh : b₁.fresh = b.fresh) (flag : ℕ) (changed : Bool) :
    Board (b₁.drop n rest flag changed).1 (n.getEnd + 1) hi := by
  obtain ⟨h1, h2, h3, h4, -, h5⟩ := @drop_spec b₁ n rest flag changed
  have ht := h.tiles
  have hs' := h.sackOut
  have hf' := h.fackOut
  have hd := h.distinct
  have hptr := h.pointer
  rw [hnodes] at ht hs' hf' hd hptr
  rw [count_cons] at hs' hf'
  refine ⟨?_, ?_, ?_, ?_, fun a ha => ?_⟩
  · rw [h1]
    exact ht.2.2
  · rw [h1, h2]
    omega
  · rw [h1, h3]
    omega
  · rw [h1, h4, hfresh]
    exact hd.of_sublist (by simp)
  · rw [h5, hp] at ha
    rw [h1]
    split at ha
    · obtain ⟨m, hm, rfl⟩ := Option.map_eq_some_iff.mp ha
      exact mem_map_of_mem (mem_of_head? hm)
    · rename_i hne
      have hmem := hptr a ha
      rw [map_cons, mem_cons] at hmem
      refine hmem.resolve_left (fun heq => hne ?_)
      rw [← heq]
      exact ha

/-- By induction on the nodes: those below the acknowledgement go. -/
theorem cleanLoop_spec {lastAck : ℤ} {nodes : List ScoreBoardNode1} (h : Board b lo hi)
    (hnodes : b.nodes = nodes) (hlo : lo ≤ lastAck + 1) (flag : ℕ) (changed : Bool) :
    ∃ b' flag' changed', cleanLoop lastAck nodes b flag changed = some (b', flag', changed') ∧
      b'.fack = b.fack ∧ ((lastAck + 1 < hi ∧ Board b' (lastAck + 1) hi ∧ b'.nodes ≠ []) ∨
        (hi ≤ lastAck + 1 ∧ b'.nodes = [])) := by
  induction nodes generalizing b lo flag changed with
  | nil =>
    have heq := h.eq_of_nil hnodes
    exact ⟨b, flag, changed, rfl, rfl, Or.inr ⟨by omega, hnodes⟩⟩
  | cons n rest ih =>
    have ht := h.tiles
    have hs := h.sackOut
    have hf := h.fackOut
    rw [hnodes] at ht hs hf
    obtain ⟨hseq, hn, hrest⟩ := ht
    rw [count_cons] at hs hf
    have hle := hrest.le
    have hs0 : 0 ≤ count .sacked rest := hrest.count_nonneg
    have hf0 : 0 ≤ count .lost rest := hrest.count_nonneg
    have hlen := getLength_eq n
    rw [cleanLoop]
    split
    -- the first node begins behind the acknowledged packets
    case isTrue hzero =>
      have hlt : lastAck < n.seq := by
        by_contra hge
        unfold shouldClean at hzero
        rw [if_neg hge] at hzero
        split at hzero <;> omega
      have heq : lo = lastAck + 1 := by omega
      exact ⟨b, flag, changed, rfl, rfl, Or.inl ⟨by omega, heq ▸ h, by rw [hnodes]; simp⟩⟩
    case isFalse hne =>
      obtain ⟨hall, hpart⟩ := shouldClean_neg hne
      generalize n.shouldClean lastAck = cmp at hne hall hpart ⊢
      by_cases hneg : cmp < 0
      · obtain ⟨b₁, hdisc, h1, h2, h3, h4, h5, h6⟩ := @discount_spec b n.flag n.getLength
          (by by_cases hfl : n.flag = .sacked
              · rw [if_pos hfl] at hs
                exact Or.inl (by omega)
              · exact Or.inr hfl)
          (by by_cases hfl : n.flag = .lost
              · rw [if_pos hfl] at hf
                exact Or.inl (by omega)
              · exact Or.inr hfl)
        have hdrop := h.drop hnodes h1 h2 h4 h5 flag changed
        have hfack := (@drop_spec b₁ n rest flag changed).2.2.2.2.1
        rw [if_pos hneg, hdisc, Option.bind_some, if_pos hneg, ← h6, ← hfack]
        exact ih hdrop (drop_spec rest flag changed).1 (by omega) _ _
      -- the acknowledgement ends inside the node, which loses its front
      · obtain ⟨hr, hge, hlt, hcmp⟩ := hpart hneg
        obtain ⟨b₁, hdisc, h1, h2, h3, h4, h5, h6⟩ := @discount_spec b n.flag cmp
          (by by_cases hfl : n.flag = .sacked
              · rw [if_pos hfl] at hs
                exact Or.inl (by omega)
              · exact Or.inr hfl)
          (by by_cases hfl : n.flag = .lost
              · rw [if_pos hfl] at hf
                exact Or.inl (by omega)
              · exact Or.inr hfl)
        rw [if_neg hneg, hdisc, Option.bind_some, if_neg hneg]
        have hend : (n.setBegin (lastAck + 1)).getEnd = n.getEnd := by
          rw [getEnd, getEnd, if_neg hr]
          exact if_neg hr
        have hlen' := getLength_eq (n.setBegin (lastAck + 1))
        change _ = _ - (lastAck + 1) at hlen'
        refine ⟨_, _, _, rfl, h6, Or.inl ⟨by omega, ⟨⟨rfl, ?_, ?_⟩, ?_, ?_, ?_, ?_⟩, by simp⟩⟩
        · show lastAck + 1 ≤ _
          omega
        · rw [hend]
          exact hrest
        · rw [count_cons, h1, hs]
          show _ = (if n.flag = .sacked then _ else 0) + _
          split <;> omega
        · rw [count_cons, h2, hf]
          show _ = (if n.flag = .lost then _ else 0) + _
          split <;> omega
        · have hd := h.distinct
          rw [hnodes, ← h5] at hd
          exact hd.of_sublist (by simp [setBegin])
        · have hptr := h.pointer
          rw [hnodes, ← h4] at hptr
          exact hptr

/-! ## `UpdateScoreBoard` -/

theorem mem_insertSack {sorted : List (ℤ × ℤ)} {s t : ℤ × ℤ} :
    t ∈ insertSack sorted s ↔ t ∈ sorted ∨ t = s := by
  have hsplit : t ∈ sorted ↔ t ∈ sorted.takeWhile (fun t => t.1 ≤ s.1) ∨
      t ∈ sorted.dropWhile (fun t => t.1 ≤ s.1) := by
    rw [← mem_append, takeWhile_append_dropWhile]
  rw [insertSack, mem_append, mem_cons, hsplit]
  tauto

theorem mem_foldl_insertSack {sacks sorted : List (ℤ × ℤ)} {t : ℤ × ℤ} :
    t ∈ sacks.foldl insertSack sorted ↔ t ∈ sorted ∨ t ∈ sacks := by
  induction sacks generalizing sorted with
  | nil => simp
  | cons s sacks ih =>
    rw [foldl_cons, ih, mem_insertSack, mem_cons, or_assoc]

theorem mem_sortSacks {lastAck : ℤ} {sacks : List (ℤ × ℤ)} {s : ℤ × ℤ} :
    s ∈ sortSacks lastAck sacks ↔ s ∈ sacks ∧ lastAck ≤ s.1 := by
  rw [sortSacks, mem_foldl_insertSack]
  simp

/-- The last block has the largest left edge. -/
def LastIsTop (sorted : List (ℤ × ℤ)) : Prop :=
  ∀ r ∈ sorted.getLast?, ∀ t ∈ sorted, t.1 ≤ r.1

theorem LastIsTop.insertSack {sorted : List (ℤ × ℤ)} (h : LastIsTop sorted) (s : ℤ × ℤ) :
    LastIsTop (insertSack sorted s) := by
  intro r hr t ht
  rw [mem_insertSack] at ht
  rw [ScoreBoard1.insertSack, getLast?_append] at hr
  cases hdrop : sorted.dropWhile (fun t => t.1 ≤ s.1) with
  | nil =>
    rw [hdrop] at hr
    obtain rfl : s = r := by simpa using hr
    rcases ht with ht | rfl
    · rw [dropWhile_eq_nil_iff] at hdrop
      simpa using hdrop t ht
    · exact le_rfl
  | cons u rest =>
    have hu : u ∈ sorted := (dropWhile_sublist _).subset (by rw [hdrop]; simp)
    have hlast : r ∈ sorted.getLast? := by
      rw [← takeWhile_append_dropWhile (p := fun t => t.1 ≤ s.1) (l := sorted), hdrop,
        getLast?_append]
      rw [hdrop, getLast?_cons_cons] at hr
      exact hr
    have hgt : s.1 < u.1 := by
      have hhead := head?_dropWhile_not (fun t : ℤ × ℤ => decide (t.1 ≤ s.1)) sorted
      rw [hdrop] at hhead
      simpa using hhead
    rcases ht with ht | rfl
    · exact h r hlast t ht
    · exact hgt.le.trans (h r hlast u hu)

theorem lastIsTop_sortSacks (lastAck : ℤ) (sacks : List (ℤ × ℤ)) :
    LastIsTop (sortSacks lastAck sacks) := by
  have hfold : ∀ l sorted : List (ℤ × ℤ), LastIsTop sorted → LastIsTop (l.foldl insertSack sorted) := by
    intro l
    induction l with
    | nil => exact fun sorted h => h
    | cons s l ih => exact fun sorted h => ih _ (h.insertSack s)
  exact hfold _ _ (by simp [LastIsTop])

theorem foldl_insertSack_of_eq {x : ℤ} {sacks sorted : List (ℤ × ℤ)} (hs : ∀ s ∈ sacks, s.1 = x)
    (ht : ∀ t ∈ sorted, t.1 = x) : sacks.foldl insertSack sorted = sorted ++ sacks := by
  induction sacks generalizing sorted with
  | nil => simp
  | cons s sacks ih =>
    have hx : s.1 = x := hs s (by simp)
    have hall : ∀ t ∈ sorted, decide (t.1 ≤ s.1) = true := by
      intro t hmem
      rw [ht t hmem, hx]
      simp
    have hins : insertSack sorted s = sorted ++ [s] := by
      rw [insertSack, takeWhile_eq_self_iff.mpr hall, dropWhile_eq_nil_iff.mpr hall]
    rw [foldl_cons, hins, ih (fun s' hs' => hs s' (by simp [hs']))]
    · simp
    · intro t hmem
      rcases mem_append.mp hmem with hmem | hmem
      · exact ht t hmem
      · rw [mem_singleton] at hmem
        rw [hmem, hx]

/-- A block starts above `last_ack`, or the last one that is not filtered holds more than the packet
`last_ack`. -/
def Reports (lastAck : ℤ) (sacks : List (ℤ × ℤ)) : Prop :=
  (∃ s ∈ sacks, lastAck < s.1) ∨
    ∀ s ∈ (sacks.filter (fun s => lastAck ≤ s.1)).getLast?, lastAck + 1 < s.2

instance (lastAck : ℤ) (sacks : List (ℤ × ℤ)) : Decidable (Reports lastAck sacks) :=
  inferInstanceAs (Decidable (_ ∨ _))

theorem Reports.last {lastAck : ℤ} {sacks : List (ℤ × ℤ)} (h : Reports lastAck sacks)
    (hok : ∀ s ∈ sacks, s.1 < s.2) : ∀ s ∈ (sortSacks lastAck sacks).getLast?, lastAck + 1 < s.2 := by
  intro r hr
  have hmem := mem_sortSacks.mp (mem_of_getLast? hr)
  have hlt := hok r hmem.1
  by_cases hex : ∃ s ∈ sacks, lastAck < s.1
  · obtain ⟨s, hs, hgt⟩ := hex
    have := lastIsTop_sortSacks lastAck sacks r hr s (mem_sortSacks.mpr ⟨hs, hgt.le⟩)
    omega
  · have hlast := h.resolve_left hex
    have hall : ∀ s ∈ sacks.filter (fun s => lastAck ≤ s.1), s.1 = lastAck := by
      intro s hs
      rw [mem_filter, decide_eq_true_eq] at hs
      have hle : ¬ lastAck < s.1 := fun hgt => hex ⟨s, hs.1, hgt⟩
      omega
    rw [sortSacks, foldl_insertSack_of_eq hall (by simp), nil_append] at hr
    exact hlast r hr

/-- `fack_` after the blocks, which are sorted. -/
def advance (fack : ℤ) (sacks : List (ℤ × ℤ)) : ℤ :=
  if fack < sacks.getLast?.elim (fack + 1) (·.2) - 1 then
    sacks.getLast?.elim (fack + 1) (·.2) - 1
  else fack

theorem Tiles.last (h : Tiles lo l hi) (hne : l ≠ []) (x : ℤ) :
    l.getLast?.elim x getEnd = hi - 1 := by
  rw [getLast?_eq_some_getLast hne, Option.elim_some]
  rw [← dropLast_append_getLast hne] at h
  have := h.end_of_last
  omega

/-- The nodes that the traversal starts with: those of the board, or a new one. -/
def opening (b : ScoreBoard1) (lastAck fack : ℤ) : List ScoreBoardNode1 :=
  if b.nodes = [] then
    [{ addr := b.fresh, flag := .inflight, seq := lastAck + 1, nxt := fack, retran := 0 }]
  else b.nodes

/-- The variables that the traversal starts with. -/
def firstPass (b : ScoreBoard1) (sacks : List (ℤ × ℤ)) (flag : ℕ) (thorough : Bool) : Pass :=
  { ackedRtxId := b.ackedRtxId, fackOut := b.fackOut, sackOut := b.sackOut, nxtToRetrx := none,
    fresh := b.fresh + 1, flag,
    thorough := thorough || decide (b.fack < sacks.getLast?.elim (b.fack + 1) (·.2) - 1), sacks }

theorem Board.opening {lastAck fack : ℤ} {sacks : List (ℤ × ℤ)} {flag : ℕ} {thorough : Bool}
    (h : Board b (lastAck + 1) hi) (hnew : b.nodes = [] → lastAck + 1 ≤ fack) :
    b.opening lastAck fack ≠ [] ∧ ∃ hi₁,
      Midway (lastAck + 1) (lastAck + 1) hi₁ [] none (b.opening lastAck fack)
        (b.firstPass sacks flag thorough) ∧
      max hi₁ (fack + 1) ≤ max hi (fack + 1) ∧ (b.nodes ≠ [] → hi₁ = hi) := by
  unfold ScoreBoard1.opening
  split
  case isTrue hnil =>
    refine ⟨by simp, fack + 1, ⟨rfl, ⟨rfl, hnew hnil, rfl⟩, ?_, ?_, ⟨by simp, ?_⟩, by simp [firstPass],
      by simp⟩, ?_, fun hne => absurd hnil hne⟩
    · simpa [firstPass, hnil] using h.sackOut
    · simpa [firstPass, hnil] using h.fackOut
    · simp [firstPass]
    · rw [max_self]
      exact le_max_right _ _
  case isFalse hne =>
    exact ⟨hne, hi, ⟨rfl, h.tiles, by simpa [firstPass] using h.sackOut,
      by simpa [firstPass] using h.fackOut, h.distinct.mono (Nat.le_succ _), by simp [firstPass],
      by simp⟩, le_rfl, fun _ => rfl⟩

theorem process_eq (b : ScoreBoard1) (lastAck dupackThreshold : ℤ) (sacks : List (ℤ × ℤ)) (flag : ℕ)
    (thorough : Bool) :
    b.process lastAck dupackThreshold sacks flag thorough =
      (traverse (advance b.fack sacks) dupackThreshold
        (max (advance b.fack sacks) ((b.opening lastAck (advance b.fack sacks)).getLast?.elim
          (advance b.fack sacks) getEnd) - lastAck + 2).toNat [] none
        (b.opening lastAck (advance b.fack sacks)) (b.firstPass sacks flag thorough)).map (fun r =>
      ({ b with
          nodes := r.1, nxtToRetrx := r.2.nxtToRetrx, ackedRtxId := r.2.ackedRtxId,
          fack := advance b.fack sacks, fackOut := r.2.fackOut, sackOut := r.2.sackOut,
          fresh := r.2.fresh }, r.2.flag)) := rfl

/-- **The processing of the blocks.** A new board must not be empty. -/
theorem process_spec {lastAck : ℤ} {sacks : List (ℤ × ℤ)} (h : Board b (lastAck + 1) hi)
    (hnew : b.nodes = [] → lastAck + 1 ≤ advance b.fack sacks) (dupackThreshold : ℤ) (flag : ℕ)
    (thorough : Bool) :
    ∃ b' flag' hi', b.process lastAck dupackThreshold sacks flag thorough = some (b', flag') ∧
      Board b' (lastAck + 1) hi' ∧ b'.fack = advance b.fack sacks ∧ (b.nodes ≠ [] → hi ≤ hi') ∧
      hi' ≤ max hi (advance b.fack sacks + 1) := by
  rw [process_eq]
  obtain ⟨hne, hi₁, hopen, hmax, hsame⟩ := @Board.opening _ _ _ _ sacks flag thorough h hnew
  rw [hopen.right.last hne]
  obtain ⟨l, p', hi', heq, hm, hge, hle⟩ := @traverse_spec (lastAck + 1) hi₁ (lastAck + 1) _
    (advance b.fack sacks) dupackThreshold
    (max (advance b.fack sacks) (hi₁ - 1) - lastAck + 2).toNat _ _ _ hopen (by omega)
  rw [heq]
  refine ⟨_, _, hi', rfl, ⟨?_, ?_, ?_, ?_, ?_⟩, rfl, fun hne => hsame hne ▸ hge, hle.trans hmax⟩
  · simpa using hm.left
  · simpa using hm.sackOut
  · simpa using hm.fackOut
  · simpa using hm.distinct
  · simpa using hm.pointer

/-! ## `MarkLoss` -/

theorem loseNode_spec {lastLost : Bool} (hn : n.seq ≤ n.getEnd)
    (hlast : lastLost = true → p.nxtToRetrx ≠ none) :
    Visited p n (p.loseNode lastLost n).1 (p.loseNode lastLost n).2 [] ∧
      Points p (p.loseNode lastLost n).1 n (p.loseNode lastLost n).2 ∧
      (p.loseNode lastLost n).1.sackOut = p.sackOut ∧
      (p.loseNode lastLost n).2.flag = if n.flag = .sacked then .sacked else .lost := by
  unfold Pass.loseNode
  split
  case isTrue hs =>
    refine ⟨Visited.refl hn rfl rfl rfl, ?_, rfl, hs⟩
    rw [Points, if_neg (by simp [hs])]
  case isFalse hs =>
    have hlen : (n.setFlag .lost).getLength = n.getLength := getLength_setFlag (by simp)
    have hflag : (n.setFlag .lost).flag = .lost := rfl
    have hlen' := getLength_eq n
    refine ⟨⟨⟨rfl, hn, rfl⟩, rfl, ?_, ?_, le_rfl, nodup_nil,
      by simp⟩, ?_, rfl, rfl⟩
    · simp [hflag, hs]
    · simp only [count_cons]
      split <;> omega
    · cases lastLost with
      | false => rfl
      | true =>
        show p.nxtToRetrx = _
        rw [Option.or_of_isSome (Option.isSome_iff_ne_none.mpr (hlast rfl))]

/-- One iteration of `MarkLoss`: the node, merged with the previous one when both are lost. -/
theorem Midway.loseNode {done rest : List ScoreBoardNode1} {prev : Option ScoreBoardNode1}
    {lastLost : Bool} (h : Midway lo mid hi done prev (now :: rest) p)
    (hlast : lastLost = true → ∃ q, prev = some q ∧ q.flag = .lost)
    {a : List ScoreBoardNode1 × ScoreBoardNode1}
    (ha : attach (lastLost && decide (now.flag ≠ .sacked)) done prev (p.loseNode lastLost now).2 = a) :
    Midway lo (a.2.getEnd + 1) hi a.1 (some a.2) rest (p.loseNode lastLost now).1 ∧
      (p.loseNode lastLost now).1.sackOut = p.sackOut ∧
      Points p (p.loseNode lastLost now).1 now (p.loseNode lastLost now).2 ∧
      Visited p now (p.loseNode lastLost now).1 (p.loseNode lastLost now).2 [] ∧
      ((lastLost && decide (now.flag ≠ .sacked)) = true → ∀ q ∈ prev,
        q.flag = (p.loseNode lastLost now).2.flag ∧
          (p.loseNode lastLost now).2.flag ≠ .retransmitted) ∧
      (decide (now.flag ≠ .sacked) = true → ∃ q, some a.2 = some q ∧ q.flag = .lost) := by
  have hptr : lastLost = true → p.nxtToRetrx ≠ none := by
    intro hl
    obtain ⟨q, hq, hflag⟩ := hlast hl
    exact h.lost q hq hflag
  obtain ⟨hv, hpt, hsack, hflag⟩ := loseNode_spec h.right.2.1 hptr
  generalize p.loseNode lastLost now = v at hv hpt hsack hflag ha ⊢
  have hmerge : (lastLost && decide (now.flag ≠ .sacked)) = true →
      ∀ q ∈ prev, q.flag = v.2.flag ∧ v.2.flag ≠ .retransmitted := by
    intro hand q hq
    rw [Bool.and_eq_true, decide_eq_true_eq] at hand
    obtain ⟨q', hq', hl⟩ := hlast hand.1
    rw [hq', Option.mem_some] at hq
    subst hq
    rw [hflag, if_neg hand.2]
    exact ⟨hl, by simp⟩
  obtain ⟨h', -⟩ := h.visit hv hpt hmerge
  obtain ⟨-, haend, haflag, -⟩ := attach_spec h.left (hv.tiles.1.trans h.right.1) hv.tiles.2.1 hmerge
  rw [ha] at h' haend haflag
  refine ⟨by rw [haend]; exact h', hsack, hpt, hv, hmerge, fun hd => ⟨a.2, rfl, ?_⟩⟩
  rw [decide_eq_true_eq] at hd
  rw [haflag, hflag, if_neg hd]

/-- By induction on the nodes that are left. -/
theorem markLossLoop_spec {sndNxt : ℤ} {fuel : ℕ} {done rest : List ScoreBoardNode1}
    {prev : Option ScoreBoardNode1} {lastLost : Bool} (h : Midway lo mid hi done prev rest p)
    (hlast : lastLost = true → ∃ q, prev = some q ∧ q.flag = .lost)
    (hfuel : rest.length + (if hi < sndNxt then 1 else 0) < fuel) :
    ∃ l p' hi', markLossLoop sndNxt fuel done prev lastLost rest p = some (l, p') ∧
      Midway lo hi' hi' l none [] p' ∧ p'.sackOut = p.sackOut ∧ hi ≤ hi' ∧ hi' ≤ max hi sndNxt := by
  induction fuel generalizing mid hi done rest prev lastLost p with
  | zero => omega
  | succ fuel ih =>
    cases rest with
    | nil =>
      obtain rfl : mid = hi := h.right
      refine ⟨done ++ prev.toList, p, mid, rfl, ⟨?_, rfl, ?_, ?_, ?_, ?_, by simp⟩, rfl, le_rfl,
        le_max_left _ _⟩
      · simpa using h.left
      · simpa using h.sackOut
      · simpa using h.fackOut
      · simpa using h.distinct
      · simpa using h.pointer
    | cons now rest =>
      rw [markLossLoop]
      obtain ⟨h', hsack, -, -, -, hlast'⟩ := h.loseNode hlast rfl
      generalize p.loseNode lastLost now = v at h' hsack hlast' ⊢
      generalize attach (lastLost && decide (now.flag ≠ .sacked)) done prev v.2 = a
        at h' hlast' ⊢
      rw [length_cons] at hfuel
      split
      case isTrue hext =>
        rw [hext.1] at h' hfuel
        have hhi : a.2.getEnd + 1 = hi := h'.right
        rw [length_nil, if_pos (by omega)] at hfuel
        have hm := h'.extend (show a.2.getEnd < sndNxt - 1 by omega)
        obtain ⟨l, p', hi', heq, hm', hs', hge, hle⟩ := ih hm hlast'
          (by rw [if_neg (by omega), length_singleton]; omega)
        refine ⟨l, p', hi', heq, hm', hs'.trans hsack, by omega, hle.trans ?_⟩
        omega
      case isFalse =>
        obtain ⟨l, p', hi', heq, hm', hs', hge, hle⟩ := ih h' hlast' (by omega)
        exact ⟨l, p', hi', heq, hm', hs'.trans hsack, hge, hle⟩

theorem Board.beginLoss (h : Board b lo hi) :
    Midway lo lo hi [] none b.nodes
      { ackedRtxId := b.ackedRtxId, fackOut := b.fackOut, sackOut := b.sackOut, nxtToRetrx := none,
        fresh := b.fresh, flag := 0, thorough := false, sacks := [] } :=
  ⟨rfl, h.tiles, by simpa using h.sackOut, by simpa using h.fackOut, by simpa using h.distinct, by simp,
    by simp⟩

theorem markLoss_spec {sndNxt : ℤ} (h : Board b lo hi) (hhi : hi ≤ sndNxt) :
    ∃ b' hi', b.markLoss lo sndNxt = some b' ∧ Board b' lo hi' ∧ hi ≤ hi' ∧ hi' ≤ sndNxt ∧
      b'.fack = b.fack := by
  obtain ⟨l, p', hi', heq, hm, hs, hge, hle⟩ := @markLossLoop_spec lo hi lo _
    sndNxt (b.nodes.length + 2) [] b.nodes none false h.beginLoss (by simp) (by split <;> omega)
  have hleft := hm.left
  have hsack := hm.sackOut
  have hfack := hm.fackOut
  have hdist := hm.distinct
  have hptr := hm.pointer
  simp only [Option.toList_none, append_nil, count_nil, add_zero] at hleft hsack hfack hdist hptr
  rw [hs] at hsack
  rw [markLoss, heq, Option.map_some]
  split
  case isTrue hempty =>
    obtain ⟨rfl, hlt⟩ := hempty
    refine ⟨_, sndNxt, rfl, ⟨⟨rfl, ?_, ?_⟩, ?_, ?_, ⟨by simp, by simp⟩, by simp⟩, hhi, le_rfl,
      rfl⟩
    · show lo ≤ sndNxt - 1
      omega
    · show sndNxt - 1 + 1 = sndNxt
      omega
    · simpa using hsack
    · rw [hfack, count_cons, count_nil, if_pos rfl, getLength, if_neg (by simp)]
      show 0 + (sndNxt - lo) = sndNxt - 1 + 1 - lo + 0
      omega
  case isFalse =>
    exact ⟨_, hi', rfl, ⟨hleft, hsack, hfack, hdist, hptr⟩, hge, hle.trans (max_le hhi le_rfl), rfl⟩

/-! ## Retransmissions -/

theorem find_spec {a : ℕ} (ha : a ∈ l.map ScoreBoardNode1.addr) :
    ∃ pre n post, find a l = some (pre, n, post) ∧ l = pre ++ n :: post ∧ n.addr = a := by
  induction l with
  | nil => simp at ha
  | cons m l ih =>
    rw [find]
    split
    case isTrue heq => exact ⟨[], m, l, rfl, rfl, heq⟩
    case isFalse hne =>
      rw [map_cons, mem_cons] at ha
      obtain ⟨pre, n, post, hfind, hl, hn⟩ := ih (ha.resolve_left (fun h => hne h.symm))
      exact ⟨m :: pre, n, post, by rw [hfind]; rfl, by rw [hl]; rfl, hn⟩

theorem find_of_mem (hnodup : (l.map ScoreBoardNode1.addr).Nodup) (hn : n ∈ l) :
    ∃ pre post, find n.addr l = some (pre, n, post) ∧ l = pre ++ n :: post := by
  obtain ⟨pre, m, post, hfind, hl, hm⟩ := find_spec (mem_map_of_mem hn)
  have hmem : m ∈ l := by
    rw [hl]
    simp
  obtain rfl : m = n := inj_on_of_nodup_map hnodup hmem hn hm
  exact ⟨pre, post, hfind, hl⟩

/-- What is proposed is lost, and on the board. -/
theorem getNextRetran_spec (h : Board b lo hi) :
    ∃ b' seqno, b.getNextRetran = some (b', seqno) ∧ Board b' lo hi ∧ b'.fack = b.fack ∧
      (seqno = -1 ∨ ∃ n ∈ b'.nodes, n.flag = .lost ∧ b'.nxtToRetrx = some n.addr ∧
        seqno = n.seq) := by
  rw [getNextRetran]
  cases hptr : b.nxtToRetrx with
  | none => exact ⟨b, -1, rfl, h, rfl, Or.inl rfl⟩
  | some a =>
    obtain ⟨pre, n, post, hfind, hl, -⟩ := find_spec (h.pointer a hptr)
    simp only [hfind, Option.map_some]
    cases hlost : (n :: post).find? (fun n => n.flag = .lost) with
    | none =>
      exact ⟨_, _, rfl, ⟨h.tiles, h.sackOut, h.fackOut, h.distinct, by simp⟩, rfl, Or.inl rfl⟩
    | some m =>
      have hmem : m ∈ b.nodes := by
        rw [hl]
        exact mem_append_right _ (mem_of_find?_eq_some hlost)
      have hflag : m.flag = .lost := by simpa using find?_some hlost
      refine ⟨_, _, rfl, ⟨h.tiles, h.sackOut, h.fackOut, h.distinct, fun a' ha' => ?_⟩, rfl,
        Or.inr ⟨m, hmem, hflag, rfl, rfl⟩⟩
      obtain rfl : m.addr = a' := by simpa using ha'
      exact mem_map_of_mem hmem

theorem nodeMarkRetran_spec (hn : n.seq ≤ n.getEnd) (hflag : n.flag = .lost) (sndNxt retransId : ℤ)
    (addr : ℕ) :
    Tiles n.seq (n.markRetran sndNxt retransId addr) (n.getEnd + 1) ∧
      count .sacked (n.markRetran sndNxt retransId addr) = count .sacked [n] ∧
      count .lost (n.markRetran sndNxt retransId addr) + 1 = count .lost [n] ∧
      ∃ m t, n.markRetran sndNxt retransId addr = m :: t ∧ m.addr = n.addr ∧
        (t = [] ∨ ∃ m', t = [m'] ∧ m'.addr = addr) := by
  have hr : n.flag ≠ .retransmitted := by simp [hflag]
  have hend : n.getEnd = n.nxt := if_neg hr
  have hlen : n.getLength = n.nxt + 1 - n.seq := if_neg hr
  unfold ScoreBoardNode1.markRetran
  split
  case isTrue hlt =>
    refine ⟨⟨rfl, le_rfl, rfl, ?_, ?_⟩, ?_, ?_, _, _, rfl, rfl, Or.inr ⟨_, rfl, rfl⟩⟩
    · simpa [getEnd, split, hflag] using hlt
    · simp [getEnd, split, hflag, Tiles]
    · simp [split, hflag]
    · simp [split, hflag, getLength]
      omega
  case isFalse hge =>
    refine ⟨⟨rfl, le_rfl, ?_⟩, ?_, ?_, _, _, rfl, rfl, Or.inl rfl⟩
    · simp only [getEnd, if_true, Tiles]
      omega
    · simp [hflag]
    · simp [hflag]
      omega

/-- **`MarkRetran`** of the packet that `nxt_to_retrx_` recommends. -/
theorem markRetran_spec (h : Board b lo hi) (hn : n ∈ b.nodes) (hflag : n.flag = .lost)
    (hptr : b.nxtToRetrx = some n.addr) (sndNxt : ℤ) :
    ∃ b', b.markRetran n.seq sndNxt = some b' ∧ Board b' lo hi ∧ b'.fack = b.fack := by
  obtain ⟨pre, post, hfind, hl⟩ := find_of_mem h.distinct.nodup hn
  have ht := h.tiles
  have hs := h.sackOut
  have hf := h.fackOut
  have hd := h.distinct
  have hp := h.pointer
  rw [hl] at ht hs hf hd hp
  obtain ⟨mid, hpre, hseq, hle, hpost⟩ := tiles_append.mp ht
  have hcf : count .lost [n] = n.getLength := by simp [hflag]
  have hlen := getLength_eq n
  have h1 : 0 ≤ count .lost pre := hpre.count_nonneg
  have h2 : 0 ≤ count .lost post := hpost.count_nonneg
  rw [← singleton_append, count_append, count_append] at hs hf
  have hinside : n.inside n.seq = true := by
    have hend : n.getEnd = n.nxt := if_neg (by simp [hflag])
    rw [hend] at hle
    simp [inside, hle]
  obtain ⟨htiles, hsacked, hlost, m, t, hm, haddr, htail⟩ :=
    nodeMarkRetran_spec hle hflag sndNxt b.rtxId b.fresh
  have hnew : ∀ m ∈ t, m.addr = b.fresh := by
    rcases htail with rfl | ⟨m', rfl, hm'⟩
    · simp
    · simpa using hm'
  have hnodup : (t.map ScoreBoardNode1.addr).Nodup := by
    rcases htail with rfl | ⟨m', rfl, -⟩ <;> simp
  rw [markRetran, hptr, Option.bind_some, hfind, Option.bind_some,
    if_pos ⟨hinside, by omega⟩]
  refine ⟨_, rfl, ⟨?_, ?_, ?_, ?_, fun a ha => ?_⟩, rfl⟩
  · exact tiles_append.mpr ⟨mid, hpre, tiles_append.mpr ⟨_, hseq ▸ htiles, hpost⟩⟩
  · rw [count_append, count_append, hsacked]
    exact hs
  · show b.fackOut - 1 = count .lost (pre ++ (n.markRetran sndNxt b.rtxId b.fresh ++ post))
    rw [count_append, count_append]
    omega
  · have hins : Distinct (b.fresh + 1) (pre ++ [n] ++ (t ++ post)) :=
      Distinct.insert (by simpa using hd) hnodup
        (fun m hm => by rw [hnew m hm]; exact ⟨le_rfl, Nat.lt_succ_self _⟩) (Nat.le_succ _)
    refine hins.of_sublist ?_
    rw [hm]
    simp [haddr]
  · have hmem := hp a (hptr.trans ha)
    rw [hm]
    simp only [map_append, map_cons, mem_append, mem_cons, haddr] at hmem ⊢
    tauto

/-! ## Runs of the sender -/

/-- What the sender knows: `highest_ack_`, `t_seqno_` and the scoreboard. -/
structure Sender where
  lastAck : ℤ
  sndNxt : ℤ
  scb : ScoreBoard1

/-- The calls of the sender; `send` is `count` new packets. -/
inductive Op where
  | send (count : ℕ)
  | update (lastAck : ℤ) (sacks : List (ℤ × ℤ)) (dupackThreshold : ℤ)
  | markLoss
  | retransmit

/-- `GetNextRetran`, and `MarkRetran` of the packet that it returns. -/
def retransmit (b : ScoreBoard1) (sndNxt : ℤ) : Option ScoreBoard1 :=
  b.getNextRetran.bind (fun r =>
    if r.2 = -1 then some r.1 else r.1.markRetran r.2 sndNxt)

def step (s : Sender) : Op → Option (Sender × Unit)
  | .send count => some ({ s with sndNxt := s.sndNxt + count }, ())
  | .update lastAck sacks dupackThreshold =>
    (s.scb.updateScoreBoard lastAck sacks dupackThreshold).map
      (fun r => ({ s with lastAck, scb := r.1 }, ()))
  | .markLoss =>
    (s.scb.markLoss (s.lastAck + 1) s.sndNxt).map (fun b => ({ s with scb := b }, ()))
  | .retransmit => (s.scb.retransmit s.sndNxt).map (fun b => ({ s with scb := b }, ()))

def start : Sender := { lastAck := -1, sndNxt := 0, scb := init }

/-- What the sender is promised: the cumulative ACK does not decrease, and the ACK and its blocks
are within the data sent. -/
def Allowed (s : Sender) : Op → Prop
  | .update lastAck sacks _ => s.lastAck ≤ lastAck ∧ lastAck < s.sndNxt ∧
      ∀ t ∈ sacks, 0 ≤ t.1 ∧ t.1 < t.2 ∧ t.2 ≤ s.sndNxt
  | _ => True

/-- When `last_ack` passes all nodes of the board, the blocks report more than the packet
`last_ack` itself. -/
def Renews (s : Sender) : Op → Prop
  | .update lastAck sacks _ =>
    (∀ n ∈ s.scb.nodes, n.getEnd ≤ lastAck) → Reports lastAck sacks
  | _ => True

instance (s : Sender) : ∀ op : Op, Decidable (Allowed s op)
  | .send _ => isTrue trivial
  | .update lastAck sacks _ => inferInstanceAs (Decidable (s.lastAck ≤ lastAck ∧
      lastAck < s.sndNxt ∧ ∀ t ∈ sacks, 0 ≤ t.1 ∧ t.1 < t.2 ∧ t.2 ≤ s.sndNxt))
  | .markLoss => isTrue trivial
  | .retransmit => isTrue trivial

instance (s : Sender) : ∀ op : Op, Decidable (Renews s op)
  | .send _ => isTrue trivial
  | .update lastAck sacks _ =>
    inferInstanceAs (Decidable ((∀ n ∈ s.scb.nodes, n.getEnd ≤ lastAck) → Reports lastAck sacks))
  | .markLoss => isTrue trivial
  | .retransmit => isTrue trivial

structure Accounted (s : Sender) : Prop where
  ge : -1 ≤ s.lastAck
  le : s.lastAck + 1 ≤ s.sndNxt
  fack : s.scb.fack + 1 ≤ s.sndNxt ∨ s.scb.fack = 0
  board : ∃ hi, Board s.scb (s.lastAck + 1) hi ∧ hi ≤ s.sndNxt

theorem Tiles.getEnd_lt (h : Tiles lo l hi) (hn : n ∈ l) : n.getEnd < hi := by
  obtain ⟨pre, post, rfl⟩ := append_of_mem hn
  obtain ⟨mid, -, -, -, hpost⟩ := tiles_append.mp h
  have := hpost.le
  omega

theorem advance_le {fack sndNxt : ℤ} {sacks : List (ℤ × ℤ)} (hfack : fack + 1 ≤ sndNxt ∨ fack = 0)
    (hone : 1 ≤ sndNxt) (hs : ∀ s ∈ sacks, s.2 ≤ sndNxt) : advance fack sacks + 1 ≤ sndNxt := by
  unfold advance
  cases hlast : sacks.getLast? with
  | none =>
    rw [Option.elim_none]
    split <;> omega
  | some s =>
    have := hs s (mem_of_getLast? hlast)
    rw [Option.elim_some]
    split <;> omega

theorem Accounted.update {s : Sender} {lastAck : ℤ} {sacks : List (ℤ × ℤ)} {dupackThreshold : ℤ}
    (h : Accounted s) (hok : Allowed s (.update lastAck sacks dupackThreshold))
    (hnew : Renews s (.update lastAck sacks dupackThreshold)) :
    ∃ b' flag, s.scb.updateScoreBoard lastAck sacks dupackThreshold = some (b', flag) ∧
      Accounted { s with lastAck, scb := b' } := by
  obtain ⟨hmono, hlt, hsacks⟩ := hok
  obtain ⟨hi, hboard, hhi⟩ := h.board
  have hge := h.ge
  obtain ⟨b₁, flag, changed, hclean, hfack, hor⟩ :=
    cleanLoop_spec hboard rfl (show s.lastAck + 1 ≤ lastAck + 1 by omega) 0 false
  have hsorted : ∀ t ∈ sortSacks lastAck sacks, t.2 ≤ s.sndNxt :=
    fun t ht => (hsacks t (mem_sortSacks.mp ht).1).2.2
  rw [updateScoreBoard, cleanRtxQueue, hclean, Option.bind_some]
  dsimp only
  rcases hor with ⟨hlo, hb₁, hne⟩ | ⟨hle, hnil⟩
  · have hkeep : Accounted { s with lastAck, scb := b₁ } :=
      ⟨by show -1 ≤ lastAck; omega, by show lastAck + 1 ≤ s.sndNxt; omega, by rw [hfack]; exact h.fack,
        hi, hb₁, hhi⟩
    rw [if_neg hne, if_neg hne]
    split
    · exact ⟨b₁, flag, rfl, hkeep⟩
    split
    · exact ⟨b₁, flag, rfl, hkeep⟩
    have hadv := advance_le h.fack (show 1 ≤ s.sndNxt by omega) hsorted
    obtain ⟨b', flag', hi', heq, hb', hf', -, hhi'⟩ := process_spec hb₁ (fun hnil => absurd hnil hne)
      dupackThreshold flag changed
    rw [hfack] at hf' hhi'
    exact ⟨b', flag', heq, hkeep.ge, hkeep.le, Or.inl (by rw [hf']; exact hadv), hi', hb',
      hhi'.trans (max_le hhi hadv)⟩
  · -- the board is empty, and a new one starts
    have hclear := board_clear b₁ (lastAck + 1)
    have hkeep : Accounted { s with lastAck, scb := b₁.clearScoreBoard } :=
      ⟨by show -1 ≤ lastAck; omega, by show lastAck + 1 ≤ s.sndNxt; omega, Or.inr rfl, lastAck + 1,
        hclear, by show lastAck + 1 ≤ s.sndNxt; omega⟩
    have hreports := hnew (fun n hn => by have := hboard.tiles.getEnd_lt hn; omega)
    rw [if_pos hnil, if_pos hnil]
    split
    · exact ⟨_, flag, rfl, hkeep⟩
    split
    · exact ⟨_, flag, rfl, hkeep⟩
    rename_i hsome
    have hne : sortSacks lastAck sacks ≠ [] := fun hnil => hsome ⟨rfl, hnil⟩
    have hlast := getLast?_eq_some_getLast hne
    have hgt := hreports.last (fun t ht => (hsacks t ht).2.1) _ hlast
    have hone : 1 ≤ s.sndNxt := by
      have := hsacks _ (mem_sortSacks.mp (mem_of_getLast? hlast)).1
      omega
    have hadv : advance b₁.clearScoreBoard.fack (sortSacks lastAck sacks) + 1 ≤ s.sndNxt :=
      advance_le (Or.inr rfl) hone hsorted
    have hstart : lastAck + 1 ≤ advance b₁.clearScoreBoard.fack (sortSacks lastAck sacks) := by
      have hfack0 : b₁.clearScoreBoard.fack = 0 := rfl
      rw [advance, hlast, Option.elim_some, hfack0]
      split <;> omega
    obtain ⟨b', flag', hi', heq, hb', hf', -, hhi'⟩ := process_spec hclear (fun _ => hstart)
      dupackThreshold flag false
    exact ⟨b', flag', heq, hkeep.ge, hkeep.le, Or.inl (by rw [hf']; exact hadv), hi', hb',
      hhi'.trans (max_le (show lastAck + 1 ≤ s.sndNxt by omega) hadv)⟩

theorem retransmit_spec (h : Board b lo hi) (sndNxt : ℤ) :
    ∃ b', b.retransmit sndNxt = some b' ∧ Board b' lo hi ∧ b'.fack = b.fack := by
  obtain ⟨b₁, seqno, hget, hb₁, hfack, hor⟩ := getNextRetran_spec h
  rw [ScoreBoard1.retransmit, hget, Option.bind_some]
  by_cases hnone : seqno = -1
  · rw [if_pos hnone]
    exact ⟨b₁, rfl, hb₁, hfack⟩
  · obtain ⟨n, hn, hflag, hptr, rfl⟩ := hor.resolve_left hnone
    obtain ⟨b', heq, hb', hfack'⟩ := markRetran_spec hb₁ hn hflag hptr sndNxt
    rw [if_neg hnone]
    exact ⟨b', heq, hb', hfack'.trans hfack⟩

theorem Accounted.retransmit {s : Sender} (h : Accounted s) :
    ∃ b', s.scb.retransmit s.sndNxt = some b' ∧ Accounted { s with scb := b' } := by
  obtain ⟨hi, hboard, hhi⟩ := h.board
  obtain ⟨b', heq, hb', hfack⟩ := retransmit_spec hboard s.sndNxt
  exact ⟨b', heq, h.ge, h.le, by rw [hfack]; exact h.fack, hi, hb', hhi⟩

/-- The step lemma: the board tiles the numbers from the cumulative ack on, up to what was sent. -/
theorem Accounted.step {s : Sender} (h : Accounted s) (op : Op) (hok : Allowed s op)
    (hnew : Renews s op) : ∃ s', ScoreBoard1.step s op = some (s', ()) ∧ Accounted s' := by
  cases op with
  | send count =>
    obtain ⟨hi, hboard, hhi⟩ := h.board
    have hle := h.le
    refine ⟨_, rfl, h.ge, ?_, ?_, hi, hboard, ?_⟩
    · show s.lastAck + 1 ≤ s.sndNxt + count
      omega
    · have hfack := h.fack
      show s.scb.fack + 1 ≤ s.sndNxt + count ∨ s.scb.fack = 0
      omega
    · show hi ≤ s.sndNxt + count
      omega
  | update lastAck sacks dupackThreshold =>
    obtain ⟨b', flag, heq, h'⟩ := h.update hok hnew
    exact ⟨_, by rw [ScoreBoard1.step, heq]; rfl, h'⟩
  | markLoss =>
    obtain ⟨hi, hboard, hhi⟩ := h.board
    obtain ⟨b', hi', heq, hb', -, hhi', hfack⟩ := markLoss_spec hboard hhi
    refine ⟨{ s with scb := b' }, by rw [ScoreBoard1.step, heq]; rfl, h.ge, h.le, ?_, hi', hb', hhi'⟩
    rw [hfack]
    exact h.fack
  | retransmit =>
    obtain ⟨b', heq, h'⟩ := h.retransmit
    exact ⟨_, by rw [ScoreBoard1.step, heq]; rfl, h'⟩

theorem board_start : Board start.scb (start.lastAck + 1) 0 :=
  ⟨rfl, rfl, rfl, ⟨nodup_nil, by simp [start, init]⟩, by simp [start, init]⟩

theorem accounted_start : Accounted start := ⟨le_rfl, le_rfl, Or.inr rfl, 0, board_start, le_rfl⟩

/-- **The accounting of the scoreboard.** No assertion fails. The nodes are consecutive blocks from
`last_ack + 1` on, none of them empty, and a retransmitted one is a single packet; `sack_out_` and
`fack_out_` are the numbers of the SACKed and of the lost packets, `nxt_to_retrx_` is `NULL` or a
node of the list, and `packets_in_flight` is not negative. -/
theorem scoreboard_accounts {ops : List Op}
    (hok : Runs.Meets step (fun s op => Allowed s op ∧ Renews s op) start ops) :
    ∃ s outs, Runs.run step start ops = some (s, outs) ∧
      (∃ hi, Tiles (s.lastAck + 1) s.scb.nodes hi ∧ hi ≤ s.sndNxt) ∧
      (∀ n ∈ s.scb.nodes, n.flag = .retransmitted → n.getLength = 1 ∧ n.getEnd = n.seq) ∧
      s.scb.sackOut = count .sacked s.scb.nodes ∧ s.scb.fackOut = count .lost s.scb.nodes ∧
      (∀ a ∈ s.scb.nxtToRetrx, ∃ n ∈ s.scb.nodes, n.addr = a) ∧
      0 ≤ s.scb.packetsInFlight (s.lastAck + 1) s.sndNxt := by
  obtain ⟨s, outs, hrun, h⟩ := @Runs.run_invariant _ _ _ step _ start ops
    (fun _ _ s => Accounted s)
    (fun _ _ s op h hop => by
      obtain ⟨s', heq, h'⟩ := h.step op hop.1 hop.2
      exact ⟨s', (), heq, h'⟩) accounted_start hok
  obtain ⟨hi, hboard, hhi⟩ := h.board
  refine ⟨s, outs, hrun, ⟨hi, hboard.tiles, hhi⟩, fun n _ hr => ⟨if_pos hr, if_pos hr⟩, hboard.sackOut,
    hboard.fackOut, fun a ha => ?_, ?_⟩
  · simpa using hboard.pointer a ha
  · have hcount := hboard.tiles.count_le
    have hs := hboard.sackOut
    have hf := hboard.fackOut
    rw [packetsInFlight]
    omega

/-- Packets are SACKed, lost, retransmitted, lost again and acknowledged. -/
def recovery : List Op :=
  [.send 20, .update 1 [(6, 8), (10, 12)] 3, .retransmit, .retransmit, .update 1 [(2, 3), (10, 15)] 3,
    .markLoss, .retransmit, .send 5, .update 7 [(9, 10), (20, 22)] 3, .retransmit, .update 24 [] 3,
    .send 1, .markLoss]

theorem scoreboard_accounts_recovery :
    Runs.Meets step (fun s op => Allowed s op ∧ Renews s op) start recovery ∧
    ∃ s outs, Runs.run step start recovery = some (s, outs) ∧
      (∃ hi, Tiles (s.lastAck + 1) s.scb.nodes hi ∧ hi ≤ s.sndNxt) ∧
      (∀ n ∈ s.scb.nodes, n.flag = .retransmitted → n.getLength = 1 ∧ n.getEnd = n.seq) ∧
      s.scb.sackOut = count .sacked s.scb.nodes ∧ s.scb.fackOut = count .lost s.scb.nodes ∧
      (∀ a ∈ s.scb.nxtToRetrx, ∃ n ∈ s.scb.nodes, n.addr = a) ∧
      0 ≤ s.scb.packetsInFlight (s.lastAck + 1) s.sndNxt :=
  have hok : Runs.Meets step (fun s op => Allowed s op ∧ Renews s op) start recovery := by
    decide +kernel
  ⟨hok, scoreboard_accounts hok⟩

/-- The D-SACK of the packet `last_ack` is not filtered; on an empty board it makes a node that is
empty, from 11 to 10. Lost and then retransmitted, that node fails the assertion of `MarkRetran`. -/
theorem dsack_makes_empty_node :
    Runs.Meets step Allowed start [.send 11, .update 10 [(10, 11)] 3] ∧
    (∃ s outs, Runs.run step start [.send 11, .update 10 [(10, 11)] 3] = some (s, outs) ∧
      ∃ n ∈ s.scb.nodes, n.seq = 11 ∧ n.getEnd = 10 ∧ n.getLength = 0) ∧
    Runs.run step start [.send 11, .update 10 [(10, 11)] 3, .markLoss, .retransmit] = none := by
  refine ⟨by decide +kernel, ?_, ?_⟩
  · obtain ⟨r, hr⟩ : ∃ r, Runs.run step start [.send 11, .update 10 [(10, 11)] 3] = some r :=
      Option.isSome_iff_exists.mp (by decide +kernel)
    have hfinal : ∀ r' ∈ Runs.run step start [.send 11, .update 10 [(10, 11)] 3],
        ∃ n ∈ r'.1.scb.nodes, n.seq = 11 ∧ n.getEnd = 10 ∧ n.getLength = 0 := by
      decide +kernel
    exact ⟨r.1, r.2, hr, hfinal r hr⟩
  · exact Option.isNone_iff_eq_none.mp (by decide +kernel)

end ScoreBoard1

end NetSim
