import Mathlib.Order.Bounds.Basic
import NetSim.Lib.Ring
import NetSim.Lib.Runs

/-! # The scoreboard of a SACK sender

`ScoreBoard` of `tcp/scoreboard.cc`: the packets from `first_` on, `length_` of them, in an array
that is indexed by the packet number modulo `sbsize_` and doubles on demand. `none` stands for the
exits of the source ("Assert SB failed", "Scoreboard got too large"), and for an `int` that overflows:
the doubled size, or an index into the array.

`Board b lo hi S M` says that the array holds the packets of `[lo, hi)` with the flags of the sets
`S` (SACKed) and `M` (marked). The abstract scoreboard `Packets` remembers the blocks that have been
reported and the packets that have been marked since the board was created; the array refines it
(`scoreboard_refines`).
-/

namespace NetSim

open List

structure ScoreBoardNode where
  seqNo : ℕ
  ackFlag : Bool
  sackFlag : Bool
  retran : Bool
  sndNxt : ℤ

structure ScoreBoard where
  first : ℕ
  length : ℕ
  sbsize : ℕ
  changed : ℕ
  sbn : ℕ → ScoreBoardNode

namespace ScoreBoard

/-- A node for the packet `i` that nothing is known of. -/
def blank (i : ℕ) : ScoreBoardNode :=
  { seqNo := i, ackFlag := false, sackFlag := false, retran := false, sndNxt := 0 }

/-- The constructor, with an array of `sz` nodes. -/
def init (sz : ℕ) : ScoreBoard :=
  { first := 0, length := 0, sbsize := sz, changed := 0, sbn := fun _ => blank 0 }

/-- `SBNI`. -/
def node (b : ScoreBoard) (i : ℕ) : ScoreBoardNode := b.sbn (i % b.sbsize)

def setNode (b : ScoreBoard) (i : ℕ) (n : ScoreBoardNode) : ScoreBoard :=
  { b with sbn := Function.update b.sbn (i % b.sbsize) n }

def firstSeq (b : ScoreBoard) : ℕ := (b.node b.first).seqNo

def lastSeq (b : ScoreBoard) : ℕ := (b.node (b.first + b.length + b.sbsize - 1)).seqNo

def ackNode (b : ScoreBoard) (i : ℕ) : ScoreBoard :=
  let n := b.node i
  let n' := { n with
    ackFlag := true, sackFlag := true, retran := false, sndNxt := if n.retran then 0 else n.sndNxt }
  { b.setNode i n' with first := b.first + 1, length := b.length - 1, changed := b.changed + 1 }

/-- The loop that advances the left edge, `n` packets from `i` on; `retranDecr` counts the
retransmissions that are acknowledged. -/
def advance (lastAck : ℤ) : ℕ → ℕ → ScoreBoard → ℕ → Option (ScoreBoard × ℕ)
  | 0, _, b, retranDecr => some (b, retranDecr)
  | n + 1, i, b, retranDecr =>
    if (b.node i).seqNo ≤ lastAck then
      if b.first = i ∧ 0 < b.length then
        let retranDecr := if (b.node i).retran then retranDecr + 1 else retranDecr
        if (b.ackNode i).length = 0 then some (b.ackNode i, retranDecr)
        else advance lastAck n (i + 1) (b.ackNode i) retranDecr
      else none
    else advance lastAck n (i + 1) b retranDecr

/-- If there is no scoreboard, create one. -/
def create (b : ScoreBoard) (lastAck : ℤ) : Option ScoreBoard :=
  let i := (lastAck + 1).toNat
  if b.sbsize ≤ b.length + 1 then none
  else some { b.setNode i (blank i) with
    first := i, length := b.length + 1, changed := b.changed + 1 }

/-- `resizeSB`. It copies one node more than the board holds. -/
def resizeSB (b : ScoreBoard) (sz : ℕ) : ScoreBoard :=
  { b with
    sbsize := sz
    sbn := Ring.write (· % sz) (fun i => b.node i) (b.length + 1) b.firstSeq (fun _ => blank 0) }

/-- The loop that resizes: `while((sack_right - last_ack) >= sbsize_ -1 )`. -/
def grow (lastAck right : ℤ) : ℕ → ScoreBoard → Option ScoreBoard
  | 0, _ => none
  | fuel + 1, b =>
    if (b.sbsize : ℤ) - 1 ≤ right - lastAck then
      if 2 ^ 31 ≤ b.sbsize * 2 then none else grow lastAck right fuel (b.resizeSB (b.sbsize * 2))
    else some b

/-- Create `n` new entries from `i` on. -/
def newEntries : ℕ → ℕ → ScoreBoard → Option ScoreBoard
  | 0, _, b => some b
  | n + 1, i, b =>
    if b.sbsize ≤ b.length + 1 then none
    else newEntries n (i + 1)
      { b.setNode i (blank i) with length := b.length + 1, changed := b.changed + 1 }

/-- The index `first_+length_+sbsize_` is no `int`. -/
def IndexOverflows (b : ScoreBoard) : Prop := 2 ^ 31 ≤ b.first + b.length + b.sbsize

instance (b : ScoreBoard) : Decidable b.IndexOverflows :=
  inferInstanceAs (Decidable (2 ^ 31 ≤ b.first + b.length + b.sbsize))

/-- Create new entries off the right side. Each resizing adds to the size, so
`sack_right - last_ack + 2` of them are enough. -/
def extend (b : ScoreBoard) (lastAck right : ℤ) : Option ScoreBoard :=
  if b.IndexOverflows then none
  else if (b.lastSeq : ℤ) < right then
    (grow lastAck right ((right - lastAck).toNat + 2) b).bind (fun b =>
      if b.IndexOverflows then none
      else newEntries (right - (b.lastSeq + 1)).toNat (b.lastSeq + 1) b)
  else some b

/-- The segment `i` is covered by the block. -/
def sackNode (b : ScoreBoard) (i : ℕ) : ScoreBoard :=
  let n := b.node i
  { b.setNode i { n with sackFlag := true, retran := false } with
    changed := if n.sackFlag then b.changed else b.changed + 1 }

/-- The loop that looks for segments covered by the block, `n` of them from `i` on. -/
def sackLoop (left right : ℤ) : ℕ → ℕ → ScoreBoard → ℕ → ScoreBoard × ℕ
  | 0, _, b, retranDecr => (b, retranDecr)
  | n + 1, i, b, retranDecr =>
    if left ≤ (b.node i).seqNo ∧ ((b.node i).seqNo : ℤ) < right then
      sackLoop left right n (i + 1) (b.sackNode i)
        (if (b.node i).retran then retranDecr + 1 else retranDecr)
    else sackLoop left right n (i + 1) b retranDecr

/-- The loop over the SACK blocks. -/
def report (lastAck : ℤ) : List (ℤ × ℤ) → ScoreBoard → ℕ → Option (ScoreBoard × ℕ)
  | [], b, retranDecr => some (b, retranDecr)
  | (left, right) :: rest, b, retranDecr =>
    (b.extend lastAck right).bind (fun b =>
      let r := sackLoop left right (right - b.firstSeq).toNat b.firstSeq b retranDecr
      report lastAck rest r.1 r.2)

/-- Advance the left edge of the block. -/
def advanceLeft (b : ScoreBoard) (lastAck : ℤ) : Option (ScoreBoard × ℕ) :=
  if b.length ≠ 0 ∧ b.firstSeq ≤ lastAck then
    advance lastAck (lastAck + 1 - b.firstSeq).toNat b.firstSeq b 0
  else some (b, 0)

def updateScoreBoard (b : ScoreBoard) (lastAck : ℤ) (sacks : List (ℤ × ℤ)) :
    Option (ScoreBoard × ℕ) :=
  ({ b with changed := 0 }.advanceLeft lastAck).bind (fun r =>
    (if r.1.length = 0 ∧ sacks ≠ [] then r.1.create lastAck else some r.1).bind (fun b =>
      report lastAck sacks b r.2))

def clearScoreBoard (b : ScoreBoard) : ScoreBoard := { b with length := 0 }

def nextRetran (b : ScoreBoard) : ℕ → ℕ → ℤ
  | 0, _ => -1
  | n + 1, i =>
    if !(b.node i).ackFlag && !(b.node i).sackFlag && !(b.node i).retran then i
    else b.nextRetran n (i + 1)

def getNextRetran (b : ScoreBoard) : ℤ :=
  if b.length ≠ 0 then b.nextRetran b.length b.firstSeq else -1

/-- `MarkRetran`, in both variants. -/
def markRetran (b : ScoreBoard) (retranSeqno : ℕ) (sndNxt : Option ℤ) : ScoreBoard :=
  let n := b.node retranSeqno
  b.setNode retranSeqno { n with retran := true, sndNxt := sndNxt.getD n.sndNxt }

/-! ## The board in the array -/

/-- The array holds the packets of `[lo, hi)`, those of `S` SACKed, and the others marked if they
are in `M`. -/
structure Board (b : ScoreBoard) (lo hi : ℕ) (S M : ℕ → Prop) : Prop where
  first : b.first = lo
  stop : lo + b.length = hi
  room : b.length < b.sbsize
  seq : ∀ i, lo ≤ i → i < hi → (b.node i).seqNo = i
  ack : ∀ i, lo ≤ i → i < hi → (b.node i).ackFlag = false
  sacked : ∀ i, lo ≤ i → i < hi → ((b.node i).sackFlag = true ↔ S i)
  marked : ∀ i, lo ≤ i → i < hi → ¬ S i → ((b.node i).retran = true ↔ M i)

variable {b b' : ScoreBoard} {lo hi i n : ℕ} {S S' M M' : ℕ → Prop} {lastAck left right : ℤ}

theorem node_setNode {j : ℕ} (h : hi < lo + b.sbsize) (x : ScoreBoardNode) (hi1 : lo ≤ i)
    (hi2 : i ≤ hi) (hj1 : lo ≤ j) (hj2 : j ≤ hi) :
    (b.setNode i x).node j = if j = i then x else b.node j :=
  Ring.update_slot (Ring.injOn_mod h) b.sbn x hi1 hi2 hj1 hj2

theorem Board.firstSeq (h : Board b lo hi S M) (hlt : lo < hi) : b.firstSeq = lo := by
  rw [ScoreBoard.firstSeq, h.first, h.seq lo le_rfl hlt]

theorem Board.lastSeq (h : Board b lo hi S M) (hlt : lo < hi) : b.lastSeq = hi - 1 := by
  have hstop := h.stop
  have hslot : b.node (b.first + b.length + b.sbsize - 1) = b.node (hi - 1) := by
    rw [node, node, h.first, show lo + b.length + b.sbsize - 1 = hi - 1 + b.sbsize by omega,
      Nat.add_mod_right]
  rw [ScoreBoard.lastSeq, hslot, h.seq (hi - 1) (by omega) (by omega)]

theorem Board.setNode (h : Board b lo hi S M) (hi1 : lo ≤ i) (hi2 : i < hi) {x : ScoreBoardNode}
    (hseq : x.seqNo = i) (hack : x.ackFlag = false) (hS : ∀ j, j ≠ i → (S' j ↔ S j))
    (hM : ∀ j, j ≠ i → (M' j ↔ M j)) (hsack : x.sackFlag = true ↔ S' i)
    (hmark : ¬ S' i → (x.retran = true ↔ M' i)) : Board (b.setNode i x) lo hi S' M' := by
  have hstop := h.stop
  have hroom := h.room
  have hnode : ∀ j, lo ≤ j → j < hi → (b.setNode i x).node j = if j = i then x else b.node j :=
    fun j hj hj' => @node_setNode b lo hi i j (by omega) x hi1 hi2.le hj hj'.le
  refine ⟨h.first, h.stop, h.room, fun j hj hj' => ?_, fun j hj hj' => ?_, fun j hj hj' => ?_,
    fun j hj hj' hnot => ?_⟩
  all_goals
    rw [hnode j hj hj']
    by_cases hji : j = i
  · rw [if_pos hji, hseq, hji]
  · rw [if_neg hji, h.seq j hj hj']
  · rw [if_pos hji, hack]
  · rw [if_neg hji, h.ack j hj hj']
  · rw [if_pos hji, hji, hsack]
  · rw [if_neg hji, hS j hji, h.sacked j hj hj']
  · rw [if_pos hji, hji]
    exact hmark (hji ▸ hnot)
  · rw [if_neg hji, hM j hji]
    exact h.marked j hj hj' (fun hs => hnot ((hS j hji).mpr hs))

theorem Board.congr (h : Board b lo hi S M) (hfirst : b'.first = b.first)
    (hlength : b'.length = b.length) (hsize : b'.sbsize = b.sbsize) (hsbn : b'.sbn = b.sbn) :
    Board b' lo hi S M := by
  have hnode : ∀ i, b'.node i = b.node i := fun i => by rw [node, node, hsbn, hsize]
  refine ⟨hfirst.trans h.first, ?_, ?_, ?_, ?_, ?_, ?_⟩
  · rw [hlength]
    exact h.stop
  · rw [hlength, hsize]
    exact h.room
  all_goals simp only [hnode]
  · exact h.seq
  · exact h.ack
  · exact h.sacked
  · exact h.marked

theorem Board.iff (h : Board b lo hi S M) (hS : ∀ j, lo ≤ j → j < hi → (S' j ↔ S j))
    (hM : ∀ j, lo ≤ j → j < hi → (M' j ↔ M j)) : Board b lo hi S' M' := by
  refine ⟨h.first, h.stop, h.room, h.seq, h.ack, fun j hj hj' => ?_, fun j hj hj' hnot => ?_⟩
  · rw [hS j hj hj']
    exact h.sacked j hj hj'
  · rw [hM j hj hj']
    exact h.marked j hj hj' (fun hs => hnot ((hS j hj hj').mpr hs))

/-! ## The left edge -/

theorem Board.ackNode (h : Board b lo hi S M) (hlt : lo < hi) :
    Board (b.ackNode lo) (lo + 1) hi S M := by
  have hstop := h.stop
  have hroom := h.room
  have hnode : ∀ j, lo + 1 ≤ j → j < hi → (b.ackNode lo).node j = b.node j := by
    intro j hj hj'
    refine (@node_setNode b lo hi lo j (by omega) _ le_rfl hlt.le (by omega) hj'.le).trans ?_
    rw [if_neg (by omega)]
  refine ⟨?_, ?_, ?_, fun j hj hj' => ?_, fun j hj hj' => ?_, fun j hj hj' => ?_,
    fun j hj hj' => ?_⟩
  · show b.first + 1 = lo + 1
    rw [h.first]
  · show lo + 1 + (b.length - 1) = hi
    omega
  · show b.length - 1 < b.sbsize
    omega
  all_goals rw [hnode j hj hj']
  · exact h.seq j (by omega) hj'
  · exact h.ack j (by omega) hj'
  · exact h.sacked j (by omega) hj'
  · exact h.marked j (by omega) hj'

/-- The loop stops at `last_ack + 1` or at the end of the board, and no assertion fails. -/
theorem advance_spec (h : Board b lo hi S M) (hlt : n = 0 ∨ lo < hi) (hn : (lo : ℤ) + n = lastAck + 1)
    (retranDecr : ℕ) :
    ∃ b' r, advance lastAck n lo b retranDecr = some (b', r) ∧ b'.sbsize = b.sbsize ∧
      Board b' (min (lo + n) hi) hi S M := by
  induction n generalizing b lo retranDecr with
  | zero =>
    have hle : lo ≤ hi := by have := h.stop; omega
    refine ⟨b, retranDecr, rfl, rfl, ?_⟩
    rw [Nat.add_zero, min_eq_left hle]
    exact h
  | succ n ih =>
    have hlo : lo < hi := by omega
    have hstop := h.stop
    have hack := h.ackNode hlo
    have hlen : (b.ackNode lo).length = b.length - 1 := rfl
    rw [advance, h.seq lo le_rfl hlo, if_pos (by omega), if_pos ⟨h.first, by omega⟩]
    dsimp only
    split
    case isTrue hend =>
      refine ⟨_, _, rfl, rfl, ?_⟩
      rw [show min (lo + (n + 1)) hi = lo + 1 by omega]
      exact hack
    case isFalse hmore =>
      obtain ⟨b', r, heq, hsize, h'⟩ := @ih (b.ackNode lo) (lo + 1) hack (Or.inr (by omega))
        (by omega) (if (b.node lo).retran then retranDecr + 1 else retranDecr)
      refine ⟨b', r, heq, hsize, ?_⟩
      rw [show lo + (n + 1) = lo + 1 + n by omega]
      exact h'

/-- The left edge goes to the new cumulative acknowledgment, or to the end of the board. -/
theorem advanceLeft_spec (h : Board b lo hi S M) (hlt : lo < hi) (hle : (lo : ℤ) ≤ lastAck + 1) :
    ∃ b' r, b.advanceLeft lastAck = some (b', r) ∧ b'.sbsize = b.sbsize ∧
      Board b' (min (lastAck + 1).toNat hi) hi S M := by
  have hstop := h.stop
  rw [advanceLeft, h.firstSeq hlt]
  split
  case isTrue hcond =>
    obtain ⟨b', r, heq, hsize, h'⟩ := @advance_spec b lo hi (lastAck + 1 - lo).toNat S M lastAck h
      (Or.inr hlt) (by omega) 0
    refine ⟨b', r, heq, hsize, ?_⟩
    rw [show (lastAck + 1).toNat = lo + (lastAck + 1 - lo).toNat by omega]
    exact h'
  case isFalse hcond =>
    refine ⟨b, 0, rfl, rfl, ?_⟩
    rw [show min (lastAck + 1).toNat hi = lo by omega]
    exact h

theorem create_spec (hlen : b.length = 0) (hsize : 2 ≤ b.sbsize) :
    ∃ b', b.create lastAck = some b' ∧ b'.sbsize = b.sbsize ∧
      Board b' (lastAck + 1).toNat ((lastAck + 1).toNat + 1) (fun _ => False) (fun _ => False) := by
  rw [create]
  rw [if_neg (by omega)]
  have hnode : ∀ j, (lastAck + 1).toNat ≤ j → j < (lastAck + 1).toNat + 1 →
      (b.setNode (lastAck + 1).toNat (blank (lastAck + 1).toNat)).node j = blank j := by
    intro j hj hj'
    obtain rfl : j = (lastAck + 1).toNat := by omega
    exact Function.update_self ..
  refine ⟨_, rfl, rfl, rfl, ?_, ?_, fun j hj hj' => ?_, fun j hj hj' => ?_, fun j hj hj' => ?_,
    fun j hj hj' _ => ?_⟩
  · show (lastAck + 1).toNat + (b.length + 1) = _
    omega
  · show b.length + 1 < b.sbsize
    omega
  · exact congrArg ScoreBoardNode.seqNo (hnode j hj hj')
  · exact congrArg ScoreBoardNode.ackFlag (hnode j hj hj')
  · have := congrArg ScoreBoardNode.sackFlag (hnode j hj hj')
    simp only [iff_false, Bool.not_eq_true]
    exact this
  · have := congrArg ScoreBoardNode.retran (hnode j hj hj')
    simp only [iff_false, Bool.not_eq_true]
    exact this

/-! ## The right side -/

theorem Board.resizeSB (h : Board b lo hi S M) (hlt : lo < hi) {sz : ℕ} (hsz : b.sbsize ≤ sz) :
    Board (b.resizeSB sz) lo hi S M := by
  have hstop := h.stop
  have hroom := h.room
  have hnode : ∀ j, lo ≤ j → j < hi → (b.resizeSB sz).node j = b.node j := by
    intro j hj hj'
    have hcopy := Ring.write_slot (i := lo) (n := b.length + 1) (j := j)
      (Ring.injOn_mod (show lo + b.length < lo + sz by omega)) (fun i => b.node i)
      (fun _ => blank 0) le_rfl (by omega) hj (by omega)
    rw [if_pos (by omega)] at hcopy
    rw [node, ScoreBoard.resizeSB, h.firstSeq hlt]
    exact hcopy
  refine ⟨h.first, h.stop, ?_, fun j hj hj' => ?_, fun j hj hj' => ?_, fun j hj hj' => ?_,
    fun j hj hj' => ?_⟩
  · show b.length < sz
    omega
  all_goals rw [hnode j hj hj']
  · exact h.seq j hj hj'
  · exact h.ack j hj hj'
  · exact h.sacked j hj hj'
  · exact h.marked j hj hj'

/-- The sizes that the array can have. -/
def Sized (sz : ℕ) : Prop := ∃ k, 1 ≤ k ∧ k ≤ 30 ∧ sz = 2 ^ k

theorem Sized.bounds {sz : ℕ} (h : Sized sz) : 2 ≤ sz ∧ sz ≤ 2 ^ 30 := by
  obtain ⟨k, hk1, hk, rfl⟩ := h
  exact ⟨Nat.pow_le_pow_right (n := 2) (by omega) hk1, Nat.pow_le_pow_right (by omega) hk⟩

theorem Sized.double {sz : ℕ} (h : Sized sz) (hlt : sz < 2 ^ 30) : Sized (sz * 2) := by
  obtain ⟨k, hk1, hk, rfl⟩ := h
  have hk' : k < 30 := (Nat.pow_lt_pow_iff_right (by omega)).mp hlt
  exact ⟨k + 1, by omega, by omega, (pow_succ 2 k).symm⟩

/-- **The array grows until it holds the block**, within the `int`s if the jump allows it. -/
theorem grow_spec (h : Board b lo hi S M) (hlt : lo < hi) (hsize : Sized b.sbsize)
    (hjump : right - lastAck < 2 ^ 30 - 1) {fuel : ℕ} (hpos : 0 < fuel)
    (hfuel : right - lastAck + 2 < b.sbsize + fuel) :
    ∃ b', grow lastAck right fuel b = some b' ∧ Board b' lo hi S M ∧ Sized b'.sbsize ∧
      right - lastAck < b'.sbsize - 1 := by
  induction fuel generalizing b with
  | zero => omega
  | succ fuel ih =>
    rw [grow]
    split
    case isTrue hsmall =>
      have hroom := h.room
      have hsz : b.sbsize < 2 ^ 30 := by
        omega
      have hnew : (b.resizeSB (b.sbsize * 2)).sbsize = b.sbsize * 2 := rfl
      rw [if_neg (by omega)]
      exact ih (h.resizeSB hlt (show b.sbsize ≤ b.sbsize * 2 by omega)) (hsize.double hsz) (by omega)
        (by omega)
    case isFalse hlarge => exact ⟨b, rfl, h, hsize, by omega⟩

/-- **The size overflows** when the block is too far ahead of `last_ack`. -/
theorem grow_none (hsize : Sized b.sbsize) (hjump : 2 ^ 30 - 1 ≤ right - lastAck) (fuel : ℕ) :
    grow lastAck right fuel b = none := by
  induction fuel generalizing b with
  | zero => rfl
  | succ fuel ih =>
    have hle := hsize.bounds.2
    rw [grow, if_pos (by omega)]
    split
    · rfl
    · exact ih (show Sized (b.sbsize * 2) from hsize.double (by omega))

theorem newEntries_spec (h : Board b lo hi S M) (hroom : b.length + n < b.sbsize)
    (hS : ∀ j, hi ≤ j → j < hi + n → ¬ S j) (hM : ∀ j, hi ≤ j → j < hi + n → ¬ M j) :
    ∃ b', newEntries n hi b = some b' ∧ b'.sbsize = b.sbsize ∧ Board b' lo (hi + n) S M := by
  induction n generalizing b hi with
  | zero => exact ⟨b, rfl, rfl, h⟩
  | succ n ih =>
    have hstop := h.stop
    rw [newEntries, if_neg (by omega)]
    -- the new node is outside the window so far, which is shorter than the array
    have hnode : ∀ j, lo ≤ j → j < hi + 1 →
        (b.setNode hi (blank hi)).node j = if j = hi then blank hi else b.node j :=
      fun j hj hj' => @node_setNode b lo hi hi j (by omega) _ (by omega) le_rfl hj (by omega)
    obtain ⟨b₁, hb₁⟩ : ∃ b₁ : ScoreBoard, b₁ = { b.setNode hi (blank hi) with
        length := b.length + 1, changed := b.changed + 1 } := ⟨_, rfl⟩
    have hnode₁ : ∀ j, b₁.node j = (b.setNode hi (blank hi)).node j := fun j => by rw [hb₁]; rfl
    have h₁ : Board b₁ lo (hi + 1) S M := by
      refine ⟨by rw [hb₁]; exact h.first, ?_, ?_, fun j hj hj' => ?_, fun j hj hj' => ?_,
        fun j hj hj' => ?_, fun j hj hj' hnot => ?_⟩
      · rw [hb₁]
        show lo + (b.length + 1) = hi + 1
        omega
      · rw [hb₁]
        show b.length + 1 < b.sbsize
        omega
      all_goals
        rw [hnode₁ j, hnode j hj hj']
        by_cases hjh : j = hi
      · rw [if_pos hjh, hjh]
        rfl
      · rw [if_neg hjh]
        exact h.seq j hj (by omega)
      · rw [if_pos hjh]
        rfl
      · rw [if_neg hjh]
        exact h.ack j hj (by omega)
      · rw [if_pos hjh]
        exact iff_of_false (by simp [blank]) (hS j (by omega) (by omega))
      · rw [if_neg hjh]
        exact h.sacked j hj (by omega)
      · rw [if_pos hjh]
        exact iff_of_false (by simp [blank]) (hM j (by omega) (by omega))
      · rw [if_neg hjh]
        exact h.marked j hj (by omega) hnot
    have hsize₁ : b₁.sbsize = b.sbsize := by rw [hb₁]; rfl
    have hlen₁ : b₁.length = b.length + 1 := by rw [hb₁]
    rw [← hb₁]
    obtain ⟨b', heq, hsize, h'⟩ := ih h₁ (by omega)
      (fun j hj hj' => hS j (by omega) (by omega)) (fun j hj hj' => hM j (by omega) (by omega))
    refine ⟨b', heq, hsize.trans hsize₁, ?_⟩
    rw [show hi + (n + 1) = hi + 1 + n by omega]
    exact h'

/-- The board is extended to the right edge of the block, in a larger array if need be. -/
theorem extend_spec (h : Board b lo hi S M) (hlt : lo < hi) (hlo : (lo : ℤ) = lastAck + 1)
    (hsize : Sized b.sbsize) (hhi : hi < 2 ^ 30) (hjump : right - lastAck < 2 ^ 30 - 1)
    (hS : ∀ j, hi ≤ j → ¬ S j) (hM : ∀ j, hi ≤ j → ¬ M j) :
    ∃ b', b.extend lastAck right = some b' ∧ Sized b'.sbsize ∧
      Board b' lo (max hi right.toNat) S M := by
  have hindex : ∀ {b' : ScoreBoard}, Board b' lo hi S M → Sized b'.sbsize → ¬ b'.IndexOverflows := by
    intro b' h' hsize' hover
    have hle := hsize'.bounds.2
    have hfirst := h'.first
    have hstop := h'.stop
    rw [IndexOverflows] at hover
    omega
  have hge := hsize.bounds.1
  rw [extend, if_neg (hindex h hsize), h.lastSeq hlt]
  split
  case isTrue hnew =>
    obtain ⟨b₁, hgrow, h₁, hsize₁, hroom⟩ := @grow_spec b lo hi S M lastAck right h hlt hsize hjump
      ((right - lastAck).toNat + 2) (by omega) (by omega)
    have hstop := h₁.stop
    obtain ⟨b', hnew', hsize', h'⟩ :=
      @newEntries_spec b₁ lo hi (right - (b₁.lastSeq + 1)).toNat S M h₁
        (by rw [h₁.lastSeq hlt]; omega) (fun j hj _ => hS j hj) (fun j hj _ => hM j hj)
    rw [h₁.lastSeq hlt] at hnew' h'
    refine ⟨b', ?_, by rw [hsize']; exact hsize₁, ?_⟩
    · rw [hgrow, Option.bind_some, if_neg (hindex h₁ hsize₁), h₁.lastSeq hlt,
        show hi - 1 + 1 = hi by omega]
      exact hnew'
    · rw [show max hi right.toNat = hi + (right - ((hi - 1 : ℕ) + 1)).toNat by omega]
      exact h'
  case isFalse hold =>
    refine ⟨b, rfl, hsize, ?_⟩
    rw [show max hi right.toNat = hi by omega]
    exact h

/-! ## The SACK blocks -/

theorem Board.sackNode (h : Board b lo hi S M) (hi1 : lo ≤ i) (hi2 : i < hi) :
    Board (b.sackNode i) lo hi (fun j => S j ∨ j = i) M := by
  have hset := @NetSim.ScoreBoard.Board.setNode _ _ _ _ _ (fun j => S j ∨ j = i) _ M h hi1 hi2 ({ b.node i with sackFlag := true, retran := false }) (h.seq i hi1 hi2) (h.ack i hi1 hi2) (fun j hj => or_iff_left hj) (fun j _ => Iff.rfl) (iff_of_true rfl (Or.inr rfl)) (fun hnot => absurd (Or.inr rfl) hnot)
  exact hset.congr rfl rfl rfl rfl

/-- By induction on the packets that are left of the board. -/
theorem sackLoop_spec (h : Board b lo hi S M) (hi1 : lo ≤ i) (hi2 : i + n ≤ hi) (retranDecr : ℕ) :
    (sackLoop left right n i b retranDecr).1.sbsize = b.sbsize ∧
      Board (sackLoop left right n i b retranDecr).1 lo hi
        (fun j => S j ∨ (i ≤ j ∧ j < i + n ∧ left ≤ j ∧ (j : ℤ) < right)) M := by
  induction n generalizing b i S retranDecr with
  | zero => exact ⟨rfl, h.iff (fun j _ _ => or_iff_left (by omega)) (fun _ _ _ => Iff.rfl)⟩
  | succ n ih =>
    rw [sackLoop, h.seq i hi1 (by omega)]
    split
    case isTrue hcov =>
      obtain ⟨hsize, h'⟩ := ih (h.sackNode hi1 (by omega)) (show lo ≤ i + 1 by omega) (by omega)
        (if (b.node i).retran then retranDecr + 1 else retranDecr)
      refine ⟨hsize, h'.iff (fun j _ _ => ?_) (fun _ _ _ => Iff.rfl)⟩
      rw [or_assoc]
      exact or_congr_right (by omega)
    case isFalse hcov =>
      obtain ⟨hsize, h'⟩ := ih h (show lo ≤ i + 1 by omega) (by omega) retranDecr
      exact ⟨hsize, h'.iff (fun j _ _ => or_congr_right (by omega)) (fun _ _ _ => Iff.rfl)⟩

/-- The packet `i` is covered by one of the blocks. -/
def Covered (sacks : List (ℤ × ℤ)) (i : ℕ) : Prop := ∃ s ∈ sacks, s.1 ≤ i ∧ (i : ℤ) < s.2

/-- The last packet on the board: `last_ack + 1`, or the highest packet of the blocks. -/
def highest (lastAck : ℤ) (sacks : List (ℤ × ℤ)) : ℤ :=
  sacks.foldr (fun s h => max (s.2 - 1) h) (lastAck + 1)

theorem le_highest_iff {x : ℤ} {l : List (ℤ × ℤ)} :
    x ≤ highest lastAck l ↔ x ≤ lastAck + 1 ∨ ∃ s ∈ l, x < s.2 := by
  induction l with
  | nil => simp [highest]
  | cons t l ih =>
    have hcons : highest lastAck (t :: l) = max (t.2 - 1) (highest lastAck l) := rfl
    rw [hcons, le_max_iff, ih, Int.le_sub_one_iff]
    simp only [mem_cons, exists_eq_or_imp]
    exact or_left_comm

theorem highest_append (lastAck : ℤ) (l : List (ℤ × ℤ)) (s : ℤ × ℤ) :
    highest lastAck (l ++ [s]) = max (highest lastAck l) (s.2 - 1) := by
  refine eq_of_forall_le_iff (fun x => ?_)
  rw [le_max_iff, le_highest_iff, le_highest_iff, Int.le_sub_one_iff, or_assoc]
  simp only [mem_append, mem_singleton, or_and_right, exists_or, exists_eq_left]

theorem highest_mono {lastAck' : ℤ} (l : List (ℤ × ℤ)) (hle : lastAck ≤ lastAck')
    (hlt : lastAck' < highest lastAck l) : highest lastAck' l = highest lastAck l := by
  refine eq_of_forall_le_iff (fun x => ?_)
  constructor
  · intro hx
    rcases le_highest_iff.mp hx with hx | hx
    · exact hx.trans hlt
    · exact le_highest_iff.mpr (Or.inr hx)
  · intro hx
    exact le_highest_iff.mpr ((le_highest_iff.mp hx).imp_left (fun h => by omega))

theorem Covered.le_highest {l : List (ℤ × ℤ)} (h : Covered l i) (lastAck : ℤ) :
    (i : ℤ) ≤ highest lastAck l := by
  obtain ⟨s, hs, -, hlt⟩ := h
  exact le_highest_iff.mpr (Or.inr ⟨s, hs, hlt⟩)

/-- **The blocks are reported**: the board reaches to the highest of them, and they are SACKed. -/
theorem report_spec {past sacks : List (ℤ × ℤ)}
    (h : Board b lo (highest lastAck past + 1).toNat (Covered past) M) (hlo : (lo : ℤ) = lastAck + 1)
    (hsize : Sized b.sbsize) (hpast : highest lastAck past + 1 < 2 ^ 30)
    (hsacks : ∀ s ∈ sacks, s.2 + 2 < 2 ^ 30) (hM : ∀ j, M j → (j : ℤ) ≤ highest lastAck past)
    (retranDecr : ℕ) :
    ∃ b' r, report lastAck sacks b retranDecr = some (b', r) ∧ Sized b'.sbsize ∧
      Board b' lo (highest lastAck (past ++ sacks) + 1).toNat (Covered (past ++ sacks)) M := by
  induction sacks generalizing b past retranDecr with
  | nil =>
    rw [append_nil]
    exact ⟨b, retranDecr, rfl, hsize, h⟩
  | cons s sacks ih =>
    obtain ⟨left, right⟩ := s
    have hge : lastAck + 1 ≤ highest lastAck past := le_highest_iff.mpr (Or.inl le_rfl)
    have hlt : lo < (highest lastAck past + 1).toNat := by omega
    have hright : right + 2 < 2 ^ 30 := hsacks (left, right) (by simp)
    obtain ⟨b₁, hext, hsize₁, h₁⟩ := @extend_spec b lo _ (Covered past) M lastAck right h hlt hlo
      hsize (by omega) (by omega)
      (fun j hj hc => by have := hc.le_highest lastAck; omega)
      (fun j hj hm => by have := hM j hm; omega)
    have hmax : (highest lastAck (past ++ [(left, right)]) + 1).toNat =
        max (highest lastAck past + 1).toNat right.toNat := by
      rw [highest_append]
      omega
    rw [← hmax] at h₁
    have hlt₁ : lo < (highest lastAck (past ++ [(left, right)]) + 1).toNat := by omega
    obtain ⟨hsize₂, h₂⟩ := @sackLoop_spec b₁ lo _ lo (right - b₁.firstSeq).toNat (Covered past) M
      left right h₁ le_rfl (by rw [h₁.firstSeq hlt₁, hmax]; omega) retranDecr
    have h₃ := @NetSim.ScoreBoard.Board.iff _ _ _ _ (Covered (past ++ [(left, right)])) _ M h₂ (fun j hj hj' => by
      rw [h₁.firstSeq hlt₁]
      simp only [Covered, mem_append, mem_singleton, or_and_right, exists_or,
        exists_eq_left]
      exact or_congr_right (by omega)) (fun _ _ _ => Iff.rfl)
    obtain ⟨b', r, heq, hsize', h'⟩ := @ih _ _ h₃ (by rw [hsize₂]; exact hsize₁)
      (by rw [highest_append]; omega) (fun s hs => hsacks s (by simp [hs])) (fun j hm => by rw [highest_append]; exact (hM j hm).trans (le_max_left _ _))
      (sackLoop left right (right - b₁.firstSeq).toNat lo b₁ retranDecr).2
    refine ⟨b', r, ?_, hsize', by simpa using h'⟩
    rw [report, hext, Option.bind_some]
    rw [h₁.firstSeq hlt₁] at heq ⊢
    exact heq

/-! ## `GetNextRetran` -/

/-- The first packet that is neither SACKed nor marked, if there is one. -/
theorem nextRetran_spec (h : Board b lo hi S M) (hi1 : lo ≤ i) (hi2 : i + n = hi) :
    (b.nextRetran n i = -1 ∧ ∀ j, i ≤ j → j < hi → S j ∨ M j) ∨
      ∃ k : ℕ, b.nextRetran n i = k ∧ IsLeast {j | i ≤ j ∧ j < hi ∧ ¬ S j ∧ ¬ M j} k := by
  induction n generalizing i with
  | zero => exact Or.inl ⟨rfl, fun j hj hj' => by omega⟩
  | succ n ih =>
    have hfree : (!(b.node i).ackFlag && !(b.node i).sackFlag && !(b.node i).retran) = true ↔
        ¬ S i ∧ ¬ M i := by
      rw [h.ack i hi1 (by omega)]
      simp only [Bool.not_false, Bool.true_and, Bool.and_eq_true, Bool.not_eq_true']
      rw [← Bool.not_eq_true, ← Bool.not_eq_true, h.sacked i hi1 (by omega)]
      exact and_congr_right (fun hs => not_congr (h.marked i hi1 (by omega) hs))
    rw [nextRetran]
    split
    case isTrue hcond =>
      refine Or.inr ⟨i, rfl, ⟨le_rfl, by omega, hfree.mp hcond⟩, fun j hj => hj.1⟩
    case isFalse hcond =>
      have htaken : S i ∨ M i := by
        by_contra hnot
        exact hcond (hfree.mpr (not_or.mp hnot))
      rcases ih (show lo ≤ i + 1 by omega) (by omega) with ⟨heq, hall⟩ | ⟨k, heq, hmem, hleast⟩
      · refine Or.inl ⟨heq, fun j hj hj' => ?_⟩
        by_cases hji : j = i
        · rw [hji]
          exact htaken
        · exact hall j (by omega) hj'
      · refine Or.inr ⟨k, heq, ⟨by have := hmem.1; omega, hmem.2⟩, fun j hj => ?_⟩
        by_cases hji : j = i
        · rw [hji] at hj
          exact absurd htaken (not_or.mpr hj.2.2)
        · have hlt := hj.1
          exact hleast ⟨by omega, hj.2⟩

/-! ## The abstract scoreboard -/

inductive Op where
  | update (lastAck : ℤ) (sacks : List (ℤ × ℤ))
  | clear
  | markRetran (seqno : ℕ) (sndNxt : Option ℤ)

/-- The last acknowledgment, and, if there is a board, the blocks that have been reported and the
packets that have been marked since it was created. -/
structure Packets where
  lastAck : ℤ
  board : Option (List (ℤ × ℤ) × List ℕ)

/-- What is left of the board when `last_ack` is acknowledged: nothing if it was its last packet. -/
def Packets.acked (p : Packets) (lastAck : ℤ) : Option (List (ℤ × ℤ) × List ℕ) :=
  p.board.filter (fun r => lastAck < highest p.lastAck r.1)

def Packets.step (p : Packets) : Op → Packets
  | .update lastAck sacks =>
    { lastAck
      board :=
        if sacks = [] then p.acked lastAck
        else
          let r := (p.acked lastAck).getD ([], [])
          some (r.1 ++ sacks, r.2) }
  | .clear => { p with board := none }
  | .markRetran seqno _ => { p with board := p.board.map (fun r => (r.1, seqno :: r.2)) }

/-- The abstract scoreboard after the calls. -/
def packets (ops : List Op) : Packets := ops.foldl Packets.step { lastAck := -1, board := none }

structure Sender where
  lastAck : ℤ
  scb : ScoreBoard

/-- One call, with the value that `UpdateScoreBoard` returns. -/
def step (s : Sender) : Op → Option (Sender × ℕ)
  | .update lastAck sacks =>
    (s.scb.updateScoreBoard lastAck sacks).map (fun r => ({ lastAck, scb := r.1 }, r.2))
  | .clear => some ({ s with scb := s.scb.clearScoreBoard }, 0)
  | .markRetran seqno sndNxt => some ({ s with scb := s.scb.markRetran seqno sndNxt }, 0)

/-- The sender does not go back, the blocks are not empty, a packet that is marked is on the board, and
the numbers of the packets leave room for an index into the array. -/
def Allowed (s : Sender) : Op → Prop
  | .update lastAck sacks => s.lastAck ≤ lastAck ∧ lastAck + 2 < 2 ^ 30 ∧
      ∀ b ∈ sacks, b.1 < b.2 ∧ b.2 + 2 < 2 ^ 30
  | .clear => True
  | .markRetran seqno _ => s.scb.first ≤ seqno ∧ seqno < s.scb.first + s.scb.length

instance (s : Sender) : ∀ op, Decidable (Allowed s op)
  | .update _ _ => inferInstanceAs (Decidable (_ ∧ _ ∧ _))
  | .clear => isTrue trivial
  | .markRetran _ _ => inferInstanceAs (Decidable (_ ∧ _))

def start (sz : ℕ) : Sender := { lastAck := -1, scb := init sz }

/-- The array holds what the abstract scoreboard says, for the blocks `r.1` and the marks `r.2`. -/
structure Shows (b : ScoreBoard) (lastAck : ℤ) (r : List (ℤ × ℤ) × List ℕ) : Prop where
  board : Board b (lastAck + 1).toNat (highest lastAck r.1 + 1).toNat (Covered r.1) (· ∈ r.2)
  marks : ∀ j ∈ r.2, (j : ℤ) ≤ highest lastAck r.1

structure Refines (p : Packets) (s : Sender) : Prop where
  lastAck : s.lastAck = p.lastAck
  ge : -1 ≤ p.lastAck
  size : Sized s.scb.sbsize
  small : ∀ r, p.board = some r → highest p.lastAck r.1 + 1 < 2 ^ 30
  empty : p.board = none → s.scb.length = 0
  shows : ∀ r, p.board = some r → Shows s.scb p.lastAck r

variable {p : Packets} {s : Sender} {sacks : List (ℤ × ℤ)} {r : List (ℤ × ℤ) × List ℕ}

theorem lt_highest (hge : -1 ≤ lastAck) (l : List (ℤ × ℤ)) :
    (lastAck + 1).toNat < (highest lastAck l + 1).toNat := by
  have hle : lastAck + 1 ≤ highest lastAck l := le_highest_iff.mpr (Or.inl le_rfl)
  omega

theorem Shows.report (h : Shows b lastAck r) (sacks : List (ℤ × ℤ)) (hge : -1 ≤ lastAck)
    (hsize : Sized b.sbsize) (hpast : highest lastAck r.1 + 1 < 2 ^ 30)
    (hsacks : ∀ s ∈ sacks, s.2 + 2 < 2 ^ 30) (retranDecr : ℕ) :
    ∃ b' d, report lastAck sacks b retranDecr = some (b', d) ∧ Sized b'.sbsize ∧
      Shows b' lastAck (r.1 ++ sacks, r.2) := by
  obtain ⟨b', d, heq, hsize', h'⟩ :=
    @report_spec b _ (· ∈ r.2) lastAck r.1 sacks h.board (by omega) hsize hpast hsacks h.marks
      retranDecr
  refine ⟨b', d, heq, hsize', h', fun j hj => ?_⟩
  refine le_highest_iff.mpr ((le_highest_iff.mp (h.marks j hj)).imp_right ?_)
  rintro ⟨t, ht, hlt⟩
  exact ⟨t, mem_append_left _ ht, hlt⟩

theorem restart (hlen : b.length = 0) (hge : -1 ≤ lastAck) (hsize : Sized b.sbsize)
    (hack : lastAck + 2 < 2 ^ 30) (hsacks : ∀ s ∈ sacks, s.2 + 2 < 2 ^ 30) (retranDecr : ℕ) :
    ∃ b' d, (if b.length = 0 ∧ sacks ≠ [] then b.create lastAck else some b).bind
        (fun b => report lastAck sacks b retranDecr) = some (b', d) ∧ Sized b'.sbsize ∧
      (sacks = [] → b'.length = 0) ∧ (sacks ≠ [] → Shows b' lastAck (sacks, [])) := by
  by_cases hnil : sacks = []
  · rw [if_neg (fun h => h.2 hnil), Option.bind_some, hnil]
    exact ⟨b, retranDecr, rfl, hsize, fun _ => hlen, fun h => absurd rfl h⟩
  · obtain ⟨b₁, hcreate, hsize₁, h₁⟩ := @create_spec b lastAck hlen hsize.bounds.1
    have hshows : Shows b₁ lastAck ([], []) := by
      refine ⟨?_, by simp⟩
      rw [show (highest lastAck ([] : List (ℤ × ℤ)) + 1).toNat = (lastAck + 1).toNat + 1 by
        show (lastAck + 1 + 1).toNat = _
        omega]
      exact h₁.iff (fun j _ _ => by simp [Covered]) (fun j _ _ => by simp)
    obtain ⟨b', d, heq, hsize', h'⟩ :=
      hshows.report sacks hge (by rw [hsize₁]; exact hsize) (show lastAck + 1 + 1 < 2 ^ 30 by omega)
        hsacks retranDecr
    rw [if_pos ⟨hlen, hnil⟩, hcreate, Option.bind_some]
    exact ⟨b', d, heq, hsize', fun h => absurd h hnil, fun _ => h'⟩

theorem Shows.advanceLeft (h : Shows b lastAck r) (lastAck' : ℤ) (hge : -1 ≤ lastAck)
    (hle : lastAck ≤ lastAck') :
    ∃ b' d, b.advanceLeft lastAck' = some (b', d) ∧ b'.sbsize = b.sbsize ∧
      (lastAck' < highest lastAck r.1 → Shows b' lastAck' r) ∧
      (¬ lastAck' < highest lastAck r.1 → b'.length = 0) := by
  obtain ⟨b', d, heq, hsize, h'⟩ :=
    @advanceLeft_spec b _ _ _ _ lastAck' h.board (lt_highest hge r.1) (by omega)
  refine ⟨b', d, heq, hsize, fun hlt => ?_, fun hnot => ?_⟩
  · rw [min_eq_left (by omega), ← highest_mono r.1 hle hlt] at h'
    refine ⟨h', fun j hj => ?_⟩
    rw [highest_mono r.1 hle hlt]
    exact h.marks j hj
  · have hstop := h'.stop
    omega

theorem highest_lt {bound : ℤ} (hack : lastAck + 1 < bound) (l : List (ℤ × ℤ))
    (hl : ∀ s ∈ l, s.2 ≤ bound) : highest lastAck l < bound := by
  by_contra hge
  rcases le_highest_iff.mp (not_lt.mp hge) with hle | ⟨s, hs, hlt⟩
  · omega
  · have hle := hl s hs
    omega

theorem Refines.update {lastAck' : ℤ} (h : Refines p s) (sacks : List (ℤ × ℤ))
    (hle : s.lastAck ≤ lastAck') (hack' : lastAck' + 2 < 2 ^ 30)
    (hsacks : ∀ s ∈ sacks, s.2 + 2 < 2 ^ 30) :
    ∃ b' d, s.scb.updateScoreBoard lastAck' sacks = some (b', d) ∧
      Refines (p.step (.update lastAck' sacks)) { lastAck := lastAck', scb := b' } := by
  have hge := h.ge
  have hack := h.lastAck
  -- the outcome when no board is left
  have hnone : ∀ b₁ d₁, { s.scb with changed := 0 }.advanceLeft lastAck' = some (b₁, d₁) →
      b₁.length = 0 → b₁.sbsize = s.scb.sbsize → p.acked lastAck' = none →
      ∃ b' d, s.scb.updateScoreBoard lastAck' sacks = some (b', d) ∧
        Refines (p.step (.update lastAck' sacks)) { lastAck := lastAck', scb := b' } := by
    intro b₁ d₁ hadv hlen hsize hnone
    obtain ⟨b', d, heq, hsize', hempty, hshows⟩ := @restart b₁ lastAck' sacks hlen (by omega)
      (by rw [hsize]; exact h.size) hack' hsacks d₁
    refine ⟨b', d, ?_, rfl, show -1 ≤ lastAck' by omega, hsize', fun r hr => ?_, fun hb => ?_,
      fun r hr => ?_⟩
    · rw [updateScoreBoard, hadv, Option.bind_some]
      exact heq
    · by_cases hnil : sacks = []
      · simp [Packets.step, hnil, hnone] at hr
      · simp only [Packets.step, if_neg hnil, hnone, Option.some.injEq] at hr
        rw [← hr]
        have hlt := highest_lt (show lastAck' + 1 < 2 ^ 30 - 1 by omega) sacks
          (fun s hs => by have hs := hsacks s hs; omega)
        show highest lastAck' sacks + 1 < 2 ^ 30
        omega
    · refine hempty ?_
      by_contra hne
      simp [Packets.step, hne] at hb
    · by_cases hnil : sacks = []
      · simp [Packets.step, hnil, hnone] at hr
      · simp only [Packets.step, if_neg hnil, hnone, Option.some.injEq] at hr
        rw [← hr]
        exact hshows hnil
  cases hb : p.board with
  | none =>
    refine hnone { s.scb with changed := 0 } 0 ?_ (h.empty hb) rfl ?_
    · rw [ScoreBoard.advanceLeft, if_neg (fun hc => hc.1 (h.empty hb))]
    · rw [Packets.acked, hb]
      rfl
  | some r =>
    have hshows := h.shows r hb
    have hshows' : Shows { s.scb with changed := 0 } p.lastAck r :=
      ⟨hshows.board.congr rfl rfl rfl rfl, hshows.marks⟩
    obtain ⟨b₁, d₁, hadv, hsize, hstays, hends⟩ :=
      hshows'.advanceLeft lastAck' hge (by omega)
    by_cases hlt : lastAck' < highest p.lastAck r.1
    · have hacked : p.acked lastAck' = some r := by
        rw [Packets.acked, hb, Option.filter_some, if_pos (decide_eq_true hlt)]
      have hsmall : highest lastAck' r.1 + 1 < 2 ^ 30 := by
        rw [highest_mono r.1 (by omega) hlt]
        exact h.small r hb
      have hlen : b₁.length ≠ 0 := by
        have hstop := (hstays hlt).board.stop
        have := lt_highest (show -1 ≤ lastAck' by omega) r.1
        omega
      obtain ⟨b', d, heq, hsize', h'⟩ := (hstays hlt).report sacks (by omega)
        (by rw [hsize]; exact h.size) hsmall hsacks d₁
      have hr : ∀ r', (p.step (.update lastAck' sacks)).board = some r' →
          r' = (r.1 ++ sacks, r.2) := by
        intro r' hr'
        by_cases hnil : sacks = []
        · simp only [Packets.step, if_pos hnil, hacked, Option.some.injEq] at hr'
          rw [← hr', hnil, append_nil]
        · simp only [Packets.step, if_neg hnil, hacked, Option.some.injEq] at hr'
          exact hr'.symm
      refine ⟨b', d, ?_, rfl, show -1 ≤ lastAck' by omega, hsize', fun r' hr' => ?_,
        fun hb' => ?_, fun r' hr' => ?_⟩
      · rw [updateScoreBoard, hadv, Option.bind_some, if_neg (fun hc => hlen hc.1),
          Option.bind_some]
        exact heq
      · rw [hr r' hr']
        show highest lastAck' (r.1 ++ sacks) + 1 < 2 ^ 30
        by_contra hge
        rcases le_highest_iff.mp (show 2 ^ 30 - 1 ≤ highest lastAck' (r.1 ++ sacks) by omega) with
          hge | ⟨s', hs', hge⟩
        · omega
        · rcases mem_append.mp hs' with hs' | hs'
          · have hold : 2 ^ 30 - 1 ≤ highest lastAck' r.1 := le_highest_iff.mpr (Or.inr ⟨s', hs', hge⟩)
            omega
          · have hnew := hsacks s' hs'
            omega
      · by_cases hnil : sacks = [] <;> simp [Packets.step, hnil, hacked] at hb'
      · rw [hr r' hr']
        exact h'
    · refine hnone b₁ d₁ hadv (hends hlt) hsize ?_
      rw [Packets.acked, hb, Option.filter_some, if_neg (by simpa using hlt)]

theorem Refines.markRetran {seqno : ℕ} (h : Refines p s) (sndNxt : Option ℤ)
    (hon : s.scb.first ≤ seqno ∧ seqno < s.scb.first + s.scb.length) :
    Refines (p.step (.markRetran seqno sndNxt)) { s with scb := s.scb.markRetran seqno sndNxt } := by
  refine ⟨h.lastAck, h.ge, h.size, fun r' hr' => ?_, fun hb => ?_, fun r' hr' => ?_⟩
  · obtain ⟨r, hr, rfl⟩ := Option.map_eq_some_iff.mp hr'
    exact h.small r hr
  · exact h.empty (by simpa [Packets.step] using hb)
  · obtain ⟨r, hr, rfl⟩ := Option.map_eq_some_iff.mp hr'
    obtain ⟨hboard, hmarks⟩ := h.shows r hr
    have hstop := hboard.stop
    have hfirst := hboard.first
    have hi1 : (p.lastAck + 1).toNat ≤ seqno := by omega
    have hi2 : seqno < (highest p.lastAck r.1 + 1).toNat := by omega
    refine ⟨hboard.setNode (i := seqno) hi1 hi2 (hboard.seq seqno hi1 hi2) (hboard.ack seqno hi1 hi2)
      (fun j _ => Iff.rfl) (fun j hj => ?_) (hboard.sacked seqno hi1 hi2) (fun _ => ?_), fun j hj => ?_⟩
    · rw [mem_cons, or_iff_right hj]
    · exact iff_of_true rfl (by simp)
    · rcases mem_cons.mp hj with rfl | hj
      · show (j : ℤ) ≤ highest p.lastAck r.1
        omega
      · exact hmarks j hj

/-- The simulation: the board and the sets of packets take the same step. -/
theorem Refines.step (h : Refines p s) (op : Op) (hok : Allowed s op) :
    ∃ s' d, ScoreBoard.step s op = some (s', d) ∧ Refines (p.step op) s' := by
  cases op with
  | update lastAck' sacks =>
    obtain ⟨b', d, heq, h'⟩ := h.update sacks hok.1 hok.2.1 (fun s hs => (hok.2.2 s hs).2)
    exact ⟨_, d, by rw [ScoreBoard.step, heq]; rfl, h'⟩
  | clear =>
    refine ⟨_, _, rfl, h.lastAck, h.ge, h.size, fun r hr => ?_, fun _ => rfl, fun r hr => ?_⟩
    · cases hr
    · cases hr
  | markRetran seqno sndNxt => exact ⟨_, _, rfl, h.markRetran sndNxt hok⟩

/-- **The array refines the set of packets.** No exit is reached while the numbers of the packets are
below `2 ^ 30`. There is a board if the abstract
scoreboard has one; it then holds the packets from `last_ack + 1` to the highest of the reported
blocks, or `last_ack + 1` alone; a packet of it is SACKed if and only if a reported block covers
it; and `GetNextRetran` returns the smallest packet that is neither SACKed nor marked, or `-1`. -/
theorem scoreboard_refines {sz : ℕ} {ops : List Op} (hsz : Sized sz)
    (hok : Runs.Meets step Allowed (start sz) ops) :
    ∃ s outs, Runs.run step (start sz) ops = some (s, outs) ∧ s.lastAck = (packets ops).lastAck ∧
      ((packets ops).board = none → s.scb.length = 0 ∧ s.scb.getNextRetran = -1) ∧
      ∀ reported marked, (packets ops).board = some (reported, marked) →
        s.scb.length ≠ 0 ∧ s.scb.first = s.lastAck + 1 ∧
        s.scb.first + s.scb.length - 1 = highest s.lastAck reported ∧
        (∀ i, s.scb.first ≤ i → i < s.scb.first + s.scb.length →
          (s.scb.node i).seqNo = i ∧ ((s.scb.node i).sackFlag = true ↔ Covered reported i)) ∧
        ((s.scb.getNextRetran = -1 ∧ ∀ i, s.scb.first ≤ i → i < s.scb.first + s.scb.length →
            Covered reported i ∨ i ∈ marked) ∨
          ∃ k : ℕ, s.scb.getNextRetran = k ∧
            IsLeast {i | s.scb.first ≤ i ∧ i < s.scb.first + s.scb.length ∧
              ¬ Covered reported i ∧ i ∉ marked} k) := by
  have hinit : Refines (packets []) (start sz) :=
    ⟨rfl, le_rfl, hsz, fun r hr => (by cases hr), fun _ => rfl, fun r hr => (by cases hr)⟩
  obtain ⟨s, outs, hrun, h⟩ := @Runs.run_invariant _ _ _ step Allowed (start sz) ops
    (fun past _ s => Refines (packets past) s)
    (fun past _ s op h hop => by
      obtain ⟨s', d, heq, h'⟩ := h.step op hop
      refine ⟨s', d, heq, ?_⟩
      rw [packets, foldl_append]
      exact h') hinit hok
  refine ⟨s, outs, hrun, h.lastAck, fun hb => ⟨h.empty hb, ?_⟩, fun reported marked hb => ?_⟩
  · rw [getNextRetran, if_neg (fun hne => hne (h.empty hb))]
  · obtain ⟨hboard, -⟩ := h.shows (reported, marked) hb
    have hge := h.ge
    have hlt := lt_highest hge reported
    have hstop := hboard.stop
    have hfirst := hboard.first
    have hend : s.scb.first + s.scb.length = (highest (packets ops).lastAck reported + 1).toNat := by
      rw [hfirst]
      exact hstop
    have hlen : s.scb.length ≠ 0 := by omega
    refine ⟨hlen, ?_, ?_, fun i hi hi' => ?_, ?_⟩
    · rw [h.lastAck]
      omega
    · rw [h.lastAck]
      omega
    · rw [hend] at hi'
      rw [hfirst] at hi
      exact ⟨hboard.seq i hi hi', hboard.sacked i hi hi'⟩
    · rw [getNextRetran, if_pos hlen, hboard.firstSeq hlt, hend, hfirst]
      exact nextRetran_spec hboard le_rfl hstop

/-- A board that grows, loses its first packets, and has two of them marked. -/
def recovery : List Op :=
  [.update 3 [(6, 8)], .markRetran 4 none, .update 4 [(6, 9), (100, 102)], .markRetran 5 (some 102),
    .update 8 [], .clear, .update 8 [(100, 102)]]

theorem scoreboard_refines_recovery :
    Runs.Meets step Allowed (start 64) recovery ∧
    ∃ s outs, Runs.run step (start 64) recovery = some (s, outs) ∧
      s.lastAck = (packets recovery).lastAck ∧
      ((packets recovery).board = none → s.scb.length = 0 ∧ s.scb.getNextRetran = -1) ∧
      ∀ reported marked, (packets recovery).board = some (reported, marked) →
        s.scb.length ≠ 0 ∧ s.scb.first = s.lastAck + 1 ∧
        s.scb.first + s.scb.length - 1 = highest s.lastAck reported ∧
        (∀ i, s.scb.first ≤ i → i < s.scb.first + s.scb.length →
          (s.scb.node i).seqNo = i ∧ ((s.scb.node i).sackFlag = true ↔ Covered reported i)) ∧
        ((s.scb.getNextRetran = -1 ∧ ∀ i, s.scb.first ≤ i → i < s.scb.first + s.scb.length →
            Covered reported i ∨ i ∈ marked) ∨
          ∃ k : ℕ, s.scb.getNextRetran = k ∧
            IsLeast {i | s.scb.first ≤ i ∧ i < s.scb.first + s.scb.length ∧
              ¬ Covered reported i ∧ i ∉ marked} k) :=
  have hok : Runs.Meets step Allowed (start 64) recovery := by decide +kernel
  ⟨hok, scoreboard_refines ⟨6, by decide, by decide, by decide⟩ hok⟩

/-- A block that lies below `last_ack` creates a board with the packet `last_ack + 1`, although no
packet above `last_ack` has been SACKed. A packet that is marked when it is no longer on the board
marks another one, 75 instead of 11. And for a jump of `2 ^ 30` the array has no size. -/
theorem board_beyond_sacked :
    (∃ s outs, Runs.run step (start 64) [.update 10 [(3, 5)]] = some (s, outs) ∧
      s.scb.length = 1 ∧ s.scb.first = 11) ∧
    (∃ s outs, Runs.run step (start 64)
        [.update 10 [(12, 13)], .update 20 [(79, 80)], .markRetran 11 none] = some (s, outs) ∧
      (s.scb.node 75).seqNo = 75 ∧ (s.scb.node 75).retran = true) ∧
    Runs.run step (start 64) [.update 0 [(1, 2 ^ 30)]] = none := by
  refine ⟨?_, ?_, ?_⟩
  · obtain ⟨r, hr⟩ : ∃ r, Runs.run step (start 64) [.update 10 [(3, 5)]] = some r :=
      Option.isSome_iff_exists.mp (by decide +kernel)
    have hfinal : ∀ r' ∈ Runs.run step (start 64) [.update 10 [(3, 5)]],
        r'.1.scb.length = 1 ∧ r'.1.scb.first = 11 := by
      decide +kernel
    exact ⟨r.1, r.2, hr, hfinal r hr⟩
  · obtain ⟨r, hr⟩ : ∃ r, Runs.run step (start 64)
        [.update 10 [(12, 13)], .update 20 [(79, 80)], .markRetran 11 none] = some r :=
      Option.isSome_iff_exists.mp (by decide +kernel)
    have hfinal : ∀ r' ∈ Runs.run step (start 64)
        [.update 10 [(12, 13)], .update 20 [(79, 80)], .markRetran 11 none],
        (r'.1.scb.node 75).seqNo = 75 ∧ (r'.1.scb.node 75).retran = true := by
      decide +kernel
    exact ⟨r.1, r.2, hr, hfinal r hr⟩
  · -- the board is the packet 1 alone
    obtain ⟨b, hb⟩ : ∃ b, ({ init 64 with changed := 0 } : ScoreBoard).create 0 = some b := ⟨_, rfl⟩
    have hsize : b.sbsize = 64 := by
      cases hb
      rfl
    have hlast : b.lastSeq = 1 := by
      cases hb
      rfl
    have hext : b.extend 0 (2 ^ 30) = none := by
      rw [extend, grow_none (by rw [hsize]; exact ⟨6, by decide, by decide, rfl⟩) (by omega), hlast,
        if_pos (show ((1 : ℕ) : ℤ) < 2 ^ 30 by omega)]
      exact ite_self none
    rw [Runs.run, step, updateScoreBoard, advanceLeft, if_neg (by decide), Option.bind_some,
      if_pos (by decide), start, hb, Option.bind_some, report, hext]
    rfl

end ScoreBoard

end NetSim
