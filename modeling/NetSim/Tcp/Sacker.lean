import NetSim.Lib.MaximalRuns
import NetSim.Tcp.Acker

/-! # The SACK blocks of a TCP sink

`Sacker` of `tcp/tcp-sink.cc` answers each packet with SACK blocks: first the run of received
packets around the new one, then blocks from a stack of earlier ones. The stack has as many places
as an acknowledgment has blocks, and a block that the newest one covers is popped when it is met.
Afterwards the stack is the list of the blocks that were written (`appendAck_spec`), and they are
maximal runs of received packets (`sacks_truthful`).
-/

namespace NetSim

open Function List

/-! ## The stack of blocks -/

/-- `SackStack`. An entry `(-1, -1)` is empty. -/
structure SackStack where
  size : ℕ
  cnt : ℕ
  sfe : ℕ → ℤ × ℤ

namespace SackStack

def init (sz : ℕ) : SackStack := { size := sz, cnt := 0, sfe := fun _ => (-1, -1) }

def reset (sf : SackStack) : SackStack :=
  { sf with cnt := 0, sfe := Ring.write id (fun _ => (-1, -1)) sf.cnt 0 sf.sfe }

/-- `SackStack::push` at the top: the entries move down one. -/
def push (sf : SackStack) : SackStack :=
  let cnt := if sf.size ≤ sf.cnt then sf.size - 1 else sf.cnt
  { sf with
    cnt := cnt + 1
    sfe := (List.range cnt).foldr (fun i sfe => update sfe (i + 1) (sfe i)) sf.sfe }

def pop (sf : SackStack) (n : ℕ) : SackStack :=
  { sf with
    cnt := sf.cnt - 1
    sfe := update
      ((List.range' n (sf.cnt - 1 - n)).foldl (fun sfe i => update sfe i (sfe (i + 1)))
        sf.sfe)
      (max n (sf.cnt - 1)) (-1, -1) }

/-- Assign to `head_left()` and `head_right()`. -/
def setHead (sf : SackStack) (b : ℤ × ℤ) : SackStack :=
  { sf with sfe := update sf.sfe 0 b }

/-- The stack holds the list `l`; the entries behind it are empty. -/
structure Holds (sf : SackStack) (l : List (ℤ × ℤ)) : Prop where
  cnt : sf.cnt = l.length
  size : l.length ≤ sf.size
  entry : ∀ i, sf.sfe i = l[i]?.getD (-1, -1)

variable {sf : SackStack} {l l' : List (ℤ × ℤ)} {b : ℤ × ℤ}

theorem holds_init (sz : ℕ) : (init sz).Holds [] := ⟨rfl, Nat.zero_le _, fun _ => rfl⟩

theorem Holds.reset (h : sf.Holds l) : sf.reset.Holds [] := by
  refine ⟨rfl, Nat.zero_le _, fun i => ?_⟩
  have hwrite := Ring.write_slot (α := ℤ × ℤ) (i := 0) (n := sf.cnt) (j := i)
    (injective_id.injOn (s := Set.Icc 0 (max i sf.cnt))) (fun _ => (-1, -1)) sf.sfe
    le_rfl (by omega) (Nat.zero_le i) (by omega)
  show Ring.write id (fun _ => (-1, -1)) sf.cnt 0 sf.sfe (id i) = _
  rw [hwrite]
  split
  · rfl
  · rw [id, h.entry i, getElem?_eq_none (by rw [← h.cnt]; omega)]
    rfl

theorem foldr_shift (sfe : ℕ → ℤ × ℤ) (cnt j : ℕ) :
    (List.range cnt).foldr (fun i sfe => update sfe (i + 1) (sfe i)) sfe j =
      if 0 < j ∧ j ≤ cnt then sfe (j - 1) else sfe j := by
  induction cnt generalizing sfe with
  | zero => rw [if_neg (by omega)]; rfl
  | succ cnt ih =>
    rw [range_succ, foldr_append, foldr_cons, foldr_nil, ih]
    simp only [update_apply]
    by_cases hj : j = cnt + 1
    · rw [if_neg (by omega), if_pos hj, if_pos (by omega), hj]
      rfl
    · by_cases hj' : 0 < j ∧ j ≤ cnt
      · rw [if_pos hj', if_neg (by omega), if_pos (by omega)]
      · rw [if_neg hj', if_neg hj, if_neg (by omega)]

theorem foldl_shift (sfe : ℕ → ℤ × ℤ) (n k j : ℕ) :
    (List.range' n k).foldl (fun sfe i => update sfe i (sfe (i + 1))) sfe j =
      if n ≤ j ∧ j < n + k then sfe (j + 1) else sfe j := by
  induction k generalizing n sfe with
  | zero => rw [if_neg (by omega)]; rfl
  | succ k ih =>
    rw [range'_succ, foldl_cons, ih]
    simp only [update_apply]
    by_cases hj : j = n
    · rw [if_neg (by omega), if_pos hj, if_pos (by omega), hj]
    · by_cases hj' : n + 1 ≤ j ∧ j < n + 1 + k
      · rw [if_pos hj', if_neg (by omega), if_pos (by omega)]
      · rw [if_neg hj', if_neg hj, if_neg (by omega)]

theorem Holds.push (h : sf.Holds l) (hsize : 0 < sf.size) :
    (sf.push.setHead b).Holds (b :: l.take (sf.size - 1)) := by
  have hcnt := h.cnt
  have hle := h.size
  -- the overflow check leaves `size - 1` entries at most
  have hmin : (if sf.size ≤ sf.cnt then sf.size - 1 else sf.cnt) =
      (l.take (sf.size - 1)).length := by
    rw [length_take]
    split <;> omega
  refine ⟨?_, ?_, fun i => ?_⟩
  · show (if sf.size ≤ sf.cnt then sf.size - 1 else sf.cnt) + 1 = _
    rw [hmin, length_cons]
  · show (b :: l.take (sf.size - 1)).length ≤ sf.size
    rw [length_cons, length_take]
    omega
  · rw [setHead]
    dsimp only
    rw [update_apply]
    split
    case isTrue hi =>
      rw [hi]
      rfl
    case isFalse hi =>
      obtain ⟨j, rfl⟩ : ∃ j, i = j + 1 := ⟨i - 1, by omega⟩
      show (List.range (if sf.size ≤ sf.cnt then sf.size - 1 else sf.cnt)).foldr _ sf.sfe (j + 1) = _
      rw [foldr_shift, hmin, getElem?_cons_succ]
      split
      case isTrue hj =>
        rw [length_take] at hj
        rw [getElem?_take, if_pos (by omega)]
        exact h.entry j
      case isFalse hj =>
        rw [length_take] at hj
        rw [getElem?_eq_none (by rw [length_take]; omega), h.entry (j + 1),
          getElem?_eq_none (by omega)]

theorem Holds.pop (h : sf.Holds (l ++ b :: l')) : (sf.pop l.length).Holds (l ++ l') := by
  have hcnt := h.cnt
  have hle := h.size
  simp only [length_append, length_cons] at hcnt hle
  refine ⟨?_, ?_, fun i => ?_⟩
  · show sf.cnt - 1 = _
    rw [length_append]
    omega
  · show (l ++ l').length ≤ sf.size
    rw [length_append]
    omega
  · rw [SackStack.pop]
    dsimp only
    have hmax : max l.length (sf.cnt - 1) = l.length + l'.length := by omega
    have hk : sf.cnt - 1 - l.length = l'.length := by omega
    rw [update_apply, hmax, hk, foldl_shift, h.entry, h.entry]
    by_cases h1 : i = l.length + l'.length
    · rw [if_pos h1, getElem?_eq_none (by rw [length_append]; omega)]
      rfl
    · rw [if_neg h1]
      by_cases h2 : l.length ≤ i ∧ i < l.length + l'.length
      · rw [if_pos h2, getElem?_append_right (by omega), getElem?_append_right h2.1,
          show i + 1 - l.length = (i - l.length) + 1 by omega, getElem?_cons_succ]
      · rw [if_neg h2]
        by_cases h3 : i < l.length
        · rw [getElem?_append_left h3, getElem?_append_left h3]
        · rw [getElem?_eq_none (by simp; omega), getElem?_eq_none (by simp; omega)]

end SackStack

/-! ## `append_ack` -/

structure Sacker where
  acker : Acker
  baseNblocks : ℕ
  sf : SackStack

namespace Sacker

def init (n : ℕ) : Sacker := { acker := Acker.init, baseNblocks := n, sf := SackStack.init n }

/-- Look rightward for the first hole: `n` packets from `i` on. -/
def findRight (a : Acker) : ℕ → ℕ → Option ℕ
  | 0, _ => none
  | n + 1, i => if a.seen (a.slot i) = 0 then some i else findRight a n (i + 1)

/-- Look leftward for the first hole: `n` packets from `i` down. -/
def findLeft (a : Acker) : ℕ → ℕ → Option ℕ
  | 0, _ => none
  | n + 1, i => if a.seen (a.slot i) = 0 then some i else findLeft a n (i - 1)

/-- The right edge of the run of `oldSeqno`. -/
def sackRight (a : Acker) (oldSeqno : ℕ) : ℕ :=
  (findRight a (a.maxseen + 1 - oldSeqno) oldSeqno).getD (a.maxseen + 1)

/-- The left edge of the run that ends at `right`. -/
def sackLeft (a : Acker) (right : ℕ) : ℤ :=
  (findLeft a (right - a.next) (right - 1)).elim (-1) (fun i => i + 1)

/-- The loop over the earlier blocks. `blocks` are those in the header so far. -/
def history (recent : ℤ × ℤ) (maxseen : ℤ) (nblocks : ℕ) :
    ℕ → SackStack → ℕ → List (ℤ × ℤ) → Option (SackStack × List (ℤ × ℤ))
  | 0, _, _, _ => none
  | fuel + 1, sf, k, blocks =>
    if blocks.length < nblocks then
      let e := sf.sfe k
      if e.1 < 0 ∨ e.2 < 0 ∨ maxseen + 1 < e.2 then some (sf, blocks)
      else if recent.1 ≤ e.1 ∧ e.2 ≤ recent.2 then
        history recent maxseen nblocks fuel (sf.pop k) k blocks
      else history recent maxseen nblocks fuel sf (k + 1) (blocks ++ [e])
    else some (sf, blocks)

/-- The blocks of the acknowledgment, when there are any: the most recent one and the history.
`blocks` is the D-SACK block if there is one. -/
def build (s : Sacker) (oldSeqno : ℕ) (blocks : List (ℤ × ℤ)) :
    Option (Sacker × List (ℤ × ℤ)) :=
  let a := s.acker
  let right := sackRight a oldSeqno
  if oldSeqno < a.next then
    -- at or below the cumulative acknowledgment: the block is not sent
    (history (0, right) a.maxseen s.baseNblocks (s.sf.cnt + 1) s.sf 0 blocks).map
      (fun r => ({ s with sf := r.1 }, r.2))
  else
    let recent := (sackLeft a right, (right : ℤ))
    (history recent a.maxseen s.baseNblocks (s.sf.cnt + 1) s.sf 0 (blocks ++ [recent])).map
      (fun r => ({ s with sf := r.1.push.setHead recent }, r.2))

/-- `Sacker::append_ack`: the blocks that are written to the header. `Seqno()` is `next_ - 1`. -/
def appendAck (s : Sacker) (dsacks : Bool) (oldSeqno : ℕ) : Option (Sacker × List (ℤ × ℤ)) :=
  let a := s.acker
  if a.maxseen < a.next ∧ s.sf.cnt ≠ 0 then some ({ s with sf := s.sf.reset }, [])
  else if (a.next ≤ a.maxseen ∨ a.isDup) ∧ 0 < s.baseNblocks then
    let blocks := if dsacks && a.isDup then [((oldSeqno : ℤ), (oldSeqno : ℤ) + 1)] else []
    if s.baseNblocks ≤ blocks.length then some (s, blocks) else s.build oldSeqno blocks
  else some (s, [])

/-- A packet arrives: `update` and then `append_ack`. -/
def recv (dsacks : Bool) (s : Sacker) (pkt : ℕ × ℤ) : Option (Sacker × List (ℤ × ℤ)) :=
  (s.acker.update pkt.1 pkt.2).bind (fun r => { s with acker := r.1 }.appendAck dsacks pkt.1)

variable {a : Acker} {m m' : ℕ → ℤ} {s s' : Sacker} {sf : SackStack} {recent : ℤ × ℤ}
  {l pre rest blocks : List (ℤ × ℤ)} {seq : ℕ}

/-! ## The most recent block -/

def Seen (m : ℕ → ℤ) (x : ℤ) : Prop := 0 ≤ x ∧ m x.toNat ≠ 0

theorem seen_natCast {x : ℕ} : Seen m x ↔ m x ≠ 0 := by simp [Seen]

theorem findRight_spec {n i : ℕ} (habove : m (a.maxseen + 1) = 0)
    (hcells : ∀ x, i ≤ x → x ≤ a.maxseen + 1 → a.seen (a.slot x) = m x)
    (hn : i + n = a.maxseen + 1) :
    m ((findRight a n i).getD (a.maxseen + 1)) = 0 ∧
      i ≤ (findRight a n i).getD (a.maxseen + 1) ∧
      (findRight a n i).getD (a.maxseen + 1) ≤ a.maxseen + 1 ∧
      ∀ x, i ≤ x → x < (findRight a n i).getD (a.maxseen + 1) → m x ≠ 0 := by
  induction n generalizing i with
  | zero =>
    refine ⟨habove, by simp [findRight]; omega, le_rfl, fun x hx hx' => ?_⟩
    simp [findRight] at hx'
    omega
  | succ n ih =>
    rw [findRight, hcells i le_rfl (by omega)]
    split
    case isTrue hzero => exact ⟨hzero, le_rfl, by simp; omega, fun x hx hx' => by simp at hx'; omega⟩
    case isFalse hne =>
      obtain ⟨h1, h2, h3, h4⟩ := @ih (i + 1) (fun x hx => hcells x (by omega)) (by omega)
      refine ⟨h1, by omega, h3, fun x hx hx' => ?_⟩
      by_cases hxi : x = i
      · rw [hxi]
        exact hne
      · exact h4 x (by omega) hx'

theorem findLeft_spec (h : Acker.Window m a) {n i : ℕ} (hi : i ≤ a.maxseen + 1)
    (hn : a.next + n = i + 1) (hpos : 0 < n) :
    ∃ j, findLeft a n i = some j ∧ a.next ≤ j ∧ j ≤ i ∧ m j = 0 ∧ ∀ x, j < x → x ≤ i → m x ≠ 0 := by
  induction n generalizing i with
  | zero => omega
  | succ n ih =>
    rw [findLeft, h.cells i (by omega) hi]
    split
    case isTrue hzero => exact ⟨i, rfl, by omega, le_rfl, hzero, fun x hx hx' => by omega⟩
    case isFalse hne =>
      -- `next_` is missing, so the search does not end before it
      have hin : i ≠ a.next := fun heq => hne (by rw [heq]; exact h.missing)
      obtain ⟨j, hj, h1, h2, h3, h4⟩ := @ih (i - 1) (by omega) (by omega) (by omega)
      refine ⟨j, hj, h1, by omega, h3, fun x hx hx' => ?_⟩
      by_cases hxi : x = i
      · rw [hxi]
        exact hne
      · exact h4 x hx (by omega)

theorem recent_spec (h : Acker.Window m a) (hge : a.next ≤ seq) (hseen : m seq ≠ 0) :
    MaximalRun (Seen m) (sackLeft a (sackRight a seq)) (sackRight a seq) ∧
      sackLeft a (sackRight a seq) ≤ seq ∧ seq < sackRight a seq ∧
      (a.next : ℤ) < sackLeft a (sackRight a seq) ∧ sackRight a seq ≤ a.maxseen + 1 := by
  have hle : seq ≤ a.maxseen := by
    by_contra hlt
    exact hseen (h.above seq (by omega))
  obtain ⟨hr0, hr1, hr2, hr3⟩ :=
    @findRight_spec a m (a.maxseen + 1 - seq) seq (h.above _ (Nat.lt_succ_self _))
      (fun x hx => h.cells x (by omega)) (by omega)
  change m (sackRight a seq) = 0 at hr0
  change seq ≤ sackRight a seq at hr1
  change sackRight a seq ≤ a.maxseen + 1 at hr2
  change ∀ x, seq ≤ x → x < sackRight a seq → m x ≠ 0 at hr3
  generalize sackRight a seq = right at hr0 hr1 hr2 hr3 ⊢
  have hlt : seq ≠ right := fun heq => hseen (by rw [heq]; exact hr0)
  obtain ⟨j, hj, hl1, hl2, hl3, hl4⟩ :=
    @findLeft_spec a m h (right - a.next) (right - 1) (by omega) (by omega) (by omega)
  have hleft : sackLeft a right = j + 1 := by rw [sackLeft, hj]; rfl
  -- the hole is to the left of the packet
  have hjseq : j < seq := by
    by_contra hge'
    exact hr3 j (by omega) (by omega) hl3
  rw [hleft]
  refine ⟨⟨by omega, fun x hx hx' => ⟨by omega, hl4 x.toNat (by omega) (by omega)⟩, ?_, ?_⟩, by omega,
    by omega, by omega, hr2⟩
  · rw [add_sub_cancel_right, seen_natCast]
    exact not_not.mpr hl3
  · rw [seen_natCast]
    exact not_not.mpr hr0

/-! ## The history -/

/-- **The loop over the history** keeps, in order, blocks that the recent one does not cover, and
looks at all of them unless the header is full. -/
theorem history_spec {maxseen : ℤ} {nblocks fuel : ℕ} (h : sf.Holds (pre ++ rest))
    (hvalid : ∀ e ∈ rest, 0 ≤ e.1 ∧ 0 ≤ e.2 ∧ e.2 ≤ maxseen + 1) (hfuel : rest.length < fuel) :
    ∃ sf' kept left, history recent maxseen nblocks fuel sf pre.length blocks =
        some (sf', blocks ++ kept) ∧ sf'.Holds (pre ++ (kept ++ left)) ∧ sf'.size = sf.size ∧
      kept.Sublist rest ∧ (∀ e ∈ kept, ¬ (recent.1 ≤ e.1 ∧ e.2 ≤ recent.2)) ∧
      (left = [] ∨ nblocks ≤ blocks.length + kept.length) ∧
      (kept = [] ∨ blocks.length + kept.length ≤ nblocks) ∧
      kept.length + left.length ≤ rest.length := by
  induction fuel generalizing sf pre rest blocks with
  | zero => omega
  | succ fuel ih =>
    rw [history]
    split
    case isFalse hfull =>
      exact ⟨sf, [], rest, by simp, h, rfl, nil_sublist _, by simp,
        Or.inr (by simpa using hfull), Or.inl rfl, by simp⟩
    case isTrue hroom =>
      cases rest with
      | nil =>
        -- the entry behind the last one is empty
        have hend : sf.sfe pre.length = (-1, -1) := by
          rw [h.entry, getElem?_eq_none (by simp)]
          rfl
        rw [hend, if_pos (by simp)]
        exact ⟨sf, [], [], by simp, h, rfl, nil_sublist _, by simp, Or.inl rfl, Or.inl rfl,
          le_rfl⟩
      | cons e rest =>
        have hentry : sf.sfe pre.length = e := by
          rw [h.entry, getElem?_append_right le_rfl, Nat.sub_self]
          rfl
        obtain ⟨hv1, hv2, hv3⟩ := hvalid e (by simp)
        have hvalid' : ∀ e ∈ rest, 0 ≤ e.1 ∧ 0 ≤ e.2 ∧ e.2 ≤ maxseen + 1 :=
          fun e' he' => hvalid e' (by simp [he'])
        rw [hentry, if_neg (by omega)]
        rw [length_cons] at hfuel
        split
        case isTrue hcov =>
          obtain ⟨sf', kept, left, heq, hholds, hsize, hsub, hnot, hleft, hkept, hlen⟩ :=
            ih h.pop hvalid' (by omega)
          exact ⟨sf', kept, left, heq, hholds, hsize, hsub.trans (sublist_cons_self _ _),
            hnot, hleft, hkept, hlen.trans (Nat.le_succ _)⟩
        case isFalse hcov =>
          have h' : sf.Holds ((pre ++ [e]) ++ rest) := by simpa using h
          obtain ⟨sf', kept, left, heq, hholds, hsize, hsub, hnot, hleft, hkept, hlen⟩ :=
            @ih sf (pre ++ [e]) rest (blocks ++ [e]) h' hvalid' (by omega)
          simp only [length_append, length_cons, length_nil, append_assoc] at heq hholds hleft hkept
          refine ⟨sf', e :: kept, left, heq, hholds, hsize, hsub.cons_cons e, fun e' he' => ?_, ?_, ?_,
            ?_⟩
          · rcases mem_cons.mp he' with rfl | he'
            · exact hcov
            · exact hnot e' he'
          · exact hleft.imp_right (fun h => by rw [length_cons]; omega)
          · refine Or.inr ?_
            rw [length_cons]
            rcases hkept with rfl | hkept
            · simpa using hroom
            · omega
          · simp only [length_cons]
            omega

/-! ## One acknowledgment -/

/-- The blocks are maximal runs of received packets behind `next`, apart from each other, and at
most `n` of them. -/
structure Truthful (m : ℕ → ℤ) (next n : ℕ) (l : List (ℤ × ℤ)) : Prop where
  runs : ∀ b ∈ l, MaximalRun (Seen m) b.1 b.2
  above : ∀ b ∈ l, (next : ℤ) < b.1
  apart : l.Pairwise (fun b c => b.2 < c.1 ∨ c.2 < b.1)
  length : l.length ≤ n

theorem truthful_nil (m : ℕ → ℤ) (next n : ℕ) : Truthful m next n [] :=
  ⟨by simp, by simp, List.Pairwise.nil, Nat.zero_le _⟩

/-- What `update` does when the packet `seq` arrives. -/
structure Arrives (m : ℕ → ℤ) (a : Acker) (seq : ℕ) (m' : ℕ → ℤ) (a' : Acker) : Prop where
  before : Acker.Window m a
  after : Acker.Window m' a'
  seen : ∀ x, Seen m' x ↔ Seen m x ∨ x = seq
  cells : ∀ x, a.next ≤ x → x ≤ a'.maxseen + 1 → a'.seen (a'.slot x) = m' x

variable {a' : Acker} {e : ℤ × ℤ} {n : ℕ}

theorem Arrives.seen_self (h : Arrives m a seq m' a') : m' seq ≠ 0 :=
  seen_natCast.mp ((h.seen seq).mpr (Or.inr rfl))

/-- A run that the packet touches lies in an interval of received packets around the packet. -/
theorem Arrives.touches (h : Arrives m a seq m' a') (hrun : MaximalRun (Seen m) e.1 e.2) :
    MaximalRun (Seen m') e.1 e.2 ∨
      ∃ l r, (∀ x, l ≤ x → x < r → Seen m' x) ∧ l ≤ e.1 ∧ e.2 ≤ r ∧ l ≤ (seq : ℤ) ∧ seq < r ∧
        (l = seq ∨ r = seq + 1) := by
  have hlt := hrun.lt
  by_cases hl : (seq : ℤ) = e.1 - 1
  · refine Or.inr ⟨seq, e.2, fun x hx hx' => (h.seen x).mpr ?_, by omega, le_rfl, le_rfl, by omega,
      Or.inl rfl⟩
    by_cases hxs : x = seq
    · exact Or.inr hxs
    · exact Or.inl (hrun.mem x (by omega) hx')
  · by_cases hr : (seq : ℤ) = e.2
    · refine Or.inr ⟨e.1, seq + 1, fun x hx hx' => (h.seen x).mpr ?_, le_rfl, by omega, by omega,
        by omega, Or.inr rfl⟩
      by_cases hxs : x = seq
      · exact Or.inr hxs
      · exact Or.inl (hrun.mem x hx (by omega))
    · exact Or.inl ((hrun.insert hl hr).congr h.seen)

/-- The packet lies above the cumulative acknowledgment: a run that its block does not cover is
still maximal. -/
theorem Arrives.keep_above (h : Arrives m a seq m' a') (hge : a'.next ≤ seq)
    (hrun : MaximalRun (Seen m) e.1 e.2)
    (hnot : ¬ (sackLeft a' (sackRight a' seq) ≤ e.1 ∧ e.2 ≤ sackRight a' seq)) :
    MaximalRun (Seen m') e.1 e.2 := by
  obtain ⟨hmax, hl, hr, -, -⟩ := recent_spec h.after hge h.seen_self
  rcases h.touches hrun with hrun' | ⟨l, r, hmem, h1, h2, h3, h4, -⟩
  · exact hrun'
  · have := hmax.absorbs hmem hl (by omega) h3 h4
    exact absurd ⟨by omega, by omega⟩ hnot

/-- The packet is acknowledged: the runs that `next_` has passed are covered by `[0, next_)`. -/
theorem Arrives.keep_below (h : Arrives m a seq m' a') (hlt : seq < a'.next)
    (hrun : MaximalRun (Seen m) e.1 e.2) (habove : (a.next : ℤ) < e.1)
    (hnot : ¬ (0 ≤ e.1 ∧ e.2 ≤ sackRight a' seq)) : MaximalRun (Seen m') e.1 e.2 := by
  rcases h.touches hrun with hrun' | ⟨l, r, hmem, h1, h2, h3, h4, h5⟩
  · exact hrun'
  · rcases lt_or_ge seq a.next with hold | hge
    · -- a duplicate: nothing is new
      refine hrun.congr (fun x => (h.seen x).trans (or_iff_left_of_imp ?_))
      rintro rfl
      exact seen_natCast.mpr (h.before.below seq hold)
    · have hle := h.after.le
      obtain ⟨hr0, -, -, hr3⟩ := @findRight_spec a' m' (a'.maxseen + 1 - seq) seq
        (h.after.above _ (Nat.lt_succ_self _)) (fun x hx => h.cells x (by omega)) (by omega)
      change m' (sackRight a' seq) = 0 at hr0
      -- the packet fills the hole at the old `next_`
      have hright : e.2 ≤ sackRight a' seq := by
        by_contra hgt
        have hge' : seq ≤ sackRight a' seq := by
          by_contra hlt'
          exact h.after.below _ (by omega) hr0
        exact seen_natCast.mp (hmem (sackRight a' seq) (by omega) (by omega)) hr0
      exact absurd ⟨by omega, hright⟩ hnot

theorem Arrives.above (h : Arrives m a seq m' a') (hrun : MaximalRun (Seen m') e.1 e.2)
    (habove : (a.next : ℤ) < e.1) : (a'.next : ℤ) < e.1 := by
  by_contra hle
  refine hrun.before ⟨by omega, h.after.below _ ?_⟩
  omega

theorem Arrives.truthful (h : Arrives m a seq m' a') (hl : Truthful m a.next n l)
    {kept : List (ℤ × ℤ)} (hsub : kept.Sublist l) (hlen : kept.length ≤ n)
    (hrun : ∀ e ∈ kept, MaximalRun (Seen m') e.1 e.2) : Truthful m' a'.next n kept :=
  ⟨hrun, fun e he => h.above (hrun e he) (hl.above e (hsub.subset he)), hl.apart.sublist hsub, hlen⟩

theorem Arrives.valid (h : Arrives m a seq m' a') (hl : Truthful m a.next n l) :
    ∀ e ∈ l, 0 ≤ e.1 ∧ 0 ≤ e.2 ∧ e.2 ≤ (a'.maxseen : ℤ) + 1 := by
  intro e he
  have hrun := hl.runs e he
  have hlt := hrun.lt
  obtain ⟨h0, -⟩ := hrun.mem e.1 le_rfl hlt
  obtain ⟨-, hlast⟩ := (h.seen (e.2 - 1)).mpr (Or.inl (hrun.mem (e.2 - 1) (by omega) (by omega)))
  have hle : (e.2 - 1).toNat ≤ a'.maxseen := by
    by_contra hgt
    exact hlast (h.after.above _ (by omega))
  omega

structure Stacked (m : ℕ → ℤ) (n : ℕ) (s : Sacker) (l : List (ℤ × ℤ)) : Prop where
  nblocks : s.baseNblocks = n
  size : s.sf.size = n
  holds : s.sf.Holds l
  truthful : Truthful m s.acker.next n l

theorem Arrives.build_below (h : Arrives m a seq m' s.acker) (hlt : seq < s.acker.next)
    (hn : s.baseNblocks = n) (hsize : s.sf.size = n) (hl : s.sf.Holds l)
    (ht : Truthful m a.next n l) :
    ∃ s' blocks, s.build seq [] = some (s', blocks) ∧ s'.acker = s.acker ∧
      Stacked m' n s' blocks := by
  have hcnt := hl.cnt
  obtain ⟨sf', kept, left, heq, hholds, hsize', hsub, hnot, hleft, -, hlen⟩ :=
    @history_spec s.sf (0, (sackRight s.acker seq : ℤ)) [] l [] s.acker.maxseen s.baseNblocks
      (s.sf.cnt + 1) hl (h.valid ht) (by omega)
  -- the header has a place for every entry of the stack
  have hnil : left = [] := by
    rcases hleft with hnil | hfull
    · exact hnil
    · have := ht.length
      rw [length_nil] at hfull
      exact length_eq_zero_iff.mp (by omega)
  rw [hnil, append_nil, nil_append] at hholds
  refine ⟨{ s with sf := sf' }, kept, ?_, rfl, hn, hsize'.trans hsize, hholds, ?_⟩
  · rw [build]
    rw [if_pos hlt, ← length_nil, heq]
    rfl
  · refine h.truthful ht hsub (hsub.length_le.trans ht.length) (fun e he => ?_)
    exact h.keep_below hlt (ht.runs e (hsub.subset he)) (ht.above e (hsub.subset he)) (hnot e he)

theorem Arrives.build_above (h : Arrives m a seq m' s.acker) (hge : s.acker.next ≤ seq)
    (hn : s.baseNblocks = n) (hpos : 0 < n) (hsize : s.sf.size = n) (hl : s.sf.Holds l)
    (ht : Truthful m a.next n l) :
    ∃ s' blocks, s.build seq [] = some (s', blocks) ∧ s'.acker = s.acker ∧
      Stacked m' n s' blocks ∧ ∃ b, blocks.head? = some b ∧ b.1 ≤ seq ∧ seq < b.2 := by
  have hcnt := hl.cnt
  obtain ⟨hmax, hr1, hr2, hr3, hr4⟩ := recent_spec h.after hge h.seen_self
  obtain ⟨recent, hrecent⟩ : ∃ recent : ℤ × ℤ, recent =
    (sackLeft s.acker (sackRight s.acker seq), (sackRight s.acker seq : ℤ)) := ⟨_, rfl⟩
  obtain ⟨sf', kept, left, heq, hholds, hsize', hsub, hnot, hleft, hkept, -⟩ :=
    @history_spec s.sf recent [] l [recent] s.acker.maxseen s.baseNblocks
      (s.sf.cnt + 1) hl (h.valid ht) (by omega)
  rw [length_singleton] at hleft hkept
  have hklen : kept.length ≤ n - 1 := by
    rcases hkept with rfl | hle
    · exact Nat.zero_le _
    · omega
  -- what the loop has not looked at falls off the stack
  have htake : (kept ++ left).take (n - 1) = kept := by
    rcases hleft with rfl | hfull
    · rw [append_nil, take_of_length_le hklen]
    · rw [take_append_of_le_length (by omega), take_of_length_le hklen]
  have hpush := hholds.push (b := recent) (by rw [hsize', hsize]; exact hpos)
  rw [nil_append, hsize', hsize, htake] at hpush
  have hkeep : ∀ e ∈ kept, MaximalRun (Seen m') e.1 e.2 := by
    intro e he
    have hnot' := hnot e he
    rw [hrecent] at hnot'
    exact h.keep_above hge (ht.runs e (hsub.subset he)) hnot'
  have hkt := h.truthful ht hsub (by omega) hkeep
  have hrun : MaximalRun (Seen m') recent.1 recent.2 := by
    rw [hrecent]
    exact hmax
  refine ⟨{ s with sf := sf'.push.setHead recent }, recent :: kept, ?_, rfl,
    ⟨hn, hsize'.trans hsize, hpush, ⟨?_, ?_, ?_, ?_⟩⟩, recent, rfl, ?_, ?_⟩
  · rw [build]
    dsimp only
    rw [if_neg (not_lt.mpr hge), ← hrecent, nil_append, ← length_nil, heq]
    rfl
  · intro e he
    rcases mem_cons.mp he with rfl | he
    · exact hrun
    · exact hkeep e he
  · intro e he
    rcases mem_cons.mp he with rfl | he
    · rw [hrecent]
      exact hr3
    · exact hkt.above e he
  · refine pairwise_cons.mpr ⟨fun e he => ?_, hkt.apart⟩
    rcases hrun.eq_or_apart (hkeep e he) with ⟨h1, h2⟩ | hapart
    · exact absurd ⟨h1.le, h2.ge⟩ (hnot e he)
    · exact hapart
  · rw [length_cons]
    omega
  · rw [hrecent]
    exact hr1
  · rw [hrecent]
    exact Int.ofNat_lt.mpr hr2

/-- **One acknowledgment**: afterwards the stack is the list of the written blocks, and they are
truthful. -/
theorem appendAck_spec (h : Arrives m a seq m' s.acker) (hn : s.baseNblocks = n) (hpos : 0 < n)
    (hsize : s.sf.size = n) (hl : s.sf.Holds l) (ht : Truthful m a.next n l) :
    ∃ s' blocks, s.appendAck false seq = some (s', blocks) ∧ s'.acker = s.acker ∧
      Stacked m' n s' blocks ∧
      (s.acker.next ≤ seq → ∃ b, blocks.head? = some b ∧ b.1 ≤ seq ∧ seq < b.2) := by
  -- the packet is at most `maxseen_`, so it is acknowledged when everything is
  have hseq : seq ≤ s.acker.maxseen := by
    by_contra hlt
    exact h.seen_self (h.after.above seq (by omega))
  rw [appendAck]
  dsimp only
  split
  case isTrue hall =>
    exact ⟨_, _, rfl, rfl, ⟨hn, hsize, hl.reset, truthful_nil _ _ _⟩, fun hge => by omega⟩
  case isFalse hnot =>
    split
    case isTrue hsome =>
      rw [Bool.false_and, if_neg Bool.false_ne_true, length_nil, if_neg (by omega)]
      rcases lt_or_ge seq s.acker.next with hlt | hge
      · obtain ⟨s', blocks, heq, hack, hst⟩ := h.build_below hlt hn hsize hl ht
        exact ⟨s', blocks, heq, hack, hst, fun hge => by omega⟩
      · obtain ⟨s', blocks, heq, hack, hst, hfirst⟩ := h.build_above hge hn hpos hsize hl ht
        exact ⟨s', blocks, heq, hack, hst, fun _ => hfirst⟩
    case isFalse hnone =>
      have hall : s.acker.maxseen < s.acker.next := by
        by_contra hlt
        exact hnone ⟨Or.inl (not_lt.mp hlt), by omega⟩
      have hcnt : s.sf.cnt = 0 := by
        by_contra hne
        exact hnot ⟨hall, hne⟩
      have hnil : l = [] := length_eq_zero_iff.mp (hl.cnt.symm.trans hcnt)
      subst hnil
      exact ⟨s, [], rfl, rfl, ⟨hn, hsize, hl, truthful_nil _ _ _⟩, fun hge => by omega⟩

/-! ## Runs -/

/-- The packet `x` is among those that have arrived. -/
def Arrived (pkts : List (ℕ × ℤ)) (x : ℤ) : Prop := ∃ p ∈ pkts, (p.1 : ℤ) = x

/-- What holds after the packets `past` have arrived. -/
def Tracks (n : ℕ) (past : List (ℕ × ℤ)) (s : Sacker) : Prop :=
  ∃ m l, Acker.Window m s.acker ∧ (∀ x, Seen m x ↔ Arrived past x) ∧ Stacked m n s l

theorem update_of_recv {dsack : Bool} {pkt : ℕ × ℤ} {s' : Sacker} {blocks : List (ℤ × ℤ)}
    (h : s.recv dsack pkt = some (s', blocks)) :
    ∃ r : Acker × ℤ, s.acker.update pkt.1 pkt.2 = some (r.1, r.2) := by
  rw [Sacker.recv, Option.bind_eq_some_iff] at h
  exact ⟨_, h.choose_spec.1⟩

theorem Tracks.update {past : List (ℕ × ℤ)} (h : Tracks n past s) {pkt : ℕ × ℤ} (hpos : 0 < pkt.2)
    (hseq : pkt.1 + 2 < 2 ^ 31) (hgap : pkt.1 + 2 < s.acker.next + 2 ^ 30)
    (hmax : s.acker.maxseen + 2 < 2 ^ 31) :
    ∃ a' d, s.acker.update pkt.1 pkt.2 = some (a', d) := by
  obtain ⟨m, l, hwin, -⟩ := h
  exact Acker.update_some hwin hpos hseq hgap hmax

/-- **One arrival**: once `update` has taken the packet, the acknowledgment is built and truthful. -/
theorem Tracks.recv {past : List (ℕ × ℤ)} (h : Tracks n past s) (hn : 0 < n) {pkt : ℕ × ℤ}
    (hpos : 0 < pkt.2) {a' : Acker} {d : ℤ} (hupd : s.acker.update pkt.1 pkt.2 = some (a', d)) :
    ∃ s' blocks, s.recv false pkt = some (s', blocks) ∧
      s'.acker.maxseen = max s.acker.maxseen pkt.1 ∧ Tracks n (past ++ [pkt]) s' ∧
      (∀ b ∈ blocks, MaximalRun (Arrived (past ++ [pkt])) b.1 b.2 ∧ s'.acker.seqno < b.1) ∧
      blocks.Pairwise (fun b c => b.2 ≤ c.1 ∨ c.2 ≤ b.1) ∧ blocks.length ≤ n ∧
      (s'.acker.seqno < pkt.1 → ∃ b, blocks.head? = some b ∧ b.1 ≤ pkt.1 ∧ pkt.1 < b.2) := by
  obtain ⟨m, l, hwin, hseen, hst⟩ := h
  obtain ⟨hwin', -, hmax, -, -, hcells⟩ := Acker.update_spec hwin hpos hupd
  have hseen' : ∀ x, Seen (Acker.record m pkt.1 pkt.2) x ↔ Seen m x ∨ x = pkt.1 := by
    intro x
    constructor
    · rintro ⟨h0, hne⟩
      rcases Acker.record_eq m pkt.1 pkt.2 x.toNat with heq | ⟨heq, -⟩
      · exact Or.inl ⟨h0, heq ▸ hne⟩
      · exact Or.inr (by omega)
    · rintro (⟨h0, hne⟩ | rfl)
      · exact ⟨h0, Acker.record_ne_zero hpos (Or.inl hne)⟩
      · exact seen_natCast.mpr (Acker.record_ne_zero hpos (Or.inr rfl))
  have harr : ∀ x, Seen (Acker.record m pkt.1 pkt.2) x ↔ Arrived (past ++ [pkt]) x := by
    intro x
    rw [hseen' x, hseen x]
    simp only [Arrived, mem_append, mem_singleton, or_and_right, exists_or,
      exists_eq_left]
    rw [eq_comm (a := x)]
  have harrives : Arrives m s.acker pkt.1 (Acker.record m pkt.1 pkt.2)
      ({ s with acker := a' } : Sacker).acker := ⟨hwin, hwin', hseen', hcells⟩
  obtain ⟨s', blocks, heq, hack, hst', hfirst⟩ :=
    appendAck_spec harrives hst.nblocks hn hst.size hst.holds hst.truthful
  have hnext : s'.acker.next = a'.next := by rw [hack]
  refine ⟨s', blocks, ?_, ?_, ⟨_, blocks, ?_, harr, hst'⟩, fun b hb => ⟨?_, ?_⟩, ?_, ?_,
    fun hlt => ?_⟩
  · rw [Sacker.recv, hupd, Option.bind_some, heq]
  · rw [hack]
    exact hmax
  · rw [hack]
    exact hwin'
  · exact (hst'.truthful.runs b hb).congr (fun x => (harr x).symm)
  · have := hst'.truthful.above b hb
    rw [Acker.seqno]
    omega
  · exact hst'.truthful.apart.imp (fun h => h.imp le_of_lt le_of_lt)
  · exact hst'.truthful.length
  · rw [Acker.seqno, hnext] at hlt
    refine hfirst ?_
    show a'.next ≤ pkt.1
    omega

/-- The packet and its gap stay within the `int`s. -/
def Fits (s : Sacker) (pkt : ℕ × ℤ) : Prop := pkt.1 + 2 < 2 ^ 31 ∧ pkt.1 + 2 < s.acker.next + 2 ^ 30

instance (s : Sacker) (pkt : ℕ × ℤ) : Decidable (Fits s pkt) :=
  inferInstanceAs (Decidable (pkt.1 + 2 < 2 ^ 31 ∧ pkt.1 + 2 < s.acker.next + 2 ^ 30))

/-- **The SACK blocks are truthful.** Whatever packets have arrived, the blocks in the
acknowledgment of the next one are maximal runs of packets that have arrived, lie above the
cumulative acknowledgment, are disjoint and at most as many as allowed; and the first one contains
the packet if it lies above the cumulative acknowledgment. While the packets stay within the `int`s,
every one is acknowledged. -/
theorem sacks_truthful {pkts : List (ℕ × ℤ)} {pkt : ℕ × ℤ} (hn : 1 ≤ n)
    (hpos : ∀ p ∈ pkts ++ [pkt], 0 < p.2) :
    (∀ s outs s' blocks, Runs.run (recv false) (init n) pkts = some (s, outs) →
      s.recv false pkt = some (s', blocks) →
      (∀ b ∈ blocks, MaximalRun (Arrived (pkts ++ [pkt])) b.1 b.2 ∧ s'.acker.seqno < b.1) ∧
      blocks.Pairwise (fun b c => b.2 ≤ c.1 ∨ c.2 ≤ b.1) ∧ blocks.length ≤ n ∧
      (s'.acker.seqno < pkt.1 → ∃ b, blocks.head? = some b ∧ b.1 ≤ pkt.1 ∧ pkt.1 < b.2)) ∧
    (Runs.Meets (recv false) Fits (init n) (pkts ++ [pkt]) →
      ∃ s outs s' blocks, Runs.run (recv false) (init n) pkts = some (s, outs) ∧
        s.recv false pkt = some (s', blocks)) := by
  have hinit : Tracks n [] (init n) := by
    refine ⟨fun _ => 0, [], Acker.window_init, fun x => ?_, rfl, rfl, SackStack.holds_init n,
      truthful_nil _ _ _⟩
    simp [Seen, Arrived]
  have hpast : ∀ p ∈ pkts, 0 < p.2 := fun p hp => hpos p (mem_append_left _ hp)
  have hlast : 0 < pkt.2 := hpos pkt (by simp)
  constructor
  · intro s outs s' blocks hrun hrecv
    have h : Tracks n pkts s := by
      refine @Runs.run_keeps _ _ _ (recv false) (fun _ p => 0 < p.2) (init n) s pkts [] outs []
        (fun past _ s => Tracks n past s) (fun past _ s p s' o h hp hs => ?_) hinit
        (Runs.meets_of_forall hpast) hrun
      obtain ⟨_, hupd⟩ := update_of_recv hs
      obtain ⟨_, _, heq, -, h', -⟩ := h.recv hn hp hupd
      rw [hs] at heq
      cases heq
      exact h'
    obtain ⟨_, hupd⟩ := update_of_recv hrecv
    obtain ⟨_, _, heq, -, -, hrest⟩ := h.recv hn hlast hupd
    rw [hrecv] at heq
    cases heq
    exact hrest
  · intro hfits
    obtain ⟨hmeets, hfit⟩ := Runs.meets_concat.mp hfits
    obtain ⟨s, outs, hrun, h, hsmall⟩ := @Runs.run_invariant _ _ _ (recv false)
      (fun s p => Fits s p ∧ 0 < p.2) (init n) pkts
      (fun past _ s => Tracks n past s ∧ s.acker.maxseen + 2 < 2 ^ 31)
      (fun past _ s p h hp => by
        obtain ⟨⟨hseq, hgap⟩, hp⟩ := hp
        obtain ⟨a', d, hupd⟩ := h.1.update hp hseq hgap h.2
        obtain ⟨s', blocks, heq, hmax, h', -⟩ := h.1.recv hn hp hupd
        have hsmall := h.2
        exact ⟨s', blocks, heq, h', by omega⟩)
      ⟨hinit, show 0 + 2 < 2 ^ 31 by omega⟩ (hmeets.and_forall hpast)
    obtain ⟨hseq, hgap⟩ := hfit _ hrun
    obtain ⟨a', d, hupd⟩ := h.update hlast hseq hgap hsmall
    obtain ⟨s', blocks, heq, -⟩ := h.recv hn hlast hupd
    exact ⟨s, outs, s', blocks, hrun, heq⟩

/-- With two blocks: three runs above a hole, and a packet that joins the last two. -/
theorem sacks_truthful_join :
    (∀ p ∈ [((0 : ℕ), (40 : ℤ)), (2, 40), (5, 40), (7, 40)] ++ [(6, 40)], 0 < p.2) ∧
    ∃ s outs s' blocks,
      Runs.run (recv false) (init 2) [(0, 40), (2, 40), (5, 40), (7, 40)] = some (s, outs) ∧
      s.recv false (6, 40) = some (s', blocks) ∧
      (∀ b ∈ blocks, MaximalRun (Arrived ([(0, 40), (2, 40), (5, 40), (7, 40)] ++ [(6, 40)])) b.1 b.2 ∧
        s'.acker.seqno < b.1) ∧
      blocks.Pairwise (fun b c => b.2 ≤ c.1 ∨ c.2 ≤ b.1) ∧ blocks.length ≤ 2 ∧
      (s'.acker.seqno < 6 → ∃ b, blocks.head? = some b ∧ b.1 ≤ 6 ∧ 6 < b.2) := by
  have hpos : ∀ p ∈ [((0 : ℕ), (40 : ℤ)), (2, 40), (5, 40), (7, 40)] ++ [(6, 40)], 0 < p.2 := by
    decide
  refine ⟨hpos, ?_⟩
  obtain ⟨htruth, hthrough⟩ := sacks_truthful (show 1 ≤ 2 by decide) hpos
  obtain ⟨s, outs, s', blocks, hrun, hrecv⟩ := hthrough (by decide +kernel)
  exact ⟨s, outs, s', blocks, hrun, hrecv, htruth s outs s' blocks hrun hrecv⟩

end Sacker

end NetSim
