import Mathlib.Algebra.BigOperators.Group.List.Basic
import NetSim.Dccp.AckVector
import NetSim.Lib.Runs

/-! # The ack vector refines a map from sequence numbers to states

`Shows v bs` says that the ring holds the bytes `bs` from `head_` to `tail_`. Decoded, the bytes are
the states of the packets from `seq_head_` down to `seq_tail_` (`expand`), and each operation of the
vector is an operation on that list: packets are put in front (`addItems_spec`), one of them is set
(`alterState_spec`), and the oldest are dropped (`removePackets_spec`).
-/

namespace NetSim.DccpAckVector

open List

variable {v v' : DccpAckVector} {bs l r : List ℕ} {b s n : ℕ} {st : PacketState}

/-! ## Bytes -/

/-- The states that a byte stands for. -/
def decode (b : ℕ) : List PacketState := List.replicate (runlen b + 1) (stateBits b)

/-- The states of the packets, the newest first. -/
def expand (bs : List ℕ) : List PacketState := bs.flatMap decode

theorem runlen_lt (b : ℕ) : runlen b < 64 := Nat.mod_lt b (by decide)

theorem runlen_item (st : PacketState) (hn : n < 64) : runlen (item st n) = n := by
  rw [runlen, item]
  omega

theorem stateBits_item (st : PacketState) (hn : n < 64) : stateBits (item st n) = st := by
  rw [stateBits, item, show (st.toBits * 64 + n) / 64 = st.toBits by omega]
  cases st <;> rfl

theorem decode_item (st : PacketState) (hn : n < 64) :
    decode (item st n) = List.replicate (n + 1) st := by
  rw [decode, runlen_item st hn, stateBits_item st hn]

@[simp] theorem length_decode (b : ℕ) : (decode b).length = runlen b + 1 := length_replicate

@[simp] theorem expand_nil : expand [] = [] := rfl

@[simp] theorem expand_cons : expand (b :: bs) = decode b ++ expand bs := rfl

@[simp] theorem expand_append : expand (l ++ r) = expand l ++ expand r := flatMap_append

theorem length_expand_pos (h : bs ≠ []) : 0 < (expand bs).length := by
  cases bs with
  | nil => exact absurd rfl h
  | cons b bs =>
    rw [expand_cons, length_append, length_decode]
    omega

theorem expand_replicate (st : PacketState) (hn : n < 64) (count : ℕ) :
    expand (List.replicate count (item st n)) = List.replicate ((n + 1) * count) st := by
  induction count with
  | zero => simp
  | succ count ih =>
    rw [replicate_succ, expand_cons, ih, decode_item st hn, ← replicate_add]
    congr 1
    rw [Nat.mul_succ]
    omega

theorem getElem?_expand {d : ℕ} (hd : d ≤ runlen b) :
    (expand (l ++ b :: r))[(expand l).length + d]? = some (stateBits b) := by
  rw [expand_append, expand_cons, getElem?_append_right (by omega), Nat.add_sub_cancel_left,
    getElem?_append_left (by rw [length_decode]; omega), decode, getElem?_replicate]
  exact if_pos (by omega)

theorem u32_eq {x : ℤ} (h1 : 0 ≤ x) (h2 : x < 2 ^ 32) : (u32 x : ℤ) = x := by
  rw [u32, Int.emod_eq_of_lt h1 h2]
  omega

/-! ## The ring -/

/-- The ring holds the bytes `bs`, which stand for the packets from `seq_head_` to `seq_tail_`. -/
structure Shows (v : DccpAckVector) (bs : List ℕ) : Prop where
  ne : bs ≠ []
  two : 2 ≤ v.maxSize
  maxLe : v.maxSize ≤ dccpMaxAckvSize
  headLt : v.head < v.maxSize
  cells : Ring.Holds v.maxSize v.vector v.head bs
  size : v.size = bs.length
  le : bs.length ≤ v.maxSize
  tail : v.tail = (v.head + bs.length - 1) % v.maxSize
  span : v.seqTail + (expand bs).length = v.seqHead + 1
  seqLt : v.seqHead < 2 ^ 32

theorem Shows.size_pos (h : Shows v bs) : 0 < bs.length := length_pos_of_ne_nil h.ne

theorem Shows.tail_le (h : Shows v bs) : v.seqTail ≤ v.seqHead := by
  have := h.span
  have := length_expand_pos h.ne
  omega

structure SameSeq (v v' : DccpAckVector) : Prop where
  head : v'.seqHead = v.seqHead
  tail : v'.seqTail = v.seqTail
  ene : v'.ene = v.ene

theorem SameSeq.refl (v : DccpAckVector) : SameSeq v v := ⟨rfl, rfl, rfl⟩

theorem SameSeq.trans {v'' : DccpAckVector} (h : SameSeq v v') (h' : SameSeq v' v'') : SameSeq v v'' :=
  ⟨h'.head.trans h.head, h'.tail.trans h.tail, h'.ene.trans h.ene⟩

theorem Shows.double (h : Shows v bs) (hmax : v.maxSize ≠ dccpMaxAckvSize) :
    v.doubleMaxSize.2 = true ∧ Shows v.doubleMaxSize.1 bs ∧ SameSeq v v.doubleMaxSize.1 ∧
      v.maxSize < v.doubleMaxSize.1.maxSize := by
  have hpos := h.size_pos
  have hsize := h.size
  have hle := h.le
  have hmaxLe := h.maxLe
  have hlt : v.maxSize < min (v.maxSize * 2) dccpMaxAckvSize := lt_min (by omega) (by omega)
  have hmin := Nat.min_le_right (v.maxSize * 2) dccpMaxAckvSize
  rw [doubleMaxSize, if_neg hmax]
  refine ⟨rfl, ⟨h.ne, ?_, ?_, ?_, ?_, h.size, ?_, ?_, h.span, h.seqLt⟩, ⟨rfl, rfl, rfl⟩, hlt⟩
  · show 2 ≤ min (v.maxSize * 2) dccpMaxAckvSize
    omega
  · exact hmin
  · show (if 0 < v.size then 0 else v.head) < min (v.maxSize * 2) dccpMaxAckvSize
    rw [if_pos (by omega)]
    omega
  · show Ring.Holds (min (v.maxSize * 2) dccpMaxAckvSize) _ (if 0 < v.size then 0 else v.head) bs
    rw [if_pos (by omega), Ring.holds_iff]
    intro k hk
    rw [Nat.zero_add, Nat.mod_eq_of_lt (by omega)]
    show (if k < v.size then v.vector ((v.head + k) % v.maxSize) else 0) = bs[k]
    rw [if_pos (by omega)]
    exact Ring.holds_iff.mp h.cells k hk
  · show bs.length ≤ min (v.maxSize * 2) dccpMaxAckvSize
    omega
  · show (if 0 < v.size then v.size - 1 else v.tail) =
      ((if 0 < v.size then 0 else v.head) + bs.length - 1) % min (v.maxSize * 2) dccpMaxAckvSize
    rw [if_pos (by omega), if_pos (by omega), Nat.mod_eq_of_lt (by omega)]
    omega

/-! ## Adding items -/

theorem fill_eq {a count fuel i : ℕ} {vector : ℕ → ℕ} (hcount : count < n) (hfuel : count ≤ fuel) :
    fill n a ((i + count) % n) fuel (i % n) vector =
      Ring.store n (List.replicate count a) (i % n) vector := by
  induction count generalizing i fuel vector with
  | zero =>
    cases fuel with
    | zero => rfl
    | succ fuel =>
      rw [fill, if_pos (by rw [Nat.add_zero])]
      rfl
  | succ count ih =>
    cases fuel with
    | zero => omega
    | succ fuel =>
      have hne : i % n ≠ (i + (count + 1)) % n := Ring.mod_ne (by omega) (by omega)
      rw [fill, if_neg hne, replicate_succ, Ring.store, Nat.mod_add_mod,
        show i + (count + 1) = i + 1 + count by omega]
      exact ih (by omega) (by omega)

theorem back_mod {head count : ℕ} (hcount : count ≤ n) :
    ((head + n - count) % n + count) % n = head % n := by
  rw [Nat.mod_add_mod, show head + n - count + count = head + n by omega, Nat.add_mod_right]

structure Kept (v v' : DccpAckVector) (bs : List ℕ) : Prop where
  shows : Shows v' bs
  same : SameSeq v v'

structure Fronted (v v' : DccpAckVector) (items bs : List ℕ) : Prop where
  shows : Shows v' (items ++ bs)
  seqHead : v'.seqHead = v.seqHead + (expand items).length
  seqTail : v'.seqTail = v.seqTail

theorem Fronted.trans {v'' : DccpAckVector} {items items' : List ℕ} (h : Fronted v v' items bs)
    (h' : Fronted v' v'' items' (items ++ bs)) : Fronted v v'' (items' ++ items) bs := by
  refine ⟨?_, ?_, h'.seqTail.trans h.seqTail⟩
  · rw [append_assoc]
    exact h'.shows
  · rw [h'.seqHead, h.seqHead, expand_append, length_append]
    omega

theorem addItems_room {runlen count fuel : ℕ} (h : Shows v bs) (hn : runlen < 64)
    (hroom : bs.length + count ≤ v.maxSize) (hseq : v.seqHead + (runlen + 1) * count < 2 ^ 32) :
    (addItems st runlen count (fuel + 1) v).2 = true ∧
      Fronted v (addItems st runlen count (fuel + 1) v).1
        (List.replicate count (item st runlen)) bs := by
  have hpos := h.size_pos
  have hsize := h.size
  have hheadLt := h.headLt
  have hseq' : u32 (v.seqHead + (runlen + 1) * count) = v.seqHead + (runlen + 1) * count := by
    have hcast : ((v.seqHead : ℤ) + (runlen + 1) * count) =
        ((v.seqHead + (runlen + 1) * count : ℕ) : ℤ) := by rfl
    rw [hcast]
    have := u32_eq (x := ((v.seqHead + (runlen + 1) * count : ℕ) : ℤ)) (by omega) (by omega)
    omega
  -- the new head, and the cells from there on
  have hback := @back_mod v.maxSize v.head count (by omega)
  have hstop : v.head = ((v.head + v.maxSize - count) % v.maxSize + count) % v.maxSize := by
    rw [hback, Nat.mod_eq_of_lt hheadLt]
  have hfill : fill v.maxSize (item st runlen) v.head v.maxSize
      ((v.head + v.maxSize - count) % v.maxSize) v.vector =
      Ring.store v.maxSize (List.replicate count (item st runlen))
        ((v.head + v.maxSize - count) % v.maxSize) v.vector := by
    have := @fill_eq v.maxSize (item st runlen) count v.maxSize
      ((v.head + v.maxSize - count) % v.maxSize) v.vector (by omega) (by omega)
    rw [← hstop, Nat.mod_mod] at this
    exact this
  have hcells : Ring.Holds v.maxSize (Ring.store v.maxSize (List.replicate count (item st runlen))
      ((v.head + v.maxSize - count) % v.maxSize) v.vector)
      ((v.head + v.maxSize - count) % v.maxSize) (List.replicate count (item st runlen) ++ bs) := by
    have hold : Ring.Holds v.maxSize v.vector
        ((v.head + v.maxSize - count) % v.maxSize + ([] : List ℕ).length +
          (List.replicate count (item st runlen)).length) bs := by
      rw [length_nil, Nat.add_zero, length_replicate]
      refine (Ring.holds_mod ?_).mp h.cells
      rw [hback]
    have := @Ring.Holds.store ℕ ((v.head + v.maxSize - count) % v.maxSize) v.maxSize v.vector bs []
      (List.replicate count (item st runlen)) trivial hold
      (by rw [length_nil, length_replicate]; omega)
    simpa using this
  have hlen : (List.replicate count (item st runlen) ++ bs).length = count + bs.length := by simp
  rw [addItems, if_neg (by omega)]
  dsimp only
  refine ⟨rfl, ⟨by simp [h.ne], h.two, h.maxLe, Nat.mod_lt _ (by omega), ?_, ?_, ?_, ?_, ?_, ?_⟩, ?_,
    rfl⟩
  · rw [hfill]
    exact hcells
  · show v.size + count = _
    omega
  · show _ ≤ v.maxSize
    omega
  · rw [h.tail, hlen, show (v.head + v.maxSize - count) % v.maxSize + (count + bs.length) - 1 =
      ((v.head + v.maxSize - count) % v.maxSize + count) + (bs.length - 1) by omega,
      Nat.add_mod, hback, ← Nat.add_mod]
    congr 1
    omega
  · show v.seqTail + _ = (if v.size ≠ 0 then u32 (v.seqHead + (runlen + 1) * count) else v.seqHead) + 1
    rw [if_pos (by omega), hseq', expand_append, length_append, expand_replicate st hn,
      length_replicate]
    have := h.span
    omega
  · rw [if_pos (by omega), hseq']
    exact hseq
  · rw [if_pos (by omega), hseq', expand_replicate st hn, length_replicate]

theorem growths_pos (h : v.maxSize ≤ dccpMaxAckvSize) : 0 < v.growths := by
  rw [growths]
  omega

theorem Kept.double (h : Shows v bs) (hmax : v.maxSize ≠ dccpMaxAckvSize)
    (hk : Kept v.doubleMaxSize.1 v' bs) : Kept v v' bs :=
  ⟨hk.shows, (h.double hmax).2.2.1.trans hk.same⟩

theorem Fronted.double {items : List ℕ} (h : Shows v bs) (hmax : v.maxSize ≠ dccpMaxAckvSize)
    (hf : Fronted v.doubleMaxSize.1 v' items bs) : Fronted v v' items bs := by
  have hsame := (h.double hmax).2.2.1
  exact ⟨hf.shows, by rw [hf.seqHead, hsame.head], hf.seqTail.trans hsame.tail⟩

/-- **Adding items.** The ring is doubled until there is room, and only a ring that is at its
maximum refuses the items. -/
theorem addItems_spec {runlen count fuel : ℕ} (h : Shows v bs) (hn : runlen < 64)
    (hfuel : v.growths ≤ fuel) (hseq : v.seqHead + (runlen + 1) * count < 2 ^ 32) :
    ((addItems st runlen count fuel v).2 = true ∧
        Fronted v (addItems st runlen count fuel v).1 (List.replicate count (item st runlen)) bs) ∨
      (dccpMaxAckvSize < bs.length + count ∧ (addItems st runlen count fuel v).2 = false ∧
        Kept v (addItems st runlen count fuel v).1 bs) := by
  induction fuel generalizing v with
  | zero =>
    have := growths_pos h.maxLe
    omega
  | succ fuel ih =>
    by_cases hroom : bs.length + count ≤ v.maxSize
    · exact Or.inl (addItems_room h hn hroom hseq)
    · have hsize := h.size
      rw [addItems, if_pos (by omega)]
      by_cases hmax : v.maxSize = dccpMaxAckvSize
      · rw [show v.doubleMaxSize = (v, false) by rw [doubleMaxSize, if_pos hmax],
          if_neg (by simp)]
        exact Or.inr ⟨by omega, rfl, h, SameSeq.refl v⟩
      · obtain ⟨htrue, hshows, hsame, hlt⟩ := h.double hmax
        rw [if_pos htrue]
        have hgrow : v.doubleMaxSize.1.growths ≤ fuel := by
          rw [growths] at hfuel ⊢
          omega
        rcases ih hshows hgrow (by rw [hsame.head]; exact hseq) with ⟨ht, hf⟩ | ⟨hlong, hf, hk⟩
        · exact Or.inl ⟨ht, hf.double h hmax⟩
        · exact Or.inr ⟨hlong, hf, hk.double h hmax⟩

theorem addPacket_first {fuel : ℕ} (hsize : v.size = 0) (htwo : 2 ≤ v.maxSize)
    (hmax : v.maxSize ≤ dccpMaxAckvSize) (hs : s < 2 ^ 32) :
    (addPacket s st (fuel + 1) v).2 = true ∧
      Shows (addPacket s st (fuel + 1) v).1 [item st 0] ∧
      (addPacket s st (fuel + 1) v).1.seqHead = s ∧ (addPacket s st (fuel + 1) v).1.seqTail = s := by
  rw [addPacket]
  dsimp only
  rw [if_pos hsize]
  obtain ⟨g, hg⟩ := Nat.exists_eq_add_of_lt (growths_pos hmax)
  rw [show growths { v with seqHead := s, seqTail := s, head := 0, tail := v.maxSize - 1 } = g + 1 by
    rw [show growths { v with seqHead := s, seqTail := s, head := 0, tail := v.maxSize - 1 } =
      v.growths from rfl, hg]; omega]
  rw [addItems]
  dsimp only
  rw [if_neg (by omega), hsize, if_neg (by simp)]
  have hback : (0 + v.maxSize - 1) % v.maxSize = v.maxSize - 1 := by
    rw [Nat.zero_add, Nat.mod_eq_of_lt (by omega)]
  rw [hback]
  refine ⟨rfl, ⟨by simp, htwo, hmax, ?_, ?_, rfl, ?_, ?_, ?_, hs⟩, rfl, rfl⟩
  · show v.maxSize - 1 < v.maxSize
    omega
  · refine ⟨?_, trivial⟩
    show fill v.maxSize (item st 0) 0 v.maxSize (v.maxSize - 1) v.vector
      ((v.maxSize - 1) % v.maxSize) = item st 0
    have hfill := @fill_eq v.maxSize (item st 0) 1 v.maxSize (v.maxSize - 1) v.vector (by omega)
      (by omega)
    rw [show v.maxSize - 1 + 1 = v.maxSize by omega, Nat.mod_self,
      Nat.mod_eq_of_lt (show v.maxSize - 1 < v.maxSize by omega)] at hfill
    rw [hfill, Nat.mod_eq_of_lt (by omega)]
    exact Function.update_self _ _ _
  · show 1 ≤ v.maxSize
    omega
  · show v.maxSize - 1 = (v.maxSize - 1 + 1 - 1) % v.maxSize
    rw [Nat.add_sub_cancel, Nat.mod_eq_of_lt (by omega)]
  · rw [expand_cons, decode_item st (by omega), expand_nil]
    rfl

/-! ## Finding a packet -/

/-- The cell of a packet: `where`, `seq_start` and `seq_end` of `findSeqNum`, with the cells before
and after it. -/
structure Cell (v : DccpAckVector) (bs : List ℕ) (s pos seqStart seqEnd : ℕ) (l : List ℕ) (b : ℕ)
    (r : List ℕ) : Prop where
  split : bs = l ++ b :: r
  posEq : pos = (v.head + l.length) % v.maxSize
  byte : v.vector pos = b
  start : seqStart + (expand l).length = v.seqHead
  stop : seqEnd + runlen b = seqStart
  le : seqEnd ≤ s
  ge : s ≤ seqStart

theorem Shows.byte (h : Shows v (l ++ b :: r)) : v.vector ((v.head + l.length) % v.maxSize) = b :=
  (Ring.holds_append.mp h.cells).2.1

/-- By induction on the runs behind the cursor. -/
theorem findLoop_spec {fuel seqStart : ℕ} (h : Shows v (l ++ r)) (hr : r ≠ [])
    (hstart : seqStart + (expand l).length = v.seqHead) (hs : s ≤ seqStart) (htail : v.seqTail ≤ s)
    (hfuel : r.length ≤ fuel) :
    ∃ pos st en l' b r', v.findLoop s ((v.tail + 1) % v.maxSize) fuel
        ((v.head + l.length) % v.maxSize) seqStart = some (pos, st, en) ∧
      Cell v (l ++ r) s pos st en l' b r' := by
  induction r generalizing l fuel seqStart with
  | nil => exact absurd rfl hr
  | cons b r ih =>
    cases fuel with
    | zero => simp at hfuel
    | succ fuel =>
      have hbyte := h.byte
      have hspan := h.span
      have hseqLt := h.seqLt
      rw [expand_append, expand_cons, length_append, length_append,
        length_decode] at hspan
      have hend : (u32 (seqStart - runlen b) : ℤ) = seqStart - runlen b :=
        u32_eq (by omega) (by omega)
      rw [findLoop, hbyte]
      by_cases hle : u32 (seqStart - runlen b) ≤ s
      · rw [if_pos ⟨hle, hs⟩]
        exact ⟨_, _, _, l, b, r, rfl, rfl, rfl, hbyte, hstart, by omega, hle, hs⟩
      · rw [if_neg (fun hc => hle hc.1)]
        have hr' : r ≠ [] := by
          rintro rfl
          rw [expand_nil, length_nil] at hspan
          omega
        have hlen := h.le
        have hrlen := length_pos_of_ne_nil hr'
        have htailEq := h.tail
        rw [length_append, length_cons] at hlen htailEq
        have hstop : (v.tail + 1) % v.maxSize =
            (v.head + l.length + 1 + r.length) % v.maxSize := by
          rw [htailEq, Nat.mod_add_mod]
          congr 1
          omega
        have hne : (v.head + l.length + 1) % v.maxSize ≠ (v.tail + 1) % v.maxSize := by
          rw [hstop]
          exact Ring.mod_ne (by omega) (by omega)
        rw [Nat.mod_add_mod, if_neg hne]
        have hnext : (u32 ((u32 (seqStart - runlen b) : ℤ) - 1) : ℤ) =
            u32 (seqStart - runlen b) - 1 := u32_eq (by omega) (by omega)
        have hcons : l ++ b :: r = l ++ [b] ++ r := by simp
        have hlen' : (l ++ [b]).length = l.length + 1 := by simp
        have hexp : (expand (l ++ [b])).length = (expand l).length + (runlen b + 1) := by
          rw [expand_append, length_append, expand_cons, expand_nil, append_nil,
            length_decode]
        have := @ih (l ++ [b]) fuel (u32 ((u32 (seqStart - runlen b) : ℤ) - 1))
          (by rwa [← hcons]) hr' (by omega) (by omega)
          (by rw [length_cons] at hfuel; omega)
        rw [hlen', ← hcons, ← Nat.add_assoc] at this
        exact this

/-- **`findSeqNum`** finds every packet between the tail and the head. -/
theorem findSeqNum_spec (h : Shows v bs) (h1 : v.seqTail ≤ s) (h2 : s ≤ v.seqHead) :
    ∃ pos st en l b r, v.findSeqNum s = some (pos, st, en) ∧ Cell v bs s pos st en l b r := by
  have hpos := h.size_pos
  have hsize := h.size
  rw [findSeqNum, if_neg (by omega)]
  have := @findLoop_spec v [] bs s v.maxSize v.seqHead h h.ne (by simp) h2 h1 h.le
  rw [length_nil, show (v.head + 0) % v.maxSize = v.head from Nat.mod_eq_of_lt h.headLt] at this
  exact this

theorem findSeqNum_none (h : ¬ (v.seqTail ≤ s ∧ s ≤ v.seqHead)) : v.findSeqNum s = none := by
  rw [findSeqNum, if_pos (by omega)]

section Cell

variable {pos seqStart seqEnd : ℕ}

theorem Cell.index (hc : Cell v bs s pos seqStart seqEnd l b r) :
    v.seqHead - s = (expand l).length + (seqStart - s) ∧ seqStart - s < (decode b).length := by
  have := hc.start
  have := hc.stop
  have := hc.le
  have := hc.ge
  rw [length_decode]
  omega

theorem Cell.getElem? (hc : Cell v bs s pos seqStart seqEnd l b r) :
    (expand bs)[v.seqHead - s]? = some (stateBits b) := by
  obtain ⟨hidx, hlt⟩ := hc.index
  rw [length_decode] at hlt
  rw [hc.split, hidx, getElem?_expand (by omega)]

end Cell

/-- **The state of a packet** is its place in the expansion of the bytes. -/
theorem getState_spec (h : Shows v bs) (h1 : v.seqTail ≤ s) (h2 : s ≤ v.seqHead) :
    v.getState s = (expand bs)[v.seqHead - s]? := by
  obtain ⟨pos, st, en, l, b, r, hfind, hc⟩ := findSeqNum_spec h h1 h2
  have hpos := h.size_pos
  have hsize := h.size
  rw [getState, if_neg (by omega), hfind, hc.getElem?, Option.map_some, hc.byte]

theorem getState_none (h : ¬ (v.seqTail ≤ s ∧ s ≤ v.seqHead)) : v.getState s = none := by
  rw [getState, if_pos (by omega)]

end NetSim.DccpAckVector
