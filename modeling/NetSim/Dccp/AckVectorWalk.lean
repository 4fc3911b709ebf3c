import Mathlib.Data.List.GetD
import NetSim.Dccp.AckVectorSpec

/-! # The walks through the ack vector

Each walk is followed by the number of steps it has taken: `Descends` and `Ascends` give the cell of
the next packet, `Passes` the cell of the next interval. Every walk enumerates the same packets
(`descending_walk`, `ascending_walk`, `interval_walk`).
-/

namespace NetSim.DccpAckVector

open List

variable {v : DccpAckVector} {bs l r : List ℕ} {b n k : ℕ} {f : ℕ → PacketState} {w : PacketWalk}

theorem collect_eq {σ ω : Type} {next : σ → Option (ω × σ)} {At : ℕ → σ → Prop} {out : ℕ → ω}
    (hstep : ∀ k w, At k w → k < n → ∃ w', next w = some (out k, w') ∧ At (k + 1) w')
    (hstop : ∀ w, At n w → next w = none) {fuel : ℕ} {w : σ} (h : At k w) (hk : k ≤ n)
    (hfuel : n - k ≤ fuel) : collect next fuel w = (List.range' k (n - k)).map out := by
  induction fuel generalizing k w with
  | zero =>
    rw [show n - k = 0 by omega]
    rfl
  | succ fuel ih =>
    rw [collect]
    by_cases hend : k = n
    · subst hend
      rw [hstop w h, Nat.sub_self]
      rfl
    · obtain ⟨w', hnext, hw'⟩ := hstep k w h (by omega)
      rw [hnext]
      dsimp only
      rw [ih hw' (by omega) (by omega), show n - k = n - (k + 1) + 1 by omega, range'_succ,
        map_cons]

/-- The bytes tell that the packet `s` has the state `f s`. -/
def Tells (v : DccpAckVector) (bs : List ℕ) (f : ℕ → PacketState) : Prop :=
  ∀ s, v.seqTail ≤ s → s ≤ v.seqHead → (expand bs)[v.seqHead - s]? = some (f s)

/-- The packets from `hi` down to `lo`. -/
def descending (lo hi : ℕ) : List ℕ := (List.range (hi + 1 - lo)).map (hi - ·)

/-- The packets from `lo` up to `hi`. -/
def ascending (lo hi : ℕ) : List ℕ := (List.range (hi + 1 - lo)).map (lo + ·)

theorem Shows.count (h : Shows v bs) : v.seqHead + 1 - v.seqTail = (expand bs).length := by
  have := h.span
  omega

/-! ## From the head to the tail -/

/-- After `k` steps of the descending walk. -/
structure Descends (v : DccpAckVector) (bs : List ℕ) (k : ℕ) (w : PacketWalk) : Prop where
  forward : w.pReverse = false
  walking : w.pWalking = decide (k < (expand bs).length)
  seq : k < (expand bs).length → w.seqPWalk + k = v.seqHead
  place : ∃ l b r, bs = l ++ b :: r ∧ w.pWalk = (v.head + l.length) % v.maxSize ∧
    k = (expand l).length + w.deltaPWalk ∧ w.deltaPWalk ≤ runlen b + 1

theorem Descends.start (h : Shows v bs) : Descends v bs 0 v.startPacketWalk := by
  have hsize := h.size
  have hpos := h.size_pos
  refine ⟨rfl, ?_, fun _ => rfl, ?_⟩
  · have := length_expand_pos h.ne
    rw [startPacketWalk, decide_eq_true this]
    exact decide_eq_true (by omega)
  · cases bs with
    | nil => exact absurd rfl h.ne
    | cons b r => exact ⟨[], b, r, rfl, (Nat.mod_eq_of_lt h.headLt).symm, rfl, Nat.zero_le _⟩

theorem Descends.cell (h : Shows v bs) (hw : Descends v bs k w) (hk : k < (expand bs).length) :
    ∃ l b r d, bs = l ++ b :: r ∧ k = (expand l).length + d ∧ d ≤ runlen b ∧
      (if runlen (v.vector w.pWalk) < w.deltaPWalk then (w.pWalk + 1) % v.maxSize else w.pWalk) =
        (v.head + l.length) % v.maxSize ∧
      (if runlen (v.vector w.pWalk) < w.deltaPWalk then 1 else w.deltaPWalk + 1) = d + 1 := by
  obtain ⟨l, b, r, hsplit, hplace, hidx, hdelta⟩ := hw.place
  have hbyte : v.vector w.pWalk = b := by
    rw [hplace]
    rw [hsplit] at h
    exact h.byte
  rw [hbyte]
  by_cases hover : runlen b < w.deltaPWalk
  · -- the next cell
    rw [if_pos hover, if_pos hover]
    have hexp : (expand (l ++ [b])).length = (expand l).length + (runlen b + 1) := by
      rw [expand_append, length_append, expand_cons, expand_nil, append_nil, length_decode]
    cases r with
    | nil =>
      rw [hsplit, hexp] at hk
      omega
    | cons b' r =>
      refine ⟨l ++ [b], b', r, 0, by rw [hsplit]; simp, by omega, Nat.zero_le _, ?_, rfl⟩
      rw [hplace, Nat.mod_add_mod, length_append, length_singleton, Nat.add_assoc]
  · rw [if_neg hover, if_neg hover]
    exact ⟨l, b, r, w.deltaPWalk, hsplit, hidx, by omega, hplace, rfl⟩

/-- The walk goes on by one packet, towards the oldest. -/
theorem Descends.step (h : Shows v bs) (hf : Tells v bs f) (hw : Descends v bs k w)
    (hk : k < (expand bs).length) :
    ∃ w', v.nextPacket w = some ((v.seqHead - k, f (v.seqHead - k)), w') ∧
      Descends v bs (k + 1) w' := by
  obtain ⟨l, b, r, d, hsplit, hidx, hd, hpos, hdelta⟩ := hw.cell h hk
  have hseq := hw.seq hk
  have hspan := h.span
  have hlt := h.seqLt
  have hbyte : v.vector ((v.head + l.length) % v.maxSize) = b := by
    rw [hsplit] at h
    exact h.byte
  have hstate : stateBits b = f (v.seqHead - k) := by
    have htell := hf (v.seqHead - k) (by omega) (by omega)
    rw [show v.seqHead - (v.seqHead - k) = k by omega, hsplit, hidx, getElem?_expand hd] at htell
    rw [hidx]
    exact Option.some.inj htell
  have hwalking : w.pWalking = true := by
    rw [hw.walking, decide_eq_true hk]
  rw [nextPacket, if_neg (by rw [hw.forward, hwalking]; simp)]
  dsimp only
  rw [hpos, hdelta, hbyte, hstate, show w.seqPWalk = v.seqHead - k by omega]
  refine ⟨_, rfl, hw.forward, ?_, ?_, l, b, r, hsplit, rfl, ?_, ?_⟩
  · exact decide_eq_decide.mpr (by omega)
  · intro hk'
    show u32 (((v.seqHead - k : ℕ) : ℤ) - 1) + (k + 1) = v.seqHead
    have := u32_eq (x := ((v.seqHead - k : ℕ) : ℤ) - 1) (by omega) (by omega)
    omega
  · show k + 1 = (expand l).length + (d + 1)
    omega
  · show d + 1 ≤ runlen b + 1
    omega

/-- **The descending walk** returns the packets from the head to the tail. -/
theorem descending_walk (h : Shows v bs) (hf : Tells v bs f) {fuel : ℕ}
    (hfuel : v.seqHead + 1 - v.seqTail ≤ fuel) :
    collect v.nextPacket fuel v.startPacketWalk =
      (descending v.seqTail v.seqHead).map (fun s => (s, f s)) := by
  have hcount := h.count
  have hwalk := collect_eq (fun k w hw hk => Descends.step (k := k) (w := w) h hf hw hk)
    (fun w hw => by rw [nextPacket, if_pos (Or.inl (by rw [hw.walking]; simp))])
    (Descends.start h) (Nat.zero_le _) (by omega : (expand bs).length - 0 ≤ fuel)
  rw [hwalk, descending, hcount, Nat.sub_zero, ← range_eq_range', map_map]
  rfl

/-! ## From the tail to the head -/

/-- After `k` steps of the ascending walk. -/
structure Ascends (v : DccpAckVector) (bs : List ℕ) (k : ℕ) (w : PacketWalk) : Prop where
  reverse : w.pReverse = true
  walking : w.pWalking = decide (k < (expand bs).length)
  seq : k < (expand bs).length → w.seqPWalk = v.seqTail + k
  place : ∃ l b r, bs = l ++ b :: r ∧ w.pWalk = (v.head + l.length) % v.maxSize ∧
    k = (expand r).length + w.deltaPWalk ∧ w.deltaPWalk ≤ runlen b + 1

theorem Ascends.start (h : Shows v bs) : Ascends v bs 0 v.startReversePacketWalk := by
  have hsize := h.size
  have hpos := h.size_pos
  refine ⟨rfl, ?_, fun _ => rfl, ?_⟩
  · have := length_expand_pos h.ne
    rw [startReversePacketWalk, decide_eq_true this]
    exact decide_eq_true (by omega)
  · have hsplit := dropLast_append_getLast h.ne
    refine ⟨bs.dropLast, bs.getLast h.ne, [], hsplit.symm, ?_, rfl, Nat.zero_le _⟩
    show v.tail = _
    rw [h.tail, length_dropLast]
    congr 1
    omega

theorem Ascends.cell (h : Shows v bs) (hw : Ascends v bs k w) (hk : k < (expand bs).length) :
    ∃ l b r d, bs = l ++ b :: r ∧ k = (expand r).length + d ∧ d ≤ runlen b ∧
      (if runlen (v.vector w.pWalk) < w.deltaPWalk then (w.pWalk + v.maxSize - 1) % v.maxSize
        else w.pWalk) = (v.head + l.length) % v.maxSize ∧
      (if runlen (v.vector w.pWalk) < w.deltaPWalk then 1 else w.deltaPWalk + 1) = d + 1 := by
  obtain ⟨l, b, r, hsplit, hplace, hidx, hdelta⟩ := hw.place
  have htwo := h.two
  have hbyte : v.vector w.pWalk = b := by
    rw [hplace]
    rw [hsplit] at h
    exact h.byte
  rw [hbyte]
  by_cases hover : runlen b < w.deltaPWalk
  · -- the cell before
    rw [if_pos hover, if_pos hover]
    have hexp : (expand (b :: r)).length = (runlen b + 1) + (expand r).length := by
      rw [expand_cons, length_append, length_decode]
    have hl : l ≠ [] := by
      rintro rfl
      rw [hsplit, nil_append, hexp] at hk
      omega
    have hlast := dropLast_append_getLast hl
    have hlpos := length_pos_of_ne_nil hl
    refine ⟨l.dropLast, l.getLast hl, b :: r, 0, ?_, by omega, Nat.zero_le _, ?_, rfl⟩
    · calc
        bs = l.dropLast ++ [l.getLast hl] ++ b :: r := by rw [hlast, hsplit]
        _ = l.dropLast ++ l.getLast hl :: b :: r := append_assoc _ _ _
    · rw [hplace, length_dropLast, Nat.add_sub_assoc (by omega), Nat.mod_add_mod,
        show v.head + l.length + (v.maxSize - 1) = v.head + (l.length - 1) + v.maxSize by omega,
        Nat.add_mod_right]
  · rw [if_neg hover, if_neg hover]
    exact ⟨l, b, r, w.deltaPWalk, hsplit, hidx, by omega, hplace, rfl⟩

/-- The walk goes on by one packet, towards the newest. -/
theorem Ascends.step (h : Shows v bs) (hf : Tells v bs f) (hw : Ascends v bs k w)
    (hk : k < (expand bs).length) :
    ∃ w', v.prevPacket w = some ((v.seqTail + k, f (v.seqTail + k)), w') ∧
      Ascends v bs (k + 1) w' := by
  obtain ⟨l, b, r, d, hsplit, hidx, hd, hpos, hdelta⟩ := hw.cell h hk
  have hseq := hw.seq hk
  have hspan := h.span
  have hlt := h.seqLt
  have hbyte : v.vector ((v.head + l.length) % v.maxSize) = b := by
    rw [hsplit] at h
    exact h.byte
  have hlen : (expand bs).length = (expand l).length + (runlen b + 1) + (expand r).length := by
    rw [hsplit, expand_append, expand_cons, length_append, length_append, length_decode]
    omega
  have hstate : stateBits b = f (v.seqTail + k) := by
    have htell := hf (v.seqTail + k) (by omega) (by omega)
    rw [show v.seqHead - (v.seqTail + k) = (expand l).length + (runlen b - d) by omega, hsplit,
      getElem?_expand (by omega)] at htell
    exact Option.some.inj htell
  have hwalking : w.pWalking = true := by
    rw [hw.walking, decide_eq_true hk]
  rw [prevPacket, if_neg (by rw [hw.reverse, hwalking]; simp)]
  dsimp only
  rw [hpos, hdelta, hbyte, hstate, hseq]
  refine ⟨_, rfl, hw.reverse, ?_, ?_, l, b, r, hsplit, rfl, ?_, ?_⟩
  · exact decide_eq_decide.mpr (by omega)
  · intro hk'
    show u32 (((v.seqTail + k : ℕ) : ℤ) + 1) = v.seqTail + (k + 1)
    have := u32_eq (x := ((v.seqTail + k : ℕ) : ℤ) + 1) (by omega) (by omega)
    omega
  · show k + 1 = (expand r).length + (d + 1)
    omega
  · show d + 1 ≤ runlen b + 1
    omega

/-- **The ascending walk** returns the packets from the tail to the head. -/
theorem ascending_walk (h : Shows v bs) (hf : Tells v bs f) {fuel : ℕ}
    (hfuel : v.seqHead + 1 - v.seqTail ≤ fuel) :
    collect v.prevPacket fuel v.startReversePacketWalk =
      (ascending v.seqTail v.seqHead).map (fun s => (s, f s)) := by
  have hcount := h.count
  have hwalk := collect_eq (fun k w hw hk => Ascends.step (k := k) (w := w) h hf hw hk)
    (fun w hw => by rw [prevPacket, if_pos (Or.inl (by rw [hw.walking]; simp))])
    (Ascends.start h) (Nat.zero_le _) (by omega : (expand bs).length - 0 ≤ fuel)
  rw [hwalk, ascending, hcount, Nat.sub_zero, ← range_eq_range', map_map]
  rfl

/-! ## Intervals -/

/-- The packets that a result of the interval walk stands for. -/
def intervalPackets (i : ℕ × ℕ × ℕ × PacketState) : List (ℕ × PacketState) :=
  (List.range (i.2.1 + 1 - i.2.2.1)).map (fun k => (i.2.1 - k, i.2.2.2))

/-- The result of the interval walk at the cell `k`. -/
def intervalAt (seqHead : ℕ) (bs : List ℕ) (k : ℕ) : ℕ × ℕ × ℕ × PacketState :=
  let b := bs.getD k 0
  let seqStart := seqHead - (expand (bs.take k)).length
  (b, seqStart, seqStart - runlen b, stateBits b)

/-- After `k` steps of the interval walk. -/
structure Passes (v : DccpAckVector) (bs : List ℕ) (k : ℕ) (w : IntervalWalk) : Prop where
  walking : w.iWalking = decide (k < bs.length)
  place : w.iWalk = (v.head + k) % v.maxSize
  seq : k < bs.length → w.seqIWalk + (expand (bs.take k)).length = v.seqHead

theorem Passes.start (h : Shows v bs) : Passes v bs 0 v.startIntervalWalk := by
  have hsize := h.size
  have hpos := h.size_pos
  refine ⟨?_, (Nat.mod_eq_of_lt h.headLt).symm, fun _ => rfl⟩
  rw [startIntervalWalk, decide_eq_true hpos]
  exact decide_eq_true (by omega)

theorem expand_take_succ (hk : k < bs.length) :
    (expand (bs.take (k + 1))).length = (expand (bs.take k)).length + (runlen (bs.getD k 0) + 1) ∧
      (expand (bs.take (k + 1))).length ≤ (expand bs).length := by
  have hsplit : bs.take (k + 1) = bs.take k ++ [bs.getD k 0] := by
    rw [take_succ_eq_append_getElem hk, getD_eq_getElem _ _ hk]
  constructor
  · rw [hsplit, expand_append, length_append, expand_cons, expand_nil, append_nil,
      length_decode]
  · have hcut : expand bs = expand (bs.take (k + 1)) ++ expand (bs.drop (k + 1)) := by
      rw [← expand_append, take_append_drop]
    rw [hcut, length_append]
    omega

theorem Passes.step {w : IntervalWalk} (h : Shows v bs) (hw : Passes v bs k w)
    (hk : k < bs.length) :
    ∃ w', v.nextInterval w = some (intervalAt v.seqHead bs k, w') ∧ Passes v bs (k + 1) w' := by
  have hseq := hw.seq hk
  have hspan := h.span
  have hlt := h.seqLt
  have hle := h.le
  obtain ⟨hnext, hbound⟩ := expand_take_succ hk
  have hbyte : v.vector w.iWalk = bs.getD k 0 := by
    rw [hw.place, getD_eq_getElem _ _ hk]
    exact Ring.holds_iff.mp h.cells k hk
  have hwalking : w.iWalking = true := by
    rw [hw.walking, decide_eq_true hk]
  have hend : u32 ((w.seqIWalk : ℤ) - runlen (bs.getD k 0)) =
      v.seqHead - (expand (bs.take k)).length - runlen (bs.getD k 0) := by
    have := u32_eq (x := (w.seqIWalk : ℤ) - runlen (bs.getD k 0)) (by omega) (by omega)
    omega
  rw [nextInterval, if_neg (by rw [hwalking]; simp)]
  dsimp only
  rw [hbyte, hend, intervalAt, show w.seqIWalk = v.seqHead - (expand (bs.take k)).length by omega]
  refine ⟨_, rfl, ?_, ?_, ?_⟩
  · -- the tail is the last cell
    refine decide_eq_decide.mpr ?_
    rw [hw.place, h.tail]
    constructor
    · intro hne
      by_contra hlast
      exact hne (by rw [show v.head + bs.length - 1 = v.head + k by omega])
    · intro hlast
      exact Ring.mod_ne (by omega) (by omega)
  · rw [hw.place, Nat.mod_add_mod, Nat.add_assoc]
  · intro hk'
    have hbound' := (expand_take_succ hk').1
    have hbound'' := (expand_take_succ hk').2
    show u32 (((v.seqHead - (expand (bs.take k)).length - runlen (bs.getD k 0) : ℕ) : ℤ) - 1) +
      (expand (bs.take (k + 1))).length = v.seqHead
    have := u32_eq (x := ((v.seqHead - (expand (bs.take k)).length - runlen (bs.getD k 0) : ℕ) : ℤ) - 1)
      (by omega) (by omega)
    omega

theorem intervals_cover (h : Shows v bs) (hf : Tells v bs f) (hk : k ≤ bs.length) :
    ((List.range k).map (intervalAt v.seqHead bs)).flatMap intervalPackets =
      (List.range (expand (bs.take k)).length).map (fun j => (v.seqHead - j, f (v.seqHead - j))) := by
  induction k with
  | zero => rfl
  | succ k ih =>
    have hspan := h.span
    have hk' : k < bs.length := by omega
    obtain ⟨hnext, hbound⟩ := expand_take_succ hk'
    rw [range_succ, map_append, flatMap_append, ih (by omega), hnext,
      range_add, map_append, map_map, map_singleton, flatMap_singleton]
    congr 1
    rw [intervalPackets, intervalAt]
    rw [show v.seqHead - (expand (bs.take k)).length + 1 -
      (v.seqHead - (expand (bs.take k)).length - runlen (bs.getD k 0)) = runlen (bs.getD k 0) + 1
      by omega]
    refine map_congr_left (fun j hj => ?_)
    have hj' := mem_range.mp hj
    have hsplit : bs = bs.take k ++ bs.getD k 0 :: bs.drop (k + 1) := by
      rw [getD_eq_getElem _ _ hk', ← drop_eq_getElem_cons hk', take_append_drop]
    have htell := hf (v.seqHead - ((expand (bs.take k)).length + j)) (by omega) (by omega)
    rw [show v.seqHead - (v.seqHead - ((expand (bs.take k)).length + j)) =
      (expand (bs.take k)).length + j by omega] at htell
    have hget : (expand bs)[(expand (bs.take k)).length + j]? = some (stateBits (bs.getD k 0)) := by
      have := @getElem?_expand (bs.take k) (bs.drop (k + 1)) (bs.getD k 0) j (by omega)
      rwa [← hsplit] at this
    rw [hget] at htell
    rw [Function.comp_apply, ← Option.some.inj htell, Nat.sub_sub]

/-- **The interval walk** returns the same packets, and one interval for each cell. -/
theorem interval_walk (h : Shows v bs) (hf : Tells v bs f) {fuel : ℕ} (hfuel : v.size ≤ fuel) :
    (collect v.nextInterval fuel v.startIntervalWalk).flatMap intervalPackets =
        (descending v.seqTail v.seqHead).map (fun s => (s, f s)) ∧
      (collect v.nextInterval fuel v.startIntervalWalk).length = v.size := by
  have hsize := h.size
  have hwalk := collect_eq (fun k w hw hk => Passes.step (k := k) (w := w) h hw hk)
    (fun w hw => by rw [nextInterval, if_pos (by rw [hw.walking]; simp)])
    (Passes.start h) (Nat.zero_le _) (by omega : bs.length - 0 ≤ fuel)
  rw [hwalk, Nat.sub_zero, ← range_eq_range']
  constructor
  · rw [intervals_cover h hf le_rfl, take_length, descending, h.count, map_map]
    rfl
  · rw [length_map, length_range, hsize]

end NetSim.DccpAckVector
