import NetSim.Tcp.Snoop
import NetSim.Lib.Ring
import NetSim.Lib.Runs
import Mathlib.Algebra.Order.Ring.Rat
import Mathlib.Data.List.Perm.Basic

/-! # The Snoop cache as a sorted window

The slots from `buftail_` on hold the cached packets in the order of their sequence numbers
(`snoop_window`), as long as the agent does not make room in a full cache: there a slip
(`fstate_ |= ~SNOOP_FULL`) sets all other bits of the state, `SNOOP_CLOSED` among them.
-/

namespace NetSim.Snoop

open Function List Ring

variable {s s' : Agent} {c l r : List Pkt} {p : Pkt} {n i j k fuel : ℕ} {seq ack : ℤ} {now : ℚ}

/-! ## Bits -/

theorem or_and_other {f m b : BitVec 16} (h : b &&& m = 0) : (f ||| b) &&& m = f &&& m := by
  rw [BitVec.and_or_distrib_right, h]
  exact BitVec.or_zero

theorem or_and_self (f m : BitVec 16) : (f ||| m) &&& m = m := by
  rw [BitVec.and_or_distrib_right, BitVec.and_self]
  ext i hi
  simp

theorem and_not_and_other {f m b : BitVec 16} (h : ~~~b &&& m = m) : f &&& ~~~b &&& m = f &&& m := by
  rw [BitVec.and_assoc, h]

theorem and_not_and_self (f m : BitVec 16) : f &&& ~~~m &&& m = 0 := by
  rw [BitVec.and_assoc, BitVec.not_and_self]
  exact BitVec.and_zero

theorem and_not_and_not (f m : BitVec 16) : f &&& ~~~m &&& ~~~m = f &&& ~~~m := by
  rw [BitVec.and_assoc, BitVec.and_self]

theorem has_congr {m : BitVec 16} (h : s'.fstate &&& m = s.fstate &&& m) : s'.has m = s.has m := by
  unfold Agent.has
  rw [h]

/-! ## Slots -/

theorem next_mod (k : ℕ) : s.next (k % s.maxbufs) = (k + 1) % s.maxbufs := by
  unfold Agent.next
  rw [Nat.mod_add_mod]

theorem prev_mod (h : 0 < s.maxbufs) (k : ℕ) : s.prev ((k + 1) % s.maxbufs) = k % s.maxbufs := by
  have hlt := Nat.mod_lt k h
  have hmod : (k + 1) % s.maxbufs = (k % s.maxbufs + 1) % s.maxbufs := (Nat.mod_add_mod k _ 1).symm
  unfold Agent.prev
  rw [hmod]
  by_cases hlast : k % s.maxbufs + 1 = s.maxbufs
  · rw [hlast, Nat.mod_self, if_pos rfl]
    omega
  · rw [Nat.mod_eq_of_lt (by omega), if_neg (by omega), Nat.add_sub_cancel]

theorem add_mod_eq (hi : i < n) (hk : k ≤ n) : (i + k) % n = i ↔ k = 0 ∨ k = n := by
  by_cases hlt : i + k < n
  · rw [Nat.mod_eq_of_lt hlt]
    omega
  · rw [Nat.mod_eq_sub_mod (by omega), Nat.mod_eq_of_lt (by omega)]
    omega

/-- The ring when it holds the packets `c`. -/
def cells (n : ℕ) (c : List Pkt) : List (Option Pkt) :=
  c.map some ++ List.replicate (n - c.length) none

theorem length_cells (h : c.length ≤ n) : (cells n c).length = n := by
  unfold cells
  rw [length_append, length_map, length_replicate]
  omega

theorem cells_append (l r : List Pkt) :
    cells n (l ++ r) = l.map some ++ cells (n - l.length) r := by
  unfold cells
  rw [map_append, append_assoc, length_append, Nat.sub_add_eq]

theorem cells_cons (p : Pkt) (c : List Pkt) : cells n (p :: c) = some p :: cells (n - 1) c := by
  unfold cells
  rw [map_cons, cons_append, length_cons, Nat.add_comm, Nat.sub_add_eq]

theorem cells_concat (h : c.length < n) : cells n c = cells (n - 1) c ++ [none] := by
  unfold cells
  rw [append_assoc, ← replicate_succ', Nat.sub_right_comm, Nat.sub_add_cancel (by omega)]

/-! ## The cache -/

/-- The cache holds the packets `c`. -/
structure Cache (s : Agent) (c : List Pkt) : Prop where
  two : 2 ≤ s.maxbufs
  len : c.length ≤ s.maxbufs
  ring : Holds s.maxbufs s.pkts s.buftail (cells s.maxbufs c)
  outside : ∀ i, s.maxbufs ≤ i → s.pkts i = none
  tail : s.buftail < s.maxbufs
  head : s.bufhead = (s.buftail + c.length) % s.maxbufs
  sorted : c.Pairwise (fun p q => p.seqno < q.seqno)
  seen : ∀ p ∈ c, p.seqno ≤ s.lastSeen
  above : ∀ p ∈ c, s.lastAck < p.seqno
  full : s.has snoopFull = true ↔ c.length = s.maxbufs
  notClosed : s.has snoopClosed = false
  copies : (c.map (·.id) ++ s.freed).Perm (List.range s.copies)

/-- `toutPending_` is the only event of the agent, and it is cached. -/
structure Timed (s : Agent) (c : List Pkt) : Prop where
  scheduled : s.scheduled = s.toutPending.toList
  cached : ∀ e ∈ s.toutPending, e ∈ c.map (·.id)

theorem Cache.congr (h : Cache s c) (hmax : s'.maxbufs = s.maxbufs) (hpkts : s'.pkts = s.pkts)
    (htail : s'.buftail = s.buftail) (hhead : s'.bufhead = s.bufhead)
    (hseen : s.lastSeen ≤ s'.lastSeen) (hack : s'.lastAck = s.lastAck)
    (hfull : s'.has snoopFull = s.has snoopFull) (hclosed : s'.has snoopClosed = s.has snoopClosed)
    (hfreed : s'.freed = s.freed) (hcopies : s'.copies = s.copies) : Cache s' c := by
  refine ⟨hmax ▸ h.two, hmax ▸ h.len, ?_, ?_, ?_, ?_, h.sorted, ?_, ?_, ?_, ?_, ?_⟩
  · rw [hmax, hpkts, htail]
    exact h.ring
  · rw [hmax, hpkts]
    exact h.outside
  · rw [hmax, htail]
    exact h.tail
  · rw [hhead, htail, hmax]
    exact h.head
  · exact fun p hp => (h.seen p hp).trans hseen
  · rw [hack]
    exact h.above
  · rw [hfull, hmax]
    exact h.full
  · rw [hclosed]
    exact h.notClosed
  · rw [hfreed, hcopies]
    exact h.copies

theorem Cache.slot (h : Cache s (l ++ p :: r)) :
    s.pkts ((s.buftail + l.length) % s.maxbufs) = some p := by
  have hring := h.ring
  rw [cells_append, cells_cons, holds_append, length_map] at hring
  exact hring.2.1

theorem Cache.slot_tail (h : Cache s c) : s.pkts s.buftail = c.head? := by
  have hring := h.ring
  have hmod := Nat.mod_eq_of_lt h.tail
  cases c with
  | nil =>
    have htwo := h.two
    unfold cells at hring
    rw [map_nil, nil_append, length_nil, Nat.sub_zero] at hring
    have hfirst := holds_iff.mp hring 0 (by rw [length_replicate]; omega)
    rw [Nat.add_zero, hmod, getElem_replicate] at hfirst
    exact hfirst
  | cons p c =>
    have hfirst := hring.1
    rw [hmod] at hfirst
    exact hfirst

theorem Cache.empty_iff (h : Cache s c) : s.empty = true ↔ c = [] := by
  have htwo := h.two
  have hiff := add_mod_eq h.tail h.len
  unfold Agent.empty
  rw [Bool.and_eq_true, decide_eq_true_eq, h.head, hiff, Bool.not_eq_true', ← Bool.not_eq_true, h.full,
    ← length_eq_zero_iff]
  omega

/-! ## A packet is inserted -/

/-- The slot `i` is free for a packet with the sequence number `seq` between the packets `l` and `r`. -/
structure Hole (s : Agent) (seq : ℤ) (l r : List Pkt) (i : ℕ) : Prop where
  two : 2 ≤ s.maxbufs
  len : (l ++ r).length < s.maxbufs
  ring : ∃ x, Holds s.maxbufs s.pkts s.buftail
    (l.map some ++ x :: cells (s.maxbufs - (l.length + 1)) r)
  slot : i = (s.buftail + l.length) % s.maxbufs
  outside : ∀ i, s.maxbufs ≤ i → s.pkts i = none
  tail : s.buftail < s.maxbufs
  head : s.bufhead = (s.buftail + (l.length + 1 + r.length)) % s.maxbufs
  sorted : (l ++ r).Pairwise (fun p q => p.seqno < q.seqno)
  before : ∀ p ∈ l, p.seqno < seq
  behind : ∀ p ∈ r, seq < p.seqno
  seen : ∀ p ∈ l ++ r, p.seqno ≤ s.lastSeen
  above : s.lastAck < seq ∧ ∀ p ∈ l ++ r, s.lastAck < p.seqno
  notFull : s.has snoopFull = false
  notClosed : s.has snoopClosed = false
  copies : ((l ++ r).map (·.id) ++ s.freed).Perm (List.range s.copies)

theorem Cache.notFull (h : Cache s c) (hlen : c.length < s.maxbufs) : s.has snoopFull = false := by
  rw [← Bool.not_eq_true, h.full]
  omega

theorem Cache.atHead (h : Cache s c) (hlen : c.length < s.maxbufs) (hack : s.lastAck < seq)
    (hseq : ∀ p ∈ c, p.seqno < seq) : Hole s.atHead.1 seq c [] s.atHead.2 := by
  have hring := h.ring
  have hcells : cells (s.maxbufs - c.length) [] =
      none :: cells (s.maxbufs - (c.length + 1)) [] := by
    obtain ⟨m, hm⟩ : ∃ m, s.maxbufs - c.length = m + 1 := ⟨s.maxbufs - c.length - 1, by omega⟩
    have hm' : s.maxbufs - (c.length + 1) = m := by omega
    unfold cells
    rw [hm, hm', map_nil, nil_append, nil_append, length_nil, Nat.sub_zero,
      Nat.sub_zero, replicate_succ]
  refine ⟨h.two, by rw [append_nil]; exact hlen, ⟨none, hcells ▸ hring⟩, h.head, h.outside, h.tail,
    ?_, by rw [append_nil]; exact h.sorted, hseq, by simp, ?_, ⟨hack, ?_⟩, h.notFull hlen,
    h.notClosed, by rw [append_nil]; exact h.copies⟩
  · change s.next s.bufhead = _
    rw [h.head, next_mod, length_nil]
    rfl
  · rw [append_nil]
    exact h.seen
  · rw [append_nil]
    exact h.above

theorem Cache.ring_prev (h : Cache s c) (hlen : c.length < s.maxbufs) :
    s.prev s.buftail < s.maxbufs ∧ (s.prev s.buftail + 1) % s.maxbufs = s.buftail ∧
      Holds s.maxbufs s.pkts (s.prev s.buftail) (none :: cells (s.maxbufs - 1) c) := by
  have htail := h.tail
  have hprev : s.prev s.buftail < s.maxbufs := by
    unfold Agent.prev
    split <;> omega
  have hnext : (s.prev s.buftail + 1) % s.maxbufs = s.buftail := by
    unfold Agent.prev
    split
    · rename_i hzero
      rw [Nat.sub_add_cancel (by omega), Nat.mod_self, hzero]
    · rw [Nat.sub_add_cancel (by omega), Nat.mod_eq_of_lt htail]
  refine ⟨hprev, hnext, ?_⟩
  rw [holds_rotate (by rw [length_cells (by omega)]; omega), ← cells_concat hlen]
  refine (holds_mod ?_).mpr h.ring
  rw [hnext, Nat.mod_eq_of_lt htail]

theorem add_prev (h : (s.prev s.buftail + 1) % s.maxbufs = s.buftail) (k : ℕ) :
    (s.prev s.buftail + 1 + k) % s.maxbufs = (s.buftail + k) % s.maxbufs := by
  rw [← Nat.mod_add_mod, h]

theorem Cache.atTail (h : Cache s c) (hlen : c.length < s.maxbufs) (hack : s.lastAck < seq)
    (hseq : ∀ p ∈ c, seq < p.seqno) :
    Hole { s with buftail := s.prev s.buftail } seq [] c (s.prev s.buftail) := by
  obtain ⟨hprev, hnext, hring⟩ := h.ring_prev hlen
  refine ⟨h.two, hlen, ⟨none, hring⟩, (Nat.mod_eq_of_lt hprev).symm, h.outside, hprev, ?_, h.sorted,
    by simp, hseq, h.seen, ⟨hack, h.above⟩, h.notFull hlen, h.notClosed, h.copies⟩
  rw [length_nil]
  rw [h.head, Nat.zero_add, ← Nat.add_assoc, add_prev hnext]

theorem shift_spec {xs ys zs : List (Option Pkt)} {x : Option Pkt} {pkts : ℕ → Option Pkt}
    (hring : Holds s.maxbufs pkts i (xs ++ x :: (ys ++ zs)))
    (hlen : (xs ++ x :: (ys ++ zs)).length = s.maxbufs) (hfuel : ys.length < fuel) :
    ∃ y, Holds s.maxbufs
      (s.shift ((i + xs.length + 1 + ys.length) % s.maxbufs) fuel
        ((i + xs.length + 1) % s.maxbufs) pkts) i (xs ++ ys ++ y :: zs) := by
  induction fuel generalizing xs x ys pkts with
  | zero => omega
  | succ fuel ih =>
    rw [length_append, length_cons, length_append] at hlen
    have hpos : 0 < s.maxbufs := by omega
    cases ys with
    | nil =>
      rw [Agent.shift, length_nil, Nat.add_zero, if_pos rfl, append_nil]
      exact ⟨x, hring⟩
    | cons a ys =>
      rw [length_cons] at hlen hfuel
      have hne : (i + xs.length + 1) % s.maxbufs ≠
          (i + xs.length + 1 + (a :: ys).length) % s.maxbufs := by
        refine mod_ne ?_ ?_
        · rw [length_cons]
          omega
        · rw [length_cons]
          omega
      have hcell : pkts ((i + xs.length + 1) % s.maxbufs) = a := by
        rw [holds_append] at hring
        exact hring.2.2.1
      rw [Agent.shift, if_neg hne, next_mod, prev_mod hpos, hcell]
      have hset := hring.set (by simp; omega) (k := xs.length) (by simp) a
      rw [set_append_right _ _ le_rfl, Nat.sub_self, set_cons_zero, cons_append,
        append_cons] at hset
      obtain ⟨y, hy⟩ := @ih (xs ++ [a]) _ _ _ hset (by simp; omega) (by omega)
      refine ⟨y, ?_⟩
      rw [length_append, length_singleton, ← Nat.add_assoc i, append_assoc xs,
        singleton_append] at hy
      rw [length_cons, show i + xs.length + 1 + (ys.length + 1) =
        i + xs.length + 1 + 1 + ys.length by omega]
      exact hy

theorem shift_outside {pkts : ℕ → Option Pkt} (hpos : 0 < s.maxbufs) (hj : j < s.maxbufs)
    (hk : s.maxbufs ≤ k) : s.shift i fuel j pkts k = pkts k := by
  induction fuel generalizing j pkts with
  | zero => rfl
  | succ fuel ih =>
    have hprev : s.prev j < s.maxbufs := by
      unfold Agent.prev
      split <;> omega
    rw [Agent.shift]
    split
    · rfl
    · rw [ih (show s.next j < s.maxbufs from Nat.mod_lt _ hpos), update_of_ne (by omega)]

theorem Cache.inMiddle (h : Cache s (l ++ r)) (hlen : (l ++ r).length < s.maxbufs)
    (hack : s.lastAck < seq) (hl : ∀ p ∈ l, p.seqno < seq) (hr : ∀ p ∈ r, seq < p.seqno)
    (hi : i = (s.buftail + l.length) % s.maxbufs) :
    Hole (s.inMiddle i).1 seq l r (s.inMiddle i).2 := by
  obtain ⟨hprev, hnext, hring⟩ := h.ring_prev hlen
  rw [length_append] at hlen
  have hi' : i = (s.prev s.buftail + 0 + 1 + l.length) % s.maxbufs := by
    rw [hi, Nat.add_zero, add_prev hnext]
  have hslot : s.prev i = (s.prev s.buftail + l.length) % s.maxbufs := by
    rw [hi', show s.prev s.buftail + 0 + 1 + l.length = s.prev s.buftail + l.length + 1 by omega,
      prev_mod (by omega)]
  rw [cells_append] at hring
  obtain ⟨y, hy⟩ := @shift_spec _ _ s.maxbufs [] _ _ _ _ hring (by simp [length_cells (show r.length ≤ s.maxbufs - 1 - l.length by omega)]; omega) (by rw [length_map]; omega)
  rw [length_nil, length_map, ← hi', Nat.add_zero, hnext, nil_append] at hy
  have hset := hy.set (by simp [length_cells (show r.length ≤ s.maxbufs - 1 - l.length by omega)]; omega)
    (k := l.length) (by simp) (s.pkts (s.prev s.buftail))
  rw [set_append_right _ _ (by simp), length_map, Nat.sub_self, set_cons_zero,
    ← hslot] at hset
  refine ⟨h.two, by rw [length_append]; exact hlen, ⟨s.pkts (s.prev s.buftail), ?_⟩, hslot, ?_,
    hprev, ?_, h.sorted, hl, hr, h.seen, ⟨hack, h.above⟩, h.notFull (by rw [length_append]; exact hlen), h.notClosed, h.copies⟩
  · rw [show s.maxbufs - 1 - l.length = s.maxbufs - (l.length + 1) by omega] at hset
    exact hset
  · intro k hk
    have hlt : s.prev i < s.maxbufs := by
      rw [hslot]
      exact Nat.mod_lt _ (by omega)
    have hk' : s.maxbufs ≤ k := hk
    unfold Agent.inMiddle
    dsimp only
    rw [update_of_ne (by omega), shift_outside (by omega) h.tail hk, h.outside k hk]
  · change s.bufhead = (s.prev s.buftail + (l.length + 1 + r.length)) % s.maxbufs
    rw [h.head, length_append, show s.prev s.buftail + (l.length + 1 + r.length) =
      s.prev s.buftail + 1 + (l.length + r.length) by omega, add_prev hnext]

theorem Cache.search (h : Cache s (l ++ r)) (hlen : (l ++ r).length < s.maxbufs)
    (hl : ∀ p ∈ l, p.seqno < seq) (hfuel : r.length < fuel) :
    ∃ place, s.search seq fuel ((s.buftail + l.length) % s.maxbufs) = some place ∧
      match place with
      | .cached i => ∃ l' p r', l ++ r = l' ++ p :: r' ∧ p.seqno = seq ∧
          i = (s.buftail + l'.length) % s.maxbufs
      | .before i => ∃ l' p r', l ++ r = l' ++ p :: r' ∧ (∀ q ∈ l', q.seqno < seq) ∧ seq < p.seqno ∧
          i = (s.buftail + l'.length) % s.maxbufs
      | .behind => ∀ p ∈ l ++ r, p.seqno < seq := by
  induction fuel generalizing l r with
  | zero => omega
  | succ fuel ih =>
    rw [Agent.search, h.head]
    cases r with
    | nil =>
      rw [append_nil, if_pos rfl]
      exact ⟨.behind, rfl, hl⟩
    | cons p r =>
      rw [length_append, length_cons] at hlen
      have hne : (s.buftail + l.length) % s.maxbufs ≠
          (s.buftail + (l ++ p :: r).length) % s.maxbufs := by
        rw [length_append, length_cons]
        exact mod_ne (by omega) (by omega)
      rw [if_neg hne, h.slot, Option.bind_some]
      by_cases heq : p.seqno = seq
      · rw [if_pos heq]
        exact ⟨_, rfl, l, p, r, rfl, heq, rfl⟩
      rw [if_neg heq]
      by_cases hlt : seq < p.seqno
      · rw [if_pos hlt]
        exact ⟨_, rfl, l, p, r, rfl, hl, hlt, rfl⟩
      rw [if_neg hlt, next_mod, Nat.add_assoc]
      rw [length_cons] at hfuel
      have hsplit : l ++ p :: r = (l ++ [p]) ++ r := by simp
      rw [hsplit] at h ⊢
      have hl' : ∀ q ∈ l ++ [p], q.seqno < seq := by
        intro q hq
        rcases mem_append.mp hq with hq | hq
        · exact hl q hq
        · rw [mem_singleton.mp hq]
          omega
      have hrest := ih h (by simp; omega) hl' (by omega)
      rw [length_append, length_singleton] at hrest
      exact hrest

/-- The agent after a copy of a packet was put into a slot, whatever mark it has and whatever was seen last. -/
structure Copied (s : Agent) (i : ℕ) (p : Pkt) (t : Agent) : Prop where
  maxbufs : t.maxbufs = s.maxbufs
  pkts : t.pkts = update s.pkts i (some p)
  buftail : t.buftail = s.buftail
  bufhead : t.bufhead = s.bufhead
  lastAck : t.lastAck = s.lastAck
  freed : t.freed = s.freed
  copies : t.copies = s.copies + 1
  fstate : t.fstate = if s.bufhead = s.buftail then s.fstate ||| snoopFull else s.fstate

section Copied

variable {t : Agent}

theorem Hole.sorted_insert (h : Hole s seq l r i) (hseq : p.seqno = seq) :
    (l ++ p :: r).Pairwise (fun a b => a.seqno < b.seqno) := by
  have hsorted := h.sorted
  rw [pairwise_append] at hsorted ⊢
  obtain ⟨hls, hrs, hlr⟩ := hsorted
  refine ⟨hls, pairwise_cons.mpr ⟨fun q hq => hseq ▸ h.behind q hq, hrs⟩, ?_⟩
  intro q hq q' hq'
  rcases mem_cons.mp hq' with rfl | hq'
  · exact hseq ▸ h.before q hq
  · exact hlr q hq q' hq'

theorem Hole.copies_insert (h : Hole s seq l r i) (hid : p.id = s.copies) :
    ((l ++ p :: r).map (·.id) ++ s.freed).Perm (range (s.copies + 1)) := by
  rw [range_succ]
  have hperm : ((l ++ p :: r).map (·.id) ++ s.freed).Perm
      (p.id :: ((l ++ r).map (·.id) ++ s.freed)) := by
    exact (perm_middle.map _).append_right _
  rw [hid] at hperm
  exact hperm.trans ((h.copies.cons _).trans (perm_append_singleton _ _).symm)

/-- The flag for a full cache is set exactly when the copy took the last slot. -/
theorem Hole.full_iff (h : Hole s seq l r i) (ht : Copied s i p t) :
    (t.has snoopFull = true ↔ (l ++ p :: r).length = s.maxbufs) ∧ t.has snoopClosed = false := by
  have hlen := h.len
  rw [length_append] at hlen
  have hcount : (l ++ p :: r).length = l.length + 1 + r.length := by
    rw [length_append, length_cons]
    omega
  have hiff : s.bufhead = s.buftail ↔ (l ++ p :: r).length = s.maxbufs := by
    rw [hcount, h.head, add_mod_eq h.tail (by omega)]
    omega
  have hstate := ht.fstate
  by_cases heq : s.bufhead = s.buftail
  · rw [if_pos heq] at hstate
    constructor
    · refine ⟨fun _ => hiff.mp heq, fun _ => ?_⟩
      unfold Agent.has
      rw [hstate, or_and_self]
      decide
    · rw [← h.notClosed]
      exact has_congr (hstate ▸ or_and_other (by decide))
  · rw [if_neg heq] at hstate
    constructor
    · rw [← hiff, has_congr (s := s) (by rw [hstate]), h.notFull]
      simp [heq]
    · rw [← h.notClosed]
      exact has_congr (by rw [hstate])

/-- The slot holds the packet, and the cache is sound again. -/
theorem Hole.copied (h : Hole s seq l r i) (ht : Copied s i p t) (hseq : p.seqno = seq) (hid : p.id = s.copies)
    (hlast : s.lastSeen ≤ t.lastSeen) (hseen : seq ≤ t.lastSeen) : Cache t (l ++ p :: r) := by
  have hlen := h.len
  rw [length_append] at hlen
  obtain ⟨x, hring⟩ := h.ring
  obtain ⟨hfull, hclosed⟩ := h.full_iff ht
  have hlen' : (l ++ p :: r).length ≤ s.maxbufs := by
    rw [length_append, length_cons]
    omega
  refine ⟨ht.maxbufs ▸ h.two, ht.maxbufs ▸ hlen', ?_, ?_, ?_, ?_, h.sorted_insert hseq, ?_, ?_,
    ht.maxbufs ▸ hfull, hclosed, ?_⟩
  · have hcells := length_cells (n := s.maxbufs - (l.length + 1)) (c := r) (by omega)
    have hset := hring.set (by simp [hcells]; omega) (k := l.length) (by simp) (some p)
    rw [set_append_right _ _ (by simp), length_map, Nat.sub_self, set_cons_zero,
      ← h.slot] at hset
    rw [ht.maxbufs, ht.pkts, ht.buftail, cells_append, cells_cons, Nat.sub_sub]
    exact hset
  · intro k hk
    rw [ht.maxbufs] at hk
    have hlt : i < s.maxbufs := by
      rw [h.slot]
      exact Nat.mod_lt _ (by omega)
    rw [ht.pkts, update_of_ne (by omega)]
    exact h.outside k hk
  · rw [ht.maxbufs, ht.buftail]
    exact h.tail
  · rw [ht.maxbufs, ht.buftail, ht.bufhead, h.head, length_append, length_cons]
    congr 2
    omega
  · intro q hq
    rcases mem_append.mp hq with hq | hq
    · exact (h.seen q (mem_append_left _ hq)).trans hlast
    · rcases mem_cons.mp hq with rfl | hq
      · rw [hseq]
        exact hseen
      · exact (h.seen q (mem_append_right _ hq)).trans hlast
  · intro q hq
    rw [ht.lastAck]
    rcases mem_append.mp hq with hq | hq
    · exact h.above.2 q (mem_append_left _ hq)
    · rcases mem_cons.mp hq with rfl | hq
      · rw [hseq]
        exact h.above.1
      · exact h.above.2 q (mem_append_right _ hq)
  · rw [ht.freed, ht.copies]
    exact h.copies_insert hid

end Copied

theorem Hole.save (h : Hole s seq l r i) :
    ∃ p, Cache (s.save now seq i).1 (l ++ p :: r) ∧ p.seqno = seq ∧ p.id = s.copies ∧
      (s.save now seq i).1.toutPending = s.toutPending ∧
      (s.save now seq i).1.scheduled = s.scheduled ∧
      (s.save now seq i).1.maxbufs = s.maxbufs ∧ (s.save now seq i).1.lru = s.lru := by
  unfold Agent.save
  dsimp only
  generalize ht : (if (s.savepkt now seq i).bufhead = (s.savepkt now seq i).buftail then
    { s.savepkt now seq i with fstate := (s.savepkt now seq i).fstate ||| snoopFull }
    else s.savepkt now seq i) = t
  obtain ⟨hcopied, hlru, hlast, htout, hsched⟩ : Copied s i ⟨s.copies, seq, 0, false, now⟩ t ∧
      t.lru = s.lru ∧ t.lastSeen = s.lastSeen ∧ t.toutPending = s.toutPending ∧ t.scheduled = s.scheduled := by
    rw [← ht]
    by_cases heq : (s.savepkt now seq i).bufhead = (s.savepkt now seq i).buftail
    · have heq' : s.bufhead = s.buftail := heq
      rw [if_pos heq]
      exact ⟨⟨rfl, rfl, rfl, rfl, rfl, rfl, rfl, (if_pos heq').symm⟩, rfl, rfl, rfl, rfl⟩
    · have heq' : ¬ s.bufhead = s.buftail := heq
      rw [if_neg heq]
      exact ⟨⟨rfl, rfl, rfl, rfl, rfl, rfl, rfl, (if_neg heq').symm⟩, rfl, rfl, rfl, rfl⟩
  obtain ⟨hmax, hpkts, htail, hhead, hack, hfreed, hcopies, hstate⟩ := hcopied
  split
  · rename_i hlt
    have hseen : seq ≤ t.lastSeen := le_of_lt (hlast ▸ hlt)
    split
    · -- the packet is at the tail, and is marked
      refine ⟨⟨s.copies, seq, 0, true, now⟩, h.copied ⟨hmax, ?_, htail, hhead, hack, hfreed, hcopies, hstate⟩
        rfl rfl hlast.ge hseen, rfl, rfl, htout, hsched, hmax, hlru⟩
      change update t.pkts i ((t.pkts i).map _) = _
      rw [hpkts, update_self, update_idem]
      rfl
    · exact ⟨_, h.copied ⟨hmax, hpkts, htail, hhead, hack, hfreed, hcopies, hstate⟩ rfl rfl hlast.ge hseen,
        rfl, rfl, htout, hsched, hmax, hlru⟩
  · rename_i hge
    rw [hlast] at hge
    exact ⟨_, h.copied ⟨hmax, hpkts, htail, hhead, hack, hfreed, hcopies, hstate⟩ rfl rfl (not_lt.mp hge) le_rfl,
      rfl, rfl, htout, hsched, hmax, hlru⟩

/-! ## Events of the agent -/

/-- The cache holds some packets, in a sound state. -/
def Sound (s : Agent) : Prop := ∃ c, Cache s c ∧ Timed s c

/-- The sizes of the agent do not change. -/
def Same (s s' : Agent) : Prop := s'.maxbufs = s.maxbufs ∧ s'.lru = s.lru

theorem Cache.mark {f : Pkt → Pkt} (h : Cache s (l ++ p :: r))
    (hi : i = (s.buftail + l.length) % s.maxbufs) (hseq : (f p).seqno = p.seqno)
    (hid : (f p).id = p.id) : Cache (s.mark i f) (l ++ f p :: r) := by
  have hlen : (l ++ f p :: r).length = (l ++ p :: r).length := by simp
  have hids : (l ++ f p :: r).map (·.id) = (l ++ p :: r).map (·.id) := by simp [hid]
  have hmem : ∀ P : ℤ → Prop, (∀ q ∈ l ++ p :: r, P q.seqno) → ∀ q ∈ l ++ f p :: r, P q.seqno := by
    intro P hP q hq
    rcases mem_append.mp hq with hq | hq
    · exact hP q (mem_append_left _ hq)
    · rcases mem_cons.mp hq with rfl | hq
      · rw [hseq]
        exact hP p (by simp)
      · exact hP q (mem_append_right _ (mem_cons_of_mem _ hq))
  have hfp : (s.pkts i).map f = some (f p) := by
    rw [hi, h.slot]
    rfl
  refine ⟨h.two, hlen ▸ h.len, ?_, ?_, h.tail, hlen ▸ h.head, ?_, hmem (· ≤ s.lastSeen) h.seen,
    hmem (s.lastAck < ·) h.above, hlen ▸ h.full, h.notClosed, hids ▸ h.copies⟩
  · change Holds s.maxbufs (update s.pkts i ((s.pkts i).map f)) s.buftail _
    have hlen' := h.len
    have hset := h.ring.set (le_of_eq (length_cells hlen')) (k := l.length)
      (by rw [length_cells hlen']; simp at hlen'; omega) (some (f p))
    rw [cells_append, cells_cons, set_append_right _ _ (by simp), length_map,
      Nat.sub_self, set_cons_zero, ← hi] at hset
    rw [hfp, cells_append, cells_cons]
    exact hset
  · intro k hk
    have hlt : i < s.maxbufs := by
      rw [hi]
      exact Nat.mod_lt _ (by have htwo := h.two; omega)
    change update s.pkts i _ k = none
    have hk' : s.maxbufs ≤ k := hk
    rw [update_of_ne (by omega)]
    exact h.outside k hk
  · have hsorted := h.sorted
    have hmap : (l ++ f p :: r).map (·.seqno) = (l ++ p :: r).map (·.seqno) := by simp [hseq]
    rw [← pairwise_map (f := Pkt.seqno) (R := (· < ·))] at hsorted ⊢
    rw [hmap]
    exact hsorted

theorem cancel_spec (h : Timed s c) : s.cancel.scheduled = [] ∧ s.cancel.toutPending = none := by
  have hsched := h.scheduled
  unfold Agent.cancel
  cases htout : s.toutPending with
  | none =>
    rw [htout] at hsched
    exact ⟨hsched, htout⟩
  | some e =>
    rw [htout, Option.toList_some] at hsched
    exact ⟨by simp [hsched], rfl⟩

theorem cancel_same (s : Agent) : Same s s.cancel := by
  unfold Agent.cancel
  cases s.toutPending <;> exact ⟨rfl, rfl⟩

theorem Cache.cancel (h : Cache s c) : Cache s.cancel c := by
  unfold Agent.cancel
  cases s.toutPending
  · exact h
  · exact h.congr rfl rfl rfl rfl le_rfl rfl rfl rfl rfl rfl

theorem Timed.none (hsched : s.scheduled = []) (htout : s.toutPending = none) : Timed s c :=
  ⟨by rw [hsched, htout]; rfl, by rw [htout]; simp⟩

theorem Cache.schedule (h : Cache s (p :: c)) (hsched : s.scheduled = []) :
    ∃ s', s.schedule s.buftail = some s' ∧ Cache s' (p :: c) ∧ Timed s' (p :: c) ∧ Same s s' := by
  unfold Agent.schedule
  rw [h.slot_tail, head?_cons, Option.bind_some, hsched, if_neg not_mem_nil]
  refine ⟨_, rfl, h.congr rfl rfl rfl rfl le_rfl rfl rfl rfl rfl rfl, ⟨rfl, ?_⟩, rfl, rfl⟩
  rintro e ⟨⟩
  exact mem_cons_self

theorem Cache.start (h : Cache s c) (hsched : s.scheduled = []) (htout : s.toutPending = none) :
    ∃ s', (if s.empty then some s else s.schedule s.buftail) = some s' ∧ Cache s' c ∧ Timed s' c ∧
      Same s s' := by
  cases c with
  | nil =>
    rw [if_pos (h.empty_iff.mpr rfl)]
    exact ⟨s, rfl, h, Timed.none hsched htout, rfl, rfl⟩
  | cons p c =>
    rw [if_neg (by rw [h.empty_iff]; exact cons_ne_nil _ _)]
    exact h.schedule hsched

theorem restart_spec {b : Bool} (h : Cache s c) (ht : Timed s c) :
    ∃ s', s.restart b = some s' ∧ Sound s' ∧ Same s s' := by
  obtain ⟨t, hteq, hcache, htimed, hsame⟩ : ∃ t, (if b then s.cancel else s) = t ∧ Cache t c ∧
      Timed t c ∧ Same s t := by
    cases b with
    | false => exact ⟨s, rfl, h, ht, rfl, rfl⟩
    | true =>
      obtain ⟨hsched, htout⟩ := cancel_spec ht
      exact ⟨s.cancel, rfl, h.cancel, Timed.none hsched htout, cancel_same s⟩
  unfold Agent.restart
  rw [hteq]
  by_cases hstart : t.toutPending = none ∧ ¬ t.empty
  · have hsched := htimed.scheduled
    rw [hstart.1] at hsched
    obtain ⟨s', hs', hcache', htimed', hsame'⟩ := hcache.start hsched hstart.1
    rw [if_neg hstart.2] at hs'
    rw [if_pos hstart]
    exact ⟨s', hs', ⟨c, hcache', htimed'⟩, hsame'.1.trans hsame.1, hsame'.2.trans hsame.2⟩
  · rw [if_neg hstart]
    exact ⟨t, rfl, ⟨c, hcache, htimed⟩, hsame⟩

theorem rxmit_spec (h : Cache s (p :: c)) (ht : Timed s (p :: c)) :
    ∃ s' v, s.snoopRxmit now s.buftail = some (s', v) ∧ Sound s' ∧ Same s s' := by
  unfold Agent.snoopRxmit
  rw [h.slot_tail, head?_cons, Option.bind_some]
  by_cases hmax : p.numRxmit < snoopMaxRxmit
  · rw [if_pos hmax]
    have hi : s.buftail = (s.buftail + ([] : List Pkt).length) % s.maxbufs :=
      (Nat.mod_eq_of_lt h.tail).symm
    generalize hf : (fun sh : Pkt => { sh with sndTime := now, numRxmit := sh.numRxmit + 1 }) = f
    have hmark : Cache (s.mark s.buftail f) (f p :: c) := by
      rw [← hf]
      exact Cache.mark (l := []) h hi rfl rfl
    have htmark : Timed (s.mark s.buftail f) (p :: c) := ⟨ht.scheduled, ht.cached⟩
    obtain ⟨hsched, -⟩ := cancel_spec htmark
    have hsame := cancel_same (s.mark s.buftail f)
    obtain ⟨s', hs', hcache', htimed', hsame'⟩ := hmark.cancel.schedule hsched
    have htail : (s.mark s.buftail f).cancel.buftail = s.buftail := by
      unfold Agent.cancel
      split <;> rfl
    rw [htail] at hs'
    rw [hs']
    exact ⟨s', _, rfl, ⟨_, hcache', htimed'⟩, hsame'.1.trans hsame.1, hsame'.2.trans hsame.2⟩
  · rw [if_neg hmax]
    exact ⟨s, _, rfl, ⟨_, h, ht⟩, rfl, rfl⟩

theorem handle_spec (h : Cache s c) (hsched : s.scheduled = []) :
    ∃ s', s.handle now = some s' ∧ Sound s' ∧ Same s s' := by
  have hcache : Cache { s with toutPending := none } c :=
    h.congr rfl rfl rfl rfl le_rfl rfl rfl rfl rfl rfl
  have htimed : Timed { s with toutPending := none } c := Timed.none hsched rfl
  unfold Agent.handle
  dsimp only
  cases hslot : s.pkts s.buftail with
  | none => exact ⟨_, rfl, ⟨c, hcache, htimed⟩, rfl, rfl⟩
  | some sh =>
    dsimp only
    split
    · exact ⟨_, rfl, ⟨c, hcache, htimed⟩, rfl, rfl⟩
    split
    · obtain ⟨p, c, rfl⟩ : ∃ p c', c = p :: c' := by
        rw [h.slot_tail] at hslot
        exact ⟨sh, c.tail, eq_cons_of_mem_head? hslot⟩
      obtain ⟨s', v, hs', ⟨c', hcache', htimed'⟩, hsame⟩ := @rxmit_spec _ _ _ now hcache htimed
      rw [hs', Option.map_some]
      refine ⟨_, rfl, ?_, ?_⟩
      · split
        · exact ⟨c', hcache'.congr rfl rfl rfl rfl le_rfl rfl rfl rfl rfl rfl,
            ⟨htimed'.scheduled, htimed'.cached⟩⟩
        · exact ⟨c', hcache', htimed'⟩
      · split
        · exact hsame
        · exact hsame
    · exact ⟨_, rfl, ⟨c, hcache, htimed⟩, rfl, rfl⟩

end NetSim.Snoop
