import Mathlib.Algebra.BigOperators.Group.Finset.Basic
import Mathlib.Algebra.BigOperators.Intervals
import Mathlib.Algebra.Order.BigOperators.Group.Finset
import Mathlib.Data.List.DropRight
import NetSim.Lib.Ring
import NetSim.Lib.Runs

/-! # The receive window of a TCP sink

`Acker` of `tcp/tcp-sink.cc`: the packets from `next_` to `maxseen_` are remembered in a ring of
`wndmask_ + 1` cells, a power of two that doubles on demand. A cell holds the bytes of its packet,
or 0 when the packet is missing; the cell behind `maxseen_` is 0, which is what ends the loop that
advances `next_`.

`Window m a` relates the ring to the map `m` of the bytes recorded for each packet. An `int` overflows
where a gap needs more than `2 ^ 30` cells (`grow_none`): `update` then fails. The bytes that it returns
wrap around.
-/

namespace NetSim

open List Finset

/-- The fields of `Acker` that concern the window. -/
structure Acker where
  next : ℕ
  maxseen : ℕ
  wndmask : ℕ
  seen : ℕ → ℤ
  isDup : Bool

namespace Acker

def mws : ℕ := 64

def init : Acker :=
  { next := 0, maxseen := 0, wndmask := mws - 1, seen := fun _ => 0, isDup := false }

def reset (a : Acker) : Acker := { a with next := 0, maxseen := 0, seen := fun _ => 0 }

def slot (a : Acker) (i : ℕ) : ℕ := i &&& a.wndmask

/-- `Acker::Seqno`, the cumulative acknowledgment. -/
def seqno (a : Acker) : ℤ := a.next - 1

def resizeBuffers (a : Acker) (sz : ℕ) : Acker :=
  { a with
    wndmask := sz - 1
    seen := Ring.write (· &&& (sz - 1)) (fun i => a.seen (a.slot i)) (a.maxseen + 2 - a.next) a.next
      (fun _ => 0) }

/-- The loop that resizes the buffer: `while (seq + 1 - next_ >= wndmask_)`. A size from `2 ^ 31` on is
negative as an `int`, and the loop that copies does not end when `maxseen_ + 1` is the largest `int`. -/
def grow (seq : ℕ) : ℕ → Acker → Option Acker
  | 0, _ => none
  | fuel + 1, a =>
    if a.next + a.wndmask ≤ seq + 1 then
      if 2 ^ 31 ≤ (a.wndmask + 1) * 2 ∨ 2 ^ 31 ≤ a.maxseen + 2 then none
      else grow seq fuel (a.resizeBuffers ((a.wndmask + 1) * 2))
    else some a

/-- When the packet is the highest so far, the packets between the old and the new maximum are
unseen, and so is the one behind the new maximum. -/
def raise (a : Acker) (seq : ℕ) (numBytes : ℤ) : Acker :=
  let cleared := Ring.write a.slot (fun _ => (0 : ℤ)) (seq - (a.maxseen + 1)) (a.maxseen + 1) a.seen
  { a with
    maxseen := seq
    seen := Function.update (Function.update cleared (a.slot seq) numBytes) (a.slot (seq + 1)) 0 }

/-- The first part of `Acker::update` after the buffer has been resized. -/
def note (a : Acker) (seq : ℕ) (numBytes : ℤ) : Acker :=
  if a.maxseen < seq then a.raise seq numBytes else a

/-- The loop that delivers: `while (seen_[next & wndmask_])`. The new `next` and the bytes, an `int`. -/
def deliver (a : Acker) : ℕ → ℕ → ℤ → Option (ℕ × ℤ)
  | 0, _, _ => none
  | fuel + 1, next, numToDeliver =>
    if a.seen (a.slot next) ≠ 0 then
      a.deliver fuel (next + 1) ((numToDeliver + a.seen (a.slot next)).bmod (2 ^ 32))
    else some (next, numToDeliver)

/-- The second part: duplicates and delivery. `old` is the state before `note`. In `wndmask_ + 1` iterations the delivery
loop has looked at every cell: if it is not over then, it never is. -/
def mark (old a : Acker) (seq : ℕ) (numBytes : ℤ) : Option (Acker × ℤ) :=
  let justMarkedAsSeen := decide (old.maxseen < seq)
  let isDup := decide (seq < a.next)
  if a.next ≤ seq ∧ seq ≤ a.maxseen then
    let isDup := isDup || (decide (a.seen (a.slot seq) ≠ 0) && !justMarkedAsSeen)
    let b := { a with isDup, seen := Function.update a.seen (a.slot seq) numBytes }
    (b.deliver (b.wndmask + 2) b.next 0).map (fun r => ({ b with next := r.1 }, r.2))
  else some ({ a with isDup }, 0)

/-- `Acker::update`; `seq + 1` is an `int`. The mask grows with every resizing, so `seq + 2` of them are
enough. -/
def update (a : Acker) (seq : ℕ) (numBytes : ℤ) : Option (Acker × ℤ) :=
  if 2 ^ 31 ≤ seq + 1 then none
  else (grow seq (seq + 2) a).bind (fun a => mark a (a.note seq numBytes) seq numBytes)

/-- The bytes of the packets that wait behind a missing one. -/
def pending (a : Acker) : ℤ := ∑ x ∈ Finset.Ico a.next (a.maxseen + 1), a.seen (a.slot x)

variable {a a' : Acker} {m m' : ℕ → ℤ} {seq x : ℕ} {numBytes : ℤ}

/-! ## The window -/

/-- The cells of the window are those of the map `m`. -/
structure Cells (m : ℕ → ℤ) (a : Acker) : Prop where
  mask : ∃ k, a.wndmask + 1 = 2 ^ k
  wide : 1 < a.wndmask
  room : a.maxseen + 1 < a.next + a.wndmask
  le : a.next ≤ a.maxseen + 1
  cells : ∀ x, a.next ≤ x → x ≤ a.maxseen + 1 → a.seen (a.slot x) = m x
  above : ∀ x, a.maxseen < x → m x = 0

/-- The ring represents the map `m` of recorded bytes: everything below `next_` has been received,
`next_` has not, and `maxseen_` is the last that has been, or 0. -/
structure Window (m : ℕ → ℤ) (a : Acker) : Prop extends Cells m a where
  below : ∀ x, x < a.next → m x ≠ 0
  missing : m a.next = 0
  last : m a.maxseen ≠ 0 ∨ a.maxseen = 0

theorem Cells.injOn (h : Cells m a) {hi : ℕ} (hhi : hi ≤ a.next + a.wndmask) :
    Set.InjOn a.slot (Set.Icc a.next hi) := by
  obtain ⟨k, hk⟩ := h.mask
  exact Ring.injOn_mask hk hhi

/-! ## Resizing -/

theorem Cells.resizeBuffers (h : Cells m a) :
    Cells m (a.resizeBuffers ((a.wndmask + 1) * 2)) := by
  obtain ⟨k, hk⟩ := h.mask
  have hmask : (a.wndmask + 1) * 2 - 1 + 1 = 2 ^ (k + 1) := by
    omega
  have hroom := h.room
  have hle := h.le
  have hwnd : (a.resizeBuffers ((a.wndmask + 1) * 2)).wndmask = (a.wndmask + 1) * 2 - 1 := rfl
  refine ⟨⟨k + 1, hmask⟩, by omega, ?_, h.le, fun x hx hx' => ?_, h.above⟩
  · show a.maxseen + 1 < a.next + _
    omega
  · change a.next ≤ x at hx
    change x ≤ a.maxseen + 1 at hx'
    -- the whole window is copied
    have hinj : Set.InjOn (· &&& ((a.wndmask + 1) * 2 - 1)) (Set.Icc a.next (a.maxseen + 1)) :=
      Ring.injOn_mask hmask (by omega)
    have hcopy := Ring.write_slot hinj (fun i => a.seen (a.slot i)) (fun _ => 0) le_rfl
      (show a.next + (a.maxseen + 2 - a.next) ≤ a.maxseen + 1 + 1 by omega) hx hx'
    rw [if_pos (by omega)] at hcopy
    exact hcopy.trans (h.cells x hx hx')

/-- **The buffer grows until it holds the packet**, and nothing else changes. -/
theorem grow_spec (h : Cells m a) {fuel : ℕ} (hgrow : grow seq fuel a = some a') :
    Cells m a' ∧ a'.next = a.next ∧ a'.maxseen = a.maxseen ∧ seq + 1 < a'.next + a'.wndmask := by
  induction fuel generalizing a with
  | zero => cases hgrow
  | succ fuel ih =>
    rw [grow] at hgrow
    split at hgrow
    case isTrue hsmall =>
      split at hgrow
      · cases hgrow
      · have hnew := ih h.resizeBuffers hgrow
        exact hnew
    case isFalse hlarge =>
      cases hgrow
      exact ⟨h, rfl, rfl, not_le.mp hlarge⟩

theorem grow_some (h : Cells m a) {fuel : ℕ} (hpos : 0 < fuel)
    (hfuel : seq + 2 < a.next + a.wndmask + fuel) (hseq : seq + 2 < a.next + 2 ^ 30)
    (hmax : a.maxseen + 2 < 2 ^ 31) : ∃ a', grow seq fuel a = some a' := by
  induction fuel generalizing a with
  | zero => omega
  | succ fuel ih =>
    rw [grow]
    split
    case isTrue hsmall =>
      rw [if_neg (by omega)]
      have hwnd : (a.resizeBuffers ((a.wndmask + 1) * 2)).wndmask = (a.wndmask + 1) * 2 - 1 := rfl
      have hnext : (a.resizeBuffers ((a.wndmask + 1) * 2)).next = a.next := rfl
      exact ih h.resizeBuffers (by omega) (by omega) (by omega) hmax
    case isFalse hlarge => exact ⟨a, rfl⟩

/-- **The size overflows** when the packet is too far ahead of `next_`. -/
theorem grow_none (h : Cells m a) (hseq : a.next + 2 ^ 30 ≤ seq + 2) (hwnd : a.wndmask < 2 ^ 30)
    (fuel : ℕ) : grow seq fuel a = none := by
  induction fuel generalizing a with
  | zero => rfl
  | succ fuel ih =>
    rw [grow, if_pos (by omega)]
    split
    · rfl
    case isFalse hfits =>
      have hnew : (a.resizeBuffers ((a.wndmask + 1) * 2)).wndmask = (a.wndmask + 1) * 2 - 1 := rfl
      refine ih h.resizeBuffers hseq ?_
      -- the size is a power of two below `2 ^ 31`
      obtain ⟨k, hk⟩ := h.resizeBuffers.mask
      have hlt : 2 ^ k < 2 ^ 31 := by omega
      have hle : k < 31 := (Nat.pow_lt_pow_iff_right (show 1 < 2 by omega)).mp hlt
      have hpow : 2 ^ k ≤ 2 ^ 30 := Nat.pow_le_pow_right (by omega) (by omega)
      omega

/-! ## Marking the packet -/

theorem Cells.raise (h : Cells m a) (hroom : seq + 1 < a.next + a.wndmask) (hlt : a.maxseen < seq) :
    Cells (Function.update m seq numBytes) (a.raise seq numBytes) := by
  have hle := h.le
  have hinj : Set.InjOn a.slot (Set.Icc a.next (seq + 1)) := h.injOn (by omega)
  refine ⟨h.mask, h.wide, hroom, ?_, fun x hx hx' => ?_, fun x hx => ?_⟩
  · show a.next ≤ seq + 1
    omega
  · change x ≤ seq + 1 at hx'
    have hslot : (a.raise seq numBytes).slot x = a.slot x := rfl
    rw [hslot, Acker.raise]
    dsimp only
    rw [Ring.update_slot hinj _ _ (by omega) le_rfl hx hx',
      Ring.update_slot hinj _ _ (by omega) (by omega) hx hx',
      Ring.write_slot hinj _ _ (by omega) (by omega) hx hx', Function.update_apply]
    -- the packet behind the new maximum, the new maximum, the gap, the old window
    by_cases h1 : x = seq + 1
    · rw [if_pos h1, if_neg (by omega), h.above x (by omega)]
    · rw [if_neg h1]
      by_cases h2 : x = seq
      · rw [if_pos h2, if_pos h2]
      · rw [if_neg h2, if_neg h2]
        by_cases h3 : a.maxseen < x
        · rw [if_pos (by omega), h.above x h3]
        · rw [if_neg (by omega), h.cells x hx (by omega)]
  · change seq < x at hx
    rw [Function.update_of_ne (by omega)]
    exact h.above x (by omega)

theorem Cells.mark (h : Cells m a) (hge : a.next ≤ seq) (hle : seq ≤ a.maxseen) (isDup : Bool) :
    Cells (Function.update m seq numBytes)
      { a with isDup, seen := Function.update a.seen (a.slot seq) numBytes } := by
  have hroom := h.room
  have hinj : Set.InjOn a.slot (Set.Icc a.next (a.maxseen + 1)) := h.injOn (by omega)
  refine ⟨h.mask, h.wide, h.room, h.le, fun x hx hx' => ?_, fun x hx => ?_⟩
  · show Function.update a.seen (a.slot seq) numBytes (a.slot x) = Function.update m seq numBytes x
    rw [Ring.update_slot hinj _ _ hge (by omega) hx hx', Function.update_apply, h.cells x hx hx']
  · change a.maxseen < x at hx
    rw [Function.update_of_ne (by omega)]
    exact h.above x hx

/-! ## Delivery -/

/-- **The delivery loop ends at the first missing packet**, with the bytes of those before it. -/
theorem deliver_spec (h : Cells m a) {fuel next : ℕ} (hge : a.next ≤ next)
    (hle : next ≤ a.maxseen + 1) (hfuel : a.maxseen + 1 < next + fuel) (numToDeliver : ℤ) :
    ∃ next', a.deliver fuel next (numToDeliver.bmod (2 ^ 32)) =
        some (next', (numToDeliver + ∑ x ∈ Finset.Ico next next', m x).bmod (2 ^ 32)) ∧
      next ≤ next' ∧ next' ≤ a.maxseen + 1 ∧ (∀ x, next ≤ x → x < next' → m x ≠ 0) ∧
      m next' = 0 := by
  induction fuel generalizing next numToDeliver with
  | zero => omega
  | succ fuel ih =>
    rw [deliver, h.cells next hge hle]
    split
    case isTrue hne =>
      -- the cell behind the maximum is 0
      have hlt : next ≠ a.maxseen + 1 := fun heq => hne (h.above next (by omega))
      obtain ⟨next', heq, h1, h2, h3, h4⟩ :=
        @ih (next + 1) (by omega) (by omega) (by omega) (numToDeliver + m next)
      refine ⟨next', ?_, by omega, h2, fun x hx hx' => ?_, h4⟩
      · rw [Int.bmod_add_bmod, heq, Finset.sum_eq_sum_Ico_succ_bot (show next < next' by omega),
          add_assoc]
      · by_cases hxn : x = next
        · rw [hxn]
          exact hne
        · exact h3 x (by omega) hx'
    case isFalse hzero =>
      refine ⟨next, by simp, le_rfl, hle, fun x hx hx' => by omega, not_not.mp hzero⟩

/-! ## `update` -/

/-- Record the bytes of a packet. A packet with everything up to it received has been delivered
and keeps the bytes that it was delivered with. -/
def record (m : ℕ → ℤ) (seq : ℕ) (numBytes : ℤ) : ℕ → ℤ :=
  if ∀ y ≤ seq, m y ≠ 0 then m else Function.update m seq numBytes

theorem Window.deliver (h : Window m a) {a₁ : Acker} (hge : a.next ≤ seq) (hpos : 0 < numBytes)
    (h₁ : Cells (Function.update m seq numBytes) a₁) (hnext : a₁.next = a.next)
    (hmax : a₁.maxseen = max a.maxseen seq) :
    ∃ next', a₁.deliver (a₁.wndmask + 2) a₁.next 0 =
        some (next', (∑ x ∈ Finset.Ico a.next next', Function.update m seq numBytes x).bmod (2 ^ 32)) ∧
      a.next ≤ next' ∧ Window (Function.update m seq numBytes) { a₁ with next := next' } := by
  have hroom := h₁.room
  obtain ⟨next', heq, h1, h2, h3, h4⟩ :=
    deliver_spec h₁ le_rfl h₁.le (show a₁.maxseen + 1 < a₁.next + (a₁.wndmask + 2) by omega) 0
  rw [hnext, zero_add, Int.zero_bmod] at heq
  rw [hnext] at h1 h3
  refine ⟨next', by rw [hnext]; exact heq, h1,
    ⟨⟨h₁.mask, h₁.wide, ?_, h2, fun x hx hx' => ?_, h₁.above⟩, fun x hx => ?_, h4, ?_⟩⟩
  · show a₁.maxseen + 1 < next' + a₁.wndmask
    omega
  · exact h₁.cells x (by rw [hnext]; exact h1.trans hx) hx'
  · by_cases hxn : x < a.next
    · rw [Function.update_of_ne (by omega)]
      exact h.below x hxn
    · exact h3 x (by omega) hx
  · rw [hmax]
    rcases le_or_gt a.maxseen seq with hle | hlt
    · rw [max_eq_right hle, Function.update_self]
      exact Or.inl hpos.ne'
    · rw [max_eq_left hlt.le, Function.update_of_ne (by omega)]
      exact h.last

theorem mark_old (h : Window m a) (hold : seq < a.next) :
    mark a (a.note seq numBytes) seq numBytes = some ({ a with isDup := true }, 0) := by
  have hle := h.le
  rw [note, if_neg (by omega), mark, if_neg (by omega)]
  simp [hold]

theorem note_spec (h : Window m a) (hge : a.next ≤ seq) (hroom : seq + 1 < a.next + a.wndmask) :
    ∃ m₁, Cells m₁ (a.note seq numBytes) ∧
      Function.update m₁ seq numBytes = Function.update m seq numBytes ∧
      (a.note seq numBytes).next = a.next ∧ (a.note seq numBytes).maxseen = max a.maxseen seq ∧
      (((a.note seq numBytes).seen ((a.note seq numBytes).slot seq) ≠ 0 ∧ ¬ a.maxseen < seq) ↔
        m seq ≠ 0) := by
  unfold note
  split
  case isTrue hhigh =>
    refine ⟨Function.update m seq numBytes, h.toCells.raise hroom hhigh, Function.update_idem .., rfl,
      (max_eq_right hhigh.le).symm, ?_⟩
    exact iff_of_false (fun hc => hc.2 hhigh) (fun hc => hc (h.above seq hhigh))
  case isFalse hlow =>
    refine ⟨m, h.toCells, rfl, rfl, (max_eq_left (not_lt.mp hlow)).symm, ?_⟩
    rw [h.cells seq hge (by omega)]
    exact and_iff_left hlow

theorem mark_spec (h : Window m a) (hroom : seq + 1 < a.next + a.wndmask) (hpos : 0 < numBytes) :
    ∃ a' d, mark a (a.note seq numBytes) seq numBytes = some (a', d) ∧
      Window (record m seq numBytes) a' ∧ a.next ≤ a'.next ∧ a'.maxseen = max a.maxseen seq ∧
      d = (∑ x ∈ Finset.Ico a.next a'.next, record m seq numBytes x).bmod (2 ^ 32) ∧
      (a'.isDup = true ↔ m seq ≠ 0) ∧
      ∀ x, a.next ≤ x → x ≤ a'.maxseen + 1 → a'.seen (a'.slot x) = record m seq numBytes x := by
  by_cases hold : seq < a.next
  · have hrec : record m seq numBytes = m := if_pos (fun y hy => h.below y (by omega))
    rw [mark_old h hold, hrec]
    have hle := h.le
    have hmax : a.maxseen = max a.maxseen seq := by
      omega
    refine ⟨_, _, rfl, ⟨⟨h.mask, h.wide, h.room, h.le, h.cells, h.above⟩, h.below, h.missing,
      h.last⟩, le_rfl, hmax, by simp, ?_, h.cells⟩
    exact iff_of_true rfl (h.below seq hold)
  · have hge : a.next ≤ seq := not_lt.mp hold
    have hrec : record m seq numBytes = Function.update m seq numBytes :=
      if_neg (fun hall => hall a.next hge h.missing)
    rw [hrec]
    obtain ⟨m₁, hcells, hm₁, hnext, hmax, hdup⟩ := @note_spec a m seq numBytes h hge hroom
    generalize a.note seq numBytes = b at hcells hnext hmax hdup ⊢
    have hin : b.next ≤ seq ∧ seq ≤ b.maxseen := by
      rw [hnext, hmax]
      exact ⟨hge, le_max_right _ _⟩
    have hmarked := @Cells.mark b m₁ seq numBytes hcells hin.1 hin.2
      (decide (b.seen (b.slot seq) ≠ 0) && !decide (a.maxseen < seq))
    rw [hm₁] at hmarked
    obtain ⟨next', hdel, hle, hwin⟩ := h.deliver hge hpos hmarked hnext hmax
    rw [mark, if_pos hin, decide_eq_false (not_lt.mpr hin.1), Bool.false_or]
    dsimp only at hdel ⊢
    rw [hdel]
    refine ⟨_, _, rfl, hwin, hle, hmax, rfl, ?_, fun x hx hx' => ?_⟩
    · rw [← hdup]
      simp
    · rw [← hnext] at hx
      exact hmarked.cells x hx hx'

theorem Window.of_cells (h : Window m a) (hcells : Cells m a') (hnext : a'.next = a.next)
    (hmax : a'.maxseen = a.maxseen) : Window m a' := by
  refine ⟨hcells, ?_, ?_, ?_⟩
  · rw [hnext]
    exact h.below
  · rw [hnext]
    exact h.missing
  · rw [hmax]
    exact h.last

/-- **One packet**: when `update` does not fail, it records the packet and returns the bytes of the
packets that `next_` passes. The cells of these packets still hold their bytes. -/
theorem update_spec (h : Window m a) (hpos : 0 < numBytes) {d : ℤ}
    (hupd : a.update seq numBytes = some (a', d)) :
    Window (record m seq numBytes) a' ∧ a.next ≤ a'.next ∧ a'.maxseen = max a.maxseen seq ∧
      d = (∑ x ∈ Finset.Ico a.next a'.next, record m seq numBytes x).bmod (2 ^ 32) ∧
      (a'.isDup = true ↔ m seq ≠ 0) ∧
      ∀ x, a.next ≤ x → x ≤ a'.maxseen + 1 → a'.seen (a'.slot x) = record m seq numBytes x := by
  rw [update] at hupd
  split at hupd
  · cases hupd
  obtain ⟨a₁, hgrow, hmark⟩ := Option.bind_eq_some_iff.mp hupd
  obtain ⟨hcells, hnext, hmax, hroom⟩ := grow_spec h.toCells hgrow
  obtain ⟨a₂, d₂, hmark₂, hspec⟩ :=
    @mark_spec a₁ m seq numBytes (h.of_cells hcells hnext hmax) hroom hpos
  rw [hmark] at hmark₂
  cases hmark₂
  rw [hnext, hmax] at hspec
  exact hspec

/-- **It does not fail** while the gap needs at most `2 ^ 30` cells. -/
theorem update_some (h : Window m a) (hpos : 0 < numBytes) (hseq : seq + 2 < 2 ^ 31)
    (hgap : seq + 2 < a.next + 2 ^ 30) (hmax : a.maxseen + 2 < 2 ^ 31) :
    ∃ a' d, a.update seq numBytes = some (a', d) := by
  have hroom := h.room
  obtain ⟨a₁, hgrow⟩ := @grow_some a m seq h.toCells (seq + 2) (by omega) (by omega) hgap hmax
  obtain ⟨hcells, hnext, hmax₁, hroom₁⟩ := grow_spec h.toCells hgrow
  obtain ⟨a₂, d₂, hmark, -⟩ :=
    @mark_spec a₁ m seq numBytes (h.of_cells hcells hnext hmax₁) hroom₁ hpos
  refine ⟨a₂, d₂, ?_⟩
  rw [update, if_neg (by omega), hgrow, Option.bind_some, hmark]

theorem window_reset (h : Window m a) : Window (fun _ => 0) a.reset := by
  have hwide := h.wide
  refine ⟨⟨h.mask, h.wide, ?_, Nat.zero_le _, fun _ _ _ => rfl, fun _ _ => rfl⟩,
    fun x hx => absurd hx (Nat.not_lt_zero x), rfl, Or.inr rfl⟩
  show 0 + 1 < 0 + a.wndmask
  omega

theorem window_init : Window (fun _ => 0) init :=
  ⟨⟨⟨6, rfl⟩, by decide, by decide, by decide, fun _ _ _ => rfl, fun _ _ => rfl⟩,
    fun x hx => absurd hx (Nat.not_lt_zero x), rfl, Or.inr rfl⟩

/-! ## Runs -/

inductive Op where
  | update (seq : ℕ) (numBytes : ℤ)
  | reset
  deriving DecidableEq

/-- One call, with the value that `update` returns. -/
def step (a : Acker) : Op → Option (Acker × ℤ)
  | .update seq numBytes => a.update seq numBytes
  | .reset => some (a.reset, 0)

/-- The packet and its gap stay within the `int`s, and the bytes that wait do with it. -/
def Fits (a : Acker) : Op → Prop
  | .update seq numBytes => 0 < numBytes ∧ seq + 2 < 2 ^ 31 ∧ seq + 2 < a.next + 2 ^ 30 ∧
      a.pending + numBytes < 2 ^ 31
  | .reset => True

instance (a : Acker) : ∀ op, Decidable (Fits a op)
  | .update seq numBytes => inferInstanceAs (Decidable (0 < numBytes ∧ seq + 2 < 2 ^ 31 ∧
      seq + 2 < a.next + 2 ^ 30 ∧ a.pending + numBytes < 2 ^ 31))
  | .reset => inferInstanceAs (Decidable True)

/-- The calls since the last `reset`. -/
def since (ops : List Op) : List Op := ops.rtakeWhile (· ≠ .reset)

def Received (ops : List Op) (x : ℕ) : Prop := ∃ numBytes, .update x numBytes ∈ since ops

def recorded (ops : List Op) : ℕ → ℤ :=
  ops.foldl (fun m op => match op with
    | .update seq numBytes => record m seq numBytes
    | .reset => fun _ => 0) (fun _ => 0)

/-- The sum of the values that `update` has returned since the last `reset`. -/
def returned (ops : List Op) (outs : List ℤ) : ℤ :=
  (ops.zip outs).foldl (fun total r => match r.1 with
    | .update _ _ => total + r.2
    | .reset => 0) 0

variable {ops : List Op} {outs : List ℤ}

theorem since_update (ops : List Op) (seq : ℕ) (numBytes : ℤ) :
    since (ops ++ [.update seq numBytes]) = since ops ++ [.update seq numBytes] :=
  rtakeWhile_concat_pos _ _ _ (by simp)

theorem since_reset (ops : List Op) : since (ops ++ [.reset]) = [] :=
  rtakeWhile_concat_neg _ _ _ (by simp)

/-- What holds after the calls `past`: the ring represents the recorded bytes, which are those of
an arrival of the packet, and the bytes below `next_` have been returned. -/
structure Tracks (past : List Op) (outs : List ℤ) (a : Acker) : Prop where
  window : Window (recorded past) a
  small : a.maxseen + 2 < 2 ^ 31
  nonneg : ∀ x, 0 ≤ recorded past x
  length : past.length = outs.length
  returned : returned past outs = ∑ x ∈ range a.next, recorded past x
  arrived : ∀ x, recorded past x ≠ 0 → .update x (recorded past x) ∈ since past
  received : ∀ x, Received past x → recorded past x ≠ 0

theorem Window.record_below (h : Window m a) (hx : x < a.next) : record m seq numBytes x = m x := by
  unfold record
  split
  · rfl
  · rename_i hnot
    refine Function.update_of_ne (fun heq => hnot (fun y hy => h.below y ?_)) _ _
    omega

theorem record_ne_zero (hpos : 0 < numBytes) (hm : m x ≠ 0 ∨ x = seq) :
    record m seq numBytes x ≠ 0 := by
  unfold record
  split
  · rename_i hall
    rcases hm with hm | rfl
    · exact hm
    · exact hall x le_rfl
  · rw [Function.update_apply]
    split
    · exact hpos.ne'
    · rename_i hne
      exact hm.resolve_right hne

theorem record_eq (m : ℕ → ℤ) (seq : ℕ) (numBytes : ℤ) (x : ℕ) :
    record m seq numBytes x = m x ∨ (x = seq ∧ record m seq numBytes x = numBytes) := by
  unfold record
  split
  · exact Or.inl rfl
  · rw [Function.update_apply]
    split
    · rename_i heq
      exact Or.inr ⟨heq, rfl⟩
    · exact Or.inl rfl

theorem record_nonneg (hpos : 0 < numBytes) (hm : ∀ x, 0 ≤ m x) (x : ℕ) :
    0 ≤ record m seq numBytes x := by
  rcases record_eq m seq numBytes x with heq | ⟨-, heq⟩
  · rw [heq]
    exact hm x
  · rw [heq]
    exact hpos.le

theorem record_le (hpos : 0 < numBytes) (hm : ∀ x, 0 ≤ m x) (x : ℕ) :
    record m seq numBytes x ≤ m x + if x = seq then numBytes else 0 := by
  rcases record_eq m seq numBytes x with heq | ⟨rfl, heq⟩
  · rw [heq]
    split <;> omega
  · have hx := hm x
    rw [heq, if_pos rfl]
    omega

theorem Cells.pending_eq (h : Cells m a) : a.pending = ∑ x ∈ Finset.Ico a.next (a.maxseen + 1), m x :=
  Finset.sum_congr rfl (fun x hx => by
    have hx := Finset.mem_Ico.mp hx
    exact h.cells x hx.1 (by omega))

/-- **The bytes that are delivered** wait already, or are those of the packet. -/
theorem Cells.delivered_le (h : Cells m a) (hm : ∀ x, 0 ≤ m x) (hpos : 0 < numBytes) (hi : ℕ) :
    ∑ x ∈ Finset.Ico a.next hi, record m seq numBytes x ≤ a.pending + numBytes := by
  have hwaiting : ∑ x ∈ Finset.Ico a.next hi, m x ≤ a.pending := by
    rw [h.pending_eq]
    -- nothing is recorded above the maximum
    have hsame : ∑ x ∈ Finset.Ico a.next (min hi (a.maxseen + 1)), m x = ∑ x ∈ Finset.Ico a.next hi, m x := by
      refine Finset.sum_subset (Finset.Ico_subset_Ico_right (min_le_left _ _)) (fun x hx hx' => ?_)
      rw [Finset.mem_Ico] at hx hx'
      exact h.above x (by omega)
    rw [← hsame]
    exact Finset.sum_le_sum_of_subset_of_nonneg (Finset.Ico_subset_Ico_right (min_le_right _ _))
      (fun x _ _ => hm x)
  have hpacket : ∑ x ∈ Finset.Ico a.next hi, (if x = seq then numBytes else 0) ≤ numBytes := by
    rw [Finset.sum_ite_eq']
    split <;> omega
  calc ∑ x ∈ Finset.Ico a.next hi, record m seq numBytes x
      ≤ ∑ x ∈ Finset.Ico a.next hi, (m x + if x = seq then numBytes else 0) :=
        Finset.sum_le_sum (fun x _ => record_le hpos hm x)
    _ ≤ a.pending + numBytes := by
        rw [Finset.sum_add_distrib]
        omega

theorem Tracks.update (h : Tracks ops outs a) (hfits : Fits a (.update seq numBytes)) :
    ∃ a' d, a.update seq numBytes = some (a', d) ∧
      Tracks (ops ++ [.update seq numBytes]) (outs ++ [d]) a' ∧
      (a'.isDup = true ↔ Received ops seq) := by
  have hlast := h.small
  obtain ⟨hpos, hseq, hgap, hbytes⟩ := hfits
  obtain ⟨a', d, heq⟩ := update_some h.window hpos hseq hgap h.small
  obtain ⟨hwin, hle, hmax, hd, hdup, -⟩ := update_spec h.window hpos heq
  -- the bytes do not wrap around
  have hnonneg : ∀ x, 0 ≤ record (recorded ops) seq numBytes x := record_nonneg hpos h.nonneg
  have hsmall := @Cells.delivered_le a (recorded ops) seq numBytes h.window.toCells h.nonneg hpos a'.next
  have hbig := Finset.sum_nonneg (fun x (_ : x ∈ Finset.Ico a.next a'.next) => hnonneg x)
  rw [Int.bmod_eq_of_le (by omega) (by omega)] at hd
  have hrec : recorded (ops ++ [.update seq numBytes]) = record (recorded ops) seq numBytes := by
    rw [recorded, foldl_append]
    rfl
  have hreceived : recorded ops seq ≠ 0 ↔ Received ops seq :=
    ⟨fun hne => ⟨_, h.arrived seq hne⟩, h.received seq⟩
  refine ⟨a', d, heq, ⟨?_, by omega, ?_, ?_, ?_, fun x hx => ?_, fun x hx => ?_⟩,
    hdup.trans hreceived⟩
  · rw [hrec]
    exact hwin
  · rw [hrec]
    exact hnonneg
  · simp [h.length]
  · have hsum : ∑ x ∈ range a.next, record (recorded ops) seq numBytes x =
        ∑ x ∈ range a.next, recorded ops x :=
      Finset.sum_congr rfl (fun x hx => h.window.record_below (Finset.mem_range.mp hx))
    rw [Acker.returned, zip_append h.length, foldl_append, hrec,
      ← Finset.sum_range_add_sum_Ico _ hle, hsum, ← hd, ← h.returned]
    rfl
  · rw [hrec] at hx ⊢
    rw [since_update, List.mem_append]
    rcases record_eq (recorded ops) seq numBytes x with hsame | ⟨rfl, hnew⟩
    · rw [hsame] at hx ⊢
      exact Or.inl (h.arrived x hx)
    · rw [hnew]
      exact Or.inr (by simp)
  · obtain ⟨n, hn⟩ := hx
    rw [hrec]
    rw [since_update, List.mem_append, List.mem_singleton] at hn
    apply record_ne_zero hpos
    rcases hn with hn | hn
    · exact Or.inl (h.received x ⟨n, hn⟩)
    · cases hn
      exact Or.inr rfl

theorem Tracks.reset (h : Tracks ops outs a) : Tracks (ops ++ [.reset]) (outs ++ [0]) a.reset := by
  have hrec : recorded (ops ++ [.reset]) = fun _ => 0 := by
    rw [recorded, foldl_append]
    rfl
  refine ⟨?_, show 0 + 2 < 2 ^ 31 by omega, fun x => ?_, by simp [h.length], ?_, fun x hx => ?_, fun x hx => ?_⟩
  · rw [hrec]
    exact window_reset h.window
  · rw [hrec]
  · rw [Acker.returned, zip_append h.length, foldl_append]
    rfl
  · rw [hrec] at hx
    exact absurd rfl hx
  · obtain ⟨n, hn⟩ := hx
    rw [since_reset] at hn
    cases hn

/-- **The ring refines the set of received packets.** After any calls that stay within the `int`s,
`next_` is the least packet that has not been received and `maxseen_` the greatest that has; the
returned values add up to the bytes recorded for the packets below `next_`, each the bytes of an
arrival of its packet; and the next `update` ends, and reports a duplicate if and only if its packet
has been received. -/
theorem acker_refines (hops : Runs.Meets step Fits init ops) :
    ∃ a outs, Runs.run step init ops = some (a, outs) ∧
      IsLeast {x | ¬ Received ops x} a.next ∧
      ((∃ x, Received ops x) → IsGreatest {x | Received ops x} a.maxseen) ∧
      ((∀ x, ¬ Received ops x) → a.maxseen = 0) ∧
      returned ops outs = ∑ x ∈ range a.next, recorded ops x ∧
      (∀ x, Received ops x → .update x (recorded ops x) ∈ since ops) ∧
      ∀ seq numBytes, Fits a (.update seq numBytes) → ∃ a' d,
        a.update seq numBytes = some (a', d) ∧ (a'.isDup = true ↔ Received ops seq) := by
  have hinit : Tracks [] [] init :=
    ⟨window_init, by decide, fun _ => le_rfl, rfl, rfl, fun x hx => absurd rfl hx,
      fun x ⟨n, hn⟩ => by cases hn⟩
  obtain ⟨a, outs, hrun, h⟩ := @Runs.run_invariant _ _ _ step Fits init ops
    Tracks (fun past outs a op h hop => by
      cases op with
      | update seq numBytes =>
        obtain ⟨a', d, heq, h', -⟩ := h.update hop
        exact ⟨a', d, heq, h'⟩
      | reset => exact ⟨_, _, rfl, h.reset⟩) hinit hops
  refine ⟨a, outs, hrun, ⟨fun hrec => ?_, fun x hx => ?_⟩, fun hex => ⟨?_, fun x hx => ?_⟩,
    fun hnone => ?_, h.returned, fun x hx => h.arrived x (h.received x hx),
    fun seq numBytes hfits => ?_⟩
  · exact h.received _ hrec h.window.missing
  · by_contra hlt
    exact hx ⟨_, h.arrived x (h.window.below x (not_le.mp hlt))⟩
  · rcases h.window.last with hne | hzero
    · exact ⟨_, h.arrived _ hne⟩
    · obtain ⟨x, hx⟩ := hex
      by_cases hxz : x = 0
      · rw [hzero, ← hxz]
        exact hx
      · exact absurd (h.window.above x (by omega)) (h.received x hx)
  · by_contra hlt
    exact h.received x hx (h.window.above x (not_le.mp hlt))
  · rcases h.window.last with hne | hzero
    · exact absurd ⟨_, h.arrived _ hne⟩ (hnone a.maxseen)
    · exact hzero
  · obtain ⟨a', d, heq, -, hdup⟩ := h.update hfits
    exact ⟨a', d, heq, hdup⟩

/-- A gap that makes the buffer grow, a packet that fills a gap, a duplicate, and a reset. -/
def arrivals : List Op :=
  [.update 0 40, .update 2 10, .update 200 7, .update 1 30, .update 2 5, .reset, .update 3 8,
    .update 3 9]

theorem acker_refines_arrivals :
    Runs.Meets step Fits init arrivals ∧
    ∃ a outs, Runs.run step init arrivals = some (a, outs) ∧
      IsLeast {x | ¬ Received arrivals x} a.next ∧
      ((∃ x, Received arrivals x) → IsGreatest {x | Received arrivals x} a.maxseen) ∧
      ((∀ x, ¬ Received arrivals x) → a.maxseen = 0) ∧
      returned arrivals outs = ∑ x ∈ range a.next, recorded arrivals x ∧
      (∀ x, Received arrivals x → .update x (recorded arrivals x) ∈ since arrivals) ∧
      ∀ seq numBytes, Fits a (.update seq numBytes) → ∃ a' d,
        a.update seq numBytes = some (a', d) ∧ (a'.isDup = true ↔ Received arrivals seq) :=
  have hops : Runs.Meets step Fits init arrivals := by
    decide +kernel
  ⟨hops, acker_refines hops⟩

/-- The first packet is number `2 ^ 30`: a buffer for the gap has `2 ^ 31` cells. -/
theorem gap_too_wide : init.update (2 ^ 30) 40 = none := by
  rw [update, if_neg (by omega), grow_none window_init.toCells (by decide) (by decide),
    Option.bind_none]

end Acker

end NetSim
