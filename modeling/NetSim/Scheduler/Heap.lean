import NetSim.Lib.BinaryHeap
import Mathlib.Data.Rat.Defs
import Mathlib.Algebra.Order.Ring.Rat
import Mathlib.Data.Prod.Lex

/-! # The heap

`class Heap` (`common/heap.h`, `common/scheduler.cc`): a binary heap of elements with a key and a
secondary key. The secondary key is the value of the counter `h_s_key` when the element was
inserted; it breaks ties between equal keys in favour of the element inserted first. The counter
is an `unsigned int`, so it wraps after `2 ^ 32` insertions.

The array `h_elems` is a function on indices; slots at or above `h_size` hold stale values. Keys
are exact rationals, and elements are of any type with an equality (the source stores `void*`).
The loops that climb or descend the tree take fuel; `siftUp_spec`, `heapify_spec` and
`bubble_spec` show that the fuel passed is enough.
-/

namespace NetSim

open Function BinaryHeap

def uintRange : ℕ := 2 ^ 32

structure HeapElem (α : Type) where
  key : ℚ
  sKey : ℕ
  elem : α
deriving DecidableEq

structure Heap (α : Type) where
  elems : ℕ → HeapElem α
  sKey : ℕ
  size : ℕ
  maxsize : ℕ

namespace Heap

variable {α : Type}

/-- `Heap::parent`: unsigned arithmetic, so that `parent(0)` is `(2^32 - 1) / 2`. -/
def parent (i : ℕ) : ℕ := if i = 0 then (uintRange - 1) / 2 else (i - 1) / 2

def left (i : ℕ) : ℕ := i * 2 + 1

def right (i : ℕ) : ℕ := (i + 1) * 2

def swap (a : ℕ → HeapElem α) (i j : ℕ) : ℕ → HeapElem α :=
  update (update a i (a j)) j (a i)

def keyLessThan (k1 : ℚ) (ks1 : ℕ) (k2 : ℚ) (ks2 : ℕ) : Bool :=
  decide (k1 < k2) || (decide (k1 = k2) && decide (ks1 < ks2))

def init [Inhabited α] (size : ℕ) : Heap α :=
  { elems := fun _ => ⟨0, 0, default⟩, sKey := 0, size := 0, maxsize := size }

/-- `Heap::heap_member`: one more than the index of the first slot that holds `elem`, or 0. -/
def heapMember [DecidableEq α] (h : Heap α) (elem : α) : ℕ :=
  go h.size 0
where
  go : ℕ → ℕ → ℕ
    | 0, _ => 0
    | n + 1, i => if (h.elems i).elem = elem then i + 1 else go n (i + 1)

def heapMin (h : Heap α) : Option α := if 0 < h.size then some (h.elems 0).elem else none

/-- The doubling of the array in `heap_insert`. The new slots are not initialised; they are read
only after they have been written. -/
def grow [Inhabited α] (h : Heap α) : Heap α :=
  { h with
    maxsize := h.maxsize * 2
    elems := fun i => if i < h.maxsize then h.elems i else ⟨0, 0, default⟩ }

/-- The loop of `heap_insert`: move parents down while the new key is less than theirs. -/
def siftUp (key : ℚ) (sKey : ℕ) : ℕ → (ℕ → HeapElem α) → ℕ → (ℕ → HeapElem α) × ℕ
  | 0, a, i => (a, i)
  | fuel + 1, a, i =>
    if 0 < i ∧ keyLessThan key sKey (a (parent i)).key (a (parent i)).sKey = true then
      siftUp key sKey fuel (update a i (a (parent i))) (parent i)
    else (a, i)

def heapInsert [Inhabited α] (h : Heap α) (key : ℚ) (elem : α) : Heap α :=
  let h := if h.maxsize = h.size then h.grow else h
  let r := siftUp key h.sKey h.size h.elems h.size
  { h with
    elems := update r.1 r.2 ⟨key, h.sKey, elem⟩
    sKey := (h.sKey + 1) % uintRange
    size := h.size + 1 }

/-- The child the heapify loop compares with the slot `i`, or `i` itself when there is none. -/
def smallerChild (a : ℕ → HeapElem α) (n i : ℕ) : ℕ :=
  if right i < n then
    if keyLessThan (a (left i)).key (a (left i)).sKey (a (right i)).key (a (right i)).sKey
    then left i else right i
  else if left i < n then left i else i

/-- The loop labelled `Heapify` in `heap_extract_min`, on the first `n` slots. -/
def heapify (n : ℕ) : ℕ → (ℕ → HeapElem α) → ℕ → (ℕ → HeapElem α)
  | 0, a, _ => a
  | fuel + 1, a, i =>
    if i < n then
      let x := smallerChild a n i
      if x ≠ i ∧ keyLessThan (a x).key (a x).sKey (a i).key (a i).sKey = true then
        heapify n fuel (swap a i x) x
      else a
    else a

def heapExtractMin (h : Heap α) : Heap α × Option α :=
  if h.size = 0 then (h, none)
  else
    let n := h.size - 1
    ({ h with
        elems := heapify n n (update h.elems 0 (h.elems n)) 0
        size := n },
      some (h.elems 0).elem)

/-- The loop of `heap_delete`: swap the element at `i` to the root, without comparisons. -/
def bubble : ℕ → (ℕ → HeapElem α) → ℕ → (ℕ → HeapElem α)
  | 0, a, _ => a
  | fuel + 1, a, i =>
    if i = 0 then a else bubble fuel (swap a i (parent i)) (parent i)

def heapDelete [DecidableEq α] (h : Heap α) (elem : α) : Heap α × ℕ :=
  match h.heapMember elem with
  | 0 => (h, 0)
  | i + 1 => ((heapExtractMin { h with elems := bubble i h.elems i }).1, 1)

/-! ## The order of the heap -/

/-- The order of `KEY_LESS_THAN`: by key, then by secondary key. -/
def rank (x : HeapElem α) : ℚ ×ₗ ℕ := toLex (x.key, x.sKey)

theorem keyLessThan_iff (x y : HeapElem α) :
    keyLessThan x.key x.sKey y.key y.sKey = true ↔ rank x < rank y := by
  simp [keyLessThan, rank, Prod.Lex.toLex_lt_toLex]

theorem keyLessThan_iff' (k : ℚ) (s : ℕ) (e : α) (y : HeapElem α) :
    keyLessThan k s y.key y.sKey = true ↔ rank ⟨k, s, e⟩ < rank y :=
  keyLessThan_iff ⟨k, s, e⟩ y

theorem parent_eq_par {i : ℕ} (h : 0 < i) : parent i = par i := by
  rw [parent, if_neg (by omega), par]

theorem swap_eq (a : ℕ → HeapElem α) (i j : ℕ) :
    swap a i j = fun k => a (Equiv.swap i j k) := by
  funext k
  unfold swap
  rcases eq_or_ne k j with rfl | hkj
  · simp
  · rcases eq_or_ne k i with rfl | hki
    · simp [hkj]
    · simp [hki, hkj, Equiv.swap_apply_of_ne_of_ne hki hkj]

/-- The stored elements, in the order of the array. -/
def stored (h : Heap α) : List (HeapElem α) := slots h.elems h.size

structure Inv (h : Heap α) : Prop where
  ordered : Ordered rank h.elems h.size
  fits : h.size ≤ h.maxsize
  room : 0 < h.maxsize

theorem inv_init [Inhabited α] {n : ℕ} (hn : 0 < n) : Inv (init n : Heap α) :=
  ⟨fun _ _ hjn => absurd hjn (Nat.not_lt_zero _), Nat.zero_le _, hn⟩

/-! ## `heap_insert` -/

theorem siftUp_spec (key : ℚ) (sKey : ℕ) (e : α) {n : ℕ} :
    ∀ (fuel : ℕ) (a : ℕ → HeapElem α) (i : ℕ), i ≤ fuel → i < n → HoleOrder rank a n i →
      (∀ j, 0 < j → j < n → par j = i → rank ⟨key, sKey, e⟩ ≤ rank (a j)) →
      let r := siftUp key sKey fuel a i
      Ordered rank (update r.1 r.2 ⟨key, sKey, e⟩) n ∧
        (slots (update r.1 r.2 ⟨key, sKey, e⟩) n).Perm
          (slots (update a i ⟨key, sKey, e⟩) n) := by
  intro fuel
  induction fuel with
  | zero =>
    intro a i hi hin hole hb
    obtain rfl : i = 0 := by omega
    exact ⟨hole.fill (fun h => absurd h (lt_irrefl 0)) hb, List.Perm.refl _⟩
  | succ fuel ih =>
    intro a i hi hin hole hb
    by_cases hc : 0 < i ∧ keyLessThan key sKey (a (parent i)).key (a (parent i)).sKey = true
    · simp only [siftUp, hc]
      obtain ⟨hpos, hlt⟩ := hc
      rw [keyLessThan_iff' key sKey e, parent_eq_par hpos] at hlt
      rw [parent_eq_par hpos]
      have hp := par_lt hpos
      obtain ⟨h1, h2⟩ := ih (update a i (a (par i))) (par i) (by omega) (by omega)
        (hole.up hpos hin) (hole.up_below hpos hlt hb)
      exact ⟨h1, h2.trans (slots_move_perm a _ hin (by omega) (by omega))⟩
    · simp only [siftUp, hc]
      refine ⟨hole.fill (fun hpos => ?_) hb, List.Perm.refl _⟩
      have : ¬ rank ⟨key, sKey, e⟩ < rank (a (parent i)) := by
        rw [← keyLessThan_iff' key sKey e]
        exact fun h => hc ⟨hpos, h⟩
      rw [parent_eq_par hpos] at this
      exact not_lt.mp this

theorem hole_at_end {a : ℕ → HeapElem α} {n : ℕ} (h : Ordered rank a n) :
    HoleOrder rank a (n + 1) n where
  off j hj hjn hjne _ := h j hj (by omega)
  grand _ j hj hjn hpar := by have := par_lt hj; omega

/-- An insertion keeps the order and adds the element with the next tie-break number. -/
theorem heapInsert_spec [Inhabited α] {h : Heap α} (hi : Inv h) (key : ℚ) (elem : α) :
    Inv (h.heapInsert key elem) ∧
      (h.heapInsert key elem).stored.Perm (⟨key, h.sKey, elem⟩ :: h.stored) ∧
      (h.heapInsert key elem).sKey = (h.sKey + 1) % uintRange := by
  -- growing the array keeps the elements
  set g := if h.maxsize = h.size then h.grow else h with hg
  have hgs : g.size = h.size := by rw [hg]; split <;> rfl
  have hgk : g.sKey = h.sKey := by rw [hg]; split <;> rfl
  have hge : ∀ i, i < h.size → g.elems i = h.elems i := by
    intro i hlt
    rw [hg]
    split
    · simp only [grow]
      rw [if_pos (by omega)]
    · rfl
  have hgo : Ordered rank g.elems h.size := by
    intro j hj hjn
    have hp := par_lt hj
    rw [hge j hjn, hge (par j) (by omega)]
    exact hi.ordered j hj hjn
  obtain ⟨h1, h2⟩ := siftUp_spec key h.sKey elem h.size g.elems h.size le_rfl (Nat.lt_succ_self _)
    (hole_at_end hgo) (fun j hj hjn hpar => by have := par_lt hj; omega)
  have hdef : h.heapInsert key elem =
      { g with
        elems := update (siftUp key h.sKey h.size g.elems h.size).1
          (siftUp key h.sKey h.size g.elems h.size).2 ⟨key, h.sKey, elem⟩
        sKey := (h.sKey + 1) % uintRange
        size := h.size + 1 } := by
    simp only [heapInsert, ← hg, hgs, hgk]
  rw [hdef]
  refine ⟨⟨h1, ?_, ?_⟩, ?_, rfl⟩
  · show h.size + 1 ≤ g.maxsize
    have := hi.fits
    have := hi.room
    rw [hg]
    split
    · simp only [grow]; omega
    · omega
  · have := hi.room
    rw [hg]
    split
    · simp only [grow]; omega
    · omega
  · refine h2.trans ?_
    rw [slots_succ, update_self]
    have hold : slots (update g.elems h.size ⟨key, h.sKey, elem⟩) h.size = h.stored := by
      refine slots_congr (fun i hlt => ?_)
      rw [update_of_ne (by omega), hge i hlt]
    rw [hold]
    exact List.perm_append_singleton _ _

/-! ## `heap_extract_min` -/

/-- The slot itself without children, or the child of the smallest rank. -/
theorem smallerChild_spec (a : ℕ → HeapElem α) (n i : ℕ) :
    (smallerChild a n i = i ∧ ∀ j, 0 < j → j < n → par j ≠ i) ∨
    (0 < smallerChild a n i ∧ smallerChild a n i < n ∧ par (smallerChild a n i) = i ∧
      ∀ j, 0 < j → j < n → par j = i → rank (a (smallerChild a n i)) ≤ rank (a j)) := by
  have hkids : ∀ j, 0 < j → par j = i → j = left i ∨ j = right i := by
    intro j hj hp
    have := (par_eq_iff hj).mp hp
    unfold left right
    omega
  have hpl : par (left i) = i := by unfold par left; omega
  have hpr : par (right i) = i := by unfold par right; omega
  have hlr : right i = left i + 1 := by unfold left right; omega
  unfold smallerChild
  by_cases hr : right i < n
  · rw [if_pos hr]
    right
    by_cases hlt : keyLessThan (a (left i)).key (a (left i)).sKey (a (right i)).key
        (a (right i)).sKey = true
    · rw [if_pos hlt]
      rw [keyLessThan_iff] at hlt
      refine ⟨by unfold left; omega, by omega, hpl, fun j hj _ hp => ?_⟩
      rcases hkids j hj hp with rfl | rfl
      · exact le_rfl
      · exact hlt.le
    · rw [if_neg hlt]
      rw [keyLessThan_iff, not_lt] at hlt
      refine ⟨by omega, hr, hpr, fun j hj _ hp => ?_⟩
      rcases hkids j hj hp with rfl | rfl
      · exact hlt
      · exact le_rfl
  · rw [if_neg hr]
    by_cases hl : left i < n
    · rw [if_pos hl]
      right
      refine ⟨by unfold left; omega, hl, hpl, fun j hj hjn hp => ?_⟩
      rcases hkids j hj hp with rfl | rfl
      · exact le_rfl
      · exact absurd hjn hr
    · rw [if_neg hl]
      left
      refine ⟨rfl, fun j hj hjn hp => ?_⟩
      rcases hkids j hj hp with rfl | rfl
      · exact hl hjn
      · exact hr hjn

theorem heapify_spec {n : ℕ} :
    ∀ (fuel : ℕ) (a : ℕ → HeapElem α) (i : ℕ), n ≤ i + fuel → DownOrder rank a n i →
      Ordered rank (heapify n fuel a i) n ∧ (slots (heapify n fuel a i) n).Perm (slots a n) := by
  intro fuel
  induction fuel with
  | zero =>
    intro a i hi hd
    refine ⟨hd.stop (fun j hj hjn hp => ?_), List.Perm.refl _⟩
    have := par_lt hj
    omega
  | succ fuel ih =>
    intro a i hi hd
    by_cases hin : i < n
    · simp only [heapify, hin, if_true]
      rcases smallerChild_spec a n i with ⟨hx, hnone⟩ | ⟨hx0, hxn, hpx, hmin⟩
      · rw [hx, if_neg (fun hc => hc.1 rfl)]
        exact ⟨hd.stop (fun j hj hjn hp => absurd hp (hnone j hj hjn)), List.Perm.refl _⟩
      · have hix : i < smallerChild a n i := by have := par_lt hx0; omega
        by_cases hlt : rank (a (smallerChild a n i)) < rank (a i)
        · rw [if_pos ⟨by omega, (keyLessThan_iff _ _).mpr hlt⟩, swap_eq]
          obtain ⟨h1, h2⟩ := ih _ _ (by omega) (hd.down hx0 hpx hxn hlt hmin)
          exact ⟨h1, h2.trans (slots_swap_perm a hin hxn)⟩
        · rw [if_neg (fun hc => hlt ((keyLessThan_iff _ _).mp hc.2))]
          refine ⟨hd.stop (fun j hj hjn hp => ?_), List.Perm.refl _⟩
          exact (not_lt.mp hlt).trans (hmin j hj hjn hp)
    · simp only [heapify, hin]
      refine ⟨hd.stop (fun j hj hjn hp => ?_), List.Perm.refl _⟩
      have := par_lt hj
      omega

theorem extract_of_hole {h : Heap α} (hole : HoleOrder rank h.elems h.size 0)
    (hf : h.size ≤ h.maxsize) (hr : 0 < h.maxsize) (hpos : 0 < h.size) :
    Inv h.heapExtractMin.1 ∧ h.stored.Perm (h.elems 0 :: h.heapExtractMin.1.stored) ∧
      h.heapExtractMin.1.sKey = h.sKey := by
  have hne : h.size ≠ 0 := by omega
  have hdown := (hole.mono (Nat.sub_le h.size 1)).replace_root (h.elems (h.size - 1))
  obtain ⟨h1, h2⟩ := heapify_spec (h.size - 1) _ 0 (by omega) hdown
  simp only [heapExtractMin, if_neg hne]
  refine ⟨⟨h1, by show h.size - 1 ≤ h.maxsize; omega, hr⟩, ?_, trivial⟩
  refine List.Perm.trans ?_ (h2.symm.cons (h.elems 0))
  -- the last element has replaced the root
  obtain ⟨m, hm⟩ : ∃ m, h.size = m + 1 := ⟨h.size - 1, by omega⟩
  simp only [stored, hm]
  rcases Nat.eq_zero_or_pos m with rfl | hmpos
  · simp [slots]
  · have hswap := slots_swap_perm h.elems (n := m + 1) (i := 0) (j := m) (by omega) (by omega)
    refine hswap.symm.trans ?_
    rw [slots_succ, Equiv.swap_apply_right]
    have : slots (fun k => h.elems (Equiv.swap 0 m k)) m
        = slots (update h.elems 0 (h.elems m)) m := by
      refine slots_congr (fun k hk => ?_)
      rcases Nat.eq_zero_or_pos k with rfl | hk0
      · simp
      · rw [update_of_ne (by omega),
          Equiv.swap_apply_of_ne_of_ne (by omega) (by omega)]
    rw [this]
    exact List.perm_append_singleton _ _

/-! ## `heap_delete` -/

/-- Bubbling to the root: the victim is at the root, and the rest is in order below it. -/
theorem bubble_spec {n : ℕ} :
    ∀ (fuel : ℕ) (a : ℕ → HeapElem α) (i : ℕ), i ≤ fuel → i < n → HoleOrder rank a n i →
      HoleOrder rank (bubble fuel a i) n 0 ∧ bubble fuel a i 0 = a i ∧
        (slots (bubble fuel a i) n).Perm (slots a n) := by
  intro fuel
  induction fuel with
  | zero =>
    intro a i hi _ hole
    obtain rfl : i = 0 := by omega
    exact ⟨hole, rfl, List.Perm.refl _⟩
  | succ fuel ih =>
    intro a i hi hin hole
    by_cases h0 : i = 0
    · subst h0
      simp only [bubble, if_true]
      exact ⟨hole, trivial, List.Perm.refl _⟩
    · have hpos : 0 < i := by omega
      have hp := par_lt hpos
      simp only [bubble, h0, if_false]
      rw [parent_eq_par hpos]
      -- the swap only differs from moving the hole up in the new hole itself
      have hole' : HoleOrder rank (swap a i (par i)) n (par i) := by
        have hup := hole.up hpos hin
        constructor
        · intro j hj hjn hji hpj
          simp only [swap, update_of_ne hji, update_of_ne hpj]
          exact hup.off j hj hjn hji hpj
        · intro hpi j hj hjn hpj
          have h1 := par_lt hpi
          have h2 := par_lt hj
          simp only [swap, update_of_ne (show par (par i) ≠ par i by omega),
            update_of_ne (show j ≠ par i by omega)]
          exact hup.grand hpi j hj hjn hpj
      obtain ⟨h1, h2, h3⟩ := ih _ _ (by omega) (by omega) hole'
      refine ⟨h1, ?_, ?_⟩
      · rw [h2]; simp [swap]
      · refine h3.trans ?_
        rw [swap_eq]
        exact slots_swap_perm a hin (by omega)

theorem heapMember_go_spec [DecidableEq α] (h : Heap α) (elem : α) :
    ∀ n i, (heapMember.go h elem n i = 0 ∧ ∀ j, i ≤ j → j < i + n → (h.elems j).elem ≠ elem) ∨
      ∃ j, heapMember.go h elem n i = j + 1 ∧ i ≤ j ∧ j < i + n ∧ (h.elems j).elem = elem := by
  intro n
  induction n with
  | zero =>
    intro i
    left
    exact ⟨rfl, fun j h1 h2 => absurd h2 (by omega)⟩
  | succ n ih =>
    intro i
    by_cases he : (h.elems i).elem = elem
    · right
      exact ⟨i, by simp [heapMember.go, he], le_rfl, by omega, he⟩
    · simp only [heapMember.go, he]
      rcases ih (i + 1) with ⟨h0, hnone⟩ | ⟨j, hj, h1, h2, h3⟩
      · left
        refine ⟨h0, fun j hij hjn => ?_⟩
        rcases Nat.eq_or_lt_of_le hij with rfl | hlt
        · exact he
        · exact hnone j hlt (by omega)
      · right
        exact ⟨j, hj, by omega, by omega, h3⟩

theorem heapDelete_absent [DecidableEq α] {h : Heap α} {elem : α}
    (hno : ∀ x ∈ h.stored, x.elem ≠ elem) : h.heapDelete elem = (h, 0) := by
  have hm : h.heapMember elem = 0 := by
    rcases heapMember_go_spec h elem h.size 0 with ⟨h0, _⟩ | ⟨j, _, _, hj, he⟩
    · exact h0
    · exact absurd he (hno _ (mem_slots.mpr ⟨j, by omega, rfl⟩))
  simp only [heapDelete, hm]

theorem heapDelete_present [DecidableEq α] {h : Heap α} (hi : Inv h) {elem : α}
    (hin : ∃ x ∈ h.stored, x.elem = elem) :
    (h.heapDelete elem).2 = 1 ∧ Inv (h.heapDelete elem).1 ∧
      (h.heapDelete elem).1.sKey = h.sKey ∧
      ∃ x, x.elem = elem ∧ h.stored.Perm (x :: (h.heapDelete elem).1.stored) := by
  rcases heapMember_go_spec h elem h.size 0 with ⟨_, hnone⟩ | ⟨i, hgo, _, hlt, he⟩
  · obtain ⟨x, hx, hxe⟩ := hin
    obtain ⟨j, hj, rfl⟩ := mem_slots.mp hx
    exact absurd hxe (hnone j (Nat.zero_le _) (by omega))
  · have hm : h.heapMember elem = i + 1 := hgo
    have hin' : i < h.size := by omega
    obtain ⟨h1, h2, h3⟩ := bubble_spec (n := h.size) i h.elems i le_rfl hin' (hi.ordered.hole i)
    obtain ⟨e1, e2, e3⟩ := extract_of_hole (h := { h with elems := bubble i h.elems i }) h1
      hi.fits hi.room (by show 0 < h.size; omega)
    simp only [heapDelete, hm]
    refine ⟨trivial, e1, e3, h.elems i, he, ?_⟩
    refine h3.symm.trans ?_
    rw [← h2]
    exact e2

end Heap
end NetSim
