import Mathlib.Data.List.Basic
import Mathlib.Data.List.GetD
import Mathlib.Tactic.Ring

/-! # A buffer of bytes

`Memory` is a buffer of a given size; reading or writing outside of it fails. `Has m a l` says that the
bytes `l` lie at the address `a`, and survives every write elsewhere (`Has.congr`). `toBytes` and `ofBytes`
convert numbers to bytes and back, the least significant byte first.
-/

namespace ByteMemory

open List

abbrev Byte := BitVec 8

/-! ## Numbers -/

def toBytes : ℕ → ℕ → List Byte
  | 0, _ => []
  | n + 1, x => BitVec.ofNat 8 x :: toBytes n (x / 256)

def ofBytes : List Byte → ℕ
  | [] => 0
  | b :: bs => b.toNat + 256 * ofBytes bs

variable {l r : List Byte} {n x : ℕ}

@[simp] theorem length_toBytes (n x : ℕ) : (toBytes n x).length = n := by
  induction n generalizing x with
  | zero => rfl
  | succ n ih => rw [toBytes, length_cons, ih]

theorem ofBytes_toBytes (n x : ℕ) : ofBytes (toBytes n x) = x % 256 ^ n := by
  induction n generalizing x with
  | zero => rw [toBytes, ofBytes, pow_zero, Nat.mod_one]
  | succ n ih =>
    have hsplit : x % (256 * 256 ^ n) = x % 256 + 256 * (x / 256 % 256 ^ n) := Nat.mod_mul
    rw [toBytes, ofBytes, ih, BitVec.toNat_ofNat, Nat.pow_succ' (n := n), hsplit]

theorem toBytes_ofBytes (l : List Byte) : toBytes l.length (ofBytes l) = l := by
  induction l with
  | nil => rfl
  | cons b l ih =>
    have hdiv : (b.toNat + 256 * ofBytes l) / 256 = ofBytes l := by omega
    have hlow : BitVec.ofNat 8 (b.toNat + 256 * ofBytes l) = b := by
      apply BitVec.eq_of_toNat_eq
      rw [BitVec.toNat_ofNat]
      omega
    rw [length_cons, ofBytes, toBytes, hdiv, hlow, ih]

theorem ofBytes_lt (l : List Byte) : ofBytes l < 256 ^ l.length := by
  induction l with
  | nil => exact Nat.one_pos
  | cons b l ih =>
    rw [ofBytes, length_cons, pow_succ']
    omega

def wordBytes (n : ℕ) (w : BitVec (8 * n)) : List Byte := toBytes n w.toNat

def word (n : ℕ) (l : List Byte) : BitVec (8 * n) := BitVec.ofNat (8 * n) (ofBytes l)

@[simp] theorem length_wordBytes (n : ℕ) (w : BitVec (8 * n)) : (wordBytes n w).length = n :=
  length_toBytes n _

theorem pow_bytes (n : ℕ) : 2 ^ (8 * n) = 256 ^ n := by
  rw [pow_mul]
  rfl

@[simp] theorem word_wordBytes (n : ℕ) (w : BitVec (8 * n)) : word n (wordBytes n w) = w := by
  apply BitVec.eq_of_toNat_eq
  rw [word, wordBytes, ofBytes_toBytes, BitVec.toNat_ofNat, pow_bytes, Nat.mod_mod, ← pow_bytes,
    Nat.mod_eq_of_lt w.isLt]

theorem wordBytes_word (l : List Byte) : wordBytes l.length (word l.length l) = l := by
  rw [wordBytes, word, BitVec.toNat_ofNat, pow_bytes, Nat.mod_eq_of_lt (ofBytes_lt l),
    toBytes_ofBytes]

def swap (n : ℕ) (w : BitVec (8 * n)) : BitVec (8 * n) := word n (wordBytes n w).reverse

@[simp] theorem swap_swap (n : ℕ) (w : BitVec (8 * n)) : swap n (swap n w) = w := by
  have hlen : (wordBytes n w).reverse.length = n := by simp
  have hbytes := wordBytes_word (wordBytes n w).reverse
  rw [hlen] at hbytes
  rw [swap, swap, hbytes, reverse_reverse, word_wordBytes]

/-! ## The buffer -/

/-- A buffer with the bytes at the addresses from 0 up to `size`. -/
structure Memory where
  size : ℕ
  byte : ℤ → Byte

namespace Memory

def load (m : Memory) (a : ℤ) (n : ℕ) : Option (List Byte) :=
  if 0 ≤ a ∧ a + n ≤ m.size then some ((List.range n).map (fun i : ℕ => m.byte (a + i))) else none

def store (m : Memory) (a : ℤ) (l : List Byte) : Option Memory :=
  if 0 ≤ a ∧ a + l.length ≤ m.size then
    some { m with
      byte := fun x => if a ≤ x ∧ x < a + l.length then l.getD (x - a).toNat 0 else m.byte x }
  else none

/-- The bytes up to the first zero. -/
def cstring (m : Memory) : ℕ → ℤ → Option (List Byte)
  | 0, _ => none
  | fuel + 1, a =>
    (m.load a 1).bind (fun l =>
      match l with
      | [] => none
      | b :: _ => if b = 0 then some [] else (m.cstring fuel (a + 1)).map (b :: ·))

structure Has (m : Memory) (a : ℤ) (l : List Byte) : Prop where
  start : 0 ≤ a
  stop : a + l.length ≤ m.size
  byte : ∀ (i : ℕ) (h : i < l.length), m.byte (a + i) = l[i]

/-- The memories agree outside of the addresses from `a` up to `b`. -/
structure Frame (m m' : Memory) (a b : ℤ) : Prop where
  size : m'.size = m.size
  byte : ∀ x, x < a ∨ b ≤ x → m'.byte x = m.byte x

variable {m m' m'' : Memory} {a b c d : ℤ}

theorem Has.load (h : Has m a l) : m.load a l.length = some l := by
  unfold Memory.load
  rw [if_pos ⟨h.start, h.stop⟩, Option.some.injEq]
  apply ext_getElem
  · rw [length_map, length_range]
  · intro i hi hi'
    rw [getElem_map, getElem_range]
    exact h.byte i hi'

theorem Has.append (h : Has m a (l ++ r)) : Has m a l ∧ Has m (a + l.length) r := by
  have hstop := h.stop
  have hstart := h.start
  rw [length_append] at hstop
  refine ⟨⟨hstart, by omega, ?_⟩, ⟨by omega, by omega, ?_⟩⟩
  · intro i hi
    have hb := h.byte i (by rw [length_append]; omega)
    rwa [getElem_append_left hi] at hb
  · intro i hi
    have hb := h.byte (l.length + i) (by rw [length_append]; omega)
    rw [getElem_append_right (by omega)] at hb
    simp only [Nat.add_sub_cancel_left] at hb
    rw [← hb]
    congr 1
    omega

theorem Frame.refl (m : Memory) (a b : ℤ) : Frame m m a b := ⟨rfl, fun _ _ => rfl⟩

theorem Frame.trans (h : Frame m m' a b) (h' : Frame m' m'' a b) : Frame m m'' a b where
  size := h'.size.trans h.size
  byte x hx := (h'.byte x hx).trans (h.byte x hx)

theorem Frame.mono (h : Frame m m' c d) (hac : a ≤ c) (hdb : d ≤ b) : Frame m m' a b where
  size := h.size
  byte x hx := h.byte x (by omega)

theorem Has.frame (h : Has m c l) (hf : Frame m m' a b) (hout : c + l.length ≤ a ∨ b ≤ c) :
    Has m' c l where
  start := h.start
  stop := by
    rw [hf.size]
    exact h.stop
  byte i hi := by
    rw [hf.byte _ (by omega)]
    exact h.byte i hi

/-- **A write puts its bytes at the address and leaves the rest alone.** -/
theorem store_spec (hstart : 0 ≤ a) (hstop : a + l.length ≤ m.size) :
    ∃ m', m.store a l = some m' ∧ Has m' a l ∧ Frame m m' a (a + l.length) := by
  refine ⟨_, if_pos ⟨hstart, hstop⟩, ⟨hstart, hstop, ?_⟩, ⟨rfl, ?_⟩⟩
  · intro i hi
    have hindex : (a + (i : ℤ) - a).toNat = i := by omega
    dsimp only
    rw [if_pos (by omega), hindex, getD_eq_getElem _ _ hi]
  · intro x hx
    exact if_neg (by omega)

theorem has_nil (hstart : 0 ≤ a) (hstop : a ≤ m.size) : Has m a [] :=
  ⟨hstart, by simpa using hstop, fun i hi => absurd hi (Nat.not_lt_zero i)⟩

theorem Has.concat (h : Has m a l) (h' : Has m (a + l.length) r) : Has m a (l ++ r) where
  start := h.start
  stop := by
    have hstop := h'.stop
    rw [length_append]
    omega
  byte i hi := by
    rw [length_append] at hi
    by_cases hl : i < l.length
    · rw [getElem_append_left hl]
      exact h.byte i hl
    · rw [getElem_append_right (by omega), ← h'.byte (i - l.length) (by omega)]
      congr 1
      omega

theorem Has.store (h : Has m a l) (hstop : a + (l.length + r.length : ℕ) ≤ m.size) :
    ∃ m', m.store (a + l.length) r = some m' ∧ Has m' a (l ++ r) ∧
      Frame m m' a (a + (l.length + r.length : ℕ)) := by
  have hstart := h.start
  obtain ⟨m', hstore, hhas, hframe⟩ :=
    store_spec (m := m) (a := a + l.length) (l := r) (by omega) (by omega)
  refine ⟨m', hstore, (h.frame hframe (Or.inl le_rfl)).concat hhas, hframe.mono ?_ ?_⟩
  · omega
  · omega

theorem store_bounds (h : m.store a l = some m') :
    0 ≤ a ∧ a + l.length ≤ m.size ∧ m'.size = m.size := by
  unfold store at h
  split at h
  · rename_i hbounds
    cases h
    exact ⟨hbounds.1, hbounds.2, rfl⟩
  · cases h

theorem Has.cstring {s : List Byte} (h : Has m a (s ++ [0])) (hs : ∀ b ∈ s, b ≠ 0) {fuel : ℕ}
    (hfuel : s.length < fuel) : m.cstring fuel a = some s := by
  induction s generalizing a fuel with
  | nil =>
    cases fuel with
    | zero => omega
    | succ fuel =>
      have hload : m.load a 1 = some [0] := h.load
      rw [Memory.cstring, hload]
      rfl
  | cons b s ih =>
    cases fuel with
    | zero => omega
    | succ fuel =>
      obtain ⟨hfirst, hrest⟩ := Has.append (l := [b]) (r := s ++ [0]) h
      have hload : m.load a 1 = some [b] := hfirst.load
      have hcons := ih hrest (fun c hc => hs c (mem_cons_of_mem _ hc))
        (Nat.lt_of_succ_lt_succ hfuel)
      simp only [length_singleton, Nat.cast_one] at hcons
      rw [Memory.cstring, hload, Option.bind_some]
      dsimp only
      rw [if_neg (hs b mem_cons_self), hcons, Option.map_some]

end Memory

end ByteMemory
