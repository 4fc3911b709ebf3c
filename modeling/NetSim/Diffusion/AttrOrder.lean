import Mathlib
import NetSim.Diffusion.Attrs

/-! # Comparing diffusion attributes

`isEQ`, `isGT` and `isGE` of `NRAttribute` (`diffusion3/lib/nr/nr.cc`), and the operators that are derived
from them. `none` stands for `abort`. The comparison of floating point numbers is the host's.
-/

namespace NetSim.Diffusion

open List ByteMemory

def memcmp : ℕ → List Byte → List Byte → ℤ
  | n + 1, x :: xs, y :: ys => if x = y then memcmp n xs ys else (x.toNat : ℤ) - y.toNat
  | _, _, _ => 0

/-- `strncmp`: equal strings end at the terminator. -/
def strncmp : ℕ → List Byte → List Byte → ℤ
  | n + 1, x :: xs, y :: ys =>
    if x ≠ y then (x.toNat : ℤ) - y.toNat else if x = 0 then 0 else strncmp n xs ys
  | _, _, _ => 0

def strcmp (xs ys : List Byte) : ℤ := strncmp (xs.length + ys.length) xs ys

/-- How the host compares the floating point numbers that the bytes are. -/
structure FloatOrder where
  eq : List Byte → List Byte → Bool
  gt : List Byte → List Byte → Bool
  ge : List Byte → List Byte → Bool

namespace NRAttribute

def sizeT (n : ℤ) : ℕ := (n % 2 ^ 64).toNat

def int (a : NRAttribute) : ℤ := (word 4 a.val).toInt

def isSameKey (a attr : NRAttribute) : Bool := a.type = attr.type ∧ a.key = attr.key

def isEQ (fp : FloatOrder) (a attr : NRAttribute) : Option Bool :=
  if a.isSameKey attr = false then none
  else if a.type = int32Type then some (a.int = attr.int)
  else if a.type = float32Type ∨ a.type = float64Type then some (fp.eq a.val attr.val)
  else if a.type = stringType then
    if a.getLen ≠ attr.getLen then some false else some (strncmp (sizeT a.getLen) a.val attr.val = 0)
  else if a.type = blobType then
    if a.getLen ≠ attr.getLen then some false else some (memcmp (sizeT a.getLen) a.val attr.val = 0)
  else none

def isGT (fp : FloatOrder) (a attr : NRAttribute) : Option Bool :=
  if a.isSameKey attr = false then none
  else if a.type = int32Type then some (attr.int < a.int)
  else if a.type = float32Type ∨ a.type = float64Type then some (fp.gt a.val attr.val)
  else if a.type = stringType then some (strncmp (sizeT (min a.getLen attr.getLen)) a.val attr.val ≠ 0)
  else if a.type = blobType then
    let cmp := memcmp (sizeT (min a.getLen attr.getLen)) a.val attr.val
    some (0 < cmp ∨ cmp = 0 ∧ attr.getLen < a.getLen)
  else none

def isGE (fp : FloatOrder) (a attr : NRAttribute) : Option Bool :=
  if a.isSameKey attr = false then none
  else if a.type = int32Type then some (attr.int ≤ a.int)
  else if a.type = float32Type ∨ a.type = float64Type then some (fp.ge a.val attr.val)
  else if a.type = stringType then some (0 ≤ strcmp a.val attr.val)
  else if a.type = blobType then some (0 ≤ memcmp (sizeT (min a.getLen attr.getLen)) a.val attr.val)
  else none

def isLT (fp : FloatOrder) (a attr : NRAttribute) : Option Bool := (a.isGE fp attr).map not

def isLE (fp : FloatOrder) (a attr : NRAttribute) : Option Bool := (a.isGT fp attr).map not

/-- `len_` is the length of the value, an integer has 4 bytes, and a string ends at its first `NUL`. -/
structure Sound (a : NRAttribute) : Prop where
  len : a.getLen = a.val.length
  int : a.type = int32Type → a.val.length = 4
  string : a.type = stringType → ∃ s, 0 ∉ s ∧ a.val = s ++ [0]

/-- The comparisons of `a`, `b` and `c` are those of one total order. -/
structure Ordered (fp : FloatOrder) (a b c : NRAttribute) : Prop where
  trichotomy : [a.isGT fp b, a.isEQ fp b, b.isGT fp a].count (some true) = 1
  ge : a.isGE fp b = some true ↔ a.isGT fp b = some true ∨ a.isEQ fp b = some true
  lt : a.isLT fp b = some true ↔ b.isGT fp a = some true
  le : a.isLE fp b = some true ↔ b.isGE fp a = some true
  trans : a.isGT fp b = some true → b.isGT fp c = some true → a.isGT fp c = some true

/-- Strings are equal, and no blob is a proper prefix of the other one. -/
structure Comparable (a b : NRAttribute) : Prop where
  string : a.type = stringType → a.val = b.val
  blob : a.type = blobType → a.val <+: b.val ∨ b.val <+: a.val → a.val = b.val

/-! ## Bytes -/

variable {xs ys zs : List Byte} {a b c : NRAttribute} {n : ℕ}

/-- The numbers of the bytes, which are ordered as numbers. -/
def nats (xs : List Byte) : List ℕ := xs.map BitVec.toNat

theorem nats_injective : Function.Injective nats := map_injective_iff.mpr (fun _ _ => BitVec.eq_of_toNat_eq)

/-- **`memcmp` on the common length** compares the bytes, and says nothing when one value is a prefix of
the other one. -/
theorem memcmp_min (xs ys : List Byte) :
    (memcmp (min xs.length ys.length) xs ys = 0 ↔ xs <+: ys ∨ ys <+: xs) ∧
      (0 < memcmp (min xs.length ys.length) xs ys ↔ nats ys < nats xs ∧ ¬ ys <+: xs) := by
  induction xs generalizing ys with
  | nil => simp [memcmp, nats]
  | cons x xs ih =>
    cases ys with
    | nil => simp [memcmp]
    | cons y ys =>
      obtain ⟨hzero, hpos⟩ := ih ys
      have hlen : min (x :: xs).length (y :: ys).length = min xs.length ys.length + 1 := by simp
      rw [hlen, memcmp]
      by_cases hxy : x = y
      · subst hxy
        rw [if_pos rfl, hzero, hpos]
        simp [nats]
      · have hne : x.toNat ≠ y.toNat := fun heq => hxy (BitVec.eq_of_toNat_eq heq)
        rw [if_neg hxy]
        simp only [nats, map_cons, cons_lt_cons_iff, cons_prefix_cons, hxy, Ne.symm hxy,
          false_and, or_self, iff_false, not_false_iff, and_true, hne.symm, or_false]
        omega

theorem nats_lt_of_prefix (h : ys <+: xs) (hne : ys ≠ xs) : nats ys < nats xs := by
  induction ys generalizing xs with
  | nil =>
    obtain ⟨x, xs, rfl⟩ := exists_cons_of_ne_nil hne.symm
    exact nil_lt_cons _ _
  | cons y ys ih =>
    obtain ⟨t, rfl⟩ := h
    have hrest := ih (prefix_append ys t) (fun heq => hne (congrArg (y :: ·) heq))
    exact cons_lt_cons_iff.mpr (.inr ⟨rfl, hrest⟩)

theorem nats_lt_iff (xs ys : List Byte) :
    (0 < memcmp (min xs.length ys.length) xs ys ∨
      memcmp (min xs.length ys.length) xs ys = 0 ∧ ys.length < xs.length) ↔ nats ys < nats xs := by
  obtain ⟨hzero, hpos⟩ := memcmp_min xs ys
  rw [hzero, hpos]
  constructor
  · rintro (⟨hlt, -⟩ | ⟨hpre | hpre, hlen⟩)
    · exact hlt
    · exact absurd hpre.length_le (not_le.mpr hlen)
    · exact nats_lt_of_prefix hpre (fun heq => by simp [heq] at hlen)
  · intro hlt
    by_cases hpre : ys <+: xs
    · refine .inr ⟨.inr hpre, lt_of_le_of_ne hpre.length_le (fun hlen => ?_)⟩
      rw [hpre.eq_of_length hlen] at hlt
      exact lt_irrefl _ hlt
    · exact .inl ⟨hlt, hpre⟩

theorem strncmp_ne {x y : Byte} (hxy : x ≠ y) : strncmp (n + 1) (x :: xs) (y :: ys) ≠ 0 := by
  rw [strncmp, if_pos hxy]
  intro heq
  exact hxy (BitVec.eq_of_toNat_eq (by omega))

/-- **Terminated strings** differ before the end of the shorter one. -/
theorem strncmp_terminated {s t : List Byte} (hs : 0 ∉ s) (ht : 0 ∉ t) (hn : min s.length t.length < n) :
    strncmp n (s ++ [0]) (t ++ [0]) = 0 ↔ s = t := by
  obtain ⟨n, rfl⟩ := Nat.exists_eq_add_one_of_ne_zero (Nat.ne_of_gt (Nat.zero_lt_of_lt hn))
  induction s generalizing t n with
  | nil =>
    cases t with
    | nil => simp [strncmp]
    | cons y t => exact iff_of_false (strncmp_ne (fun heq => ht (heq ▸ mem_cons_self))) (by simp)
  | cons x s ih =>
    have hx : x ≠ 0 := fun heq => hs (heq ▸ mem_cons_self)
    cases t with
    | nil => exact iff_of_false (strncmp_ne hx) (by simp)
    | cons y t =>
      by_cases hxy : x = y
      · rw [length_cons, length_cons] at hn
        obtain ⟨n, rfl⟩ := Nat.exists_eq_add_one_of_ne_zero (show n ≠ 0 by omega)
        have hrest := ih (fun h => hs (mem_cons_of_mem x h)) (fun h => ht (mem_cons_of_mem y h)) n
          (by omega)
        rw [cons_append, cons_append, strncmp, if_neg (not_not.mpr hxy), if_neg hx, hxy,
          cons_inj_right]
        exact hrest
      · exact iff_of_false (strncmp_ne hxy) (fun heq => hxy (List.cons.inj heq).1)

/-! ## Attributes -/

theorem sizeT_natCast (h : n < 2 ^ 15) : sizeT n = n := by
  unfold sizeT
  omega

theorem Sound.lt (h : a.Sound) : a.val.length < 2 ^ 15 := by
  have hlen := h.len
  have hbound := BitVec.toInt_lt (x := a.len)
  unfold getLen at hlen
  omega

variable (fp : FloatOrder)

theorem blob_order (ha : a.Sound) (hb : b.Sound) (hkey : a.isSameKey b = true) (htype : a.type = blobType) :
    a.isGT fp b = some (decide (nats b.val < nats a.val)) ∧
      a.isEQ fp b = some (decide (nats a.val = nats b.val)) ∧
      a.isGE fp b = some (decide (nats b.val < nats a.val ∨ a.val <+: b.val ∨ b.val <+: a.val)) := by
  have hmin : sizeT (min a.getLen b.getLen) = min a.val.length b.val.length := by
    rw [ha.len, hb.len, ← Nat.cast_min]
    exact sizeT_natCast (lt_of_le_of_lt (min_le_left _ _) ha.lt)
  have hself : sizeT a.getLen = a.val.length := by
    rw [ha.len]
    exact sizeT_natCast ha.lt
  have hsame : ¬ a.isSameKey b = false := by simp [hkey]
  have hgt : a.isGT fp b = some (decide (0 < memcmp (sizeT (min a.getLen b.getLen)) a.val b.val ∨
      memcmp (sizeT (min a.getLen b.getLen)) a.val b.val = 0 ∧ b.getLen < a.getLen)) := by
    unfold isGT
    rw [if_neg hsame, htype]
    rfl
  have heq : a.isEQ fp b = if a.getLen ≠ b.getLen then some false else
      some (decide (memcmp (sizeT a.getLen) a.val b.val = 0)) := by
    unfold isEQ
    rw [if_neg hsame, htype]
    rfl
  have hge : a.isGE fp b = some (decide (0 ≤ memcmp (sizeT (min a.getLen b.getLen)) a.val b.val)) := by
    unfold isGE
    rw [if_neg hsame, htype]
    rfl
  obtain ⟨hzero, hpos⟩ := memcmp_min a.val b.val
  refine ⟨?_, ?_, ?_⟩
  · rw [hgt, hmin, ha.len, hb.len]
    simp only [Nat.cast_lt]
    exact congrArg some (decide_eq_decide.mpr (nats_lt_iff a.val b.val))
  · rw [heq, hself, ha.len, hb.len]
    split_ifs with hlen
    · have hne : nats a.val ≠ nats b.val := fun heq => hlen (by rw [nats_injective heq])
      rw [decide_eq_false hne]
    · have hlens : a.val.length = b.val.length := Nat.cast_inj.mp (not_not.mp hlen)
      rw [← hlens, min_self] at hzero
      refine congrArg some (decide_eq_decide.mpr ?_)
      rw [hzero, nats_injective.eq_iff]
      constructor
      · rintro (hpre | hpre)
        · exact hpre.eq_of_length hlens
        · exact (hpre.eq_of_length hlens.symm).symm
      · intro heq
        exact .inl (heq ▸ prefix_rfl)
  · rw [hge, hmin]
    refine congrArg some (decide_eq_decide.mpr ?_)
    rw [le_iff_lt_or_eq, eq_comm, hzero, hpos]
    constructor
    · rintro (⟨hgt, -⟩ | hpre)
      · exact .inl hgt
      · exact .inr hpre
    · rintro (hgt | hpre)
      · by_cases hpre : b.val <+: a.val
        · exact .inr (.inr hpre)
        · exact .inl ⟨hgt, hpre⟩
      · exact .inr hpre

theorem string_order (ha : a.Sound) (hb : b.Sound) (hkey : a.isSameKey b = true) (htype : a.type = stringType) :
    a.isGT fp b = some (decide (a.val ≠ b.val)) ∧ a.isEQ fp b = some (decide (a.val = b.val)) ∧
      (a.val = b.val → a.isGE fp b = some true) := by
  have hsame : ¬ a.isSameKey b = false := by simp [hkey]
  have hkey' : a.type = b.type ∧ a.key = b.key := of_decide_eq_true hkey
  obtain ⟨s, hs, hsval⟩ := ha.string htype
  obtain ⟨t, ht, htval⟩ := hb.string (hkey'.1 ▸ htype)
  have halen := ha.len
  have hblen := hb.len
  have hlt := ha.lt
  rw [hsval, length_append, length_singleton] at halen hlt
  rw [htval, length_append, length_singleton] at hblen
  have hgt : a.isGT fp b = some (decide (strncmp (sizeT (min a.getLen b.getLen)) a.val b.val ≠ 0)) := by
    unfold isGT
    rw [if_neg hsame, htype]
    rfl
  have heq : a.isEQ fp b = if a.getLen ≠ b.getLen then some false else
      some (decide (strncmp (sizeT a.getLen) a.val b.val = 0)) := by
    unfold isEQ
    rw [if_neg hsame, htype]
    rfl
  have hge : a.isGE fp b = some (decide (0 ≤ strcmp a.val b.val)) := by
    unfold isGE
    rw [if_neg hsame, htype]
    rfl
  have hmin : min s.length t.length < sizeT (min a.getLen b.getLen) := by
    unfold sizeT
    omega
  have hself : min s.length t.length < sizeT a.getLen := by
    unfold sizeT
    omega
  rw [hgt, heq, hge, hsval, htval]
  refine ⟨?_, ?_, fun hval => ?_⟩
  · refine congrArg some (decide_eq_decide.mpr ?_)
    rw [Ne, strncmp_terminated hs ht hmin, Ne, append_left_inj]
  · split_ifs with hlen
    · have hne : s ++ [0] ≠ t ++ [0] := fun hval => hlen (by rw [halen, hblen, append_cancel_right hval])
      rw [decide_eq_false hne]
    · refine congrArg some (decide_eq_decide.mpr ?_)
      rw [strncmp_terminated hs ht hself, append_left_inj]
  · have hzero : strcmp (s ++ [0]) (t ++ [0]) = 0 :=
      (strncmp_terminated hs ht (by simp; omega)).mpr (append_cancel_right hval)
    rw [hzero]
    rfl

theorem int_order (hkey : a.isSameKey b = true) (htype : a.type = int32Type) :
    a.isGT fp b = some (decide (b.int < a.int)) ∧ a.isEQ fp b = some (decide (a.int = b.int)) ∧
      a.isGE fp b = some (decide (b.int ≤ a.int)) := by
  have hsame : ¬ a.isSameKey b = false := by simp [hkey]
  unfold isGT isEQ isGE
  rw [if_neg hsame, if_neg hsame, if_neg hsame, if_pos htype, if_pos htype, if_pos htype]
  exact ⟨rfl, rfl, rfl⟩

variable {fp}

/-- Where `isGT` and `isEQ` are those of a linear order, all depends on `isGE`. -/
theorem ordered_iff {α : Type} [LinearOrder α] [DecidableLT α] [DecidableEq α] {x y z : α} {G G' : Prop}
    [Decidable G] [Decidable G']
    (hab : a.isGT fp b = some (decide (y < x))) (heq : a.isEQ fp b = some (decide (x = y)))
    (hba : b.isGT fp a = some (decide (x < y))) (hbc : b.isGT fp c = some (decide (z < y)))
    (hac : a.isGT fp c = some (decide (z < x))) (hge : a.isGE fp b = some (decide G))
    (hge' : b.isGE fp a = some (decide G')) : Ordered fp a b c ↔ (G ↔ y ≤ x) ∧ (G' ↔ x ≤ y) := by
  constructor
  · rintro ⟨-, hor, -, hle, -⟩
    rw [isLE, hab, hge'] at hle
    rw [hge, hab, heq] at hor
    simp only [Option.some.injEq, decide_eq_true_eq, Option.map_some, Bool.not_eq_true', decide_eq_false_iff_not,
      not_lt] at hor hle
    exact ⟨hor.trans (by rw [le_iff_lt_or_eq, eq_comm (a := y)]), hle.symm⟩
  · rintro ⟨hG, hG'⟩
    constructor
    · rw [hab, heq, hba]
      rcases lt_trichotomy x y with hlt | rfl | hlt
      · simp [hlt, hlt.ne, hlt.not_gt]
      · simp
      · simp [hlt, hlt.ne', hlt.not_gt]
    · rw [hge, hab, heq]
      simp only [Option.some.injEq, decide_eq_true_eq, hG]
      rw [le_iff_lt_or_eq, eq_comm (a := y)]
    · rw [isLT, hge, hba]
      simp [hG]
    · rw [isLE, hab, hge']
      simp [hG']
    · rw [hab, hbc, hac]
      simp only [Option.some.injEq, decide_eq_true_eq]
      exact fun hyx hzy => hzy.trans hyx

theorem isSameKey_iff : a.isSameKey b = true ↔ a.type = b.type ∧ a.key = b.key := decide_eq_true_iff

/-- **The comparisons** of integers are those of a total order; those of strings are only when the strings are
equal, and those of blobs when none is a proper prefix of the other one. -/
theorem attributes_ordered_iff (fp : FloatOrder) (ha : a.Sound) (hb : b.Sound) (hc : c.Sound)
    (hab : a.isSameKey b = true) (hbc : b.isSameKey c = true)
    (htype : a.type = int32Type ∨ a.type = stringType ∨ a.type = blobType) :
    Ordered fp a b c ↔ Comparable a b := by
  obtain ⟨htab, hkab⟩ := isSameKey_iff.mp hab
  obtain ⟨htbc, hkbc⟩ := isSameKey_iff.mp hbc
  have hba := isSameKey_iff.mpr ⟨htab.symm, hkab.symm⟩
  have hac := isSameKey_iff.mpr ⟨htab.trans htbc, hkab.trans hkbc⟩
  rcases htype with htype | htype | htype
  · obtain ⟨h1, h2, h3⟩ := int_order fp hab htype
    obtain ⟨h4, -, h5⟩ := int_order fp hba (htab ▸ htype)
    rw [ordered_iff h1 h2 h4 (int_order fp hbc (htab ▸ htype)).1 (int_order fp hac htype).1 h3 h5]
    refine iff_of_true ⟨Iff.rfl, Iff.rfl⟩ ⟨fun h => ?_, fun h => ?_⟩
    · exact absurd (htype.symm.trans h) (by decide)
    · exact absurd (htype.symm.trans h) (by decide)
  · obtain ⟨h1, h2, h3⟩ := string_order fp ha hb hab htype
    obtain ⟨h4, -, h5⟩ := string_order fp hb ha hba (htab ▸ htype)
    constructor
    · intro h
      refine ⟨fun _ => ?_, fun hblob => absurd (htype.symm.trans hblob) (by decide)⟩
      by_contra hne
      have hcount := h.trichotomy
      rw [h1, h2, h4, decide_eq_true hne, decide_eq_false hne, decide_eq_true (Ne.symm hne)] at hcount
      exact absurd hcount (by decide)
    · intro h
      have hval := h.string htype
      constructor
      · rw [h1, h2, h4]
        simp [hval]
      · rw [h3 hval, h2]
        simp [hval]
      · rw [isLT, h3 hval, h4]
        simp [hval]
      · rw [isLE, h1, h5 hval.symm]
        simp [hval]
      · intro hgt
        rw [h1] at hgt
        simp [hval] at hgt
  · obtain ⟨h1, h2, h3⟩ := blob_order fp ha hb hab htype
    obtain ⟨h4, -, h5⟩ := blob_order fp hb ha hba (htab ▸ htype)
    rw [ordered_iff h1 h2 h4 (blob_order fp hb hc hbc (htab ▸ htype)).1 (blob_order fp ha hc hac htype).1 h3 h5]
    constructor
    · rintro ⟨hG, hG'⟩
      refine ⟨fun hstring => absurd (htype.symm.trans hstring) (by decide), fun _ hpre => ?_⟩
      exact nats_injective (le_antisymm (hG'.mp (.inr hpre.symm)) (hG.mp (.inr hpre)))
    · intro h
      have hpre := h.blob htype
      constructor
      · rw [le_iff_lt_or_eq, nats_injective.eq_iff]
        exact or_congr_right ⟨fun hp => (hpre hp).symm, fun heq => .inl (heq ▸ prefix_rfl)⟩
      · rw [le_iff_lt_or_eq, nats_injective.eq_iff]
        exact or_congr_right ⟨fun hp => hpre hp.symm, fun heq => .inl (heq ▸ prefix_rfl)⟩

/-- A host whose floating point numbers are never equal; it does not matter for integers. -/
def unordered : FloatOrder := ⟨fun _ _ => false, fun _ _ => false, fun _ _ => false⟩

theorem sound_int32 (key : BitVec 32) (op : BitVec 8) (val : BitVec 32) : (int32 key op val).Sound where
  len := by simp [int32, simple, getLen]
  int _ := by simp [int32, simple]
  string h := absurd h (by simp only [int32, simple]; decide)

theorem attributes_ordered_of_ints : Ordered unordered (int32 7 0 1) (int32 7 0 2) (int32 7 0 3) :=
  (attributes_ordered_iff unordered (sound_int32 7 0 1) (sound_int32 7 0 2) (sound_int32 7 0 3) (by decide)
    (by decide) (.inl rfl)).mpr ⟨fun h => absurd h (by decide), fun h => absurd h (by decide)⟩

/-- The blob of one byte is neither equal to one that it is a prefix of nor greater, but greater or equal. -/
theorem prefix_ge :
    (blob 7 0 [1]).isGE unordered (blob 7 0 [1, 2]) = some true ∧
      (blob 7 0 [1]).isGT unordered (blob 7 0 [1, 2]) = some false ∧
      (blob 7 0 [1]).isEQ unordered (blob 7 0 [1, 2]) = some false ∧
      ¬ Ordered unordered (blob 7 0 [1]) (blob 7 0 [1, 2]) (blob 7 0 [1]) := by
  refine ⟨by decide, by decide, by decide, fun h => ?_⟩
  have hge := h.ge
  exact absurd hge (by decide)

end NRAttribute

end NetSim.Diffusion
