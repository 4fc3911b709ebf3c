import NetSim.Nix.NixVec

/-! # Reading a bit vector back

Fields of 1 to 32 bits, added to a fresh `NixVec` and extracted with the same lengths, come back when
`unsigned long` has 32 bits. With 64 bits they come back only as long as the vector fits in one word
and no field is greater than 1 (`nixVec_round_trip`): the mask of `Extract` selects the lowest bit of a
field instead of all of them, and the copy constructor copies half of the array.
-/

namespace NetSim

open List

namespace NixVec

variable {w : ℕ} {v : NixVec w} {p : BitVec w × ℕ} {ps : List (BitVec w × ℕ)} {bs pre post : List Bool}
  {a : List (BitVec w)} {i j k n l used : ℕ}

/-! ## The bits of the storage -/

/-- Bit `j` of an array of words, from the most significant bit of the first word on. -/
def bitAt (a : List (BitVec w)) (j : ℕ) : Bool := (a.getD (j / 32) 0).getLsbD (31 - j % 32)

def words (v : NixVec w) : List (BitVec w) :=
  match v.pNV with
  | .value n => [n]
  | .array a => a

def bits (p : BitVec w × ℕ) : List Bool := (List.range p.2).map (fun j => p.1.getLsbD (p.2 - 1 - j))

/-- The pointer holds the word itself exactly when one word is enough, and otherwise points to the
allocated words. -/
def Shaped (v : NixVec w) : Prop :=
  match v.pNV with
  | .value _ => v.lth = 32
  | .array a => 32 < v.lth ∧ a.length * 32 = v.lth

/-- The storage holds the bits `bs`, followed by zeros. -/
structure Holds (v : NixVec w) (bs : List Bool) : Prop where
  alth : v.alth = bs.length
  shaped : v.Shaped
  bit : ∀ j < v.lth, bitAt v.words j = bs.getD j false

@[simp] theorem length_bits : (bits p).length = p.2 := by
  simp [bits]

theorem getD_bits : (bits p).getD j false = (decide (j < p.2) && p.1.getLsbD (p.2 - 1 - j)) := by
  unfold bits
  by_cases hj : j < p.2
  · simp [hj]
  · simp [hj]

theorem getD_append_bits :
    (bs ++ bits p).getD j false =
      (bs.getD j false ||
        (decide (bs.length ≤ j ∧ j < bs.length + p.2) && p.1.getLsbD (bs.length + p.2 - 1 - j))) := by
  by_cases hj : j < bs.length
  · rw [getD_append _ _ _ _ hj]
    simp [Nat.not_le.mpr hj]
  · have hge : bs.length ≤ j := Nat.not_lt.mp hj
    have hin : j - bs.length < p.2 ↔ bs.length ≤ j ∧ j < bs.length + p.2 := by omega
    rw [getD_append_right _ _ _ _ hge, getD_eq_default _ _ hge, getD_bits,
      show p.2 - 1 - (j - bs.length) = bs.length + p.2 - 1 - j from by omega, Bool.false_or]
    simp only [hin]

theorem getLsbD_of_fits (hp : p.1.toNat < 2 ^ p.2) (hk : p.2 ≤ k) : p.1.getLsbD k = false := by
  rw [BitVec.getLsbD, Nat.testBit_lt_two_pow]
  exact lt_of_lt_of_le hp (Nat.pow_le_pow_right (by norm_num) hk)

theorem bitAt_append_zero (hj : j < (a.length + 1) * 32) :
    bitAt (a ++ [0]) j = bitAt a j := by
  unfold bitAt
  by_cases hlt : j / 32 < a.length
  · rw [getD_append _ _ _ _ hlt]
  · have hge : a.length ≤ j / 32 := Nat.not_lt.mp hlt
    rw [getD_append_right _ _ _ _ hge, getD_eq_default a _ hge,
      show j / 32 - a.length = 0 from by omega]
    simp

@[simp] theorem length_orAt (newbits : BitVec w) : (orAt a i newbits).length = a.length := by
  simp [orAt]

theorem bitAt_orAt (newbits : BitVec w) (hi : i < a.length) :
    bitAt (orAt a i newbits) j =
      (bitAt a j || (decide (j / 32 = i) && newbits.getLsbD (31 - j % 32))) := by
  unfold bitAt orAt
  by_cases hj : j / 32 = i
  · subst hj
    simp [hi]
  · simp [hj, Ne.symm hj]

/-! ## Adding a field -/

theorem getLsbD_shifted (hw : 32 ≤ w) (hp : p.1.toNat < 2 ^ p.2) (hj : j / 32 = i)
    (hend : used + p.2 ≤ (i + 1) * 32) (hin : i * 32 < used + p.2) :
    (p.1 <<< ((i + 1) * 32 - used - p.2)).getLsbD (31 - j % 32) =
      (decide (used ≤ j ∧ j < used + p.2) && p.1.getLsbD (used + p.2 - 1 - j)) := by
  rw [BitVec.getLsbD_shiftLeft]
  by_cases hlt : j < used + p.2
  · have hidx : 31 - j % 32 - ((i + 1) * 32 - used - p.2) = used + p.2 - 1 - j := by omega
    have hwide : 31 - j % 32 < w := by omega
    have hshift : ¬ 31 - j % 32 < (i + 1) * 32 - used - p.2 := by omega
    rw [hidx]
    by_cases hle : used ≤ j
    · simp [hwide, hshift, hle, hlt]
    · rw [getLsbD_of_fits hp (by omega)]
      simp
  · have hshift : 31 - j % 32 < (i + 1) * 32 - used - p.2 := by omega
    simp [hshift, hlt]

theorem getLsbD_cut (hp : p.1.toNat < 2 ^ p.2) (hj : j / 32 = i) (hstart : i * 32 ≤ used)
    (hbefore : used ≤ (i + 1) * 32) (hend : (i + 1) * 32 ≤ used + p.2) :
    (p.1 >>> (p.2 - ((i + 1) * 32 - used))).getLsbD (31 - j % 32) =
      (decide (used ≤ j ∧ j < used + p.2) && p.1.getLsbD (used + p.2 - 1 - j)) := by
  rw [BitVec.getLsbD_ushiftRight,
    show p.2 - ((i + 1) * 32 - used) + (31 - j % 32) = used + p.2 - 1 - j from by omega]
  by_cases hle : used ≤ j
  · have hlt : j < used + p.2 := by omega
    simp [hle, hlt]
  · rw [getLsbD_of_fits hp (by omega)]
    simp

theorem lth_of_pos (hv : v.alth ≠ 0) : v.lth = ((v.alth - 1) / 32 + 1) * 32 := by
  rw [lth, if_neg hv]
  rfl

theorem lth_bounds (v : NixVec w) :
    v.alth ≤ v.lth ∧ v.lth % 32 = 0 ∧ 32 ≤ v.lth ∧ (v.alth = 0 → v.lth = 32) ∧
      (v.alth ≠ 0 → v.lth < v.alth + 32) := by
  by_cases hv : v.alth = 0
  · simp [lth, hv, nixBpw]
  · rw [lth_of_pos hv]
    omega

theorem words_length (h : v.Shaped) : v.words.length * 32 = v.lth := by
  unfold Shaped at h
  unfold words
  cases hp : v.pNV with
  | value n =>
    rw [hp] at h
    simp [h]
  | array a =>
    rw [hp] at h
    exact h.2

theorem old_words (h : v.Shaped) :
    (if v.lth = nixBpw then [v.pNV.asValue] else v.pNV.asArray.take (v.lth / nixBpw)) = v.words := by
  unfold Shaped at h
  unfold words nixBpw
  cases hp : v.pNV with
  | value n =>
    rw [hp] at h
    rw [if_pos h]
    rfl
  | array a =>
    rw [hp] at h
    rw [if_neg (by omega)]
    exact take_of_length_le (by simp only [NixStorage.asArray]; omega)

/-- The words after a field was added at position `used`. -/
def addedWords (v : NixVec w) (p : BitVec w × ℕ) : List (BitVec w) :=
  let i := v.used / 32
  if v.lth < v.used + p.2 then
    if v.used = v.lth then orAt (v.words ++ [0]) i (p.1 <<< ((i + 1) * 32 - v.used - p.2))
    else orAt (orAt (v.words ++ [0]) i (p.1 >>> (p.2 - ((i + 1) * 32 - v.used)))) (i + 1)
      (p.1 <<< ((i + 1 + 1) * 32 - v.used - p.2))
  else orAt v.words i (p.1 <<< ((i + 1) * 32 - v.used - p.2))

theorem bitAt_addedWords (hw : 32 ≤ w) (hshape : v.Shaped) (hused : v.used = v.alth)
    (hlo : 1 ≤ p.2) (hhi : p.2 ≤ 32) (hp : p.1.toNat < 2 ^ p.2)
    (hj : j < (addedWords v p).length * 32) :
    bitAt (addedWords v p) j = (bitAt v.words j ||
      (decide (v.used ≤ j ∧ j < v.used + p.2) && p.1.getLsbD (v.used + p.2 - 1 - j))) := by
  have hlen := words_length hshape
  have hb := lth_bounds v
  -- outside of the words that are written the field has no bits
  have hout : ∀ i, i * 32 ≤ v.used → v.used + p.2 ≤ (i + 1) * 32 → j / 32 ≠ i →
      ¬ (v.used ≤ j ∧ j < v.used + p.2) := by
    intro i h1 h2 h3
    omega
  unfold addedWords at hj ⊢
  by_cases hgrow : v.lth < v.used + p.2
  · rw [if_pos hgrow] at hj ⊢
    by_cases hfull : v.used = v.lth
    · rw [if_pos hfull] at hj ⊢
      have hlen1 : v.used / 32 < (v.words ++ [0]).length := by simp; omega
      rw [bitAt_orAt _ hlen1, bitAt_append_zero (by simpa using hj)]
      by_cases hji : j / 32 = v.used / 32
      · rw [getLsbD_shifted hw hp hji (by omega) (by omega)]
        simp [hji]
      · simp [hji, hout (v.used / 32) (by omega) (by omega) hji]
    · rw [if_neg hfull] at hj ⊢
      have hlen1 : v.used / 32 + 1 < (v.words ++ [0]).length := by simp; omega
      rw [bitAt_orAt _ (by simpa using hlen1), bitAt_orAt _ (by omega),
        bitAt_append_zero (by simpa using hj)]
      by_cases hji : j / 32 = v.used / 32
      · rw [getLsbD_cut hp hji (by omega) (by omega) (by omega)]
        simp [hji]
      · by_cases hji2 : j / 32 = v.used / 32 + 1
        · rw [getLsbD_shifted hw hp hji2 (by omega) (by omega)]
          simp [hji2]
        · have hno : ¬ (v.used ≤ j ∧ j < v.used + p.2) := by omega
          simp [hji, hji2, hno]
  · rw [if_neg hgrow] at hj ⊢
    have hlen1 : v.used / 32 < v.words.length := by omega
    rw [bitAt_orAt _ hlen1]
    by_cases hji : j / 32 = v.used / 32
    · rw [getLsbD_shifted hw hp hji (by omega) (by omega)]
      simp [hji]
    · simp [hji, hout (v.used / 32) (by omega) (by omega) hji]

theorem add_spec (hshape : v.Shaped) (hused : v.used = v.alth) (hlo : 1 ≤ p.2) (hhi : p.2 ≤ 32) :
    (v.add p).alth = v.alth + p.2 ∧ (v.add p).used = v.used + p.2 ∧ (v.add p).Shaped ∧
      (v.add p).words = addedWords v p := by
  have hlen := words_length hshape
  have hb := lth_bounds v
  have halth : (v.add p).alth = v.alth + p.2 := by
    unfold add
    rw [if_neg (by omega)]
    simp only
    rw [if_pos (by omega), hused]
  have hlth := lth_bounds (v.add p)
  refine ⟨halth, ?_, ?_⟩
  · unfold add
    rw [if_neg (by omega)]
  by_cases hgrow : v.lth < v.used + p.2
  · have hpNV : (v.add p).pNV = .array (addedWords v p) := by
      unfold add addedWords
      rw [if_neg (by omega)]
      simp only [old_words hshape, if_pos hgrow]
      by_cases hfull : v.used = v.lth
      · simp only [if_pos hfull, nixBpw]
        rw [show 32 + (v.lth + 32 - 32) - v.used - p.2 = (v.used / 32 + 1) * 32 - v.used - p.2
          from by omega]
      · simp only [if_neg hfull, nixBpw]
        rw [show p.2 - (v.lth - v.used) = p.2 - ((v.used / 32 + 1) * 32 - v.used) from by omega,
          show 32 - (p.2 - ((v.used / 32 + 1) * 32 - v.used)) =
            (v.used / 32 + 1 + 1) * 32 - v.used - p.2 from by omega]
    have hcount : (addedWords v p).length = v.words.length + 1 := by
      unfold addedWords
      rw [if_pos hgrow]
      split <;> simp
    unfold Shaped words
    rw [hpNV]
    exact ⟨⟨by omega, by omega⟩, rfl⟩
  · have hshift : 32 + (v.lth - 32) - v.used - p.2 = (v.used / 32 + 1) * 32 - v.used - p.2 := by
      omega
    by_cases hone : v.lth = 32
    · have hpNV : (v.add p).pNV =
          .value (v.pNV.asValue ||| p.1 <<< ((v.used / 32 + 1) * 32 - v.used - p.2)) := by
        unfold add
        rw [if_neg (by omega)]
        simp only [if_neg hgrow, nixBpw, if_pos hone, hshift]
      have hwords : v.words = [v.pNV.asValue] := by
        rw [← old_words hshape]
        exact if_pos hone
      have hzero : v.used / 32 = 0 := by omega
      unfold Shaped words addedWords
      rw [hpNV, if_neg hgrow, hwords, hzero]
      exact ⟨by omega, rfl⟩
    · have hpNV : (v.add p).pNV = .array (addedWords v p) := by
        have hwords : v.pNV.asArray = v.words := by
          unfold Shaped at hshape
          unfold words
          cases hp : v.pNV with
          | value n =>
            rw [hp] at hshape
            exact absurd hshape hone
          | array a => rfl
        unfold add addedWords
        rw [if_neg (by omega)]
        simp only [if_neg hgrow, nixBpw, if_neg hone, hwords, hshift]
      have hcount : (addedWords v p).length = v.words.length := by
        unfold addedWords
        rw [if_neg hgrow, length_orAt]
      unfold Shaped words
      rw [hpNV]
      exact ⟨⟨by omega, by omega⟩, rfl⟩

/-- **Adding a field appends its bits**, whatever the width of a word. -/
theorem Holds.add (hw : 32 ≤ w) (h : Holds v bs) (hused : v.used = bs.length) (hlo : 1 ≤ p.2)
    (hhi : p.2 ≤ 32) (hp : p.1.toNat < 2 ^ p.2) :
    Holds (v.add p) (bs ++ bits p) ∧ (v.add p).used = (bs ++ bits p).length := by
  obtain ⟨halth, hused', hshape, hwords⟩ := add_spec h.shaped (hused.trans h.alth.symm) hlo hhi
  have hlen : (bs ++ bits p).length = bs.length + p.2 := by simp
  refine ⟨⟨by rw [halth, h.alth, hlen], hshape, ?_⟩, by rw [hused', hused, hlen]⟩
  intro j hj
  have hcount := words_length hshape
  rw [hwords] at hcount ⊢
  rw [bitAt_addedWords hw h.shaped (hused.trans h.alth.symm) hlo hhi hp (by omega),
    getD_append_bits, hused]
  by_cases hin : j < v.lth
  · rw [h.bit j hin]
  · have hb := lth_bounds v
    have hout : v.words.length ≤ j / 32 := by
      have := words_length h.shaped
      omega
    rw [getD_eq_default bs _ (by have := h.alth; omega)]
    unfold bitAt
    rw [getD_eq_default v.words _ hout]
    simp

theorem holds_empty : Holds (empty w) [] where
  alth := rfl
  shaped := rfl
  bit := by
    intro j _
    unfold bitAt words empty
    cases hj : j / 32 with
    | zero => simp
    | succ n => simp

def Fit (ps : List (BitVec w × ℕ)) : Prop := ∀ p ∈ ps, 1 ≤ p.2 ∧ p.2 ≤ 32 ∧ p.1.toNat < 2 ^ p.2

theorem Holds.foldl_add (hw : 32 ≤ w) (h : Holds v bs) (hused : v.used = bs.length) (hps : Fit ps) :
    Holds (ps.foldl NixVec.add v) (bs ++ ps.flatMap bits) := by
  induction ps generalizing v bs with
  | nil => simpa using h
  | cons p ps ih =>
    obtain ⟨hlo, hhi, hp⟩ := hps p mem_cons_self
    obtain ⟨h', hused'⟩ := h.add hw hused hlo hhi hp
    rw [foldl_cons, flatMap_cons, ← append_assoc]
    exact ih h' hused' (fun q hq => hps q (mem_cons_of_mem p hq))

/-! ## Extracting a field -/

theorem asArray_eq (h : v.Shaped) (hlth : 32 < v.lth) : v.pNV.asArray = v.words := by
  unfold Shaped at h
  unfold words
  cases hp : v.pNV with
  | value n =>
    rw [hp] at h
    omega
  | array a => rfl

theorem firstWord_eq (h : v.Shaped) (hi : i * 32 < v.lth) : v.firstWord i = v.words.getD i 0 := by
  unfold firstWord nixBpw
  have hb := lth_bounds v
  by_cases hone : v.lth = 32
  · have hold := old_words h
    rw [if_pos hone, ← hold, show i = 0 from by omega, show nixBpw = 32 from rfl, if_pos hone]
    rfl
  · rw [if_neg hone, asArray_eq h (by omega)]

/-- The shift of the mask is that of a signed number: it fills with ones only where the mask fits
`long` exactly. -/
theorem getLsbD_mask (hw : 32 ≤ w) (hlo : 1 ≤ n) (hhi : n ≤ 32) :
    (mask w n).getLsbD (32 - n + k) =
      if w = 32 then decide (k < n) else decide (k = 0) := by
  have hbit : ∀ i, (0x80000000#w).getLsbD i = decide (i = 31) := by
    intro i
    rw [BitVec.getLsbD_ofNat, show (0x80000000 : ℕ) = 2 ^ 31 from rfl, Nat.testBit_two_pow]
    by_cases hi : i = 31
    · simp only [hi, decide_true, Bool.and_true, decide_eq_true_eq]
      omega
    · simp [hi, Ne.symm hi]
  have hmsb : (0x80000000#w).msb = decide (w = 32) := by
    rw [BitVec.msb_eq_getLsbD_last, hbit]
    simp only [decide_eq_decide]
    omega
  unfold mask
  rw [BitVec.getLsbD_sshiftRight, hbit, hmsb, Bool.eq_iff_iff]
  by_cases hfit : n - 1 + (32 - n + k) < w
  · rw [if_pos hfit]
    split
    · simp only [Bool.and_eq_true, Bool.not_eq_true', decide_eq_false_iff_not, decide_eq_true_eq]
      omega
    · simp only [Bool.and_eq_true, Bool.not_eq_true', decide_eq_false_iff_not, decide_eq_true_eq]
      omega
  · rw [if_neg hfit]
    split
    · simp only [Bool.and_eq_true, Bool.not_eq_true', decide_eq_false_iff_not, decide_eq_true_eq]
      omega
    · simp only [Bool.and_eq_true, decide_eq_true_eq]
      omega

theorem extract_snd (hin : used + n ≤ v.alth) : (v.extract n used).2 = used + n := by
  unfold extract
  rw [if_neg (by omega)]
  split <;> rfl

theorem extract_past (h : v.alth < used + n) : v.extract n used = (nixNone w, used) := by
  unfold extract
  rw [if_pos h]

theorem getLsbD_extract_inside (hw : 32 ≤ w) (h : v.Shaped) (hlo : 1 ≤ n)
    (hin : used + n ≤ v.alth) (hword : used % 32 + n ≤ 32) :
    (v.extract n used).1.getLsbD k =
      ((if w = 32 then decide (k < n) else decide (k = 0)) && bitAt v.words (used + n - 1 - k)) := by
  have hb := lth_bounds v
  have hbit : used - used / 32 * 32 = used % 32 := by omega
  unfold extract
  simp only [nixBpw, hbit]
  rw [if_neg (by omega), if_pos hword]
  rw [BitVec.getLsbD_ushiftRight, BitVec.getLsbD_and, BitVec.getLsbD_ushiftRight,
    show used % 32 + (32 - used % 32 - n + k) = 32 - n + k from by omega,
    getLsbD_mask hw hlo (by omega), firstWord_eq h (by omega), Bool.and_comm]
  by_cases hk : k < n
  · unfold bitAt
    rw [show (used + n - 1 - k) / 32 = used / 32 from by omega,
      show 31 - (used + n - 1 - k) % 32 = 32 - used % 32 - n + k from by omega]
  · have hne : k ≠ 0 := by omega
    simp [hk, hne]

theorem getLsbD_extract_spanning (hw : 32 ≤ w) (h : v.Shaped) (hhi : n ≤ 32)
    (hin : used + n ≤ v.alth) (hword : 32 < used % 32 + n) (hk : w = 32 ∨ k = 0) :
    (v.extract n used).1.getLsbD k =
      ((if w = 32 then decide (k < n) else decide (k = 0)) && bitAt v.words (used + n - 1 - k)) := by
  have hb := lth_bounds v
  have hbit : used - used / 32 * 32 = used % 32 := by omega
  unfold extract
  simp only [nixBpw, hbit]
  rw [if_neg (by omega), if_neg (by omega)]
  rw [BitVec.getLsbD_or, BitVec.getLsbD_shiftLeft, BitVec.getLsbD_and, BitVec.getLsbD_ushiftRight,
    BitVec.getLsbD_ushiftRight, firstWord_eq h (by omega), asArray_eq h (by omega)]
  unfold bitAt
  by_cases hsnd : k < n - (32 - used % 32)
  · -- the bit lies in the second word
    rw [show (used + n - 1 - k) / 32 = used / 32 + 1 from by omega,
      show 31 - (used + n - 1 - k) % 32 = 32 - (n - (32 - used % 32)) + k from by omega]
    have hkn : k < n := by omega
    by_cases h32 : w = 32
    · simp [hsnd, h32, hkn]
    · have hz : k = 0 := by omega
      have hpos : 0 < n - (32 - used % 32) := by omega
      simp [h32, hz, hpos]
  · -- the bit lies in the first word; the second word was shifted out
    have h32 : w = 32 := by omega
    subst h32
    have hmask := @getLsbD_mask 32 (k - (n - (32 - used % 32))) (32 - used % 32) le_rfl (by omega) (by omega)
    rw [if_pos rfl, show 32 - (32 - used % 32) = used % 32 from by omega] at hmask
    rw [hmask, BitVec.getLsbD_of_ge (v.words.getD (used / 32 + 1) 0) _ (by omega), if_pos rfl]
    by_cases hkn : k < n
    · rw [show (used + n - 1 - k) / 32 = used / 32 from by omega,
        show 31 - (used + n - 1 - k) % 32 = k - (n - (32 - used % 32)) from by omega]
      have hlt : k - (n - (32 - used % 32)) < 32 - used % 32 := by omega
      have hk32 : k < 32 := by omega
      simp [hk32, hlt, hkn, hsnd]
    · have hge : ¬ k - (n - (32 - used % 32)) < 32 - used % 32 := by omega
      simp [hge, hkn]

/-- **What `Extract` returns.** With 32 bits, all bits of the field; with more, the last bit is always
right, and inside of one word the others are lost. -/
theorem extract_bit (hw : 32 ≤ w) (h : v.Shaped) (hlo : 1 ≤ n) (hhi : n ≤ 32)
    (hin : used + n ≤ v.alth) (hk : w = 32 ∨ k = 0 ∨ used % 32 + n ≤ 32) :
    (v.extract n used).1.getLsbD k =
      ((if w = 32 then decide (k < n) else decide (k = 0)) && bitAt v.words (used + n - 1 - k)) := by
  by_cases hword : used % 32 + n ≤ 32
  · exact getLsbD_extract_inside hw h hlo hin hword
  · exact getLsbD_extract_spanning hw h hhi hin (by omega) (by omega)

/-- A field comes back when all its bits are read, or when it has no others than the last. -/
theorem extract_field (hw : 32 ≤ w) (hps : 1 ≤ p.2 ∧ p.2 ≤ 32 ∧ p.1.toNat < 2 ^ p.2)
    (h : Holds v (pre ++ bits p ++ post))
    (hread : w = 32 ∨ v.alth ≤ 32 ∧ p.1.toNat ≤ 1) :
    v.extract p.2 pre.length = (p.1, pre.length + p.2) := by
  have hlen := h.alth
  rw [length_append, length_append, length_bits] at hlen
  have hin : pre.length + p.2 ≤ v.alth := by omega
  refine Prod.ext ?_ (extract_snd hin)
  apply BitVec.eq_of_getLsbD_eq
  intro k hk
  rw [extract_bit hw h.shaped hps.1 hps.2.1 hin (by omega)]
  -- the bits at the place of the field
  have hplace : k < p.2 → bitAt v.words (pre.length + p.2 - 1 - k) = p.1.getLsbD k := by
    intro hkn
    have hb := lth_bounds v
    rw [h.bit _ (by omega), getD_append _ _ _ _ (by simp; omega),
      getD_append_right _ _ _ _ (by omega), getD_bits,
      show p.2 - 1 - (pre.length + p.2 - 1 - k - pre.length) = k from by omega]
    have hlt : pre.length + p.2 - 1 - k - pre.length < p.2 := by omega
    simp [hlt]
  by_cases h32 : w = 32
  · rw [if_pos h32]
    by_cases hkn : k < p.2
    · simp [hkn, hplace hkn]
    · simp [hkn, getLsbD_of_fits hps.2.2 (Nat.not_lt.mp hkn)]
  · rw [if_neg h32]
    by_cases hz : k = 0
    · simp only [hz]
      exact hz ▸ hplace (by omega)
    · have hsmall : p.1.toNat ≤ 1 := (hread.resolve_left h32).2
      rw [BitVec.getLsbD, Nat.testBit_lt_two_pow]
      · simp [hz]
      · exact lt_of_le_of_lt hsmall (Nat.one_lt_two_pow hz)

theorem Holds.seek (h : Holds v bs) (k : ℕ) : Holds { v with used := k } bs :=
  ⟨h.alth, h.shaped, h.bit⟩

theorem extractAll_append (v : NixVec w) (ms ns : List ℕ) :
    extractAll v (ms ++ ns) =
      ((extractAll v ms).1 ++ (extractAll (extractAll v ms).2 ns).1,
        (extractAll (extractAll v ms).2 ns).2) := by
  induction ms generalizing v with
  | nil => rfl
  | cons m ms ih =>
    rw [cons_append, extractAll, ih]
    rfl

theorem extractAll_snd {ns : List ℕ} (hin : v.used + ns.sum ≤ v.alth) :
    (extractAll v ns).2 = { v with used := v.used + ns.sum } := by
  induction ns generalizing v with
  | nil => rfl
  | cons n ns ih =>
    rw [sum_cons] at hin ⊢
    have hstep : (v.extractNext n).2 = { v with used := v.used + n } := by
      unfold extractNext
      rw [extract_snd (by omega)]
    rw [extractAll, hstep]
    rw [ih (by simp only; omega), ← Nat.add_assoc]

theorem length_flatMap_bits (ps : List (BitVec w × ℕ)) :
    (ps.flatMap bits).length = (ps.map Prod.snd).sum := by
  simp

theorem extractAll_fst (hw : 32 ≤ w) (hps : Fit ps) (h : Holds v (pre ++ ps.flatMap bits))
    (hused : v.used = pre.length) (hread : w = 32 ∨ v.alth ≤ 32 ∧ ∀ p ∈ ps, p.1.toNat ≤ 1) :
    (extractAll v (ps.map Prod.snd)).1 = ps.map Prod.fst := by
  induction ps generalizing v pre with
  | nil => rfl
  | cons p ps ih =>
    rw [flatMap_cons, ← append_assoc] at h
    have hfield : v.extract p.2 v.used = (p.1, pre.length + p.2) := by
      rw [hused]
      exact extract_field hw (hps p mem_cons_self) h
        (hread.imp_right (fun hr => ⟨hr.1, hr.2 p mem_cons_self⟩))
    rw [map_cons, map_cons, extractAll]
    unfold extractNext
    rw [hfield]
    refine congrArg (List.cons p.1) ?_
    apply ih (fun q hq => hps q (mem_cons_of_mem p hq)) (h.seek _)
    · simp
    · exact hread.imp_right (fun hr => ⟨hr.1, fun q hq => hr.2 q (mem_cons_of_mem p hq)⟩)

/-! ## Copies -/

theorem copyWord_zero (d s : BitVec w) : copyWord 0 d s = d := by
  unfold copyWord
  simp

theorem copyWord_full (d s : BitVec w) (h : w ≤ 8 * n) : copyWord n d s = s := by
  unfold copyWord
  rw [BitVec.shiftLeft_eq_zero h]
  simp

theorem memcpy_full {dst src : List (BitVec 32)} (hlen : dst.length = src.length) :
    memcpy (4 * src.length) dst src = src := by
  induction src generalizing dst with
  | nil =>
    have : dst = [] := length_eq_zero_iff.mp hlen
    rw [this]
    rfl
  | cons s src ih =>
    cases dst with
    | nil => simp at hlen
    | cons d dst =>
      rw [memcpy, copyWord_full d s (by simp; omega),
        show 4 * (s :: src).length - 32 / 8 = 4 * src.length from by simp; omega,
        ih (by simpa using hlen)]

theorem memcpy_tail {dst src : List (BitVec w)} (h : n ≤ i * (w / 8)) :
    (memcpy n dst src).getD i 0 = dst.getD i 0 := by
  induction i generalizing n dst src with
  | zero =>
    cases dst with
    | nil => cases src <;> rfl
    | cons d dst =>
      cases src with
      | nil => rfl
      | cons s src =>
        have hn : n = 0 := by omega
        rw [hn, memcpy, copyWord_zero]
        rfl
  | succ i ih =>
    cases dst with
    | nil => cases src <;> rfl
    | cons d dst =>
      cases src with
      | nil => rfl
      | cons s src =>
        apply ih
        rw [Nat.succ_mul] at h
        omega

@[simp] theorem length_memcpy (n : ℕ) (dst src : List (BitVec w)) :
    (memcpy n dst src).length = dst.length := by
  induction dst generalizing n src with
  | nil => cases src <;> rfl
  | cons d dst ih =>
    cases src with
    | nil => rfl
    | cons s src => rw [memcpy, length_cons, ih, length_cons]

theorem copy_lth (fresh : ℕ → BitVec w) : (copy v fresh).lth = v.lth := rfl

theorem copy_eq {v : NixVec 32} (h : v.Shaped) (fresh : ℕ → BitVec 32) :
    copy v fresh = reset v := by
  have hlen := words_length h
  unfold copy reset
  rw [NixVec.mk.injEq]
  refine ⟨?_, rfl, rfl⟩
  unfold nixBpw
  by_cases hlth : 32 < v.lth
  · rw [if_pos hlth, asArray_eq h hlth, show v.lth / 8 = 4 * v.words.length from by omega,
      memcpy_full (by simp; omega), ← asArray_eq h hlth]
    unfold Shaped at h
    cases hp : v.pNV with
    | value n =>
      rw [hp] at h
      omega
    | array a => rfl
  · rw [if_neg hlth]

theorem copy_of_one_word (hone : v.lth = 32) (fresh : ℕ → BitVec w) : copy v fresh = reset v := by
  unfold copy reset nixBpw
  rw [if_neg (by omega)]

theorem copy_shaped (hlth : 32 < v.lth) (fresh : ℕ → BitVec w) :
    (copy v fresh).Shaped ∧
      ∀ i, v.lth / 8 ≤ i * (w / 8) → i * 32 < v.lth → (copy v fresh).words.getD i 0 = fresh i := by
  have hb := lth_bounds v
  have hp : (copy v fresh).pNV =
      .array (memcpy (v.lth / 8) ((List.range (v.lth / 32)).map fresh) v.pNV.asArray) := by
    exact if_pos hlth
  unfold Shaped words
  rw [hp]
  refine ⟨⟨hlth, ?_⟩, ?_⟩
  · rw [length_memcpy, length_map, length_range, copy_lth]
    omega
  · intro i hi hlt
    have hrange : i < v.lth / 32 := by omega
    rw [memcpy_tail hi]
    simp [hrange]

/-! ## Round trips -/

/-- Extracting with the lengths of the fields gives their values, and nothing can be extracted
behind. -/
def Reads (v : NixVec w) (ps : List (BitVec w × ℕ)) : Prop :=
  let r := extractAll v (ps.map Prod.snd)
  r.1 = ps.map Prod.fst ∧ ∀ n, 1 ≤ n → r.2.extractNext n = (nixNone w, r.2)

/-- The fields of a vector and of all its copies come back; `fresh` is the memory a copy gets. -/
def RoundTrips (ps : List (BitVec w × ℕ)) : Prop :=
  Reads (reset (addAll ps)) ps ∧ ∀ fresh, Reads (copy (addAll ps) fresh) ps

def totalBits (ps : List (BitVec w × ℕ)) : ℕ := (ps.map Prod.snd).sum

theorem holds_addAll (hw : 32 ≤ w) (hps : Fit ps) : Holds (addAll ps) (ps.flatMap bits) :=
  holds_empty.foldl_add hw rfl hps

theorem alth_addAll (hw : 32 ≤ w) (hps : Fit ps) : (addAll ps).alth = totalBits ps := by
  rw [(holds_addAll hw hps).alth, length_flatMap_bits]
  rfl

theorem reads_reset (hw : 32 ≤ w) (hps : Fit ps)
    (hread : w = 32 ∨ totalBits ps ≤ 32 ∧ ∀ p ∈ ps, p.1.toNat ≤ 1) :
    Reads (reset (addAll ps)) ps := by
  have hholds : Holds (reset (addAll ps)) ([] ++ ps.flatMap bits) := (holds_addAll hw hps).seek 0
  have halth : (reset (addAll ps)).alth = totalBits ps := alth_addAll hw hps
  refine ⟨extractAll_fst hw hps hholds rfl (by rwa [halth]), ?_⟩
  intro n hn
  rw [extractAll_snd (by rw [halth]; exact (Nat.zero_add _).le)]
  unfold extractNext
  rw [extract_past]
  simp only
  rw [halth]
  unfold totalBits reset
  omega

theorem extractAll_small (hw : 32 < w) (h : v.Shaped) (hone : v.alth ≤ 32) {ns : List ℕ}
    (hns : ∀ n ∈ ns, 1 ≤ n) (hin : v.used + ns.sum ≤ v.alth) :
    ∀ o ∈ (extractAll v ns).1, o.toNat ≤ 1 := by
  induction ns generalizing v with
  | nil =>
    intro o ho
    cases ho
  | cons n ns ih =>
    have hlo := hns n mem_cons_self
    rw [sum_cons] at hin
    intro o ho
    rcases mem_cons.mp ho with rfl | ho
    · refine Nat.lt_succ_iff.mp (Nat.lt_pow_two_of_testBit (n := 1) _ ?_)
      intro k hk
      have hbit := @extract_bit w v k n v.used hw.le h hlo (by omega) (by omega) (by omega)
      rw [if_neg hw.ne', decide_eq_false (by omega), Bool.false_and] at hbit
      exact hbit
    · refine @ih { v with used := (v.extract n v.used).2 } h hone
        (fun m hm => hns m (mem_cons_of_mem n hm)) ?_ o ho
      simp only
      rw [extract_snd (by omega)]
      omega

theorem not_reads_copy {ps : List (BitVec 64 × ℕ)} (hps : Fit ps) (hlong : 32 < totalBits ps) :
    ¬ ∀ fresh, Reads (copy (addAll ps) fresh) ps := by
  intro hreads
  have hw : 32 ≤ 64 := by omega
  have halth := alth_addAll hw hps
  have hb := lth_bounds (addAll ps)
  rcases eq_nil_or_concat ps with hnil | ⟨qs, p, hqs⟩
  · rw [hnil] at hlong
    cases hlong
  rw [concat_eq_append] at hqs
  have htotal : totalBits ps = (qs.map Prod.snd).sum + p.2 := by
    rw [totalBits, hqs]
    simp
  obtain ⟨hlo, hhi, -⟩ := hps p (by rw [hqs]; simp)
  -- the last bit of the last field is one of the last word
  have hlast : ∀ fresh : ℕ → BitVec 64, p.1.getLsbD 0 =
      (fresh ((totalBits ps - 1) / 32)).getLsbD (31 - (totalBits ps - 1) % 32) := by
    intro fresh
    obtain ⟨hshape, htail⟩ := copy_shaped (show 32 < (addAll ps).lth from by omega) fresh
    have hin : 0 + (qs.map Prod.snd).sum + p.2 ≤ (copy (addAll ps) fresh).alth := by
      have : (copy (addAll ps) fresh).alth = totalBits ps := halth
      omega
    have hvals := (hreads fresh).1
    rw [congrArg (List.map Prod.snd) hqs, map_append, extractAll_append,
      @extractAll_snd 64 (copy (addAll ps) fresh) _ (le_trans (Nat.le_add_right _ _) hin),
      congrArg (List.map Prod.fst) hqs, map_append] at hvals
    have hp := head_eq_of_cons_eq (append_inj_right' hvals rfl)
    have hbit := @extract_bit 64 (copy (addAll ps) fresh) 0 p.2 _ hw hshape hlo hhi hin (by omega)
    have hout : (extract (copy (addAll ps) fresh) p.2 (0 + (qs.map Prod.snd).sum)).1 = p.1 := hp
    rw [hout, if_neg (by omega), decide_eq_true rfl, Bool.true_and,
      show 0 + (qs.map Prod.snd).sum + p.2 - 1 - 0 = totalBits ps - 1 from by omega] at hbit
    rw [hbit, bitAt, htail _ (by omega) (by omega)]
  have hzero := hlast (fun _ => 0)
  have hones := hlast (fun _ => BitVec.allOnes 64)
  rw [hzero, BitVec.getLsbD_allOnes, decide_eq_true (by omega)] at hones
  simp at hones

end NixVec

open NixVec

/-- **Exactly when a bit vector comes back.** Fields of 1 to 32 bits, added to a fresh vector and
extracted with the same lengths from it and from its copies, give their values, and nothing more can be
extracted, exactly when `unsigned long` has 32 bits or the vector fits in one word and its fields are 0
or 1. -/
theorem nixVec_round_trip {w : ℕ} (hw : w = 32 ∨ w = 64) (ps : List (BitVec w × ℕ)) (hps : Fit ps) :
    RoundTrips ps ↔ w = 32 ∨ totalBits ps ≤ 32 ∧ ∀ p ∈ ps, p.1.toNat ≤ 1 := by
  have hge : 32 ≤ w := by omega
  have hholds := holds_addAll hge hps
  have halth := alth_addAll hge hps
  have hb := lth_bounds (addAll ps)
  constructor
  · rintro ⟨hreset, hcopy⟩
    by_cases h32 : w = 32
    · exact Or.inl h32
    right
    have hone : totalBits ps ≤ 32 :=
      by
        have h64 : w = 64 := by omega
        subst h64
        exact Nat.not_lt.mp (fun hlong => not_reads_copy hps hlong hcopy)
    refine ⟨hone, ?_⟩
    have hsmall := @extractAll_small w (reset (addAll ps)) (by omega) hholds.shaped
      (halth.le.trans hone) (ps.map Prod.snd) (by
        intro n hn
        obtain ⟨p, hp, rfl⟩ := mem_map.mp hn
        exact (hps p hp).1) (by
        rw [show (reset (addAll ps)).alth = totalBits ps from halth]
        exact (Nat.zero_add _).le)
    rw [hreset.1] at hsmall
    exact fun p hp => hsmall p.1 (mem_map_of_mem hp)
  · intro hread
    have hreset := reads_reset hge hps hread
    refine ⟨hreset, fun fresh => ?_⟩
    rcases hread with h32 | ⟨hone, -⟩
    · subst h32
      rw [copy_eq hholds.shaped]
      exact hreset
    · rw [copy_of_one_word (by omega)]
      exact hreset

/-- Three fields over two words of 32 bits. -/
theorem nixVec_round_trip_spanning :
    RoundTrips [(5#32, 20), (0xabcdef12#32, 32), (0#32, 1)] := by
  have hps : Fit [(5#32, 20), (0xabcdef12#32, 32), (0#32, 1)] := by
    unfold Fit
    decide
  exact (nixVec_round_trip (Or.inl rfl) _ hps).mpr (Or.inl rfl)

/-- With 64 bits the field 3 of two bits comes back as 1. -/
theorem nixVec_masked : Fit [(3#64, 2)] ∧ ¬ RoundTrips [(3#64, 2)] := by
  constructor
  · unfold Fit
    decide
  · intro h
    have hvalues : (extractAll (reset (addAll [(3#64, 2)])) [2]).1 = [3#64] := h.1.1
    exact absurd hvalues (by decide)

end NetSim
