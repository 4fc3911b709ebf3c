import NetSim.Diffusion.Attrs
import Mathlib.Algebra.BigOperators.Group.List.Basic
import Mathlib.Tactic.NormNum

/-! # Diffusion attributes: the round trip

`PackAttrs` lays the records of a vector one behind the other (`Encoded`), and `UnpackAttrs` reads each of
them back. The lengths are added up in an `int`, so `AllocateBuffer` returns a buffer that is large enough
exactly when the vector and the header take less than `2^31` bytes (`attrs_round_trip`).
-/

namespace NetSim.Diffusion

open List ByteMemory

variable {m m' : Memory} {a : NRAttribute} {attrVec : List NRAttribute} {pos current totalLen : ℤ}

/-! ## Attributes -/

/-- The attributes that the constructors make, with lengths that fit into an `int16_t`. -/
inductive Valid : NRAttribute → Prop
  | int32 (key : BitVec 32) (op : BitVec 8) (val : BitVec 32) : Valid (.int32 key op val)
  | float32 (key : BitVec 32) (op : BitVec 8) (val : BitVec 32) : Valid (.float32 key op val)
  | float64 (key : BitVec 32) (op : BitVec 8) (val : BitVec 64) : Valid (.float64 key op val)
  | string (key : BitVec 32) (op : BitVec 8) (val : List Byte) (hzero : ∀ b ∈ val, b ≠ 0)
      (hlen : val.length + 1 < 2 ^ 15) : Valid (.string key op val)
  | blob (key : BitVec 32) (op : BitVec 8) (val : List Byte) (hlen : val.length < 2 ^ 15) :
      Valid (.blob key op val)

theorem toInt_ofNat_len {n : ℕ} (h : n < 2 ^ 15) : (BitVec.ofNat 16 n).toInt = n := by
  have hnat : (BitVec.ofNat 16 n).toNat = n := by
    exact Nat.mod_eq_of_lt (h.trans (by decide))
  rw [BitVec.toInt_eq_toNat_of_lt (by omega), hnat]

theorem Valid.getLen (h : Valid a) : a.getLen = a.val.length ∧ a.val.length < 2 ^ 15 := by
  cases h with
  | int32 key op val =>
    simp only [NRAttribute.int32, NRAttribute.simple, length_wordBytes]
    exact ⟨toInt_ofNat_len (by decide), by decide⟩
  | float32 key op val =>
    simp only [NRAttribute.float32, NRAttribute.simple, length_wordBytes]
    exact ⟨toInt_ofNat_len (by decide), by decide⟩
  | float64 key op val =>
    simp only [NRAttribute.float64, NRAttribute.simple, length_wordBytes]
    exact ⟨toInt_ofNat_len (by decide), by decide⟩
  | string key op val hzero hlen =>
    simp only [NRAttribute.string, length_append]
    exact ⟨toInt_ofNat_len hlen, hlen⟩
  | blob key op val hlen => exact ⟨toInt_ofNat_len hlen, hlen⟩

theorem Valid.int32_length (h : Valid a) (htype : a.type = int32Type) : a.val.length = 4 := by
  cases h with
  | int32 key op val => exact length_wordBytes 4 val
  | float32 key op val => cases htype
  | float64 key op val => cases htype
  | string key op val hzero hlen => cases htype
  | blob key op val hlen => cases htype

theorem bytes_length : a.bytes a.val.length = some a.val := by
  unfold NRAttribute.bytes
  rw [if_pos le_rfl, take_length]

/-! ## Records -/

/-- What `PackAttrs` writes behind the header of a record. -/
def payload (a : NRAttribute) : List Byte :=
  if a.type = int32Type then wordBytes 4 (htonl (word 4 a.val)) else a.val

/-- The record of an attribute, without the padding. -/
def wire (a : NRAttribute) : List Byte :=
  wordBytes 4 (htonl a.key) ++ [a.type] ++ [a.op] ++ wordBytes 2 (htons a.len) ++ payload a

theorem Valid.length_payload (h : Valid a) : (payload a).length = a.val.length := by
  unfold payload
  split
  · rename_i htype
    rw [length_wordBytes, h.int32_length htype]
  · rfl

theorem Valid.length_wire (h : Valid a) : (wire a).length = 8 + a.val.length := by
  unfold wire
  simp only [length_append, length_wordBytes, length_singleton, h.length_payload]

theorem pad_bounds (n : ℕ) : 0 ≤ pad n ∧ pad n ≤ 3 := by
  unfold pad
  split <;> omega

theorem Valid.packedSize (h : Valid a) :
    8 + a.val.length ≤ packedSize a.getLen ∧ packedSize a.getLen ≤ 8 + a.val.length + 3 := by
  have hpad := pad_bounds a.val.length
  unfold Diffusion.packedSize
  rw [h.getLen.1]
  omega

theorem ofInt_getLen (a : NRAttribute) : BitVec.ofInt 16 a.getLen = a.len := BitVec.ofInt_toInt

theorem packValue_spec {l : List Byte} (h : Valid a) (hhas : Memory.Has m pos l)
    (hlen : l.length = 8) (hsize : pos + (8 + a.val.length : ℕ) ≤ m.size) :
    ∃ m', packValue m pos a = some m' ∧ Memory.Has m' pos (l ++ payload a) ∧
      m.Frame m' pos (pos + (8 + a.val.length : ℕ)) := by
  have hstore := hhas.store (r := payload a) (by rw [hlen, h.length_payload]; exact hsize)
  rw [hlen, h.length_payload] at hstore
  unfold packValue
  rw [h.getLen.1]
  by_cases hzero : 0 < (a.val.length : ℤ)
  · rw [if_pos hzero]
    by_cases htype : a.type = int32Type
    · have hpayload : payload a = wordBytes 4 (htonl (word 4 a.val)) := if_pos htype
      have hbytes : a.bytes 4 = some a.val := by
        rw [← h.int32_length htype]
        exact bytes_length
      rw [if_pos htype, hbytes, Option.bind_some, ← hpayload]
      exact hstore
    · have hpayload : payload a = a.val := if_neg htype
      rw [if_neg htype, Int.toNat_natCast, bytes_length, Option.bind_some, hpayload]
      rw [hpayload] at hstore
      exact hstore
  · -- no byte is written
    have hnil : payload a = [] := by
      apply eq_nil_of_length_eq_zero
      rw [h.length_payload]
      omega
    rw [if_neg hzero, hnil, append_nil]
    exact ⟨m, rfl, hhas, Memory.Frame.refl m _ _⟩

/-- An attribute is written at its place, and nothing else is. -/
theorem packAttr_spec (h : Valid a) (hpos : 0 ≤ pos)
    (hsize : pos + (8 + a.val.length : ℕ) ≤ m.size) :
    ∃ m', packAttr m pos a = some m' ∧ Memory.Has m' pos (wire a) ∧
      m.Frame m' pos (pos + (8 + a.val.length : ℕ)) := by
  have hstart : Memory.Has m pos [] := Memory.has_nil hpos (by omega)
  obtain ⟨m₁, hkey, hhas₁, hframe₁⟩ :=
    hstart.store (r := wordBytes 4 (htonl a.key)) (by simp; omega)
  have hs₁ := hframe₁.size
  obtain ⟨m₂, htype, hhas₂, hframe₂⟩ := hhas₁.store (r := [a.type]) (by simp; omega)
  have hs₂ := hframe₂.size
  obtain ⟨m₃, hop, hhas₃, hframe₃⟩ := hhas₂.store (r := [a.op]) (by simp; omega)
  have hs₃ := hframe₃.size
  obtain ⟨m₄, hlen, hhas₄, hframe₄⟩ :=
    hhas₃.store (r := wordBytes 2 (htons a.len)) (by simp; omega)
  have hs₄ := hframe₄.size
  obtain ⟨m₅, hval, hhas₅, hframe₅⟩ := packValue_spec h hhas₄ (by simp) (by omega)
  simp only [length_nil, length_append, length_wordBytes,
    length_singleton, Nat.cast_zero, add_zero]
    at hkey htype hop hlen hframe₁ hframe₂ hframe₃ hframe₄
  refine ⟨m₅, ?_, hhas₅, ?_⟩
  · unfold packAttr
    rw [hkey, Option.bind_some]
    norm_num at htype hop hlen
    rw [htype, Option.bind_some, hop, Option.bind_some, ofInt_getLen, hlen, Option.bind_some, hval]
  · refine Memory.Frame.trans (Memory.Frame.trans (Memory.Frame.trans (Memory.Frame.trans
      (hframe₁.mono le_rfl ?_) (hframe₂.mono le_rfl ?_)) (hframe₃.mono le_rfl ?_))
      (hframe₄.mono le_rfl ?_)) hframe₅
    all_goals omega

theorem word_singleton (b : Byte) : word 1 [b] = b := by
  have hbyte : wordBytes 1 b = [b] := by
    unfold wordBytes toBytes
    rw [toBytes, BitVec.ofNat_toNat, BitVec.setWidth_eq]
  rw [← hbyte, word_wordBytes]

theorem unpackAttr_header {key : BitVec 32} {type op : BitVec 8} {len : BitVec 16}
    (hkey : m.load pos 4 = some (wordBytes 4 (htonl key)))
    (htype : m.load (pos + 4) 1 = some [type]) (hop : m.load (pos + 5) 1 = some [op])
    (hlen : m.load (pos + 6) 2 = some (wordBytes 2 (htons len))) :
    unpackAttr m pos =
      if type = int32Type then
        (m.load (pos + 8) 4).map (fun val => some (.int32 key op (htonl (word 4 val))))
      else if type = float32Type then
        (m.load (pos + 8) 4).map (fun val => some (.float32 key op (word 4 val)))
      else if type = float64Type then
        (m.load (pos + 8) 8).map (fun val => some (.float64 key op (word 8 val)))
      else if type = stringType then
        (m.cstring (m.size + 1) (pos + 8)).map (fun val => some (.string key op val))
      else if type = blobType then
        if len.toInt < 0 then none
        else (m.load (pos + 8) len.toNat).map (fun val => some (.blob key op val))
      else some none := by
  have hkey' : htonl (word 4 (wordBytes 4 (htonl key))) = key := by
    rw [word_wordBytes]
    exact swap_swap 4 key
  have hlen' : htons (word 2 (wordBytes 2 (htons len))) = len := by
    rw [word_wordBytes]
    exact swap_swap 2 len
  unfold unpackAttr
  rw [hkey, Option.bind_some, htype, Option.bind_some, hop, Option.bind_some, hlen,
    Option.bind_some]
  rw [hkey', hlen', word_singleton, word_singleton]

theorem unpackAttr_spec (h : Valid a) (hhas : Memory.Has m pos (wire a)) :
    unpackAttr m pos = some (some a) ∧ m.load (pos + 6) 2 = some (wordBytes 2 (htons a.len)) := by
  obtain ⟨hheader, hpayload⟩ := hhas.append
  obtain ⟨hheader, hlen⟩ := hheader.append
  obtain ⟨hheader, hop⟩ := hheader.append
  obtain ⟨hkey, htype⟩ := hheader.append
  have hkey := hkey.load
  have htype := htype.load
  have hop := hop.load
  have hlen := hlen.load
  norm_num at hkey htype hop hlen hpayload
  refine ⟨?_, hlen⟩
  rw [unpackAttr_header hkey htype hop hlen]
  cases h with
  | int32 key op val =>
    have hload : m.load (pos + 8) 4 = some (wordBytes 4 (htonl val)) := by
      have hval : payload (.int32 key op val) = wordBytes 4 (htonl val) := by
        exact congrArg (fun w => wordBytes 4 (htonl w)) (word_wordBytes 4 val)
      rw [hval] at hpayload
      have hload := hpayload.load
      rwa [length_wordBytes] at hload
    have hswap : htonl (word 4 (wordBytes 4 (htonl val))) = val := by
      rw [word_wordBytes]
      exact swap_swap 4 val
    rw [if_pos (by rfl), hload, Option.map_some, hswap]
    rfl
  | float32 key op val =>
    have hload := hpayload.load
    have hval : payload (.float32 key op val) = wordBytes 4 val := if_neg (by nofun)
    rw [hval, length_wordBytes] at hload
    rw [if_neg (by nofun), if_pos (by rfl), hload, Option.map_some, word_wordBytes]
    rfl
  | float64 key op val =>
    have hload := hpayload.load
    have hval : payload (.float64 key op val) = wordBytes 8 val := if_neg (by nofun)
    rw [hval, length_wordBytes] at hload
    rw [if_neg (by nofun), if_neg (by nofun), if_pos (by rfl), hload, Option.map_some,
      word_wordBytes]
    rfl
  | string key op val hzero hlength =>
    have hval : payload (.string key op val) = val ++ [0] := if_neg (by nofun)
    rw [hval] at hpayload
    have hfuel : val.length < m.size + 1 := by
      have hstop := hpayload.stop
      have hstart := hhas.start
      rw [length_append] at hstop
      omega
    rw [if_neg (by nofun), if_neg (by nofun), if_neg (by nofun), if_pos (by rfl),
      hpayload.cstring hzero hfuel]
    rfl
  | blob key op val hlength =>
    have hload := hpayload.load
    have hval : payload (.blob key op val) = val := if_neg (by nofun)
    have hint := (Valid.blob key op val hlength).getLen.1
    have hnat : (NRAttribute.blob key op val).len.toNat = val.length := by
      have hle : val.length < 2 ^ 16 := hlength.trans (by norm_num)
      exact (BitVec.toNat_ofNat _ _).trans (Nat.mod_eq_of_lt hle)
    unfold NRAttribute.getLen at hint
    rw [hval] at hload
    rw [if_neg (by nofun), if_neg (by nofun), if_neg (by nofun), if_neg (by nofun),
      if_pos (by rfl), hint, if_neg (by omega), hnat, hload]
    rfl

/-! ## Vectors -/

/-- The records lie one behind the other. -/
def Encoded (m : Memory) : ℤ → List NRAttribute → Prop
  | _, [] => True
  | pos, a :: attrVec => Memory.Has m pos (wire a) ∧ Encoded m (pos + packedSize a.getLen) attrVec

def total (attrVec : List NRAttribute) : ℤ := (attrVec.map (fun a => packedSize a.getLen)).sum

@[simp] theorem total_nil : total [] = 0 := rfl

@[simp] theorem total_cons : total (a :: attrVec) = packedSize a.getLen + total attrVec :=
  sum_cons

theorem total_nonneg (h : ∀ a ∈ attrVec, Valid a) : 0 ≤ total attrVec := by
  induction attrVec with
  | nil => exact le_rfl
  | cons a attrVec ih =>
    have hrest := ih (fun b hb => h b (mem_cons_of_mem _ hb))
    have hfirst := (h a mem_cons_self).packedSize.1
    rw [total_cons]
    omega

theorem foldl_total (attrVec : List NRAttribute) (t : ℤ) :
    attrVec.foldl (fun totalLen a => toInt (totalLen + packedSize a.getLen)) (toInt t) =
      toInt (t + total attrVec) := by
  induction attrVec generalizing t with
  | nil => rw [foldl_nil, total_nil, add_zero]
  | cons a attrVec ih =>
    have hstep : toInt (toInt t + packedSize a.getLen) = toInt (t + packedSize a.getLen) :=
      Int.bmod_add_bmod
    rw [foldl_cons, hstep, ih, total_cons, add_assoc]

theorem calculateSize_eq (attrVec : List NRAttribute) :
    calculateSize attrVec = toInt (total attrVec) := by
  have hfold := foldl_total attrVec 0
  rwa [zero_add] at hfold

/-- **`PackAttrs` writes the records of a vector** into a buffer that is large enough, and returns what
`CalculateSize` computes. -/
theorem packAttrs_spec (h : ∀ a ∈ attrVec, Valid a) (hpos : 0 ≤ pos)
    (hsize : pos + total attrVec ≤ m.size) (totalLen : ℤ) :
    ∃ m', packAttrs attrVec m pos totalLen =
        some (m', attrVec.foldl (fun totalLen a => toInt (totalLen + packedSize a.getLen)) totalLen) ∧
      Encoded m' pos attrVec ∧ m.Frame m' pos (pos + total attrVec) := by
  induction attrVec generalizing m pos totalLen with
  | nil => exact ⟨m, rfl, trivial, Memory.Frame.refl m _ _⟩
  | cons a attrVec ih =>
    have ha := h a mem_cons_self
    have hrest : ∀ b ∈ attrVec, Valid b := fun b hb => h b (mem_cons_of_mem _ hb)
    have hpacked := ha.packedSize.1
    have hnonneg := total_nonneg hrest
    rw [total_cons] at hsize ⊢
    obtain ⟨m₁, hpack, hhas, hframe⟩ := packAttr_spec (m := m) ha hpos (by omega)
    have hsize₁ : m₁.size = m.size := hframe.size
    obtain ⟨m', hpacks, hencoded, hframe'⟩ :=
      @ih m₁ (pos + packedSize a.getLen) hrest (by omega) (by omega)
        (toInt (totalLen + packedSize a.getLen))
    refine ⟨m', ?_, ⟨hhas.frame hframe' (Or.inl ?_), hencoded⟩, ?_⟩
    · rw [packAttrs, hpack, Option.bind_some, hpacks]
      rfl
    · rw [ha.length_wire]
      omega
    · exact (hframe.mono le_rfl (by omega)).trans (hframe'.mono (by omega) (by omega))

/-- By induction on the attributes. -/
theorem unpackAttrs_spec (h : ∀ a ∈ attrVec, Valid a) (hencoded : Encoded m pos attrVec) :
    unpackAttrs m attrVec.length pos = some attrVec := by
  induction attrVec generalizing pos with
  | nil => rfl
  | cons a attrVec ih =>
    have ha := h a mem_cons_self
    obtain ⟨hunpack, hlen⟩ := unpackAttr_spec ha hencoded.1
    have hswap : htons (word 2 (wordBytes 2 (htons a.len))) = a.len := by
      rw [word_wordBytes]
      exact swap_swap 2 a.len
    -- the length is not negative, so it does not matter that it is read as unsigned
    have hnat : (a.len.toNat : ℤ) = a.getLen := by
      have hlen := ha.getLen
      unfold NRAttribute.getLen at hlen ⊢
      rw [BitVec.toInt_eq_toNat_cond] at hlen ⊢
      split
      · rfl
      · omega
    have hrest := ih (fun b hb => h b (mem_cons_of_mem _ hb)) hencoded.2
    rw [length_cons, unpackAttrs, hunpack, Option.bind_some, hlen, Option.bind_some, hswap,
      hnat, hrest]
    rfl

theorem packAttr_bounds (h : Valid a) (hpack : packAttr m pos a = some m') :
    pos + (8 + a.val.length : ℕ) ≤ m.size ∧ m'.size = m.size := by
  obtain ⟨m₁, hkey, hpack⟩ := Option.bind_eq_some_iff.mp hpack
  obtain ⟨m₂, htype, hpack⟩ := Option.bind_eq_some_iff.mp hpack
  obtain ⟨m₃, hop, hpack⟩ := Option.bind_eq_some_iff.mp hpack
  obtain ⟨m₄, hlen, hval⟩ := Option.bind_eq_some_iff.mp hpack
  have hsize₁ := (Memory.store_bounds hkey).2.2
  have hsize₂ := (Memory.store_bounds htype).2.2
  have hsize₃ := (Memory.store_bounds hop).2.2
  obtain ⟨-, hstop, hsize₄⟩ := Memory.store_bounds hlen
  rw [length_wordBytes] at hstop
  unfold packValue at hval
  rw [h.getLen.1] at hval
  split at hval
  · split at hval
    · rename_i htype
      obtain ⟨val, -, hstore⟩ := Option.bind_eq_some_iff.mp hval
      obtain ⟨-, hstop', hsize₅⟩ := Memory.store_bounds hstore
      rw [length_wordBytes] at hstop'
      have hlength := h.int32_length htype
      omega
    · rw [Int.toNat_natCast, bytes_length, Option.bind_some] at hval
      obtain ⟨-, hstop', hsize₅⟩ := Memory.store_bounds hval
      omega
  · cases hval
    omega

theorem packAttrs_bounds {result : Memory × ℤ} (h : ∀ a ∈ attrVec, Valid a)
    (hne : attrVec ≠ []) (hpack : packAttrs attrVec m pos totalLen = some result) :
    pos + total attrVec ≤ m.size + 3 := by
  induction attrVec generalizing m pos totalLen with
  | nil => exact absurd rfl hne
  | cons a attrVec ih =>
    obtain ⟨m₁, hfirst, hrest⟩ := Option.bind_eq_some_iff.mp hpack
    have ha := h a mem_cons_self
    obtain ⟨hbound, hsize⟩ := packAttr_bounds ha hfirst
    have hpacked := ha.packedSize.2
    rw [total_cons]
    by_cases hnil : attrVec = []
    · subst hnil
      rw [total_nil]
      omega
    · have hle := ih (fun b hb => h b (mem_cons_of_mem _ hb)) hnil hrest
      omega

theorem copyAttrs_spec (h : ∀ a ∈ attrVec, Valid a) : copyAttrs attrVec = some attrVec := by
  induction attrVec with
  | nil => rfl
  | cons a attrVec ih =>
    have ha := h a mem_cons_self
    have hrest := ih (fun b hb => h b (mem_cons_of_mem _ hb))
    have hbytes := bytes_length (a := a)
    rw [copyAttrs, hrest, Option.bind_some]
    cases ha with
    | int32 key op val =>
      exact congrArg (fun w => some (NRAttribute.int32 key op w :: attrVec))
        (word_wordBytes 4 val)
    | float32 key op val =>
      exact congrArg (fun w => some (NRAttribute.float32 key op w :: attrVec))
        (word_wordBytes 4 val)
    | float64 key op val =>
      exact congrArg (fun w => some (NRAttribute.float64 key op w :: attrVec))
        (word_wordBytes 8 val)
    | string key op val hzero hlength =>
      have hend : (NRAttribute.string key op val).val.takeWhile (· ≠ 0) = val := by
        unfold NRAttribute.string
        rw [takeWhile_append_of_pos (by simpa using hzero)]
        simp
      rw [if_neg (by nofun), if_neg (by nofun), if_neg (by nofun), if_pos (by rfl),
        if_pos (by simp [NRAttribute.string]), hend]
      rfl
    | blob key op val hlength =>
      have hint := (Valid.blob key op val hlength).getLen.1
      rw [if_neg (by nofun), if_neg (by nofun), if_neg (by nofun), if_neg (by nofun),
        if_pos (by rfl), hint, if_neg (by omega), Int.toNat_natCast, hbytes, Option.map_some]
      rfl

/-! ## The round trip -/

/-- The vector goes through the wire format: whatever the new buffer holds, `PackAttrs` writes the bytes
that `CalculateSize` counts and no others, all inside the buffer, and `UnpackAttrs` returns the vector.
`CopyAttrs` returns it as well. -/
def RoundTrip (attrVec : List NRAttribute) : Prop :=
  copyAttrs attrVec = some attrVec ∧
    ∃ size, allocateBuffer attrVec = some size ∧
      ∀ byte, ∃ m', packAttrs attrVec ⟨size, byte⟩ hdrDiff 0 = some (m', calculateSize attrVec) ∧
        Memory.Frame ⟨size, byte⟩ m' hdrDiff (hdrDiff + calculateSize attrVec) ∧
        hdrDiff + calculateSize attrVec ≤ size ∧
        unpackAttrs m' attrVec.length hdrDiff = some attrVec

theorem toInt_eq {x : ℤ} (hnonneg : 0 ≤ x) (hlt : x < 2 ^ 31) : toInt x = x := by
  unfold toInt
  rw [Int.bmod_eq_of_le (by omega) (by omega)]

/-- **Attributes survive the wire format** exactly when they take, with the header, less than `2^31`
bytes. -/
theorem attrs_round_trip (attrVec : List NRAttribute) (h : ∀ a ∈ attrVec, Valid a) :
    RoundTrip attrVec ↔ hdrDiff + total attrVec < 2 ^ 31 := by
  have hnonneg := total_nonneg h
  have hlen : toInt (calculateSize attrVec + hdrDiff) = toInt (total attrVec + hdrDiff) := by
    rw [calculateSize_eq]
    exact Int.bmod_add_bmod
  have hhdr : (hdrDiff : ℤ) = 24 := rfl
  constructor
  · rintro ⟨-, size, halloc, hpack⟩
    by_contra hge
    obtain ⟨m', hpack, -⟩ := hpack (fun _ => 0)
    have hne : attrVec ≠ [] := by
      rintro rfl
      rw [total_nil] at hge
      omega
    have hbound := packAttrs_bounds h hne hpack
    -- the length has wrapped around at least once
    have hwrap : toInt (total attrVec + hdrDiff) ≤ total attrVec + hdrDiff - 2 ^ 32 := by
      have hbdiv := Int.bmod_add_bdiv (total attrVec + hdrDiff) (2 ^ 32)
      have hlt := Int.bmod_lt (x := total attrVec + hdrDiff) (m := 2 ^ 32) (by norm_num)
      unfold toInt
      omega
    unfold allocateBuffer at halloc
    dsimp only at halloc
    split at halloc
    · cases halloc
    · have hsize := Option.some.inj halloc
      dsimp only at hbound
      omega
  · intro hlt
    have hcalc : calculateSize attrVec = total attrVec := by
      rw [calculateSize_eq]
      exact toInt_eq hnonneg (by omega)
    have halloc : allocateBuffer attrVec =
        some (4 * (1 + (total attrVec + hdrDiff) / 4)).toNat := by
      unfold allocateBuffer
      rw [hlen, toInt_eq (by omega) (by omega)]
      exact if_neg (by omega)
    refine ⟨copyAttrs_spec h, _, halloc, ?_⟩
    intro byte
    obtain ⟨m', hpack, hencoded, hframe⟩ := @packAttrs_spec (⟨(4 * (1 + (total attrVec + hdrDiff) / 4)).toNat, byte⟩) _ hdrDiff h (by omega) (by dsimp only; omega) 0
    rw [hcalc]
    refine ⟨m', ?_, hframe, by omega, unpackAttrs_spec h hencoded⟩
    rw [hpack, ← hcalc]
    rfl

/-- A short vector with attributes of all types. -/
theorem attrs_round_trip_short :
    RoundTrip [.int32 1002 0 10010, .float32 1501 5 0x3f800000, .float64 3000 1 0x4000000000000000,
      .string 2003 0 [104, 105], .blob 2001 7 [], .blob 2001 7 [1, 0, 2]] := by
  refine (attrs_round_trip _ ?_).mpr (by decide)
  intro a ha
  simp only [mem_cons, not_mem_nil, or_false] at ha
  rcases ha with rfl | rfl | rfl | rfl | rfl | rfl
  · exact .int32 _ _ _
  · exact .float32 _ _ _
  · exact .float64 _ _ _
  · exact .string _ _ _ (by decide) (by decide)
  · exact .blob _ _ _ (by decide)
  · exact .blob _ _ _ (by decide)

/-- The largest blobs, 65536 of them. -/
def blobs : List NRAttribute := List.replicate 65536 (.blob 2001 0 (List.replicate 32767 0))

theorem total_blobs : total blobs = 2148007936 := by
  have hvalid : Valid (.blob 2001 0 (List.replicate 32767 0)) :=
    .blob _ _ _ (by rw [length_replicate]; decide)
  have hlen := hvalid.getLen.1
  have hval : (NRAttribute.blob 2001 0 (List.replicate 32767 0)).val.length = 32767 :=
    length_replicate
  rw [hval] at hlen
  unfold total blobs
  rw [map_replicate, sum_replicate, hlen]
  decide

/-- The length of a packet with these blobs is negative as an `int`, so no buffer can be allocated. -/
theorem blobs_not_round_trip : (∀ a ∈ blobs, Valid a) ∧ ¬ RoundTrip blobs := by
  constructor
  · intro a ha
    rw [eq_of_mem_replicate ha]
    exact .blob _ _ _ (by rw [length_replicate]; decide)
  · rintro ⟨-, size, halloc, -⟩
    have hnone : allocateBuffer blobs = none := by
      unfold allocateBuffer
      rw [calculateSize_eq, total_blobs]
      decide
    rw [hnone] at halloc
    cases halloc

end NetSim.Diffusion
