import Mathlib

/-! # DCCP options

`DCCPOptions` of `dccp/dccp_opt.cc`: the options of a packet in a buffer of bytes. A single byte
option is its type; any other option is its type, its length and its data. The array is private, so
a buffer holds what `addOption` and `addFeatureOption` wrote: the encodings of a list of options
(`Reachable.wellFormed`). The option walk returns that list (`walk_spec`), and `getOption` the first
option of a type (`getOption_spec`).
-/

namespace NetSim

open List

structure DccpOptions where
  options : List ℕ
  maxSize : ℕ
  current : ℤ

namespace DccpOptions

def optSingleByteLimit : ℕ := 32

def optMaxLength : ℕ := 255

def optNoErr : ℤ := 0

def optErrSize : ℤ := -1

def optErrFull : ℤ := -2

def optErrNotFound : ℤ := -3

def optErrType : ℤ := -4

def optErrWalk : ℤ := -5

def optChangeL : ℕ := 33

def optConfirmR : ℕ := 36

def init (size : ℕ) : DccpOptions := { options := [], maxSize := size, current := optErrWalk }

/-- `addOption`. The parameter `dataSize` is an `u_int8_t`. -/
def addOption (o : DccpOptions) (type : ℕ) (data : List ℕ) (dataSize : ℕ) : DccpOptions × ℤ :=
  let dataSize := dataSize % 2 ^ 8
  let length := if dataSize = 0 then 1 else dataSize + 2
  if (type < optSingleByteLimit ∧ 0 < dataSize) ∨ (optSingleByteLimit ≤ type ∧ dataSize = 0) ∨
      optMaxLength < length then (o, optErrSize)
  else if o.maxSize < o.options.length + length then (o, optErrFull)
  else if 0 < dataSize then
    ({ o with options := o.options ++ type :: length :: data.take dataSize }, optNoErr)
  else ({ o with options := o.options ++ [type] }, optNoErr)

def addFeatureOption (o : DccpOptions) (type featNum : ℕ) (data : List ℕ) (dataSize : ℕ) :
    DccpOptions × ℤ :=
  let dataSize := dataSize % 2 ^ 8
  let length := dataSize + 3
  if dataSize = 0 ∨ optMaxLength < length then (o, optErrSize)
  else if type < optChangeL ∨ optConfirmR < type then (o, optErrType)
  else if o.maxSize < o.options.length + length then (o, optErrFull)
  else
    ({ o with options := o.options ++ type :: length :: featNum :: data.take dataSize }, optNoErr)

/-- The loop of `getOption`: the result, and the bytes that are copied. -/
def getLoop (options : List ℕ) (type maxSize : ℕ) : ℕ → ℕ → ℤ × List ℕ
  | 0, _ => (optErrNotFound, [])
  | fuel + 1, walker =>
    if walker < options.length then
      let t := options.getD walker 0
      if t < optSingleByteLimit then
        if t = type then (optNoErr, []) else getLoop options type maxSize fuel (walker + 1)
      else
        let dataSize : ℤ := options.getD (walker + 1) 0 - 2
        if t = type then
          if dataSize ≤ maxSize then
            (dataSize, (options.drop (walker + 2)).take dataSize.toNat)
          else (optErrSize, [])
        else getLoop options type maxSize fuel (walker + 2 + dataSize).toNat
    else (optErrNotFound, [])

/-- `getOption`. The parameter `maxSize` is an `u_int8_t`. -/
def getOption (o : DccpOptions) (type maxSize : ℕ) : ℤ × List ℕ :=
  getLoop o.options type (maxSize % 2 ^ 8) (o.options.length + 1) 0

def startOptionWalk (o : DccpOptions) : DccpOptions := { o with current := 0 }

/-- `nextOption`: the result, the type and the bytes that are copied. -/
def nextOption (o : DccpOptions) (maxSize : ℕ) : DccpOptions × ℤ × ℕ × List ℕ :=
  if o.current = optErrWalk then (o, optErrWalk, 0, [])
  else if o.options.length ≤ o.current then (o, optErrNotFound, 0, [])
  else
    let t := o.options.getD o.current.toNat 0
    if t < optSingleByteLimit then ({ o with current := o.current + 1 }, optNoErr, t, [])
    else
      let dataSize : ℤ := o.options.getD (o.current.toNat + 1) 0 - 2
      if dataSize ≤ maxSize % 2 ^ 8 then
        ({ o with current := o.current + 2 + dataSize }, dataSize, t,
          (o.options.drop (o.current.toNat + 2)).take dataSize.toNat)
      else (o, optErrSize, 0, [])

/-- The loop of `DCCPAgent::parseOptions`: the options until the walk fails. -/
def walkLoop (maxSize : ℕ) : ℕ → DccpOptions → List (ℕ × List ℕ)
  | 0, _ => []
  | fuel + 1, o =>
    let r := o.nextOption maxSize
    if 0 ≤ r.2.1 then (r.2.2.1, r.2.2.2) :: walkLoop maxSize fuel r.1 else []

def walk (o : DccpOptions) (maxSize : ℕ) : List (ℕ × List ℕ) :=
  walkLoop maxSize (o.options.length + 1) o.startOptionWalk

/-! ## Well-formed buffers -/

/-- An option: one byte, or a type with 1 to 253 bytes of data. -/
structure Opt where
  type : ℕ
  data : List ℕ
  ok : (type < optSingleByteLimit ∧ data = []) ∨
    (optSingleByteLimit ≤ type ∧ 1 ≤ data.length ∧ data.length + 2 ≤ optMaxLength)

def Opt.encode (x : Opt) : List ℕ :=
  if x.type < optSingleByteLimit then [x.type] else x.type :: (x.data.length + 2) :: x.data

structure WellFormed (o : DccpOptions) (opts : List Opt) : Prop where
  options : o.options = opts.flatMap Opt.encode
  fits : o.options.length ≤ o.maxSize

/-- The buffers that the public functions build. -/
inductive Reachable : DccpOptions → Prop where
  | init (size : ℕ) : Reachable (init size)
  | addOption {o : DccpOptions} (type : ℕ) (data : List ℕ) (dataSize : ℕ) :
      dataSize % 2 ^ 8 ≤ data.length → Reachable o → Reachable (o.addOption type data dataSize).1
  | addFeatureOption {o : DccpOptions} (type featNum : ℕ) (data : List ℕ) (dataSize : ℕ) :
      dataSize % 2 ^ 8 ≤ data.length → Reachable o →
      Reachable (o.addFeatureOption type featNum data dataSize).1
  | startOptionWalk {o : DccpOptions} : Reachable o → Reachable o.startOptionWalk
  | nextOption {o : DccpOptions} (maxSize : ℕ) : Reachable o → Reachable (o.nextOption maxSize).1

variable {o : DccpOptions} {opts l r : List Opt} {x : Opt} {type featNum maxSize dataSize : ℕ}
  {data : List ℕ}

theorem Opt.encode_multi (h : optSingleByteLimit ≤ x.type) :
    x.encode = x.type :: (x.data.length + 2) :: x.data := by
  rw [encode, if_neg (by omega)]

theorem WellFormed.concat (h : WellFormed o opts) (x : Opt)
    (hroom : o.options.length + x.encode.length ≤ o.maxSize) :
    WellFormed { o with options := o.options ++ x.encode } (opts ++ [x]) := by
  refine ⟨?_, by rw [length_append]; exact hroom⟩
  rw [flatMap_append, ← h.options, flatMap_singleton]

theorem Opt.exists_single (htype : type < optSingleByteLimit) :
    ∃ x : Opt, x.type = type ∧ x.data = [] ∧ x.encode = [type] :=
  ⟨⟨type, [], Or.inl ⟨htype, rfl⟩⟩, rfl, rfl, if_pos htype⟩

theorem Opt.exists_multi {length : ℕ} (htype : optSingleByteLimit ≤ type) (hpos : 1 ≤ data.length)
    (hlength : data.length + 2 = length) (hmax : length ≤ optMaxLength) :
    ∃ x : Opt, x.type = type ∧ x.data = data ∧ x.encode = type :: length :: data := by
  subst hlength
  exact ⟨⟨type, data, Or.inr ⟨htype, hpos, hmax⟩⟩, rfl, rfl, Opt.encode_multi htype⟩

/-- **`addOption`** appends an option with the first `dataSize` bytes, that size taken modulo 256,
or leaves the buffer as it is. -/
theorem addOption_spec (h : WellFormed o opts) (hdata : dataSize % 2 ^ 8 ≤ data.length) :
    ((o.addOption type data dataSize).2 ≠ optNoErr ∧ (o.addOption type data dataSize).1 = o) ∨
      ((o.addOption type data dataSize).2 = optNoErr ∧
        ∃ x : Opt, x.type = type ∧ x.data = data.take (dataSize % 2 ^ 8) ∧
          (o.addOption type data dataSize).1 = { o with options := o.options ++ x.encode } ∧
          WellFormed (o.addOption type data dataSize).1 (opts ++ [x])) := by
  have hlen : (data.take (dataSize % 2 ^ 8)).length = dataSize % 2 ^ 8 := by
    rw [length_take, Nat.min_eq_left hdata]
  rw [addOption]
  generalize hlength : (if dataSize % 2 ^ 8 = 0 then 1 else dataSize % 2 ^ 8 + 2) = length
  have herr : optErrSize ≠ optNoErr ∧ optErrFull ≠ optNoErr := by decide
  split
  · exact Or.inl ⟨herr.1, rfl⟩
  · next hsize =>
      split
      · exact Or.inl ⟨herr.2, rfl⟩
      · next hfull =>
          split
          · next hpos =>
              rw [if_neg (by omega)] at hlength
              obtain ⟨x, hx, hd, henc⟩ := @Opt.exists_multi type (data.take (dataSize % 2 ^ 8)) length
                (by omega) (by omega) (by omega) (by omega)
              have hwf := h.concat x
                (by rw [henc, length_cons, length_cons, hlen]; omega)
              rw [henc] at hwf
              exact Or.inr ⟨rfl, x, hx, hd, by rw [henc], hwf⟩
          · next hpos =>
              have hds : dataSize % 2 ^ 8 = 0 := by omega
              rw [if_pos hds] at hlength
              obtain ⟨x, hx, hd, henc⟩ := @Opt.exists_single type (by omega)
              have hwf := h.concat x (by rw [henc, length_singleton]; omega)
              rw [henc] at hwf
              exact Or.inr ⟨rfl, x, hx, by rw [hd, hds, take_zero], by rw [henc], hwf⟩

theorem addOption_noErr (htype : optSingleByteLimit ≤ type) :
    (o.addOption type data dataSize).2 = optNoErr ↔
      0 < dataSize % 2 ^ 8 ∧ dataSize % 2 ^ 8 + 2 ≤ optMaxLength ∧
        o.options.length + (dataSize % 2 ^ 8 + 2) ≤ o.maxSize := by
  have herr : optErrSize ≠ optNoErr ∧ optErrFull ≠ optNoErr := by decide
  rw [addOption]
  generalize hlength : (if dataSize % 2 ^ 8 = 0 then 1 else dataSize % 2 ^ 8 + 2) = length
  split
  · next hsize =>
      refine ⟨fun h => absurd h herr.1, fun h => ?_⟩
      rw [if_neg (by omega)] at hlength
      omega
  · next hsize =>
      rw [if_neg (by omega)] at hlength
      split
      · next hfull => exact ⟨fun h => absurd h herr.2, fun h => by omega⟩
      · next hfull =>
          rw [if_pos (by omega)]
          exact ⟨fun _ => by omega, fun _ => rfl⟩

/-- **`addFeatureOption`** appends an option whose data starts with the feature number, or leaves
the buffer as it is. -/
theorem addFeatureOption_spec (h : WellFormed o opts)
    (hdata : dataSize % 2 ^ 8 ≤ data.length) :
    ((o.addFeatureOption type featNum data dataSize).2 ≠ optNoErr ∧
        (o.addFeatureOption type featNum data dataSize).1 = o) ∨
      ((o.addFeatureOption type featNum data dataSize).2 = optNoErr ∧
        ∃ x : Opt, x.type = type ∧ x.data = featNum :: data.take (dataSize % 2 ^ 8) ∧
          WellFormed (o.addFeatureOption type featNum data dataSize).1 (opts ++ [x])) := by
  have hlen : (featNum :: data.take (dataSize % 2 ^ 8)).length = dataSize % 2 ^ 8 + 1 := by
    rw [length_cons, length_take, Nat.min_eq_left hdata]
  have herr : optErrSize ≠ optNoErr ∧ optErrType ≠ optNoErr ∧ optErrFull ≠ optNoErr := by decide
  rw [addFeatureOption]
  split
  · exact Or.inl ⟨herr.1, rfl⟩
  · next hsize =>
      split
      · exact Or.inl ⟨herr.2.1, rfl⟩
      · next htype =>
          split
          · exact Or.inl ⟨herr.2.2, rfl⟩
          · next hfull =>
              have hge : optSingleByteLimit ≤ type := by
                rw [optChangeL] at htype
                rw [optSingleByteLimit]
                omega
              obtain ⟨x, hx, hd, henc⟩ := @Opt.exists_multi type
                (featNum :: data.take (dataSize % 2 ^ 8)) (dataSize % 2 ^ 8 + 3) hge (by omega)
                (by omega) (by omega)
              have hwf := h.concat x (by rw [henc, length_cons, length_cons, hlen]; omega)
              rw [henc] at hwf
              exact Or.inr ⟨rfl, x, hx, hd, hwf⟩

theorem nextOption_options :
    (o.nextOption maxSize).1.options = o.options ∧ (o.nextOption maxSize).1.maxSize = o.maxSize := by
  rw [nextOption]
  dsimp only
  split_ifs <;> exact ⟨rfl, rfl⟩

theorem Reachable.wellFormed (h : Reachable o) : ∃ opts, WellFormed o opts := by
  induction h with
  | init size => exact ⟨[], rfl, Nat.zero_le _⟩
  | addOption type data dataSize hdata _ ih =>
    obtain ⟨opts, hwf⟩ := ih
    rcases @addOption_spec _ opts type dataSize data hwf hdata with
      ⟨-, heq⟩ | ⟨-, x, -, -, -, hwf'⟩
    · rw [heq]
      exact ⟨opts, hwf⟩
    · exact ⟨_, hwf'⟩
  | addFeatureOption type featNum data dataSize hdata _ ih =>
    obtain ⟨opts, hwf⟩ := ih
    rcases @addFeatureOption_spec _ _ type featNum dataSize data hwf hdata with
      ⟨-, heq⟩ | ⟨-, x, -, -, hwf'⟩
    · rw [heq]
      exact ⟨opts, hwf⟩
    · exact ⟨_, hwf'⟩
  | startOptionWalk _ ih => exact ih.imp (fun opts hwf => ⟨hwf.options, hwf.fits⟩)
  | nextOption maxSize _ ih =>
    refine ih.imp (fun opts hwf => ⟨?_, ?_⟩)
    · rw [nextOption_options.1, hwf.options]
    · rw [nextOption_options.1, nextOption_options.2]
      exact hwf.fits

/-! ## Reading -/

section Read

variable {pre post : List ℕ}

theorem getD_type (x : Opt) : (pre ++ x.encode ++ post).getD pre.length 0 = x.type := by
  rw [Opt.encode]
  split <;> simp

theorem getD_length (h : optSingleByteLimit ≤ x.type) :
    (pre ++ x.encode ++ post).getD (pre.length + 1) 0 = x.data.length + 2 := by
  rw [Opt.encode_multi h]
  simp

theorem data_eq (h : optSingleByteLimit ≤ x.type) :
    ((pre ++ x.encode ++ post).drop (pre.length + 2)).take x.data.length = x.data := by
  rw [Opt.encode_multi h, append_assoc, drop_append, drop_of_length_le (by omega)]
  simp

theorem length_encode (x : Opt) :
    x.encode.length = if x.type < optSingleByteLimit then 1 else x.data.length + 2 := by
  rw [Opt.encode]
  split <;> simp

theorem Opt.data_single (h : x.type < optSingleByteLimit) : x.data = [] := by
  rcases x.ok with ⟨-, hd⟩ | ⟨hge, -⟩
  · exact hd
  · omega

theorem Opt.data_le (x : Opt) : x.data.length + 2 ≤ optMaxLength := by
  rcases x.ok with ⟨-, hd⟩ | ⟨-, -, hd⟩
  · rw [hd]
    decide
  · exact hd

theorem getLoop_skip {fuel : ℕ} (h : x.type ≠ type) :
    getLoop (pre ++ x.encode ++ post) type maxSize (fuel + 1) pre.length =
      getLoop (pre ++ x.encode ++ post) type maxSize fuel (pre ++ x.encode).length := by
  have hlen := length_encode x
  rw [getLoop, if_pos (by rw [length_append, length_append, hlen]; split <;> omega),
    getD_type]
  by_cases hsingle : x.type < optSingleByteLimit
  · rw [if_pos hsingle] at hlen
    rw [if_pos hsingle, if_neg h, length_append, hlen]
  · rw [if_neg hsingle] at hlen
    rw [if_neg hsingle, if_neg h, getD_length (by omega), length_append, hlen]
    congr 1
    omega

theorem getLoop_found {fuel : ℕ} (h : optSingleByteLimit ≤ x.type) (hsize : x.data.length ≤ maxSize) :
    getLoop (pre ++ x.encode ++ post) x.type maxSize (fuel + 1) pre.length =
      ((x.data.length : ℤ), x.data) := by
  have hlen := length_encode x
  rw [getLoop, if_pos (by rw [length_append, length_append, hlen]; split <;> omega),
    getD_type, if_neg (by omega), if_pos rfl, getD_length h, if_pos (by omega), show (((x.data.length + 2 : ℕ) : ℤ) - 2).toNat = x.data.length by omega,
    data_eq h]
  congr 1
  omega

end Read

theorem getLoop_spec {fuel : ℕ} {pre : List ℕ} (hne : ∀ y ∈ l, y.type ≠ x.type)
    (h : optSingleByteLimit ≤ x.type) (hsize : x.data.length ≤ maxSize) (hfuel : l.length < fuel) :
    getLoop (pre ++ (l ++ x :: r).flatMap Opt.encode) x.type maxSize fuel pre.length =
      ((x.data.length : ℤ), x.data) := by
  induction l generalizing pre fuel with
  | nil =>
    obtain ⟨fuel, rfl⟩ : ∃ k, fuel = k + 1 := Nat.exists_eq_add_one_of_ne_zero (by omega)
    rw [nil_append, flatMap_cons, ← append_assoc]
    exact getLoop_found h hsize
  | cons y l ih =>
    obtain ⟨fuel, rfl⟩ : ∃ k, fuel = k + 1 := Nat.exists_eq_add_one_of_ne_zero (by omega)
    rw [cons_append, flatMap_cons, ← append_assoc,
      getLoop_skip (hne y (by simp))]
    exact ih (fun y' hy' => hne y' (by simp [hy'])) (by rw [length_cons] at hfuel; omega)

theorem getLoop_notFound {fuel : ℕ} {pre : List ℕ} (htype : optSingleByteLimit ≤ type)
    (h : (getLoop (pre ++ opts.flatMap Opt.encode) type maxSize fuel pre.length).1 = optErrNotFound)
    (hfuel : opts.length < fuel) : ∀ y ∈ opts, y.type ≠ type := by
  induction opts generalizing pre fuel with
  | nil => simp
  | cons x opts ih =>
    obtain ⟨fuel, rfl⟩ : ∃ k, fuel = k + 1 := Nat.exists_eq_add_one_of_ne_zero (by omega)
    rw [flatMap_cons, ← append_assoc] at h
    have hne : x.type ≠ type := by
      rintro rfl
      by_cases hsize : x.data.length ≤ maxSize
      · rw [getLoop_found htype hsize, optErrNotFound] at h
        omega
      · have hlen := length_encode x
        rw [getLoop, if_pos (by rw [length_append, length_append, hlen]; split <;> omega),
          getD_type, if_neg (by omega), if_pos rfl, getD_length htype, if_neg (by omega)] at h
        exact absurd h (by decide)
    rw [getLoop_skip hne] at h
    intro y hy
    rcases mem_cons.mp hy with rfl | hy
    · exact hne
    · exact ih h (by rw [length_cons] at hfuel; omega) y hy

theorem length_le_flatMap (opts : List Opt) : opts.length ≤ (opts.flatMap Opt.encode).length := by
  induction opts with
  | nil => exact Nat.zero_le _
  | cons x opts ih =>
    have hlen := length_encode x
    rw [flatMap_cons, length_cons, length_append]
    split at hlen <;> omega

/-- **`getOption`** returns the data of the first option of the type. -/
theorem getOption_spec (h : WellFormed o (l ++ x :: r)) (hne : ∀ y ∈ l, y.type ≠ x.type)
    (htype : optSingleByteLimit ≤ x.type) (hsize : x.data.length ≤ maxSize % 2 ^ 8) :
    o.getOption x.type maxSize = ((x.data.length : ℤ), x.data) := by
  have hlen := length_le_flatMap (l ++ x :: r)
  rw [length_append] at hlen
  rw [getOption, h.options]
  exact @getLoop_spec l r x (maxSize % 2 ^ 8) _ [] hne htype hsize (by omega)

theorem getOption_notFound (h : WellFormed o opts) (htype : optSingleByteLimit ≤ type)
    (hnone : (o.getOption type maxSize).1 = optErrNotFound) : ∀ y ∈ opts, y.type ≠ type := by
  have hlen := length_le_flatMap opts
  rw [getOption, h.options] at hnone
  exact @getLoop_notFound opts type _ _ [] htype hnone (by omega)

theorem nextOption_spec (h : o.options = l.flatMap Opt.encode ++ x.encode ++ r.flatMap Opt.encode)
    (hcur : o.current = (l.flatMap Opt.encode).length) (hsize : 253 ≤ maxSize % 2 ^ 8) :
    o.nextOption maxSize =
      ({ o with current := (l.flatMap Opt.encode ++ x.encode).length }, (x.data.length : ℤ), x.type,
        x.data) := by
  have hlen := length_encode x
  have hdata := x.data_le
  have hmax : optMaxLength = 255 := rfl
  rw [nextOption, if_neg (by rw [hcur, optErrWalk]; omega), hcur, h,
    if_neg (by rw [length_append, length_append]; split at hlen <;> omega),
    Int.toNat_natCast, getD_type]
  by_cases hsingle : x.type < optSingleByteLimit
  · rw [if_pos hsingle] at hlen
    rw [if_pos hsingle, length_append, hlen, x.data_single hsingle]
    rfl
  · rw [if_neg hsingle] at hlen
    rw [if_neg hsingle, getD_length (by omega)]
    rw [if_pos (by omega), show (((x.data.length + 2 : ℕ) : ℤ) - 2).toNat = x.data.length by omega,
      data_eq (by omega), length_append, hlen]
    congr 2
    · omega
    · omega

/-- By induction on the options that are left. -/
theorem walkLoop_spec {fuel : ℕ} (h : o.options = (l ++ r).flatMap Opt.encode)
    (hcur : o.current = (l.flatMap Opt.encode).length) (hsize : 253 ≤ maxSize % 2 ^ 8)
    (hfuel : r.length ≤ fuel) :
    walkLoop maxSize fuel o = r.map (fun x => (x.type, x.data)) := by
  induction r generalizing o l fuel with
  | nil =>
    cases fuel with
    | zero => rfl
    | succ fuel =>
      rw [append_nil] at h
      have hdone : o.current = (o.options.length : ℤ) := by rw [hcur, h]
      have hend : o.nextOption maxSize = (o, optErrNotFound, 0, []) := by
        rw [nextOption, if_neg (by rw [hcur, optErrWalk]; omega), if_pos (hdone ▸ Int.le_refl _)]
      rw [walkLoop, hend]
      rfl
  | cons x r ih =>
    cases fuel with
    | zero => simp at hfuel
    | succ fuel =>
      have hsplit : o.options =
          l.flatMap Opt.encode ++ x.encode ++ r.flatMap Opt.encode := by
        rw [h, flatMap_append, flatMap_cons, append_assoc]
      have hnext := nextOption_spec hsplit hcur hsize
      rw [walkLoop, hnext]
      dsimp only
      rw [if_pos (by omega), map_cons]
      congr 1
      refine @ih { o with current := (l.flatMap Opt.encode ++ x.encode).length } (l ++ [x]) fuel
        ?_ ?_ (by rw [length_cons] at hfuel; omega)
      · rw [h, append_assoc]
        rfl
      · rw [flatMap_append, flatMap_singleton]

theorem walk_spec (h : WellFormed o opts) (hsize : 253 ≤ maxSize % 2 ^ 8) :
    o.walk maxSize = opts.map (fun x => (x.type, x.data)) := by
  have hlen := length_le_flatMap opts
  refine @walkLoop_spec o.startOptionWalk [] opts maxSize _ h.options rfl hsize ?_
  rw [h.options]
  omega

end DccpOptions

end NetSim
