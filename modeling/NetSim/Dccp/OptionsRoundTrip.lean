import NetSim.Dccp.Options

/-! # The round trip of the DCCP options

The two writers of `DCCPOptions`, in any order, against its two readers: what the calls that
succeeded added is what the option walk returns, and `getOption` returns the first option of its
type (`options_round_trip`). A call that fails changes nothing.
-/

namespace NetSim.DccpOptions

open List

/-! ## The calls -/

inductive Call where
  | addOption (type : ℕ) (data : List ℕ) (dataSize : ℕ)
  | addFeatureOption (type featNum : ℕ) (data : List ℕ) (dataSize : ℕ)

def perform (o : DccpOptions) : Call → DccpOptions × ℤ
  | .addOption type data dataSize => o.addOption type data dataSize
  | .addFeatureOption type featNum data dataSize => o.addFeatureOption type featNum data dataSize

/-- The array of a call has the bytes that the call reads. -/
def Call.Readable : Call → Prop
  | addOption _ data dataSize => dataSize % 2 ^ 8 ≤ data.length
  | addFeatureOption _ _ data dataSize => dataSize % 2 ^ 8 ≤ data.length

/-- The type and the data of the option of a call. The feature number is the first byte of the data
of a feature option. -/
def Call.content : Call → ℕ × List ℕ
  | addOption type data dataSize => (type, data.take (dataSize % 2 ^ 8))
  | addFeatureOption type featNum data dataSize =>
    (type, featNum :: data.take (dataSize % 2 ^ 8))

def performAll (o : DccpOptions) (calls : List Call) : DccpOptions :=
  calls.foldl (fun o call => (o.perform call).1) o

def added : DccpOptions → List Call → List (ℕ × List ℕ)
  | _, [] => []
  | o, call :: calls =>
    if (o.perform call).2 = optNoErr then call.content :: added (o.perform call).1 calls
    else added (o.perform call).1 calls

/-- The results of `n` calls of `nextOption`. -/
def nexts (maxSize : ℕ) : ℕ → DccpOptions → List (ℤ × ℕ × List ℕ)
  | 0, _ => []
  | n + 1, o => (o.nextOption maxSize).2 :: nexts maxSize n (o.nextOption maxSize).1

def Opt.content (x : Opt) : ℕ × List ℕ := (x.type, x.data)

variable {o : DccpOptions} {opts l r : List Opt} {x : Opt} {type featNum maxSize dataSize : ℕ}
  {data : List ℕ} {call : Call} {calls : List Call}

/-! ## The writers -/

theorem perform_spec (h : WellFormed o opts) (hread : call.Readable) :
    ((o.perform call).2 ≠ optNoErr ∧ (o.perform call).1 = o) ∨
      ((o.perform call).2 = optNoErr ∧
        ∃ x : Opt, x.content = call.content ∧ WellFormed (o.perform call).1 (opts ++ [x])) := by
  cases call with
  | addOption type data dataSize =>
    rcases @addOption_spec _ _ type dataSize data h hread with hfail | ⟨hok, x, ht, hd, -, hwf⟩
    · exact Or.inl hfail
    · exact Or.inr ⟨hok, x, Prod.ext ht hd, hwf⟩
  | addFeatureOption type featNum data dataSize =>
    rcases @addFeatureOption_spec _ _ type featNum dataSize data h hread with
      hfail | ⟨hok, x, ht, hd, hwf⟩
    · exact Or.inl hfail
    · exact Or.inr ⟨hok, x, Prod.ext ht hd, hwf⟩

theorem perform_fails (h : (o.perform call).2 ≠ optNoErr) : (o.perform call).1 = o := by
  cases call with
  | addOption type data dataSize =>
    revert h
    rw [perform, addOption]
    split_ifs <;> intro h
    all_goals first | rfl | exact absurd rfl h
  | addFeatureOption type featNum data dataSize =>
    revert h
    rw [perform, addFeatureOption]
    split_ifs <;> intro h
    all_goals first | rfl | exact absurd rfl h

theorem perform_maxSize : (o.perform call).1.maxSize = o.maxSize := by
  cases call with
  | addOption type data dataSize =>
    rw [perform, addOption]
    split_ifs <;> rfl
  | addFeatureOption type featNum data dataSize =>
    rw [perform, addFeatureOption]
    split_ifs <;> rfl

theorem performAll_maxSize : (o.performAll calls).maxSize = o.maxSize := by
  induction calls generalizing o with
  | nil => rfl
  | cons call calls ih =>
    calc ((o.perform call).1.performAll calls).maxSize
        = (o.perform call).1.maxSize := ih
      _ = o.maxSize := perform_maxSize

theorem performAll_wellFormed (h : WellFormed o opts) (hread : ∀ call ∈ calls, call.Readable) :
    ∃ opts', WellFormed (o.performAll calls) (opts ++ opts') ∧
      opts'.map Opt.content = added o calls := by
  induction calls generalizing o opts with
  | nil => exact ⟨[], by rw [append_nil]; exact h, rfl⟩
  | cons call calls ih =>
    have hrest : ∀ c ∈ calls, c.Readable := fun c hc => hread c (mem_cons_of_mem _ hc)
    rcases perform_spec h (hread call mem_cons_self) with ⟨hfail, hsame⟩ | ⟨hok, x, hx, hwf⟩
    · rw [added, if_neg hfail, hsame]
      obtain ⟨opts', hwf', hadded⟩ := ih h hrest
      refine ⟨opts', ?_, hadded⟩
      show WellFormed ((o.perform call).1.performAll calls) _
      rw [hsame]
      exact hwf'
    · rw [added, if_pos hok]
      obtain ⟨opts', hwf', hadded⟩ := ih hwf hrest
      refine ⟨x :: opts', ?_, ?_⟩
      · rw [append_assoc, singleton_append] at hwf'
        exact hwf'
      · rw [map_cons, hx, hadded]

/-! ## The readers -/

theorem nextOption_end (hcur : o.current = o.options.length) :
    o.nextOption maxSize = (o, optErrNotFound, 0, []) := by
  rw [nextOption, if_neg (by rw [hcur, optErrWalk]; omega), if_pos (Int.le_of_eq hcur.symm)]

theorem nexts_end (k : ℕ) (hcur : o.current = o.options.length) :
    nexts maxSize k o = List.replicate k (optErrNotFound, 0, []) := by
  induction k with
  | zero => rfl
  | succ k ih => rw [nexts, nextOption_end hcur, replicate_succ, ih]

/-- **The walk** returns the options that follow its place, and then fails. -/
theorem nexts_spec (k : ℕ) (h : o.options = (l ++ r).flatMap Opt.encode)
    (hcur : o.current = (l.flatMap Opt.encode).length) (hsize : 253 ≤ maxSize % 2 ^ 8) :
    nexts maxSize (r.length + k) o =
      r.map (fun x => ((x.data.length : ℤ), x.type, x.data)) ++
        List.replicate k (optErrNotFound, 0, []) := by
  induction r generalizing o l with
  | nil =>
    rw [append_nil] at h
    rw [length_nil, Nat.zero_add, nexts_end k (by rw [hcur, h])]
    rfl
  | cons x r ih =>
    have hsplit : o.options = l.flatMap Opt.encode ++ x.encode ++ r.flatMap Opt.encode := by
      rw [h, flatMap_append, flatMap_cons, append_assoc]
    rw [length_cons, Nat.add_right_comm, nexts, nextOption_spec hsplit hcur hsize,
      map_cons, cons_append]
    congr 1
    apply @ih { o with current := (l.flatMap Opt.encode ++ x.encode).length } (l ++ [x])
    · rw [h, append_assoc]
      rfl
    · rw [flatMap_append, flatMap_singleton]

/-- What the loop of `getOption` returns for the first option of its type. -/
def Opt.answer (maxSize : ℕ) : Option Opt → ℤ × List ℕ
  | none => (optErrNotFound, [])
  | some x => if x.data.length ≤ maxSize then ((x.data.length : ℤ), x.data) else (optErrSize, [])

theorem getLoop_here {fuel : ℕ} {pre post : List ℕ} :
    getLoop (pre ++ x.encode ++ post) x.type maxSize (fuel + 1) pre.length =
      Opt.answer maxSize (some x) := by
  have hlen := length_encode x
  rw [getLoop, if_pos (by rw [length_append, length_append, hlen]; split <;> omega),
    getD_type]
  by_cases hsingle : x.type < optSingleByteLimit
  · rw [if_pos hsingle, if_pos rfl, Opt.answer, x.data_single hsingle]
    exact (if_pos (Nat.zero_le maxSize)).symm
  · have hge : optSingleByteLimit ≤ x.type := by omega
    have hdata : ((x.data.length + 2 : ℕ) : ℤ) - 2 = x.data.length := by omega
    rw [if_neg hsingle, if_pos rfl, getD_length hge, Opt.answer, hdata, Int.toNat_natCast, data_eq hge]
    by_cases hsize : x.data.length ≤ maxSize
    · rw [if_pos hsize, if_pos (by omega)]
    · rw [if_neg hsize, if_neg (by omega)]

/-- **The loop of `getOption`** answers with the first option of its type. -/
theorem getLoop_find {fuel : ℕ} {pre : List ℕ} (hfuel : opts.length < fuel) :
    getLoop (pre ++ opts.flatMap Opt.encode) type maxSize fuel pre.length =
      Opt.answer maxSize (opts.find? (fun x => x.type = type)) := by
  induction opts generalizing pre fuel with
  | nil =>
    obtain ⟨fuel, rfl⟩ : ∃ k, fuel = k + 1 := Nat.exists_eq_add_one_of_ne_zero (by omega)
    rw [getLoop, if_neg (by simp)]
    rfl
  | cons x opts ih =>
    obtain ⟨fuel, rfl⟩ : ∃ k, fuel = k + 1 := Nat.exists_eq_add_one_of_ne_zero (by omega)
    rw [flatMap_cons, ← append_assoc]
    by_cases htype : x.type = type
    · rw [find?_cons_of_pos (by simpa using htype), ← htype]
      exact getLoop_here
    · rw [find?_cons_of_neg (by simpa using htype), getLoop_skip htype]
      exact ih (by rw [length_cons] at hfuel; omega)

theorem getOption_find (h : WellFormed o opts) :
    o.getOption type maxSize =
      Opt.answer (maxSize % 2 ^ 8) (opts.find? (fun x => x.type = type)) := by
  have hlen := length_le_flatMap opts
  rw [getOption, h.options]
  exact @getLoop_find opts type (maxSize % 2 ^ 8) _ [] (by omega)

/-! ## The round trip -/

/-- **The round trip.** A call that fails leaves the options as they are, and the options never
outgrow the buffer. The option walk, with an array for the longest option, returns what the calls
added, in order, and from then on that there is no option. `getOption` finds nothing just if no
option of the type was added; else it returns the data of the first, when the array is long
enough. -/
theorem options_round_trip (size : ℕ) (calls : List Call)
    (hread : ∀ call ∈ calls, call.Readable) :
    (∀ call, ((init size).performAll calls |>.perform call).2 ≠ optNoErr →
        ((init size).performAll calls |>.perform call).1 = (init size).performAll calls) ∧
      ((init size).performAll calls).options.length ≤ size ∧
      (∀ maxSize k, 253 ≤ maxSize % 2 ^ 8 →
        nexts maxSize ((added (init size) calls).length + k)
            ((init size).performAll calls).startOptionWalk =
          (added (init size) calls).map (fun x => ((x.2.length : ℤ), x)) ++
            List.replicate k (optErrNotFound, 0, [])) ∧
      (∀ type maxSize,
        ((((init size).performAll calls).getOption type maxSize).1 = optErrNotFound ↔
          ∀ x ∈ added (init size) calls, x.1 ≠ type)) ∧
      ∀ type maxSize x, (added (init size) calls).find? (fun x => x.1 = type) = some x →
        x.2.length ≤ maxSize % 2 ^ 8 →
        ((init size).performAll calls).getOption type maxSize = ((x.2.length : ℤ), x.2) := by
  have hinit : WellFormed (init size) [] := ⟨rfl, Nat.zero_le _⟩
  obtain ⟨opts, hwf, hadded⟩ := performAll_wellFormed hinit hread
  rw [nil_append] at hwf
  refine ⟨fun call hfail => perform_fails hfail, ?_, ?_, ?_, ?_⟩
  · calc ((init size).performAll calls).options.length
        ≤ ((init size).performAll calls).maxSize := hwf.fits
      _ = size := performAll_maxSize
  · intro maxSize k hsize
    rw [← hadded, length_map, map_map]
    exact @nexts_spec ((init size).performAll calls).startOptionWalk [] opts maxSize k
      hwf.options rfl hsize
  · intro type maxSize
    rw [getOption_find hwf, ← hadded]
    cases hfind : opts.find? (fun x => x.type = type) with
    | none =>
      rw [find?_eq_none] at hfind
      refine ⟨fun _ x hx => ?_, fun _ => rfl⟩
      obtain ⟨y, hy, rfl⟩ := mem_map.mp hx
      exact fun h => hfind y hy (decide_eq_true h)
    | some x =>
      -- The answer is a length or the size error, and the option itself has the type.
      constructor
      · intro h
        exfalso
        rw [Opt.answer, optErrNotFound] at h
        split at h
        · omega
        · exact absurd h (by decide)
      · intro h
        have htype : x.type = type := by simpa using find?_some hfind
        exact absurd htype (h x.content (mem_map_of_mem (mem_of_find?_eq_some hfind)))
  · intro type maxSize x hfind hsize
    rw [← hadded, find?_map, Option.map_eq_some_iff] at hfind
    obtain ⟨y, hy, rfl⟩ := hfind
    rw [getOption_find hwf]
    have hfirst : opts.find? (fun x => x.type = type) = some y := hy
    have hle : y.data.length ≤ maxSize % 2 ^ 8 := hsize
    rw [hfirst, Opt.answer, if_pos hle]
    rfl

/-- Three calls that succeed, of a single byte option, an option with data and a feature option,
and one that does not fit. -/
def fourCalls : List Call :=
  [.addOption 30 [] 0, .addOption 37 [7, 8] 2, .addFeatureOption optChangeL 5 [9] 1,
    .addOption 37 [1, 2, 3, 4] 4]

theorem options_round_trip_four :
    nexts 253 4 ((init 9).performAll fourCalls).startOptionWalk =
        [(0, 30, []), (2, 37, [7, 8]), (2, 33, [5, 9]), (-3, 0, [])] ∧
      ((init 9).performAll fourCalls).getOption 37 253 = (2, [7, 8]) ∧
      (((init 9).performAll fourCalls).getOption 38 253).1 = optErrNotFound := by
  have hread : ∀ call ∈ fourCalls, call.Readable := by
    simp [fourCalls, Call.Readable]
  obtain ⟨-, -, hwalk, hnone, hfirst⟩ := options_round_trip 9 fourCalls hread
  refine ⟨?_, ?_, ?_⟩
  · exact (hwalk 253 1 (by decide)).trans rfl
  · exact hfirst 37 253 (37, [7, 8]) rfl (by decide)
  · exact (hnone 38 253).mpr (by decide)

end NetSim.DccpOptions
