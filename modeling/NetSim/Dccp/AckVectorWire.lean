import NetSim.Dccp.AckVectorRuns
import NetSim.Dccp.Options

/-! # The ack vector in a packet

`sendAckVector` copies the bytes of the vector into an option, and `setAckVector` imports them into a
new vector. The size of the data of an option is an `u_int8_t`: of a vector of more than 253 bytes
only the first ones are written, as many as its size modulo 256 says, and the call reports success
all the same (`ackVector_on_wire`).
-/

namespace NetSim.DccpAckVector

open Function List DccpOptions

variable {v v' : DccpAckVector} {bs l r : List ℕ} {b s n : ℕ}

/-! ## Export and import -/

def optAckVectorN0 : ℕ := 37

def optAckVectorN1 : ℕ := 38

/-- The loop of `getAckVector`. -/
def copyLoop (v : DccpAckVector) : ℕ → ℕ → List ℕ
  | 0, _ => []
  | count + 1, walker => v.vector walker :: copyLoop v count ((walker + 1) % v.maxSize)

/-- `getAckVector` into an array of `size` bytes: the result, the bytes, and `size` afterwards. -/
def getAckVector (v : DccpAckVector) (size : ℕ) : ℤ × List ℕ × ℕ :=
  if v.size = 0 then (-1, [], size)
  else if size < v.size then (-2, [], v.size)
  else (v.size, copyLoop v v.size v.head, v.size)

/-- The loop of `setAckVector`, for the bytes from `i` on: the array, and `seq_end`. -/
def importLoop (vect : List ℕ) (size : ℕ) : ℕ → ℕ → (ℕ → ℕ) → ℕ → (ℕ → ℕ) × ℕ
  | 0, _, vector, seqEnd => (vector, seqEnd)
  | count + 1, i, vector, seqEnd =>
    importLoop vect size count (i + 1) (update vector i (vect.getD i 0))
      (if i = size - 1 then u32 (seqEnd - runlen (vect.getD i 0))
        else u32 (seqEnd - (runlen (vect.getD i 0) + 1)))

def setAckVector (vect : List ℕ) (size seqStart ene : ℕ) :
    ℕ → DccpAckVector → DccpAckVector × Bool
  | 0, v => (v, false)
  | fuel + 1, v =>
    if v.maxSize < size then
      let r := { v with size := 0 }.doubleMaxSize
      if r.2 then setAckVector vect size seqStart ene fuel r.1 else r
    else
      let r := importLoop vect size size 0 v.vector seqStart
      ({ v with vector := r.1, size, head := 0, tail := size - 1, seqHead := seqStart, seqTail := r.2, ene },
        true)

structure AckHistEntry where
  seqSent : ℕ
  ackNum : ℕ
  ene : ℕ

/-- The entry that `addToAckHistory` finds in front does not forbid a new one. -/
def HistOk (v : DccpAckVector) (seqnum : ℕ) : List AckHistEntry → Prop
  | [] => True
  | elm :: _ => elm.seqSent < seqnum ∧ elm.ackNum ≤ v.seqHead

instance decidableHistOk (v : DccpAckVector) (seqnum : ℕ) :
    (hist : List AckHistEntry) → Decidable (HistOk v seqnum hist)
  | [] => isTrue trivial
  | elm :: _ => inferInstanceAs (Decidable (elm.seqSent < seqnum ∧ elm.ackNum ≤ v.seqHead))

/-- `addToAckHistory`; `none` stands for `abort`. -/
def addToAckHistory (v : DccpAckVector) (seqnum : ℕ) (hist : List AckHistEntry) :
    Option (List AckHistEntry) :=
  if HistOk v seqnum hist then
    some ({ seqSent := seqnum, ackNum := v.seqHead, ene := v.ene } :: hist)
  else none

def ackVectorType (v : DccpAckVector) : ℕ := if v.ene = 0 then optAckVectorN0 else optAckVectorN1

/-- `sendAckVector` with options: the result `DCCP_OPT_NO_ERR` with the new options and history, or
`none` for `abort`. -/
def sendAckVector (v : DccpAckVector) (hist : List AckHistEntry) (seqnum acknum : ℕ)
    (options : DccpOptions) : Option (DccpOptions × List AckHistEntry) :=
  if acknum ≠ v.seqHead then none
  else if v.size = 0 then none
  else
    let result := v.getAckVector v.size
    if 0 < result.1 then
      let r := options.addOption v.ackVectorType result.2.1 result.2.2
      if r.2 = optNoErr then (v.addToAckHistory seqnum hist).map (fun hist => (r.1, hist)) else none
    else none

/-! ## What the bytes say -/

/-- The ring holds the bytes `bs`, and the tail is as many packets behind the head as they say, modulo
`2 ^ 32`. The nonce echo is one bit. -/
structure Laid (v : DccpAckVector) (bs : List ℕ) : Prop where
  ne : bs ≠ []
  headLt : v.head < v.maxSize
  cells : Ring.Holds v.maxSize v.vector v.head bs
  size : v.size = bs.length
  le : bs.length ≤ v.maxSize
  tail : v.tail = (v.head + bs.length - 1) % v.maxSize
  seqLt : v.seqHead < 2 ^ 32
  seqTail : v.seqTail = u32 (v.seqHead + 1 - (expand bs).length)
  ene : v.ene ≤ 1

/-- The state of a packet, read from the bytes alone. -/
def stateIn (s : ℕ) : ℕ → List ℕ → Option PacketState
  | _, [] => none
  | seqStart, b :: bs =>
    let seqEnd := u32 (seqStart - runlen b)
    if seqEnd ≤ s ∧ s ≤ seqStart then some (stateBits b) else stateIn s (u32 (seqEnd - 1)) bs

theorem findLoop_laid {fuel seqStart : ℕ} (h : Laid v (l ++ r)) (hr : r ≠ [])
    (hfuel : r.length ≤ fuel) :
    (v.findLoop s ((v.tail + 1) % v.maxSize) fuel ((v.head + l.length) % v.maxSize) seqStart).map
      (fun f => stateBits (v.vector f.1)) = stateIn s seqStart r := by
  induction r generalizing l fuel seqStart with
  | nil => exact absurd rfl hr
  | cons b r ih =>
    cases fuel with
    | zero => simp at hfuel
    | succ fuel =>
      have hbyte : v.vector ((v.head + l.length) % v.maxSize) = b :=
        (Ring.holds_append.mp h.cells).2.1
      have hlen := h.le
      have htail := h.tail
      rw [length_append, length_cons] at hlen htail
      have hstop : (v.tail + 1) % v.maxSize =
          (v.head + l.length + 1 + r.length) % v.maxSize := by
        rw [htail, Nat.mod_add_mod]
        congr 1
        omega
      rw [findLoop, stateIn, hbyte]
      by_cases hfound : u32 (seqStart - runlen b) ≤ s ∧ s ≤ seqStart
      · rw [if_pos hfound, if_pos hfound, Option.map_some, hbyte]
      · rw [if_neg hfound, if_neg hfound, Nat.mod_add_mod]
        cases r with
        | nil =>
          rw [if_pos (by rw [hstop]; rfl)]
          rfl
        | cons b' r =>
          have hne : (v.head + l.length + 1) % v.maxSize ≠ (v.tail + 1) % v.maxSize := by
            rw [hstop]
            rw [length_cons] at hlen ⊢
            exact Ring.mod_ne (by omega) (by omega)
          have hsplit : l ++ b :: b' :: r = l ++ [b] ++ b' :: r := by simp
          have hnext := @ih (l ++ [b]) fuel (u32 ((u32 (seqStart - runlen b) : ℤ) - 1))
            (hsplit ▸ h) (by simp) (by rw [length_cons] at hfuel; omega)
          rw [length_append, length_singleton, ← Nat.add_assoc] at hnext
          rw [if_neg hne]
          exact hnext

theorem getState_laid (h : Laid v bs) (s : ℕ) :
    v.getState s =
      if v.seqHead < s ∨ s < v.seqTail then none else stateIn s v.seqHead bs := by
  have hpos := length_pos_of_ne_nil h.ne
  have hsize := h.size
  by_cases hout : v.seqHead < s ∨ s < v.seqTail
  · rw [if_pos hout, getState, if_pos (Or.inr hout)]
  · rw [if_neg hout, getState, if_neg (by omega), findSeqNum, if_neg (by omega)]
    have hloop := @findLoop_laid v [] bs s v.maxSize v.seqHead h h.ne h.le
    rw [length_nil, show (v.head + 0) % v.maxSize = v.head from Nat.mod_eq_of_lt h.headLt]
      at hloop
    exact hloop

/-! ## The round trip -/

theorem copyLoop_eq {i : ℕ} (h : Ring.Holds v.maxSize v.vector i bs) :
    copyLoop v bs.length (i % v.maxSize) = bs := by
  induction bs generalizing i with
  | nil => rfl
  | cons b bs ih =>
    rw [length_cons, copyLoop, h.1, Nat.mod_add_mod, ih h.2]

theorem getAckVector_laid (h : Laid v bs) : v.getAckVector v.size = ((v.size : ℤ), bs, v.size) := by
  have hpos := length_pos_of_ne_nil h.ne
  have hsize := h.size
  have hcopy := copyLoop_eq h.cells
  rw [Nat.mod_eq_of_lt h.headLt, ← hsize] at hcopy
  rw [getAckVector, if_neg (by omega), if_neg (Nat.lt_irrefl _), hcopy]

theorem u32_sub (x : ℕ) (a b : ℤ) (hx : (x : ℤ) = (u32 a : ℤ)) : u32 (x - b) = u32 (a - b) := by
  have hmod : ((u32 a : ℕ) : ℤ) = a % 2 ^ 32 := by
    rw [u32]
    omega
  rw [u32, u32, hx, hmod, Int.emod_sub_emod]

/-- By induction on the bytes of the option. -/
theorem importLoop_spec {pre : List ℕ} {vector : ℕ → ℕ} {seqEnd m : ℕ} {seqStart : ℤ}
    (hne : bs ≠ []) (hn : (pre ++ bs).length ≤ m) (hp : Ring.Holds m vector 0 pre)
    (hseq : seqEnd = u32 (seqStart - (expand pre).length)) :
    let r := importLoop (pre ++ bs) (pre ++ bs).length bs.length pre.length vector seqEnd
    Ring.Holds m r.1 0 (pre ++ bs) ∧ r.2 = u32 (seqStart + 1 - (expand (pre ++ bs)).length) := by
  induction bs generalizing pre vector seqEnd with
  | nil => exact absurd rfl hne
  | cons b bs ih =>
    have hget : (pre ++ b :: bs).getD pre.length 0 = b := by simp
    have hlen : (pre ++ b :: bs).length = pre.length + (bs.length + 1) := by simp
    rw [length_cons, importLoop, hget]
    -- the cell that is written
    have hp' : Ring.Holds m (update vector pre.length b) 0 (pre ++ [b]) := by
      have hmod : (0 + pre.length) % m = pre.length := by
        rw [Nat.zero_add, Nat.mod_eq_of_lt (by omega)]
      have hup := hp.update (j := 0 + pre.length) (by omega) (by omega) b
      rw [hmod] at hup
      refine hup.concat ?_
      rw [hmod]
      exact update_self _ _ _
    have hexp : ((expand (pre ++ [b])).length : ℤ) = (expand pre).length + (runlen b + 1) := by
      rw [expand_append, length_append, expand_cons, expand_nil, append_nil,
        length_decode]
      rfl
    cases bs with
    | nil =>
      rw [if_pos (by simp)]
      refine ⟨hp', ?_⟩
      show u32 (seqEnd - runlen b) = _
      rw [u32_sub seqEnd _ _ (by rw [hseq]), hexp]
      congr 1
      omega
    | cons b' bs =>
      rw [if_neg (by rw [hlen, length_cons]; omega)]
      have hsplit : pre ++ b :: b' :: bs = pre ++ [b] ++ b' :: bs := by simp
      have hnext := @ih (pre ++ [b]) (update vector pre.length b)
        (u32 (seqEnd - (runlen b + 1))) (by simp) (hsplit ▸ hn) hp'
        (by
          rw [u32_sub seqEnd _ _ (by rw [hseq]), hexp]
          congr 1
          omega)
      rw [← hsplit, show (pre ++ [b]).length = pre.length + 1 by simp] at hnext
      exact hnext

/-- The vector is laid out anew, in a ring that is large enough. -/
theorem setAckVector_spec {size seqStart ene fuel : ℕ} (hm : 1 ≤ v.maxSize)
    (hmax : v.maxSize ≤ dccpMaxAckvSize) (hne : bs ≠ []) (hlen : bs.length ≤ dccpMaxAckvSize)
    (hfuel : v.growths ≤ fuel) (hene : ene ≤ 1) (hsize : size = bs.length) (hseq : seqStart < 2 ^ 32) :
    (setAckVector bs size seqStart ene fuel v).2 = true ∧
      Laid (setAckVector bs size seqStart ene fuel v).1 bs ∧
      (setAckVector bs size seqStart ene fuel v).1.seqHead = seqStart ∧
      (setAckVector bs size seqStart ene fuel v).1.ene = ene := by
  induction fuel generalizing v with
  | zero =>
    have := growths_pos hmax
    omega
  | succ fuel ih =>
    rw [setAckVector]
    by_cases hfull : v.maxSize < size
    · rw [if_pos hfull]
      have hdouble : { v with size := 0 }.doubleMaxSize =
          ({ v with vector := fun _ => 0, size := 0,
                    maxSize := min (v.maxSize * 2) dccpMaxAckvSize }, true) := by
        rw [doubleMaxSize, if_neg (show v.maxSize ≠ dccpMaxAckvSize by omega)]
        simp
      rw [hdouble]
      refine ih (by show 1 ≤ min _ _; omega) (Nat.min_le_right _ _) ?_
      rw [growths] at hfuel ⊢
      show dccpMaxAckvSize + 1 - min (v.maxSize * 2) dccpMaxAckvSize ≤ fuel
      omega
    · rw [if_neg hfull]
      have himport := @importLoop_spec bs [] v.vector seqStart v.maxSize seqStart hne
        (by rw [nil_append]; omega) trivial (by
          have := u32_eq (x := (seqStart : ℤ) - (expand []).length) (by simp) (by omega)
          simp at this ⊢
          omega)
      rw [nil_append, length_nil, ← hsize] at himport
      refine ⟨rfl, ⟨hne, hm, himport.1, hsize, ?_, ?_, hseq, himport.2, hene⟩, rfl, rfl⟩
      · show bs.length ≤ v.maxSize
        omega
      · show size - 1 = (0 + bs.length - 1) % v.maxSize
        rw [Nat.zero_add, Nat.mod_eq_of_lt (by omega), hsize]

/-! ## What is sent -/

/-- The new vector is the old one: the same packets, states and nonce echo. -/
structure Recovered (v : DccpAckVector) (r : DccpAckVector × Bool) : Prop where
  ok : r.2 = true
  seqHead : r.1.seqHead = v.seqHead
  seqTail : r.1.seqTail = v.seqTail
  getState : ∀ s, r.1.getState s = v.getState s
  ene : r.1.ene = v.ene

/-- An ack vector option that is imported into a new vector, as `DCCPAgent::processOption` does. -/
def imported (type : ℕ) (data : List ℕ) (size acknum initialSize : ℕ) : DccpAckVector × Bool :=
  setAckVector data size acknum (1 - (optAckVectorN1 - type)) (init initialSize).growths
    (init initialSize)

/-- **A vector that is reported as sent** fits into one option, and is recovered from the option that
was added: the last one of the option walk, and the one that `getOption` finds when there was none of
its type before. -/
def Survives (v : DccpAckVector) (hist : List AckHistEntry) (seqnum : ℕ) (options : DccpOptions) :
    Prop :=
  ∀ options' hist', v.sendAckVector hist seqnum v.seqHead options = some (options', hist') →
    v.size + 2 ≤ optMaxLength ∧
      ∀ initialSize, 1 ≤ initialSize → initialSize ≤ dccpMaxAckvSize →
        (∀ maxSize, 253 ≤ maxSize → maxSize < 2 ^ 8 →
          ∃ type data, (options'.walk maxSize).getLast? = some (type, data) ∧
            Recovered v (imported type data data.length v.seqHead initialSize)) ∧
        (∀ maxSize, v.size ≤ maxSize → maxSize < 2 ^ 8 →
          (options.getOption v.ackVectorType maxSize).1 = optErrNotFound →
          ∃ size : ℕ, (options'.getOption v.ackVectorType maxSize).1 = size ∧
            Recovered v (imported v.ackVectorType (options'.getOption v.ackVectorType maxSize).2 size
              v.seqHead initialSize))

/-- What makes `sendAckVector` abort: the size modulo 256 is that of no option, the buffer is full, or
the history forbids it. -/
def Refused (v : DccpAckVector) (hist : List AckHistEntry) (seqnum : ℕ) (options : DccpOptions) :
    Prop :=
  v.size % 2 ^ 8 = 0 ∨ optMaxLength < v.size % 2 ^ 8 + 2 ∨
    options.maxSize < options.options.length + (v.size % 2 ^ 8 + 2) ∨ ¬ HistOk v seqnum hist

variable {hist hist' : List AckHistEntry} {seqnum type initialSize maxSize : ℕ}
  {options options' : DccpOptions}

theorem ackVectorType_ge (v : DccpAckVector) : optSingleByteLimit ≤ v.ackVectorType := by
  rw [ackVectorType]
  split <;> decide

theorem ackVectorType_ene (h : v.ene ≤ 1) : 1 - (optAckVectorN1 - v.ackVectorType) = v.ene := by
  rw [ackVectorType]
  by_cases hzero : v.ene = 0
  · rw [if_pos hzero, hzero]
    rfl
  · rw [if_neg hzero, show v.ene = 1 by omega]
    rfl

/-- **`sendAckVector`** adds the option, unless something refuses it. -/
theorem sendAckVector_spec (h : Laid v bs) :
    (Refused v hist seqnum options → v.sendAckVector hist seqnum v.seqHead options = none) ∧
      (¬ Refused v hist seqnum options → ∃ hist', v.sendAckVector hist seqnum v.seqHead options =
        some ((options.addOption v.ackVectorType bs v.size).1, hist')) := by
  have hpos := length_pos_of_ne_nil h.ne
  have hsize := h.size
  have hadd := @addOption_noErr options v.ackVectorType v.size bs v.ackVectorType_ge
  rw [sendAckVector, if_neg (fun hne => hne rfl), if_neg (by omega), getAckVector_laid h]
  rw [if_pos (by omega)]
  by_cases hok : (options.addOption v.ackVectorType bs v.size).2 = optNoErr
  · rw [if_pos hok]
    by_cases hhist : HistOk v seqnum hist
    · rw [addToAckHistory, if_pos hhist]
      constructor
      · rintro (hr | hr | hr | hr)
        · omega
        · omega
        · omega
        · exact absurd hhist hr
      · exact fun _ => ⟨_, rfl⟩
    · rw [addToAckHistory, if_neg hhist]
      exact ⟨fun _ => rfl, fun hr => absurd (Or.inr (Or.inr (Or.inr hhist))) hr⟩
  · rw [if_neg hok]
    refine ⟨fun _ => rfl, fun hr => absurd (hadd.mpr ?_) hok⟩
    rw [Refused] at hr
    omega

theorem Laid.recovered (h : Laid v bs) (hinit : 1 ≤ initialSize)
    (hinit' : initialSize ≤ dccpMaxAckvSize) (hlen : bs.length ≤ dccpMaxAckvSize) :
    Recovered v (imported v.ackVectorType bs bs.length v.seqHead initialSize) := by
  rw [imported, ackVectorType_ene h.ene]
  obtain ⟨hok, hlaid, hhead, hene⟩ := @setAckVector_spec (init initialSize) bs bs.length v.seqHead
    v.ene (init initialSize).growths hinit hinit' h.ne hlen le_rfl h.ene rfl h.seqLt
  have htail : ((setAckVector bs bs.length v.seqHead v.ene (init initialSize).growths
      (init initialSize)).1).seqTail = v.seqTail := by
    rw [hlaid.seqTail, h.seqTail, hhead]
  refine ⟨hok, hhead, htail, fun s => ?_, hene⟩
  rw [getState_laid hlaid, getState_laid h, hhead, htail]

/-- **The ack vector on the wire.** A vector that is reported as sent survives exactly when it has at
most 253 bytes. -/
theorem ackVector_on_wire (h : Laid v bs) (ho : Reachable options) (hist : List AckHistEntry)
    (seqnum : ℕ) :
    Survives v hist seqnum options ↔ v.size + 2 ≤ optMaxLength ∨ Refused v hist seqnum options := by
  obtain ⟨hnone, hsome⟩ := @sendAckVector_spec v bs hist seqnum options h
  have hsize := h.size
  have hmax : optMaxLength = 255 := rfl
  constructor
  · intro hs
    by_cases hr : Refused v hist seqnum options
    · exact Or.inr hr
    · obtain ⟨hist', hsend⟩ := hsome hr
      exact Or.inl (hs _ _ hsend).1
  · intro hcond options' hist' hsend
    have hr : ¬ Refused v hist seqnum options := by
      intro hr
      rw [hnone hr] at hsend
      cases hsend
    have hfit : v.size + 2 ≤ optMaxLength := by
      rcases hcond with hfit | hr'
      · exact hfit
      · exact absurd hr' hr
    obtain ⟨hist'', hsend'⟩ := hsome hr
    rw [hsend'] at hsend
    cases hsend
    obtain ⟨opts, hwf⟩ := ho.wellFormed
    have hmod : v.size % 2 ^ 8 = v.size := Nat.mod_eq_of_lt (by omega)
    obtain ⟨x, htype, hdata, hwf'⟩ : ∃ x : Opt, x.type = v.ackVectorType ∧ x.data = bs ∧
        WellFormed (options.addOption v.ackVectorType bs v.size).1 (opts ++ [x]) := by
      rcases @addOption_spec options opts v.ackVectorType v.size bs hwf (by omega) with
        ⟨hne, -⟩ | ⟨-, x, htype, hdata, -, hwf'⟩
      · refine absurd (addOption_noErr v.ackVectorType_ge |>.mpr ?_) hne
        rw [Refused] at hr
        omega
      · exact ⟨x, htype, by rw [hdata, hmod, hsize, take_length], hwf'⟩
    have hlen : bs.length ≤ dccpMaxAckvSize := by
      rw [dccpMaxAckvSize]
      omega
    refine ⟨hfit, fun initialSize h1 h2 => ⟨fun maxSize hm1 hm2 => ?_, fun maxSize hm1 hm2 hno => ?_⟩⟩
    · refine ⟨v.ackVectorType, bs, ?_, h.recovered h1 h2 hlen⟩
      rw [walk_spec hwf' (by omega), map_append, map_singleton, getLast?_concat, htype,
        hdata]
    · have hget := @getOption_spec _ opts [] x maxSize hwf'
        (fun y hy => htype ▸ getOption_notFound hwf v.ackVectorType_ge hno y hy)
        (htype ▸ v.ackVectorType_ge) (by rw [hdata]; omega)
      rw [htype, hdata] at hget
      rw [hget]
      exact ⟨bs.length, rfl, h.recovered h1 h2 hlen⟩

/-- A vector of two bytes survives. -/
theorem ackVector_on_wire_short :
    Survives
      { vector := fun i => if i = 0 then 64 else 1, size := 2, maxSize := 4, head := 0, tail := 1,
        seqHead := 7, seqTail := 5, ene := 1 } [] 1 (DccpOptions.init 512) := by
  refine (@ackVector_on_wire _ [64, 1] _ ?_ (Reachable.init 512) [] 1).mpr (Or.inl (by decide))
  exact ⟨by simp, by decide, ⟨rfl, rfl, trivial⟩, rfl, by decide, rfl, by decide, by decide, by decide⟩

/-- Packets that alternate between two states: each has a byte of its own. -/
def alternating (count : ℕ) : List Call :=
  (List.range count).map (fun i => .add (i + 1) (if i % 2 = 0 then .recv else .ecn))

/-- A vector of 257 bytes is reported as sent with one byte of data, and the tail of the imported
vector is its head. -/
theorem ackVector_truncated :
    ∃ v oks, Runs.run step (init 10) (alternating 257) = some (v, oks) ∧ v.size = 257 ∧
      v.seqTail = 1 ∧ ¬ Survives v [] 1 (DccpOptions.init 512) ∧
      ∃ options' hist', v.sendAckVector [] 1 v.seqHead (DccpOptions.init 512) =
          some (options', hist') ∧
        options'.walk 255 = [(optAckVectorN0, [0])] ∧
        (imported optAckVectorN0 [0] 1 v.seqHead 10).1.seqTail = 257 := by
  obtain ⟨⟨v, oks⟩, hrun⟩ : ∃ r, Runs.run step (init 10) (alternating 257) = some r :=
    Option.isSome_iff_exists.mp (by decide +kernel)
  have hfinal : ∀ r ∈ Runs.run step (init 10) (alternating 257),
      r.1.size = 257 ∧ r.1.seqTail = 1 ∧
        (r.1.sendAckVector [] 1 r.1.seqHead (DccpOptions.init 512)).isSome ∧
        (∀ t ∈ r.1.sendAckVector [] 1 r.1.seqHead (DccpOptions.init 512),
          t.1.walk 255 = [(optAckVectorN0, [0])]) ∧
        (imported optAckVectorN0 [0] 1 r.1.seqHead 10).1.seqTail = 257 := by
    decide +kernel
  obtain ⟨hsize, htail, hsent, hwalk, himport⟩ := hfinal (v, oks) hrun
  obtain ⟨⟨options', hist'⟩, hsend⟩ := Option.isSome_iff_exists.mp hsent
  refine ⟨v, oks, hrun, hsize, htail, fun hs => ?_, options', hist', hsend, hwalk _ hsend, himport⟩
  have hfit := (hs options' hist' hsend).1
  rw [hsize] at hfit
  exact absurd hfit (by decide)

end NetSim.DccpAckVector
