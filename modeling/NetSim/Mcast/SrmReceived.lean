import Mathlib
import NetSim.Lib.ByteMemory
import NetSim.Lib.Doubling
import NetSim.Lib.Runs

/-! # The bit vector of received messages

`SRMinfo` (`mcast/srm-state.h`) remembers which messages were received in a vector of bits that grows: at
least one bit for each number below `recvmax_`, which counts bytes. Memory from `new` holds anything.
`resize` clears as many new bytes as there were old ones, so the vector is exact as long as no message lies
in a byte behind them (`bit_vector_exact_iff`).
-/

namespace NetSim.Srm

open List Function ByteMemory Doubling

structure ReceivedBits where
  received : Option Memory
  recvmax : ℤ

inductive BitOp
  | ifReceived
  | setReceived
  | resetReceived
deriving DecidableEq

structure Call where
  op : BitOp
  id : ℕ
  fresh : ℤ → Byte

namespace ReceivedBits

def init : ReceivedBits := ⟨none, -1⟩

variable (s : ReceivedBits) (fresh : ℤ → Byte)

def allocate : Option ReceivedBits :=
  match s.received with
  | some _ => some s
  | none => ((⟨256, fresh⟩ : Memory).store 0 (replicate 256 0)).map (fun m => ⟨some m, 256⟩)

/-- A vector of `nsize` bytes: those of the old one, and as many that are cleared. -/
def grow (m : Memory) (osize nsize : ℤ) : Option Memory :=
  (m.load 0 osize.toNat).bind (fun old =>
    ((⟨nsize.toNat, fresh⟩ : Memory).store 0 old).bind (fun nvec =>
      nvec.store osize (replicate osize.toNat 0)))

def resize (id : ℕ) : Option ReceivedBits :=
  (s.allocate fresh).bind (fun s =>
    if s.recvmax ≤ id then
      s.received.bind (fun m => (double id rounds s.recvmax).bind (fun nsize =>
        (grow fresh m s.recvmax nsize).map (fun nvec => ⟨some nvec, nsize⟩)))
    else some s)

def bit (id : ℕ) : Byte := (1 : Byte) <<< (id % 8)

def byteAt (id : ℕ) : Option Byte := s.received.bind (fun m => (m.load (id / 8 : ℕ) 1).bind (·.head?))

def writeAt (id : ℕ) (b : Byte) : Option ReceivedBits :=
  s.received.bind (fun m => (m.store (id / 8 : ℕ) [b]).map (fun m => { s with received := some m }))

def ifReceived (id : ℕ) : Option (ReceivedBits × Byte) :=
  (if s.recvmax ≤ id then s.resize fresh id else some s).bind (fun s =>
    (s.byteAt id).map (fun b => (s, b &&& bit id)))

def setReceived (id : ℕ) : Option (ReceivedBits × Byte) :=
  (s.ifReceived fresh id).bind (fun r =>
    (r.1.byteAt id).bind (fun b => (r.1.writeAt id (b ||| bit id)).map (·, r.2)))

def resetReceived (id : ℕ) : Option (ReceivedBits × Byte) :=
  (s.ifReceived fresh id).bind (fun r =>
    (r.1.byteAt id).bind (fun b => (r.1.writeAt id (b &&& ~~~ bit id)).map (·, r.2)))

def step (c : Call) : Option (ReceivedBits × Byte) :=
  match c.op with
  | .ifReceived => s.ifReceived c.fresh c.id
  | .setReceived => s.setReceived c.fresh c.id
  | .resetReceived => s.resetReceived c.fresh c.id

end ReceivedBits

/-! ## What is remembered -/

def BitOp.mark (marked : ℕ → Bool) (id : ℕ) : BitOp → ℕ → Bool
  | .ifReceived => marked
  | .setReceived => update marked id true
  | .resetReceived => update marked id false

def Call.request (c : Call) : BitOp × ℕ := (c.op, c.id)

/-- The last call that wrote the number was `setReceived`. -/
def marked (past : List (BitOp × ℕ)) : ℕ → Bool :=
  past.foldl (fun marked r => r.1.mark marked r.2) (fun _ => false)

/-- The vector has `2 ^ extent` bytes: 256, or the next power of two beyond the largest number. -/
def extent (ids : List ℕ) : ℕ := ids.foldl (fun k id => max k id.size) 8

/-- The byte came with a growth to more than twice the size. -/
def Uncleared (ids : List ℕ) (b : ℕ) : Prop :=
  ∃ past id, past ++ [id] <+: ids ∧ 2 ^ (extent past + 1) ≤ b ∧ b < 2 ^ extent (past ++ [id])

/-- All numbers are below `2 ^ 30`, and lie in bytes that were cleared. -/
def Clean (ids : List ℕ) : Prop :=
  ∀ past id, past ++ [id] <+: ids → id < 2 ^ 30 ∧ ¬ Uncleared (past ++ [id]) (id / 8)

def Exact (calls : List Call) : Prop :=
  ∀ past c, past ++ [c] <+: calls → ∃ s outs s' o, Runs.run ReceivedBits.step .init past = some (s, outs) ∧
    s.step c = some (s', o) ∧ (o ≠ 0 ↔ marked (past.map Call.request) c.id = true)

/-! ## Growth -/

variable {ids : List ℕ} {id b i : ℕ} {set : ℕ → Bool} {mems : List (ℤ → Byte)} {fresh : ℤ → Byte}
  {m m' : Memory} {s s' : ReceivedBits}

theorem extent_concat (ids : List ℕ) (id : ℕ) : extent (ids ++ [id]) = max (extent ids) id.size := by
  rw [extent, foldl_append]
  rfl

theorem extent_mono {ids' : List ℕ} (h : ids <+: ids') : extent ids ≤ extent ids' := by
  obtain ⟨rest, rfl⟩ := h
  induction rest using List.reverseRecOn with
  | nil => rw [append_nil]
  | append_singleton rest id ih =>
    rw [← append_assoc, extent_concat]
    exact ih.trans (le_max_left _ _)

theorem uncleared_concat : Uncleared (ids ++ [id]) b ↔
    Uncleared ids b ∨ 2 ^ (extent ids + 1) ≤ b ∧ b < 2 ^ extent (ids ++ [id]) := by
  constructor
  · rintro ⟨past, x, hpre, hle, hlt⟩
    rcases prefix_concat_iff.mp hpre with heq | hpre
    · obtain ⟨rfl, hx⟩ := append_inj' heq rfl
      cases hx
      exact .inr ⟨hle, hlt⟩
    · exact .inl ⟨past, x, hpre, hle, hlt⟩
  · rintro (⟨past, x, hpre, hle, hlt⟩ | ⟨hle, hlt⟩)
    · exact ⟨past, x, hpre.trans (prefix_append _ _), hle, hlt⟩
    · exact ⟨ids, id, prefix_refl _, hle, hlt⟩

theorem Uncleared.lt (h : Uncleared ids b) : b < 2 ^ extent ids := by
  obtain ⟨past, id, hpre, -, hlt⟩ := h
  exact hlt.trans_le (Nat.pow_le_pow_right (by norm_num) (extent_mono hpre))

/-- The vector for the numbers `ids` so far, of which those in `set` are marked. -/
structure Holds (ids : List ℕ) (set : ℕ → Bool) (mems : List (ℤ → Byte)) (m : Memory) : Prop where
  size : m.size = 2 ^ extent ids
  exact : ∀ b < m.size, ¬ Uncleared ids b → ∀ k < 8, (m.byte b).getLsbD k = set (8 * b + k)
  left : ∀ b, Uncleared ids b → ∃ f ∈ mems, m.byte b = f b
  bounded : ∀ i, set i = true → i < 2 ^ extent ids

theorem lt_two_mul_pow (h : i < 2 ^ b) : i / 8 < 2 ^ b := (Nat.div_le_self _ _).trans_lt h

theorem toNat_pow (k : ℕ) : ((2 : ℤ) ^ k).toNat = 2 ^ k := by
  rw [show (2 : ℤ) ^ k = ((2 ^ k : ℕ) : ℤ) by push_cast; rfl, Int.toNat_natCast]

/-- **A growth** keeps the bits, clears the bytes up to twice the size, and leaves those behind. -/
theorem Holds.grow (h : Holds ids set mems m) (fresh : ℤ → Byte) (hid : 2 ^ extent ids ≤ id) :
    ∃ m', ReceivedBits.grow fresh m (2 ^ extent ids) (2 ^ id.size) = some m' ∧
      Holds (ids ++ [id]) set (mems ++ [fresh]) m' := by
  have hlt : extent ids < id.size := Nat.lt_size.mpr hid
  have hext : extent (ids ++ [id]) = id.size := by rw [extent_concat, max_eq_right hlt.le]
  have htwice : 2 ^ extent ids + 2 ^ extent ids ≤ 2 ^ id.size := by
    rw [← two_mul, ← pow_succ']
    exact Nat.pow_le_pow_right (by norm_num) hlt
  set n := 2 ^ extent ids with hn
  set old := (range n).map (fun i : ℕ => m.byte (0 + i)) with hold
  have hload : m.load 0 n = some old := if_pos ⟨le_rfl, by rw [h.size, zero_add]⟩
  have holdlen : old.length = n := by simp [hold]
  have hroom : old.length ≤ 2 ^ id.size := by omega
  obtain ⟨m₁, hstore₁, hhas₁, hframe₁⟩ := Memory.store_spec (m := ⟨2 ^ id.size, fresh⟩) (a := 0)
    (l := old) le_rfl (by rw [zero_add]; exact_mod_cast hroom)
  have hsize₁ : m₁.size = 2 ^ id.size := hframe₁.size
  have hzeros : (replicate n (0 : Byte)).length = n := length_replicate
  obtain ⟨m₂, hstore₂, hhas₂, hframe₂⟩ := Memory.store_spec (m := m₁) (a := n)
    (l := replicate n 0) (by omega) (by rw [hzeros, hsize₁]; omega)
  rw [hzeros] at hframe₂
  rw [holdlen, zero_add] at hframe₁
  have hgrow : ReceivedBits.grow fresh m (2 ^ extent ids) (2 ^ id.size) = some m₂ := by
    rw [ReceivedBits.grow, toNat_pow, toNat_pow, ← hn, hload, Option.bind_some, hstore₁, Option.bind_some,
      show (2 : ℤ) ^ extent ids = ((n : ℕ) : ℤ) by rw [hn]; push_cast; rfl, hstore₂]
  -- the three parts of the new vector
  have hlow : ∀ b < n, m₂.byte b = m.byte b := by
    intro b hb
    have hbyte := hhas₁.byte b (by rw [holdlen]; exact hb)
    rw [zero_add] at hbyte
    rw [hframe₂.byte b (.inl (by omega)), hbyte]
    simp [hold]
  have hmiddle : ∀ b, n ≤ b → b < n + n → m₂.byte b = 0 := by
    intro b hle hb
    have hbyte := hhas₂.byte (b - n) (by rw [hzeros]; omega)
    rw [getElem_replicate, show (n : ℤ) + (b - n : ℕ) = b by omega] at hbyte
    exact hbyte
  have hhigh : ∀ b, n + n ≤ b → m₂.byte b = fresh b := by
    intro b hb
    rw [hframe₂.byte b (.inr (by omega)), hframe₁.byte b (.inr (by omega))]
  have hsize₂ : m₂.size = 2 ^ id.size := hframe₂.size.trans hsize₁
  have hdouble : 2 ^ (extent ids + 1) = n + n := by rw [hn, pow_succ, mul_two]
  refine ⟨m₂, hgrow, ⟨by rw [hsize₂, hext], fun b hb hclear k hk => ?_, fun b hun => ?_, fun i hi => ?_⟩⟩
  · rw [uncleared_concat, not_or, hext, hdouble] at hclear
    by_cases hbn : b < n
    · rw [hlow b hbn]
      exact h.exact b (by rw [h.size]; exact hbn) hclear.1 k hk
    · rw [hmiddle b (not_lt.mp hbn) (by by_contra hge; exact hclear.2 ⟨by omega, hsize₂ ▸ hb⟩)]
      -- no number so far lies in the new bytes
      have hnot : set (8 * b + k) = false := by
        by_contra htrue
        have hlt := h.bounded _ (by simpa using htrue)
        omega
      rw [hnot]
      simp
  · rw [uncleared_concat, hext, hdouble] at hun
    rcases hun with hun | ⟨hle, -⟩
    · obtain ⟨f, hf, hbyte⟩ := h.left b hun
      exact ⟨f, mem_append_left _ hf, by rw [hlow b hun.lt, hbyte]⟩
    · exact ⟨fresh, by simp, hhigh b hle⟩
  · rw [hext]
    have hlt := h.bounded i hi
    omega

/-- The vector is large enough already. -/
theorem Holds.noGrow (h : Holds ids set mems m) (fresh : ℤ → Byte) (hid : id < 2 ^ extent ids) :
    Holds (ids ++ [id]) set (mems ++ [fresh]) m := by
  have hext : extent (ids ++ [id]) = extent ids := by rw [extent_concat, max_eq_left (Nat.size_le.mpr hid)]
  have hun : ∀ b, Uncleared (ids ++ [id]) b ↔ Uncleared ids b := by
    intro b
    rw [uncleared_concat, hext]
    refine or_iff_left (fun ⟨hle, hlt⟩ => ?_)
    rw [pow_succ] at hle
    omega
  refine ⟨by rw [hext, h.size], fun b hb hclear => h.exact b hb (mt (hun b).mpr hclear), fun b hb => ?_,
    fun i hi => by rw [hext]; exact h.bounded i hi⟩
  obtain ⟨f, hf, hbyte⟩ := h.left b ((hun b).mp hb)
  exact ⟨f, mem_append_left _ hf, hbyte⟩

/-- A bit is written. -/
theorem Holds.write {v : Bool} {c : Byte} (h : Holds ids set mems m) (hid : id < 2 ^ extent ids)
    (hclear : ¬ Uncleared ids (id / 8))
    (hc : ∀ k < 8, c.getLsbD k = if k = id % 8 then v else (m.byte (id / 8 : ℕ)).getLsbD k) :
    ∃ m', m.store (id / 8 : ℕ) [c] = some m' ∧ Holds ids (update set id v) mems m' := by
  have hlt : id / 8 < m.size := h.size ▸ lt_two_mul_pow hid
  obtain ⟨m', hstore, hhas, hframe⟩ := Memory.store_spec (m := m) (a := (id / 8 : ℕ)) (l := [c])
    (by omega) (by simp only [length_singleton]; omega)
  have hself : m'.byte (id / 8 : ℕ) = c := by simpa using hhas.byte 0 (by simp)
  have hother : ∀ b : ℕ, b ≠ id / 8 → m'.byte b = m.byte b := by
    intro b hb
    exact hframe.byte b (by simp only [length_singleton]; omega)
  refine ⟨m', hstore, ⟨hframe.size.trans h.size, fun b hb hcl k hk => ?_, fun b hun => ?_, fun i hi => ?_⟩⟩
  · rw [hframe.size] at hb
    have hold := h.exact b hb hcl k hk
    by_cases hbid : b = id / 8
    · subst hbid
      rw [hself, hc k hk, hold]
      by_cases hk' : k = id % 8
      · rw [if_pos hk', show 8 * (id / 8) + k = id by omega, update_self]
      · rw [if_neg hk', update_of_ne (by omega)]
    · rw [hother b hbid, hold, update_of_ne (by omega)]
  · have hne : b ≠ id / 8 := by
      rintro rfl
      exact hclear hun
    obtain ⟨f, hf, hbyte⟩ := h.left b hun
    exact ⟨f, hf, (hother b hne).trans hbyte⟩
  · by_cases hiid : i = id
    · rw [hiid]
      exact hid
    · rw [update_of_ne hiid] at hi
      exact h.bounded i hi

/-! ## Calls -/

/-- The vector is allocated, with at least 256 bytes. -/
structure Tracks (ids : List ℕ) (set : ℕ → Bool) (mems : List (ℤ → Byte)) (s : ReceivedBits) : Prop where
  recvmax : s.recvmax = 2 ^ extent ids
  received : ∃ m, s.received = some m ∧ Holds ids set mems m

theorem holds_zero : ∃ m', (⟨256, fresh⟩ : Memory).store 0 (replicate 256 0) = some m' ∧
    Holds [] (fun _ => false) [] m' := by
  obtain ⟨m', hstore, hhas, hframe⟩ := Memory.store_spec (m := ⟨256, fresh⟩) (a := 0)
    (l := replicate 256 0) le_rfl (by rw [length_replicate]; exact le_rfl)
  have hnone : ∀ b, ¬ Uncleared [] b := by
    rintro b ⟨past, id, hpre, -⟩
    simp at hpre
  refine ⟨m', hstore, ⟨hframe.size, fun b hb _ k _ => ?_, fun b hb => absurd hb (hnone b),
    fun i hi => by cases hi⟩⟩
  have hsize : m'.size = 256 := hframe.size
  have hbyte := hhas.byte b (by rw [length_replicate, ← hsize]; exact hb)
  rw [getElem_replicate, zero_add] at hbyte
  rw [hbyte]
  simp

def Before (ids : List ℕ) (set : ℕ → Bool) (mems : List (ℤ → Byte)) (s : ReceivedBits) : Prop :=
  s = .init ∧ ids = [] ∧ set = (fun _ => false) ∧ mems = [] ∨ Tracks ids set mems s

theorem Before.allocate (h : Before ids set mems s) (fresh : ℤ → Byte) :
    ∃ s', s.allocate fresh = some s' ∧ Tracks ids set mems s' ∧ s.recvmax ≤ s'.recvmax := by
  rcases h with ⟨rfl, rfl, rfl, rfl⟩ | h
  · obtain ⟨m, hstore, hholds⟩ := @holds_zero fresh
    refine ⟨⟨some m, 256⟩, ?_, ⟨rfl, m, rfl, hholds⟩, show (-1 : ℤ) ≤ 256 by decide⟩
    rw [ReceivedBits.allocate]
    dsimp only [ReceivedBits.init]
    rw [hstore]
    rfl
  · obtain ⟨m, hm, -⟩ := h.received
    exact ⟨s, by rw [ReceivedBits.allocate, hm], h, le_rfl⟩

/-- **`resize`**: the vector has a bit for the number. -/
theorem Before.resize (h : Before ids set mems s) (fresh : ℤ → Byte) (hid : id < 2 ^ 30)
    (hext : extent ids ≤ 30) :
    ∃ s', (if s.recvmax ≤ id then s.resize fresh id else some s) = some s' ∧
      Tracks (ids ++ [id]) set (mems ++ [fresh]) s' := by
  obtain ⟨s₁, halloc, htracks, hle⟩ := h.allocate fresh
  obtain ⟨m, hm, hholds⟩ := htracks.received
  by_cases hgrow : 2 ^ extent ids ≤ id
  · have hcast : s₁.recvmax ≤ id := by
      rw [htracks.recvmax]
      exact_mod_cast hgrow
    have hsize : max (extent ids) id.size = id.size := max_eq_right (Nat.lt_size.mpr hgrow).le
    have hdouble := double_spec (extent ids) rounds hext hid (by rw [rounds]; omega)
    obtain ⟨m', hm', hholds'⟩ := hholds.grow fresh hgrow
    rw [hsize] at hdouble
    refine ⟨⟨some m', 2 ^ id.size⟩, ?_, ⟨by rw [extent_concat, hsize], m', rfl, hholds'⟩⟩
    rw [if_pos (hle.trans hcast), ReceivedBits.resize, halloc, Option.bind_some, if_pos hcast, hm,
      Option.bind_some, htracks.recvmax, hdouble, Option.bind_some, hm']
    rfl
  · have hlt := not_le.mp hgrow
    have hnot : ¬ s₁.recvmax ≤ id := by
      rw [htracks.recvmax, not_le]
      exact_mod_cast hlt
    have htracks' : Tracks (ids ++ [id]) set (mems ++ [fresh]) s₁ := by
      refine ⟨?_, m, hm, hholds.noGrow fresh hlt⟩
      rw [htracks.recvmax, extent_concat, max_eq_left (Nat.size_le.mpr hlt)]
    by_cases hsmall : s.recvmax ≤ id
    · exact ⟨s₁, by rw [if_pos hsmall, ReceivedBits.resize, halloc, Option.bind_some, if_neg hnot], htracks'⟩
    · -- the vector was there already
      rcases h with ⟨rfl, -⟩ | h
      · exact absurd (show (-1 : ℤ) ≤ id by omega) hsmall
      · obtain ⟨m₀, hm₀, -⟩ := h.received
        rw [ReceivedBits.allocate, hm₀] at halloc
        cases halloc
        exact ⟨s, by rw [if_neg hsmall], htracks'⟩

theorem Tracks.byteAt (h : Tracks ids set mems s) (hid : id < 2 ^ extent ids) :
    ∃ m, s.received = some m ∧ Holds ids set mems m ∧ s.byteAt id = some (m.byte (id / 8 : ℕ)) := by
  obtain ⟨m, hm, hholds⟩ := h.received
  have hlt : id / 8 < m.size := hholds.size ▸ lt_two_mul_pow hid
  refine ⟨m, hm, hholds, ?_⟩
  rw [ReceivedBits.byteAt, hm, Option.bind_some, Memory.load, if_pos (by omega), Option.bind_some]
  simp

theorem getLsbD_bit (id : ℕ) {k : ℕ} (hk : k < 8) :
    (ReceivedBits.bit id).getLsbD k = decide (k = id % 8) := by
  have hall : ∀ n < 8, ∀ k < 8, ((1 : Byte) <<< n).getLsbD k = decide (k = n) := by decide
  exact hall _ (Nat.mod_lt _ (by norm_num)) k hk

theorem and_bit_ne_zero (c : Byte) (id : ℕ) :
    c &&& ReceivedBits.bit id ≠ 0 ↔ c.getLsbD (id % 8) = true := by
  have hlt : id % 8 < 8 := Nat.mod_lt _ (by norm_num)
  constructor
  · intro hne
    by_contra hclear
    refine hne (BitVec.eq_of_getLsbD_eq (fun k hk => ?_))
    rw [BitVec.getLsbD_and, getLsbD_bit id hk]
    by_cases hkid : k = id % 8
    · simp [hkid, Bool.eq_false_iff.mpr hclear]
    · simp [hkid]
  · intro hset hzero
    have hbit := congrArg (BitVec.getLsbD · (id % 8)) hzero
    simp [getLsbD_bit id hlt, hset] at hbit

/-- `id` is marked in its byte when the call is over. -/
theorem written (op : BitOp) (hop : op ≠ .ifReceived) (c : Byte) (id : ℕ) : ∀ k < 8,
    (if op = .setReceived then c ||| ReceivedBits.bit id else c &&& ~~~ ReceivedBits.bit id).getLsbD k =
      if k = id % 8 then decide (op = .setReceived) else c.getLsbD k := by
  intro k hk
  cases op with
  | ifReceived => exact absurd rfl hop
  | setReceived =>
    rw [if_pos rfl, BitVec.getLsbD_or, getLsbD_bit id hk]
    by_cases hkid : k = id % 8 <;> simp [hkid]
  | resetReceived =>
    rw [if_neg (by decide), BitVec.getLsbD_and, BitVec.getLsbD_not, getLsbD_bit id hk]
    by_cases hkid : k = id % 8 <;> simp [hkid, hk]

/-- The numbers, marks and memories of the calls so far. -/
def Reached (past : List Call) (s : ReceivedBits) : Prop :=
  Before (past.map (·.id)) (marked (past.map Call.request)) (past.map (·.fresh)) s

theorem marked_concat (past : List (BitOp × ℕ)) (r : BitOp × ℕ) :
    marked (past ++ [r]) = r.1.mark (marked past) r.2 := by
  rw [marked, foldl_append]
  rfl

theorem lt_extent_concat (ids : List ℕ) (id : ℕ) : id < 2 ^ extent (ids ++ [id]) := by
  rw [extent_concat]
  exact Nat.size_le.mp (le_max_right _ _)

/-- **One call** looks at the byte of its number, and reports its bit. -/
theorem Reached.look {past : List Call} (h : Reached past s) (c : Call) (hid : c.id < 2 ^ 30)
    (hext : extent (past.map (·.id)) ≤ 30) :
    ∃ s₁ m, s.ifReceived c.fresh c.id = some (s₁, m.byte (c.id / 8 : ℕ) &&& ReceivedBits.bit c.id) ∧
      s₁.received = some m ∧ s₁.byteAt c.id = some (m.byte (c.id / 8 : ℕ)) ∧
      Tracks ((past ++ [c]).map (·.id)) (marked (past.map Call.request)) ((past ++ [c]).map (·.fresh)) s₁ ∧
      Holds ((past ++ [c]).map (·.id)) (marked (past.map Call.request)) ((past ++ [c]).map (·.fresh)) m := by
  obtain ⟨s₁, hresize, htracks⟩ := Before.resize h c.fresh hid hext
  obtain ⟨m, hm, hholds, hbyte⟩ := htracks.byteAt (lt_extent_concat _ c.id)
  refine ⟨s₁, m, ?_, hm, hbyte, by simpa using htracks, by simpa using hholds⟩
  rw [ReceivedBits.ifReceived, hresize, Option.bind_some, hbyte]
  rfl

/-- **A call in a cleared byte** is exact. -/
theorem Reached.step {past : List Call} (h : Reached past s) (c : Call) (hid : c.id < 2 ^ 30)
    (hext : extent (past.map (·.id)) ≤ 30) (hclear : ¬ Uncleared ((past ++ [c]).map (·.id)) (c.id / 8)) :
    ∃ s' o, s.step c = some (s', o) ∧ Reached (past ++ [c]) s' ∧
      (o ≠ 0 ↔ marked (past.map Call.request) c.id = true) := by
  obtain ⟨s₁, m, hlook, hm, hbyte, htracks, hholds⟩ := h.look c hid hext
  have hlt : c.id < 2 ^ extent ((past ++ [c]).map (·.id)) := by
    rw [map_append]
    exact lt_extent_concat _ _
  have hreport : m.byte (c.id / 8 : ℕ) &&& ReceivedBits.bit c.id ≠ 0 ↔
      marked (past.map Call.request) c.id = true := by
    rw [and_bit_ne_zero, hholds.exact _ (hholds.size ▸ lt_two_mul_pow hlt) hclear _ (Nat.mod_lt _ (by norm_num)),
      Nat.div_add_mod]
  have hmarked : marked ((past ++ [c]).map Call.request) =
      c.op.mark (marked (past.map Call.request)) c.id := by
    rw [map_append]
    exact marked_concat _ _
  have hwrite : ∀ op, op ≠ BitOp.ifReceived → ∃ s', s₁.writeAt c.id (if op = .setReceived then
      m.byte (c.id / 8 : ℕ) ||| ReceivedBits.bit c.id else
        m.byte (c.id / 8 : ℕ) &&& ~~~ ReceivedBits.bit c.id) = some s' ∧
      Tracks ((past ++ [c]).map (·.id)) (update (marked (past.map Call.request)) c.id (op = .setReceived))
        ((past ++ [c]).map (·.fresh)) s' := by
    intro op hop
    obtain ⟨m', hstore, hholds'⟩ := hholds.write hlt hclear (written op hop _ c.id)
    refine ⟨{ s₁ with received := some m' }, ?_, htracks.recvmax, m', rfl, hholds'⟩
    rw [ReceivedBits.writeAt, hm, Option.bind_some, hstore]
    rfl
  unfold Reached ReceivedBits.step
  rw [hmarked]
  cases c.op with
  | ifReceived => exact ⟨s₁, _, hlook, .inr htracks, hreport⟩
  | setReceived =>
    obtain ⟨s', hs', htracks'⟩ := hwrite .setReceived (by decide)
    refine ⟨s', _, ?_, .inr htracks', hreport⟩
    dsimp only
    rw [ReceivedBits.setReceived, hlook, Option.bind_some, hbyte, Option.bind_some]
    exact congrArg (Option.map (·, _)) hs'
  | resetReceived =>
    obtain ⟨s', hs', htracks'⟩ := hwrite .resetReceived (by decide)
    refine ⟨s', _, ?_, .inr htracks', hreport⟩
    dsimp only
    rw [ReceivedBits.resetReceived, hlook, Option.bind_some, hbyte, Option.bind_some]
    exact congrArg (Option.map (·, _)) hs'

/-! ## Runs -/

theorem reached_nil : Reached [] .init := .inl ⟨rfl, rfl, rfl, rfl⟩

theorem extent_le (h : ∀ id ∈ ids, id < 2 ^ 30) : extent ids ≤ 30 := by
  induction ids using List.reverseRecOn with
  | nil => decide
  | append_singleton ids id ih =>
    rw [extent_concat]
    exact max_le (ih (fun x hx => h x (mem_append_left _ hx))) (Nat.size_le.mpr (h id (by simp)))

theorem Clean.prefix {ids' : List ℕ} (h : Clean ids') (hpre : ids <+: ids') : Clean ids :=
  fun past id hp => h past id (hp.trans hpre)

theorem Clean.lt (h : Clean ids) : ∀ id ∈ ids, id < 2 ^ 30 := by
  intro id hid
  obtain ⟨past, rest, rfl⟩ := append_of_mem hid
  exact (h past id ⟨rest, by simp⟩).1

/-- A clean run ends in a state that knows what is marked. -/
theorem run_reached {past : List Call} (h : Clean (past.map (·.id))) :
    ∃ s outs, Runs.run ReceivedBits.step .init past = some (s, outs) ∧ Reached past s := by
  induction past using List.reverseRecOn with
  | nil => exact ⟨_, _, rfl, reached_nil⟩
  | append_singleton past c ih =>
    have hsplit : (past ++ [c]).map (·.id) = past.map (·.id) ++ [c.id] := by simp
    have hpast : Clean (past.map (·.id)) := h.prefix ⟨[c.id], hsplit.symm⟩
    obtain ⟨s, outs, hrun, hreached⟩ := ih hpast
    obtain ⟨hid, hclear⟩ := h (past.map (·.id)) c.id ⟨[], by rw [hsplit, append_nil]⟩
    obtain ⟨s', o, hs, hreached', -⟩ := hreached.step c hid (extent_le hpast.lt) (hsplit ▸ hclear)
    exact ⟨s', _, Runs.run_concat hrun hs, hreached'⟩

theorem Clean.exact {calls : List Call} (h : Clean (calls.map (·.id))) : Exact calls := by
  intro past c hpre
  have hsplit : (past ++ [c]).map (·.id) = past.map (·.id) ++ [c.id] := by simp
  have hmap := hpre.map (·.id)
  have hpast : Clean (past.map (·.id)) := h.prefix (((prefix_append past [c]).map (·.id)).trans hmap)
  obtain ⟨s, outs, hrun, hreached⟩ := run_reached hpast
  obtain ⟨hid, hclear⟩ := h (past.map (·.id)) c.id (hsplit ▸ hmap)
  obtain ⟨s', o, hs, -, hreport⟩ := hreached.step c hid (extent_le hpast.lt) (hsplit ▸ hclear)
  exact ⟨s, outs, s', o, hrun, hs, hreport⟩

theorem marked_of_not_mem {past : List (BitOp × ℕ)} (h : id ∉ past.map (·.2)) : marked past id = false := by
  induction past using List.reverseRecOn with
  | nil => rfl
  | append_singleton past r ih =>
    rw [map_append, mem_append, not_or] at h
    have hne : id ≠ r.2 := by simpa using h.2
    rw [marked_concat]
    cases r.1 with
    | ifReceived => exact ih h.1
    | setReceived => rw [BitOp.mark, update_of_ne hne, ih h.1]
    | resetReceived => rw [BitOp.mark, update_of_ne hne, ih h.1]

/-- A number that was looked at in a clean run lies in a cleared byte for good. -/
theorem Clean.cleared (h : Clean ids) (hid : id ∈ ids) {ids' : List ℕ} (hpre : ids <+: ids') :
    ¬ Uncleared ids' (id / 8) := by
  obtain ⟨past, rest, rfl⟩ := append_of_mem hid
  have hfirst : past ++ [id] <+: ids' := IsPrefix.trans ⟨rest, by simp⟩ hpre
  rintro ⟨q, x, hq, hle, hlt⟩
  have hq' : q <+: ids' := (prefix_append q [x]).trans hq
  rcases prefix_or_prefix_of_prefix hq hfirst with hbefore | hbehind
  · exact (h past id ⟨rest, by simp⟩).2 ⟨q, x, hbefore, hle, hlt⟩
  · -- a later growth does not reach so low
    rcases prefix_concat_iff.mp hbehind with heq | hbehind
    · exact (h past id ⟨rest, by simp⟩).2 ⟨q, x, by rw [heq], hle, hlt⟩
    · have hpow : 2 ^ extent (past ++ [id]) ≤ 2 ^ extent q :=
        Nat.pow_le_pow_right (by norm_num) (extent_mono hbehind)
      have hid := lt_two_mul_pow (lt_extent_concat past id)
      rw [pow_succ] at hle
      omega

theorem Before.ifReceived_none (h : Before ids set mems s) (fresh : ℤ → Byte) (hid : 2 ^ 30 ≤ id)
    (hext : extent ids ≤ 30) : s.ifReceived fresh id = none := by
  obtain ⟨s₁, halloc, htracks, hle⟩ := h.allocate fresh
  obtain ⟨m, hm, -⟩ := htracks.received
  have hpow : 2 ^ extent ids ≤ 2 ^ 30 := Nat.pow_le_pow_right (by norm_num) hext
  have hcast : s₁.recvmax ≤ id := by
    rw [htracks.recvmax]
    exact_mod_cast hpow.trans hid
  rw [ReceivedBits.ifReceived, if_pos (hle.trans hcast), ReceivedBits.resize, halloc, Option.bind_some,
    if_pos hcast, hm, Option.bind_some, htracks.recvmax, double_none _ rounds hext hid]
  rfl

/-- Every call reports what `ifReceived` reports. -/
theorem step_report {c : Call} {o : Byte} (hs : s.step c = some (s', o)) :
    ∃ s₁, s.ifReceived c.fresh c.id = some (s₁, o) := by
  unfold ReceivedBits.step at hs
  cases hop : c.op with
  | ifReceived =>
    rw [hop] at hs
    exact ⟨s', hs⟩
  | setReceived =>
    rw [hop] at hs
    obtain ⟨r, hr, hs⟩ := Option.bind_eq_some_iff.mp hs
    obtain ⟨b, -, hs⟩ := Option.bind_eq_some_iff.mp hs
    obtain ⟨s₂, -, heq⟩ := Option.map_eq_some_iff.mp hs
    cases heq
    exact ⟨r.1, hr⟩
  | resetReceived =>
    rw [hop] at hs
    obtain ⟨r, hr, hs⟩ := Option.bind_eq_some_iff.mp hs
    obtain ⟨b, -, hs⟩ := Option.bind_eq_some_iff.mp hs
    obtain ⟨s₂, -, heq⟩ := Option.map_eq_some_iff.mp hs
    cases heq
    exact ⟨r.1, hr⟩

/-- Where memory holds ones, an exact call lies in a cleared byte. -/
theorem Reached.clean_of_exact {past : List Call} {c : Call} {o : Byte} (h : Reached past s)
    (hclean : Clean (past.map (·.id))) (hones : ∀ f ∈ (past ++ [c]).map (·.fresh), ∀ x, f x = 255)
    (hs : s.step c = some (s', o)) (hreport : o ≠ 0 ↔ marked (past.map Call.request) c.id = true) :
    c.id < 2 ^ 30 ∧ ¬ Uncleared ((past ++ [c]).map (·.id)) (c.id / 8) := by
  have hext := extent_le hclean.lt
  obtain ⟨s₁, hlook⟩ := step_report hs
  have hid : c.id < 2 ^ 30 := by
    by_contra hge
    rw [Before.ifReceived_none h c.fresh (not_lt.mp hge) hext] at hlook
    cases hlook
  refine ⟨hid, fun hun => ?_⟩
  obtain ⟨s₂, m, hlook', -, -, -, hholds⟩ := h.look c hid hext
  rw [hlook'] at hlook
  cases hlook
  obtain ⟨f, hf, hbyte⟩ := hholds.left _ hun
  have hset : m.byte (c.id / 8 : ℕ) &&& ReceivedBits.bit c.id ≠ 0 := by
    have hlt : c.id % 8 < 8 := Nat.mod_lt _ (by norm_num)
    have hall : ∀ k < 8, (255 : Byte).getLsbD k = true := by decide
    rw [and_bit_ne_zero, hbyte, hones f hf]
    exact hall _ hlt
  have hnew : c.id ∉ past.map (·.id) := by
    intro hmem
    exact hclean.cleared hmem (by rw [map_append]; exact prefix_append _ _) hun
  have hunmarked : marked (past.map Call.request) c.id = false := by
    refine marked_of_not_mem ?_
    rw [map_map]
    exact hnew
  rw [hreport.mp hset] at hunmarked
  cases hunmarked

/-- **The bit vector is exact**, whatever memory holds, for the calls with numbers below `2 ^ 30` in cleared
bytes, and only for them. -/
theorem bit_vector_exact_iff (requests : List (BitOp × ℕ)) :
    (∀ calls : List Call, calls.map Call.request = requests → Exact calls) ↔ Clean (requests.map (·.2)) := by
  have hids : ∀ calls : List Call, (calls.map Call.request).map (·.2) = calls.map (·.id) := by
    intro calls
    rw [map_map]
    rfl
  constructor
  · intro hall
    -- memory that holds ones everywhere
    let ones : BitOp × ℕ → Call := fun r => ⟨r.1, r.2, fun _ => 255⟩
    have hback : ∀ l : List (BitOp × ℕ), (l.map ones).map Call.request = l := fun l => by
      rw [map_map]
      exact map_id l
    have hexact := hall _ (hback requests)
    clear hall
    induction requests using List.reverseRecOn with
    | nil =>
      intro past id hpre
      simp at hpre
    | append_singleton past r ih =>
      rw [map_append] at hexact
      have hclean : Clean (past.map (·.2)) :=
        ih (fun past' c hpre => hexact past' c (hpre.trans (prefix_append _ _)))
      obtain ⟨s, outs, s', o, hrun, hs, hreport⟩ := hexact (past.map ones) (ones r) (prefix_refl _)
      have hpast : (past.map ones).map (·.id) = past.map (·.2) := by rw [← hids, hback]
      obtain ⟨s₀, outs₀, hrun₀, hreached⟩ := @run_reached (past.map ones) (hpast ▸ hclean)
      rw [hrun] at hrun₀
      cases hrun₀
      have hext : extent ((past.map ones).map (·.id)) ≤ 30 := extent_le (hpast ▸ hclean.lt)
      intro past' id hpre
      rw [map_append] at hpre
      rcases prefix_concat_iff.mp hpre with heq | hpre
      · obtain ⟨rfl, hid⟩ := append_inj' heq rfl
        cases hid
        have hones : ∀ f ∈ (past.map ones ++ [ones r]).map (·.fresh), ∀ x, f x = 255 := by
          intro f hf x
          obtain ⟨c, hc, rfl⟩ := mem_map.mp hf
          rcases mem_append.mp hc with hc | hc
          · obtain ⟨r', -, rfl⟩ := mem_map.mp hc
            rfl
          · rw [mem_singleton.mp hc]
        have honly := hreached.clean_of_exact (hpast ▸ hclean) hones hs hreport
        rw [map_append, hpast] at honly
        exact honly
      · exact hclean past' id hpre
  · rintro hclean calls rfl
    exact Clean.exact (hids calls ▸ hclean)

/-- **Garbage is reported**: the first question is about message 4096, whose byte is not cleared. -/
theorem garbage_reported : ¬ ∀ calls : List Call, calls.map Call.request = [(.ifReceived, 4096)] →
    Exact calls := by
  intro hall
  obtain ⟨s, outs, s', o, hrun, hs, hreport⟩ := hall [⟨.ifReceived, 4096, fun _ => 255⟩] rfl [] _ (prefix_refl _)
  cases hrun
  have honly := reached_nil.clean_of_exact (fun past id hpre => by simp at hpre) (by simp) hs hreport
  exact honly.2 ⟨[], 4096, prefix_refl _, by decide, by decide⟩

end NetSim.Srm
