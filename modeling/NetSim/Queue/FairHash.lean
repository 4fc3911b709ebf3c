import NetSim.Queue.Drr

/-! # The buckets of the fair queues

Both fair queues take the remainder of a hash as the index of a bucket. The hash of `SFQ` starts from the
sum of the addresses, that of `DRR` from the source address, and where these are not positive the remainder
is not positive either: the index is in range only if it happens to be 0 (`Sfq.index_inRange_iff`,
`Drr.index_inRange_iff`).

`clear` looks at every bucket before the array is freed. The loop of `DRR` counts down; that of `SFQ` does
not, and leaves the array (`Sfq.cleared_iff`).
-/

namespace NetSim

/-- `DRR` with its array of buckets, which is null or has a number of buckets. -/
structure DrrArray extends Drr where
  allocated : Option ℕ

namespace DrrArray

/-- `DRR::clear`. It gives the queue afterwards with the buckets that were looked at. -/
def clear (s : DrrArray) (fuel : ℕ) : Option (Except ClearStop (DrrArray × List ℕ)) :=
  match s.allocated with
  | none => some (.ok (s, []))
  | some size =>
    (clearLoop (fun q => (s.drr q).pkts) size (fun i => i - 1) fuel s.buckets 0 []).map
      (fun r => r.map (fun seen => ({ s with allocated := none }, seen)))

/-- The array has all buckets, and they are empty. -/
structure Vacant (s : DrrArray) : Prop where
  size : ∀ size, s.allocated = some size → size = s.buckets
  pkts : ∀ q, (s.drr q).pkts = 0

/-- `clear` ends after it has looked at each bucket of the array once, and the array is allocated again by
the next arrival. -/
def Cleared (s : DrrArray) : Prop :=
  ∃ fuel, s.clear fuel = some (.ok ({ s with allocated := none }, List.range (s.allocated.getD 0)))

end DrrArray

namespace Sfq

/-- The array has all buckets, and they are empty. -/
structure Vacant (s : Sfq) : Prop where
  size : ∀ size, s.allocated = some size → size = s.buckets
  pkts : ∀ q, (s.bucket q).pkts = 0

/-- `clear` ends after it has looked at each bucket of the array once, and the array is allocated again by
the next arrival or departure. -/
def Cleared (s : Sfq) : Prop :=
  ∃ fuel, s.clear fuel = some (.ok ({ s with allocated := none }, List.range (s.allocated.getD 0)))

end Sfq

/-! ## The hash -/

theorem not_eq_ofInt (y : BitVec 32) : ~~~y = BitVec.ofInt 32 (-y.toInt - 1) := by
  apply BitVec.eq_of_toInt_eq
  rw [BitVec.toInt_not, BitVec.toInt_ofInt, BitVec.toInt_eq_toNat_bmod y]
  have hlt := BitVec.isLt (x := y)
  simp only [Int.bmod_def]
  omega

theorem mixAddress_eq (k : BitVec 32) :
    mixAddress k = k.toInt + k.toInt / 256 - k.toInt / 16 - 1 := by
  have hlow := BitVec.le_toInt k
  have hhigh := BitVec.toInt_lt (x := k)
  have h8 : k.sshiftRight 8 = BitVec.ofInt 32 (k.toInt / 256) := by
    rw [← BitVec.ofInt_toInt (x := k.sshiftRight 8), BitVec.toInt_sshiftRight,
      Int.shiftRight_eq_div_pow]
    rfl
  have h4 : (k.sshiftRight 4).toInt = k.toInt / 16 := by
    rw [BitVec.toInt_sshiftRight, Int.shiftRight_eq_div_pow]
    rfl
  unfold mixAddress
  rw [not_eq_ofInt, h4, h8]
  nth_rewrite 1 [← BitVec.ofInt_toInt (x := k)]
  rw [← BitVec.ofInt_add, ← BitVec.ofInt_add, BitVec.toInt_ofInt, Int.bmod_def]
  omega

theorem mixAddress_nonneg {k : BitVec 32} (h : 1 ≤ k.toInt) : 0 ≤ mixAddress k := by
  rw [mixAddress_eq]
  omega

theorem mixAddress_neg {k : BitVec 32} (h : k.toInt ≤ 0) : mixAddress k < 0 := by
  rw [mixAddress_eq]
  omega

/-- What a sum `k` that is not positive is hashed to, but for the sign, before the remainder. -/
def negatedMix (k : ℤ) : ℤ := -k - k / 256 + k / 16 + 1

theorem mixAddress_eq_neg (k : BitVec 32) : mixAddress k = -negatedMix k.toInt := by
  rw [mixAddress_eq]
  unfold negatedMix
  ring

theorem inRange_tmod {buckets : ℕ} {a : ℤ} (hb : 1 ≤ buckets) (ha : 0 ≤ a) :
    InRange buckets (a.tmod buckets) := by
  have hpos : (0 : ℤ) < buckets := by exact_mod_cast hb
  exact ⟨Int.tmod_nonneg _ ha, Int.tmod_lt_of_pos a hpos⟩

theorem inRange_tmod_neg {buckets : ℕ} {a : ℤ} (hb : 1 ≤ buckets) (ha : 0 ≤ a) :
    InRange buckets ((-a).tmod buckets) ↔ (buckets : ℤ) ∣ a := by
  have hpos : (0 : ℤ) < buckets := by exact_mod_cast hb
  have hmod : 0 ≤ a.tmod buckets := Int.tmod_nonneg _ ha
  rw [Int.neg_tmod, Int.dvd_iff_tmod_eq_zero]
  unfold InRange
  constructor
  · intro h
    omega
  · intro h
    rw [h]
    omega

/-- **The index of `SFQ`** is in range if the sum of the addresses is positive, and else only if the
buckets divide what is left of it. -/
theorem Sfq.index_inRange_iff (s : Sfq) (pkt : SfqPacket) (hb : 1 ≤ s.buckets) :
    InRange s.buckets (s.index pkt) ↔
      1 ≤ (pkt.saddr + pkt.daddr).toInt ∨
        (s.buckets : ℤ) ∣ negatedMix (pkt.saddr + pkt.daddr).toInt % (2 ^ 20 - 1) := by
  have hprime : (2 : ℤ) <<< 19 - 1 = 2 ^ 20 - 1 := by decide
  unfold Sfq.index Sfq.hash
  rw [hprime]
  by_cases h : 1 ≤ (pkt.saddr + pkt.daddr).toInt
  · have hmix := Int.tmod_nonneg (2 ^ 20 - 1) (mixAddress_nonneg h)
    exact iff_of_true (inRange_tmod hb hmix) (Or.inl h)
  · rw [or_iff_right h]
    have hneg : 0 ≤ negatedMix (pkt.saddr + pkt.daddr).toInt := by
      have hmix := mixAddress_neg (not_lt.mp h)
      rw [mixAddress_eq_neg] at hmix
      omega
    rw [mixAddress_eq_neg, Int.neg_tmod, inRange_tmod_neg hb (Int.tmod_nonneg _ hneg),
      Int.tmod_eq_emod_of_nonneg hneg]

theorem hashed_mask (saddr : BitVec 32) : 0 ≤ (Drr.hashed true saddr).toInt := by
  have hle : (saddr &&& 0xfff0).toNat ≤ 0xfff0 := by
    rw [BitVec.toNat_and]
    exact Nat.and_le_right
  show 0 ≤ (saddr &&& 0xfff0).toInt
  rw [BitVec.toInt_eq_toNat_of_lt (by omega)]
  exact Int.natCast_nonneg _

/-- **The index of `DRR`** is in range if the address is not negative, as it is with a mask, and else only if
what is left of it is 0, or more by 1 than a multiple of the buckets. -/
theorem Drr.index_inRange_iff (s : Drr) (saddr : BitVec 32) (hb : 1 ≤ s.buckets) :
    InRange s.buckets (s.index saddr) ↔
      s.mask = true ∨ 0 ≤ saddr.toInt ∨ negatedMix saddr.toInt % (2 ^ 24 - 1) = 0 ∨
        (s.buckets : ℤ) ∣ negatedMix saddr.toInt % (2 ^ 24 - 1) - 1 := by
  have hprime : (2 : ℤ) <<< 23 - 1 = 2 ^ 24 - 1 := by decide
  -- an address from 0 on has a hash from 0 on
  have hnonneg : ∀ k : BitVec 32, 0 ≤ k.toInt → 0 ≤ (mixAddress k).tmod (2 ^ 24 - 1) + 1 := by
    intro k hk
    by_cases h : 1 ≤ k.toInt
    · have := Int.tmod_nonneg (2 ^ 24 - 1) (mixAddress_nonneg h)
      omega
    · have hzero : k.toInt = 0 := by omega
      rw [mixAddress_eq, hzero]
      decide
  unfold Drr.index Drr.hash
  rw [hprime]
  by_cases hmask : s.mask = true
  · rw [hmask]
    exact iff_of_true (inRange_tmod hb (hnonneg _ (hashed_mask saddr))) (Or.inl rfl)
  · rw [or_iff_right hmask, show hashed s.mask saddr = saddr from if_neg hmask]
    by_cases h : 0 ≤ saddr.toInt
    · exact iff_of_true (inRange_tmod hb (hnonneg _ h)) (Or.inl h)
    · rw [or_iff_right h]
      have hneg : 0 ≤ negatedMix saddr.toInt := by
        have hmix := mixAddress_neg (k := saddr) (by omega)
        rw [mixAddress_eq_neg] at hmix
        omega
      rw [mixAddress_eq_neg, Int.neg_tmod, Int.tmod_eq_emod_of_nonneg hneg]
      have hrest := Int.emod_nonneg (negatedMix saddr.toInt) (show (2 ^ 24 - 1 : ℤ) ≠ 0 by decide)
      by_cases hzero : negatedMix saddr.toInt % (2 ^ 24 - 1) = 0
      · rw [hzero]
        exact iff_of_true (inRange_tmod hb (by decide)) (Or.inl rfl)
      · rw [or_iff_right hzero, ← inRange_tmod_neg hb (by omega)]
        rw [show -(negatedMix saddr.toInt % (2 ^ 24 - 1)) + 1 =
          -(negatedMix saddr.toInt % (2 ^ 24 - 1) - 1) by ring]

/-! ## The loops of `clear` -/

theorem clearLoop_down {pkts : ℕ → ℕ} {size : ℕ} (hpkts : ∀ q, pkts q = 0) (i q : ℕ)
    (hsize : q + i = size) (seen : List ℕ) :
    clearLoop pkts size (fun i => i - 1) (i + 1) i q seen = some (.ok (seen ++ List.range' q i)) := by
  induction i generalizing q seen with
  | zero => simp [clearLoop]
  | succ i ih =>
    have hlt : ¬ size ≤ q := by omega
    have hempty : ¬ pkts q ≠ 0 := not_not.mpr (hpkts q)
    have hrest := ih (q + 1) (by omega) (seen ++ [q])
    unfold clearLoop
    rw [if_neg (Nat.succ_ne_zero i), if_neg hlt, if_neg hempty]
    rw [show i + 1 - 1 = i from rfl, hrest, List.append_assoc, List.range'_succ]
    rfl

theorem clearLoop_id {pkts : ℕ → ℕ} {size : ℕ} {i : ℕ} (hi : i ≠ 0) (fuel q : ℕ) (seen seen' : List ℕ) :
    clearLoop pkts size id fuel i q seen ≠ some (.ok seen') := by
  induction fuel generalizing q seen with
  | zero => simp [clearLoop]
  | succ fuel ih =>
    unfold clearLoop
    rw [if_neg hi]
    split_ifs
    · simp
    · simp
    · exact ih (q + 1) (seen ++ [q])

theorem DrrArray.clear_none {s : DrrArray} (h : s.allocated = none) (fuel : ℕ) :
    s.clear fuel = some (.ok ({ s with allocated := none }, [])) := by
  cases s with
  | mk drr allocated =>
    have hnone : allocated = none := h
    rw [hnone]
    rfl

theorem Sfq.clear_none {s : Sfq} (h : s.allocated = none) (fuel : ℕ) :
    s.clear fuel = some (.ok ({ s with allocated := none }, [])) := by
  cases s with
  | mk maxqueue buckets allocated bucket active occupied fairshare prev next =>
    have hnone : allocated = none := h
    rw [hnone]
    rfl

theorem DrrArray.cleared (s : DrrArray) (h : s.Vacant) : s.Cleared := by
  unfold DrrArray.Cleared
  cases hsize : s.allocated with
  | none => exact ⟨0, DrrArray.clear_none hsize 0⟩
  | some size =>
    have heq := h.size size hsize
    refine ⟨s.buckets + 1, ?_⟩
    unfold DrrArray.clear
    rw [hsize]
    dsimp only
    rw [clearLoop_down h.pkts s.buckets 0 (by omega), ← heq, List.nil_append, ← List.range_eq_range']
    rfl

theorem Sfq.cleared_iff (s : Sfq) (hb : 1 ≤ s.buckets) : s.Cleared ↔ s.allocated = none := by
  unfold Sfq.Cleared
  cases hsize : s.allocated with
  | none => exact iff_of_true ⟨0, Sfq.clear_none hsize 0⟩ rfl
  | some size =>
    refine iff_of_false ?_ (by simp)
    rintro ⟨fuel, hrun⟩
    unfold Sfq.clear at hrun
    rw [hsize] at hrun
    obtain ⟨r, hloop, hr⟩ := Option.map_eq_some_iff.mp hrun
    cases r with
    | error stop => cases hr
    | ok seen => exact clearLoop_id (by omega) fuel 0 [] seen hloop

/-- **Bucket accesses of the fair queues** stay in bounds exactly for these addresses, and only where `SFQ`
has no buckets yet do both queues clear theirs. -/
theorem fair_bucket_accesses_iff (s : Sfq) (d : DrrArray) (pkt : SfqPacket) (saddr : BitVec 32)
    (hs : 1 ≤ s.buckets) (hd : 1 ≤ d.buckets) (hvacant : d.Vacant) :
    (InRange s.buckets (s.index pkt) ∧ InRange d.buckets (d.index saddr) ∧ s.Cleared ∧ d.Cleared) ↔
      (1 ≤ (pkt.saddr + pkt.daddr).toInt ∨
        (s.buckets : ℤ) ∣ negatedMix (pkt.saddr + pkt.daddr).toInt % (2 ^ 20 - 1)) ∧
      (d.mask = true ∨ 0 ≤ saddr.toInt ∨ negatedMix saddr.toInt % (2 ^ 24 - 1) = 0 ∨
        (d.buckets : ℤ) ∣ negatedMix saddr.toInt % (2 ^ 24 - 1) - 1) ∧
      s.allocated = none := by
  rw [s.index_inRange_iff pkt hs, d.index_inRange_iff saddr hd, s.cleared_iff hs]
  rw [and_iff_left (d.cleared hvacant)]

/-- Queues as they are created, and addresses in use. -/
theorem fair_bucket_accesses_new :
    (InRange 16 ((Sfq.init 40 16).index ⟨1, 2⟩) ∧
        InRange 16 ((Drr.init 16 25000 250 false).index 1) ∧ (Sfq.init 40 16).Cleared ∧
        DrrArray.Cleared ⟨Drr.init 16 25000 250 false, some 16⟩) ↔
      (1 ≤ ((1 : BitVec 32) + 2).toInt ∨ (16 : ℤ) ∣ negatedMix ((1 : BitVec 32) + 2).toInt % (2 ^ 20 - 1)) ∧
      (false = true ∨ 0 ≤ (1 : BitVec 32).toInt ∨ negatedMix (1 : BitVec 32).toInt % (2 ^ 24 - 1) = 0 ∨
        (16 : ℤ) ∣ negatedMix (1 : BitVec 32).toInt % (2 ^ 24 - 1) - 1) ∧
      (none : Option ℕ) = none :=
  fair_bucket_accesses_iff (Sfq.init 40 16) ⟨Drr.init 16 25000 250 false, some 16⟩ ⟨1, 2⟩ 1
    (by decide) (by decide) ⟨fun _ h => (Option.some.inj h).symm, fun _ => rfl⟩

/-- Two addresses 0 give bucket -1 of `SFQ`, the address `0x80000000` gives bucket -8 of `DRR`, and `SFQ`
does not clear the 16 buckets that it has allocated. -/
theorem addresses_out_of_range :
    ¬ InRange 16 ((Sfq.init 40 16).index ⟨0, 0⟩) ∧
      ¬ InRange 16 ((Drr.init 16 25000 250 false).index 0x80000000) ∧
      ¬ Sfq.Cleared { Sfq.init 40 16 with allocated := some 16 } := by
  refine ⟨by decide, by decide, fun hcleared => ?_⟩
  have hnone := (Sfq.cleared_iff { Sfq.init 40 16 with allocated := some 16 } (by decide)).mp hcleared
  cases hnone

end NetSim
