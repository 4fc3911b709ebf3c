import NetSim.Lib.IntervalList
import NetSim.Lib.MaximalRuns
import NetSim.Sctp.Receiver

/-! # The receiver tracks the TSNs that have arrived

`tsnBlocks` puts the TSNs up to `uiCumAck` in front of the blocks of `sRecvTsnBlockList`, as one more
block. Each case of `UpdateRecvTsnBlocks` adds a point to that list of intervals
(`recvTsnLoop_spec`), so that the list holds the maximal runs of the TSNs that have arrived
(`receiver_tracks`).
-/

namespace NetSim.Sctp

open List IntervalList

variable {c0 cum uiTsn uiLow : ℤ} {behind ahead rest blocks : List RecvTsnBlock} {s s' : Receiver}

/-! ## Blocks -/

def RecvTsnBlock.toBlock (b : RecvTsnBlock) : Block := ⟨b.uiStartTsn, b.uiEndTsn + 1⟩

/-- The intervals of the TSNs that have arrived, from `c0` on. -/
def tsnBlocks (c0 cum : ℤ) (blocks : List RecvTsnBlock) : List Block :=
  ⟨c0, cum + 1⟩ :: blocks.map RecvTsnBlock.toBlock

/-- `uiLow` in the loop: the end of the node before, or of the cumulative ack. -/
def lowOf (cum : ℤ) : List RecvTsnBlock → ℤ
  | [] => cum + 1
  | prev :: _ => prev.uiEndTsn + 1

theorem tsnBlocks_split (prev : RecvTsnBlock) (before rest : List RecvTsnBlock) :
    tsnBlocks c0 cum (before.reverse ++ prev :: rest) =
      (⟨c0, cum + 1⟩ :: before.reverse.map RecvTsnBlock.toBlock) ++
        prev.toBlock :: rest.map RecvTsnBlock.toBlock := by
  simp [tsnBlocks]

theorem updateCumAck_eq (h : Separated (tsnBlocks c0 cum blocks)) :
    updateCumAck (cum, blocks) = (cum, blocks) := by
  rw [updateCumAck]
  cases blocks with
  | nil => rfl
  | cons b blocks =>
    obtain ⟨-, -, hgap⟩ := separated_cons.mp h
    have hfirst := hgap b.toBlock (by simp)
    dsimp only [RecvTsnBlock.toBlock] at hfirst
    rw [cumAckLoop, if_neg (by omega)]

theorem extends_updateCumAck {bs : List Block} {st en : ℤ} {r : ℤ × List RecvTsnBlock}
    (h : Extends bs st en (tsnBlocks c0 r.1 r.2)) :
    Extends bs st en (tsnBlocks c0 (updateCumAck r).1 (updateCumAck r).2) := by
  rw [show updateCumAck r = r from updateCumAck_eq h.separated]
  exact h

theorem before_low (h : Separated (tsnBlocks c0 cum (behind.reverse ++ ahead))) :
    ∀ a ∈ (⟨c0, cum + 1⟩ :: behind.reverse.map RecvTsnBlock.toBlock : List Block),
      a.stop ≤ lowOf cum behind := by
  intro a ha
  cases behind with
  | nil =>
    rw [reverse_nil, map_nil, mem_singleton] at ha
    rw [ha, lowOf]
  | cons prev before =>
    have hsplit : (prev :: before).reverse ++ ahead = before.reverse ++ prev :: ahead := by simp
    rw [hsplit, tsnBlocks_split] at h
    obtain ⟨-, hprev, hgap⟩ := separated_append.mp h
    obtain ⟨hle, -, -⟩ := separated_cons.mp hprev
    have hmem : a ∈ (⟨c0, cum + 1⟩ :: before.reverse.map RecvTsnBlock.toBlock : List Block) ∨
        a = prev.toBlock := by
      simpa [or_assoc] using ha
    rcases hmem with ha | ha
    · have := hgap a ha prev.toBlock (by simp)
      dsimp only [RecvTsnBlock.toBlock] at this hle
      rw [lowOf]
      omega
    · rw [ha, lowOf, RecvTsnBlock.toBlock]

theorem recvTsnLoop_gap {curr : RecvTsnBlock} (h1 : uiLow ≤ uiTsn)
    (h2 : uiTsn ≤ curr.uiStartTsn - 1) : recvTsnLoop uiTsn cum uiLow behind (curr :: rest) =
    if 1 < curr.uiStartTsn - 1 - uiLow + 1 then
      if uiTsn = curr.uiStartTsn - 1 then
        updateCumAck (cum, behind.reverse ++ { curr with uiStartTsn := uiTsn } :: rest)
      else if uiTsn = uiLow then
        if uiTsn = cum + 1 then updateCumAck (cum + 1, behind.reverse ++ curr :: rest)
        else
          match behind with
          | [] => (cum, curr :: rest)
          | prev :: before =>
            updateCumAck (cum, before.reverse ++ { prev with uiEndTsn := uiTsn } :: curr :: rest)
      else (cum, behind.reverse ++ ⟨uiTsn, uiTsn⟩ :: curr :: rest)
    else if uiLow = cum + 1 then updateCumAck (curr.uiEndTsn, behind.reverse ++ rest)
    else
      match behind with
      | [] => (cum, curr :: rest)
      | prev :: before =>
        updateCumAck (cum, before.reverse ++ { prev with uiEndTsn := curr.uiEndTsn } :: rest) := by
  cases behind <;> exact if_pos ⟨h1, h2⟩

theorem recvTsnLoop_skip {curr : RecvTsnBlock} (h : ¬ (uiLow ≤ uiTsn ∧ uiTsn ≤ curr.uiStartTsn - 1)) :
    recvTsnLoop uiTsn cum uiLow behind (curr :: rest) =
      recvTsnLoop uiTsn cum (curr.uiEndTsn + 1) (curr :: behind) rest := by
  cases behind <;> exact if_neg h

theorem recvTsnLoop_nil : recvTsnLoop uiTsn cum uiLow behind [] =
    if uiTsn = uiLow then
      if uiTsn = cum + 1 then updateCumAck (uiTsn, behind.reverse)
      else
        match behind with
        | [] => (cum, [])
        | prev :: before => (cum, before.reverse ++ [{ prev with uiEndTsn := prev.uiEndTsn + 1 }])
    else (cum, behind.reverse ++ [⟨uiTsn, uiTsn⟩]) := by
  cases behind <;> rfl

theorem recvTsnLoop_end (h : Separated (tsnBlocks c0 cum behind.reverse))
    (htsn : lowOf cum behind ≤ uiTsn) :
    Extends (tsnBlocks c0 cum behind.reverse) uiTsn (uiTsn + 1)
      (tsnBlocks c0 (recvTsnLoop uiTsn cum (lowOf cum behind) behind []).1
        (recvTsnLoop uiTsn cum (lowOf cum behind) behind []).2) := by
  have hlow := @before_low c0 cum behind [] (by rwa [append_nil])
  by_cases hat : uiTsn = lowOf cum behind
  · cases behind with
    | nil =>
      rw [recvTsnLoop_nil, if_pos hat, if_pos (show uiTsn = cum + 1 from hat)]
      apply extends_updateCumAck
      exact @Extends.growRight [] [] uiTsn ⟨c0, cum + 1⟩ h hat (by simp)
    | cons prev before =>
      have hrev : (prev :: before).reverse = before.reverse ++ prev :: [] := by simp
      rw [hrev, tsnBlocks_split] at h
      have hne : uiTsn ≠ cum + 1 := by
        obtain ⟨-, hprev, hgap⟩ := separated_append.mp h
        obtain ⟨hle, -, -⟩ := separated_cons.mp hprev
        have := hgap ⟨c0, cum + 1⟩ (by simp) prev.toBlock (by simp)
        dsimp only [RecvTsnBlock.toBlock] at this hle
        rw [lowOf] at hat
        omega
      rw [recvTsnLoop_nil, if_pos hat, if_neg hne, hrev]
      rw [tsnBlocks_split, tsnBlocks_split]
      have hgrow := Extends.growRight h (show uiTsn = prev.toBlock.stop from hat) (by simp)
      rw [RecvTsnBlock.toBlock, hat]
      rw [hat] at hgrow
      exact hgrow
  · rw [recvTsnLoop_nil, if_neg hat]
    have hlist : tsnBlocks c0 cum (behind.reverse ++ [⟨uiTsn, uiTsn⟩]) =
        tsnBlocks c0 cum behind.reverse ++ ⟨uiTsn, uiTsn + 1⟩ :: [] := by
      simp [tsnBlocks, RecvTsnBlock.toBlock]
    have hsingle := @Extends.single (tsnBlocks c0 cum behind.reverse) [] uiTsn
      (by rwa [append_nil]) (fun a ha => by have := hlow a ha; omega) (by simp)
    rw [append_nil] at hsingle
    rw [hlist]
    exact hsingle

theorem recvTsnLoop_fill {curr : RecvTsnBlock}
    (h : Separated (tsnBlocks c0 cum (behind.reverse ++ curr :: rest)))
    (htsn : lowOf cum behind ≤ uiTsn) (hgap : uiTsn ≤ curr.uiStartTsn - 1) :
    Extends (tsnBlocks c0 cum (behind.reverse ++ curr :: rest)) uiTsn (uiTsn + 1)
      (tsnBlocks c0 (recvTsnLoop uiTsn cum (lowOf cum behind) behind (curr :: rest)).1
        (recvTsnLoop uiTsn cum (lowOf cum behind) behind (curr :: rest)).2) := by
  have hlow := before_low h
  have hcurr : tsnBlocks c0 cum (behind.reverse ++ curr :: rest) =
      (⟨c0, cum + 1⟩ :: behind.reverse.map RecvTsnBlock.toBlock) ++
        curr.toBlock :: rest.map RecvTsnBlock.toBlock := tsnBlocks_split curr behind rest
  have hafter : ∀ a ∈ (rest.map RecvTsnBlock.toBlock : List Block), curr.uiStartTsn < a.start := by
    intro a ha
    rw [hcurr] at h
    obtain ⟨hle, -, hlt⟩ := separated_cons.mp (separated_append.mp h).2.1
    have := hlt a ha
    dsimp only [RecvTsnBlock.toBlock] at this hle
    omega
  rw [recvTsnLoop_gap htsn hgap]
  by_cases hbig : 1 < curr.uiStartTsn - 1 - lowOf cum behind + 1
  · rw [if_pos hbig]
    by_cases hhigh : uiTsn = curr.uiStartTsn - 1
    · -- the lower edge of the current node
      rw [if_pos hhigh]
      apply extends_updateCumAck
      have hnew := @tsnBlocks_split c0 cum { curr with uiStartTsn := uiTsn } behind rest
      rw [hnew, hcurr]
      rw [hcurr] at h
      refine Extends.growLeft h ?_ (fun a ha => ?_)
      · dsimp only [RecvTsnBlock.toBlock]
        omega
      · have := hlow a ha
        omega
    · rw [if_neg hhigh]
      by_cases hat : uiTsn = lowOf cum behind
      · rw [if_pos hat]
        cases behind with
        | nil =>
          -- the cumulative ack
          have hcum : uiTsn = cum + 1 := hat
          rw [if_pos hcum]
          apply extends_updateCumAck
          have hgrow := @Extends.growRight [] (curr.toBlock :: rest.map RecvTsnBlock.toBlock) uiTsn
            ⟨c0, cum + 1⟩ h hat (by
              intro a ha
              rcases mem_cons.mp ha with rfl | ha
              · dsimp only [RecvTsnBlock.toBlock]
                omega
              · have := hafter a ha
                omega)
          rw [hcum] at hgrow
          rw [hcum]
          exact hgrow
        | cons prev before =>
          have hrev : ∀ l, (prev :: before).reverse ++ l = before.reverse ++ prev :: l := by simp
          rw [hrev, tsnBlocks_split] at h
          have hne : uiTsn ≠ cum + 1 := by
            obtain ⟨-, hprev, hlt⟩ := separated_append.mp h
            obtain ⟨hle, -, -⟩ := separated_cons.mp hprev
            have := hlt ⟨c0, cum + 1⟩ (by simp) prev.toBlock (by simp)
            dsimp only [RecvTsnBlock.toBlock] at this hle
            rw [lowOf] at hat
            omega
          rw [if_neg hne, hrev]
          apply extends_updateCumAck
          rw [tsnBlocks_split, tsnBlocks_split]
          exact Extends.growRight h (show uiTsn = prev.toBlock.stop from hat) (by
            intro a ha
            rcases mem_cons.mp ha with rfl | ha
            · dsimp only [RecvTsnBlock.toBlock]
              omega
            · have := hafter a ha
              omega)
      · -- a node of its own
        rw [if_neg hat]
        have hlist : tsnBlocks c0 cum (behind.reverse ++ ⟨uiTsn, uiTsn⟩ :: curr :: rest) =
            (⟨c0, cum + 1⟩ :: behind.reverse.map RecvTsnBlock.toBlock) ++
              ⟨uiTsn, uiTsn + 1⟩ :: (curr :: rest).map RecvTsnBlock.toBlock :=
          tsnBlocks_split ⟨uiTsn, uiTsn⟩ behind (curr :: rest)
        rw [hlist, hcurr]
        rw [hcurr] at h
        refine Extends.single h (fun a ha => ?_) (fun a ha => ?_)
        · have := hlow a ha
          omega
        · rcases mem_cons.mp ha with rfl | ha
          · dsimp only [RecvTsnBlock.toBlock]
            omega
          · have := hafter a ha
            omega
  · rw [if_neg hbig]
    cases behind with
    | nil =>
      -- the gap behind the cumulative ack is filled
      have hlowEq : lowOf cum [] = cum + 1 := rfl
      rw [if_pos hlowEq]
      apply extends_updateCumAck
      exact @Extends.join [] (rest.map RecvTsnBlock.toBlock) uiTsn ⟨c0, cum + 1⟩ curr.toBlock h
        (by dsimp only; omega) (by dsimp only [RecvTsnBlock.toBlock]; omega)
    | cons prev before =>
      have hrev : ∀ l, (prev :: before).reverse ++ l = before.reverse ++ prev :: l := by simp
      rw [hrev, tsnBlocks_split] at h
      have hlowEq : lowOf cum (prev :: before) = prev.uiEndTsn + 1 := rfl
      have hne : prev.uiEndTsn + 1 ≠ cum + 1 := by
        obtain ⟨-, hprev, hlt⟩ := separated_append.mp h
        obtain ⟨hle, -, -⟩ := separated_cons.mp hprev
        have := hlt ⟨c0, cum + 1⟩ (by simp) prev.toBlock (by simp)
        dsimp only [RecvTsnBlock.toBlock] at this hle
        omega
      rw [hlowEq, if_neg hne, hrev]
      apply extends_updateCumAck
      rw [tsnBlocks_split, tsnBlocks_split]
      exact Extends.join h (by dsimp only [RecvTsnBlock.toBlock]; omega)
        (by dsimp only [RecvTsnBlock.toBlock]; omega)

/-- By induction on the blocks: the chunk joins one, two or none of them. -/
theorem recvTsnLoop_spec (h : Separated (tsnBlocks c0 cum (behind.reverse ++ ahead)))
    (htsn : lowOf cum behind ≤ uiTsn)
    (hnew : ¬ Covers (tsnBlocks c0 cum (behind.reverse ++ ahead)) uiTsn) :
    Extends (tsnBlocks c0 cum (behind.reverse ++ ahead)) uiTsn (uiTsn + 1)
      (tsnBlocks c0 (recvTsnLoop uiTsn cum (lowOf cum behind) behind ahead).1
        (recvTsnLoop uiTsn cum (lowOf cum behind) behind ahead).2) := by
  induction ahead generalizing behind with
  | nil =>
    rw [append_nil] at h ⊢
    exact recvTsnLoop_end h htsn
  | cons curr rest ih =>
    by_cases hgap : uiTsn ≤ curr.uiStartTsn - 1
    · exact recvTsnLoop_fill h htsn hgap
    · rw [recvTsnLoop_skip (fun hc => hgap hc.2)]
      have hrev : behind.reverse ++ curr :: rest = (curr :: behind).reverse ++ rest := by simp
      rw [hrev] at h hnew ⊢
      refine ih h ?_ hnew
      rw [lowOf]
      by_contra hlt
      refine hnew ⟨curr.toBlock, by simp [tsnBlocks], ?_, ?_⟩
      · dsimp only [RecvTsnBlock.toBlock]
        omega
      · dsimp only [RecvTsnBlock.toBlock]
        omega

/-! ## The set of TSNs that have arrived -/

variable {R : ℤ → Prop} {chunk : DataChunk} {x : ℤ}

/-- The receiver tracks the set `R`: the blocks cover it, and above the cumulative ack there is
nothing in it but what `uiHighestRecvTsn` bounds. -/
structure Inv (c0 : ℤ) (R : ℤ → Prop) (s : Receiver) : Prop where
  sep : Separated (tsnBlocks c0 s.uiCumAck s.sRecvTsnBlockList)
  nonempty : ∀ b ∈ tsnBlocks c0 s.uiCumAck s.sRecvTsnBlockList, b.start < b.stop
  mem : ∀ x, c0 ≤ x → (Covers (tsnBlocks c0 s.uiCumAck s.sRecvTsnBlockList) x ↔ R x)
  base : ∀ x, x ≤ c0 → R x
  highest : ∀ x, R x → s.uiCumAck < x → x ≤ s.uiHighestRecvTsn

theorem Inv.congr {R' : ℤ → Prop} (h : Inv c0 R s) (hR : ∀ x, R' x ↔ R x) : Inv c0 R' s where
  sep := h.sep
  nonempty := h.nonempty
  mem x hx := (h.mem x hx).trans (hR x).symm
  base x hx := (hR x).mpr (h.base x hx)
  highest x hx := h.highest x ((hR x).mp hx)

theorem Inv.le_cum (h : Inv c0 R s) : c0 ≤ s.uiCumAck := by
  have := h.nonempty ⟨c0, s.uiCumAck + 1⟩ (by simp [tsnBlocks])
  dsimp only at this
  omega

theorem Inv.upto_cum (h : Inv c0 R s) (hx : x ≤ s.uiCumAck) : R x := by
  rcases le_total x c0 with hc | hc
  · exact h.base x hc
  · refine (h.mem x hc).mp ⟨⟨c0, s.uiCumAck + 1⟩, by simp [tsnBlocks], hc, ?_⟩
    dsimp only
    omega

theorem Inv.mem_blocks (h : Inv c0 R s) (hx : s.uiCumAck < x) :
    Covers (s.sRecvTsnBlockList.map RecvTsnBlock.toBlock) x ↔ R x := by
  have hc := h.le_cum
  rw [← h.mem x (by omega), tsnBlocks, covers_cons]
  dsimp only
  constructor
  · exact Or.inr
  · rintro (hx' | hx')
    · omega
    · exact hx'

theorem not_covers_around {bs : List Block} {b : Block} (h : Separated bs) (hb : b ∈ bs)
    (hlt : b.start < b.stop) : ¬ Covers bs (b.start - 1) ∧ ¬ Covers bs b.stop := by
  constructor
  · rintro ⟨a, ha, h1, h2⟩
    have heq : a = b := h.eq_of_meet ha hb (by omega) (by omega)
    rw [heq] at h1
    omega
  · rintro ⟨a, ha, h1, h2⟩
    have heq : a = b := h.eq_of_meet ha hb (by omega) (by omega)
    rw [heq] at h2
    omega

theorem Inv.next_missing (h : Inv c0 R s) : ¬ R (s.uiCumAck + 1) := by
  have hc := h.le_cum
  rw [← h.mem _ (by omega)]
  exact (not_covers_around h.sep (b := ⟨c0, s.uiCumAck + 1⟩) (by simp [tsnBlocks])
    (by dsimp only; omega)).2

theorem Inv.add (h : Inv c0 R s) (hx : s.uiCumAck < x) (hnew : ¬ R x)
    (hhigh : x ≤ s.uiHighestRecvTsn ∨ x = s.uiCumAck + 1) :
    Inv c0 (fun y => R y ∨ y = x) (updateRecvTsnBlocks x s) := by
  have hc := h.le_cum
  have hext := @recvTsnLoop_spec c0 s.uiCumAck x [] s.sRecvTsnBlockList h.sep
    (by rw [lowOf]; omega) (by rw [reverse_nil, nil_append, h.mem x (by omega)]; exact hnew)
  rw [reverse_nil, nil_append] at hext
  have hmem : ∀ y, c0 ≤ y → (Covers (tsnBlocks c0 (updateRecvTsnBlocks x s).uiCumAck
      (updateRecvTsnBlocks x s).sRecvTsnBlockList) y ↔ R y ∨ y = x) := by
    intro y hy
    refine (hext.covers y).trans ?_
    rw [h.mem y hy]
    refine or_congr_right ?_
    omega
  have hne := hext.nonempty h.nonempty (by omega)
  have hfirst := hne ⟨c0, (updateRecvTsnBlocks x s).uiCumAck + 1⟩
    (by rw [updateRecvTsnBlocks]; simp [tsnBlocks, lowOf])
  dsimp only at hfirst
  have hmiss : ¬ (R ((updateRecvTsnBlocks x s).uiCumAck + 1) ∨
      (updateRecvTsnBlocks x s).uiCumAck + 1 = x) := by
    rw [← hmem _ (by omega)]
    exact (not_covers_around hext.separated (b := ⟨c0, (updateRecvTsnBlocks x s).uiCumAck + 1⟩)
      (by rw [updateRecvTsnBlocks]; simp [tsnBlocks, lowOf]) (by omega)).2
  have hmono : s.uiCumAck ≤ (updateRecvTsnBlocks x s).uiCumAck := by
    by_contra hlt
    exact hmiss (Or.inl (h.upto_cum (by omega)))
  refine ⟨hext.separated, hne, hmem, fun y hy => Or.inl (h.base y hy), fun y hy hcum => ?_⟩
  -- what is still above the cumulative ack was there before, or is below the highest TSN
  rcases hy with hy | rfl
  · exact h.highest y hy (by omega)
  · rcases hhigh with hle | heq
    · exact hle
    · exact absurd (Or.inr (by omega)) hmiss

/-! ## The duplicate test -/

theorem inBlocks_iff (h : Separated (blocks.map RecvTsnBlock.toBlock)) :
    inBlocks uiTsn blocks = true ↔ Covers (blocks.map RecvTsnBlock.toBlock) uiTsn := by
  induction blocks with
  | nil => simp [inBlocks]
  | cons b blocks ih =>
    obtain ⟨hle, hrest, hgap⟩ := separated_cons.mp h
    rw [inBlocks, map_cons, covers_cons, ← ih hrest]
    dsimp only [RecvTsnBlock.toBlock] at hle ⊢
    by_cases hin : b.uiStartTsn ≤ uiTsn ∧ uiTsn ≤ b.uiEndTsn
    · rw [if_pos hin]
      exact ⟨fun _ => Or.inl (by omega), fun _ => rfl⟩
    · rw [if_neg hin]
      by_cases hlt : uiTsn < b.uiEndTsn
      · rw [if_pos hlt, ih hrest]
        refine ⟨fun hc => absurd hc (by simp), ?_⟩
        rintro (hc | ⟨a, ha, h1, -⟩)
        · omega
        · have := hgap a ha
          dsimp only [RecvTsnBlock.toBlock] at this
          omega
      · rw [if_neg hlt]
        exact ⟨Or.inr, fun hc => hc.elim (fun hc => by omega) id⟩

theorem Inv.isDuplicateChunk (h : Inv c0 R s) (x : ℤ) :
    Sctp.isDuplicateChunk s x = true ↔ R x := by
  rw [Sctp.isDuplicateChunk]
  by_cases hcum : x ≤ s.uiCumAck
  · rw [if_pos hcum]
    exact ⟨fun _ => h.upto_cum hcum, fun _ => rfl⟩
  · rw [if_neg hcum, ← h.mem_blocks (by omega)]
    by_cases hhigh : s.uiCumAck < x ∧ x ≤ s.uiHighestRecvTsn
    · rw [if_neg (fun hc => hc hhigh)]
      by_cases hlen : s.sRecvTsnBlockList.length = 0
      · rw [if_pos hlen, length_eq_zero_iff.mp hlen]
        simp
      · rw [if_neg hlen]
        exact inBlocks_iff (separated_cons.mp h.sep).2.1
    · rw [if_pos hhigh]
      refine ⟨fun hc => absurd hc (by simp), fun hc => ?_⟩
      have hR := (h.mem_blocks (by omega)).mp hc
      have := h.highest x hR (by omega)
      omega

/-! ## The streams leave the TSNs alone -/

/-- The variables that track TSNs are kept. -/
structure SameTsn (s s' : Receiver) : Prop where
  cum : s'.uiCumAck = s.uiCumAck
  highest : s'.uiHighestRecvTsn = s.uiHighestRecvTsn
  blocks : s'.sRecvTsnBlockList = s.sRecvTsnBlockList
  dups : s'.sDupTsnList = s.sDupTsnList

theorem SameTsn.refl (s : Receiver) : SameTsn s s := ⟨rfl, rfl, rfl, rfl⟩

theorem SameTsn.trans {s'' : Receiver} (h : SameTsn s s') (h' : SameTsn s' s'') : SameTsn s s'' :=
  ⟨h'.cum.trans h.cum, h'.highest.trans h.highest, h'.blocks.trans h.blocks, h'.dups.trans h.dups⟩

theorem SameTsn.foldl {α : Type} {f : Receiver → α → Receiver} (hf : ∀ s a, SameTsn s (f s a))
    (l : List α) (s : Receiver) : SameTsn s (l.foldl f s) := by
  induction l generalizing s with
  | nil => exact SameTsn.refl s
  | cons a l ih => exact (hf s a).trans (ih (f s a))

theorem SameTsn.passToUpperLayer (s : Receiver) (chunk : DataChunk) :
    SameTsn s (passToUpperLayer s chunk) := ⟨rfl, rfl, rfl, rfl⟩

theorem SameTsn.passToStream (chunk : DataChunk) (s : Receiver) :
    SameTsn s (passToStream chunk s) := by
  rw [Sctp.passToStream]
  split <;> exact ⟨rfl, rfl, rfl, rfl⟩

theorem SameTsn.updateStream (s : Receiver) (i : ℕ) : SameTsn s (updateStream s i) := by
  apply SameTsn.trans _ (SameTsn.foldl SameTsn.passToUpperLayer _ _)
  exact ⟨rfl, rfl, rfl, rfl⟩

theorem SameTsn.updateAllStreams (s : Receiver) : SameTsn s (updateAllStreams s) :=
  SameTsn.foldl SameTsn.updateStream _ _

theorem Inv.same (h : Inv c0 R s) (hs : SameTsn s s') : Inv c0 R s' := by
  refine ⟨?_, ?_, ?_, h.base, ?_⟩
  · rw [hs.cum, hs.blocks]
    exact h.sep
  · rw [hs.cum, hs.blocks]
    exact h.nonempty
  · rw [hs.cum, hs.blocks]
    exact h.mem
  · rw [hs.cum, hs.highest]
    exact h.highest

/-! ## Chunks -/

theorem mem_insertByKey_self {α : Type} [LinearOrder α] (a : α) (l : List α) :
    a ∈ insertByKey id a l := by
  induction l with
  | nil => simp [insertByKey]
  | cons b l ih =>
    rw [insertByKey]
    by_cases hle : id a ≤ id b
    · rw [if_pos hle]
      by_cases hne : id a ≠ id b
      · rw [if_pos hne]
        exact mem_cons_self
      · have heq : a = b := not_not.mp hne
        rw [if_neg hne, heq]
        exact mem_cons_self
    · rw [if_neg hle]
      exact mem_cons_of_mem b ih

/-- A chunk that a FORWARD TSN skipped, with a TSN above all that `uiHighestRecvTsn` has seen. -/
def Skipped (s : Receiver) (chunk : DataChunk) : Prop :=
  s.uiHighestRecvTsn < chunk.uiTsn ∧ chunk.uiTsn ≤ s.uiCumAck

instance decidableSkipped (s : Receiver) (chunk : DataChunk) : Decidable (Skipped s chunk) :=
  inferInstanceAs (Decidable (_ ∧ _))

def HandledRight (R : ℤ → Prop) (chunk : DataChunk) (r : Receiver × Handling) : Prop :=
  (r.2 = .passed ↔ ¬ R chunk.uiTsn) ∧
    (R chunk.uiTsn → r.2 = .duplicate ∧ chunk.uiTsn ∈ r.1.sDupTsnList)

theorem processDataChunk_duplicate (h : Inv c0 R s) (hfit : chunk.usLength ≤ s.uiMyRwnd)
    (hR : R chunk.uiTsn) (hskip : ¬ Skipped s chunk) :
    processDataChunk chunk s =
      ({ insertDuplicateTsn chunk.uiTsn s with eSackChunkNeeded := true }, .duplicate) := by
  have hhigh : ¬ s.uiHighestRecvTsn < chunk.uiTsn := by
    intro hlt
    refine hskip ⟨hlt, ?_⟩
    by_contra hcum
    have := h.highest chunk.uiTsn hR (by omega)
    omega
  rw [processDataChunk, if_pos hfit, updateHighestTsn, if_neg hhigh]
  exact if_pos ⟨by simp, (h.isDuplicateChunk chunk.uiTsn).mpr hR⟩

theorem processDataChunk_new (h : Inv c0 R s) (hfit : chunk.usLength ≤ s.uiMyRwnd)
    (hR : ¬ R chunk.uiTsn) :
    ∃ s₁, Inv c0 (fun y => R y ∨ y = chunk.uiTsn) s₁ ∧ s₁.uiMyRwnd = s.uiMyRwnd - chunk.usLength ∧
      s₁.iNumInStreams = s.iNumInStreams ∧ s₁.spInStreams = s.spInStreams ∧
      s₁.upperLayer = s.upperLayer ∧
      s₁.uiHighestRecvTsn = max s.uiHighestRecvTsn chunk.uiTsn ∧
      processDataChunk chunk s = (updateAllStreams (passToStream chunk s₁), .passed) := by
  have hcum : s.uiCumAck < chunk.uiTsn := by
    by_contra hle
    exact hR (h.upto_cum (by omega))
  -- after `UpdateHighestTsn`
  have hinv : ∀ high, s.uiHighestRecvTsn ≤ high → ∀ rwnd,
      Inv c0 R { s with uiHighestRecvTsn := high, uiMyRwnd := rwnd } := by
    intro high hle rwnd
    exact ⟨h.sep, h.nonempty, h.mem, h.base, fun x hx hc => (h.highest x hx hc).trans hle⟩
  rw [processDataChunk, if_pos hfit, updateHighestTsn]
  by_cases hhigh : s.uiHighestRecvTsn < chunk.uiTsn
  · rw [if_pos hhigh]
    exact ⟨_, (hinv chunk.uiTsn hhigh.le (s.uiMyRwnd - chunk.usLength)).add hcum hR (Or.inl le_rfl),
      rfl, rfl, rfl, rfl, (max_eq_right hhigh.le).symm, rfl⟩
  · rw [if_neg hhigh]
    rw [if_neg (fun hc => hR ((h.isDuplicateChunk chunk.uiTsn).mp hc.2))]
    exact ⟨_, (hinv s.uiHighestRecvTsn le_rfl (s.uiMyRwnd - chunk.usLength)).add hcum hR
      (Or.inl (not_lt.mp hhigh)), rfl, rfl, rfl, rfl, (max_eq_left (not_lt.mp hhigh)).symm, rfl⟩

theorem processDataChunk_skipped (hfit : chunk.usLength ≤ s.uiMyRwnd) (hskip : Skipped s chunk) :
    (processDataChunk chunk s).2 = .passed := by
  rw [processDataChunk, if_pos hfit, updateHighestTsn, if_pos hskip.1]
  rw [if_neg (fun hc => hc.1 rfl)]

theorem Inv.handledRight (h : Inv c0 R s) (hfit : chunk.usLength ≤ s.uiMyRwnd) :
    HandledRight R chunk (processDataChunk chunk s) ↔ ¬ Skipped s chunk := by
  constructor
  · intro hright hskip
    have hpassed := processDataChunk_skipped hfit hskip
    exact hright.1.mp hpassed (h.upto_cum hskip.2)
  · intro hskip
    by_cases hR : R chunk.uiTsn
    · rw [HandledRight, processDataChunk_duplicate h hfit hR hskip]
      refine ⟨⟨fun hc => absurd hc (by simp), fun hc => absurd hR hc⟩, fun _ => ⟨rfl, ?_⟩⟩
      exact mem_insertByKey_self chunk.uiTsn s.sDupTsnList
    · obtain ⟨s₁, -, -, -, -, -, -, heq⟩ := processDataChunk_new h hfit hR
      rw [HandledRight, heq]
      exact ⟨⟨fun _ => hR, fun _ => rfl⟩, fun hc => absurd hc hR⟩

theorem Inv.data (h : Inv c0 R s) (hfit : chunk.usLength ≤ s.uiMyRwnd) (hskip : ¬ Skipped s chunk) :
    Inv c0 (fun y => R y ∨ y = chunk.uiTsn) (processDataChunk chunk s).1 := by
  by_cases hR : R chunk.uiTsn
  · rw [processDataChunk_duplicate h hfit hR hskip]
    refine Inv.congr (s := _) ?_ (fun y => ⟨fun hy => hy.elim id (fun heq => heq ▸ hR), Or.inl⟩)
    exact ⟨h.sep, h.nonempty, h.mem, h.base, h.highest⟩
  · obtain ⟨s₁, hinv, -, -, -, -, -, heq⟩ := processDataChunk_new h hfit hR
    rw [heq]
    exact hinv.same ((SameTsn.passToStream chunk s₁).trans (SameTsn.updateAllStreams _))

/-- The loop of `ProcessForwardTsnChunk`, at an `i` up to which everything has arrived. -/
theorem Inv.forwardLoop {count : ℕ} {i : ℤ} (h : Inv c0 R s) (hi : i ≤ s.uiCumAck + 1) :
    Inv c0 (fun y => R y ∨ y < i + count) (Sctp.forwardLoop count i s) := by
  induction count generalizing R i s with
  | zero =>
    refine h.congr (fun y => ⟨?_, Or.inl⟩)
    rintro (hy | hy)
    · exact hy
    · exact h.upto_cum (by omega)
  | succ count ih =>
    have hstep : Inv c0 (fun y => R y ∨ y = i)
        (if Sctp.isDuplicateChunk s i = false then updateRecvTsnBlocks i s else s) := by
      by_cases hdup : Sctp.isDuplicateChunk s i = true
      · rw [if_neg (by rw [hdup]; simp)]
        have hR := (h.isDuplicateChunk i).mp hdup
        exact h.congr (fun y => ⟨fun hy => hy.elim id (fun heq => heq ▸ hR), Or.inl⟩)
      · rw [if_pos (Bool.not_eq_true _ ▸ hdup)]
        have hR : ¬ R i := fun hR => hdup ((h.isDuplicateChunk i).mpr hR)
        have hcum : s.uiCumAck < i := by
          by_contra hle
          exact hR (h.upto_cum (by omega))
        exact h.add hcum hR (Or.inr (by omega))
    refine (ih hstep ?_).congr (fun y => ?_)
    · -- `i` has arrived now, and so has everything before it
      by_contra hlt
      refine hstep.next_missing ?_
      by_cases heq : (if Sctp.isDuplicateChunk s i = false then updateRecvTsnBlocks i s
          else s).uiCumAck + 1 = i
      · exact Or.inr heq
      · exact Or.inl (h.upto_cum (by omega))
    · constructor
      · rintro (hy | hy)
        · exact Or.inl (Or.inl hy)
        · by_cases heq : y = i
          · exact Or.inl (Or.inr heq)
          · exact Or.inr (by omega)
      · rintro ((hy | hy) | hy)
        · exact Or.inl hy
        · exact Or.inr (by omega)
        · exact Or.inr (by omega)

theorem Inv.forward (h : Inv c0 R s) (uiNewCum : ℤ) :
    Inv c0 (fun y => R y ∨ y ≤ uiNewCum) (processForwardTsnChunk uiNewCum s) := by
  refine Inv.same (Inv.congr (h.forwardLoop le_rfl) (fun y => ?_)) (SameTsn.updateAllStreams _)
  constructor
  · rintro (hy | hy)
    · exact Or.inl hy
    · by_cases hcum : y ≤ s.uiCumAck
      · exact Or.inl (h.upto_cum hcum)
      · exact Or.inr (by omega)
  · rintro (hy | hy)
    · exact Or.inl hy
    · by_cases hcum : y ≤ s.uiCumAck
      · exact Or.inl (h.upto_cum hcum)
      · exact Or.inr (by omega)

/-! ## Runs -/

inductive Arrival where
  | data (chunk : DataChunk)
  | forwardTsn (uiNewCum : ℤ)

/-- One arrival; a data chunk with what was done with it. -/
def recvStep (s : Receiver) : Arrival → Option (Receiver × Option Handling)
  | .data chunk =>
    let r := processDataChunk chunk s
    some (r.1, some r.2)
  | .forwardTsn uiNewCum => some (processForwardTsnChunk uiNewCum s, none)

/-- The TSNs that have arrived: those up to `c0`, those of the data chunks, and all up to a forwarded
cumulative TSN. -/
def Arrived (c0 : ℤ) (arrivals : List Arrival) (x : ℤ) : Prop :=
  x ≤ c0 ∨ (∃ chunk, Arrival.data chunk ∈ arrivals ∧ chunk.uiTsn = x) ∨
    ∃ uiNewCum, Arrival.forwardTsn uiNewCum ∈ arrivals ∧ x ≤ uiNewCum

/-- A data chunk fits into the window, and it was not skipped. -/
def Regular (s : Receiver) : Arrival → Prop
  | .data chunk => chunk.usLength ≤ s.uiMyRwnd ∧ ¬ Skipped s chunk
  | .forwardTsn _ => True

instance decidableRegular (s : Receiver) : (a : Arrival) → Decidable (Regular s a)
  | .data chunk => inferInstanceAs (Decidable (chunk.usLength ≤ s.uiMyRwnd ∧ ¬ Skipped s chunk))
  | .forwardTsn _ => isTrue trivial

/-- The cumulative ack is the largest TSN up to which all have arrived, and the blocks are the maximal
runs above it, in ascending order. -/
structure Tracks (c0 : ℤ) (R : ℤ → Prop) (s : Receiver) : Prop where
  cumAck : IsGreatest {n | ∀ x, c0 < x → x ≤ n → R x} s.uiCumAck
  ascending : s.sRecvTsnBlockList.Pairwise (fun a b => a.uiEndTsn < b.uiStartTsn)
  runs : ∀ b : RecvTsnBlock, b ∈ s.sRecvTsnBlockList ↔
    s.uiCumAck < b.uiStartTsn ∧ MaximalRun R b.uiStartTsn (b.uiEndTsn + 1)

theorem Inv.maximalRun (h : Inv c0 R s) {b : RecvTsnBlock} (hb : b ∈ s.sRecvTsnBlockList) :
    s.uiCumAck < b.uiStartTsn ∧ MaximalRun R b.uiStartTsn (b.uiEndTsn + 1) := by
  have hmem : b.toBlock ∈ s.sRecvTsnBlockList.map RecvTsnBlock.toBlock := mem_map_of_mem hb
  have hmem' : b.toBlock ∈ tsnBlocks c0 s.uiCumAck s.sRecvTsnBlockList :=
    mem_cons_of_mem _ hmem
  have hcum := h.le_cum
  have hfirst := (separated_cons.mp h.sep).2.2 b.toBlock hmem
  have hne := h.nonempty b.toBlock hmem'
  have haround := not_covers_around h.sep hmem' hne
  dsimp only [RecvTsnBlock.toBlock] at hfirst hne haround
  refine ⟨by omega, hne, fun x hx hx' => ?_, ?_, ?_⟩
  · exact (h.mem x (by omega)).mp ⟨b.toBlock, hmem', hx, hx'⟩
  · rw [← h.mem _ (by omega)]
    exact haround.1
  · rw [← h.mem _ (by omega)]
    exact haround.2

theorem Inv.tracks (h : Inv c0 R s) : Tracks c0 R s := by
  refine ⟨⟨fun x _ hx => h.upto_cum hx, fun n hn => ?_⟩, ?_, fun b => ⟨h.maximalRun, ?_⟩⟩
  · by_contra hlt
    have hcum := h.le_cum
    exact h.next_missing (hn _ (by omega) (by omega))
  · have hpair := (separated_cons.mp h.sep).2.1.gap
    rw [pairwise_map] at hpair
    refine hpair.imp (fun {a b} hab => ?_)
    dsimp only [RecvTsnBlock.toBlock] at hab
    omega
  · -- a maximal run meets the block that covers its first TSN
    rintro ⟨hlt, hrun⟩
    obtain ⟨b', hb', h1, h2⟩ := (h.mem_blocks hlt).mpr (hrun.mem _ le_rfl hrun.lt)
    obtain ⟨a, ha, rfl⟩ := mem_map.mp hb'
    have hrun' := (h.maximalRun ha).2
    dsimp only [RecvTsnBlock.toBlock] at h1 h2
    rcases hrun.eq_or_apart hrun' with ⟨heq, heq'⟩ | hapart | hapart
    · have hend : b.uiEndTsn = a.uiEndTsn := by omega
      have hab : b = a := by
        cases a
        cases b
        cases heq
        cases hend
        rfl
      rwa [hab]
    · have := hrun.lt
      omega
    · omega

theorem Inv.init (c0 : ℤ) (rwnd numInStreams : ℕ) (mode : ℕ → StreamMode) :
    Inv c0 (Arrived c0 []) (Receiver.init c0 rwnd numInStreams mode) := by
  have hR : ∀ x, Arrived c0 [] x ↔ x ≤ c0 := by simp [Arrived]
  refine ⟨separated_cons.mpr ⟨by dsimp only [Receiver.init]; omega, separated_nil,
    by simp [Receiver.init]⟩, ?_, ?_,
    fun x hx => (hR x).mpr hx, fun x hx hc => ?_⟩
  · intro b hb
    rw [mem_singleton.mp hb]
    dsimp only [Receiver.init]
    omega
  · intro x hx
    rw [hR]
    show Covers [⟨c0, c0 + 1⟩] x ↔ x ≤ c0
    rw [covers_cons, iff_false_intro covers_nil, or_false]
    dsimp only
    omega
  · have hle := (hR x).mp hx
    dsimp only [Receiver.init] at hc
    omega

theorem arrived_data {past : List Arrival} (chunk : DataChunk) (x : ℤ) :
    Arrived c0 (past ++ [.data chunk]) x ↔ Arrived c0 past x ∨ x = chunk.uiTsn := by
  simp only [Arrived, mem_append, mem_singleton, Arrival.data.injEq, reduceCtorEq, or_false]
  constructor
  · rintro (hx | ⟨c, hc | rfl, hx⟩ | hx)
    · exact Or.inl (Or.inl hx)
    · exact Or.inl (Or.inr (Or.inl ⟨c, hc, hx⟩))
    · exact Or.inr hx.symm
    · exact Or.inl (Or.inr (Or.inr hx))
  · rintro ((hx | ⟨c, hc, hx⟩ | hx) | rfl)
    · exact Or.inl hx
    · exact Or.inr (Or.inl ⟨c, Or.inl hc, hx⟩)
    · exact Or.inr (Or.inr hx)
    · exact Or.inr (Or.inl ⟨chunk, Or.inr rfl, rfl⟩)

theorem arrived_forward {past : List Arrival} (uiNewCum x : ℤ) :
    Arrived c0 (past ++ [.forwardTsn uiNewCum]) x ↔ Arrived c0 past x ∨ x ≤ uiNewCum := by
  simp only [Arrived, mem_append, mem_singleton, Arrival.forwardTsn.injEq, reduceCtorEq,
    or_false]
  constructor
  · rintro (hx | hx | ⟨n, hn | rfl, hx⟩)
    · exact Or.inl (Or.inl hx)
    · exact Or.inl (Or.inr (Or.inl hx))
    · exact Or.inl (Or.inr (Or.inr ⟨n, hn, hx⟩))
    · exact Or.inr hx
  · rintro ((hx | hx | ⟨n, hn, hx⟩) | hx)
    · exact Or.inl hx
    · exact Or.inr (Or.inl hx)
    · exact Or.inr (Or.inr ⟨n, Or.inl hn, hx⟩)
    · exact Or.inr (Or.inr ⟨uiNewCum, Or.inr rfl, hx⟩)

/-- The step lemma: the blocks stay the maximal runs above the cumulative ack. -/
theorem Inv.step {past : List Arrival} {a : Arrival} (h : Inv c0 (Arrived c0 past) s)
    (hok : Regular s a) :
    ∃ s' o, recvStep s a = some (s', o) ∧ Inv c0 (Arrived c0 (past ++ [a])) s' := by
  cases a with
  | data chunk =>
    exact ⟨_, _, rfl, (h.data hok.1 hok.2).congr (arrived_data chunk)⟩
  | forwardTsn uiNewCum =>
    exact ⟨_, _, rfl, (h.forward uiNewCum).congr (arrived_forward uiNewCum)⟩

/-- **The receiver tracks the TSNs that have arrived**, in every run without skipped chunks; and the
next data chunk is handled right exactly when it is not skipped. -/
theorem receiver_tracks (c0 : ℤ) (rwnd numInStreams : ℕ) (mode : ℕ → StreamMode)
    (arrivals : List Arrival)
    (hok : Runs.Meets recvStep Regular (Receiver.init c0 rwnd numInStreams mode) arrivals) :
    ∃ s outs, Runs.run recvStep (Receiver.init c0 rwnd numInStreams mode) arrivals = some (s, outs) ∧
      Tracks c0 (Arrived c0 arrivals) s ∧
      ∀ chunk : DataChunk, chunk.usLength ≤ s.uiMyRwnd →
        (HandledRight (Arrived c0 arrivals) chunk (processDataChunk chunk s) ↔
          ¬ Skipped s chunk) := by
  obtain ⟨s, outs, hrun, hinv⟩ := Runs.run_invariant
    (fun past outs s a (h : Inv c0 (Arrived c0 past) s) ha => h.step ha)
    (Inv.init c0 rwnd numInStreams mode) hok
  exact ⟨s, outs, hrun, hinv.tracks, fun chunk hfit => hinv.handledRight hfit⟩

/-- Chunks out of order, a duplicate and a forwarded TSN. -/
theorem receiver_tracks_reordered :
    ∃ s outs, Runs.run recvStep (Receiver.init 0 100 1 (fun _ => .reliable))
        [.data ⟨2, 10, 0, 1, false⟩, .data ⟨4, 10, 0, 3, false⟩, .data ⟨2, 10, 0, 1, false⟩,
          .data ⟨3, 10, 0, 2, false⟩, .data ⟨8, 10, 0, 7, false⟩, .forwardTsn 5] = some (s, outs) ∧
      s.uiCumAck = 5 ∧ s.sRecvTsnBlockList = [⟨8, 8⟩] ∧ s.sDupTsnList = [2] ∧
      Tracks 0 (Arrived 0 [.data ⟨2, 10, 0, 1, false⟩, .data ⟨4, 10, 0, 3, false⟩,
        .data ⟨2, 10, 0, 1, false⟩, .data ⟨3, 10, 0, 2, false⟩, .data ⟨8, 10, 0, 7, false⟩,
        .forwardTsn 5]) s := by
  obtain ⟨s, outs, hrun, htracks, -⟩ := receiver_tracks 0 100 1 (fun _ => .reliable)
    [.data ⟨2, 10, 0, 1, false⟩, .data ⟨4, 10, 0, 3, false⟩, .data ⟨2, 10, 0, 1, false⟩,
      .data ⟨3, 10, 0, 2, false⟩, .data ⟨8, 10, 0, 7, false⟩, .forwardTsn 5] (by decide +kernel)
  have hfinal : ∀ r ∈ Runs.run recvStep (Receiver.init 0 100 1 (fun _ => .reliable))
      [.data ⟨2, 10, 0, 1, false⟩, .data ⟨4, 10, 0, 3, false⟩, .data ⟨2, 10, 0, 1, false⟩,
        .data ⟨3, 10, 0, 2, false⟩, .data ⟨8, 10, 0, 7, false⟩, .forwardTsn 5],
      r.1.uiCumAck = 5 ∧ r.1.sRecvTsnBlockList = [⟨8, 8⟩] ∧ r.1.sDupTsnList = [2] := by
    decide +kernel
  obtain ⟨hcum, hblocks, hdups⟩ := hfinal (s, outs) hrun
  exact ⟨s, outs, hrun, hcum, hblocks, hdups, htracks⟩

/-- `ProcessForwardTsnChunk` does not call `UpdateHighestTsn`: a chunk that it skipped is handed on
when it arrives late, and a block below the cumulative ack is recorded for it. -/
theorem skipped_chunk_handed_on :
    ∃ s outs, Runs.run recvStep (Receiver.init 0 100 1 (fun _ => .reliable)) [.forwardTsn 5] =
        some (s, outs) ∧
      ¬ HandledRight (Arrived 0 [.forwardTsn 5]) ⟨3, 10, 0, 2, false⟩
        (processDataChunk ⟨3, 10, 0, 2, false⟩ s) ∧
      ¬ Tracks 0 (Arrived 0 [.forwardTsn 5, .data ⟨3, 10, 0, 2, false⟩])
        (processDataChunk ⟨3, 10, 0, 2, false⟩ s).1 := by
  obtain ⟨⟨s, outs⟩, hrun⟩ : ∃ r, Runs.run recvStep
      (Receiver.init 0 100 1 (fun _ => .reliable)) [.forwardTsn 5] = some r :=
    Option.isSome_iff_exists.mp (by decide +kernel)
  have hfinal : ∀ r ∈ Runs.run recvStep (Receiver.init 0 100 1 (fun _ => .reliable)) [.forwardTsn 5],
      (processDataChunk ⟨3, 10, 0, 2, false⟩ r.1).2 = .passed ∧
        (processDataChunk ⟨3, 10, 0, 2, false⟩ r.1).1.uiCumAck = 5 ∧
        (processDataChunk ⟨3, 10, 0, 2, false⟩ r.1).1.sRecvTsnBlockList = [⟨3, 3⟩] := by
    decide +kernel
  obtain ⟨hpassed, hcum, hblocks⟩ := hfinal (s, outs) hrun
  refine ⟨s, outs, hrun, fun hright => ?_, fun htracks => ?_⟩
  · exact hright.1.mp hpassed (Or.inr (Or.inr ⟨5, by simp, by decide⟩))
  · have hlt := ((htracks.runs ⟨3, 3⟩).mp (by rw [hblocks]; simp)).1
    rw [hcum] at hlt
    exact absurd hlt (by decide)

end NetSim.Sctp
