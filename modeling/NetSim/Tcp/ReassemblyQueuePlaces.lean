import NetSim.Tcp.ReassemblyQueueNodes

/-! # The reassembly queue: where `add` places a segment

`add` adds its segment to the set of sequence numbers that the blocks cover (`add_spec`). Every way through it
ends as `Ends` says, for the blocks that the loop `kill` has left (`add_ends`); when the loop has freed a
block, `add` starts again with the rest (`again2_ends`).
-/

namespace NetSim

open Function List LinkedList IntervalList

namespace ReassemblyQueue

variable {q q' : ReassemblyQueue} {xs ys fs l m r u gone : List ℕ} {p n b c x : ℕ} {s e s' e' : ℤ}
  {tiflags rqflags : ℕ} {initcnt : ℤ}

theorem nodup_first (h : (l ++ b :: r).Nodup) (hhead : (l ++ b :: r).head? = some b) : l = [] := by
  cases l with
  | nil => rfl
  | cons a l =>
    obtain rfl : a = b := Option.some.inj hhead
    exact absurd (mem_cons_self) (nodup_middle h).2.2.1

theorem nodup_last (h : (l ++ b :: r).Nodup) (hlast : (l ++ b :: r).getLast? = some b) : r = [] := by
  rcases eq_nil_or_concat r with rfl | ⟨r, a, rfl⟩
  · rfl
  · rw [concat_eq_append] at h hlast
    have hcons : l ++ b :: (r ++ [a]) = (l ++ b :: r) ++ [a] := by simp
    rw [hcons, getLast?_concat] at hlast
    obtain rfl : a = b := Option.some.inj hlast
    exact absurd (by simp) (nodup_middle h).2.2.2.1

/-! ## Partial overlaps -/

/-- A merge that only adds flags to the block `b`, which is the block of the segment or is freed. -/
theorem Placed.of_flags {q₁ : ReassemblyQueue} (hsame : SameBlocks q q₁)
    (hflags : q₁.pflags = update q.pflags b (q.pflags b ||| tiflags))
    (hb : u.head? = some b ∨ b ∈ gone) (hu : u ≠ []) (h : Placed q₁ q' xs ys s e tiflags u gone x) :
    Placed q q' xs ys s e tiflags u gone x := by
  obtain ⟨hhead, hx, hgone⟩ : u.head? = some x ∧ x ∈ xs ∧ x ∉ gone := h.node.resolve_left (fun hnil => hu hnil.1)
  refine ⟨h.fifo, h.lifo, h.node, ?_, fun a ha hag hax => ?_, h.contains, fun a ha => ?_⟩
  · have hx' := h.pflags
    rw [if_neg hu] at hx' ⊢
    rw [hx', hflags]
    by_cases hxb : x = b
    · rw [hxb, update_self, Nat.or_assoc, Nat.or_self]
    · rw [update_of_ne hxb]
  · obtain ⟨hblock, hfl⟩ := h.same a ha hag hax
    have hab : a ≠ b := by
      rintro rfl
      rcases hb with hb | hb
      · rw [hhead] at hb
        exact hax (Option.some.inj hb).symm
      · exact hag hb
    exact ⟨hblock.trans (hsame.block a), by rw [hfl, hflags, update_of_ne hab]⟩
  · have hgrows := h.grows a ha
    rw [hsame.startseq, hsame.endseq] at hgrows
    exact hgrows

theorem PlacedBy.of_flags {q₁ : ReassemblyQueue} {res : Option (ReassemblyQueue × ℕ)}
    (h : PlacedBy q₁ xs ys s e tiflags u res) (hsame : SameBlocks q q₁)
    (hflags : q₁.pflags = update q.pflags b (q.pflags b ||| tiflags)) (hb : b ∈ u) :
    PlacedBy q xs ys s e tiflags u res := by
  obtain ⟨q', x, hres, hplaced⟩ := h
  cases u with
  | nil => cases hb
  | cons a u =>
    have hb' : (a :: u).head? = some b ∨ b ∈ u := by
      rcases mem_cons.mp hb with rfl | hb
      · exact .inl rfl
      · exact .inr hb
    exact ⟨q', x, hres, hplaced.of_flags hsame hflags hb' (cons_ne_nil a u)⟩

theorem Rep.placed_inner (h : Rep q xs ys fs) (hb : b ∈ xs) (hfifo : q'.fifo = q.fifo) (hlifo : q'.lifo = q.lifo)
    (hflags : q'.pflags = update q.pflags b (q.pflags b ||| tiflags))
    (hother : ∀ a, a ≠ b → q'.block a = q.block a) (hcontains : q'.startseq b ≤ s ∧ e ≤ q'.endseq b)
    (hgrows : q'.startseq b ≤ q.startseq b ∧ q.endseq b ≤ q'.endseq b) :
    Placed q q' xs ys s e tiflags [b] [] b := by
  have hne : [b] ≠ [] := cons_ne_nil b []
  refine ⟨⟨xs, by rw [hfifo]; exact h.fifo, fun a => ?_⟩, ?_, .inr ⟨rfl, hb, not_mem_nil⟩, ?_,
    fun a _ _ hab => ⟨hother a hab, ?_⟩, hcontains, fun a ha => ?_⟩
  · constructor
    · exact fun ha => .inr ⟨ha, not_mem_nil⟩
    · rintro (rfl | ⟨ha, -⟩)
      · exact hb
      · exact ha
  · rw [if_neg hne, filter_not_mem_nil, hlifo]
    exact h.lifo
  · rw [if_neg hne, hflags, update_self]
  · rw [hflags, update_of_ne hab]
  · rw [mem_singleton.mp ha]
    exact hgrows

theorem Cut.ends_hole (hc : Cut q l [] r s e) (hv : Valid q (l ++ r)) (hrep : Rep q (l ++ r) ys fs) :
    Adds q (l ++ r) s e (q.insertPartial l.getLast? r.head? s e tiflags rqflags initcnt) ∧
      Ends q (l ++ r) ys s e tiflags
        (q.insertPartial l.getLast? r.head? s e tiflags rqflags initcnt) := by
  -- neither end of the queue is at the hole
  obtain ⟨c, r, rfl⟩ : ∃ c r', r = c :: r' := by
    cases r with
    | nil =>
      obtain ⟨a, ha⟩ : ∃ a, l.getLast? = some a := by
        cases h : l.getLast? with
        | none => exact absurd (getLast?_eq_none_iff.mp h) (by simpa using hc.ne)
        | some a => exact ⟨a, rfl⟩
      have h1 := hc.last a (by simpa using ha)
      have h2 := hc.left a (mem_of_getLast? ha)
      omega
    | cons c r => exact ⟨c, r, rfl⟩
  obtain ⟨l, p, rfl⟩ : ∃ l' p, l = l' ++ [p] := by
    rcases eq_nil_or_concat l with rfl | ⟨l, p, hlp⟩
    · have h1 := hc.first c rfl
      have h2 := hc.right c (by simp)
      omega
    · exact ⟨l, p, by simpa using hlp⟩
  have hpc := hc.left p (by simp)
  have hcr := hc.right c (by simp)
  have hse := hc.le
  have hlast : (l ++ [p]).getLast? = some p := by simp
  have hleft : q.leftBlock (l ++ [p]).getLast? s = some none := by
    rw [hrep.leftBlock, if_neg]
    simp
    omega
  have hrep' : Rep q (l ++ p :: c :: r) ys fs := by simpa using hrep
  have hright : q.rightBlock (c :: r).head? e = some none := by
    rw [hrep'.rightBlock, if_neg]
    simp
    omega
  have hnext : q.fifo.next p = some c := by
    rw [hrep'.fifo.next_eq]
    rfl
  unfold insertPartial
  rw [hleft]
  dsimp only
  unfold insertRight
  rw [hright]
  dsimp only
  unfold insertRest
  split
  case isTrue hes =>
    -- an empty segment in a hole is dropped
    obtain ⟨h, hh⟩ : ∃ h, ((l ++ [p]) ++ c :: r).head? = some h := by
      cases l <;> simp
    obtain ⟨t, ht⟩ : ∃ t, ((l ++ [p]) ++ c :: r).getLast? = some t := by
      rw [getLast?_append]
      exact ⟨_, by rw [getLast?_cons, Option.some_or]⟩
    have hfirst := hc.first h (by simpa using hh)
    have hend := hc.last t (by simpa using ht)
    have heq : s = e := le_antisymm hse hes
    refine ⟨hv.adds_nothing hh (hfirst.le.trans hes) hes, ?_⟩
    rw [hrep.fifo.head, hh]
    refine Ends.lost ⟨heq, ⟨h, mem_of_head? hh, by omega⟩, ⟨t, mem_of_getLast? ht, hend⟩,
      fun a ha => ?_⟩
    rcases mem_append.mp ha with ha | ha
    · have := hc.left a ha
      omega
    · have := hc.right a ha
      omega
  case isFalse hes =>
    have hg : Gap q (l ++ [p]) (c :: r) s e s e := by
      refine ⟨hse, fun a ha => ?_, fun a ha => ?_, .inl rfl, .inl rfl⟩
      · rw [hlast] at ha
        rw [← Option.some.inj ha]
        exact hpc
      · rw [← Option.some.inj ha]
        exact hcr
    have hmerge : decide (q.fifo.next p = some c ∧ q.endseq p ≤ s ∧ e ≤ q.startseq c ∧
        (q.endseq p = s ∨ q.startseq c = e)) = true ↔
        (∃ a, (l ++ [p]).getLast? = some a ∧ q.endseq a = s) ∨
          ∃ a, (c :: r).head? = some a ∧ e = q.startseq a := by
      rw [decide_eq_true_iff]
      simp only [hlast, hnext, head?_cons, true_and, hpc, hcr, Option.some.injEq,
        exists_eq_left', eq_comm]
    have hadds := @Valid.endfast q (l ++ [p]) (c :: r) s e tiflags rqflags initcnt s e hv hg _ hmerge
    have hplaced := @Valid.endfast_placed q ys fs (l ++ [p]) (c :: r) s e s e tiflags rqflags initcnt
      _ hv hrep hg hmerge
    rw [hlast] at hadds hplaced ⊢
    refine ⟨hadds, ?_⟩
    refine hplaced.ends (hv.touching_gap hse hc.left hc.right) (fun hlost => hes hlost.1.ge) ?_
    rintro a ha ⟨⟨h1, h2⟩, -⟩
    rcases mem_append.mp ha with ha | ha
    · have := hc.left a ha
      omega
    · have := hc.right a ha
      omega

theorem Valid.touching_before (hv : Valid q (l ++ b :: r)) (hb : q.startseq b ≤ s) :
    q.touching l s e = [] := by
  refine filter_eq_nil_iff.mpr (fun a ha => ?_)
  have hgap := hv.stop_lt_start ha (show b ∈ b :: r by simp)
  simp only [decide_eq_true_eq]
  omega

theorem Valid.touching_behind (hv : Valid q (l ++ b :: r)) (hb : e ≤ q.endseq b) :
    q.touching r s e = [] := by
  have hv' : Valid q ((l ++ [b]) ++ r) := by simpa using hv
  refine filter_eq_nil_iff.mpr (fun a ha => ?_)
  have hgap := hv'.stop_lt_start (show b ∈ l ++ [b] by simp) ha
  simp only [decide_eq_true_eq]
  omega

theorem touching_cons (hb : s < q.endseq b ∧ q.startseq b < e) :
    q.touching (b :: r) s e = b :: q.touching r s e := by
  refine filter_cons_of_pos ?_
  rw [decide_eq_true_eq]
  omega

/-- A block that overlaps a segment and reaches over it on both sides, or is the first or the last one, is the
only one that touches it. -/
theorem Valid.touching_one (hv : Valid q (l ++ b :: r)) (hmid : s < q.endseq b ∧ q.startseq b < e)
    (hl : l = [] ∨ q.startseq b ≤ s) (hr : r = [] ∨ e ≤ q.endseq b) :
    q.touching (l ++ b :: r) s e = [b] := by
  have hnone : q.touching l s e = [] := by
    rcases hl with rfl | hl
    · rfl
    · exact hv.touching_before hl
  have hnone' : q.touching r s e = [] := by
    rcases hr with rfl | hr
    · rfl
    · exact hv.touching_behind hr
  rw [touching_append, touching_cons hmid, hnone, hnone']
  rfl

theorem Cut.not_inner (hc : Cut q l m r s e) (h : ∀ a ∈ m, ¬ q.Inner (l ++ m ++ r) s e a) :
    ∀ a ∈ l ++ m ++ r, ¬ q.Inner (l ++ m ++ r) s e a := by
  intro a ha hinner
  have h1 := hinner.1
  rcases mem_append.mp ha with ha | ha
  · rcases mem_append.mp ha with ha | ha
    · have := hc.left a ha
      omega
    · exact h a ha hinner
  · have := hc.right a ha
    omega

theorem Cut.not_lost (hc : Cut q l m r s e) (hb : b ∈ m) : ¬ q.Lost (l ++ m ++ r) s e := by
  rintro ⟨rfl, -, -, hnone⟩
  have hmid := hc.mid b hb
  exact hnone b (by simp [hb]) ⟨hmid.2, hmid.1⟩

theorem Cut.ends_inner {q₁ : ReassemblyQueue} (hc : Cut q l [b] r s e) (hv : Valid q (l ++ b :: r))
    (hrep : Rep q (l ++ b :: r) ys fs) (hl : l = [] ∨ q.startseq b ≤ s) (hr : r = [] ∨ e ≤ q.endseq b)
    (hfifo : q₁.fifo = q.fifo) (hlifo : q₁.lifo = q.lifo)
    (hflags : q₁.pflags = update q.pflags b (q.pflags b ||| tiflags))
    (hother : ∀ a, a ≠ b → q₁.block a = q.block a) (hcontains : q₁.startseq b ≤ s ∧ e ≤ q₁.endseq b)
    (hgrows : q₁.startseq b ≤ q.startseq b ∧ q.endseq b ≤ q₁.endseq b) :
    Ends q (l ++ b :: r) ys s e tiflags (q₁.fifo.head.map (fun h => (q₁.reached h, tiflags))) := by
  have hmid := hc.mid b (by simp)
  have hpart := hc.partly b (by simp)
  have hmem : b ∈ l ++ b :: r := by simp
  obtain ⟨h, hh⟩ : ∃ h, (l ++ b :: r).head? = some h := by
    cases l <;> simp
  have hplaced := hrep.placed_inner hmem hfifo hlifo hflags hother hcontains hgrows
  rw [hfifo, hrep.fifo.head, hh]
  refine Ends.inner hmem ⟨⟨hmid.2, hmid.1⟩, fun hblock => ?_, ?_, ?_⟩ (hv.touching_one hmid hl hr)
    (hplaced.reached h)
  · have hstart : q.startseq b = s := congrArg Block.start hblock
    have hstop : q.endseq b = e := congrArg Block.stop hblock
    omega
  · exact hl.imp_left (fun hnil => by rw [hnil]; rfl)
  · exact hr.imp_left (fun hnil => by rw [hnil]; simp)

/-- The block covers the segment, or has no neighbour where it does not. -/
theorem Cut.ends_covered (hc : Cut q l [b] r s e) (hv : Valid q (l ++ b :: r))
    (hrep : Rep q (l ++ b :: r) ys fs) (hl : l = [] ∨ q.startseq b < s) (hr : r = [] ∨ e < q.endseq b) :
    Adds q (l ++ b :: r) s e (q.insertPartial l.getLast? r.head? s e tiflags rqflags initcnt) ∧
      Ends q (l ++ b :: r) ys s e tiflags
        (q.insertPartial l.getLast? r.head? s e tiflags rqflags initcnt) := by
  have hmid := hc.mid b (by simp)
  have hse := hc.le
  have hbb := hv.start_le_stop (show b ∈ l ++ b :: r by simp)
  unfold insertPartial
  rw [hrep.leftBlock]
  have hrep1 : Rep (q.mergeLeft b s tiflags) (l ++ b :: r) ys fs := hrep.congr rfl rfl rfl rfl
  simp only [if_pos hl]
  unfold insertRight
  rw [hrep1.rightBlock]
  have hr' : r = [] ∨ e < (q.mergeLeft b s tiflags).endseq b := hr
  simp only [if_pos hr']
  unfold insertRest
  rw [if_pos]
  · have hself : ((q.mergeLeft b s tiflags).mergeRight b e tiflags).block b =
        ⟨min s (q.startseq b), max e (q.endseq b)⟩ := by
      simp only [block, mergeRight, mergeLeft]
      by_cases h1 : s < q.startseq b <;> by_cases h2 : q.endseq b < e <;>
        simp [h1, h2] <;> omega
    have hstart : ((q.mergeLeft b s tiflags).mergeRight b e tiflags).startseq b =
        min s (q.startseq b) := congrArg Block.start hself
    have hstop : ((q.mergeLeft b s tiflags).mergeRight b e tiflags).endseq b =
        max e (q.endseq b) := congrArg Block.stop hself
    refine ⟨hc.adds_cover hv hl hr, ?_⟩
    refine hc.ends_inner hv hrep (hl.imp_right le_of_lt) (hr.imp_right le_of_lt) rfl rfl ?_
      (fun a ha => (mergeRight_block a ha).trans (mergeLeft_block a ha)) ?_ ?_
    · simp only [mergeRight, mergeLeft, update_self, update_idem, Nat.or_assoc,
        Nat.or_self]
    · rw [hstart, hstop]
      exact ⟨min_le_left _ _, le_max_left _ _⟩
    · rw [hstart, hstop]
      exact ⟨min_le_right _ _, le_max_right _ _⟩
  · show (q.mergeLeft b s tiflags).startseq b ≤ q.endseq b
    simp only [mergeLeft]
    split
    · rw [update_self]
      omega
    · exact hbb

/-- The rest of the segment goes into the gap behind the block. -/
theorem Cut.ends_behind (hc : Cut q l [b] r s e) (hv : Valid q (l ++ b :: r))
    (hrep : Rep q (l ++ b :: r) ys fs) (hl : l = [] ∨ q.startseq b < s) (hr : ¬ (r = [] ∨ e < q.endseq b)) :
    Adds q (l ++ b :: r) s e (q.insertPartial l.getLast? r.head? s e tiflags rqflags initcnt) ∧
      Ends q (l ++ b :: r) ys s e tiflags
        (q.insertPartial l.getLast? r.head? s e tiflags rqflags initcnt) := by
  have hmid := hc.mid b (by simp)
  have hpart := hc.partly b (by simp)
  have hse := hc.le
  have hxs : l ++ [b] ++ r = l ++ b :: r := by simp
  unfold insertPartial
  rw [hrep.leftBlock]
  have hrep1 : Rep (q.mergeLeft b s tiflags) (l ++ b :: r) ys fs := hrep.congr rfl rfl rfl rfl
  simp only [if_pos hl]
  unfold insertRight
  rw [hrep1.rightBlock]
  have hr' : ¬ (r = [] ∨ e < (q.mergeLeft b s tiflags).endseq b) := hr
  obtain ⟨hrne, hbe⟩ := not_or.mp hr
  have hbs : q.startseq b < s := by omega
  have hsame := @mergeLeft_same q b s tiflags (by omega)
  simp only [if_neg hr']
  unfold insertRest
  split
  case isTrue hle =>
    have hle' : e ≤ q.endseq b := hle
    refine ⟨hv.adds_inside hsame ⟨hbs.le, .inl hle'⟩, ?_⟩
    refine hc.ends_inner hv hrep (.inr hbs.le) (.inr hle') rfl rfl rfl (fun a _ => hsame.block a) ?_ ?_
    · rw [hsame.startseq, hsame.endseq]
      exact ⟨hbs.le, hle'⟩
    · rw [hsame.startseq, hsame.endseq]
      exact ⟨le_refl _, le_refl _⟩
  case isFalse hle =>
    have hle' : ¬ e ≤ q.endseq b := hle
    have hv' : Valid (q.mergeLeft b s tiflags) ((l ++ [b]) ++ r) := by
      rw [hxs]
      exact hsame.valid hv
    have hlast : (l ++ [b]).getLast? = some b := by simp
    have hg : Gap (q.mergeLeft b s tiflags) (l ++ [b]) r s e (q.endseq b) e := by
      refine ⟨by omega, fun a ha => ?_, fun a ha => ?_, .inr ⟨b, hlast, ?_⟩, .inl rfl⟩
      · rw [hlast] at ha
        rw [← Option.some.inj ha, hsame.endseq]
      · rw [hsame.startseq]
        exact hc.right a (mem_of_head? ha)
      · rw [hsame.endseq, hsame.startseq]
        exact ⟨rfl, hbs.le, hmid.1.le⟩
    have hmerge : true = true ↔
        (∃ a, (l ++ [b]).getLast? = some a ∧ (q.mergeLeft b s tiflags).endseq a = q.endseq b) ∨
          ∃ a, r.head? = some a ∧ e = (q.mergeLeft b s tiflags).startseq a :=
      iff_of_true rfl (.inl ⟨b, hlast, by rw [hsame.endseq]⟩)
    have hadds := @Valid.endfast (q.mergeLeft b s tiflags) (l ++ [b]) r s e tiflags rqflags
      (initcnt - 1) (q.endseq b) e hv' hg _ hmerge
    have hplaced := @Valid.endfast_placed (q.mergeLeft b s tiflags) ys fs (l ++ [b]) r s e (q.endseq b) e
      tiflags rqflags (initcnt - 1) true hv' (by rw [hxs]; exact hrep1) hg hmerge
    rw [hlast, hxs] at hadds hplaced
    have hu : q.touching (l ++ b :: r) s e =
        (q.mergeLeft b s tiflags).touched (l ++ [b]) r (q.endseq b) e := by
      have hright := @Valid.touching_right q (l ++ [b]) r s e (by rw [hxs]; exact hv) hse hc.right
      rw [touching_append, touching_cons ⟨hmid.1, hmid.2⟩, hv.touching_before hbs.le, hright]
      unfold touched
      rw [hlast, hsame.endseq, hsame.startseq]
      simp
    rw [← hu] at hplaced
    have hb : b ∈ q.touching (l ++ b :: r) s e := by
      rw [touching_append, touching_cons ⟨hmid.1, hmid.2⟩]
      simp
    refine ⟨hsame.adds hadds, (hplaced.of_flags hsame rfl hb).ends rfl ?_ ?_⟩
    · rw [← hxs]
      exact hc.not_lost (mem_singleton.mpr rfl)
    · rw [← hxs]
      refine hc.not_inner (fun a ha hinner => ?_)
      rw [mem_singleton.mp ha, hxs] at hinner
      rcases hinner.2.2.2 with hlast' | hstop
      · exact hrne (nodup_last hrep.nodupFifo hlast')
      · exact hle' hstop

/-- The rest of the segment goes into the gap before the block. -/
theorem Cut.ends_before (hc : Cut q l [b] r s e) (hv : Valid q (l ++ b :: r))
    (hrep : Rep q (l ++ b :: r) ys fs) (hl : ¬ (l = [] ∨ q.startseq b < s)) :
    Adds q (l ++ b :: r) s e (q.insertPartial l.getLast? r.head? s e tiflags rqflags initcnt) ∧
      Ends q (l ++ b :: r) ys s e tiflags
        (q.insertPartial l.getLast? r.head? s e tiflags rqflags initcnt) := by
  have hmid := hc.mid b (by simp)
  have hpart := hc.partly b (by simp)
  have hse := hc.le
  have hxs : l ++ [b] ++ r = l ++ b :: r := by simp
  unfold insertPartial
  rw [hrep.leftBlock]
  obtain ⟨hlne, hs⟩ := not_or.mp hl
  have hbe : e < q.endseq b := by omega
  have hsame := @mergeRight_same q b e tiflags (by omega)
  simp only [if_neg hl]
  unfold insertRight
  rw [hrep.rightBlock]
  simp only [if_pos (Or.inr hbe : r = [] ∨ e < q.endseq b)]
  unfold insertRest
  split
  case isTrue hle =>
    have hle' : q.startseq b ≤ s := hle
    refine ⟨hv.adds_inside hsame ⟨hle', .inl hbe.le⟩, ?_⟩
    refine hc.ends_inner hv hrep (.inr hle') (.inr hbe.le) rfl rfl rfl (fun a _ => hsame.block a) ?_ ?_
    · rw [hsame.startseq, hsame.endseq]
      exact ⟨hle', hbe.le⟩
    · rw [hsame.startseq, hsame.endseq]
      exact ⟨le_refl _, le_refl _⟩
  case isFalse hle =>
    have hle' : ¬ q.startseq b ≤ s := hle
    have hg : Gap (q.mergeRight b e tiflags) l (b :: r) s e s (q.startseq b) := by
      refine ⟨by omega, fun a ha => ?_, fun a ha => ?_, .inl rfl, .inr ⟨b, rfl, ?_⟩⟩
      · rw [hsame.endseq]
        exact hc.left a (mem_of_getLast? ha)
      · rw [← Option.some.inj ha, hsame.startseq]
      · rw [hsame.endseq, hsame.startseq]
        exact ⟨rfl, hbe.le, hmid.2.le⟩
    have hmerge : true = true ↔
        (∃ a, l.getLast? = some a ∧ (q.mergeRight b e tiflags).endseq a = s) ∨
          ∃ a, (b :: r).head? = some a ∧ q.startseq b = (q.mergeRight b e tiflags).startseq a :=
      iff_of_true rfl (.inr ⟨b, rfl, by rw [hsame.startseq]⟩)
    have hadds := @Valid.endfast (q.mergeRight b e tiflags) l (b :: r) s e tiflags rqflags initcnt
      s (q.startseq b) (hsame.valid hv) hg _ hmerge
    have hplaced := @Valid.endfast_placed (q.mergeRight b e tiflags) ys fs l (b :: r) s e s (q.startseq b)
      tiflags rqflags initcnt true (hsame.valid hv) (hrep.congr rfl rfl rfl rfl) hg hmerge
    have hu : q.touching (l ++ b :: r) s e =
        (q.mergeRight b e tiflags).touched l (b :: r) s (q.startseq b) := by
      rw [touching_append, touching_cons ⟨hmid.1, hmid.2⟩, hv.touching_behind hbe.le,
        hv.touching_left hse hc.left]
      unfold touched
      rw [hsame.endseq, hsame.startseq]
      simp
    rw [← hu] at hplaced
    have hb : b ∈ q.touching (l ++ b :: r) s e := by
      rw [touching_append, touching_cons ⟨hmid.1, hmid.2⟩]
      simp
    refine ⟨hsame.adds hadds, (hplaced.of_flags hsame rfl hb).ends rfl ?_ ?_⟩
    · rw [← hxs]
      exact hc.not_lost (mem_singleton.mpr rfl)
    · rw [← hxs]
      refine hc.not_inner (fun a ha hinner => ?_)
      rw [mem_singleton.mp ha, hxs] at hinner
      rcases hinner.2.2.1 with hfirst | hstart
      · exact hlne (nodup_first hrep.nodupFifo hfirst)
      · exact hle' hstart

theorem Cut.ends_one (hc : Cut q l [b] r s e) (hv : Valid q (l ++ b :: r))
    (hrep : Rep q (l ++ b :: r) ys fs) :
    Adds q (l ++ b :: r) s e (q.insertPartial l.getLast? r.head? s e tiflags rqflags initcnt) ∧
      Ends q (l ++ b :: r) ys s e tiflags
        (q.insertPartial l.getLast? r.head? s e tiflags rqflags initcnt) := by
  by_cases hl : l = [] ∨ q.startseq b < s
  · by_cases hr : r = [] ∨ e < q.endseq b
    · exact hc.ends_covered hv hrep hl hr
    · exact hc.ends_behind hv hrep hl hr
  · exact hc.ends_before hv hrep hl

theorem Cut.ends_two {b' : ℕ} (hc : Cut q l [b, b'] r s e) (hv : Valid q (l ++ b :: b' :: r))
    (hrep : Rep q (l ++ b :: b' :: r) ys fs) (hb : q.startseq b < s) (hgap : q.endseq b < q.startseq b')
    (hb' : e < q.endseq b') :
    Adds q (l ++ b :: b' :: r) s e
        (q.insertPartial l.getLast? r.head? s e tiflags rqflags initcnt) ∧
      Ends q (l ++ b :: b' :: r) ys s e tiflags
        (q.insertPartial l.getLast? r.head? s e tiflags rqflags initcnt) := by
  have h1 := hc.mid b (by simp)
  have h2 := hc.mid b' (by simp)
  have hxs : l ++ [b, b'] ++ r = l ++ b :: b' :: r := by simp
  have hxs' : (l ++ [b]) ++ b' :: r = l ++ b :: b' :: r := by simp
  have hsame1 := @mergeLeft_same q b s tiflags (by omega)
  have hsame2 : SameBlocks (q.mergeLeft b s tiflags)
      ((q.mergeLeft b s tiflags).mergeRight b' e tiflags) :=
    mergeRight_same (by rw [hsame1.endseq]; omega)
  have hsame := hsame1.trans hsame2
  have hrep1 : Rep (q.mergeLeft b s tiflags) ((l ++ [b]) ++ b' :: r) ys fs := by
    rw [hxs']
    exact hrep.congr rfl rfl rfl rfl
  have hlast : (l ++ [b]).getLast? = some b := by simp
  have hne : b ∉ b' :: r := (nodup_middle hrep.nodupFifo).2.2.2.1
  unfold insertPartial
  rw [hrep.leftBlock]
  simp only [if_pos (Or.inr hb : l = [] ∨ q.startseq b < s)]
  unfold insertRight
  rw [hrep1.rightBlock]
  have hr : r = [] ∨ e < (q.mergeLeft b s tiflags).endseq b' := Or.inr hb'
  simp only [if_pos hr]
  unfold insertRest
  -- both ends are merged now, so the segment fills the gap between the two blocks
  rw [if_neg]
  · have hv' : Valid ((q.mergeLeft b s tiflags).mergeRight b' e tiflags) ((l ++ [b]) ++ b' :: r) := by
      rw [hxs']
      exact hsame.valid hv
    have hg : Gap ((q.mergeLeft b s tiflags).mergeRight b' e tiflags) (l ++ [b]) (b' :: r) s e
        (q.endseq b) (q.startseq b') := by
      refine ⟨hgap.le, fun a ha => ?_, fun a ha => ?_, .inr ⟨b, hlast, ?_⟩, .inr ⟨b', rfl, ?_⟩⟩
      · rw [hlast] at ha
        rw [← Option.some.inj ha, hsame.endseq]
      · rw [← Option.some.inj ha, hsame.startseq]
      · rw [hsame.endseq, hsame.startseq]
        exact ⟨rfl, hb.le, h1.1.le⟩
      · rw [hsame.endseq, hsame.startseq]
        exact ⟨rfl, hb'.le, h2.2.le⟩
    have hmerge : true = true ↔
        (∃ a, (l ++ [b]).getLast? = some a ∧
          ((q.mergeLeft b s tiflags).mergeRight b' e tiflags).endseq a = q.endseq b) ∨
          ∃ a, (b' :: r).head? = some a ∧
            q.startseq b' = ((q.mergeLeft b s tiflags).mergeRight b' e tiflags).startseq a :=
      iff_of_true rfl (.inl ⟨b, hlast, by rw [hsame.endseq]⟩)
    have hadds := @Valid.endfast ((q.mergeLeft b s tiflags).mergeRight b' e tiflags) (l ++ [b])
      (b' :: r) s e tiflags rqflags (initcnt - 1) (q.endseq b) (q.startseq b') hv' hg _ hmerge
    have hplaced := @Valid.endfast_placed ((q.mergeLeft b s tiflags).mergeRight b' e tiflags) ys fs (l ++ [b])
      (b' :: r) s e (q.endseq b) (q.startseq b') tiflags rqflags (initcnt - 1) true hv'
      (hrep1.congr rfl rfl rfl rfl) hg hmerge
    have hu : q.touching (l ++ b :: b' :: r) s e = [b, b'] := by
      have hv'' : Valid q ((l ++ [b]) ++ b' :: r) := by
        rw [hxs']
        exact hv
      rw [touching_append, touching_cons ⟨h1.1, h1.2⟩, touching_cons ⟨h2.1, h2.2⟩,
        hv.touching_before hb.le, hv''.touching_behind hb'.le]
      rfl
    have hu' : ((q.mergeLeft b s tiflags).mergeRight b' e tiflags).touched (l ++ [b]) (b' :: r)
        (q.endseq b) (q.startseq b') = [b, b'] := by
      unfold touched
      rw [hlast, hsame.endseq, hsame.startseq]
      simp
    rw [hlast, hxs'] at hadds
    rw [hu', hlast, hxs'] at hplaced
    have hstart : ((q.mergeLeft b s tiflags).mergeRight b' e tiflags).startseq b' = q.startseq b' := by
      rw [hsame.startseq]
    have hplaced' := (hplaced.of_flags hsame2 rfl (by simp)).of_flags hsame1 rfl (by simp)
    rw [← hstart] at hadds hplaced'
    refine ⟨hsame.adds hadds, hplaced'.ends hu ?_ ?_⟩
    · rw [← hxs]
      exact hc.not_lost (show b ∈ [b, b'] by simp)
    · rw [← hxs]
      refine hc.not_inner (fun a ha hinner => ?_)
      rw [hxs] at hinner
      rcases mem_cons.mp ha with rfl | ha
      · -- the second block is behind it, and it ends before the segment
        rcases hinner.2.2.2 with hlast' | hstop
        · exact absurd (nodup_last hrep.nodupFifo hlast') (cons_ne_nil b' r)
        · omega
      · rw [mem_singleton.mp ha] at hinner
        rcases hinner.2.2.1 with hfirst | hstart'
        · have hnd : ((l ++ [b]) ++ b' :: r).Nodup := by
            rw [hxs']
            exact hrep.nodupFifo
          rw [← hxs'] at hfirst
          exact absurd (nodup_first hnd hfirst) (by simp)
        · omega
  · rw [hsame.startseq, hsame1.endseq]
    omega

theorem Cut.ends (hc : Cut q l m r s e) (hv : Valid q (l ++ m ++ r)) (hrep : Rep q (l ++ m ++ r) ys fs) :
    Adds q (l ++ m ++ r) s e (q.insertPartial l.getLast? r.head? s e tiflags rqflags initcnt) ∧
      Ends q (l ++ m ++ r) ys s e tiflags
        (q.insertPartial l.getLast? r.head? s e tiflags rqflags initcnt) := by
  have hsep : Separated (q.blocks m) := by
    have := hv.separated
    rw [blocks_append, blocks_append] at this
    exact (separated_append.mp (separated_append.mp this).1).2.1
  rcases hc.overlap_cases hsep with rfl | ⟨b, rfl⟩ | ⟨b, b', rfl, h1, h2, h3⟩
  · rw [append_nil] at hv hrep ⊢
    exact hc.ends_hole hv hrep
  · rw [append_assoc, singleton_append] at hv hrep ⊢
    exact hc.ends_one hv hrep
  · rw [append_assoc, cons_append, singleton_append] at hv hrep ⊢
    exact hc.ends_two hv hrep h1 h2 h3

/-! ## The blocks that are killed -/

/-- The loop kills the block of `a`: the segment covers it, it is not the segment, and the segment does not lie
behind all blocks. -/
def Doomed (q : ReassemblyQueue) (xs : List ℕ) (s e : ℤ) (a : ℕ) : Prop :=
  q.Overlapped s e a ∧ q.startseq a < e ∧ (∃ b ∈ xs, s < q.endseq b) ∧ q.block a ≠ ⟨s, e⟩

instance (q : ReassemblyQueue) (xs : List ℕ) (s e : ℤ) (a : ℕ) : Decidable (q.Doomed xs s e a) :=
  inferInstanceAs (Decidable (_ ∧ _ ∧ (∃ b ∈ xs, _) ∧ _))

def killed (q : ReassemblyQueue) (xs : List ℕ) (s e : ℤ) : List ℕ := xs.filter (fun a => q.Doomed xs s e a)

def remaining (q : ReassemblyQueue) (xs : List ℕ) (s e : ℤ) : List ℕ :=
  xs.filter (fun a => ¬ q.Doomed xs s e a)

/-- The flags of the segment and of the killed blocks. -/
def collected (q : ReassemblyQueue) (xs : List ℕ) (s e : ℤ) (tiflags : ℕ) : ℕ :=
  (q.killed xs s e).foldl (fun f a => f ||| q.pflags a) tiflags

/-- The queue without the nodes `removed`. -/
structure Cleared (q q₁ : ReassemblyQueue) (xs ys removed : List ℕ) : Prop where
  rep : ∃ fs, Rep q₁ xs (ys.filter (fun a => a ∉ removed)) fs
  startseq : q₁.startseq = q.startseq
  endseq : q₁.endseq = q.endseq
  pflags : q₁.pflags = q.pflags

/-- **What `add` does**: it kills some blocks, and goes on with the others. -/
def AddEnds (q : ReassemblyQueue) (xs ys : List ℕ) (s e : ℤ) (tiflags : ℕ)
    (res : Option (ReassemblyQueue × ℕ)) : Prop :=
  ∃ q₁, Cleared q q₁ (q.remaining xs s e) ys (q.killed xs s e) ∧
    Ends q₁ (q.remaining xs s e) (ys.filter (fun a => a ∉ q.killed xs s e)) s e (q.collected xs s e tiflags) res

/-- `add` adds the segment, and ends as `AddEnds` says. -/
def Places (q : ReassemblyQueue) (xs ys : List ℕ) (s e : ℤ) (tiflags : ℕ)
    (res : Option (ReassemblyQueue × ℕ)) : Prop :=
  Adds q xs s e res ∧ AddEnds q xs ys s e tiflags res

theorem remaining_eq (h : ∀ a ∈ xs, ¬ q.Doomed xs s e a) : q.remaining xs s e = xs :=
  filter_eq_self.mpr (fun a ha => decide_eq_true (h a ha))

theorem killed_eq (h : ∀ a ∈ xs, ¬ q.Doomed xs s e a) : q.killed xs s e = [] :=
  filter_eq_nil_iff.mpr (fun a ha => by simpa using h a ha)

theorem Ends.addEnds {res : Option (ReassemblyQueue × ℕ)} (h : Ends q xs ys s e tiflags res)
    (hrep : Rep q xs ys fs) (hno : ∀ a ∈ xs, ¬ q.Doomed xs s e a) : AddEnds q xs ys s e tiflags res := by
  have hkilled := killed_eq hno
  have hremaining := remaining_eq hno
  have hys : ys.filter (fun a => a ∉ q.killed xs s e) = ys := by
    rw [hkilled]
    exact filter_not_mem_nil ys
  refine ⟨q, ⟨⟨fs, ?_⟩, rfl, rfl, rfl⟩, ?_⟩
  · rw [hys, hremaining]
    exact hrep
  · unfold collected
    rw [hys, hremaining, hkilled]
    exact h

theorem Cleared.addEnds {q₁ : ReassemblyQueue} {res : Option (ReassemblyQueue × ℕ)}
    (hclear : Cleared q q₁ (q.remaining xs s e) ys (q.killed xs s e))
    (h : AddEnds q₁ (q.remaining xs s e) (ys.filter (fun a => a ∉ q.killed xs s e)) s e
      (q.collected xs s e tiflags) res) : AddEnds q xs ys s e tiflags res := by
  have hno : ∀ a ∈ q.remaining xs s e, ¬ q₁.Doomed (q.remaining xs s e) s e a := by
    rintro a ha ⟨hover, hlt, ⟨b, hb, hsb⟩, hne⟩
    have hblock : q₁.block a = q.block a := by
      rw [block, hclear.startseq, hclear.endseq]
      rfl
    have hover' : q.Overlapped s e a := by
      unfold Overlapped at hover ⊢
      rw [hclear.startseq, hclear.endseq] at hover
      exact hover
    rw [hclear.startseq] at hlt
    rw [hclear.endseq] at hsb
    rw [hblock] at hne
    have hdoomed : q.Doomed xs s e a := ⟨hover', hlt, ⟨b, mem_of_mem_filter hb, hsb⟩, hne⟩
    have hnot := (mem_filter.mp ha).2
    rw [decide_eq_true_eq] at hnot
    exact hnot hdoomed
  obtain ⟨q₂, hclear', hends⟩ := h
  have hkilled := killed_eq hno
  have hremaining := remaining_eq hno
  unfold collected at hends
  rw [hremaining, hkilled] at hclear' hends
  rw [filter_not_mem_nil] at hends
  obtain ⟨fs, hrep⟩ := hclear'.rep
  rw [filter_not_mem_nil] at hrep
  exact ⟨q₂, ⟨⟨fs, hrep⟩, hclear'.startseq.trans hclear.startseq, hclear'.endseq.trans hclear.endseq,
    hclear'.pflags.trans hclear.pflags⟩, hends⟩

/-! ## The rounds of `add` -/

theorem Valid.le_last (hv : Valid q xs) {t : ℕ} (ht : xs.getLast? = some t) {a : ℕ} (ha : a ∈ xs) :
    q.endseq a ≤ q.endseq t := by
  obtain ⟨l, rfl⟩ := getLast?_eq_some_iff.mp ht
  rcases mem_append.mp ha with ha | ha
  · have hgap := hv.stop_lt_start ha (show t ∈ [t] by simp)
    omega
  · rw [mem_singleton.mp ha]

theorem Valid.head_le (hv : Valid q xs) {h : ℕ} (hh : xs.head? = some h) {a : ℕ} (ha : a ∈ xs) :
    q.startseq h ≤ q.startseq a := by
  obtain ⟨r, rfl⟩ := head?_eq_some_iff.mp hh
  rcases mem_cons.mp ha with rfl | ha
  · exact le_refl _
  · have hgap := Valid.stop_lt_start (show Valid q ([h] ++ r) from hv) (show h ∈ [h] by simp) ha
    omega

theorem Valid.ends_tail (hv : Valid q xs) (hrep : Rep q xs ys fs) (hse : s ≤ e) {t : ℕ}
    (ht : xs.getLast? = some t) (hend : q.endseq t ≤ s) :
    Places q xs ys s e tiflags
      (q.endfast (some t) none s e tiflags rqflags initcnt (decide (s = q.endseq t))) := by
  have hall : ∀ a ∈ xs, q.endseq a ≤ s := fun a ha => le_trans (hv.le_last ht ha) hend
  have hv' : Valid q (xs ++ []) := by simpa using hv
  have hrep' : Rep q (xs ++ []) ys fs := by simpa using hrep
  have hg : Gap q xs [] s e s e :=
    ⟨hse, fun a ha => hall a (mem_of_getLast? ha), fun a ha => by simp at ha, .inl rfl, .inl rfl⟩
  have hmerge : decide (s = q.endseq t) = true ↔
      (∃ a, xs.getLast? = some a ∧ q.endseq a = s) ∨ ∃ a, ([] : List ℕ).head? = some a ∧ e = q.startseq a := by
    simp [ht, eq_comm]
  have hadds := @Valid.endfast q xs [] s e tiflags rqflags initcnt s e hv' hg _ hmerge
  have hplaced := @Valid.endfast_placed q ys fs xs [] s e s e tiflags rqflags initcnt _ hv' hrep' hg hmerge
  rw [ht, append_nil] at hadds
  rw [ht, ← hv'.touching_gap hse hall (fun a ha => absurd ha not_mem_nil), append_nil] at hplaced
  refine ⟨hadds, (hplaced.ends rfl ?_ ?_).addEnds hrep ?_⟩
  · rintro ⟨-, -, ⟨a, ha, hlt⟩, -⟩
    exact absurd hlt (not_lt_of_ge (hall a ha))
  · intro a ha hinner
    exact absurd hinner.1.2 (not_lt_of_ge (hall a ha))
  · rintro a - ⟨-, -, ⟨b, hb, hlt⟩, -⟩
    exact absurd hlt (not_lt_of_ge (hall b hb))

theorem Valid.ends_head (hv : Valid q xs) (hrep : Rep q xs ys fs) (hse : s ≤ e) {h : ℕ}
    (hh : xs.head? = some h) (hbegin : e ≤ q.startseq h) :
    Places q xs ys s e tiflags
      (q.endfast none (some h) s e tiflags rqflags initcnt (decide (e = q.startseq h))) := by
  have hall : ∀ a ∈ xs, e ≤ q.startseq a := fun a ha => le_trans hbegin (hv.head_le hh ha)
  have hg : Gap q [] xs s e s e :=
    ⟨hse, fun a ha => by simp at ha, fun a ha => hall a (mem_of_head? ha), .inl rfl, .inl rfl⟩
  have hmerge : decide (e = q.startseq h) = true ↔
      (∃ a, ([] : List ℕ).getLast? = some a ∧ q.endseq a = s) ∨ ∃ a, xs.head? = some a ∧ e = q.startseq a := by
    simp [hh]
  have hadds := @Valid.endfast q [] xs s e tiflags rqflags initcnt s e hv hg _ hmerge
  have hplaced := @Valid.endfast_placed q ys fs [] xs s e s e tiflags rqflags initcnt _ hv hrep hg hmerge
  rw [hh] at hadds
  rw [hh, ← Valid.touching_gap (show Valid q ([] ++ xs) from hv) hse
    (fun a ha => absurd ha not_mem_nil) hall] at hplaced
  refine ⟨hadds, (PlacedBy.ends hplaced rfl ?_ ?_).addEnds hrep ?_⟩
  · rintro ⟨rfl, ⟨a, ha, hlt⟩, -⟩
    exact absurd hlt (not_lt_of_ge (hall a ha))
  · intro a ha hinner
    exact absurd hinner.1.1 (not_lt_of_ge (hall a ha))
  · rintro a ha ⟨-, hlt, -⟩
    exact absurd hlt (not_lt_of_ge (hall a ha))

theorem Valid.ends_exact (hv : Valid q (l ++ c :: r)) (hrep : Rep q (l ++ c :: r) ys fs)
    (hc : q.block c = ⟨s, e⟩) (hlt : s < e) :
    Places q (l ++ c :: r) ys s e tiflags
      (some ({ q with pflags := update q.pflags c (q.pflags c ||| tiflags) },
        q.pflags c ||| tiflags)) := by
  have hstart : q.startseq c = s := congrArg Block.start hc
  have hstop : q.endseq c = e := congrArg Block.stop hc
  have hmem : c ∈ l ++ c :: r := by simp
  -- the other blocks lie before it or behind it
  have hother : ∀ a ∈ l ++ c :: r, a ≠ c → q.startseq a ≤ q.endseq a ∧
      (q.endseq a < s ∨ e < q.startseq a) := by
    intro a ha hne
    rcases mem_append.mp ha with ha | ha
    · have hgap := hv.stop_lt_start ha (show c ∈ c :: r by simp)
      omega
    · have hv' : Valid q ((l ++ [c]) ++ r) := by simpa using hv
      have hgap := hv'.stop_lt_start (show c ∈ l ++ [c] by simp) ((mem_cons.mp ha).resolve_left hne)
      omega
  have htouching : q.touching (l ++ c :: r) s e = [c] :=
    hv.touching_one (by omega) (.inr hstart.le) (.inr hstop.ge)
  have hplaced : Placed q { q with pflags := update q.pflags c (q.pflags c ||| tiflags) }
      (l ++ c :: r) ys s e tiflags [c] [] c :=
    hrep.placed_inner hmem rfl rfl rfl (fun _ _ => rfl) ⟨hstart.le, hstop.ge⟩ ⟨le_refl _, le_refl _⟩
  have hends : ∀ q₁ flags, q₁.pflags c = flags → Placed q q₁ (l ++ c :: r) ys s e tiflags [c] [] c →
      Ends q (l ++ c :: r) ys s e tiflags (some (q₁, flags)) := by
    rintro q₁ flags rfl hplaced
    refine .placed (fun hlost => absurd hlost.1 (ne_of_lt hlt)) (fun a ha hinner => ?_) ?_
    · by_cases hac : a = c
      · rw [hac] at hinner
        exact hinner.2.1 hc
      · have := hother a ha hac
        have := hinner.1
        omega
    · rw [htouching]
      exact hplaced
  refine ⟨hv.adds_exact ⟨rfl, rfl, rfl, rfl, rfl, rfl, rfl, rfl⟩ hmem hc,
    (hends _ _ (update_self c (q.pflags c ||| tiflags) q.pflags) hplaced).addEnds hrep
      (fun a ha hdoomed => ?_)⟩
  by_cases hac : a = c
  · rw [hac] at hdoomed
    exact hdoomed.2.2.2 hc
  · have := hother a ha hac
    have hle : s ≤ q.startseq a ∧ q.endseq a ≤ e := hdoomed.1
    omega

theorem doomed_iff {a t : List ℕ} (hsplit : ∀ x ∈ a, q.startseq x < s) (hr : ∀ x ∈ r, e ≤ q.startseq x)
    (ht : ∀ x ∈ t, q.startseq x < e ∧ q.block x ≠ ⟨s, e⟩) (hreach : ∃ b ∈ a ++ t ++ r, s < q.endseq b) :
    q.killed (a ++ t ++ r) s e = t.filter (fun x => q.Overlapped s e x) ∧
      q.remaining (a ++ t ++ r) s e = a ++ t.filter (fun x => ¬ q.Overlapped s e x) ++ r := by
  have ha' : ∀ x ∈ a, ¬ q.Doomed (a ++ t ++ r) s e x :=
    fun x hx hdoomed => absurd (hsplit x hx) (not_lt_of_ge hdoomed.1.1)
  have hr' : ∀ x ∈ r, ¬ q.Doomed (a ++ t ++ r) s e x :=
    fun x hx hdoomed => absurd hdoomed.2.1 (not_lt_of_ge (hr x hx))
  have ht' : ∀ x ∈ t, q.Doomed (a ++ t ++ r) s e x ↔ q.Overlapped s e x :=
    fun x hx => ⟨And.left, fun hover => ⟨hover, (ht x hx).1, hreach, (ht x hx).2⟩⟩
  constructor
  · have hanil : a.filter (fun x => q.Doomed (a ++ t ++ r) s e x) = [] :=
      filter_eq_nil_iff.mpr (fun x hx => by simpa using ha' x hx)
    have hrnil : r.filter (fun x => q.Doomed (a ++ t ++ r) s e x) = [] :=
      filter_eq_nil_iff.mpr (fun x hx => by simpa using hr' x hx)
    unfold killed
    rw [filter_append, filter_append, hanil, hrnil, nil_append, append_nil]
    exact filter_congr (fun x hx => decide_eq_decide.mpr (ht' x hx))
  · unfold remaining
    rw [filter_append, filter_append, filter_eq_self.mpr (fun x hx => decide_eq_true (ha' x hx)),
      filter_eq_self.mpr (fun x hx => decide_eq_true (hr' x hx)),
      filter_congr (fun x hx => decide_eq_decide.mpr (not_congr (ht' x hx)))]

/-- The loop stops at a block that is the segment exactly. -/
theorem Valid.kill_matched {a t : List ℕ} {fuel : ℕ} (hv : Valid q (a ++ t ++ r)) (hrep : Rep q (a ++ t ++ r) ys fs)
    (hct : c ∈ t) (hblock : q.block c = ⟨s, e⟩) (hstart : q.startseq c < e) (hfuel : t.length < fuel)
    (tiflags : ℕ) (initcnt : ℤ) :
    ∃ q' flags, kill s e r.head? fuel q (t ++ r).head? tiflags initcnt false = some (.exact q' flags) ∧
      Places q (a ++ t ++ r) ys s e tiflags (some (q', flags)) := by
  have hcs : q.startseq c = s := congrArg Block.start hblock
  have hlt : s < e := hcs ▸ hstart
  obtain ⟨t₁, t₂, rfl⟩ := append_of_mem hct
  have hassoc : a ++ (t₁ ++ c :: t₂) ++ r = (a ++ t₁) ++ c :: (t₂ ++ r) := by simp
  have hrepc : Rep q ((a ++ t₁) ++ c :: (t₂ ++ r)) ys fs := hassoc ▸ hrep
  have hvc : Valid q ((a ++ t₁) ++ c :: (t₂ ++ r)) := hassoc ▸ hv
  have hov : ∀ x ∈ t₁, ¬ q.Overlapped s e x := by
    intro x hx ho
    have hgap := hvc.stop_lt_start (mem_append_right a hx) (show c ∈ c :: (t₂ ++ r) by simp)
    have hle := ho.1
    omega
  have hstop : ∀ x ∈ t₁ ++ [c], r.head? ≠ some x := by
    intro x hx hhead
    have hnd : ((a ++ (t₁ ++ [c])) ++ (t₂ ++ r)).Nodup := by
      have hnd' := hrepc.nodupFifo
      simpa using hnd'
    exact disjoint_of_nodup_append hnd (mem_append_right a hx) (mem_append_right t₂ (mem_of_head? hhead))
  have hfuel' : t₁.length < fuel := by
    simp only [length_append] at hfuel
    omega
  have hkill := @kill_exact q ys fs a (t₂ ++ r) c s e t₁ fuel (by simpa using hrepc) r hstop hov hblock
    hfuel' tiflags initcnt false
  have hcons : t₁ ++ c :: t₂ ++ r = t₁ ++ c :: (t₂ ++ r) := by simp
  rw [hcons, hassoc]
  exact ⟨_, _, hkill, hvc.ends_exact hrepc hblock hlt⟩

theorem Cut.of_partly (hse : s ≤ e) (hl : ∀ a ∈ l, q.endseq a ≤ s)
    (hm : ∀ a ∈ m, s < q.endseq a ∧ q.startseq a < e) (hno : ∀ a ∈ m, ¬ q.Overlapped s e a)
    (hr : ∀ a ∈ r, e ≤ q.startseq a) (hlast : ∀ a, (l ++ m ++ r).getLast? = some a → s < q.endseq a)
    (hfirst : ∀ a, (l ++ m ++ r).head? = some a → q.startseq a < e) (hne : l ++ m ++ r ≠ []) : Cut q l m r s e := by
  refine ⟨hse, hl, hm, fun a ha => ?_, hr, hlast, hfirst, hne⟩
  have := not_and_or.mp (hno a ha)
  omega

theorem Trimmed.cut (h : Trimmed q q' gone) (hc : Cut q l m r s e) : Cut q' l m r s e := by
  obtain ⟨hse, hl, hm, hpart, hr, hlast, hfirst, hne⟩ := hc
  rw [← h.endseq] at hl hlast
  rw [← h.startseq] at hr hfirst
  refine ⟨hse, hl, ?_, ?_, hr, hlast, hfirst, hne⟩
  · rw [h.endseq, h.startseq]
    exact hm
  · rw [h.endseq, h.startseq]
    exact hpart

theorem Trimmed.doomed_iff (h : Trimmed q q' gone) : q'.Doomed xs s e x ↔ q.Doomed xs s e x := by
  unfold Doomed Overlapped
  rw [h.startseq, h.endseq, h.block]

/-- Nothing is killed when the loop finds no block that the segment covers. -/
theorem Valid.not_doomed {a t : List ℕ} (hv : Valid q (a ++ t ++ r)) (hbefore : ∀ x ∈ a, q.endseq x < s)
    (hno : ∀ x ∈ t, ¬ q.Overlapped s e x) (hr : ∀ x ∈ r, e ≤ q.startseq x) :
    ∀ x ∈ a ++ t ++ r, ¬ q.Doomed (a ++ t ++ r) s e x := by
  intro x hx hdoomed
  have hover : s ≤ q.startseq x ∧ q.endseq x ≤ e := hdoomed.1
  have hlt : q.startseq x < e := hdoomed.2.1
  have hxx := hv.start_le_stop hx
  rcases mem_append.mp hx with hx | hx
  · rcases mem_append.mp hx with hx | hx
    · have hxe := hbefore x hx
      omega
    · exact hno x hx hover
  · exact absurd hlt (not_lt_of_ge (hr x hx))

theorem Valid.ends_overlapping {fuel : ℕ} (hv : Valid q (l ++ m ++ r)) (hrep : Rep q (l ++ m ++ r) ys fs)
    (hse : s ≤ e) (hl : ∀ a ∈ l, q.endseq a ≤ s) (hl' : ∀ a ∈ l, q.startseq a < e)
    (hm : ∀ a ∈ m, s < q.endseq a ∧ q.startseq a < e)
    (hr : ∀ a ∈ r, e ≤ q.startseq a) (hfirst : ∀ a, (l ++ m ++ r).head? = some a → q.startseq a < e)
    (hlast : ∀ a, (l ++ m ++ r).getLast? = some a → s < q.endseq a) (hne : l ++ m ++ r ≠ [])
    (hsw : q.swallowsHead s e = false)
    (hagain : ∀ (q' : ReassemblyQueue) (xs' ys' fs' : List ℕ) (f : ℕ) (i : ℤ), Valid q' xs' →
      Rep q' xs' ys' fs' → xs' ≠ [] → xs'.length < (l ++ m ++ r).length → q'.swallowsHead s e = false →
      Places q' xs' ys' s e f (again2 s e rqflags fuel q' f i)) :
    Places q (l ++ m ++ r) ys s e tiflags
      (match kill s e r.head? q.fuel q (l.getLast?.or q.fifo.head) tiflags initcnt false with
        | none => none
        | some (.exact q flags) => some (q, flags)
        | some (.rest q tiflags initcnt altered) =>
          if q.fifo.head = none then
            q.endfast l.getLast? r.head? s e tiflags rqflags initcnt false
          else if altered then again2 s e rqflags fuel q tiflags initcnt
          else q.insertPartial l.getLast? r.head? s e tiflags rqflags initcnt) := by
  obtain ⟨a, t, hat, hcur, hmt, hpt, hap⟩ := kill_range l m r
  rw [hrep.fifo.head, ← hcur]
  have hfuel : t.length < q.fuel := by
    have h1 := hrep.length_lt_fuel
    rw [hat] at h1
    simp only [length_append] at h1
    omega
  have hrep' : Rep q (a ++ t ++ r) ys fs := hat ▸ hrep
  have hv' : Valid q (a ++ t ++ r) := hat ▸ hv
  have hstart : ∀ x ∈ t, q.startseq x < e := by
    intro x hx
    have hx' : x ∈ l ++ m := hat ▸ mem_append_right a hx
    rcases mem_append.mp hx' with hx' | hx'
    · exact hl' x hx'
    · exact (hm x hx').2
  -- the blocks before the loop end before the segment
  have hbefore : ∀ x ∈ a, q.endseq x < s := by
    intro x hx
    obtain ⟨p, hp⟩ := hap x hx
    have hv'' : Valid q (a ++ (t ++ r)) := by simpa using hv'
    have hgap := hv''.stop_lt_start hx (show p ∈ t ++ r from mem_append_left r (hpt p hp))
    have hpl := hl p (mem_of_getLast? hp)
    omega
  by_cases hex : ∃ c ∈ t, q.block c = ⟨s, e⟩
  · obtain ⟨c, hct, hblock⟩ := hex
    obtain ⟨q', flags, hkill, hplaces⟩ := hv'.kill_matched hrep' hct hblock (hstart c hct) hfuel tiflags initcnt
    rw [hkill, hat]
    exact hplaces
  · have hnex : ∀ x ∈ t, q.block x ≠ ⟨s, e⟩ := fun x hx h => hex ⟨x, hx, h⟩
    obtain ⟨q', i', fs', hkill, hrepk, htrim, hflags⟩ :=
      kill_spec t hrep' hnex hfuel tiflags initcnt false
    have hreach : ∃ b ∈ a ++ t ++ r, s < q.endseq b := by
      obtain ⟨z, hz⟩ : ∃ z, (l ++ m ++ r).getLast? = some z := by
        cases hg : (l ++ m ++ r).getLast? with
        | none => exact absurd (getLast?_eq_none_iff.mp hg) hne
        | some z => exact ⟨z, rfl⟩
      exact ⟨z, hat ▸ mem_of_getLast? hz, hlast z hz⟩
    obtain ⟨hkilled, hremaining⟩ := doomed_iff
      (fun x hx => lt_of_le_of_lt (hv'.start_le_stop (by simp [hx])) (hbefore x hx)) hr
      (fun x hx => ⟨hstart x hx, hnex x hx⟩) hreach
    have hysnd : ys.Nodup := hrep.perm.nodup_iff.mpr hrep.nodupFifo
    rw [hysnd.sdiff_eq_filter, ← hkilled, ← hremaining] at hrepk
    rw [hkill, hat]
    simp only [Bool.false_or]
    have hvk : Valid q' (q.remaining (a ++ t ++ r) s e) := by
      rw [hremaining]
      exact htrim.valid hv' (by rw [← hremaining]; exact hrepk)
    have hclear : Cleared q q' (q.remaining (a ++ t ++ r) s e) ys (q.killed (a ++ t ++ r) s e) :=
      ⟨⟨fs', hrepk⟩, htrim.startseq, htrim.endseq, hflags⟩
    have hhead : q'.fifo.head = none ↔ q.remaining (a ++ t ++ r) s e = [] := by
      rw [hrepk.fifo.head, head?_eq_none_iff]
    have hcollected : (t.filter (fun x => q.Overlapped s e x)).foldl (fun f x => f ||| q.pflags x) tiflags =
        q.collected (a ++ t ++ r) s e tiflags := by
      unfold collected
      rw [hkilled]
    rw [hcollected]
    split
    case isTrue hnone =>
      -- everything is covered by the segment, so it is the only block left
      have hnil := hhead.mp hnone
      rw [hremaining] at hnil
      obtain ⟨hat', rfl⟩ := append_eq_nil_iff.mp hnil
      obtain ⟨rfl, hft⟩ := append_eq_nil_iff.mp hat'
      have hov : ∀ x ∈ t, q.Overlapped s e x := by
        intro x hx
        simpa using filter_eq_nil_iff.mp hft x hx
      have hlnil : l = [] := by
        by_contra hlne
        rw [append_nil] at hv hlast
        rw [swallowsHead_of_covered hv hat hlne hl (fun a ha => (hm a ha).2) hov hlast] at hsw
        cases hsw
      subst hlnil
      rw [hhead.mp hnone] at hrepk hclear
      have hvnil : Valid q' ([] ++ []) := by
        rw [hhead.mp hnone] at hvk
        exact hvk
      have hadds := @Valid.endfast_plain q' [] [] s e (q.collected ([] ++ t ++ []) s e tiflags) rqflags i'
        s e hvnil ⟨hse, by simp, by simp, .inl rfl, .inl rfl⟩ (by simp) (by simp)
      refine ⟨htrim.adds (by rw [hft]; exact hadds), ?_⟩
      refine Cleared.addEnds (by rw [hhead.mp hnone]; exact hclear) ?_
      rw [hhead.mp hnone]
      have hplaced := @Rep.endfast_placed_plain q' _ fs' [] [] s e s e
        (q.collected ([] ++ t ++ []) s e tiflags) rqflags i' hrepk (le_refl _) (le_refl _)
      refine (hplaced.ends rfl ?_ ?_).addEnds hrepk (fun x hx => absurd hx not_mem_nil)
      · rintro ⟨-, ⟨x, hx, -⟩, -⟩
        exact absurd hx not_mem_nil
      · exact fun x hx => absurd hx not_mem_nil
    case isFalse hnone =>
      have hnil := fun h => hnone (hhead.mpr h)
      split
      case isTrue halt =>
        have hlt : (t.filter (fun x => ¬ q.Overlapped s e x)).length < t.length := by
          rw [length_filter_lt_length_iff_exists]
          simpa using halt
        have hless : (q.remaining (a ++ t ++ r) s e).length < (l ++ m ++ r).length := by
          rw [hremaining, hat]
          simp only [length_append]
          omega
        have hsw' : q'.swallowsHead s e = false := by
          rw [hremaining] at hrepk
          exact htrim.not_swallows hrepk hbefore hr
        have hplaces := hagain q' _ _ fs' (q.collected (a ++ t ++ r) s e tiflags) i' hvk hrepk hnil hless hsw'
        exact ⟨htrim.adds (hremaining ▸ hplaces.1), hclear.addEnds hplaces.2⟩
      case isFalse halt =>
        have hno : ∀ x ∈ t, ¬ q.Overlapped s e x := by simpa using halt
        have hft : t.filter (fun x => ¬ q.Overlapped s e x) = t := by
          rw [filter_eq_self]
          intro x hx
          simpa using hno x hx
        rw [hft, ← hat] at hremaining
        have hadds : ∀ res, Adds q' (l ++ m ++ r) s e res → Adds q (l ++ m ++ r) s e res := by
          intro res h
          rw [hat]
          refine htrim.adds ?_
          rw [hft, ← hat]
          exact h
        rw [← hat] at hvk hrepk hclear ⊢
        rw [hremaining] at hvk hrepk
        have hcut : Cut q' l m r s e := htrim.cut (.of_partly hse hl hm (fun x hx => hno x (hmt x hx)) hr hlast hfirst hne)
        obtain ⟨hadded, hends⟩ := @Cut.ends q' _ fs' l m r s e (q.collected (l ++ m ++ r) s e tiflags)
          rqflags i' hcut hvk hrepk
        refine ⟨hadds _ hadded, hclear.addEnds ?_⟩
        rw [hremaining]
        refine hends.addEnds hrepk (fun x hx hdoomed => ?_)
        rw [htrim.doomed_iff] at hdoomed
        rw [hat] at hx hdoomed
        exact hv'.not_doomed hbefore hno hr x hx hdoomed

theorem Valid.ends_empty (hv : Valid q (l ++ c :: r)) (hrep : Rep q (l ++ c :: r) ys fs)
    (hc : q.block c = ⟨s, s⟩) (hfirst : ∀ a, (l ++ c :: r).head? = some a → q.startseq a < s)
    (hlast : ∀ a, (l ++ c :: r).getLast? = some a → s < q.endseq a) :
    Places q (l ++ c :: r) ys s s tiflags
      (q.insertPartial (some c) (some c) s s tiflags rqflags initcnt) := by
  have hstart : q.startseq c = s := congrArg Block.start hc
  have hstop : q.endseq c = s := congrArg Block.stop hc
  obtain ⟨l, p, rfl⟩ : ∃ l' p, l = l' ++ [p] := by
    rcases eq_nil_or_concat l with rfl | ⟨l, p, hlp⟩
    · have := hfirst c rfl
      omega
    · exact ⟨l, p, by simpa using hlp⟩
  obtain ⟨d, r, rfl⟩ : ∃ d r', r = d :: r' := by
    cases r with
    | nil =>
      have := hlast c (by simp)
      omega
    | cons d r => exact ⟨d, r, rfl⟩
  have hp := hv.stop_lt_start (show p ∈ l ++ [p] by simp) (show c ∈ c :: d :: r by simp)
  have hv' : Valid q ((l ++ [p] ++ [c]) ++ d :: r) := by simpa using hv
  have hd := hv'.stop_lt_start (show c ∈ l ++ [p] ++ [c] by simp) (show d ∈ d :: r by simp)
  have hleft : q.leftBlock (some c) s = some none := by
    have hrep' : Rep q (((l ++ [p]) ++ [c]) ++ d :: r) ys fs := by simpa using hrep
    have hl := @Rep.leftBlock q ys fs ((l ++ [p]) ++ [c]) r d s hrep'
    rw [if_neg (by simp; omega)] at hl
    simpa using hl
  have hright : q.rightBlock (some c) s = some none := by
    have hrep' : Rep q (l ++ p :: (c :: d :: r)) ys fs := by simpa using hrep
    have hr := @Rep.rightBlock q ys fs l (c :: d :: r) p s hrep'
    rw [if_neg (by simp; omega)] at hr
    simpa using hr
  obtain ⟨h, hh⟩ : ∃ h, ((l ++ [p]) ++ c :: d :: r).head? = some h := by
    cases l <;> simp
  obtain ⟨t, ht⟩ : ∃ t, ((l ++ [p]) ++ c :: d :: r).getLast? = some t := by
    rw [getLast?_append]
    exact ⟨_, by rw [getLast?_cons, Option.some_or]⟩
  unfold insertPartial
  rw [hleft]
  dsimp only
  unfold insertRight
  rw [hright]
  dsimp only
  unfold insertRest
  rw [if_pos le_rfl]
  refine ⟨hv.adds_nothing hh (hfirst h hh).le le_rfl, ?_⟩
  rw [hrep.fifo.head, hh]
  have hlost : q.Lost ((l ++ [p]) ++ c :: d :: r) s s := by
    refine ⟨rfl, ⟨h, mem_of_head? hh, hfirst h hh⟩, ⟨t, mem_of_getLast? ht, hlast t ht⟩,
      fun a ha hin => ?_⟩
    rcases mem_append.mp ha with ha | ha
    · have := hv.stop_lt_start ha (show c ∈ c :: d :: r by simp)
      omega
    · rcases mem_cons.mp ha with rfl | ha
      · omega
      · have := hv'.stop_lt_start (show c ∈ l ++ [p] ++ [c] by simp) ha
        omega
  refine (Ends.lost hlost).addEnds hrep (fun a ha hdoomed => ?_)
  have hlt := hdoomed.2.1
  exact absurd hdoomed.1.1 (not_le_of_gt hlt)

theorem Valid.ends_search {fuel : ℕ} (hv : Valid q xs) (hrep : Rep q xs ys fs) (hse : s ≤ e)
    (hfirst : ∀ a, xs.head? = some a → q.startseq a < e)
    (hlast : ∀ a, xs.getLast? = some a → s < q.endseq a) (hne : xs ≠ [])
    (hsw : q.swallowsHead s e = false)
    (hagain : ∀ (q' : ReassemblyQueue) (xs' ys' fs' : List ℕ) (f : ℕ) (i : ℤ), Valid q' xs' →
      Rep q' xs' ys' fs' → xs' ≠ [] → xs'.length < xs.length → q'.swallowsHead s e = false →
      Places q' xs' ys' s e f (again2 s e rqflags fuel q' f i)) :
    Places q xs ys s e tiflags
      (match q.fifo.walkNext (fun b => q.startseq b < e) q.fuel q.fifo.head,
          q.fifo.walkPrev (fun b => s < q.endseq b) q.fuel q.fifo.tail with
        | some r, some p =>
          match kill s e r q.fuel q (p.or q.fifo.head) tiflags initcnt false with
          | none => none
          | some (.exact q flags) => some (q, flags)
          | some (.rest q tiflags initcnt altered) =>
            if q.fifo.head = none then
              q.endfast p r s e tiflags rqflags initcnt false
            else if altered then again2 s e rqflags fuel q tiflags initcnt
            else q.insertPartial p r s e tiflags rqflags initcnt
        | _, _ => none) := by
  obtain ⟨l, m, r, rfl, hl, hm, hr⟩ := @exists_cut q xs s e hv.separated
  have hprev : q.fifo.walkPrev (fun b => s < q.endseq b) q.fuel q.fifo.tail = some l.getLast? := by
    have hrep' : Rep q (l ++ (m ++ r)) ys fs := by simpa using hrep
    refine hrep'.search_prev (fun a ha => ?_) (fun a ha => hl a (mem_of_getLast? ha))
    rcases mem_append.mp ha with ha | ha
    · exact (hm a ha).1
    · exact (hr a ha).2
  have hv' : Valid q (l ++ (m ++ r)) := by simpa using hv
  by_cases hempty : ∃ a, l.getLast? = some a ∧ q.startseq a = e
  · -- an empty segment at an empty block
    obtain ⟨a, hla, hae⟩ := hempty
    obtain ⟨l, rfl⟩ := getLast?_eq_some_iff.mp hla
    have h1 := hl a (by simp)
    have h2 := hv.start_le_stop (show a ∈ l ++ [a] ++ m ++ r by simp)
    obtain rfl : s = e := by omega
    have hblock : q.block a = ⟨s, s⟩ := by
      rw [block, hae, show q.endseq a = s by omega]
    have hmnil : m = [] := by
      rw [eq_nil_iff_forall_not_mem]
      intro x hx
      have h3 := hv'.gap (show a ∈ l ++ [a] by simp) (show x ∈ m ++ r by simp [hx])
      have h4 := hm x hx
      omega
    subst hmnil
    have hxs : l ++ [a] ++ [] ++ r = l ++ a :: r := by simp
    rw [hxs] at hv hrep hfirst hlast hne ⊢
    obtain ⟨hnext, hkill⟩ := @Valid.search_empty q l r s tiflags initcnt a hv hblock
    have hhead : q.fifo.head ≠ none := by
      rw [hrep.fifo.head]
      simp
    rw [hnext, hprev, hla]
    simp only [Option.some_or, hkill, if_neg hhead, Bool.false_eq_true, if_false]
    exact hv.ends_empty hrep hblock hfirst hlast
  · have hlt : ∀ a ∈ l, q.startseq a < e :=
      hv'.start_lt hse hl (fun p hp he => hempty ⟨p, hp, he⟩)
    have hnext : q.fifo.walkNext (fun b => q.startseq b < e) q.fuel q.fifo.head =
        some r.head? := by
      refine hrep.search_next (fun a ha => ?_) (fun a ha => (hr a (mem_of_head? ha)).1)
      rcases mem_append.mp ha with ha | ha
      · exact hlt a ha
      · exact (hm a ha).2
    rw [hnext, hprev]
    exact hv.ends_overlapping hrep hse hl hlt hm (fun a ha => (hr a ha).1) hfirst hlast hne hsw hagain

theorem again2_ends (fuel : ℕ) (hv : Valid q xs) (hrep : Rep q xs ys fs) (hne : xs ≠ [])
    (hfuel : xs.length ≤ fuel) (hse : s ≤ e) (hsw : q.swallowsHead s e = false) (tiflags : ℕ) (initcnt : ℤ) :
    Places q xs ys s e tiflags (again2 s e rqflags fuel q tiflags initcnt) := by
  induction fuel generalizing q xs ys fs tiflags initcnt with
  | zero => exact absurd (length_eq_zero_iff.mp (by omega)) hne
  | succ fuel ih =>
    obtain ⟨h, hh⟩ : ∃ h, xs.head? = some h := by
      cases xs with
      | nil => exact absurd rfl hne
      | cons a xs => exact ⟨a, rfl⟩
    obtain ⟨t, ht⟩ : ∃ t, xs.getLast? = some t := by
      cases hg : xs.getLast? with
      | none => exact absurd (getLast?_eq_none_iff.mp hg) hne
      | some t => exact ⟨t, rfl⟩
    have hhead : q.fifo.head = some h := hrep.fifo.head.trans hh
    have htail : q.fifo.tail = some t := hrep.fifo.tail.trans ht
    unfold again2
    split
    case h_2 hno => exact absurd htail (hno h t hhead)
    case h_1 h' t' hhead' htail' =>
    obtain rfl : h' = h := Option.some.inj (hhead'.symm.trans hhead)
    obtain rfl : t' = t := Option.some.inj (htail'.symm.trans htail)
    split
    case isTrue hend => exact hv.ends_tail hrep hse ht hend
    case isFalse hend =>
      split
      case isTrue hbegin => exact hv.ends_head hrep hse hh hbegin
      case isFalse hbegin =>
        refine hv.ends_search hrep hse (fun a ha => ?_) (fun a ha => ?_) hne hsw
          (fun q' xs' ys' fs' f i hv' hrep' hne' hlen hsw' => ih hv' hrep' hne' (by omega) hsw' f i)
        · rw [← Option.some.inj (hh.symm.trans ha)]
          omega
        · rw [← Option.some.inj (ht.symm.trans ha)]
          omega

theorem add_places (hv : Valid q xs) (hrep : Rep q xs ys fs) (hse : s ≤ e)
    (hsw : q.swallowsHead s e = false) (tiflags rqflags : ℕ) :
    Places q xs ys s e tiflags (q.add s e tiflags rqflags) := by
  unfold add
  rw [if_neg (not_lt.mpr hse)]
  split
  case isTrue hhead =>
    rw [hrep.fifo.head, head?_eq_none_iff] at hhead
    subst hhead
    have hys : ys = [] := hrep.perm.eq_nil
    have htop : ¬ q.lifo.head ≠ none := by
      rw [hrep.lifo.head, hys]
      simp
    have htotal : q.total = 0 := hv.total
    rw [if_neg htop]
    have hadds := @Valid.endfast_plain q [] [] s e tiflags rqflags 1 s e hv
      ⟨hse, by simp, by simp, .inl rfl, .inl rfl⟩ (by simp) (by simp)
    have hplaced := @Rep.endfast_placed_plain q ys fs [] [] s e s e tiflags rqflags 1 hrep (le_refl _) (le_refl _)
    have hends : AddEnds q [] ys s e tiflags (q.endfast none none s e tiflags rqflags 1 false) := by
      refine (hplaced.ends rfl ?_ ?_).addEnds hrep (fun x hx => absurd hx not_mem_nil)
      · rintro ⟨-, ⟨x, hx, -⟩, -⟩
        exact absurd hx not_mem_nil
      · exact fun x hx => absurd hx not_mem_nil
    exact ⟨by simpa [endfast, htotal] using hadds, by simpa [endfast, htotal] using hends⟩
  case isFalse hhead =>
    have hne : xs ≠ [] := by
      rintro rfl
      exact hhead hrep.fifo.head
    exact again2_ends q.fuel hv hrep hne hrep.length_lt_fuel.le hse hsw tiflags 1

/-- **`add` adds the segment to the set of sequence numbers**, unless it swallows an empty first
block together with all others. -/
theorem add_spec (hv : Valid q xs) (hse : s ≤ e) (hsw : q.swallowsHead s e = false)
    (tiflags rqflags : ℕ) : Adds q xs s e (q.add s e tiflags rqflags) := by
  obtain ⟨ys, fs, hrep⟩ := hv.rep
  exact (add_places hv hrep hse hsw tiflags rqflags).1

/-- **Where `add` places its segment**, under the same condition. -/
theorem add_ends (hv : Valid q xs) (hrep : Rep q xs ys fs) (hse : s ≤ e) (hsw : q.swallowsHead s e = false)
    (tiflags rqflags : ℕ) : AddEnds q xs ys s e tiflags (q.add s e tiflags rqflags) :=
  (add_places hv hrep hse hsw tiflags rqflags).2

end ReassemblyQueue

end NetSim
