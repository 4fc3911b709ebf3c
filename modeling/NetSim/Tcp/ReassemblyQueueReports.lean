import NetSim.Tcp.ReassemblyQueueRecency

/-! # The reassembly queue: the flags of the segments

Every block should have the flags of all segments that were merged into it, and `add` should return the flags
of the block that has the segment. Three ways through `add` do not see to it: when a block is overlapped or
adjacent on both sides, the flags of the right one are dropped (`fillHole`); when the segment ends inside a
block, only its own flags are returned; and an empty segment between the blocks is dropped with its flags.
`FlagsKept` says when nothing is lost on them, and `rq_keeps_flags` that this is exactly when the flags are
right.
-/

namespace NetSim

open List LinkedList IntervalList

namespace ReassemblyQueue

variable {q q' : ReassemblyQueue} {xs ys fs u gone : List ℕ} {x i : ℕ} {s e : ℤ} {tiflags rqflags : ℕ}

/-! ## Segments -/

structure Segment where
  start : ℤ
  stop : ℤ
  tiflags : ℕ
  rqflags : ℕ
  deriving DecidableEq

/-- `add` as a step of a machine. -/
def addSegment (q : ReassemblyQueue) (g : Segment) : Option (ReassemblyQueue × ℕ) :=
  q.add g.start g.stop g.tiflags g.rqflags

/-- The range of the segment lies in the block. -/
def Within (b : Block) (g : Segment) : Prop := b.start ≤ g.start ∧ g.stop ≤ b.stop

instance (b : Block) (g : Segment) : Decidable (Within b g) := inferInstanceAs (Decidable (_ ∧ _))

def union (flags : List ℕ) : ℕ := flags.foldr (fun f g => f ||| g) 0

/-- The flags of all segments that lie in the block. -/
def flagsOf (segments : List Segment) (b : Block) : ℕ :=
  union ((segments.filter (fun g => Within b g)).map Segment.tiflags)

/-- No flag is lost: every block has the flags of its segments. -/
def Tagged (q : ReassemblyQueue) (segments : List Segment) : Prop :=
  ∀ a ∈ q.nodes, q.pflags a = flagsOf segments (q.block a)

/-- `add` returns the flags of the block that has the segment. -/
def Reports (q : ReassemblyQueue) (g : Segment) (flags : ℕ) : Prop :=
  ∃ a ∈ q.nodes, Within (q.block a) g ∧ flags = q.pflags a

theorem testBit_union {flags : List ℕ} : (union flags).testBit i = true ↔ ∃ f ∈ flags, f.testBit i = true := by
  induction flags with
  | nil => simp [union]
  | cons f flags ih =>
    have hcons : union (f :: flags) = f ||| union flags := rfl
    rw [hcons, Nat.testBit_or, Bool.or_eq_true, ih]
    simp

theorem testBit_flagsOf {segments : List Segment} {b : Block} :
    (flagsOf segments b).testBit i = true ↔ ∃ g ∈ segments, Within b g ∧ g.tiflags.testBit i = true := by
  unfold flagsOf
  rw [testBit_union]
  constructor
  · rintro ⟨f, hf, hbit⟩
    obtain ⟨g, hg, rfl⟩ := mem_map.mp hf
    obtain ⟨hmem, hwithin⟩ := mem_filter.mp hg
    exact ⟨g, hmem, of_decide_eq_true hwithin, hbit⟩
  · rintro ⟨g, hmem, hwithin, hbit⟩
    exact ⟨g.tiflags, mem_map.mpr ⟨g, mem_filter.mpr ⟨hmem, decide_eq_true hwithin⟩, rfl⟩, hbit⟩

theorem flags_ext {f g : ℕ} (h : ∀ i, f.testBit i = true ↔ g.testBit i = true) : f = g :=
  Nat.eq_of_testBit_eq (fun i => Bool.eq_iff_iff.mpr (h i))

theorem or_eq_right_iff {f g : ℕ} : f ||| g = g ↔ ∀ i, f.testBit i = true → g.testBit i = true := by
  constructor
  · intro h i hf
    rw [← h, Nat.testBit_or, hf, Bool.true_or]
  · intro h
    refine flags_ext (fun i => ?_)
    rw [Nat.testBit_or, Bool.or_eq_true]
    exact ⟨fun hor => hor.elim (h i) id, .inr⟩

theorem testBit_foldl {f : ℕ → ℕ} : (xs.foldl (fun g a => g ||| f a) tiflags).testBit i = true ↔
    tiflags.testBit i = true ∨ ∃ a ∈ xs, (f a).testBit i = true := by
  induction xs generalizing tiflags with
  | nil => simp
  | cons a xs ih =>
    rw [foldl_cons, ih, Nat.testBit_or, Bool.or_eq_true]
    simp only [mem_cons, exists_eq_or_imp]
    tauto

theorem testBit_collected : (q.collected xs s e tiflags).testBit i = true ↔
    tiflags.testBit i = true ∨ ∃ a ∈ q.killed xs s e, (q.pflags a).testBit i = true :=
  testBit_foldl

/-! ## When no flag is lost -/

/-- The blocks behind the first one have no other flags than it and `tiflags`. -/
def Absorbed (q : ReassemblyQueue) (tiflags : ℕ) : List ℕ → Prop
  | [] => True
  | p :: gone => ∀ c ∈ gone, q.pflags c ||| (q.pflags p ||| tiflags) = q.pflags p ||| tiflags

instance (q : ReassemblyQueue) (tiflags : ℕ) : (u : List ℕ) → Decidable (q.Absorbed tiflags u)
  | [] => isTrue trivial
  | p :: gone => inferInstanceAs
      (Decidable (∀ c ∈ gone, q.pflags c ||| (q.pflags p ||| tiflags) = q.pflags p ||| tiflags))

/-- **Nothing is lost on the three ways.** An empty segment between the blocks has the same flags as a block
next to it; when the segment ends inside a block, the block has no other flags than the segment and the blocks
that it covers; when it fills a hole, the right block has none that the others do not have. -/
def FlagsKept (q : ReassemblyQueue) (g : Segment) : Prop :=
  let rest := q.remaining q.nodes g.start g.stop
  let tiflags := q.collected q.nodes g.start g.stop g.tiflags
  (q.Lost rest g.start g.stop → ∃ a ∈ rest, Within (q.block a) g ∧ q.pflags a = g.tiflags) ∧
  (∀ b ∈ rest, q.Inner rest g.start g.stop b → q.pflags b ||| tiflags = tiflags) ∧
  q.Absorbed tiflags (q.touching rest g.start g.stop)

instance (q : ReassemblyQueue) (g : Segment) : Decidable (q.FlagsKept g) :=
  inferInstanceAs (Decidable ((_ → ∃ a ∈ _, _) ∧ (∀ b ∈ _, _ → _) ∧ Absorbed _ _ _))

/-- The calls for which `add` links its block to a live one. -/
def SoundSegment (q : ReassemblyQueue) (g : Segment) : Prop :=
  g.start ≤ g.stop ∧ q.swallowsHead g.start g.stop = false

instance (q : ReassemblyQueue) (g : Segment) : Decidable (q.SoundSegment g) :=
  inferInstanceAs (Decidable (_ ∧ _))

/-! ## One call -/

/-- Every segment lies in some block. -/
def Housed (q : ReassemblyQueue) (xs : List ℕ) (segments : List Segment) : Prop :=
  ∀ g ∈ segments, g.start ≤ g.stop ∧ ∃ a ∈ xs, Within (q.block a) g

/-- The blocks have the flags of their segments. -/
def HasFlags (q : ReassemblyQueue) (xs : List ℕ) (segments : List Segment) : Prop :=
  ∀ a ∈ xs, q.pflags a = flagsOf segments (q.block a)

theorem flagsOf_concat {segments : List Segment} {g : Segment} {b : Block} (h : ¬ Within b g) :
    flagsOf (segments ++ [g]) b = flagsOf segments b := by
  unfold flagsOf
  rw [filter_append, filter_cons_of_neg (by simpa using h), filter_nil, append_nil]

section Cleared

variable {q₁ : ReassemblyQueue} {removed : List ℕ} (h : Cleared q q₁ xs ys removed)
include h

theorem Cleared.block (a : ℕ) : q₁.block a = q.block a := by
  rw [ReassemblyQueue.block, h.startseq, h.endseq]
  rfl

theorem Cleared.lost_iff (zs : List ℕ) : q₁.Lost zs s e ↔ q.Lost zs s e := by
  unfold Lost
  rw [h.startseq, h.endseq]

theorem Cleared.inner_iff (zs : List ℕ) (b : ℕ) : q₁.Inner zs s e b ↔ q.Inner zs s e b := by
  unfold Inner
  rw [h.startseq, h.endseq, h.block]

theorem Cleared.touching_eq (zs : List ℕ) : q₁.touching zs s e = q.touching zs s e := by
  unfold touching
  rw [h.startseq, h.endseq]

end Cleared

theorem mem_remaining {a : ℕ} (ha : a ∈ xs) : a ∈ q.remaining xs s e ∨ a ∈ q.killed xs s e := by
  by_cases hd : q.Doomed xs s e a
  · exact .inr (mem_filter.mpr ⟨ha, decide_eq_true hd⟩)
  · exact .inl (mem_filter.mpr ⟨ha, decide_eq_true hd⟩)

theorem killed_range {a : ℕ} (ha : a ∈ q.killed xs s e) :
    a ∈ xs ∧ s ≤ q.startseq a ∧ q.endseq a ≤ e := by
  obtain ⟨hmem, hd⟩ := mem_filter.mp ha
  exact ⟨hmem, (of_decide_eq_true hd).1⟩

section Placed

variable {q₁ : ReassemblyQueue} {segments : List Segment} {g : Segment} {xs' : List ℕ}
  (hclear : Cleared q q₁ (q.remaining xs g.start g.stop) ys (q.killed xs g.start g.stop))
  (hplaced : Placed q₁ q' (q.remaining xs g.start g.stop) (ys.filter (fun a => a ∉ q.killed xs g.start g.stop))
    g.start g.stop (q.collected xs g.start g.stop g.tiflags) u u.tail x)
include hclear hplaced

theorem Placed.stays {a : ℕ} (ha : a ∈ q.remaining xs g.start g.stop) (hau : a ∉ u) :
    a ≠ x ∧ (∃ xs', q'.fifo.Holds xs' ∧ a ∈ xs') ∧ q'.block a = q.block a ∧ q'.pflags a = q.pflags a := by
  have hag : a ∉ u.tail := fun hmem => hau (mem_of_mem_tail hmem)
  have hax : a ≠ x := by
    rcases hplaced.node with ⟨-, hfresh⟩ | ⟨hhead, -⟩
    · exact hfresh a ha hag
    · rintro rfl
      exact hau (mem_of_head? hhead)
  obtain ⟨xs', hfifo, hmem⟩ := hplaced.fifo
  obtain ⟨hblock, hflags⟩ := hplaced.same a ha hag hax
  refine ⟨hax, ⟨xs', hfifo, (hmem a).mpr (.inr ⟨ha, hag⟩)⟩, hblock.trans (hclear.block a), ?_⟩
  rw [hflags, hclear.pflags]

theorem Placed.grows_within {a : ℕ} {g' : Segment} (ha : a ∈ u ∨ a ∈ q.killed xs g.start g.stop)
    (hwithin : Within (q.block a) g') : Within (q'.block x) g' := by
  have hcontains := hplaced.contains
  obtain ⟨hs, he⟩ := hwithin
  rcases ha with ha | ha
  · have hgrows := hplaced.grows a ha
    rw [hclear.startseq, hclear.endseq] at hgrows
    exact ⟨le_trans hgrows.1 hs, le_trans he hgrows.2⟩
  · obtain ⟨-, hs', he'⟩ := killed_range ha
    exact ⟨le_trans hcontains.1 (le_trans hs' hs), le_trans he (le_trans he' hcontains.2)⟩

/-- The segments of the new block are those of the blocks that it took over, and the new one. -/
theorem Placed.testBit_flagsOf (hv' : Valid q' xs') (hu : ∀ a ∈ u, a ∈ xs) (hhoused : Housed q xs segments)
    (hflags : HasFlags q xs segments) :
    (flagsOf (segments ++ [g]) (q'.block x)).testBit i = true ↔
      (q.collected xs g.start g.stop g.tiflags).testBit i = true ∨ ∃ a ∈ u, (q.pflags a).testBit i = true := by
  obtain ⟨ys', fs', hrep'⟩ := hv'.rep
  obtain ⟨xs'', hfifo, hmem⟩ := hplaced.fifo
  have hxs : xs'' = xs' := DLinks.Holds.unique hfifo hrep'.fifo
  subst hxs
  have hx : x ∈ xs'' := (hmem x).mpr (.inl rfl)
  rw [ReassemblyQueue.testBit_flagsOf, testBit_collected]
  constructor
  · rintro ⟨g', hg', hwithin, hbit⟩
    rcases mem_append.mp hg' with hg' | hg'
    · obtain ⟨hle, a, ha, hwithin'⟩ := hhoused g' hg'
      have hbit' : (q.pflags a).testBit i = true := by
        rw [hflags a ha, ReassemblyQueue.testBit_flagsOf]
        exact ⟨g', hg', hwithin', hbit⟩
      rcases mem_remaining ha with hrem | hkilled
      · by_cases hau : a ∈ u
        · exact .inr ⟨a, hau, hbit'⟩
        · -- then the block of `a` is still there, beside the one of `x`
          obtain ⟨hax, ⟨zs, hzs, haz⟩, hblock, -⟩ := hplaced.stays hclear hrem hau
          rw [DLinks.Holds.unique hzs hfifo] at haz
          rw [← hblock] at hwithin'
          exact absurd (hv'.contains_unique haz hx hwithin' hwithin hle) hax
      · exact .inl (.inr ⟨a, hkilled, hbit'⟩)
    · rw [mem_singleton.mp hg'] at hbit
      exact .inl (.inl hbit)
  · rintro ((hbit | ⟨a, ha, hbit⟩) | ⟨a, ha, hbit⟩)
    · exact ⟨g, by simp, hplaced.contains, hbit⟩
    · rw [hflags a (killed_range ha).1, ReassemblyQueue.testBit_flagsOf] at hbit
      obtain ⟨g', hg', hwithin, hbit⟩ := hbit
      exact ⟨g', by simp [hg'], hplaced.grows_within hclear (.inr ha) hwithin, hbit⟩
    · rw [hflags a (hu a ha), ReassemblyQueue.testBit_flagsOf] at hbit
      obtain ⟨g', hg', hwithin, hbit⟩ := hbit
      exact ⟨g', by simp [hg'], hplaced.grows_within hclear (.inl ha) hwithin, hbit⟩

/-- **The flags are right** exactly when the blocks that are freed have none of their own. -/
theorem Placed.hasFlags_iff (hv' : Valid q' xs') (hu : ∀ a ∈ u, a ∈ xs) (hhoused : Housed q xs segments)
    (hflags : HasFlags q xs segments) (hle : g.start ≤ g.stop) :
    HasFlags q' xs' (segments ++ [g]) ↔ q.Absorbed (q.collected xs g.start g.stop g.tiflags) u := by
  obtain ⟨ys', fs', hrep'⟩ := hv'.rep
  obtain ⟨xs'', hfifo, hmem⟩ := hplaced.fifo
  have hxs : xs'' = xs' := DLinks.Holds.unique hfifo hrep'.fifo
  subst hxs
  have hx : x ∈ xs'' := (hmem x).mpr (.inl rfl)
  have hbits := fun i => @Placed.testBit_flagsOf q q' xs ys u x i q₁ segments g xs'' hclear hplaced hv' hu
    hhoused hflags
  -- all other blocks keep their segments
  have hothers : HasFlags q' xs'' (segments ++ [g]) ↔
      q'.pflags x = flagsOf (segments ++ [g]) (q'.block x) := by
    constructor
    · exact fun hall => hall x hx
    · intro hself a ha
      by_cases hax : a = x
      · rw [hax]
        exact hself
      · obtain ⟨harem, hag⟩ := ((hmem a).mp ha).resolve_left hax
        obtain ⟨hblock, hpf⟩ := hplaced.same a harem hag hax
        have hnot : ¬ Within (q'.block a) g :=
          fun hwithin => hax (hv'.contains_unique ha hx hwithin hplaced.contains hle)
        rw [flagsOf_concat hnot, hpf, hclear.pflags, hblock, hclear.block]
        exact hflags a (mem_of_mem_filter harem)
  rw [hothers]
  cases u with
  | nil =>
    refine iff_of_true (flags_ext (fun i => ?_)) trivial
    rw [hbits, hplaced.pflags, if_pos rfl]
    simp
  | cons p gone =>
    have hpx : p = x := by
      rcases hplaced.node with ⟨hnil, -⟩ | ⟨hhead, -⟩
      · cases hnil
      · exact Option.some.inj hhead
    have hself : ∀ i, (q'.pflags x).testBit i = true ↔
        (q.pflags p ||| q.collected xs g.start g.stop g.tiflags).testBit i = true := by
      intro i
      rw [hplaced.pflags, if_neg (cons_ne_nil p gone), hclear.pflags, hpx]
    constructor
    · intro heq c hc
      refine or_eq_right_iff.mpr (fun i hi => ?_)
      rw [← hself, heq, hbits]
      exact .inr ⟨c, mem_cons_of_mem p hc, hi⟩
    · intro hgone
      refine flags_ext (fun i => ?_)
      rw [hself, hbits, Nat.testBit_or, Bool.or_eq_true]
      constructor
      · rintro (hp | ht)
        · exact .inr ⟨p, mem_cons_self, hp⟩
        · exact .inl ht
      · rintro (ht | ⟨a, ha, hbit⟩)
        · exact .inr ht
        · rcases mem_cons.mp ha with rfl | ha
          · exact .inl hbit
          · have hi := or_eq_right_iff.mp (hgone a ha) i hbit
            rwa [Nat.testBit_or, Bool.or_eq_true] at hi

end Placed

section Step

variable {segments : List Segment} {g : Segment} {flags : ℕ}

theorem Placed.housed {q₁ : ReassemblyQueue} {xs' : List ℕ}
    (hplaced : Placed q₁ q' (q.remaining xs g.start g.stop) (ys.filter (fun a => a ∉ q.killed xs g.start g.stop))
      g.start g.stop (q.collected xs g.start g.stop g.tiflags) u u.tail x)
    (hclear : Cleared q q₁ (q.remaining xs g.start g.stop) ys (q.killed xs g.start g.stop))
    (hfifo : q'.fifo.Holds xs') (hhoused : Housed q xs segments) (hle : g.start ≤ g.stop) :
    Housed q' xs' (segments ++ [g]) := by
  obtain ⟨xs'', hfifo', hmem⟩ := hplaced.fifo
  rw [DLinks.Holds.unique hfifo' hfifo] at hmem
  intro g' hg'
  rcases mem_append.mp hg' with hg' | hg'
  · obtain ⟨hle', a, ha, hwithin⟩ := hhoused g' hg'
    refine ⟨hle', ?_⟩
    rcases mem_remaining ha with hrem | hkilled
    · by_cases hau : a ∈ u
      · exact ⟨x, (hmem x).mpr (.inl rfl), hplaced.grows_within hclear (.inl hau) hwithin⟩
      · obtain ⟨hax, ⟨zs, hzs, haz⟩, hblock, -⟩ := hplaced.stays hclear hrem hau
        rw [DLinks.Holds.unique hzs hfifo] at haz
        exact ⟨a, haz, by rw [hblock]; exact hwithin⟩
    · exact ⟨x, (hmem x).mpr (.inl rfl), hplaced.grows_within hclear (.inr hkilled) hwithin⟩
  · rw [mem_singleton.mp hg']
    exact ⟨hle, x, (hmem x).mpr (.inl rfl), hplaced.contains⟩

structure Kept (q : ReassemblyQueue) (xs : List ℕ) (segments : List Segment) : Prop where
  valid : Valid q xs
  housed : Housed q xs segments
  hasFlags : HasFlags q xs segments

theorem Valid.touching_lost (hv : Valid q xs) (hrep : Rep q xs ys fs) {zs : List ℕ} (hsub : zs.Sublist xs)
    (hlost : q.Lost zs s e) : (q.touching zs s e).tail = [] := by
  obtain ⟨rfl, -⟩ := hlost
  cases hu : q.touching zs s s with
  | nil => rfl
  | cons p gone =>
    cases gone with
    | nil => rfl
    | cons c gone =>
      have hnd : (p :: c :: gone).Nodup := by
        rw [← hu]
        exact (hrep.nodupFifo.sublist hsub).filter _
      have htouch : ∀ a ∈ p :: c :: gone, a ∈ xs ∧ q.startseq a ≤ s ∧ s ≤ q.endseq a := by
        intro a ha
        rw [← hu] at ha
        obtain ⟨hmem, htouch⟩ := mem_filter.mp ha
        exact ⟨hsub.subset hmem, of_decide_eq_true htouch⟩
      obtain ⟨hp, hpt⟩ := htouch p (by simp)
      obtain ⟨hc, hct⟩ := htouch c (by simp)
      have heq := hv.contains_unique hp hc hpt hct (le_refl s)
      exact absurd (by simp [heq]) (nodup_cons.mp hnd).1

/-- What one `add` does to the flags of the blocks, and to those that it returns. -/
def FlagsExact (q q' : ReassemblyQueue) (xs' : List ℕ) (segments : List Segment) (g : Segment) (flags : ℕ) : Prop :=
  (Reports q' g flags → Housed q' xs' (segments ++ [g])) ∧
    (q.FlagsKept g ↔ HasFlags q' xs' (segments ++ [g]) ∧ Reports q' g flags)

section Ways

variable {q₁ : ReassemblyQueue} {xs' ys' fs' : List ℕ} {b : ℕ} (h : Kept q xs segments) (hle : g.start ≤ g.stop)
  (hrep : Rep q xs ys fs) (hclear : Cleared q q₁ (q.remaining xs g.start g.stop) ys (q.killed xs g.start g.stop))
include h hle hrep hclear

/-- The segment is dropped between the blocks. -/
theorem Kept.dropped {a : ℕ} (hrep' : Rep (q₁.reached a) xs' ys' fs')
    (hlost : q₁.Lost (q.remaining xs g.start g.stop) g.start g.stop) :
    FlagsExact q (q₁.reached a) xs' segments g (q.collected xs g.start g.stop g.tiflags) := by
  unfold FlagsExact
  unfold FlagsKept Reports
  rw [hrep.nodes_eq, hrep'.nodes_eq]
  dsimp only
  rw [hclear.lost_iff] at hlost
  -- nothing was killed, and the queue is as it was
  have hno : ∀ b ∈ xs, ¬ q.Doomed xs g.start g.stop b := by
    intro b _ hd
    have hse := hlost.1
    have hover : g.start ≤ q.startseq b := hd.1.1
    have hlt := hd.2.1
    omega
  have hremaining := remaining_eq hno
  have hcollected : q.collected xs g.start g.stop g.tiflags = g.tiflags := by
    unfold collected
    rw [killed_eq hno]
    rfl
  obtain ⟨fs₁, hrep₁⟩ := hclear.rep
  rw [hremaining] at hrep₁
  have hxs : xs' = xs := DLinks.Holds.unique hrep'.fifo hrep₁.fifo
  subst hxs
  have hblock : ∀ b, (q₁.reached a).block b = q.block b := hclear.block
  have hpf : (q₁.reached a).pflags = q.pflags := hclear.pflags
  rw [hremaining, hcollected]
  rw [hremaining] at hlost
  refine ⟨?_, ?_⟩
  · rintro ⟨b, hb, hwithin, -⟩ g' hg'
    rw [hblock] at hwithin
    rcases mem_append.mp hg' with hg' | hg'
    · obtain ⟨hle', c, hc, hwithin'⟩ := h.housed g' hg'
      exact ⟨hle', c, hc, by rw [hblock]; exact hwithin'⟩
    · rw [mem_singleton.mp hg']
      exact ⟨hle, b, hb, by rw [hblock]; exact hwithin⟩
  · have hinner : ∀ b ∈ xs', ¬ q.Inner xs' g.start g.stop b := by
      intro b hb hin
      have hse := hlost.1
      have hboth := hin.1
      exact hlost.2.2.2 b hb ⟨by omega, by omega⟩
    have htail := h.valid.touching_lost hrep (List.Sublist.refl xs') hlost
    constructor
    · rintro ⟨hkept, -, -⟩
      obtain ⟨b, hb, hwithin, hflags⟩ := hkept hlost
      refine ⟨fun c hc => ?_, b, hb, by rw [hblock]; exact hwithin, by rw [hpf, hflags]⟩
      rw [hpf, hblock]
      by_cases hcw : Within (q.block c) g
      · -- the block beside the segment has its flags already
        have hcb := h.valid.contains_unique hc hb hcw hwithin hle
        refine flags_ext (fun i => ?_)
        rw [testBit_flagsOf]
        constructor
        · intro hbit
          rw [h.hasFlags c hc, testBit_flagsOf] at hbit
          obtain ⟨g', hg', hw, hb'⟩ := hbit
          exact ⟨g', by simp [hg'], hw, hb'⟩
        · rintro ⟨g', hg', hw, hbit⟩
          rcases mem_append.mp hg' with hg' | hg'
          · rw [h.hasFlags c hc, testBit_flagsOf]
            exact ⟨g', hg', hw, hbit⟩
          · rw [mem_singleton.mp hg'] at hbit
            rw [hcb, hflags]
            exact hbit
      · rw [flagsOf_concat hcw]
        exact h.hasFlags c hc
    · rintro ⟨-, b, hb, hwithin, hflags⟩
      rw [hblock] at hwithin
      rw [hpf] at hflags
      refine ⟨fun _ => ⟨b, hb, hwithin, hflags.symm⟩, fun b hb hin => absurd hin (hinner b hb), ?_⟩
      cases hu : q.touching xs' g.start g.stop with
      | nil => trivial
      | cons p gone =>
        rw [hu] at htail
        rw [tail_cons] at htail
        rw [htail]
        exact fun c hc => absurd hc not_mem_nil

/-- The segment ends inside a block. -/
theorem Kept.inside (hv' : Valid q' xs') (hrep' : Rep q' xs' ys' fs') (hb : b ∈ q.remaining xs g.start g.stop)
    (hin : q₁.Inner (q.remaining xs g.start g.stop) g.start g.stop b)
    (htouching : q₁.touching (q.remaining xs g.start g.stop) g.start g.stop = [b])
    (hplaced : Placed q₁ q' (q.remaining xs g.start g.stop)
      (ys.filter (fun a => a ∉ q.killed xs g.start g.stop)) g.start g.stop
      (q.collected xs g.start g.stop g.tiflags) [b] [] b) :
    FlagsExact q q' xs' segments g (q.collected xs g.start g.stop g.tiflags) := by
  have hrem : (q.remaining xs g.start g.stop).Sublist xs := filter_sublist
  unfold FlagsExact
  unfold FlagsKept Reports
  rw [hrep.nodes_eq, hrep'.nodes_eq]
  dsimp only
  rw [hclear.inner_iff] at hin
  rw [hclear.touching_eq] at htouching
  have hplaced' : Placed q₁ q' (q.remaining xs g.start g.stop)
      (ys.filter (fun a => a ∉ q.killed xs g.start g.stop)) g.start g.stop
      (q.collected xs g.start g.stop g.tiflags) [b] [b].tail b := hplaced
  have hflags := (hplaced'.hasFlags_iff hclear hv' (fun a ha => by
    rw [mem_singleton.mp ha]
    exact hrem.subset hb) h.housed h.hasFlags hle).mpr (fun c hc => absurd hc not_mem_nil)
  have hself : q'.pflags b = q.pflags b ||| q.collected xs g.start g.stop g.tiflags := by
    rw [hplaced.pflags, if_neg (cons_ne_nil b []), hclear.pflags]
  obtain ⟨xs'', hfifo, hmem⟩ := hplaced.fifo
  rw [DLinks.Holds.unique hfifo hrep'.fifo] at hmem
  refine ⟨fun _ => hplaced'.housed hclear hrep'.fifo h.housed hle, ?_⟩
  rw [htouching]
  constructor
  · rintro ⟨-, hkept, -⟩
    exact ⟨hflags, b, (hmem b).mpr (.inl rfl), hplaced.contains, by rw [hself, hkept b hb hin]⟩
  · rintro ⟨-, a, ha, hwithin, heq⟩
    have hab := hv'.contains_unique ha ((hmem b).mpr (.inl rfl)) hwithin hplaced.contains hle
    refine ⟨fun hlost => ?_, fun b' hb' hin' => ?_, fun c hc => absurd hc not_mem_nil⟩
    · have hse := hlost.1
      have hboth := hin.1
      exact absurd ⟨by omega, by omega⟩ (hlost.2.2.2 b hb)
    · -- it is the only block that touches the segment
      have hmem' : b' ∈ q.touching (q.remaining xs g.start g.stop) g.start g.stop := by
        have hboth := hin'.1
        exact mem_filter.mpr ⟨hb', decide_eq_true ⟨by omega, by omega⟩⟩
      rw [htouching] at hmem'
      rw [mem_singleton.mp hmem', ← hself, ← hab]
      exact heq.symm

/-- The segment is merged with all blocks that it touches. -/
theorem Kept.merged (hv' : Valid q' xs') (hrep' : Rep q' xs' ys' fs')
    (hnotlost : ¬ q₁.Lost (q.remaining xs g.start g.stop) g.start g.stop)
    (hnotinner : ∀ b ∈ q.remaining xs g.start g.stop, ¬ q₁.Inner (q.remaining xs g.start g.stop) g.start g.stop b)
    (hplaced : Placed q₁ q' (q.remaining xs g.start g.stop)
      (ys.filter (fun a => a ∉ q.killed xs g.start g.stop)) g.start g.stop
      (q.collected xs g.start g.stop g.tiflags)
      (q₁.touching (q.remaining xs g.start g.stop) g.start g.stop)
      (q₁.touching (q.remaining xs g.start g.stop) g.start g.stop).tail x) :
    FlagsExact q q' xs' segments g (q'.pflags x) := by
  have hrem : (q.remaining xs g.start g.stop).Sublist xs := filter_sublist
  unfold FlagsExact
  unfold FlagsKept Reports
  rw [hrep.nodes_eq, hrep'.nodes_eq]
  dsimp only
  rw [hclear.lost_iff] at hnotlost
  rw [hclear.touching_eq] at hplaced
  have hnotinner' : ∀ b ∈ q.remaining xs g.start g.stop,
      ¬ q.Inner (q.remaining xs g.start g.stop) g.start g.stop b := by
    intro b hb hin
    exact hnotinner b hb ((hclear.inner_iff _ b).mpr hin)
  have hflags := hplaced.hasFlags_iff hclear hv'
    (fun a ha => hrem.subset (mem_of_mem_filter ha)) h.housed h.hasFlags hle
  obtain ⟨xs'', hfifo, hmem⟩ := hplaced.fifo
  rw [DLinks.Holds.unique hfifo hrep'.fifo] at hmem
  refine ⟨fun _ => hplaced.housed hclear hrep'.fifo h.housed hle, ?_⟩
  constructor
  · rintro ⟨-, -, hkept⟩
    exact ⟨hflags.mpr hkept, x, (hmem x).mpr (.inl rfl), hplaced.contains, rfl⟩
  · rintro ⟨hall, -⟩
    exact ⟨fun hlost => absurd hlost hnotlost, fun b hb hin => absurd hin (hnotinner' b hb),
      hflags.mp hall⟩

end Ways

/-- **One `add`** gives all blocks the flags of their segments, and reports those of the block that has the
segment, exactly when nothing is lost on the three ways. -/
theorem Kept.step (h : Kept q xs segments) (hsound : q.SoundSegment g)
    (hadd : q.addSegment g = some (q', flags)) :
    ∃ xs', q'.nodes = xs' ∧ Valid q' xs' ∧
      (Reports q' g flags → Housed q' xs' (segments ++ [g])) ∧
      (q.FlagsKept g ↔ HasFlags q' xs' (segments ++ [g]) ∧ Reports q' g flags) := by
  obtain ⟨hle, hsw⟩ := hsound
  obtain ⟨ys, fs, hrep⟩ := h.valid.rep
  obtain ⟨q'', flags', xs', hadd', hv', -, -⟩ := add_spec h.valid hle hsw g.tiflags g.rqflags
  have hadd'' : q.add g.start g.stop g.tiflags g.rqflags = some (q', flags) := hadd
  rw [hadd''] at hadd'
  cases hadd'
  obtain ⟨ys', fs', hrep'⟩ := hv'.rep
  obtain ⟨q₁, hclear, hends⟩ := add_ends h.valid hrep hle hsw g.tiflags g.rqflags
  rw [hadd''] at hends
  refine ⟨xs', hrep'.nodes_eq, hv', ?_⟩
  generalize hres : some (q', flags) = res at hends
  cases hends with
  | lost hlost =>
    cases hres
    exact h.dropped hle hrep hclear hrep' hlost
  | inner hb hin htouching hplaced =>
    cases hres
    exact h.inside hle hrep hclear hv' hrep' hb hin htouching hplaced
  | placed hnotlost hnotinner hplaced =>
    cases hres
    exact h.merged hle hrep hclear hv' hrep' hnotlost hnotinner hplaced

end Step

/-! ## Clearing -/

/-- **`clearto` returns the flags** of all blocks that begin before its bound. -/
theorem clearto_flags (hv : Valid q xs) (seq : ℤ) :
    ∃ q' flag, q.clearto seq = some (q', flag) ∧
      ∀ a ∈ xs, q.startseq a ≤ seq → q.pflags a ||| flag = flag := by
  obtain ⟨ys, fs, hrep⟩ := hv.rep
  obtain ⟨q₁, flag, ys', fs', hclear, -, htrim, hpflags, hflag⟩ :=
    clearBlocks_spec hrep hrep.length_lt_fuel seq 0
  have hfreed : ∀ a ∈ xs.takeWhile (fun a => q.endseq a ≤ seq), ∀ i, (q.pflags a).testBit i = true →
      flag.testBit i = true := by
    intro a ha i hbit
    rw [hflag]
    exact testBit_foldl.mpr (.inr ⟨a, ha, hbit⟩)
  have hsplit := @takeWhile_append_dropWhile _ (fun a => decide (q.endseq a ≤ seq)) xs
  unfold clearto
  rw [hrep.fifo.head, hclear]
  cases hd : xs.dropWhile (fun a => q.endseq a ≤ seq) with
  | nil =>
    refine ⟨q₁, flag, rfl, fun a ha _ => or_eq_right_iff.mpr (fun i hbit => ?_)⟩
    rw [hd, append_nil] at hsplit
    rw [← hsplit] at ha
    exact hfreed a ha i hbit
  | cons b rest =>
    rw [hd] at hsplit
    have hb : seq < q.endseq b := by
      have hnot := head?_dropWhile_not (fun a => decide (q.endseq a ≤ seq)) xs
      rw [hd] at hnot
      simpa using hnot
    have hrest : ∀ a ∈ rest, seq < q.startseq a := by
      intro a ha
      have hv' : Valid q ((xs.takeWhile (fun a => q.endseq a ≤ seq) ++ [b]) ++ rest) := by
        rw [append_assoc, singleton_append, hsplit]
        exact hv
      have hgap := hv'.stop_lt_start (show b ∈ _ ++ [b] by simp) ha
      omega
    dsimp only [head?_cons]
    rw [htrim.startseq, htrim.endseq]
    split
    case isTrue hmid =>
      refine ⟨_, _, rfl, fun a ha hstart => or_eq_right_iff.mpr (fun i hbit => ?_)⟩
      rw [Nat.testBit_or, Bool.or_eq_true]
      rw [← hsplit] at ha
      rcases mem_append.mp ha with ha | ha
      · exact .inl (hfreed a ha i hbit)
      · rcases mem_cons.mp ha with rfl | ha
        · right
          rw [hpflags]
          exact hbit
        · exact absurd hstart (not_le_of_gt (hrest a ha))
    case isFalse hmid =>
      refine ⟨_, _, rfl, fun a ha hstart => or_eq_right_iff.mpr (fun i hbit => ?_)⟩
      rw [← hsplit] at ha
      rcases mem_append.mp ha with ha | ha
      · exact hfreed a ha i hbit
      · rcases mem_cons.mp ha with rfl | ha
        · exact absurd ⟨hstart, hb⟩ hmid
        · exact absurd hstart (not_le_of_gt (hrest a ha))

/-! ## Runs -/

/-- Behind every `add`, the blocks have the flags of their segments, and `add` has returned those of the block
with its segment. -/
def Reassembles (q : ReassemblyQueue) (segments : List Segment) : Prop :=
  ∀ past g q₁ outs q₂ flags, past ++ [g] <+: segments → Runs.run addSegment q past = some (q₁, outs) →
    q₁.addSegment g = some (q₂, flags) → Tagged q₂ (past ++ [g]) ∧ Reports q₂ g flags

theorem Kept.next {segments : List Segment} {g : Segment} (h : Kept q xs segments) (hsound : q.SoundSegment g)
    (hkept : q.FlagsKept g) :
    ∃ q' flags xs', q.addSegment g = some (q', flags) ∧ Kept q' xs' (segments ++ [g]) := by
  obtain ⟨q', flags, -, hadd, -⟩ := add_spec h.valid hsound.1 hsound.2 g.tiflags g.rqflags
  obtain ⟨xs', -, hv', hhoused, hiff⟩ := h.step hsound hadd
  obtain ⟨hflags, hreports⟩ := hiff.mp hkept
  exact ⟨q', flags, xs', hadd, hv', hhoused hreports, hflags⟩

theorem kept_run {segments : List Segment} (hq : q.IsEmpty)
    (hsound : Runs.Meets addSegment SoundSegment q segments)
    (hkept : Runs.Meets addSegment FlagsKept q segments) :
    ∃ q' outs xs, Runs.run addSegment q segments = some (q', outs) ∧ Kept q' xs segments := by
  have hinit : Kept q [] [] :=
    ⟨hq.valid, fun g hg => absurd hg not_mem_nil, fun a ha => absurd ha not_mem_nil⟩
  obtain ⟨q', outs, hrun, xs, h⟩ :=
    @Runs.run_invariant _ _ _ addSegment (fun q g => SoundSegment q g ∧ FlagsKept q g) q segments
      (fun past _ q => ∃ xs, Kept q xs past)
      (fun past _ q g hq hboth => by
        obtain ⟨xs, h⟩ := hq
        obtain ⟨q', flags, xs', hadd, h'⟩ := h.next hboth.1 hboth.2
        exact ⟨q', flags, hadd, xs', h'⟩) ⟨[], hinit⟩ (hsound.and hkept)
  exact ⟨q', outs, xs, hrun, h⟩

/-- **No flag is lost** in a run of `add` on an empty queue exactly when nothing is lost on the three ways; and
then `cleartonxt` returns the flags of all segments that are in order. -/
theorem rq_keeps_flags {segments : List Segment} (hq : q.IsEmpty)
    (hsound : Runs.Meets addSegment SoundSegment q segments) :
    (Reassembles q segments ↔ Runs.Meets addSegment FlagsKept q segments) ∧
    (Runs.Meets addSegment FlagsKept q segments → ∃ q' outs q'' flags,
      Runs.run addSegment q segments = some (q', outs) ∧ q'.cleartonxt = some (q'', flags) ∧
        ∀ g ∈ segments, g.stop ≤ q'.rcvNxt → g.tiflags ||| flags = flags) := by
  refine ⟨⟨fun h => Runs.meets_of_prefixes ?_, ?_⟩, fun hkept => ?_⟩
  · rintro past g ⟨q₁, outs⟩ ⟨rest, rfl⟩ hpast hrun
    obtain ⟨hsound', hg⟩ := Runs.meets_concat.mp hsound.append_left
    obtain ⟨q₁', outs', xs, hrun', hk⟩ := kept_run hq hsound' hpast
    rw [hrun] at hrun'
    cases hrun'
    have hg := hg _ hrun
    obtain ⟨q₂, flags, -, hadd, -⟩ := add_spec hk.valid hg.1 hg.2 g.tiflags g.rqflags
    obtain ⟨xs', hnodes, -, -, hiff⟩ := hk.step hg hadd
    obtain ⟨htagged, hreports⟩ := h past g q₁ outs q₂ flags (prefix_append _ _) hrun hadd
    refine hiff.mpr ⟨?_, hreports⟩
    rw [← hnodes]
    exact htagged
  · rintro hkept past g q₁ outs q₂ flags ⟨rest, rfl⟩ hrun hadd
    obtain ⟨q₁', outs', xs, hrun', hk⟩ :=
      kept_run hq hsound.append_left.append_left hkept.append_left.append_left
    rw [hrun] at hrun'
    cases hrun'
    have hg := (Runs.meets_concat.mp hsound.append_left).2 _ hrun
    obtain ⟨xs', hnodes, -, -, hiff⟩ := hk.step hg hadd
    obtain ⟨hflags, hreports⟩ := hiff.mp ((Runs.meets_concat.mp hkept.append_left).2 _ hrun)
    refine ⟨?_, hreports⟩
    unfold Tagged
    rw [hnodes]
    exact hflags
  · obtain ⟨q', outs, xs, hrun, hk⟩ := kept_run hq hsound hkept
    obtain ⟨q'', flags, hclear, hall⟩ := clearto_flags hk.valid q'.rcvNxt
    refine ⟨q', outs, q'', flags, hrun, hclear, fun g hg hstop => or_eq_right_iff.mpr (fun i hbit => ?_)⟩
    obtain ⟨hle, a, ha, hwithin⟩ := hk.housed g hg
    have hself : (q'.pflags a).testBit i = true := by
      rw [hk.hasFlags a ha, testBit_flagsOf]
      exact ⟨g, hg, hwithin, hbit⟩
    exact or_eq_right_iff.mp (hall a ha (le_trans hwithin.1 (le_trans hle hstop))) i hself

/-- A segment with a `FIN` arrives out of order, and another one joins it. -/
theorem rq_keeps_flags_joined :
    (Reassembles (init 3) [⟨5, 7, 1, 0⟩, ⟨3, 5, 16, 0⟩] ↔
      Runs.Meets addSegment FlagsKept (init 3) [⟨5, 7, 1, 0⟩, ⟨3, 5, 16, 0⟩]) ∧
    ∃ q' outs q'' flags, Runs.run addSegment (init 3) [⟨5, 7, 1, 0⟩, ⟨3, 5, 16, 0⟩] = some (q', outs) ∧
      q'.cleartonxt = some (q'', flags) ∧
        ∀ g ∈ [(⟨5, 7, 1, 0⟩ : Segment), ⟨3, 5, 16, 0⟩], g.stop ≤ q'.rcvNxt → g.tiflags ||| flags = flags :=
  have h := @rq_keeps_flags (init 3) [⟨5, 7, 1, 0⟩, ⟨3, 5, 16, 0⟩] (isEmpty_init 3) (by decide +kernel)
  ⟨h.1, h.2 (by decide +kernel)⟩

/-- The segment `[1, 3)` fills the hole in front of the segment `[3, 4)` with a `FIN`. The `FIN` is neither
returned nor in the block any more. -/
theorem fin_lost_in_hole :
    Runs.Meets addSegment SoundSegment (init 0) [⟨0, 1, 0, 0⟩, ⟨3, 4, 1, 0⟩, ⟨1, 3, 0, 0⟩] ∧
    ¬ Reassembles (init 0) [⟨0, 1, 0, 0⟩, ⟨3, 4, 1, 0⟩, ⟨1, 3, 0, 0⟩] ∧
    (∀ r ∈ Runs.run addSegment (init 0) [⟨0, 1, 0, 0⟩, ⟨3, 4, 1, 0⟩, ⟨1, 3, 0, 0⟩],
      r.2 = [0, 1, 0] ∧ ∀ c ∈ r.1.cleartonxt, c.2 = 0) := by
  have hsound : Runs.Meets addSegment SoundSegment (init 0) [⟨0, 1, 0, 0⟩, ⟨3, 4, 1, 0⟩, ⟨1, 3, 0, 0⟩] := by
    decide +kernel
  refine ⟨hsound, fun h => ?_, by decide +kernel⟩
  obtain ⟨⟨q₁, outs⟩, hrun⟩ : ∃ r, Runs.run addSegment (init 0) [⟨0, 1, 0, 0⟩, ⟨3, 4, 1, 0⟩] = some r :=
    Option.isSome_iff_exists.mp (by decide +kernel)
  have hall : ∀ r ∈ Runs.run addSegment (init 0) [⟨0, 1, 0, 0⟩, ⟨3, 4, 1, 0⟩],
      ∀ r' ∈ r.1.addSegment ⟨1, 3, 0, 0⟩, ∃ a ∈ r'.1.nodes,
        r'.1.pflags a ≠ flagsOf [⟨0, 1, 0, 0⟩, ⟨3, 4, 1, 0⟩, ⟨1, 3, 0, 0⟩] (r'.1.block a) := by
    decide +kernel
  obtain ⟨⟨q₂, flags⟩, hadd⟩ : ∃ r, q₁.addSegment ⟨1, 3, 0, 0⟩ = some r := by
    have hsome : ∀ r ∈ Runs.run addSegment (init 0) [⟨0, 1, 0, 0⟩, ⟨3, 4, 1, 0⟩],
        (r.1.addSegment ⟨1, 3, 0, 0⟩).isSome = true := by
      decide +kernel
    exact Option.isSome_iff_exists.mp (hsome _ hrun)
  obtain ⟨a, ha, hne⟩ := hall _ hrun _ hadd
  exact hne ((h [⟨0, 1, 0, 0⟩, ⟨3, 4, 1, 0⟩] ⟨1, 3, 0, 0⟩ q₁ outs q₂ flags (prefix_refl _) hrun hadd).1 a ha)

end ReassemblyQueue

end NetSim
