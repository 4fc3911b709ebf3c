import NetSim.Tcp.ReassemblyQueueAdd

/-! # The reassembly queue: partial overlaps

The last part of `add`, for a segment that covers none of the blocks: the search has cut the FIFO
into the nodes before the segment, those it overlaps and those behind it (`Cut`). At most two
blocks overlap it (`Cut.overlap_cases`); they take over its sides, and what is left of it goes into
a gap.
-/

namespace NetSim

open LinkedList IntervalList

namespace ReassemblyQueue

variable {q q' : ReassemblyQueue} {xs ys fs l m r : List ℕ} {p n b c : ℕ} {s e : ℤ}
  {tiflags rqflags : ℕ} {initcnt : ℤ}

/-! ## Queues with the same blocks -/

/-- The queues differ in flags and counts only. -/
structure SameBlocks (q q' : ReassemblyQueue) : Prop where
  fifo : q'.fifo = q.fifo
  lifo : q'.lifo = q.lifo
  freelist : q'.freelist = q.freelist
  allocated : q'.allocated = q.allocated
  startseq : q'.startseq = q.startseq
  endseq : q'.endseq = q.endseq
  total : q'.total = q.total
  rcvNxt : q'.rcvNxt = q.rcvNxt

theorem SameBlocks.block (h : SameBlocks q q') (a : ℕ) : q'.block a = q.block a := by
  rw [ReassemblyQueue.block, h.startseq, h.endseq]
  rfl

theorem SameBlocks.blocks (h : SameBlocks q q') (xs : List ℕ) : q'.blocks xs = q.blocks xs :=
  blocks_congr (fun a _ => h.block a)

theorem SameBlocks.refl (q : ReassemblyQueue) : SameBlocks q q :=
  ⟨rfl, rfl, rfl, rfl, rfl, rfl, rfl, rfl⟩

theorem SameBlocks.trans {q'' : ReassemblyQueue} (h : SameBlocks q q') (h' : SameBlocks q' q'') :
    SameBlocks q q'' :=
  ⟨h'.1.trans h.1, h'.2.trans h.2, h'.3.trans h.3, h'.4.trans h.4, h'.5.trans h.5,
    h'.6.trans h.6, h'.7.trans h.7, h'.8.trans h.8⟩

theorem SameBlocks.valid (h : SameBlocks q q') (hv : Valid q xs) : Valid q' xs := by
  obtain ⟨ys, fs, hrep⟩ := hv.rep
  refine ⟨⟨ys, fs, hrep.congr h.fifo h.lifo h.freelist h.allocated⟩, ?_, ?_⟩
  · rw [h.blocks]; exact hv.separated
  · rw [h.blocks, h.total]; exact hv.total

theorem SameBlocks.adds (h : SameBlocks q q') {res : Option (ReassemblyQueue × ℕ)}
    (hadds : Adds q' xs s e res) : Adds q xs s e res := by
  obtain ⟨q'', flags, xs', hres, hv, hext, hadv⟩ := hadds
  rw [h.blocks] at hext hadv
  rw [h.rcvNxt] at hadv
  exact ⟨q'', flags, xs', hres, hv, hext, hadv⟩

theorem mergeLeft_same (h : ¬ s < q.startseq b) : SameBlocks q (q.mergeLeft b s tiflags) := by
  refine ⟨rfl, rfl, rfl, rfl, ?_, rfl, ?_, rfl⟩ <;> simp only [mergeLeft, if_neg h]

theorem mergeRight_same (h : ¬ q.endseq b < e) : SameBlocks q (q.mergeRight b e tiflags) := by
  refine ⟨rfl, rfl, rfl, rfl, rfl, ?_, ?_, rfl⟩ <;> simp only [mergeRight, if_neg h]

/-! ## The segment ends inside a block -/

theorem mergesTo_head {M : Block} {d : ℤ} (hv : Valid q (l ++ b :: r))
    (hrep : Rep q' (l ++ b :: r) ys fs) (hother : ∀ a, a ≠ b → q'.block a = q.block a)
    (hself : q'.block b = M) (ht : q'.total = q.total + d) (hrcv : q'.rcvNxt = q.rcvNxt) :
    MergesTo q (q'.fifo.head.map (fun h => (q'.reached h, tiflags))) (q.blocks l) M (q.blocks r)
      d := by
  have hblocks : q'.blocks (l ++ b :: r) = q.blocks l ++ M :: q.blocks r := by
    rw [blocks_middle hother hrep.nodupFifo, hself]
  obtain ⟨h, hh⟩ : ∃ h, (l ++ b :: r).head? = some h := by
    cases l <;> simp
  refine ⟨q'.reached h, tiflags, l ++ b :: r, ?_, ⟨⟨ys, fs, hrep.reached h⟩, hblocks, ht, ?_⟩⟩
  · rw [hrep.fifo.head, hh]
    rfl
  · refine ⟨q'.block h, Or.inr ?_, ?_⟩
    · rw [← hblocks, blocks, List.head?_map, hh]
      rfl
    · simp only [ReassemblyQueue.reached, hrcv]
      rfl

theorem Valid.adds_inside (hv : Valid q (l ++ b :: r)) (hsame : SameBlocks q q')
    (hb : q.startseq b ≤ s ∧ (e ≤ q.endseq b ∨ e ≤ s)) :
    Adds q (l ++ b :: r) s e (q'.fifo.head.map (fun h => (q'.reached h, tiflags))) := by
  obtain ⟨ys, fs, hrep⟩ := (hsame.valid hv).rep
  have hsep : Separated (q.blocks l ++ [q.block b] ++ q.blocks r) := by
    simpa using hv.separated
  obtain ⟨hlm, hsr, hmr⟩ := separated_append.mp hsep
  obtain ⟨hsl, hsm, hlm'⟩ := separated_append.mp hlm
  have hmerge := @mergesTo_head q q' ys fs l r b tiflags (q.block b) 0 hv hrep
    (fun a _ => hsame.block a) (hsame.block b) (by rw [hsame.total, add_zero]) hsame.rcvNxt
  refine hmerge.adds hv (show _ = _ ++ [q.block b] ++ _ by simp) (hsm.le _ (by simp))
    (fun a ha => hlm' a ha _ (by simp)) (fun a ha => hmr _ (by simp) a ha) ?_
    (Or.inr ⟨q.block b, by simp, rfl⟩) hb.1 ?_
  · intro x
    simp only [covers_cons, covers_nil, or_false, block]
    omega
  · simp

/-! ## The blocks that the segment overlaps partially -/

/-- The nodes of a queue, as the search of `add` cuts them: before the segment, overlapping it but
not covered by it, and behind it. -/
structure Cut (q : ReassemblyQueue) (l m r : List ℕ) (s e : ℤ) : Prop where
  le : s ≤ e
  left : ∀ a ∈ l, q.endseq a ≤ s
  mid : ∀ a ∈ m, s < q.endseq a ∧ q.startseq a < e
  partly : ∀ a ∈ m, q.startseq a < s ∨ e < q.endseq a
  right : ∀ a ∈ r, e ≤ q.startseq a
  last : ∀ a, (l ++ m ++ r).getLast? = some a → s < q.endseq a
  first : ∀ a, (l ++ m ++ r).head? = some a → q.startseq a < e
  ne : l ++ m ++ r ≠ []

theorem Cut.overlap_cases (hc : Cut q l m r s e) (hsep : Separated (q.blocks m)) :
    m = [] ∨ (∃ b, m = [b]) ∨
      ∃ b b', m = [b, b'] ∧ q.startseq b < s ∧ q.endseq b < q.startseq b' ∧ e < q.endseq b' := by
  match m, hc, hsep with
  | [], _, _ => exact Or.inl rfl
  | [b], _, _ => exact Or.inr (Or.inl ⟨b, rfl⟩)
  | b :: b' :: rest, hc, hsep =>
    obtain ⟨hb, hsep', hgap⟩ := separated_cons.mp hsep
    obtain ⟨hb', -, hgap'⟩ := separated_cons.mp hsep'
    have h1 : q.endseq b < q.startseq b' := hgap (q.block b') (by simp)
    have h2 := hc.mid b (by simp)
    have h3 := hc.mid b' (by simp)
    have h4 := hc.partly b (by simp)
    have h5 := hc.partly b' (by simp)
    cases rest with
    | nil => exact Or.inr (Or.inr ⟨b, b', rfl, by omega, h1, by omega⟩)
    | cons b'' rest =>
      have h6 : q.endseq b' < q.startseq b'' := hgap' (q.block b'') (by simp)
      have h7 := hc.mid b'' (by simp)
      omega

theorem Rep.rightBlock (h : Rep q (l ++ b :: r) ys fs) :
    q.rightBlock r.head? e =
      some (if r = [] ∨ e < q.endseq b then some b else none) := by
  cases r with
  | nil =>
    have htail : q.fifo.tail = some b := by
      rw [h.fifo.tail]
      simp
    simp [ReassemblyQueue.rightBlock, htail]
  | cons c r =>
    have hprev : q.fifo.prev c = some b := by
      have hf : q.fifo.Holds ((l ++ [b]) ++ c :: r) := by simpa using h.fifo
      rw [hf.prev_eq]
      simp
    simp [ReassemblyQueue.rightBlock, hprev]

theorem Rep.leftBlock (h : Rep q (l ++ b :: r) ys fs) :
    q.leftBlock l.getLast? s =
      some (if l = [] ∨ q.startseq b < s then some b else none) := by
  rcases List.eq_nil_or_concat l with rfl | ⟨l, p, hlp⟩
  · have hhead : q.fifo.head = some b := by
      rw [h.fifo.head]
      rfl
    simp [ReassemblyQueue.leftBlock, hhead]
  · rw [List.concat_eq_append] at hlp
    subst hlp
    have hnext : q.fifo.next p = some b := by
      have hf : q.fifo.Holds (l ++ p :: b :: r) := by simpa using h.fifo
      rw [hf.next_eq]
      rfl
    simp [ReassemblyQueue.leftBlock, hnext]

theorem mergeLeft_block (a : ℕ) (ha : a ≠ b) : (q.mergeLeft b s tiflags).block a = q.block a := by
  simp only [block, mergeLeft]
  split
  · rw [Function.update_of_ne ha]
  · rfl

theorem mergeRight_block (a : ℕ) (ha : a ≠ b) : (q.mergeRight b e tiflags).block a = q.block a := by
  simp only [block, mergeRight]
  split
  · rw [Function.update_of_ne ha]
  · rfl

theorem Cut.adds_cover (hc : Cut q l [b] r s e) (hv : Valid q (l ++ b :: r))
    (hleft : l = [] ∨ q.startseq b < s) (hright : r = [] ∨ e < q.endseq b) :
    Adds q (l ++ b :: r) s e
      ((((q.mergeLeft b s tiflags).mergeRight b e tiflags).fifo.head).map
        (fun h => (((q.mergeLeft b s tiflags).mergeRight b e tiflags).reached h, tiflags))) := by
  obtain ⟨ys, fs, hrep⟩ := hv.rep
  have hsep : Separated (q.blocks l ++ [q.block b] ++ q.blocks r) := by
    simpa using hv.separated
  obtain ⟨hlm, hsr, hmr⟩ := separated_append.mp hsep
  obtain ⟨hsl, hsm, hlm'⟩ := separated_append.mp hlm
  have hbb : q.startseq b ≤ q.endseq b := hsm.le (q.block b) (by simp)
  have hmid := hc.mid b (by simp)
  have hse := hc.le
  have hself : ((q.mergeLeft b s tiflags).mergeRight b e tiflags).block b =
      ⟨min s (q.startseq b), max e (q.endseq b)⟩ := by
    simp only [block, mergeRight, mergeLeft]
    by_cases h1 : s < q.startseq b <;> by_cases h2 : q.endseq b < e <;>
      simp [h1, h2] <;> omega
  have htotal : ((q.mergeLeft b s tiflags).mergeRight b e tiflags).total =
      q.total + (max e (q.endseq b) - min s (q.startseq b) - (q.endseq b - q.startseq b)) := by
    simp only [mergeRight, mergeLeft]
    by_cases h1 : s < q.startseq b <;> by_cases h2 : q.endseq b < e <;>
      simp only [h1, h2, if_true, if_false] <;> omega
  have hrep' : Rep ((q.mergeLeft b s tiflags).mergeRight b e tiflags) (l ++ b :: r) ys fs :=
    hrep.congr rfl rfl rfl rfl
  have hmerge := @mergesTo_head q _ ys fs l r b tiflags _ _ hv hrep'
    (fun a ha => (mergeRight_block a ha).trans (mergeLeft_block a ha)) hself htotal rfl
  refine hmerge.adds hv (show _ = _ ++ [q.block b] ++ _ by simp) ?_ ?_ ?_ ?_ ?_ ?_ ?_
  · show min s (q.startseq b) ≤ max e (q.endseq b)
    omega
  · intro a ha
    show a.stop < min s (q.startseq b)
    have h1 : a.stop < q.startseq b := hlm' a ha (q.block b) (by simp)
    rcases hleft with rfl | h
    · cases ha
    · omega
  · intro a ha
    show max e (q.endseq b) < a.start
    have h1 : q.endseq b < a.start := hmr (q.block b) (by simp) a ha
    rcases hright with rfl | h
    · cases ha
    · omega
  · intro x
    simp only [covers_cons, covers_nil, or_false, block]
    omega
  · show min s (q.startseq b) = s ∨ _
    rcases le_total s (q.startseq b) with h | h
    · exact Or.inl (min_eq_left h)
    · exact Or.inr ⟨q.block b, by simp, (min_eq_right h).symm⟩
  · exact min_le_left _ _
  · simp only [size_cons, size_nil, block]
    omega

end ReassemblyQueue

end NetSim
