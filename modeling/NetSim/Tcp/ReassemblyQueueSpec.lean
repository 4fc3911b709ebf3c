import NetSim.Tcp.ReassemblyQueueInsert

/-! # The reassembly queue: what `add` does

What the loop `kill` of `add` does: it frees the blocks that the segment covers (`kill_spec`), or meets the
block that is the segment (`kill_exact`). The blocks before the last of those that begin before the segment
are not touched.
-/

namespace NetSim

open List LinkedList IntervalList

namespace ReassemblyQueue

variable {q q' : ReassemblyQueue} {xs ys fs l m r : List ℕ} {p n b c : ℕ} {s e : ℤ}
  {tiflags rqflags : ℕ} {initcnt : ℤ}

/-! ## The loop over the overlapped blocks -/

/-- The segment covers the block of the node `a`. -/
def Overlapped (q : ReassemblyQueue) (s e : ℤ) (a : ℕ) : Prop :=
  s ≤ q.startseq a ∧ q.endseq a ≤ e

instance (q : ReassemblyQueue) (s e : ℤ) (a : ℕ) : Decidable (q.Overlapped s e a) :=
  inferInstanceAs (Decidable (_ ∧ _))

/-- What the loop leaves alone: the blocks of all nodes, and `rcv_nxt_`. -/
structure Trimmed (q q' : ReassemblyQueue) (removed : List ℕ) : Prop where
  startseq : q'.startseq = q.startseq
  endseq : q'.endseq = q.endseq
  total : q'.total = q.total - size (q.blocks removed)
  rcvNxt : q'.rcvNxt = q.rcvNxt

theorem Trimmed.block {removed : List ℕ} (h : Trimmed q q' removed) (a : ℕ) :
    q'.block a = q.block a := by
  rw [ReassemblyQueue.block, h.startseq, h.endseq]
  rfl

theorem Trimmed.blocks {removed : List ℕ} (h : Trimmed q q' removed) (xs : List ℕ) :
    q'.blocks xs = q.blocks xs :=
  blocks_congr (fun a _ => h.block a)

theorem Trimmed.trans {q'' : ReassemblyQueue} {as bs : List ℕ} (h : Trimmed q q' as)
    (h' : Trimmed q' q'' bs) : Trimmed q q'' (as ++ bs) := by
  refine ⟨h'.startseq.trans h.startseq, h'.endseq.trans h.endseq, ?_, h'.rcvNxt.trans h.rcvNxt⟩
  rw [h'.total, h.total, h.blocks, blocks_append, size_append]
  omega

/-- Take the block of a node out of the queue. -/
def trim (q : ReassemblyQueue) (a : ℕ) : ReassemblyQueue :=
  { q with total := q.total - (q.endseq a - q.startseq a) }.drop a

theorem trimmed_trim (q : ReassemblyQueue) (a : ℕ) : Trimmed q (q.trim a) [a] :=
  ⟨rfl, rfl, by simp [trim, drop, deleteseginfo, sremove, fremove, block], rfl⟩

theorem Rep.trim (h : Rep q (l ++ b :: r) ys fs) :
    Rep (q.trim b) (l ++ r) (ys.erase b) (b :: fs) := by
  have h' : Rep { q with total := q.total - (q.endseq b - q.startseq b) } (l ++ b :: r) ys fs :=
    h.congr rfl rfl rfl rfl
  exact h'.drop

/-- **The loop frees the blocks that the segment covers**, when none is the segment itself. -/
theorem kill_spec (t : List ℕ) {fuel : ℕ} (hrep : Rep q (l ++ t ++ r) ys fs)
    (hne : ∀ a ∈ t, q.block a ≠ ⟨s, e⟩) (hfuel : t.length < fuel) (tiflags : ℕ) (initcnt : ℤ)
    (altered : Bool) :
    ∃ q' initcnt' fs',
      kill s e r.head? fuel q (t ++ r).head? tiflags initcnt altered =
        some (.rest q' ((t.filter (fun a => q.Overlapped s e a)).foldl (fun f a => f ||| q.pflags a) tiflags)
          initcnt' (altered || t.any (fun a => q.Overlapped s e a))) ∧
      Rep q' (l ++ t.filter (fun a => ¬ q.Overlapped s e a) ++ r)
        (ys.diff (t.filter (fun a => q.Overlapped s e a))) fs' ∧
      Trimmed q q' (t.filter (fun a => q.Overlapped s e a)) ∧ q'.pflags = q.pflags := by
  induction t generalizing q l ys fs fuel tiflags initcnt altered with
  | nil =>
    obtain ⟨fuel, rfl⟩ : ∃ k, fuel = k + 1 := ⟨fuel - 1, by simp at hfuel; omega⟩
    refine ⟨q, initcnt, fs, ?_, by simpa using hrep, ⟨rfl, rfl, by simp, rfl⟩, rfl⟩
    cases r with
    | nil => simp [kill]
    | cons c r => simp [kill]
  | cons a t ih =>
    obtain ⟨fuel, rfl⟩ : ∃ k, fuel = k + 1 := ⟨fuel - 1, by simp at hfuel; omega⟩
    have hrep' : Rep q (l ++ a :: (t ++ r)) ys fs := by simpa using hrep
    have hstop : r.head? ≠ some a := by
      intro he
      exact (nodup_middle hrep'.nodupFifo).2.2.2.1 (by simp [mem_of_head? he])
    have hexact : ¬ (s = q.startseq a ∧ e = q.endseq a) := by
      rintro ⟨rfl, rfl⟩
      exact hne a (by simp) rfl
    have hnext : q.fifo.next a = (t ++ r).head? := hrep'.fifo.next_eq
    have hfuel' : t.length < fuel := by simpa using hfuel
    simp only [cons_append, head?_cons, kill, if_neg hstop, if_neg hexact, hnext]
    by_cases ho : q.Overlapped s e a
    · have ho' : s ≤ q.startseq a ∧ q.endseq a ≤ e := ho
      have htrim : Rep (q.trim a) (l ++ t ++ r) (ys.erase a) (a :: fs) := by
        simpa using hrep'.trim
      obtain ⟨q', c', fs', h1, h2, h3, h4⟩ := ih htrim (fun b hb => hne b (by simp [hb]))
        hfuel' (tiflags ||| q.pflags a) (initcnt + q.cnt a) true
      have hpos : (a :: t).filter (fun b => q.Overlapped s e b) =
          a :: t.filter (fun b => q.Overlapped s e b) := filter_cons_of_pos (by simpa using ho)
      refine ⟨q', c', fs', ?_, ?_, ?_, h4⟩
      · rw [if_pos ho', hpos, foldl_cons]
        simp only [any_cons, ho, decide_true, Bool.true_or, Bool.or_true]
        rw [Bool.true_or] at h1
        exact h1
      · rw [filter_cons_of_neg (by simpa using ho), hpos, diff_cons]
        exact h2
      · rw [hpos]
        exact (trimmed_trim q a).trans h3
    · have ho' : ¬ (s ≤ q.startseq a ∧ q.endseq a ≤ e) := ho
      have hrep'' : Rep q ((l ++ [a]) ++ t ++ r) ys fs := by simpa using hrep
      obtain ⟨q', c', fs', h1, h2, h3, h4⟩ := ih hrep'' (fun b hb => hne b (by simp [hb]))
        hfuel' tiflags initcnt altered
      have hneg : (a :: t).filter (fun b => q.Overlapped s e b) =
          t.filter (fun b => q.Overlapped s e b) := filter_cons_of_neg (by simpa using ho)
      refine ⟨q', c', fs', ?_, ?_, ?_, h4⟩
      · rw [if_neg ho', hneg]
        simp only [any_cons, ho, decide_false, Bool.false_or]
        exact h1
      · rw [hneg]
        simpa [ho] using h2
      · rwa [hneg]

theorem kill_exact (t : List ℕ) {fuel : ℕ} (hrep : Rep q (l ++ t ++ c :: r) ys fs) {r' : List ℕ}
    (hstop : ∀ a ∈ t ++ [c], r'.head? ≠ some a) (hov : ∀ a ∈ t, ¬ q.Overlapped s e a)
    (hc : q.block c = ⟨s, e⟩) (hfuel : t.length < fuel) (tiflags : ℕ) (initcnt : ℤ)
    (altered : Bool) :
    kill s e r'.head? fuel q (t ++ c :: r).head? tiflags initcnt altered =
      some (.exact { q with pflags := Function.update q.pflags c (q.pflags c ||| tiflags) }
        (q.pflags c ||| tiflags)) := by
  have hcs : q.startseq c = s := congrArg Block.start hc
  have hce : q.endseq c = e := congrArg Block.stop hc
  induction t generalizing l fuel with
  | nil =>
    obtain ⟨fuel, rfl⟩ : ∃ k, fuel = k + 1 := ⟨fuel - 1, by simp at hfuel; omega⟩
    simp only [nil_append, head?_cons, kill, if_neg (hstop c (by simp)), hcs, hce,
      and_self, if_true]
  | cons a t ih =>
    obtain ⟨fuel, rfl⟩ : ∃ k, fuel = k + 1 := ⟨fuel - 1, by simp at hfuel; omega⟩
    have hrep' : Rep q (l ++ a :: (t ++ c :: r)) ys fs := by simpa using hrep
    have hrep'' : Rep q ((l ++ [a]) ++ t ++ c :: r) ys fs := by simpa using hrep
    have hnext : q.fifo.next a = (t ++ c :: r).head? := hrep'.fifo.next_eq
    have hno : ¬ (s ≤ q.startseq a ∧ q.endseq a ≤ e) := hov a (by simp)
    have hexact : ¬ (s = q.startseq a ∧ e = q.endseq a) := fun h => hno ⟨h.1.le, h.2.ge⟩
    have h1 := ih hrep'' (fun b hb => hstop b (by
      rcases mem_append.mp hb with hb | hb <;> simp [hb])) (fun b hb => hov b (by simp [hb]))
      (by simpa using hfuel)
    simp only [cons_append, head?_cons, kill, if_neg (hstop a (by simp)),
      if_neg hexact, if_neg hno, hnext]
    exact h1

/-! ## The search -/

theorem exists_cut (hsep : Separated (q.blocks xs)) :
    ∃ l m r, xs = l ++ m ++ r ∧ (∀ a ∈ l, q.endseq a ≤ s) ∧
      (∀ a ∈ m, s < q.endseq a ∧ q.startseq a < e) ∧
      (∀ a ∈ r, e ≤ q.startseq a ∧ s < q.endseq a) := by
  induction xs with
  | nil => exact ⟨[], [], [], rfl, by simp, by simp, by simp⟩
  | cons a xs ih =>
    obtain ⟨ha, hsep', hgap⟩ := separated_cons.mp hsep
    have haa : q.startseq a ≤ q.endseq a := ha
    have hgap' : ∀ x ∈ xs, q.endseq a < q.startseq x :=
      fun x hx => hgap (q.block x) (mem_map.mpr ⟨x, hx, rfl⟩)
    have hle : ∀ x ∈ xs, q.startseq x ≤ q.endseq x :=
      fun x hx => hsep'.le (q.block x) (mem_map.mpr ⟨x, hx, rfl⟩)
    obtain ⟨l, m, r, rfl, hl, hm, hr⟩ := ih hsep'
    by_cases h1 : q.endseq a ≤ s
    · refine ⟨a :: l, m, r, rfl, fun x hx => ?_, hm, hr⟩
      rcases mem_cons.mp hx with rfl | hx
      · exact h1
      · exact hl x hx
    · have hlnil : l = [] := by
        rw [eq_nil_iff_forall_not_mem]
        intro x hx
        have h2 := hl x hx
        have h3 := hgap' x (by simp [hx])
        have h4 := hle x (by simp [hx])
        omega
      subst hlnil
      by_cases h2 : q.startseq a < e
      · refine ⟨[], a :: m, r, rfl, by simp, fun x hx => ?_, hr⟩
        rcases mem_cons.mp hx with rfl | hx
        · exact ⟨by omega, h2⟩
        · exact hm x hx
      · have hmnil : m = [] := by
          rw [eq_nil_iff_forall_not_mem]
          intro x hx
          have h3 := hm x hx
          have h4 := hgap' x (by simp [hx])
          omega
        subst hmnil
        refine ⟨[], [], a :: r, rfl, by simp, by simp, fun x hx => ?_⟩
        rcases mem_cons.mp hx with rfl | hx
        · exact ⟨by omega, by omega⟩
        · exact hr x hx

theorem Rep.search_next (h : Rep q (l ++ r) ys fs) (hl : ∀ a ∈ l, q.startseq a < e)
    (hr : ∀ a, r.head? = some a → e ≤ q.startseq a) :
    q.fifo.walkNext (fun b => q.startseq b < e) q.fuel q.fifo.head = some r.head? := by
  have hwalk := DLinks.Holds.walkNext (show q.fifo.Holds ([] ++ (l ++ r)) from h.fifo)
    (fun b => decide (q.startseq b < e)) h.length_lt_fuel
  rw [h.fifo.head, hwalk, dropWhile_append_of_pos (by simpa using hl)]
  cases r with
  | nil => rfl
  | cons c r =>
    have : ¬ q.startseq c < e := not_lt.mpr (hr c rfl)
    simp [this]

theorem Rep.search_prev (h : Rep q (l ++ r) ys fs) (hr : ∀ a ∈ r, s < q.endseq a)
    (hl : ∀ a, l.getLast? = some a → q.endseq a ≤ s) :
    q.fifo.walkPrev (fun b => s < q.endseq b) q.fuel q.fifo.tail = some l.getLast? := by
  have hwalk := DLinks.Holds.walkPrev (show q.fifo.Holds ((l ++ r) ++ []) by simpa using h.fifo)
    (fun b => decide (s < q.endseq b)) h.length_lt_fuel
  rw [h.fifo.tail, hwalk, reverse_append,
    dropWhile_append_of_pos (by simpa using hr)]
  rcases eq_nil_or_concat l with rfl | ⟨l, p, hlp⟩
  · rfl
  · rw [concat_eq_append] at hlp
    subst hlp
    have : ¬ s < q.endseq p := not_lt.mpr (hl p (by simp))
    simp [this]

/-! ## Adding a segment -/

/-- The new segment covers every block, there are at least two, and the first one is empty and
begins where the segment does, and the last one before its end: then `add` links the new block to the
killed first one. -/
def swallowsHead (q : ReassemblyQueue) (start stop : ℤ) : Bool :=
  match q.fifo.head, q.fifo.tail with
  | some h, some t =>
    decide (start < stop ∧ h ≠ t ∧ q.startseq h = start ∧ q.endseq h = start ∧
      q.startseq t < stop ∧ q.endseq t ≤ stop)
  | _, _ => false

theorem size_blocks_filter (xs : List ℕ) (f : ℕ → Bool) :
    size (q.blocks xs) = size (q.blocks (xs.filter f)) +
      size (q.blocks (xs.filter (fun a => ¬ f a))) := by
  induction xs with
  | nil => rfl
  | cons a xs ih =>
    by_cases h : f a
    · simp only [blocks_cons, size_cons, ih, filter_cons, h, if_true, not_true,
        decide_false, Bool.false_eq_true, if_false]
      omega
    · simp only [blocks_cons, size_cons, ih, filter_cons, h, if_false, not_false_iff,
        decide_true, if_true, Bool.false_eq_true]
      omega

theorem Trimmed.valid {t : List ℕ} (h : Trimmed q q' (t.filter (fun a => q.Overlapped s e a)))
    (hv : Valid q (l ++ t ++ r))
    (hrep : Rep q' (l ++ t.filter (fun a => ¬ q.Overlapped s e a) ++ r) ys fs) :
    Valid q' (l ++ t.filter (fun a => ¬ q.Overlapped s e a) ++ r) := by
  have hsub : (l ++ t.filter (fun a => ¬ q.Overlapped s e a) ++ r).Sublist (l ++ t ++ r) :=
    ((List.Sublist.refl l).append filter_sublist).append (List.Sublist.refl r)
  refine ⟨⟨ys, fs, hrep⟩, ?_, ?_⟩
  · rw [h.blocks]
    exact hv.separated.sublist (hsub.map q.block)
  · have hsize := @size_blocks_filter q t (fun a => q.Overlapped s e a)
    simp only [decide_eq_true_iff] at hsize
    rw [h.total, hv.total, h.blocks]
    simp only [blocks_append, size_append]
    omega

theorem Trimmed.adds {t : List ℕ} {res : Option (ReassemblyQueue × ℕ)}
    (h : Trimmed q q' (t.filter (fun a => q.Overlapped s e a)))
    (hadds : Adds q' (l ++ t.filter (fun a => ¬ q.Overlapped s e a) ++ r) s e res) :
    Adds q (l ++ t ++ r) s e res := by
  obtain ⟨q'', flags, xs', hres, hv, hext, hadv⟩ := hadds
  rw [h.blocks] at hext hadv
  rw [h.rcvNxt] at hadv
  have hsub : (q.blocks (l ++ t.filter (fun a => ¬ q.Overlapped s e a) ++ r)).Sublist
      (q.blocks (l ++ t ++ r)) :=
    (((List.Sublist.refl l).append filter_sublist).append (List.Sublist.refl r)).map q.block
  refine ⟨q'', flags, xs', hres, hv, hext.of_sublist hsub ?_, hadv.moves, ?_⟩
  · rintro x ⟨b, hb, hx⟩
    obtain ⟨a, ha, rfl⟩ := mem_map.mp hb
    by_cases ho : a ∈ t ∧ q.Overlapped s e a
    · exact Or.inr ⟨ho.2.1.trans hx.1, hx.2.trans_le ho.2.2⟩
    · refine Or.inl ⟨q.block a, mem_map.mpr ⟨a, ?_, rfl⟩, hx⟩
      simp only [mem_append, mem_filter] at ha ⊢
      by_cases hat : a ∈ t
      · have : ¬ q.Overlapped s e a := fun h => ho ⟨hat, h⟩
        simp [hat, this]
      · tauto
  · exact fun hall => hadv.inOrder (fun b hb => hall b (hsub.subset hb))

/-- The node at which the loop starts, and the nodes it visits: the last one before the segment
and the overlapped ones. -/
theorem kill_range (l m r : List ℕ) :
    ∃ a t, l ++ m = a ++ t ∧ (t ++ r).head? = l.getLast?.or (l ++ m ++ r).head? ∧
      (∀ x ∈ m, x ∈ t) ∧ (∀ p, l.getLast? = some p → p ∈ t) ∧
      (∀ x ∈ a, ∃ p, l.getLast? = some p) := by
  rcases eq_nil_or_concat l with rfl | ⟨l, p, hlp⟩
  · exact ⟨[], m, rfl, rfl, fun x hx => hx, by simp, by simp⟩
  · rw [concat_eq_append] at hlp
    subst hlp
    refine ⟨l, p :: m, by simp, by simp, fun x hx => by simp [hx], ?_, fun _ _ => ⟨p, by simp⟩⟩
    intro p' hp'
    simp only [getLast?_append, getLast?_singleton, Option.some_or] at hp'
    simp [Option.some.inj hp']

theorem Valid.adds_nothing (hv : Valid q xs) {h : ℕ} (hh : xs.head? = some h)
    (hs : q.startseq h ≤ s) (hse : e ≤ s) :
    Adds q xs s e (q.fifo.head.map (fun h => (q.reached h, tiflags))) := by
  obtain ⟨rest, rfl⟩ := head?_eq_some_iff.mp hh
  exact Valid.adds_inside (show Valid q ([] ++ h :: rest) from hv) (SameBlocks.refl q)
    ⟨hs, Or.inr hse⟩

theorem Valid.adds_exact (hv : Valid q xs) (hsame : SameBlocks q q') (hc : c ∈ xs)
    (hblock : q.block c = ⟨s, e⟩) : Adds q xs s e (some (q', tiflags)) := by
  have hmem : q.block c ∈ q.blocks xs := mem_map.mpr ⟨c, hc, rfl⟩
  rw [hblock] at hmem
  refine ⟨q', tiflags, xs, rfl, hsame.valid hv, ?_, Or.inl hsame.rcvNxt, ?_⟩
  · rw [hsame.blocks]
    exact Extends.refl hv.separated (fun x h1 h2 => ⟨_, hmem, h1, h2⟩)
  · intro hall hs
    exact absurd (hall _ hmem) (by simp [hs])

/-- When the segment covers all blocks and one of them ends at its start, that block is the empty
first one. -/
theorem swallowsHead_of_covered {t : List ℕ} (hv : Valid q (l ++ m)) (ht : l ++ m = t)
    (hl : l ≠ []) (hend : ∀ a ∈ l, q.endseq a ≤ s) (hm : ∀ a ∈ m, q.startseq a < e)
    (hov : ∀ a ∈ t, q.Overlapped s e a)
    (hlast : ∀ a, (l ++ m).getLast? = some a → s < q.endseq a) : q.swallowsHead s e = true := by
  obtain ⟨h, l, rfl⟩ := exists_cons_of_ne_nil hl
  obtain ⟨ys, fs, hrep⟩ := hv.rep
  obtain ⟨z, hz⟩ : ∃ z, (h :: l ++ m).getLast? = some z := ⟨_, getLast?_cons⟩
  have hzt : z ∈ t := ht ▸ mem_of_getLast? hz
  have hht : h ∈ t := by rw [← ht]; simp
  have h1 := hend h (by simp)
  have h2 := hov h hht
  have h3 : q.startseq h ≤ q.endseq h := hv.separated.le (q.block h) (by simp)
  have h4 := hlast z hz
  have h5 := hov z hzt
  have hhs : q.startseq h = s := le_antisymm (h3.trans h1) h2.1
  have hhe : q.endseq h = s := le_antisymm h1 (h2.1.trans h3)
  have hse : s < e := h4.trans_le h5.2
  have hne : h ≠ z := by
    rintro rfl
    omega
  have hzm : z ∈ m := (mem_append.mp (mem_of_getLast? hz)).resolve_left (fun hzl => by
    have := hend z hzl
    omega)
  have hhead : q.fifo.head = some h := hrep.fifo.head
  have htail : q.fifo.tail = some z := hrep.fifo.tail.trans hz
  unfold swallowsHead
  rw [hhead, htail]
  exact decide_eq_true ⟨hse, hne, hhs, hhe, hm z hzm, h5.2⟩

theorem Trimmed.not_swallows {t : List ℕ}
    (h : Trimmed q q' (t.filter (fun a => q.Overlapped s e a)))
    (hrep : Rep q' (l ++ t.filter (fun a => ¬ q.Overlapped s e a) ++ r) ys fs)
    (hl : ∀ a ∈ l, q.endseq a < s) (hr : ∀ a ∈ r, e ≤ q.startseq a) :
    q'.swallowsHead s e = false := by
  rw [← Bool.not_eq_true]
  intro hsw
  unfold swallowsHead at hsw
  split at hsw
  case h_1 x z hx hz =>
    rw [decide_eq_true_iff, h.startseq, h.endseq] at hsw
    obtain ⟨hse, -, h1, h2, -⟩ := hsw
    have hmem := mem_of_head? (hrep.fifo.head.symm.trans hx)
    simp only [mem_append, mem_filter] at hmem
    rcases hmem with (hm | hm) | hm
    · have := hl x hm
      omega
    · have hno : ¬ q.Overlapped s e x := by simpa using hm.2
      exact hno ⟨h1.ge, by omega⟩
    · have := hr x hm
      omega
  case h_2 => cases hsw

theorem Valid.start_le_stop (hv : Valid q xs) {a : ℕ} (ha : a ∈ xs) :
    q.startseq a ≤ q.endseq a :=
  hv.separated.le (q.block a) (mem_map.mpr ⟨a, ha, rfl⟩)

theorem Valid.gap (hv : Valid q (l ++ r)) {a b : ℕ} (ha : a ∈ l) (hb : b ∈ r) :
    q.endseq a < q.startseq b := by
  have hsep := hv.separated
  rw [blocks_append] at hsep
  exact (separated_append.mp hsep).2.2 (q.block a) (mem_map.mpr ⟨a, ha, rfl⟩) (q.block b)
    (mem_map.mpr ⟨b, hb, rfl⟩)

/-- The blocks before the segment start before its end, unless the last one is empty and starts
there. -/
theorem Valid.start_lt (hv : Valid q (l ++ r)) (hse : s ≤ e) (hl : ∀ a ∈ l, q.endseq a ≤ s)
    (hno : ∀ p, l.getLast? = some p → q.startseq p ≠ e) : ∀ a ∈ l, q.startseq a < e := by
  intro a ha
  have h1 := hl a ha
  have h2 := hv.start_le_stop (show a ∈ l ++ r by simp [ha])
  rcases eq_nil_or_concat l with rfl | ⟨l, p, hlp⟩
  · cases ha
  · rw [concat_eq_append] at hlp
    subst hlp
    have hp := hno p (by simp)
    rcases mem_append.mp ha with ha | ha
    · have hv' : Valid q (l ++ p :: r) := by simpa using hv
      have h3 := hv'.gap ha (show p ∈ p :: r by simp)
      have h4 := hv'.start_le_stop (show p ∈ l ++ p :: r by simp)
      have h5 := hl p (by simp)
      omega
    · rw [mem_singleton.mp ha] at h1 h2 ⊢
      omega

/-- An empty segment where an empty block is: both searches stop at that block, and the loop ends
at once. -/
theorem Valid.search_empty {a : ℕ} (hv : Valid q (l ++ a :: r)) (ha : q.block a = ⟨s, s⟩) :
    q.fifo.walkNext (fun b => q.startseq b < s) q.fuel q.fifo.head = some (some a) ∧
      kill s s (some a) q.fuel q (some a) tiflags initcnt false =
        some (.rest q tiflags initcnt false) := by
  obtain ⟨ys, fs, hrep⟩ := hv.rep
  have has : q.startseq a = s := congrArg Block.start ha
  refine ⟨hrep.search_next (fun x hx => ?_) (fun x hx => ?_), by simp [kill, fuel]⟩
  · have h1 := hv.gap hx (show a ∈ a :: r by simp)
    have h2 := hv.start_le_stop (show x ∈ l ++ a :: r by simp [hx])
    omega
  · rw [← Option.some.inj hx, has]

end ReassemblyQueue

end NetSim
