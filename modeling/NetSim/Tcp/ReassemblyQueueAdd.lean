import NetSim.Tcp.ReassemblyQueueRep

/-! # The reassembly queue: adding a segment

`add` puts a segment into the queue in one of several ways: it links a new block at an end or into
a hole and coalesces it with its neighbours, it kills blocks that the segment covers and starts
again, or it extends the blocks that the segment overlaps partially. In each of them the blocks
`bl ++ m ++ br` become `bl ++ M :: br`, where `M` joins `m` and the segment (`Merged`), with one
exception: when all blocks are killed and the first of them was empty and began at the segment's
start, the new block is linked to the killed one (`swallowsHead`).
-/

namespace NetSim

open Function List LinkedList IntervalList

namespace ReassemblyQueue

variable {q q' : ReassemblyQueue} {xs ys fs l m r : List ℕ} {p n b c : ℕ} {s e : ℤ}

/-! ## What adding does -/

/-- The queue holds the blocks of the nodes `xs`, in order and with gaps, and counts them. -/
structure Valid (q : ReassemblyQueue) (xs : List ℕ) : Prop where
  rep : ∃ ys fs, Rep q xs ys fs
  separated : Separated (q.blocks xs)
  total : q.total = size (q.blocks xs)

/-- How `rcv_nxt_` moves: to the end of a block that it reaches, and it does so when the segment
starts at it and all blocks lie above it. -/
structure Advances (bs : List Block) (s : ℤ) (bs' : List Block) (rcv rcv' : ℤ) : Prop where
  moves : rcv' = rcv ∨ ∃ b ∈ bs', b.start ≤ rcv ∧ rcv' = b.stop
  inOrder : (∀ b ∈ bs, rcv < b.start) → s = rcv → ∃ b ∈ bs', b.start = rcv ∧ rcv' = b.stop

/-- The outcome `q'` is `q` with `[s, e)` added. -/
def Adds (q : ReassemblyQueue) (xs : List ℕ) (s e : ℤ)
    (res : Option (ReassemblyQueue × ℕ)) : Prop :=
  ∃ q' flags xs', res = some (q', flags) ∧ Valid q' xs' ∧
    Extends (q.blocks xs) s e (q'.blocks xs') ∧
    Advances (q.blocks xs) s (q'.blocks xs') q.rcvNxt q'.rcvNxt

/-- The outcome `q'` has the block `M` in one place; `d` sequence numbers are new. `rcv_nxt_` has
looked at `M` or at the first block. -/
structure Merged (q q' : ReassemblyQueue) (xs' : List ℕ) (bl : List Block) (M : Block)
    (br : List Block) (d : ℤ) : Prop where
  rep : ∃ ys fs, Rep q' xs' ys fs
  blocks : q'.blocks xs' = bl ++ M :: br
  total : q'.total = q.total + d
  rcv : ∃ h, (h = M ∨ (bl ++ M :: br).head? = some h) ∧
    q'.rcvNxt = if h.start ≤ q.rcvNxt then h.stop else q.rcvNxt

/-- A computation that ends with a merged block. -/
def MergesTo (q : ReassemblyQueue) (res : Option (ReassemblyQueue × ℕ)) (bl : List Block)
    (M : Block) (br : List Block) (d : ℤ) : Prop :=
  ∃ q' flags xs', res = some (q', flags) ∧ Merged q q' xs' bl M br d

theorem MergesTo.adds {res : Option (ReassemblyQueue × ℕ)} {bl mid br : List Block} {M : Block}
    {d : ℤ} (hmerge : MergesTo q res bl M br d) (hv : Valid q xs) (hblocks : q.blocks xs = bl ++ mid ++ br)
    (hM : M.start ≤ M.stop) (hl : ∀ a ∈ bl, a.stop < M.start) (hr : ∀ a ∈ br, M.stop < a.start)
    (hcov : ∀ x, (M.start ≤ x ∧ x < M.stop) ↔ Covers mid x ∨ (s ≤ x ∧ x < e))
    (hstart : M.start = s ∨ ∃ a ∈ mid, a.start = M.start) (hle : M.start ≤ s)
    (hsize : M.stop - M.start = size mid + d) : Adds q xs s e res := by
  obtain ⟨q', flags, xs', rfl, h⟩ := hmerge
  have hsep := hv.separated
  rw [hblocks] at hsep
  have hext := Extends.merge hsep hM hl hr hcov hstart
  obtain ⟨b, hb, hrcv⟩ := h.rcv
  have hmem : b ∈ bl ++ M :: br := by
    rcases hb with rfl | hb
    · simp
    · exact mem_of_head? hb
  refine ⟨q', flags, xs', rfl, ⟨h.rep, ?_, ?_⟩, ?_, ?_, ?_⟩
  · rw [h.blocks]; exact hext.separated
  · rw [h.total, hv.total, hblocks, h.blocks]
    simp only [size_append, size_cons]
    omega
  · rw [h.blocks, hblocks]; exact hext
  · rw [h.blocks, hrcv]
    split
    · exact Or.inr ⟨b, hmem, by assumption, rfl⟩
    · exact Or.inl rfl
  · rw [hblocks, h.blocks]
    rintro hall rfl
    -- all old blocks lie above `rcv_nxt_`, so the new one begins there and is the first
    have hMs : M.start = q.rcvNxt := by
      rcases hstart with hs | ⟨a, ha, hs⟩
      · exact hs
      · have := hall a (by simp [ha])
        omega
    have hbl : bl = [] := by
      cases bl with
      | nil => rfl
      | cons a bl =>
        have h1 := hall a (by simp)
        have h2 := hl a (by simp)
        have h3 := hsep.le a (by simp)
        omega
    have hbM : b = M := by
      rcases hb with hb | hb
      · exact hb
      · rw [hbl] at hb
        exact (Option.some.inj hb).symm
    subst hbM
    exact ⟨b, hmem, hMs, by rw [hrcv, if_pos (by omega)]⟩

/-! ## Linking a new block -/

structure Linked (q q' : ReassemblyQueue) (l : List ℕ) (n : ℕ) (r : List ℕ) (s e : ℤ) :
    Prop where
  rep : ∃ ys fs, Rep q' (l ++ n :: r) ys fs
  left : q'.blocks l = q.blocks l
  new : q'.block n = ⟨s, e⟩
  right : q'.blocks r = q.blocks r
  total : q'.total = q.total + (e - s)
  rcvNxt : q'.rcvNxt = q.rcvNxt

theorem Rep.linked (h : Rep q (l ++ r) ys fs) (s e : ℤ) (tiflags : ℕ) (rqflags : ℕ)
    (initcnt : ℤ) :
    Linked q { q.linkNew l.getLast? r.head? s e tiflags rqflags initcnt with
      total := q.total + (e - s) } l q.newseginfo.2 r s e := by
  obtain ⟨hn, fs', hrep⟩ := h.linkNew s e tiflags rqflags initcnt
  have hne : ∀ a ∈ l ++ r, a ≠ q.newseginfo.2 := fun a ha he => hn (he ▸ ha)
  have hblock : ∀ a, a ≠ q.newseginfo.2 →
      (q.linkNew l.getLast? r.head? s e tiflags rqflags initcnt).block a = q.block a :=
    fun a ha => linkNew_block ha _ _ _ _ _ _ _
  refine ⟨⟨_, fs', hrep.congr rfl rfl rfl rfl⟩, ?_, ?_, ?_, rfl, ?_⟩
  · exact blocks_congr (fun a ha => hblock a (hne a (by simp [ha])))
  · exact linkNew_block_self l.getLast? r.head? s e tiflags rqflags initcnt
  · exact blocks_congr (fun a ha => hblock a (hne a (by simp [ha])))
  · exact linkNew_rcvNxt l.getLast? r.head? s e tiflags rqflags initcnt

theorem Rep.reached (h : Rep q xs ys fs) (b : ℕ) : Rep (q.reached b) xs ys fs :=
  h.congr rfl rfl rfl rfl

theorem Linked.plain (h : Linked q q' l n r s e) :
    Merged q (q'.reached n) (l ++ n :: r) (q.blocks l) ⟨s, e⟩ (q.blocks r) (e - s) := by
  obtain ⟨ys, fs, hrep⟩ := h.rep
  refine ⟨⟨ys, fs, hrep.reached n⟩, ?_, h.total, ⟨s, e⟩, Or.inl rfl, ?_⟩
  · show q'.blocks (l ++ n :: r) = _
    rw [blocks_append, blocks_cons, h.left, h.new, h.right]
  · have hs : q'.startseq n = s := congrArg Block.start h.new
    have he : q'.endseq n = e := congrArg Block.stop h.new
    simp only [ReassemblyQueue.reached, hs, he, h.rcvNxt]

theorem Linked.coalesced {l' r' : List ℕ} {q'' : ReassemblyQueue} {M : Block}
    (h : Linked q q' l n r s e) (hrep : ∃ ys fs, Rep q'' (l' ++ b :: r') ys fs)
    (hother : ∀ a, a ≠ b → q''.block a = q'.block a) (hself : q''.block b = M)
    (hl : q'.blocks l' = q.blocks l') (hr : q'.blocks r' = q.blocks r')
    (ht : q''.total = q'.total) (hrcv : q''.rcvNxt = q'.rcvNxt) :
    Merged q (q''.reached b) (l' ++ b :: r') (q.blocks l') M (q.blocks r') (e - s) := by
  obtain ⟨ys, fs, hrep⟩ := hrep
  refine ⟨⟨ys, fs, hrep.reached b⟩, ?_, ht.trans h.total, M, Or.inl rfl, ?_⟩
  · show q''.blocks (l' ++ b :: r') = _
    rw [blocks_middle hother hrep.nodupFifo, hself, hl, hr]
  · rw [← hself]
    simp only [ReassemblyQueue.reached, block, hrcv, h.rcvNxt]
    rfl

theorem Linked.joinLeft (h : Linked q q' (l ++ [p]) n r s e) :
    Merged q ((q'.joinLeft p n).reached p) (l ++ p :: r) (q.blocks l) ⟨q.startseq p, e⟩
      (q.blocks r) (e - s) := by
  obtain ⟨ys, fs, hrep⟩ := h.rep
  obtain ⟨hl, hp⟩ : q'.blocks l = q.blocks l ∧ q'.block p = q.block p := by
    simpa using h.left
  have hrep' : Rep (q'.drop n) (l ++ p :: r) (ys.erase n) (n :: fs) := by simpa using hrep.drop
  refine h.coalesced ⟨_, _, hrep'.congr rfl rfl rfl rfl⟩ ?_ ?_ hl h.right rfl rfl
  · intro a ha
    simp only [block, ReassemblyQueue.joinLeft, deleteseginfo, fremove, sremove,
      update_of_ne ha]
  · have hps : q'.startseq p = q.startseq p := congrArg Block.start hp
    have hne : q'.endseq n = e := congrArg Block.stop h.new
    simp only [block, ReassemblyQueue.joinLeft, deleteseginfo, fremove, sremove,
      update_self, hps, hne]

theorem Linked.joinRight (h : Linked q q' l n (c :: r) s e) :
    Merged q ((q'.joinRight n c).reached c) (l ++ c :: r) (q.blocks l) ⟨s, q.endseq c⟩
      (q.blocks r) (e - s) := by
  obtain ⟨ys, fs, hrep⟩ := h.rep
  obtain ⟨hc, hr⟩ := List.cons.inj h.right
  refine h.coalesced ⟨_, _, hrep.drop.congr rfl rfl rfl rfl⟩ ?_ ?_ h.left hr rfl rfl
  · intro a ha
    simp only [block, ReassemblyQueue.joinRight, deleteseginfo, fremove, sremove,
      update_of_ne ha]
  · have hce : q'.endseq c = q.endseq c := congrArg Block.stop hc
    have hns : q'.startseq n = s := congrArg Block.start h.new
    simp only [block, ReassemblyQueue.joinRight, deleteseginfo, fremove, sremove,
      update_self, hce, hns]

theorem Rep.fillHole_lists (h : Rep q (l ++ p :: n :: c :: r) ys fs) :
    ∃ fs', Rep (q.fillHole p n c) (l ++ p :: r) ((ys.erase n).erase c) fs' := by
  have h1 : Rep (q.drop n) ((l ++ [p]) ++ c :: r) (ys.erase n) (n :: fs) := by
    have h' : Rep q ((l ++ [p]) ++ n :: c :: r) ys fs := by simpa using h
    exact h'.drop
  have h2 : Rep ((q.drop n).drop c) ((l ++ [p]) ++ r) ((ys.erase n).erase c) (c :: n :: fs) :=
    h1.drop
  have h3 : Rep ((q.drop n).drop c) (l ++ p :: r) ((ys.erase n).erase c) (c :: n :: fs) := by
    simpa using h2
  -- freeing the first node later does not matter for unlinking the second
  have hnd : ((l ++ [p]) ++ n :: c :: r).Nodup := by simpa using h.nodupFifo
  have hcn : c ≠ n := by
    have := (nodup_middle hnd).2.2.2.1
    exact fun he => this (by simp [he])
  have hfifo : (q.fifo.remove n).Holds ((l ++ [p]) ++ c :: r) := by
    have h' : q.fifo.Holds ((l ++ [p]) ++ n :: c :: r) := by simpa using h.fifo
    exact h'.remove hnd
  have hprev : (q.fifo.remove n).prev c ≠ some n := by
    rw [hfifo.prev_eq]
    intro he
    exact (nodup_middle hnd).2.2.1 (mem_of_getLast? he)
  have heq : (q.fillHole p n c).fifo = ((q.drop n).drop c).fifo := by
    have := @DLinks.remove_update_next ℕ _ (q.fifo.remove n) c n q.freelist hcn hprev
    simp only [ReassemblyQueue.fillHole, ReassemblyQueue.drop, deleteseginfo, fremove, sremove, this]
  exact ⟨_, h3.congr heq rfl rfl rfl⟩

theorem Rep.fillHole (h : Rep q (l ++ p :: n :: c :: r) ys fs) :
    ∃ ys' fs', Rep (q.fillHole p n c) (l ++ p :: r) ys' fs' :=
  ⟨_, h.fillHole_lists⟩

theorem Linked.fillHole (h : Linked q q' (l ++ [p]) n (c :: r) s e) :
    Merged q ((q'.fillHole p n c).reached p) (l ++ p :: r) (q.blocks l)
      ⟨q.startseq p, q.endseq c⟩ (q.blocks r) (e - s) := by
  obtain ⟨ys, fs, hrep⟩ := h.rep
  obtain ⟨hl, hp⟩ : q'.blocks l = q.blocks l ∧ q'.block p = q.block p := by
    simpa using h.left
  obtain ⟨hc, hr⟩ := List.cons.inj h.right
  have hrep' : Rep q' (l ++ p :: n :: c :: r) ys fs := by simpa using hrep
  refine h.coalesced hrep'.fillHole ?_ ?_ hl hr rfl rfl
  · intro a ha
    simp only [block, ReassemblyQueue.fillHole, deleteseginfo, fremove, sremove,
      update_of_ne ha]
  · have hps : q'.startseq p = q.startseq p := congrArg Block.start hp
    have hce : q'.endseq c = q.endseq c := congrArg Block.stop hc
    simp only [block, ReassemblyQueue.fillHole, deleteseginfo, fremove, sremove,
      update_self, hps, hce]

/-! ## Coalescing -/

theorem Linked.startseq_new (h : Linked q q' l n r s e) : q'.startseq n = s :=
  congrArg Block.start h.new

theorem Linked.endseq_new (h : Linked q q' l n r s e) : q'.endseq n = e :=
  congrArg Block.stop h.new

theorem Linked.block_left (h : Linked q q' (l ++ [p]) n r s e) : q'.block p = q.block p := by
  have : q'.blocks l = q.blocks l ∧ q'.block p = q.block p := by simpa using h.left
  exact this.2

theorem Linked.block_right (h : Linked q q' l n (c :: r) s e) : q'.block c = q.block c :=
  (List.cons.inj h.right).1

theorem Linked.coalesce_left (h : Linked q q' (l ++ [p]) n r s e) (hp : q.endseq p = s)
    (hr : ∀ c, r.head? = some c → e ≠ q.startseq c) :
    MergesTo q (q'.coalesce (some p) n r.head?) (q.blocks l) ⟨q.startseq p, e⟩ (q.blocks r)
      (e - s) := by
  have hpe : q'.endseq p = q'.startseq n := by
    rw [h.startseq_new, ← hp]
    exact congrArg Block.stop h.block_left
  cases r with
  | nil =>
    simp only [head?_nil, coalesce, if_pos hpe]
    exact ⟨_, _, _, rfl, h.joinLeft⟩
  | cons c r =>
    have hne : q'.endseq n ≠ q'.startseq c := by
      rw [h.endseq_new, show q'.startseq c = q.startseq c from congrArg Block.start h.block_right]
      exact hr c rfl
    simp only [head?_cons, coalesce, hpe, hne, and_false, if_false, if_true]
    exact ⟨_, _, _, rfl, h.joinLeft⟩

theorem Linked.coalesce_right (h : Linked q q' l n (c :: r) s e) (hc : e = q.startseq c)
    (hl : ∀ p, l.getLast? = some p → q.endseq p ≠ s) :
    MergesTo q (q'.coalesce l.getLast? n (some c)) (q.blocks l) ⟨s, q.endseq c⟩ (q.blocks r)
      (e - s) := by
  have hce : q'.endseq n = q'.startseq c := by
    rw [h.endseq_new, hc]
    exact (congrArg Block.start h.block_right).symm
  rcases eq_nil_or_concat l with rfl | ⟨l, p, hlp⟩
  · simp only [getLast?_nil, coalesce, if_pos hce]
    exact ⟨_, _, _, rfl, h.joinRight⟩
  · rw [concat_eq_append] at hlp
    subst hlp
    have hlast : (l ++ [p]).getLast? = some p := by simp
    have hne : q'.endseq p ≠ q'.startseq n := by
      rw [h.startseq_new, show q'.endseq p = q.endseq p from congrArg Block.stop h.block_left]
      exact hl p hlast
    rw [hlast]
    simp only [coalesce, hne, hce, false_and, if_false, if_true]
    exact ⟨_, _, _, rfl, h.joinRight⟩

theorem Linked.coalesce_both (h : Linked q q' (l ++ [p]) n (c :: r) s e) (hp : q.endseq p = s)
    (hc : e = q.startseq c) :
    MergesTo q (q'.coalesce (some p) n (some c)) (q.blocks l) ⟨q.startseq p, q.endseq c⟩
      (q.blocks r) (e - s) := by
  have hpe : q'.endseq p = q'.startseq n := by
    rw [h.startseq_new, ← hp]
    exact congrArg Block.stop h.block_left
  have hce : q'.endseq n = q'.startseq c := by
    rw [h.endseq_new, hc]
    exact (congrArg Block.start h.block_right).symm
  simp only [coalesce, hpe, hce, and_self, if_true]
  exact ⟨_, _, _, rfl, h.fillHole⟩

/-! ## The end of `add` -/

section Endfast

variable {tiflags rqflags : ℕ} {initcnt : ℤ}

theorem Rep.endfast_plain (h : Rep q (l ++ r) ys fs) :
    MergesTo q (q.endfast l.getLast? r.head? s e tiflags rqflags initcnt false)
      (q.blocks l) ⟨s, e⟩ (q.blocks r) (e - s) :=
  ⟨_, _, _, rfl, (h.linked s e tiflags rqflags initcnt).plain⟩

theorem Rep.endfast_left (h : Rep q (l ++ p :: r) ys fs) (hp : q.endseq p = s)
    (hr : ∀ c, r.head? = some c → e ≠ q.startseq c) :
    MergesTo q (q.endfast (some p) r.head? s e tiflags rqflags initcnt true)
      (q.blocks l) ⟨q.startseq p, e⟩ (q.blocks r) (e - s) := by
  have h' : Rep q ((l ++ [p]) ++ r) ys fs := by simpa using h
  have hlast : (l ++ [p]).getLast? = some p := by simp
  have hlink := h'.linked s e tiflags rqflags initcnt
  rw [hlast] at hlink
  exact hlink.coalesce_left hp hr

theorem Rep.endfast_right (h : Rep q (l ++ c :: r) ys fs) (hc : e = q.startseq c)
    (hl : ∀ p, l.getLast? = some p → q.endseq p ≠ s) :
    MergesTo q (q.endfast l.getLast? (some c) s e tiflags rqflags initcnt true)
      (q.blocks l) ⟨s, q.endseq c⟩ (q.blocks r) (e - s) :=
  (h.linked s e tiflags rqflags initcnt).coalesce_right hc hl

theorem Rep.endfast_both (h : Rep q (l ++ p :: c :: r) ys fs) (hp : q.endseq p = s)
    (hc : e = q.startseq c) :
    MergesTo q (q.endfast (some p) (some c) s e tiflags rqflags initcnt true)
      (q.blocks l) ⟨q.startseq p, q.endseq c⟩ (q.blocks r) (e - s) := by
  have h' : Rep q ((l ++ [p]) ++ c :: r) ys fs := by simpa using h
  have hlast : (l ++ [p]).getLast? = some p := by simp
  have hlink := h'.linked s e tiflags rqflags initcnt
  rw [hlast] at hlink
  exact hlink.coalesce_both hp hc

/-- What the blocks left and right of a gap allow: `[s', e')` lies in the gap, and the rest of the
segment `[s, e)` is covered by the two blocks next to it. -/
structure Gap (q : ReassemblyQueue) (l r : List ℕ) (s e s' e' : ℤ) : Prop where
  le : s' ≤ e'
  left : ∀ p, l.getLast? = some p → q.endseq p ≤ s'
  right : ∀ c, r.head? = some c → e' ≤ q.startseq c
  start : s' = s ∨ ∃ p, l.getLast? = some p ∧ q.endseq p = s' ∧ q.startseq p ≤ s ∧ s ≤ s'
  stop : e' = e ∨ ∃ c, r.head? = some c ∧ q.startseq c = e' ∧ e ≤ q.endseq c ∧ e' ≤ e

theorem Gap.stop_lt {s' e' : ℤ} (hg : Gap q l r s e s' e') (hsep : Separated (q.blocks l))
    (hl : ∀ p, l.getLast? = some p → q.endseq p ≠ s') : ∀ a ∈ q.blocks l, a.stop < s' := by
  rcases eq_nil_or_concat l with rfl | ⟨l, p, hlp⟩
  · simp
  · rw [concat_eq_append] at hlp
    subst hlp
    have hlast : (l ++ [p]).getLast? = some p := by simp
    have h1 := hg.left p hlast
    have h2 := hl p hlast
    rw [blocks_append] at hsep ⊢
    obtain ⟨-, hp, hlp⟩ := separated_append.mp hsep
    intro a ha
    rcases mem_append.mp ha with ha | ha
    · have h3 : a.stop < q.startseq p := hlp a ha (q.block p) (by simp)
      have h4 : q.startseq p ≤ q.endseq p := hp.le (q.block p) (by simp)
      omega
    · rw [mem_singleton.mp ha]
      show q.endseq p < s'
      omega

theorem Gap.lt_start {s' e' : ℤ} (hg : Gap q l r s e s' e') (hsep : Separated (q.blocks r))
    (hr : ∀ c, r.head? = some c → e' ≠ q.startseq c) : ∀ a ∈ q.blocks r, e' < a.start := by
  cases r with
  | nil => simp
  | cons c r =>
    have h1 := hg.right c rfl
    have h2 := hr c rfl
    obtain ⟨hc, -, hcr⟩ := separated_cons.mp hsep
    intro a ha
    rcases mem_cons.mp ha with rfl | ha
    · show e' < q.startseq c
      omega
    · have h3 : q.endseq c < a.start := hcr a ha
      have h4 : q.startseq c ≤ q.endseq c := hc
      omega

theorem Gap.start_of_last {s' e' : ℤ} (hg : Gap q (l ++ [p]) r s e s' e') (hp : q.endseq p = s')
    (hpp : q.startseq p ≤ q.endseq p) : q.startseq p ≤ s ∧ s ≤ s' := by
  rcases hg.start with h | ⟨p', hp', -, h⟩
  · omega
  · obtain rfl : p = p' := by simpa using hp'
    exact h

theorem Gap.stop_of_head {s' e' : ℤ} (hg : Gap q l (c :: r) s e s' e') (hc : e' = q.startseq c)
    (hcc : q.startseq c ≤ q.endseq c) : e ≤ q.endseq c ∧ e' ≤ e := by
  rcases hg.stop with h | ⟨c', hc', -, h⟩
  · omega
  · obtain rfl := Option.some.inj hc'
    exact h

theorem Gap.start_eq {s' e' : ℤ} (hg : Gap q l r s e s' e')
    (hl : ∀ p, l.getLast? = some p → q.endseq p ≠ s') : s' = s :=
  hg.start.resolve_right (fun ⟨p, hlast, hp, _⟩ => hl p hlast hp)

theorem Gap.stop_eq {s' e' : ℤ} (hg : Gap q l r s e s' e')
    (hr : ∀ c, r.head? = some c → e' ≠ q.startseq c) : e' = e :=
  hg.stop.resolve_right (fun ⟨c, hhead, hc, _⟩ => hr c hhead hc.symm)

theorem Valid.endfast_both {s' e' : ℤ} (hv : Valid q ((l ++ [p]) ++ c :: r))
    (hg : Gap q (l ++ [p]) (c :: r) s e s' e') (hp : q.endseq p = s') (hc : e' = q.startseq c) :
    Adds q ((l ++ [p]) ++ c :: r) s e
      (q.endfast (some p) (some c) s' e' tiflags rqflags initcnt true) := by
  obtain ⟨ys, fs, hrep⟩ := hv.rep
  have hsep : Separated (q.blocks l ++ [q.block p, q.block c] ++ q.blocks r) := by
    simpa using hv.separated
  obtain ⟨hlm, hsr, hmr⟩ := separated_append.mp hsep
  obtain ⟨hsl, hsm, hlm'⟩ := separated_append.mp hlm
  have hpp : q.startseq p ≤ q.endseq p := hsm.le (q.block p) (by simp)
  have hcc : q.startseq c ≤ q.endseq c := hsm.le (q.block c) (by simp)
  have hs := hg.start_of_last hp hpp
  have he := hg.stop_of_head hc hcc
  have hle := hg.le
  have hrep' : Rep q (l ++ p :: c :: r) ys fs := by simpa using hrep
  refine MergesTo.adds (hrep'.endfast_both hp hc) hv (show _ = _ ++ [q.block p, q.block c] ++ _ by simp) ?_ ?_ ?_ ?_
    (Or.inr ⟨q.block p, by simp, rfl⟩) hs.1 ?_
  · show q.startseq p ≤ q.endseq c
    omega
  · exact fun a ha => hlm' a ha (q.block p) (by simp)
  · exact fun a ha => hmr (q.block c) (by simp) a ha
  · intro x
    simp only [covers_cons, covers_nil, or_false, block]
    omega
  · simp only [size_cons, size_nil, block]
    omega

theorem Valid.endfast_left {s' e' : ℤ} (hv : Valid q ((l ++ [p]) ++ r))
    (hg : Gap q (l ++ [p]) r s e s' e') (hp : q.endseq p = s')
    (hr : ∀ c, r.head? = some c → e' ≠ q.startseq c) :
    Adds q ((l ++ [p]) ++ r) s e
      (q.endfast (some p) r.head? s' e' tiflags rqflags initcnt true) := by
  obtain ⟨ys, fs, hrep⟩ := hv.rep
  have hsep : Separated (q.blocks l ++ [q.block p] ++ q.blocks r) := by
    simpa using hv.separated
  obtain ⟨hlm, hsr, hmr⟩ := separated_append.mp hsep
  obtain ⟨hsl, hsm, hlm'⟩ := separated_append.mp hlm
  have hpp : q.startseq p ≤ q.endseq p := hsm.le (q.block p) (by simp)
  have hs := hg.start_of_last hp hpp
  have he := hg.stop_eq hr
  have hle := hg.le
  have hrep' : Rep q (l ++ p :: r) ys fs := by simpa using hrep
  refine MergesTo.adds (hrep'.endfast_left hp hr) hv (show _ = _ ++ [q.block p] ++ _ by simp) ?_ ?_ ?_ ?_
    (Or.inr ⟨q.block p, by simp, rfl⟩) hs.1 ?_
  · show q.startseq p ≤ e'
    omega
  · exact fun a ha => hlm' a ha (q.block p) (by simp)
  · exact hg.lt_start hsr hr
  · intro x
    simp only [covers_cons, covers_nil, or_false, block]
    omega
  · simp only [size_cons, size_nil, block]
    omega

theorem Valid.endfast_right {s' e' : ℤ} (hv : Valid q (l ++ c :: r))
    (hg : Gap q l (c :: r) s e s' e') (hc : e' = q.startseq c)
    (hl : ∀ p, l.getLast? = some p → q.endseq p ≠ s') :
    Adds q (l ++ c :: r) s e
      (q.endfast l.getLast? (some c) s' e' tiflags rqflags initcnt true) := by
  obtain ⟨ys, fs, hrep⟩ := hv.rep
  have hsep : Separated (q.blocks l ++ [q.block c] ++ q.blocks r) := by
    simpa using hv.separated
  obtain ⟨hlm, hsr, hmr⟩ := separated_append.mp hsep
  obtain ⟨hsl, hsm, hlm'⟩ := separated_append.mp hlm
  have hcc : q.startseq c ≤ q.endseq c := hsm.le (q.block c) (by simp)
  have hs := hg.start_eq hl
  have he := hg.stop_of_head hc hcc
  have hle := hg.le
  refine MergesTo.adds (hrep.endfast_right hc hl) hv (show _ = _ ++ [q.block c] ++ _ by simp)
    ?_ ?_ ?_ ?_ (Or.inl hs) hs.le ?_
  · show s' ≤ q.endseq c
    omega
  · exact hg.stop_lt hsl hl
  · exact fun a ha => hmr (q.block c) (by simp) a ha
  · intro x
    simp only [covers_cons, covers_nil, or_false, block]
    omega
  · simp only [size_cons, size_nil, block]
    omega

theorem Valid.endfast_plain {s' e' : ℤ} (hv : Valid q (l ++ r)) (hg : Gap q l r s e s' e')
    (hl : ∀ p, l.getLast? = some p → q.endseq p ≠ s')
    (hr : ∀ c, r.head? = some c → e' ≠ q.startseq c) :
    Adds q (l ++ r) s e
      (q.endfast l.getLast? r.head? s' e' tiflags rqflags initcnt false) := by
  obtain ⟨ys, fs, hrep⟩ := hv.rep
  have hsep := hv.separated
  rw [blocks_append] at hsep
  obtain ⟨hsl, hsr, -⟩ := separated_append.mp hsep
  have hs := hg.start_eq hl
  have he := hg.stop_eq hr
  refine MergesTo.adds hrep.endfast_plain hv (show _ = _ ++ [] ++ _ by simp) hg.le
    (hg.stop_lt hsl hl) (hg.lt_start hsr hr) ?_ (Or.inl hs) hs.le ?_
  · intro x
    simp only [covers_nil, false_or]
    omega
  · simp

/-- **Linking a block into a gap adds the segment**, when `needmerge` is set as it should be. -/
theorem Valid.endfast {s' e' : ℤ} (hv : Valid q (l ++ r)) (hg : Gap q l r s e s' e') {nm : Bool}
    (hnm : nm = true ↔ (∃ p, l.getLast? = some p ∧ q.endseq p = s') ∨
      ∃ c, r.head? = some c ∧ e' = q.startseq c) :
    Adds q (l ++ r) s e
      (q.endfast l.getLast? r.head? s' e' tiflags rqflags initcnt nm) := by
  by_cases htl : ∃ p, l.getLast? = some p ∧ q.endseq p = s'
  · rw [hnm.mpr (Or.inl htl)]
    obtain ⟨p, hlast, hp⟩ := htl
    obtain ⟨l, rfl⟩ := getLast?_eq_some_iff.mp hlast
    rw [hlast]
    by_cases htr : ∃ c, r.head? = some c ∧ e' = q.startseq c
    · obtain ⟨c, hhead, hc⟩ := htr
      obtain ⟨r, rfl⟩ := head?_eq_some_iff.mp hhead
      exact hv.endfast_both hg hp hc
    · exact hv.endfast_left hg hp (fun c hhead hc => htr ⟨c, hhead, hc⟩)
  · have hl : ∀ p, l.getLast? = some p → q.endseq p ≠ s' :=
      fun p hlast hp => htl ⟨p, hlast, hp⟩
    by_cases htr : ∃ c, r.head? = some c ∧ e' = q.startseq c
    · rw [hnm.mpr (Or.inr htr)]
      obtain ⟨c, hhead, hc⟩ := htr
      obtain ⟨r, rfl⟩ := head?_eq_some_iff.mp hhead
      exact hv.endfast_right hg hc hl
    · have hfalse : nm = false := by
        rw [← Bool.not_eq_true, hnm]
        exact fun h => h.elim htl htr
      rw [hfalse]
      exact hv.endfast_plain hg hl (fun c hhead hc => htr ⟨c, hhead, hc⟩)

end Endfast

end ReassemblyQueue

end NetSim
