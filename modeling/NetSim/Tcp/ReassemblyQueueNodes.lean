import NetSim.Tcp.ReassemblyQueueSpec

/-! # The reassembly queue: the node of a segment

`Adds` says which sequence numbers the blocks cover after `add`. Here it is told which node has the
segment then, which nodes are freed, and what becomes of the flags and of the LIFO (`Placed`). When blocks
that touch the segment are left of the loop `kill`, the first of them takes the segment over; a new node goes
on top of the LIFO only when none is.
-/

namespace NetSim

open Function List LinkedList IntervalList

namespace ReassemblyQueue

variable {q q' : ReassemblyQueue} {xs ys fs l m r u gone : List ℕ} {p n b c x : ℕ} {s e s' e' : ℤ}
  {tiflags rqflags : ℕ} {initcnt : ℤ}

/-! ## Placing a segment -/

/-- **The segment `[s, e)` with the flags `tiflags` is in the block of `x`.** The blocks of `u` touched it: the
first of them has become the block of `x`. The nodes `gone` are freed. -/
structure Placed (q q' : ReassemblyQueue) (xs ys : List ℕ) (s e : ℤ) (tiflags : ℕ) (u gone : List ℕ)
    (x : ℕ) : Prop where
  fifo : ∃ xs', q'.fifo.Holds xs' ∧ ∀ a, a ∈ xs' ↔ a = x ∨ (a ∈ xs ∧ a ∉ gone)
  lifo : q'.lifo.Holds ((if u = [] then [x] else []) ++ ys.filter (fun a => a ∉ gone))
  node : (u = [] ∧ ∀ a ∈ xs, a ∉ gone → a ≠ x) ∨ (u.head? = some x ∧ x ∈ xs ∧ x ∉ gone)
  pflags : q'.pflags x = if u = [] then tiflags else q.pflags x ||| tiflags
  same : ∀ a ∈ xs, a ∉ gone → a ≠ x → q'.block a = q.block a ∧ q'.pflags a = q.pflags a
  contains : q'.startseq x ≤ s ∧ e ≤ q'.endseq x
  grows : ∀ a ∈ u, q'.startseq x ≤ q.startseq a ∧ q.endseq a ≤ q'.endseq x

theorem Placed.reached (h : Placed q q' xs ys s e tiflags u gone x) (b : ℕ) :
    Placed q (q'.reached b) xs ys s e tiflags u gone x :=
  ⟨h.fifo, h.lifo, h.node, h.pflags, h.same, h.contains, h.grows⟩

/-- A new node, linked in and not yet coalesced. -/
structure NewNode (q q' : ReassemblyQueue) (l r ys : List ℕ) (n : ℕ) (s e : ℤ) (tiflags : ℕ) : Prop where
  rep : ∃ fs, Rep q' (l ++ n :: r) (n :: ys) fs
  block : ∀ a, a ≠ n → q'.block a = q.block a
  new : q'.block n = ⟨s, e⟩
  pflags : q'.pflags = update q.pflags n tiflags

theorem newseginfo_pflags : q.newseginfo.1.pflags = q.pflags := by
  unfold newseginfo
  cases q.freelist <;> rfl

theorem linkNew_pflags (p r : Option ℕ) :
    (q.linkNew p r s e tiflags rqflags initcnt).pflags = update q.pflags q.newseginfo.2 tiflags := by
  simp only [linkNew, push, fill, newseginfo_pflags]

theorem Rep.newNode (h : Rep q (l ++ r) ys fs) (s e : ℤ) (tiflags rqflags : ℕ) (initcnt : ℤ) :
    NewNode q { q.linkNew l.getLast? r.head? s e tiflags rqflags initcnt with
      total := q.total + (e - s) } l r ys q.newseginfo.2 s e tiflags := by
  obtain ⟨-, fs', hrep⟩ := h.linkNew s e tiflags rqflags initcnt
  have hblock : ∀ a, a ≠ q.newseginfo.2 →
      (q.linkNew l.getLast? r.head? s e tiflags rqflags initcnt).block a = q.block a :=
    fun a ha => linkNew_block ha l.getLast? r.head? s e tiflags rqflags initcnt
  have hself : (q.linkNew l.getLast? r.head? s e tiflags rqflags initcnt).block q.newseginfo.2 = ⟨s, e⟩ :=
    linkNew_block_self l.getLast? r.head? s e tiflags rqflags initcnt
  have hflags : (q.linkNew l.getLast? r.head? s e tiflags rqflags initcnt).pflags =
      update q.pflags q.newseginfo.2 tiflags := linkNew_pflags l.getLast? r.head?
  exact ⟨⟨fs', hrep.congr rfl rfl rfl rfl⟩, hblock, hself, hflags⟩

theorem filter_not_mem_nil (ys : List ℕ) : ys.filter (fun a => a ∉ ([] : List ℕ)) = ys :=
  filter_eq_self.mpr (fun _ _ => decide_eq_true not_mem_nil)

theorem filter_not_mem_singleton (h : ys.Nodup) : ys.filter (fun a => a ∉ [c]) = ys.erase c := by
  rw [h.erase_eq_filter]
  refine filter_congr (fun a _ => ?_)
  rw [Bool.eq_iff_iff]
  simp

section Coalesce

variable (h : NewNode q q' l r ys n s' e' tiflags)
include h

theorem NewNode.nodup : (l ++ n :: r).Nodup := by
  obtain ⟨fs, hrep⟩ := h.rep
  exact hrep.nodupFifo

theorem NewNode.other {a : ℕ} (ha : a ≠ n) : q'.startseq a = q.startseq a ∧ q'.endseq a = q.endseq a ∧
    q'.pflags a = q.pflags a := by
  have hblock := h.block a ha
  refine ⟨congrArg Block.start hblock, congrArg Block.stop hblock, ?_⟩
  rw [h.pflags, update_of_ne ha]

theorem NewNode.self : q'.startseq n = s' ∧ q'.endseq n = e' ∧ q'.pflags n = tiflags := by
  refine ⟨congrArg Block.start h.new, congrArg Block.stop h.new, ?_⟩
  rw [h.pflags, update_self]

theorem NewNode.plain (hs : s' ≤ s) (he : e ≤ e') : Placed q q' (l ++ r) ys s e tiflags [] [] n := by
  obtain ⟨fs, hrep⟩ := h.rep
  obtain ⟨hstart, hstop, hflags⟩ := h.self
  obtain ⟨-, -, hnl, hnr, -⟩ := nodup_middle h.nodup
  have hne : ∀ a ∈ l ++ r, a ≠ n := by
    rintro a ha rfl
    exact (mem_append.mp ha).elim hnl hnr
  refine ⟨⟨_, hrep.fifo, fun a => ?_⟩, ?_, .inl ⟨rfl, fun a ha _ => hne a ha⟩, hflags,
    fun a ha _ _ => ?_, ⟨hstart.trans_le hs, he.trans_eq hstop.symm⟩, fun a ha => absurd ha not_mem_nil⟩
  · simp only [mem_append, mem_cons, not_mem_nil, not_false_eq_true, and_true]
    tauto
  · rw [if_pos rfl, filter_not_mem_nil]
    exact hrep.lifo
  · exact ⟨h.block a (hne a ha), (h.other (hne a ha)).2.2⟩

theorem NewNode.joined {q'' : ReassemblyQueue} {xs' : List ℕ} (hu : u.head? = some x) (hx : x ∈ l ++ r)
    (hgone : x ∉ gone) (hrep : ∃ fs, Rep q'' xs' (ys.filter (fun a => a ∉ gone)) fs)
    (hmem : ∀ a, a ∈ xs' ↔ a ∈ l ++ r ∧ a ∉ gone) (hother : ∀ a, a ≠ x → q''.block a = q'.block a)
    (hflags : q''.pflags = update q'.pflags x (q'.pflags x ||| q'.pflags n))
    (hcontains : q''.startseq x ≤ s ∧ e ≤ q''.endseq x)
    (hgrows : ∀ a ∈ u, q''.startseq x ≤ q.startseq a ∧ q.endseq a ≤ q''.endseq x) :
    Placed q q'' (l ++ r) ys s e tiflags u gone x := by
  obtain ⟨fs, hrep⟩ := hrep
  obtain ⟨-, -, hnl, hnr, -⟩ := nodup_middle h.nodup
  have hne : ∀ a ∈ l ++ r, a ≠ n := by
    rintro a ha rfl
    exact (mem_append.mp ha).elim hnl hnr
  have hune : u ≠ [] := by
    rintro rfl
    cases hu
  refine ⟨⟨xs', hrep.fifo, fun a => (hmem a).trans ?_⟩, ?_, .inr ⟨hu, hx, hgone⟩, ?_, fun a ha hag hax => ?_,
    hcontains, hgrows⟩
  · constructor
    · exact fun hboth => .inr hboth
    · rintro (rfl | hboth)
      · exact ⟨hx, hgone⟩
      · exact hboth
  · rw [if_neg hune]
    exact hrep.lifo
  · rw [if_neg hune, hflags, update_self, h.self.2.2, (h.other (hne x hx)).2.2]
  · refine ⟨(hother a hax).trans (h.block a (hne a ha)), ?_⟩
    rw [hflags, update_of_ne hax, (h.other (hne a ha)).2.2]

end Coalesce

theorem NewNode.joinLeft (h : NewNode q q' (l ++ [p]) r ys n s' e' tiflags) (hs : q.startseq p ≤ s)
    (he : e ≤ e') (hp : q.endseq p ≤ e') :
    Placed q (q'.joinLeft p n) ((l ++ [p]) ++ r) ys s e tiflags [p] [] p := by
  obtain ⟨fs, hrep⟩ := h.rep
  obtain ⟨-, -, hnl, -, -⟩ := nodup_middle h.nodup
  have hpn : p ≠ n := by
    rintro rfl
    exact hnl (by simp)
  have hself : (q'.joinLeft p n).block p = ⟨q.startseq p, e'⟩ := by
    simp only [ReassemblyQueue.block, ReassemblyQueue.joinLeft, deleteseginfo, fremove, sremove,
      update_self, (h.other hpn).1, h.self.2.1]
  have hstart : (q'.joinLeft p n).startseq p = q.startseq p := congrArg Block.start hself
  have hstop : (q'.joinLeft p n).endseq p = e' := congrArg Block.stop hself
  have hdrop : Rep (q'.drop n) ((l ++ [p]) ++ r) ys (n :: fs) := by
    have hrep' := hrep.drop
    rwa [erase_cons_head] at hrep'
  have hrep' : Rep (q'.joinLeft p n) ((l ++ [p]) ++ r) (ys.filter (fun a => a ∉ ([] : List ℕ))) (n :: fs) := by
    rw [filter_not_mem_nil]
    exact hdrop.congr rfl rfl rfl rfl
  refine h.joined rfl (by simp) not_mem_nil ⟨_, hrep'⟩ (fun a => by simp) (fun a ha => ?_) rfl ?_ ?_
  · simp only [ReassemblyQueue.block, ReassemblyQueue.joinLeft, deleteseginfo, fremove, sremove, update_of_ne ha]
  · exact ⟨hstart.trans_le hs, he.trans_eq hstop.symm⟩
  · intro a ha
    rw [mem_singleton.mp ha, hstart, hstop]
    exact ⟨le_refl _, hp⟩

theorem NewNode.joinRight (h : NewNode q q' l (c :: r) ys n s' e' tiflags) (hs : s' ≤ s)
    (he : e ≤ q.endseq c) (hc : s' ≤ q.startseq c) :
    Placed q (q'.joinRight n c) (l ++ c :: r) ys s e tiflags [c] [] c := by
  obtain ⟨fs, hrep⟩ := h.rep
  obtain ⟨-, -, -, hnr, -⟩ := nodup_middle h.nodup
  have hcn : c ≠ n := by
    rintro rfl
    exact hnr (by simp)
  have hself : (q'.joinRight n c).block c = ⟨s', q.endseq c⟩ := by
    simp only [ReassemblyQueue.block, ReassemblyQueue.joinRight, deleteseginfo, fremove, sremove,
      update_self, (h.other hcn).2.1, h.self.1]
  have hstart : (q'.joinRight n c).startseq c = s' := congrArg Block.start hself
  have hstop : (q'.joinRight n c).endseq c = q.endseq c := congrArg Block.stop hself
  have hdrop : Rep (q'.drop n) (l ++ c :: r) ys (n :: fs) := by
    have hrep' := hrep.drop
    rwa [erase_cons_head] at hrep'
  have hrep' : Rep (q'.joinRight n c) (l ++ c :: r) (ys.filter (fun a => a ∉ ([] : List ℕ))) (n :: fs) := by
    rw [filter_not_mem_nil]
    exact hdrop.congr rfl rfl rfl rfl
  refine h.joined rfl (by simp) not_mem_nil ⟨_, hrep'⟩ (fun a => by simp) (fun a ha => ?_) rfl ?_ ?_
  · simp only [ReassemblyQueue.block, ReassemblyQueue.joinRight, deleteseginfo, fremove, sremove, update_of_ne ha]
  · exact ⟨hstart.trans_le hs, he.trans_eq hstop.symm⟩
  · intro a ha
    rw [mem_singleton.mp ha, hstart, hstop]
    exact ⟨hc, le_refl _⟩

/-- The new block fills the hole between its neighbours: the left one takes over both, and the right one is
freed. -/
theorem NewNode.fillHole (h : NewNode q q' (l ++ [p]) (c :: r) ys n s' e' tiflags)
    (hs : q.startseq p ≤ s) (he : e ≤ q.endseq c) (hpc : q.startseq p ≤ q.startseq c)
    (hpc' : q.endseq p ≤ q.endseq c) :
    Placed q (q'.fillHole p n c) ((l ++ [p]) ++ c :: r) ys s e tiflags [p, c] [c] p := by
  obtain ⟨fs, hrep⟩ := h.rep
  obtain ⟨-, -, hnl, hnr, -⟩ := nodup_middle h.nodup
  have hpn : p ≠ n := by
    rintro rfl
    exact hnl (by simp)
  have hcn : c ≠ n := by
    rintro rfl
    exact hnr (by simp)
  have hnd : ((l ++ [p]) ++ c :: r).Nodup := by
    refine h.nodup.sublist ?_
    exact (List.Sublist.refl _).append (sublist_cons_self _ _)
  obtain ⟨-, -, hcl, hcr, -⟩ := nodup_middle hnd
  have hpc'' : p ≠ c := by
    rintro rfl
    exact hcl (by simp)
  have hself : (q'.fillHole p n c).block p = ⟨q.startseq p, q.endseq c⟩ := by
    simp only [ReassemblyQueue.block, ReassemblyQueue.fillHole, deleteseginfo, fremove, sremove,
      update_self, (h.other hpn).1, (h.other hcn).2.1]
  have hstart : (q'.fillHole p n c).startseq p = q.startseq p := congrArg Block.start hself
  have hstop : (q'.fillHole p n c).endseq p = q.endseq c := congrArg Block.stop hself
  have hysnd : ys.Nodup := by
    have hnd' := hrep.perm.nodup_iff.mpr hrep.nodupFifo
    exact (nodup_cons.mp hnd').2
  have hlists : Rep q' (l ++ p :: n :: c :: r) (n :: ys) fs := by simpa using hrep
  obtain ⟨fs', hfill⟩ := hlists.fillHole_lists
  rw [erase_cons_head, ← filter_not_mem_singleton hysnd] at hfill
  refine h.joined rfl (by simp) (by simpa using hpc'') ⟨_, hfill⟩ (fun a => ?_) (fun a ha => ?_) rfl ?_ ?_
  · simp only [mem_append, mem_cons, not_mem_nil, or_false]
    constructor
    · rintro (ha | rfl | ha)
      · exact ⟨.inl (.inl ha), fun he => hcl (by simp [← he, ha])⟩
      · exact ⟨.inl (.inr rfl), hpc''⟩
      · exact ⟨.inr (.inr ha), fun he => hcr (he ▸ ha)⟩
    · tauto
  · simp only [ReassemblyQueue.block, ReassemblyQueue.fillHole, deleteseginfo, fremove, sremove, update_of_ne ha]
  · exact ⟨hstart.trans_le hs, he.trans_eq hstop.symm⟩
  · intro a ha
    rw [hstart, hstop]
    rcases mem_cons.mp ha with rfl | ha
    · exact ⟨le_refl _, hpc'⟩
    · rw [mem_singleton.mp ha]
      exact ⟨hpc, le_refl _⟩

/-! ## Linking a block into a gap -/

/-- The blocks next to a gap that `[s', e')` touches. -/
def touched (q : ReassemblyQueue) (l r : List ℕ) (s' e' : ℤ) : List ℕ :=
  l.getLast?.toList.filter (fun p => q.endseq p = s') ++ r.head?.toList.filter (fun c => e' = q.startseq c)

def PlacedBy (q : ReassemblyQueue) (xs ys : List ℕ) (s e : ℤ) (tiflags : ℕ) (u : List ℕ)
    (res : Option (ReassemblyQueue × ℕ)) : Prop :=
  ∃ q' x, res = some (q', q'.pflags x) ∧ Placed q q' xs ys s e tiflags u u.tail x

section Endfast

variable {nm : Bool}

theorem Rep.endfast_placed_both (h : Rep q ((l ++ [p]) ++ c :: r) ys fs) (hle : s' ≤ e')
    (hp : q.endseq p = s') (hc : e' = q.startseq c) (hpp : q.startseq p ≤ q.endseq p)
    (hcc : q.startseq c ≤ q.endseq c) (hs : q.startseq p ≤ s) (he : e ≤ q.endseq c) :
    PlacedBy q ((l ++ [p]) ++ c :: r) ys s e tiflags [p, c]
      (q.endfast (some p) (some c) s' e' tiflags rqflags initcnt true) := by
  have hnew := h.newNode s' e' tiflags rqflags initcnt
  have hlast : (l ++ [p]).getLast? = some p := by simp
  rw [hlast, head?_cons] at hnew
  unfold endfast
  dsimp only
  rw [if_pos rfl]
  generalize hQ : ({ q.linkNew (some p) (some c) s' e' tiflags rqflags initcnt with
    total := q.total + (e' - s') } : ReassemblyQueue) = Q at hnew ⊢
  obtain ⟨-, -, hnl, hnr, -⟩ := nodup_middle hnew.nodup
  have hpn : p ≠ q.newseginfo.2 := fun hp => hnl (by simp [← hp])
  have hcn : c ≠ q.newseginfo.2 := fun hc => hnr (by simp [← hc])
  have htouch : Q.endseq p = Q.startseq q.newseginfo.2 ∧ Q.endseq q.newseginfo.2 = Q.startseq c := by
    rw [(hnew.other hpn).2.1, (hnew.other hcn).1, hnew.self.1, hnew.self.2.1]
    exact ⟨hp, hc⟩
  simp only [coalesce, if_pos htouch]
  exact ⟨_, p, rfl, (hnew.fillHole hs he (by omega) (by omega)).reached p⟩

theorem Rep.endfast_placed_left (h : Rep q ((l ++ [p]) ++ r) ys fs) (hle : s' ≤ e')
    (hp : q.endseq p = s') (hr : ∀ c, r.head? = some c → e' ≠ q.startseq c) (hs : q.startseq p ≤ s)
    (he : e ≤ e') :
    PlacedBy q ((l ++ [p]) ++ r) ys s e tiflags [p]
      (q.endfast (some p) r.head? s' e' tiflags rqflags initcnt true) := by
  have hnew := h.newNode s' e' tiflags rqflags initcnt
  have hlast : (l ++ [p]).getLast? = some p := by simp
  rw [hlast] at hnew
  unfold endfast
  dsimp only
  rw [if_pos rfl]
  generalize hQ : ({ q.linkNew (some p) r.head? s' e' tiflags rqflags initcnt with
    total := q.total + (e' - s') } : ReassemblyQueue) = Q at hnew ⊢
  obtain ⟨-, -, hnl, hnr, -⟩ := nodup_middle hnew.nodup
  have hpn : p ≠ q.newseginfo.2 := fun hp => hnl (by simp [← hp])
  have htouch : Q.endseq p = Q.startseq q.newseginfo.2 := by
    rw [(hnew.other hpn).2.1, hnew.self.1]
    exact hp
  have hplaced : Placed q (Q.joinLeft p q.newseginfo.2) ((l ++ [p]) ++ r) ys s e tiflags [p] [] p :=
    hnew.joinLeft hs he (by omega)
  cases r with
  | nil =>
    simp only [head?_nil, coalesce, if_pos htouch]
    exact ⟨_, p, rfl, hplaced.reached p⟩
  | cons c r =>
    have hcn : c ≠ q.newseginfo.2 := fun hc => hnr (by simp [← hc])
    have hne : ¬ (Q.endseq p = Q.startseq q.newseginfo.2 ∧ Q.endseq q.newseginfo.2 = Q.startseq c) := by
      rw [(hnew.other hcn).1, hnew.self.2.1]
      exact fun hboth => hr c rfl hboth.2
    simp only [head?_cons, coalesce, if_neg hne, if_pos htouch]
    exact ⟨_, p, rfl, hplaced.reached p⟩

theorem Rep.endfast_placed_right (h : Rep q (l ++ c :: r) ys fs) (hle : s' ≤ e')
    (hc : e' = q.startseq c) (hl : ∀ p, l.getLast? = some p → q.endseq p ≠ s') (hs : s' ≤ s)
    (he : e ≤ q.endseq c) :
    PlacedBy q (l ++ c :: r) ys s e tiflags [c]
      (q.endfast l.getLast? (some c) s' e' tiflags rqflags initcnt true) := by
  have hnew := h.newNode s' e' tiflags rqflags initcnt
  rw [head?_cons] at hnew
  unfold endfast
  dsimp only
  rw [if_pos rfl]
  generalize hQ : ({ q.linkNew l.getLast? (some c) s' e' tiflags rqflags initcnt with
    total := q.total + (e' - s') } : ReassemblyQueue) = Q at hnew ⊢
  obtain ⟨-, -, hnl, hnr, -⟩ := nodup_middle hnew.nodup
  have hcn : c ≠ q.newseginfo.2 := fun hc => hnr (by simp [← hc])
  have htouch : Q.endseq q.newseginfo.2 = Q.startseq c := by
    rw [(hnew.other hcn).1, hnew.self.2.1]
    exact hc
  have hplaced : Placed q (Q.joinRight q.newseginfo.2 c) (l ++ c :: r) ys s e tiflags [c] [] c :=
    hnew.joinRight hs he (by omega)
  rcases eq_nil_or_concat l with rfl | ⟨l, p, rfl⟩
  · simp only [getLast?_nil, coalesce, if_pos htouch]
    exact ⟨_, c, rfl, hplaced.reached c⟩
  · rw [concat_eq_append] at hl hnew hnl ⊢
    have hpn : p ≠ q.newseginfo.2 := fun hp => hnl (by simp [← hp])
    have hlast : (l ++ [p]).getLast? = some p := by simp
    have hne : ¬ Q.endseq p = Q.startseq q.newseginfo.2 := by
      rw [(hnew.other hpn).2.1, hnew.self.1]
      exact hl p hlast
    rw [hlast]
    simp only [coalesce, if_neg hne, if_neg (fun h => hne (And.left h)), if_pos htouch]
    rw [concat_eq_append] at hplaced
    exact ⟨_, c, rfl, hplaced.reached c⟩

theorem Rep.endfast_placed_plain (h : Rep q (l ++ r) ys fs) (hs : s' ≤ s) (he : e ≤ e') :
    PlacedBy q (l ++ r) ys s e tiflags []
      (q.endfast l.getLast? r.head? s' e' tiflags rqflags initcnt false) := by
  have hnew := h.newNode s' e' tiflags rqflags initcnt
  have hplaced := (hnew.plain hs he).reached q.newseginfo.2
  refine ⟨_, q.newseginfo.2, ?_, hplaced⟩
  unfold endfast
  dsimp only
  rw [if_neg Bool.false_ne_true, hplaced.pflags, if_pos rfl]

/-- **Linking a block into a gap**: the first block that touches it takes it over. -/
theorem Valid.endfast_placed (hv : Valid q (l ++ r)) (h : Rep q (l ++ r) ys fs)
    (hg : Gap q l r s e s' e')
    (hnm : nm = true ↔ (∃ p, l.getLast? = some p ∧ q.endseq p = s') ∨
      ∃ c, r.head? = some c ∧ e' = q.startseq c) :
    PlacedBy q (l ++ r) ys s e tiflags (q.touched l r s' e')
      (q.endfast l.getLast? r.head? s' e' tiflags rqflags initcnt nm) := by
  have hle := hg.le
  have hblock : ∀ a ∈ l ++ r, q.startseq a ≤ q.endseq a :=
    fun a ha => hv.separated.le (q.block a) (mem_map.mpr ⟨a, ha, rfl⟩)
  by_cases htl : ∃ p, l.getLast? = some p ∧ q.endseq p = s'
  · rw [hnm.mpr (.inl htl)]
    obtain ⟨p, hlast, hp⟩ := htl
    obtain ⟨l, rfl⟩ := getLast?_eq_some_iff.mp hlast
    have hs := hg.start_of_last hp (hblock p (by simp))
    by_cases htr : ∃ c, r.head? = some c ∧ e' = q.startseq c
    · obtain ⟨c, hhead, hc⟩ := htr
      obtain ⟨r, rfl⟩ := head?_eq_some_iff.mp hhead
      have he := hg.stop_of_head hc (hblock c (by simp))
      have hu : q.touched (l ++ [p]) (c :: r) s' e' = [p, c] := by
        simp [touched, hp, hc]
      rw [hu, hlast, hhead]
      exact h.endfast_placed_both hle hp hc (hblock p (by simp)) (hblock c (by simp)) hs.1 he.1
    · have hr : ∀ c, r.head? = some c → e' ≠ q.startseq c := fun c hhead hc => htr ⟨c, hhead, hc⟩
      have hu : q.touched (l ++ [p]) r s' e' = [p] := by
        have hnone : r.head?.toList.filter (fun c => e' = q.startseq c) = [] := by
          rw [filter_eq_nil_iff]
          intro c hc
          simpa using hr c (by simpa using hc)
        unfold touched
        rw [hnone, hlast]
        simp [hp]
      rw [hu, hlast]
      exact h.endfast_placed_left hle hp hr hs.1 (hg.stop_eq hr).ge
  · have hl : ∀ p, l.getLast? = some p → q.endseq p ≠ s' := fun p hlast hp => htl ⟨p, hlast, hp⟩
    have hnone : l.getLast?.toList.filter (fun p => q.endseq p = s') = [] := by
      rw [filter_eq_nil_iff]
      intro p hp
      simpa using hl p (by simpa using hp)
    by_cases htr : ∃ c, r.head? = some c ∧ e' = q.startseq c
    · rw [hnm.mpr (.inr htr)]
      obtain ⟨c, hhead, hc⟩ := htr
      obtain ⟨r, rfl⟩ := head?_eq_some_iff.mp hhead
      have he := hg.stop_of_head hc (hblock c (by simp))
      have hu : q.touched l (c :: r) s' e' = [c] := by
        unfold touched
        rw [hnone, hhead]
        simp [hc]
      rw [hu, hhead]
      exact h.endfast_placed_right hle hc hl (hg.start_eq hl).le he.1
    · have hr : ∀ c, r.head? = some c → e' ≠ q.startseq c := fun c hhead hc => htr ⟨c, hhead, hc⟩
      have hnone' : r.head?.toList.filter (fun c => e' = q.startseq c) = [] := by
        rw [filter_eq_nil_iff]
        intro c hc
        simpa using hr c (by simpa using hc)
      have hfalse : nm = false := by
        rw [← Bool.not_eq_true, hnm]
        exact fun hor => hor.elim htl htr
      unfold touched
      rw [hfalse, hnone, hnone', append_nil]
      exact h.endfast_placed_plain (hg.start_eq hl).le (hg.stop_eq hr).ge

end Endfast

/-! ## The segment and the blocks that are left of the loop -/

/-- The blocks that overlap the segment or are adjacent to it. -/
def touching (q : ReassemblyQueue) (xs : List ℕ) (s e : ℤ) : List ℕ :=
  xs.filter (fun a => q.startseq a ≤ e ∧ s ≤ q.endseq a)

/-- `add` returns early: the block of `x` is the only one that the segment overlaps, and takes over the sides
on which the segment reaches over it. -/
def Inner (q : ReassemblyQueue) (xs : List ℕ) (s e : ℤ) (x : ℕ) : Prop :=
  (q.startseq x < e ∧ s < q.endseq x) ∧ q.block x ≠ ⟨s, e⟩ ∧ (xs.head? = some x ∨ q.startseq x ≤ s) ∧
    (xs.getLast? = some x ∨ e ≤ q.endseq x)

instance (q : ReassemblyQueue) (xs : List ℕ) (s e : ℤ) (x : ℕ) : Decidable (q.Inner xs s e x) :=
  inferInstanceAs (Decidable ((_ ∧ _) ∧ _ ∧ (_ ∨ _) ∧ (_ ∨ _)))

def Lost (q : ReassemblyQueue) (xs : List ℕ) (s e : ℤ) : Prop :=
  s = e ∧ (∃ a ∈ xs, q.startseq a < s) ∧ (∃ a ∈ xs, s < q.endseq a) ∧
    ∀ a ∈ xs, ¬ (q.startseq a < s ∧ s < q.endseq a)

instance (q : ReassemblyQueue) (xs : List ℕ) (s e : ℤ) : Decidable (q.Lost xs s e) :=
  inferInstanceAs (Decidable (_ ∧ (∃ a ∈ xs, _) ∧ (∃ a ∈ xs, _) ∧ ∀ a ∈ xs, _))

/-- **How a call ends**, when the loop has nothing to kill. -/
inductive Ends (q : ReassemblyQueue) (xs ys : List ℕ) (s e : ℤ) (tiflags : ℕ) :
    Option (ReassemblyQueue × ℕ) → Prop where
  | lost {h : ℕ} : q.Lost xs s e → Ends q xs ys s e tiflags (some (q.reached h, tiflags))
  | inner {q' : ReassemblyQueue} {b : ℕ} : b ∈ xs → q.Inner xs s e b → q.touching xs s e = [b] →
      Placed q q' xs ys s e tiflags [b] [] b → Ends q xs ys s e tiflags (some (q', tiflags))
  | placed {q' : ReassemblyQueue} {x : ℕ} : ¬ q.Lost xs s e → (∀ b ∈ xs, ¬ q.Inner xs s e b) →
      Placed q q' xs ys s e tiflags (q.touching xs s e) (q.touching xs s e).tail x →
      Ends q xs ys s e tiflags (some (q', q'.pflags x))

theorem PlacedBy.ends {res : Option (ReassemblyQueue × ℕ)} (h : PlacedBy q xs ys s e tiflags u res)
    (hu : q.touching xs s e = u) (hlost : ¬ q.Lost xs s e) (hinner : ∀ b ∈ xs, ¬ q.Inner xs s e b) :
    Ends q xs ys s e tiflags res := by
  obtain ⟨q', x, rfl, hplaced⟩ := h
  refine .placed hlost hinner ?_
  rw [hu]
  exact hplaced

theorem touching_append : q.touching (l ++ r) s e = q.touching l s e ++ q.touching r s e :=
  filter_append ..

theorem Valid.stop_lt_start (hv : Valid q (l ++ r)) {a b : ℕ} (ha : a ∈ l) (hb : b ∈ r) :
    q.startseq a ≤ q.endseq a ∧ q.endseq a < q.startseq b ∧ q.startseq b ≤ q.endseq b :=
  ⟨hv.start_le_stop (mem_append_left r ha), hv.gap ha hb, hv.start_le_stop (mem_append_right l hb)⟩

theorem Valid.touching_left (hv : Valid q (l ++ r)) (hse : s ≤ e) (hl : ∀ a ∈ l, q.endseq a ≤ s) :
    q.touching l s e = l.getLast?.toList.filter (fun p => q.endseq p = s) := by
  rcases eq_nil_or_concat l with rfl | ⟨l, p, rfl⟩
  · rfl
  · rw [concat_eq_append] at hv hl ⊢
    have hp := hl p (by simp)
    have hv' : Valid q (l ++ p :: r) := by simpa using hv
    have hpp := hv'.start_le_stop (show p ∈ l ++ p :: r by simp)
    have hnone : q.touching l s e = [] := by
      refine filter_eq_nil_iff.mpr (fun a ha => ?_)
      have hgap := hv'.stop_lt_start ha (show p ∈ p :: r by simp)
      simp only [decide_eq_true_eq]
      omega
    have hlast : (l ++ [p]).getLast? = some p := by simp
    rw [touching_append, hnone, hlast, nil_append]
    refine filter_congr (fun a ha => decide_eq_decide.mpr ?_)
    rw [mem_singleton.mp ha]
    omega

theorem Valid.touching_right (hv : Valid q (l ++ r)) (hse : s ≤ e) (hr : ∀ a ∈ r, e ≤ q.startseq a) :
    q.touching r s e = r.head?.toList.filter (fun c => e = q.startseq c) := by
  cases r with
  | nil => rfl
  | cons c r =>
    have hc := hr c (by simp)
    have hv' : Valid q ((l ++ [c]) ++ r) := by simpa using hv
    have hcc := hv.start_le_stop (show c ∈ l ++ c :: r by simp)
    have hnone : q.touching r s e = [] := by
      refine filter_eq_nil_iff.mpr (fun a ha => ?_)
      have hgap := hv'.stop_lt_start (show c ∈ l ++ [c] by simp) ha
      simp only [decide_eq_true_eq]
      omega
    have hcons : q.touching (c :: r) s e = q.touching [c] s e ++ q.touching r s e :=
      filter_append [c] r
    rw [hcons, hnone, append_nil]
    refine filter_congr (fun a ha => decide_eq_decide.mpr ?_)
    rw [mem_singleton.mp ha]
    omega

theorem Valid.touching_gap (hv : Valid q (l ++ r)) (hse : s ≤ e) (hl : ∀ a ∈ l, q.endseq a ≤ s)
    (hr : ∀ a ∈ r, e ≤ q.startseq a) : q.touching (l ++ r) s e = q.touched l r s e := by
  rw [touching_append, hv.touching_left hse hl, hv.touching_right hse hr]
  rfl

end ReassemblyQueue

end NetSim
