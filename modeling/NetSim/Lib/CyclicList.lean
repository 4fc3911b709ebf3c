import Mathlib

/-! # Circular doubly linked lists

`Holds next prev l` says that the cells of `l`, which are all different, are linked in a circle in this
order. A cell can be inserted before the head (`Holds.insert`), the head can leave (`Holds.remove`),
and the circle can be read from any cell on (`Holds.rotate`, `Holds.turn`); so a cell can be inserted
anywhere (`Holds.insertBehind`, `Holds.insertBefore`), and any cell can leave (`Holds.removeCell`).
-/

namespace CyclicList

open Function List

variable {α : Type}

/-- `b` follows `a` in both directions. -/
def Linked (next prev : α → α) (a b : α) : Prop := next a = b ∧ prev b = a

/-- The cells of the list, linked in a circle. -/
def Holds (next prev : α → α) : List α → Prop
  | [] => True
  | c :: t => (c :: t).Nodup ∧ (c :: t ++ [c]).IsChain (Linked next prev)

variable {next prev next' prev' : α → α} {c d q : α} {t l : List α}

theorem Holds.nodup (h : Holds next prev l) : l.Nodup := by
  cases l with
  | nil => exact nodup_nil
  | cons c t => exact h.1

theorem Holds.single (h : Holds next prev [c]) : next c = c ∧ prev c = c := by
  have hlink : Linked next prev c c := rel_of_isChain_cons_cons h.2
  exact hlink

theorem Holds.next_head (h : Holds next prev (c :: d :: t)) : next c = d ∧ prev d = c := by
  have hlink : Linked next prev c d := rel_of_isChain_cons_cons h.2
  exact hlink

theorem Holds.next_ne (h : Holds next prev (c :: d :: t)) : next c ≠ c := by
  rw [h.next_head.1]
  rintro rfl
  exact (nodup_cons.mp h.1).1 mem_cons_self

theorem Holds.rotate (h : Holds next prev (c :: t)) : Holds next prev (t ++ [c]) := by
  cases t with
  | nil => exact h
  | cons d t =>
    refine ⟨?_, ?_⟩
    · exact (perm_append_comm : (d :: t ++ [c]).Perm ([c] ++ d :: t)).nodup_iff.mpr h.1
    · have hchain : (c :: d :: (t ++ [c])).IsChain (Linked next prev) := h.2
      have hlink := rel_of_isChain_cons_cons hchain
      have htail : (d :: (t ++ [c])).IsChain (Linked next prev) := hchain.tail
      show ((d :: (t ++ [c])) ++ [d]).IsChain (Linked next prev)
      rw [isChain_append]
      refine ⟨htail, isChain_singleton d, ?_⟩
      intro x hx y hy
      have hxc : x = c := by simpa [getLast?_cons] using hx.symm
      have hyd : y = d := by simpa using hy.symm
      rw [hxc, hyd]
      exact hlink

theorem Holds.turn {r : List α} (h : Holds next prev (l ++ r)) : Holds next prev (r ++ l) := by
  induction l generalizing r with
  | nil => rwa [append_nil]
  | cons c l ih =>
    have hnext : Holds next prev (l ++ (r ++ [c])) := by
      rw [← append_assoc]
      exact h.rotate
    have := ih hnext
    rwa [append_assoc] at this

theorem Holds.next_eq {r : List α} (h : Holds next prev (l ++ c :: d :: r)) :
    next c = d ∧ prev d = c := by
  have := h.turn
  rw [cons_append, cons_append] at this
  exact this.next_head

theorem Holds.next_last (h : Holds next prev (c :: t)) :
    next ((c :: t).getLast (cons_ne_nil c t)) = c := by
  have hchain := h.2
  rw [← dropLast_append_getLast (cons_ne_nil c t), append_assoc] at hchain
  exact (rel_of_isChain_cons_cons (isChain_append.mp hchain).2.1).1

theorem Holds.turnTo {r : List α} (h : Holds next prev (l ++ c :: r)) :
    Holds next prev (c :: (r ++ l)) := h.turn

theorem isChain_congr (h : l.IsChain (Linked next prev))
    (hnext : ∀ a ∈ l.dropLast, next' a = next a) (hprev : ∀ b ∈ l.tail, prev' b = prev b) :
    l.IsChain (Linked next' prev') := by
  induction l with
  | nil => exact isChain_nil
  | cons a l ih =>
    cases l with
    | nil => exact isChain_singleton a
    | cons b l =>
      obtain ⟨hlink, htail⟩ := isChain_cons_cons.mp h
      refine isChain_cons_cons.mpr ⟨⟨?_, ?_⟩, ?_⟩
      · rw [hnext a (by simp)]
        exact hlink.1
      · rw [hprev b (by simp)]
        exact hlink.2
      · refine ih htail (fun x hx => hnext x (by simp [hx])) (fun x hx => hprev x ?_)
        exact mem_of_mem_tail hx

theorem Holds.congr (h : Holds next prev l) (hsame : ∀ c ∈ l, next' c = next c ∧ prev' c = prev c) :
    Holds next' prev' l := by
  cases l with
  | nil => trivial
  | cons c t =>
    refine ⟨h.1, isChain_congr h.2 (fun a ha => ?_) (fun b hb => ?_)⟩
    · rw [dropLast_concat] at ha
      exact (hsame a ha).1
    · refine (hsame b ?_).2
      have : b ∈ t ++ [c] := hb
      rcases mem_append.mp this with hb | hb
      · exact mem_cons_of_mem c hb
      · rw [mem_singleton.mp hb]
        exact mem_cons_self

theorem Holds.prev_head (h : Holds next prev (c :: t)) :
    prev c = (c :: t).getLast (cons_ne_nil c t) := by
  have hchain := h.2
  rw [← dropLast_append_getLast (cons_ne_nil c t), append_assoc] at hchain
  exact (rel_of_isChain_cons_cons (isChain_append.mp hchain).2.1).2

/-- Going back through the cells of the list one comes to `last`. -/
def Back (prev : α → α) (last : α) : List α → Prop
  | [] => True
  | [a] => prev a = last
  | a :: b :: l => prev a = b ∧ Back prev last (b :: l)

theorem Back.congr {last : α} (h : Back prev last l) (hsame : ∀ c ∈ l, prev' c = prev c) :
    Back prev' last l := by
  induction l with
  | nil => trivial
  | cons a l ih =>
    cases l with
    | nil => exact (hsame a mem_cons_self).trans h
    | cons b l =>
      refine ⟨(hsame a mem_cons_self).trans h.1, ?_⟩
      exact ih h.2 (fun c hc => hsame c (mem_cons_of_mem a hc))

theorem Holds.back {r : List α} (h : Holds next prev (c :: t ++ r)) :
    Back prev (prev c) (c :: t).reverse := by
  induction t using List.reverseRecOn generalizing r with
  | nil => exact (rfl : prev c = prev c)
  | append_singleton t a ih =>
    have hsplit : Holds next prev (c :: t ++ a :: r) := by simpa using h
    have hback := ih hsplit
    obtain ⟨b, s, hrev⟩ : ∃ b s, (c :: t).reverse = b :: s :=
      exists_cons_of_ne_nil (by simp)
    have hlast : c :: t = s.reverse ++ [b] := by
      rw [← reverse_reverse (c :: t), hrev, reverse_cons]
    have hprev : prev a = b := by
      rw [hlast, append_assoc] at hsplit
      exact hsplit.next_eq.2
    rw [← cons_append, reverse_append, hrev]
    rw [hrev] at hback
    exact ⟨hprev, hback⟩

theorem Holds.next_prev (h : Holds next prev l) (hc : c ∈ l) :
    next (prev c) = c ∧ prev (next c) = c := by
  obtain ⟨a, r, rfl⟩ := append_of_mem hc
  have hturn := h.turnTo
  refine ⟨?_, ?_⟩
  · rw [hturn.prev_head]
    exact hturn.next_last
  · cases hrest : r ++ a with
    | nil =>
      rw [hrest] at hturn
      rw [hturn.single.1, hturn.single.2]
    | cons d t =>
      rw [hrest] at hturn
      rw [hturn.next_head.1]
      exact hturn.next_head.2

theorem Holds.links_mem (h : Holds next prev l) (hc : c ∈ l) : next c ∈ l ∧ prev c ∈ l := by
  obtain ⟨a, r, rfl⟩ := append_of_mem hc
  have hturn := h.turnTo
  have hmem : ∀ x ∈ c :: (r ++ a), x ∈ a ++ c :: r := by
    intro x hx
    simp only [mem_cons, mem_append] at hx ⊢
    tauto
  refine ⟨hmem _ ?_, hmem _ ?_⟩
  · cases hrest : r ++ a with
    | nil =>
      rw [hrest] at hturn
      rw [hturn.single.1]
      exact mem_cons_self
    | cons d t =>
      rw [hrest] at hturn
      rw [hturn.next_head.1]
      exact mem_cons_of_mem c mem_cons_self
  · rw [hturn.prev_head]
    exact getLast_mem _

/-! ## Sums over the cells -/

theorem sum_map_change (g g' : α → ℕ) {a b : ℕ} (hnodup : l.Nodup) (hq : q ∈ l)
    (hsame : ∀ c, c ≠ q → g' c = g c) (hchange : g' q + a = g q + b) :
    (l.map g').sum + a = (l.map g).sum + b := by
  induction l with
  | nil => cases hq
  | cons x xs ih =>
    obtain ⟨hx, hxs⟩ := nodup_cons.mp hnodup
    rw [map_cons, map_cons, sum_cons, sum_cons]
    by_cases hxq : x = q
    · subst hxq
      have hrest : xs.map g' = xs.map g :=
        map_congr_left (fun c hc => hsame c (fun heq => hx (heq ▸ hc)))
      rw [hrest]
      omega
    · have hmem : q ∈ xs := (mem_cons.mp hq).resolve_left (Ne.symm hxq)
      have hsum := ih hxs hmem
      have hhead := hsame x hxq
      omega

variable [DecidableEq α]

theorem sum_map_member (g g' : α → ℕ) {l' : List α} (hl : l.Nodup) (hl' : l'.Nodup)
    (hmem : ∀ c, c ≠ q → (c ∈ l' ↔ c ∈ l)) (hsame : ∀ c, c ≠ q → g' c = g c)
    (hg : q ∉ l → g q = 0) (hg' : q ∉ l' → g' q = 0) :
    (l'.map g').sum + g q = (l.map g).sum + g' q := by
  classical
  have hsplit : ∀ (l : List α) (g : α → ℕ), l.Nodup → (q ∉ l → g q = 0) →
      (l.map g).sum = g q + ∑ c ∈ l.toFinset.erase q, g c := by
    intro l g hl hg
    rw [← sum_toFinset g hl]
    by_cases hq : q ∈ l
    · exact (Finset.add_sum_erase _ g (mem_toFinset.mpr hq)).symm
    · rw [hg hq, Nat.zero_add, Finset.erase_eq_of_notMem (by simpa using hq)]
  have herase : l'.toFinset.erase q = l.toFinset.erase q := by
    ext c
    simp only [Finset.mem_erase, mem_toFinset]
    exact and_congr_right (fun hc => hmem c hc)
  have hrest : ∑ c ∈ l.toFinset.erase q, g' c = ∑ c ∈ l.toFinset.erase q, g c :=
    Finset.sum_congr rfl (fun c hc => hsame c (Finset.ne_of_mem_erase hc))
  rw [hsplit l g hl hg, hsplit l' g' hl' hg', herase, hrest]
  ring

/-! ## Insertion and removal -/

theorem Holds.insert (h : Holds next prev (c :: t)) (hq : q ∉ c :: t) :
    Holds (update (update next q c) (prev c) q)
      (update (update prev q (prev c)) c q) (c :: t ++ [q]) := by
  have hlast := h.prev_head
  have hmem : prev c ∈ c :: t := hlast ▸ getLast_mem _
  have hqc : q ≠ c := fun heq => hq (heq ▸ mem_cons_self)
  have hql : q ≠ prev c := fun heq => hq (heq ▸ hmem)
  refine ⟨?_, ?_⟩
  · exact nodup_append'.mpr ⟨h.1, nodup_singleton q, by simpa using hq⟩
  · show (c :: (t ++ [q]) ++ [c]).IsChain _
    rw [show c :: (t ++ [q]) ++ [c] = c :: t ++ [q, c] from by simp, isChain_append]
    refine ⟨?_, ?_, ?_⟩
    · -- the old links, but for the one that is opened
      have hold := (isChain_append.mp h.2).1
      refine isChain_congr hold ?_ ?_
      · intro a ha
        have haq : a ≠ q := fun heq => hq (heq ▸ dropLast_subset _ ha)
        have hal : a ≠ prev c := by
          rintro rfl
          have hnodup := h.1
          rw [← dropLast_append_getLast (cons_ne_nil c t), nodup_append'] at hnodup
          exact hnodup.2.2 ha (by simp [hlast])
        rw [update_of_ne hal, update_of_ne haq]
      · intro b hb
        have hbq : b ≠ q := fun heq => hq (heq ▸ mem_cons_of_mem c hb)
        have hbc : b ≠ c := fun heq => (nodup_cons.mp h.1).1 (heq ▸ hb)
        rw [update_of_ne hbc, update_of_ne hbq]
    · refine isChain_cons_cons.mpr ⟨⟨?_, ?_⟩, isChain_singleton c⟩
      · rw [update_of_ne hql, update_self]
      · exact update_self ..
    · intro x hx y hy
      have hx : (c :: t).getLast (cons_ne_nil c t) = x := by
        rw [getLast?_eq_some_getLast (cons_ne_nil c t)] at hx
        exact Option.some.inj hx
      have hy : q = y := by simpa using hy
      rw [← hx, ← hy, ← hlast]
      refine ⟨update_self .., ?_⟩
      rw [update_of_ne hqc, update_self]

theorem Holds.remove (h : Holds next prev (c :: d :: t)) :
    Holds (update next (prev c) (next c)) (update prev (next c) (prev c))
      (d :: t) := by
  obtain ⟨hnext, -⟩ := h.next_head
  have hlast := h.prev_head
  rw [getLast_cons (cons_ne_nil d t)] at hlast
  have hnodup : (d :: t).Nodup := (nodup_cons.mp h.1).2
  refine ⟨hnodup, ?_⟩
  rw [hnext, isChain_append]
  refine ⟨?_, isChain_singleton d, ?_⟩
  · have hold : (d :: t).IsChain (Linked next prev) := (isChain_append.mp h.2).1.tail
    refine isChain_congr hold ?_ ?_
    · intro a ha
      have hal : a ≠ prev c := by
        rintro rfl
        rw [← dropLast_append_getLast (cons_ne_nil d t), nodup_append'] at hnodup
        exact hnodup.2.2 ha (by simp [hlast])
      rw [update_of_ne hal]
    · intro b hb
      have hbd : b ≠ d := fun heq => (nodup_cons.mp hnodup).1 (heq ▸ hb)
      rw [update_of_ne hbd]
  · intro x hx y hy
    have hx : (d :: t).getLast (cons_ne_nil d t) = x := by
      rw [getLast?_eq_some_getLast (cons_ne_nil d t)] at hx
      exact Option.some.inj hx
    have hy : d = y := by simpa using hy
    rw [← hx, ← hy, ← hlast]
    exact ⟨update_self .., update_self ..⟩

theorem Holds.insertBehind {a : α} {r : List α} (h : Holds next prev (l ++ a :: r))
    (hq : q ∉ l ++ a :: r) :
    Holds (update (update next q (next a)) a q)
      (update (update prev q a) (next a) q) (l ++ a :: q :: r) := by
  have hturn : Holds next prev (r ++ (l ++ [a])) := by
    apply Holds.turn
    rw [append_assoc]
    exact h
  cases hlist : r ++ (l ++ [a]) with
  | nil => simp at hlist
  | cons c t =>
    rw [hlist] at hturn
    have hlast : (c :: t).getLast (cons_ne_nil c t) = a := by
      have hsome : (r ++ (l ++ [a])).getLast? = some a := by
        rw [← append_assoc, getLast?_concat]
      rw [hlist, getLast?_eq_some_getLast (cons_ne_nil c t)] at hsome
      exact Option.some.inj hsome
    have hprev : prev c = a := hturn.prev_head.trans hlast
    have hnext : next a = c := by
      have := hturn.next_last
      rwa [hlast] at this
    have hnew : q ∉ c :: t := by
      rw [← hlist]
      simp only [mem_append, mem_cons, not_mem_nil, or_false] at hq ⊢
      tauto
    have hins := hturn.insert hnew
    rw [hprev, ← hlist, append_assoc] at hins
    have hback := hins.turn
    rw [hnext]
    simpa using hback

theorem Holds.insertBefore {b : α} {r : List α} (h : Holds next prev (l ++ b :: r))
    (hq : q ∉ l ++ b :: r) :
    Holds (update (update next q b) (prev b) q)
      (update (update prev q (prev b)) b q) (l ++ q :: b :: r) := by
  rcases eq_nil_or_concat l with rfl | ⟨l', a, rfl⟩
  · have hins := (show Holds next prev (b :: r) from h).insert hq
    exact hins.turn
  · rw [concat_eq_append] at h hq ⊢
    rw [append_assoc] at h hq ⊢
    obtain ⟨hnext, hprev⟩ := (show Holds next prev (l' ++ a :: b :: r) from h).next_eq
    have hins := Holds.insertBehind h hq
    rw [hnext] at hins
    rw [hprev]
    exact hins

theorem Holds.removeCell {r : List α} (h : Holds next prev (l ++ c :: r)) (hne : r ++ l ≠ []) :
    Holds (update next (prev c) (next c)) (update prev (next c) (prev c))
      (l ++ r) := by
  have hturn := h.turnTo
  cases hlist : r ++ l with
  | nil => exact absurd hlist hne
  | cons d t =>
    rw [hlist] at hturn
    have hrem := hturn.remove
    rw [← hlist] at hrem
    exact hrem.turn

omit [DecidableEq α] in
theorem holds_single (hnext : next c = c) (hprev : prev c = c) : Holds next prev [c] :=
  ⟨nodup_singleton c, isChain_cons_cons.mpr ⟨⟨hnext, hprev⟩, isChain_singleton c⟩⟩

end CyclicList
