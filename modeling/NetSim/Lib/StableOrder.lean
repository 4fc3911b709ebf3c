import Mathlib.Data.List.MinMax
import Mathlib.Tactic

/-! # Stable order

Lists sorted by a key in which elements of equal key keep the order they arrived in.

A list is described here by its *key classes*: `keyClass key k l` is the sublist of the
elements with key `k`. Two lists `Agree` when all their key classes are equal, that is, when
they hold the same elements and order the elements of equal key in the same way. A sorted
list is determined by its key classes (`eq_of_agree`), so a stable priority queue can be
compared with the list of its elements in arrival order one key at a time.

The two ways of inserting into a sorted list are `insertLast` (behind the elements of equal
key) and `insertFirst` (in front of them).
-/

namespace StableOrder

open List

variable {α K : Type*} [LinearOrder K] (key : α → K)

/-- The elements of `l` with key `k`, in the order of `l`. -/
def keyClass (k : K) (l : List α) : List α := l.filter (fun a => key a = k)

def Sorted (l : List α) : Prop := l.Pairwise (fun a b => key a ≤ key b)

/-- The same elements, in the same order within every key. -/
def Agree (l h : List α) : Prop := ∀ k, keyClass key k l = keyClass key k h

/-- Insert `a` behind every element whose key is at most `key a`. -/
def insertLast (a : α) : List α → List α
  | [] => [a]
  | b :: l => if key a < key b then a :: b :: l else b :: insertLast a l

/-- Insert `a` in front of every element whose key is at least `key a`. -/
def insertFirst (a : α) : List α → List α
  | [] => [a]
  | b :: l => if key b < key a then b :: insertFirst a l else a :: b :: l

/-! ## Key classes -/

variable {key}

theorem keyClass_append (k : K) (l m : List α) :
    keyClass key k (l ++ m) = keyClass key k l ++ keyClass key k m := by
  simp [keyClass]

theorem keyClass_cons (k : K) (a : α) (l : List α) :
    keyClass key k (a :: l) = (if key a = k then [a] else []) ++ keyClass key k l := by
  by_cases h : key a = k <;> simp [keyClass, h]

theorem mem_keyClass {k : K} {a : α} {l : List α} :
    a ∈ keyClass key k l ↔ a ∈ l ∧ key a = k := by
  simp [keyClass]

theorem keyClass_eq_nil {k : K} {l : List α} (h : ∀ a ∈ l, key a ≠ k) :
    keyClass key k l = [] := by
  rw [keyClass, filter_eq_nil_iff]
  intro a ha
  simpa using h a ha

theorem keyClass_filter (k : K) (p : α → Bool) (l : List α) :
    keyClass key k (l.filter p) = (keyClass key k l).filter p := by
  simp only [keyClass, filter_filter]
  congr 1
  funext a
  exact Bool.and_comm _ _

/-! ## Agreement -/

theorem Agree.symm {l h : List α} (e : Agree key l h) : Agree key h l := fun k => (e k).symm

theorem Agree.trans {l m h : List α} (e : Agree key l m) (f : Agree key m h) :
    Agree key l h := fun k => (e k).trans (f k)

theorem Agree.mem_iff {l h : List α} (e : Agree key l h) (a : α) : a ∈ l ↔ a ∈ h := by
  have := congrArg (fun m => a ∈ m) (e (key a))
  simpa [mem_keyClass] using this

theorem Agree.append {l l' h h' : List α} (e : Agree key l h) (e' : Agree key l' h') :
    Agree key (l ++ l') (h ++ h') := by
  intro k
  rw [keyClass_append, keyClass_append, e k, e' k]

theorem Agree.cons {l h : List α} (a : α) (e : Agree key l h) :
    Agree key (a :: l) (a :: h) := by
  intro k
  rw [keyClass_cons, keyClass_cons, e k]

theorem Agree.filter {l h : List α} (e : Agree key l h) (p : α → Bool) :
    Agree key (l.filter p) (h.filter p) := by
  intro k
  rw [keyClass_filter, keyClass_filter, e k]

theorem Agree.nil_iff {l h : List α} (e : Agree key l h) : l = [] ↔ h = [] := by
  simp only [eq_nil_iff_forall_not_mem, e.mem_iff]

theorem Agree.perm {l h : List α} (e : Agree key l h) : l.Perm h := by
  classical
  rw [perm_iff_count]
  intro a
  have hc : ∀ m : List α, List.count a m = List.count a (keyClass key (key a) m) := by
    intro m
    rw [keyClass, count_filter]
    simp
  rw [hc l, hc h, e (key a)]

/-! ## Sorted lists -/

theorem Sorted.filter {l : List α} (hl : Sorted key l) (p : α → Bool) :
    Sorted key (l.filter p) := List.Pairwise.filter p hl

theorem Sorted.tail {a : α} {l : List α} (hl : Sorted key (a :: l)) : Sorted key l :=
  (pairwise_cons.mp hl).2

theorem Sorted.le_of_mem {a b : α} {l : List α} (hl : Sorted key (a :: l)) (hb : b ∈ a :: l) :
    key a ≤ key b := by
  rcases mem_cons.mp hb with rfl | hb
  · exact le_refl _
  · exact (pairwise_cons.mp hl).1 b hb

theorem Sorted.le_getLast {b : α} {l : List α} (hl : Sorted key l) (hb : b ∈ l) (hne : l ≠ []) :
    key b ≤ key (l.getLast hne) := by
  cases l using List.reverseRecOn with
  | nil => cases hb
  | append_singleton m y =>
    rw [getLast_append_singleton]
    rcases mem_append.mp hb with hb | hb
    · exact (pairwise_append.mp hl).2.2 b hb y (by simp)
    · rw [mem_singleton.mp hb]

theorem eq_of_agree {l h : List α} (hl : Sorted key l) (hh : Sorted key h)
    (e : Agree key l h) : l = h := by
  induction l generalizing h with
  | nil => exact (e.nil_iff.mp rfl).symm
  | cons a l ih =>
    cases h with
    | nil => exact e.nil_iff.mpr rfl
    | cons b h =>
      have hab : key a ≤ key b := hl.le_of_mem ((e.mem_iff b).mpr (by simp))
      have hba : key b ≤ key a := hh.le_of_mem ((e.mem_iff a).mp (by simp))
      have hk : key b = key a := le_antisymm hba hab
      have hcls := e (key a)
      rw [keyClass_cons, keyClass_cons, if_pos rfl, if_pos hk] at hcls
      have heq : a = b := by simpa using (List.cons.inj hcls).1
      subst heq
      refine congrArg _ (ih hl.tail hh.tail (fun k => ?_))
      have := e k
      rw [keyClass_cons, keyClass_cons] at this
      exact append_cancel_left this

/-! ## Insertion behind the equal keys -/

theorem mem_insertLast {a b : α} {l : List α} : b ∈ insertLast key a l ↔ b = a ∨ b ∈ l := by
  induction l with
  | nil => simp [insertLast]
  | cons c l ih =>
    by_cases h : key a < key c
    · simp [insertLast, h]
    · simp only [insertLast, h, if_false, mem_cons]
      tauto

theorem sorted_insertLast (a : α) {l : List α} (hl : Sorted key l) :
    Sorted key (insertLast key a l) := by
  induction l with
  | nil => simp [insertLast, Sorted]
  | cons b l ih =>
    by_cases h : key a < key b
    · simp only [insertLast, h]
      refine pairwise_cons.mpr ⟨fun c hc => ?_, hl⟩
      exact h.le.trans (hl.le_of_mem hc)
    · simp only [insertLast, h]
      refine pairwise_cons.mpr ⟨fun c hc => ?_, ih hl.tail⟩
      rcases mem_insertLast.mp hc with rfl | hc
      · exact not_lt.mp h
      · exact (pairwise_cons.mp hl).1 c hc

theorem agree_insertLast (a : α) {l : List α} (hl : Sorted key l) :
    Agree key (insertLast key a l) (l ++ [a]) := by
  induction l with
  | nil => intro k; rfl
  | cons b l ih =>
    by_cases h : key a < key b
    · simp only [insertLast, h, if_true]
      intro k
      rw [keyClass_append, keyClass_cons]
      by_cases hk : key a = k
      · -- every element behind `a` has a larger key, so `k`'s class is `[a]` on both sides
        have hnone : keyClass key k (b :: l) = [] := by
          refine keyClass_eq_nil (fun c hc heq => ?_)
          have := hl.le_of_mem hc
          rw [heq, ← hk] at this
          exact absurd h (not_lt.mpr this)
        rw [hnone, if_pos hk]
        simp [keyClass, hk]
      · simp [hk, keyClass]
    · simp only [insertLast, h]
      exact (ih hl.tail).cons b

theorem exists_insertLast (a : α) (l : List α) :
    ∃ xs ys, l = xs ++ ys ∧ insertLast key a l = xs ++ a :: ys := by
  induction l with
  | nil => exact ⟨[], [], rfl, rfl⟩
  | cons b l ih =>
    by_cases h : key a < key b
    · exact ⟨[], b :: l, rfl, by simp [insertLast, h]⟩
    · obtain ⟨xs, ys, rfl, hins⟩ := ih
      exact ⟨b :: xs, ys, rfl, by simp [insertLast, h, hins]⟩

theorem insertLast_append (a : α) {xs ys : List α} (hx : ∀ x ∈ xs, key x ≤ key a)
    (hy : ∀ y ∈ ys, key a < key y) : insertLast key a (xs ++ ys) = xs ++ a :: ys := by
  induction xs with
  | nil =>
    cases ys with
    | nil => rfl
    | cons y ys => simp [insertLast, hy y (by simp)]
  | cons x xs ih =>
    have h : ¬ key a < key x := not_lt.mpr (hx x (by simp))
    simp only [cons_append, insertLast, h, if_false]
    rw [ih (fun x' hx' => hx x' (by simp [hx']))]

/-- Inserting into a sorted list and then keeping the elements with `p` is inserting into the
kept elements. -/
theorem filter_insertLast (p : α → Bool) (a : α) {l : List α} (hl : Sorted key l) :
    (insertLast key a l).filter p =
      if p a then insertLast key a (l.filter p) else l.filter p := by
  by_cases h : p a
  · rw [if_pos h]
    refine eq_of_agree ((sorted_insertLast a hl).filter p) (sorted_insertLast a (hl.filter p)) ?_
    have h1 := (agree_insertLast a hl).filter p
    rw [filter_append] at h1
    simp only [filter_cons, h] at h1
    exact h1.trans (agree_insertLast a (hl.filter p)).symm
  · rw [if_neg h]
    refine eq_of_agree ((sorted_insertLast a hl).filter p) (hl.filter p) ?_
    have h1 := (agree_insertLast a hl).filter p
    simpa [h] using h1

/-! ## Insertion in front of the equal keys -/

theorem mem_insertFirst {a b : α} {l : List α} : b ∈ insertFirst key a l ↔ b = a ∨ b ∈ l := by
  induction l with
  | nil => simp [insertFirst]
  | cons c l ih =>
    by_cases h : key c < key a
    · simp only [insertFirst, h, if_true, mem_cons]
      tauto
    · simp [insertFirst, h]

theorem sorted_insertFirst (a : α) {l : List α} (hl : Sorted key l) :
    Sorted key (insertFirst key a l) := by
  induction l with
  | nil => simp [insertFirst, Sorted]
  | cons b l ih =>
    by_cases h : key b < key a
    · simp only [insertFirst, h]
      refine pairwise_cons.mpr ⟨fun c hc => ?_, ih hl.tail⟩
      rcases mem_insertFirst.mp hc with rfl | hc
      · exact h.le
      · exact (pairwise_cons.mp hl).1 c hc
    · simp only [insertFirst, h]
      refine pairwise_cons.mpr ⟨fun c hc => ?_, hl⟩
      exact (not_lt.mp h).trans (hl.le_of_mem hc)

theorem agree_insertFirst (a : α) (l : List α) : Agree key (insertFirst key a l) (a :: l) := by
  induction l with
  | nil => intro k; rfl
  | cons b l ih =>
    by_cases h : key b < key a
    · simp only [insertFirst, h, if_true]
      intro k
      have hih := ih k
      rw [keyClass_cons] at hih
      rw [keyClass_cons, keyClass_cons, keyClass_cons, hih]
      -- `a` and `b` have different keys, so at most one of them is in the class of `k`
      by_cases hk : key b = k
      · have : key a ≠ k := fun ha => absurd h (by rw [hk, ha]; exact lt_irrefl k)
        simp [this]
      · simp [hk]
    · simp only [insertFirst, h]
      intro k; rfl

theorem filter_insertFirst (p : α → Bool) (a : α) {l : List α} (hl : Sorted key l) :
    (insertFirst key a l).filter p =
      if p a then insertFirst key a (l.filter p) else l.filter p := by
  have h1 := (@agree_insertFirst _ _ _ key a l).filter p
  by_cases h : p a
  · rw [if_pos h]
    refine eq_of_agree ((sorted_insertFirst a hl).filter p) (sorted_insertFirst a (hl.filter p)) ?_
    rw [filter_cons, if_pos h] at h1
    exact h1.trans (agree_insertFirst a (l.filter p)).symm
  · rw [if_neg h]
    refine eq_of_agree ((sorted_insertFirst a hl).filter p) (hl.filter p) ?_
    rwa [filter_cons, if_neg h] at h1

def stackAll (key : α → K) (l : List α) (as : List α) : List α :=
  as.foldl (fun l a => insertFirst key a l) l

theorem sorted_stackAll {l : List α} (hl : Sorted key l) (as : List α) :
    Sorted key (stackAll key l as) := by
  induction as generalizing l with
  | nil => exact hl
  | cons a as ih => exact ih (sorted_insertFirst a hl)

theorem agree_stackAll (l as : List α) : Agree key (stackAll key l as) (as.reverse ++ l) := by
  induction as generalizing l with
  | nil => intro k; rfl
  | cons a as ih =>
    have h : Agree key (as.reverse ++ insertFirst key a l) (as.reverse ++ (a :: l)) :=
      Agree.append (fun _ => rfl) (agree_insertFirst a l)
    have hrev : (a :: as).reverse ++ l = as.reverse ++ (a :: l) := by simp
    rw [hrev]
    exact (ih (insertFirst key a l)).trans h

theorem flatMap_range_single {n i : ℕ} (hi : i < n) (f : ℕ → List α)
    (h : ∀ j < n, j ≠ i → f j = []) : (List.range n).flatMap f = f i := by
  induction n with
  | zero => omega
  | succ n ih =>
    rw [range_succ, flatMap_append, flatMap_singleton]
    by_cases hin : i = n
    · subst hin
      have : (List.range i).flatMap f = [] := by
        rw [flatMap_eq_nil_iff]
        intro j hj
        have := mem_range.mp hj
        exact h j (by omega) (by omega)
      rw [this, nil_append]
    · rw [h n (by omega) (fun he => hin he.symm), append_nil]
      exact ih (by omega) (fun j hj hji => h j (by omega) hji)

/-- **Taking a queue apart class by class, each class from its tail, and reading everything
backwards keeps the order within every key**, when the class depends on the key only. -/
theorem agree_reverse_classes (cls : K → ℕ) {n : ℕ} {q : List α} (hn : ∀ a ∈ q, cls (key a) < n) :
    Agree key ((List.range n).flatMap
      (fun i => (q.filter (fun a => cls (key a) = i)).reverse)).reverse q := by
  intro k
  have hrev : ∀ l : List α, keyClass key k l.reverse = (keyClass key k l).reverse := by
    intro l
    rw [keyClass, keyClass, filter_reverse]
  have hflat : ∀ f : ℕ → List α, keyClass key k ((List.range n).flatMap f) =
      (List.range n).flatMap (fun i => keyClass key k (f i)) := by
    intro f
    rw [keyClass, List.filter_flatMap]
    rfl
  have hcls : ∀ i, keyClass key k (q.filter (fun a => cls (key a) = i)) =
      if cls k = i then keyClass key k q else [] := by
    intro i
    rw [keyClass_filter]
    split
    case isTrue h =>
      rw [filter_eq_self]
      intro a ha
      simpa [(mem_keyClass.mp ha).2] using h
    case isFalse h =>
      rw [filter_eq_nil_iff]
      intro a ha
      simpa [(mem_keyClass.mp ha).2] using h
  rw [hrev, hflat]
  simp only [hrev, hcls]
  by_cases hk : cls k < n
  · rw [flatMap_range_single hk _ (fun j _ hj => by simp [hj.symm])]
    simp
  · have hempty : keyClass key k q = [] :=
      keyClass_eq_nil (fun a ha hak => hk (hak ▸ hn a ha))
    simp [hempty]

/-! ## The first element of a sorted list -/

/-- The stable sort of a list given in arrival order. -/
def stableSort (key : α → K) (h : List α) : List α := h.foldl (fun l a => insertLast key a l) []

theorem stableSort_concat (h : List α) (a : α) :
    stableSort key (h ++ [a]) = insertLast key a (stableSort key h) := by
  simp [stableSort]

theorem sorted_stableSort (h : List α) : Sorted key (stableSort key h) := by
  induction h using List.reverseRecOn with
  | nil => exact List.Pairwise.nil
  | append_singleton h a ih => rw [stableSort_concat]; exact sorted_insertLast a ih

theorem agree_stableSort (h : List α) : Agree key (stableSort key h) h := by
  induction h using List.reverseRecOn with
  | nil => intro k; rfl
  | append_singleton h a ih =>
    rw [stableSort_concat]
    exact (agree_insertLast a (sorted_stableSort h)).trans (ih.append (fun _ => rfl))

theorem head?_insertLast (a : α) (l : List α) :
    (insertLast key a l).head? =
      Option.casesOn l.head? (some a) (fun c => if key a < key c then some a else some c) := by
  cases l with
  | nil => rfl
  | cons b l => by_cases h : key a < key b <;> simp [insertLast, h]

theorem head?_stableSort (h : List α) :
    (stableSort key h).head? = h.argmin key := by
  induction h using List.reverseRecOn with
  | nil => rfl
  | append_singleton h a ih =>
    rw [stableSort_concat, head?_insertLast, ih, argmin_concat]

theorem argmin_append_cons {x : α} {pre post : List α} (hpre : ∀ y ∈ pre, key x < key y)
    (hpost : ∀ y ∈ post, key x ≤ key y) : (pre ++ x :: post).argmin key = some x := by
  induction post using List.reverseRecOn with
  | nil =>
    rw [argmin_concat]
    cases hc : pre.argmin key with
    | none => rfl
    | some c => simp [hpre c (argmin_mem hc)]
  | append_singleton post y ih =>
    have hsplit : pre ++ x :: (post ++ [y]) = (pre ++ x :: post) ++ [y] := by simp
    rw [hsplit, argmin_concat, ih (fun z hz => hpost z (by simp [hz]))]
    simp [not_lt.mpr (hpost y (by simp))]

/-- **The head of a stable priority queue.** When `l` is sorted and agrees with the arrival
order `h`, its first element is the element of minimal key that arrived first. -/
theorem head?_eq_argmin {l h : List α} (hl : Sorted key l) (e : Agree key l h) :
    l.head? = h.argmin key := by
  have : l = stableSort key h :=
    eq_of_agree hl (sorted_stableSort h) (e.trans (agree_stableSort h).symm)
  rw [this, head?_stableSort]

end StableOrder
