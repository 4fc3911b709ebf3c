import Mathlib.Data.List.Nodup
import Mathlib.Data.List.Induction
import Mathlib.Logic.Function.Basic
import Mathlib.Tactic.Tauto

/-! # Doubly linked lists in a heap of nodes

The links of the nodes are maps from addresses to addresses, one map a field, so that writing one
field leaves the others alone by definition. `DLinks.Holds L xs` says that the list with the
anchors `head` and `tail` consists of the nodes `xs` in this order. Unlinking a node
(`Holds.remove`) and linking one between two neighbours (`Holds.link`) are the list operations
they look like, and a walk along the links is a walk along `xs` (`Holds.walkNext`,
`Holds.walkPrev`).

Nodes that are not in use hang on a singly linked list of their own, `Chain`.
-/

namespace LinkedList

open Function List

/-! ## Paths -/

section Path

variable {α : Type}

/-- The nodes `xs` are linked one after the other, from `before` to `after`. -/
def Path (next prev : α → Option α) : Option α → List α → Option α → Prop
  | _, [], _ => True
  | before, x :: xs, after =>
    prev x = before ∧ next x = xs.head?.or after ∧ Path next prev (some x) xs after

variable {next prev next' prev' : α → Option α} {before after : Option α} {l r xs : List α} {x : α}

theorem path_append : Path next prev before (l ++ r) after ↔
    Path next prev before l (r.head?.or after) ∧ Path next prev (l.getLast?.or before) r after := by
  induction l generalizing before with
  | nil => simp [Path]
  | cons x l ih =>
    have hlast : (x :: l).getLast?.or before = l.getLast?.or (some x) := by
      rw [getLast?_cons]
      cases l.getLast? <;> rfl
    rw [cons_append, Path, Path, ih, head?_append, Option.or_assoc, hlast]
    tauto

theorem Path.congr (h : Path next prev before xs after) (hn : ∀ a ∈ xs, next' a = next a)
    (hp : ∀ a ∈ xs, prev' a = prev a) : Path next' prev' before xs after := by
  induction xs generalizing before with
  | nil => trivial
  | cons x xs ih =>
    obtain ⟨h1, h2, h3⟩ := h
    refine ⟨?_, ?_, ih h3 (fun a ha => hn a (by simp [ha])) (fun a ha => hp a (by simp [ha]))⟩
    · rw [hp x (by simp), h1]
    · rw [hn x (by simp), h2]

theorem nodup_middle (h : (l ++ x :: r).Nodup) :
    l.Nodup ∧ r.Nodup ∧ x ∉ l ∧ x ∉ r ∧ ∀ a ∈ l, a ∉ r := by
  obtain ⟨h1, h2, h3⟩ := List.nodup_append.mp h
  obtain ⟨h4, h5⟩ := nodup_cons.mp h2
  exact ⟨h1, h5, fun hl => h3 x hl x (by simp) rfl, h4,
    fun a ha hr => h3 a ha a (by simp [hr]) rfl⟩

end Path

/-! ## Writing a field -/

variable {α : Type} [DecidableEq α]

def setField (f : α → Option α) (a : Option α) (v : Option α) : α → Option α :=
  match a with
  | some a => update f a v
  | none => f

theorem setField_of_ne (f : α → Option α) {a : Option α} (v : Option α) {x : α} (h : a ≠ some x) :
    setField f a v x = f x := by
  cases a with
  | none => rfl
  | some a => exact update_of_ne (fun he => h (by rw [he])) _ _

section SetEnds

variable {next prev : α → Option α} {before after : Option α} {xs : List α}

theorem Path.set_after (h : Path next prev before xs after) (hnd : xs.Nodup) (v : Option α) :
    Path (setField next xs.getLast? v) prev before xs v := by
  rcases eq_nil_or_concat xs with rfl | ⟨m, x, hx⟩
  · trivial
  · rw [concat_eq_append] at hx
    subst hx
    obtain ⟨h1, h2, -, -⟩ := path_append.mp h
    have hxm : x ∉ m := (nodup_middle hnd).2.2.1
    have hlast : (m ++ [x]).getLast? = some x := by simp
    rw [path_append, hlast]
    refine ⟨h1.congr (fun a ha => ?_) (fun _ _ => rfl), h2, ?_, trivial⟩
    · refine setField_of_ne next v ?_
      rintro heq
      exact hxm (Option.some.inj heq ▸ ha)
    · simp [setField]

theorem Path.set_before (h : Path next prev before xs after) (hnd : xs.Nodup) (v : Option α) :
    Path next (setField prev xs.head? v) v xs after := by
  cases xs with
  | nil => trivial
  | cons x xs =>
    obtain ⟨h1, h2, h3⟩ := h
    have hx := (nodup_cons.mp hnd).1
    refine ⟨by simp [setField], h2, h3.congr (fun _ _ => rfl) (fun a ha => ?_)⟩
    refine setField_of_ne prev v ?_
    rintro heq
    exact hx (Option.some.inj heq ▸ ha)

end SetEnds

/-! ## Doubly linked lists -/

structure DLinks (α : Type) where
  next : α → Option α
  prev : α → Option α
  head : Option α
  tail : Option α

namespace DLinks

/-- Unlink the node `p`. -/
def remove (L : DLinks α) (p : α) : DLinks α :=
  let next := setField L.next (L.prev p) (L.next p)
  { next
    head := if (L.prev p).isSome then L.head else L.next p
    prev := setField L.prev (next p) (L.prev p)
    tail := if (next p).isSome then L.tail else L.prev p }

/-- Link the node `n` between `p` and `q`; a missing neighbour is the end of the list. -/
def link (L : DLinks α) (p : Option α) (n : α) (q : Option α) : DLinks α :=
  { next := setField (update L.next n q) p (some n)
    head := if p.isSome then L.head else some n
    prev := setField (update L.prev n p) q (some n)
    tail := if q.isSome then L.tail else some n }

/-- `while (q && c(q)) q = q->next;`. `none`: out of fuel. -/
def walkNext (L : DLinks α) (c : α → Bool) : ℕ → Option α → Option (Option α)
  | 0, _ => none
  | _ + 1, none => some none
  | fuel + 1, some a => if c a then walkNext L c fuel (L.next a) else some (some a)

/-- `while (q && c(q)) q = q->prev;`. `none`: out of fuel. -/
def walkPrev (L : DLinks α) (c : α → Bool) : ℕ → Option α → Option (Option α)
  | 0, _ => none
  | _ + 1, none => some none
  | fuel + 1, some a => if c a then walkPrev L c fuel (L.prev a) else some (some a)

/-- The list consists of the nodes `xs`. -/
structure Holds (L : DLinks α) (xs : List α) : Prop where
  head : L.head = xs.head?
  tail : L.tail = xs.getLast?
  path : Path L.next L.prev none xs none

variable {L : DLinks α} {xs l r : List α} {p n : α}

omit [DecidableEq α] in
theorem holds_nil (hh : L.head = none) (ht : L.tail = none) : Holds L [] :=
  ⟨hh, ht, trivial⟩

omit [DecidableEq α] in
theorem Holds.next_eq (h : Holds L (l ++ p :: r)) : L.next p = r.head? := by
  have := (path_append.mp h.path).2.2.1
  simpa using this

omit [DecidableEq α] in
theorem Holds.prev_eq (h : Holds L (l ++ p :: r)) : L.prev p = l.getLast? := by
  have := (path_append.mp h.path).2.1
  simpa using this

theorem Holds.remove (h : Holds L (l ++ p :: r)) (hnd : (l ++ p :: r).Nodup) :
    Holds (L.remove p) (l ++ r) := by
  obtain ⟨hl, hr, hpl, hpr, hlr⟩ := nodup_middle hnd
  have hnext := h.next_eq
  have hprev := h.prev_eq
  have hlast : l.getLast? ≠ some p := fun he => hpl (mem_of_getLast? he)
  have hnextp : setField L.next l.getLast? r.head? p = r.head? := by
    rw [setField_of_ne _ _ hlast, hnext]
  obtain ⟨h1, -, -, h2⟩ := path_append.mp h.path
  refine ⟨?_, ?_, ?_⟩
  · simp only [DLinks.remove, hprev, hnext, h.head]
    cases l <;> simp
  · simp only [DLinks.remove, hprev, hnext, hnextp, h.tail]
    cases r <;> simp [getLast?_append]
  · simp only [DLinks.remove, hprev, hnext, hnextp]
    rw [path_append]
    constructor
    · rw [Option.or_none]
      refine (h1.set_after hl r.head?).congr (fun _ _ => rfl) (fun a ha => ?_)
      exact setField_of_ne _ _ (fun he => hlr a ha (mem_of_head? he))
    · rw [Option.or_none]
      refine (h2.set_before hr l.getLast?).congr (fun a ha => ?_) (fun _ _ => rfl)
      exact setField_of_ne _ _ (fun he => hlr a (mem_of_getLast? he) ha)

theorem Holds.remove_next (h : Holds L (l ++ p :: r)) {a : α} (ha : a ∉ l) :
    (L.remove p).next a = L.next a := by
  simp only [DLinks.remove, h.prev_eq]
  exact setField_of_ne _ _ (fun he => ha (mem_of_getLast? he))

/-- Writing the `next` field of a node that is not next to `p` does not disturb unlinking `p`. -/
theorem remove_update_next {a : α} (v : Option α) (ha : p ≠ a) (hp : L.prev p ≠ some a) :
    ({ L with next := update L.next a v } : DLinks α).remove p =
      { L.remove p with next := update (L.remove p).next a v } := by
  have hset : setField (update L.next a v) (L.prev p) (L.next p) =
      update (setField L.next (L.prev p) (L.next p)) a v := by
    cases hq : L.prev p with
    | none => rfl
    | some b =>
      have hab : a ≠ b := fun he => hp (by rw [hq, he])
      exact update_comm hab _ _ _
  simp only [DLinks.remove, update_of_ne ha, hset]

theorem Holds.link (h : Holds L (l ++ r)) (hnd : (l ++ n :: r).Nodup) :
    Holds (L.link l.getLast? n r.head?) (l ++ n :: r) := by
  obtain ⟨hl, hr, hnl, hnr, hlr⟩ := nodup_middle hnd
  obtain ⟨h1, h2⟩ := path_append.mp h.path
  have hneL : ∀ a ∈ l, a ≠ n := fun a ha he => hnl (he ▸ ha)
  have hneR : ∀ a ∈ r, a ≠ n := fun a ha he => hnr (he ▸ ha)
  have hlast : l.getLast? ≠ some n := fun he => hnl (mem_of_getLast? he)
  have hhead : r.head? ≠ some n := fun he => hnr (mem_of_head? he)
  refine ⟨?_, ?_, ?_⟩
  · simp only [DLinks.link, h.head]
    cases l <;> simp
  · simp only [DLinks.link, h.tail]
    cases r <;> simp [getLast?_append]
  · simp only [DLinks.link]
    rw [path_append]
    refine ⟨?_, ?_, ?_, ?_⟩
    · refine (h1.set_after hl (some n)).congr (fun a ha => ?_) (fun a ha => ?_)
      · cases hg : l.getLast? with
        | none => rw [getLast?_eq_none_iff.mp hg] at ha; cases ha
        | some b =>
          simp only [setField, update_apply]
          split
          · rfl
          · rw [if_neg (hneL a ha)]
      · rw [setField_of_ne _ _ (fun he => hlr a ha (mem_of_head? he)),
          update_of_ne (hneL a ha)]
    · rw [setField_of_ne _ _ hhead, update_self, Option.or_none]
    · rw [setField_of_ne _ _ hlast, update_self, Option.or_none]
    · refine (h2.set_before hr (some n)).congr (fun a ha => ?_) (fun a ha => ?_)
      · rw [setField_of_ne _ _ (fun he => hlr a (mem_of_getLast? he) ha),
          update_of_ne (hneR a ha)]
      · cases hg : r.head? with
        | none => rw [head?_eq_none_iff.mp hg] at ha; cases ha
        | some b =>
          simp only [setField, update_apply]
          split
          · rfl
          · rw [if_neg (hneR a ha)]

theorem link_next_of_ne {p q : Option α} {a : α} (hn : a ≠ n) (hp : p ≠ some a) :
    (L.link p n q).next a = L.next a := by
  simp only [DLinks.link]
  rw [setField_of_ne _ _ hp, update_of_ne hn]

/-! ## Walks -/

omit [DecidableEq α] in
theorem Holds.walkNext (h : Holds L (l ++ r)) (c : α → Bool) {fuel : ℕ} (hf : r.length < fuel) :
    L.walkNext c fuel r.head? = some (r.dropWhile c).head? := by
  induction r generalizing l fuel with
  | nil =>
    cases fuel with
    | zero => omega
    | succ fuel => rfl
  | cons a r ih =>
    cases fuel with
    | zero => omega
    | succ fuel =>
      have h' : Holds L ((l ++ [a]) ++ r) := by simpa using h
      by_cases ha : c a
      · simp only [DLinks.walkNext, head?_cons, ha, if_true, h.next_eq,
          dropWhile_cons]
        exact ih h' (by simpa using hf)
      · simp [DLinks.walkNext, ha]

omit [DecidableEq α] in
theorem Holds.walkPrev (h : Holds L (l ++ r)) (c : α → Bool) {fuel : ℕ} (hf : l.length < fuel) :
    L.walkPrev c fuel l.getLast? = some (l.reverse.dropWhile c).head? := by
  induction l using List.reverseRecOn generalizing r fuel with
  | nil =>
    cases fuel with
    | zero => omega
    | succ fuel => rfl
  | append_singleton l a ih =>
    cases fuel with
    | zero => omega
    | succ fuel =>
      have h' : Holds L (l ++ a :: r) := by simpa using h
      by_cases ha : c a
      · simp only [getLast?_append, getLast?_singleton, Option.some_or,
          DLinks.walkPrev, ha, if_true, h'.prev_eq, reverse_append, reverse_singleton,
          singleton_append, dropWhile_cons]
        exact ih h' (by simpa using hf)
      · simp [DLinks.walkPrev, ha]

end DLinks

/-! ## Singly linked lists -/

/-- The list from the anchor along `next` consists of the nodes `xs`. -/
def Chain (next : α → Option α) : Option α → List α → Prop
  | a, [] => a = none
  | a, x :: xs => a = some x ∧ Chain next (next x) xs

omit [DecidableEq α] in
theorem Chain.congr {next next' : α → Option α} {a : Option α} {xs : List α}
    (h : Chain next a xs) (hn : ∀ x ∈ xs, next' x = next x) : Chain next' a xs := by
  induction xs generalizing a with
  | nil => exact h
  | cons x xs ih =>
    refine ⟨h.1, ?_⟩
    rw [hn x (by simp)]
    exact ih h.2 (fun y hy => hn y (by simp [hy]))

omit [DecidableEq α] in
theorem Path.chain {next prev : α → Option α} {before : Option α} {xs : List α}
    (h : Path next prev before xs none) : Chain next xs.head? xs := by
  induction xs generalizing before with
  | nil => rfl
  | cons x xs ih =>
    refine ⟨rfl, ?_⟩
    rw [h.2.1, Option.or_none]
    exact ih h.2.2

omit [DecidableEq α] in
theorem Chain.unique {next : α → Option α} {a : Option α} {xs ys : List α} (h : Chain next a xs)
    (h' : Chain next a ys) : xs = ys := by
  induction xs generalizing a ys with
  | nil =>
    cases ys with
    | nil => rfl
    | cons y ys => exact absurd (h.symm.trans h'.1) (by simp)
  | cons x xs ih =>
    cases ys with
    | nil => exact absurd (h'.symm.trans h.1) (by simp)
    | cons y ys =>
      obtain rfl : x = y := Option.some.inj (h.1.symm.trans h'.1)
      rw [ih h.2 h'.2]

omit [DecidableEq α] in
theorem DLinks.Holds.unique {L : DLinks α} {xs ys : List α} (h : L.Holds xs) (h' : L.Holds ys) :
    xs = ys := by
  have hchain := h.path.chain
  have hchain' := h'.path.chain
  rw [← h.head] at hchain
  rw [← h'.head] at hchain'
  exact hchain.unique hchain'

end LinkedList
