import Mathlib
import NetSim.Lib.ForwardList

/-! # Singly linked lists with a tail pointer and a counter

A queue of nodes with the anchors `head` and `tail` and the number of its nodes. An operation fails
(`none`) when it reads through a null pointer. `TailList.Holds L xs` says that the list consists of the
nodes `xs` in this order and that both anchors and the counter are right; the operations keep it and do
to `xs` what their names say. A search gives the node with the one before it, which is what a removal
in the middle of the list needs (`Holds.search`, `Holds.unlink`).
-/

namespace LinkedList

open Function List

structure TailList where
  next : ℕ → Option ℕ
  head : Option ℕ
  tail : Option ℕ
  len : ℤ

namespace TailList

def empty : TailList := { next := fun _ => none, head := none, tail := none, len := 0 }

/-! ## The operations -/

def removeHead (L : TailList) : Option (Option ℕ × TailList) :=
  if L.head = L.tail then
    some (L.head, { L with
      head := none
      tail := none
      len := if L.head.isSome then L.len - 1 else L.len })
  else L.head.map (fun p => (some p, { L with head := L.next p, len := L.len - 1 }))

/-- Take the node `p` behind `prev` off. -/
def unlink (L : TailList) (p : ℕ) (prev : Option ℕ) : Option TailList :=
  if L.head = some p then L.removeHead.map Prod.snd
  else if L.tail = some p then
    prev.map (fun q => { L with next := update L.next q none, tail := some q, len := L.len - 1 })
  else prev.map (fun q => { L with next := update L.next q (L.next p), len := L.len - 1 })

def pushBack (L : TailList) (p : ℕ) : Option TailList :=
  match L.head with
  | none => some { L with head := some p, tail := some p, len := L.len + 1 }
  | some _ =>
    L.tail.map (fun t =>
      { L with next := update L.next t (some p), tail := some p, len := L.len + 1 })

/-- The first node from `a` on that meets a condition, with the node before it. The outer `none`: out of
fuel. -/
def search (L : TailList) (c : ℕ → Bool) : ℕ → Option ℕ → Option ℕ → Option (Option (ℕ × Option ℕ))
  | 0, _, _ => none
  | _ + 1, _, none => some none
  | fuel + 1, prev, some p =>
    if c p then some (some (p, prev)) else search L c fuel (some p) (L.next p)

/-- Count the nodes from `a` on; the last one is `prev` in the end. -/
def census (L : TailList) : ℕ → ℤ → Option ℕ → Option ℕ → Option (ℤ × Option ℕ)
  | 0, _, _, _ => none
  | _ + 1, cnt, prev, none => some (cnt, prev)
  | fuel + 1, cnt, _, some p => census L fuel (cnt + 1) (some p) (L.next p)

/-! ## What they do -/

structure Holds (L : TailList) (xs : List ℕ) : Prop where
  chain : Chain L.next L.head xs
  tail : L.tail = xs.getLast?
  len : L.len = xs.length
  nodup : xs.Nodup

variable {L : TailList} {xs l r : List ℕ} {p : ℕ} {c : ℕ → Bool} {fuel : ℕ}

theorem holds_empty : Holds empty [] := ⟨rfl, rfl, rfl, nodup_nil⟩

theorem Holds.head (h : Holds L xs) : L.head = xs.head? := h.chain.head_eq

theorem Holds.write (h : Holds L xs) (hp : p ∉ xs) (v : Option ℕ) :
    Holds { L with next := update L.next p v } xs := by
  refine ⟨h.chain.congr (fun x hx => ?_), h.tail, h.len, h.nodup⟩
  have hne : x ≠ p := fun he => hp (he ▸ hx)
  exact update_of_ne hne _ _

theorem Holds.removeHead_nil (h : Holds L []) : ∃ L', L.removeHead = some (none, L') ∧ Holds L' [] := by
  have hhead : L.head = none := h.head
  have htail : L.tail = none := h.tail
  refine ⟨{ L with head := none, tail := none }, ?_, rfl, rfl, h.len, nodup_nil⟩
  rw [TailList.removeHead, if_pos (hhead.trans htail.symm), hhead]
  rfl

theorem Holds.removeHead (h : Holds L (p :: xs)) :
    ∃ L', L.removeHead = some (some p, L') ∧ Holds L' xs ∧ L'.next = L.next := by
  have hhead : L.head = some p := h.head
  have hlen := h.len
  rw [length_cons] at hlen
  obtain ⟨hp, hnd⟩ := nodup_cons.mp h.nodup
  cases xs with
  | nil =>
    have htail : L.tail = some p := h.tail
    refine ⟨{ L with head := none, tail := none, len := L.len - 1 }, ?_, ⟨rfl, rfl, ?_, hnd⟩, rfl⟩
    · rw [TailList.removeHead, if_pos (hhead.trans htail.symm), hhead]
      rfl
    · rw [hlen]
      simp
  | cons x xs =>
    have htail : L.tail = (x :: xs).getLast? := by rw [h.tail, getLast?_cons_cons]
    have hne : L.head ≠ L.tail := by
      rw [hhead, htail]
      intro he
      exact hp (mem_of_getLast? he.symm)
    refine ⟨{ L with head := L.next p, len := L.len - 1 }, ?_, ⟨h.chain.tail, htail, ?_, hnd⟩, rfl⟩
    · rw [TailList.removeHead, if_neg hne, hhead, Option.map_some]
    · show L.len - 1 = _
      omega

theorem Holds.unlink (h : Holds L (l ++ p :: r)) :
    ∃ L', L.unlink p l.getLast? = some L' ∧ Holds L' (l ++ r) := by
  obtain ⟨-, hr, hpl, hpr, -⟩ := nodup_middle h.nodup
  rcases eq_nil_or_concat l with rfl | ⟨l, q, hl⟩
  · obtain ⟨L', hremove, h', -⟩ := Holds.removeHead h
    have hhead : L.head = some p := h.head
    exact ⟨L', by rw [TailList.unlink, if_pos hhead, hremove, Option.map_some], h'⟩
  · rw [concat_eq_append] at hl
    subst hl
    have hshape : (l ++ [q]) ++ p :: r = l ++ q :: p :: r := by simp
    have hnd := h.nodup
    have hhead : L.head ≠ some p := by
      rw [h.head, head?_append_of_ne_nil _ (by simp)]
      exact fun he => hpl (mem_of_head? he)
    have hlen : L.len - 1 = (((l ++ [q]) ++ r).length : ℤ) := by
      rw [h.len]
      simp only [length_append, length_cons]
      omega
    have hnd' : ((l ++ [q]) ++ r).Nodup := hnd.sublist (by simp)
    have hchain := h.chain
    rw [hshape] at hchain hnd
    have hremove : ∀ v, v = L.next p → Chain (update L.next q v) L.head ((l ++ [q]) ++ r) := by
      intro v hv
      rw [append_assoc, singleton_append]
      exact hchain.removeAfter hnd (by rw [update_self, hv])
        (fun x hx => update_of_ne hx _ _)
    have hnext : L.next p = r.head? := h.chain.next_eq
    rw [TailList.unlink, if_neg hhead, getLast?_append, getLast?_singleton, Option.some_or]
    cases r with
    | nil =>
      have htail : L.tail = some p := by rw [h.tail]; simp
      rw [if_pos htail, Option.map_some]
      exact ⟨_, rfl, hremove none hnext.symm, by simp, hlen, hnd'⟩
    | cons x r =>
      have htail : L.tail = (x :: r).getLast? := by
        rw [h.tail, getLast?_append_cons, getLast?_cons_cons]
      have hne : L.tail ≠ some p := by
        rw [htail]
        exact fun he => hpr (mem_of_getLast? he)
      rw [if_neg hne, Option.map_some]
      refine ⟨_, rfl, hremove _ rfl, ?_, hlen, hnd'⟩
      rw [htail, getLast?_append_cons]

theorem Holds.pushBack (h : Holds L xs) (hp : p ∉ xs) (hlast : L.next p = none) :
    ∃ L', L.pushBack p = some L' ∧ Holds L' (xs ++ [p]) := by
  have hnd : (xs ++ [p]).Nodup :=
    List.nodup_append.mpr ⟨h.nodup, nodup_singleton p, fun a ha b hb he => by
      rw [mem_singleton.mp hb] at he
      exact hp (he ▸ ha)⟩
  have hlen : L.len + 1 = ((xs ++ [p]).length : ℤ) := by
    rw [h.len, length_append, length_singleton]
    rfl
  rcases eq_nil_or_concat xs with rfl | ⟨l, t, hl⟩
  · have hhead : L.head = none := h.head
    refine ⟨{ L with head := some p, tail := some p, len := L.len + 1 }, ?_, ⟨rfl, hlast⟩, rfl, hlen, hnd⟩
    rw [TailList.pushBack, hhead]
  · rw [concat_eq_append] at hl
    subst hl
    obtain ⟨a, hhead⟩ : ∃ a, L.head = some a := by
      rw [h.head]
      cases l with
      | nil => exact ⟨t, rfl⟩
      | cons a l => exact ⟨a, rfl⟩
    have htail : L.tail = some t := by rw [h.tail]; simp
    refine ⟨{ L with next := update L.next t (some p), tail := some p, len := L.len + 1 },
      ?_, ?_, by simp, hlen, hnd⟩
    · rw [TailList.pushBack, hhead]
      rw [htail, Option.map_some]
    · have hne : p ≠ t := fun he => hp (by simp [he])
      have hnew : update L.next t (some p) p = none := by
        rw [update_of_ne hne, hlast]
      rw [append_assoc]
      exact h.chain.insertAfter h.nodup hp hnew (update_self _ _ _)
        (fun x hx _ => update_of_ne hx _ _)

/-- **A search** finds the first node that meets the condition, if there is one. -/
theorem Holds.searchFrom (h : Holds L (l ++ r)) (hf : r.length < fuel) :
    (∀ x ∈ r, c x = false) ∧ L.search c fuel l.getLast? r.head? = some none ∨
      ∃ m p t, r = m ++ p :: t ∧ (∀ x ∈ m, c x = false) ∧ c p = true ∧
        L.search c fuel l.getLast? r.head? = some (some (p, (l ++ m).getLast?)) := by
  induction r generalizing l fuel with
  | nil =>
    obtain ⟨fuel, rfl⟩ : ∃ k, fuel = k + 1 := ⟨fuel - 1, by omega⟩
    exact Or.inl ⟨by simp, rfl⟩
  | cons x r ih =>
    obtain ⟨fuel, rfl⟩ : ∃ k, fuel = k + 1 := ⟨fuel - 1, by omega⟩
    rw [head?_cons, search]
    cases hc : c x with
    | true => exact Or.inr ⟨[], x, r, rfl, by simp, hc, by simp⟩
    | false =>
      have h' : Holds L ((l ++ [x]) ++ r) := by simpa using h
      have hnext : L.next x = r.head? := h.chain.next_eq
      rcases ih h' (by simpa using hf) with ⟨hall, hfind⟩ | ⟨m, p, t, rfl, hm, hp, hfind⟩
      · refine Or.inl ⟨by simpa [hc] using hall, ?_⟩
        simpa [hnext] using hfind
      · refine Or.inr ⟨x :: m, p, t, rfl, by simpa [hc] using hm, hp, ?_⟩
        simpa [hnext] using hfind

theorem Holds.search (h : Holds L xs) (hf : xs.length < fuel) :
    (∀ x ∈ xs, c x = false) ∧ L.search c fuel none L.head = some none ∨
      ∃ m p t, xs = m ++ p :: t ∧ (∀ x ∈ m, c x = false) ∧ c p = true ∧
        L.search c fuel none L.head = some (some (p, m.getLast?)) := by
  have := @Holds.searchFrom L [] xs c fuel h hf
  rwa [← h.head] at this

theorem Holds.found (h : Holds L (l ++ p :: r)) :
    L.head = some p ∧ l.getLast? = none ∨ ∃ q, l.getLast? = some q ∧ L.next q = some p := by
  rcases eq_nil_or_concat l with rfl | ⟨l, q, hl⟩
  · exact Or.inl ⟨h.head, rfl⟩
  · rw [concat_eq_append] at hl
    subst hl
    refine Or.inr ⟨q, by simp, ?_⟩
    have hchain := h.chain
    rw [append_assoc, singleton_append] at hchain
    exact hchain.next_eq

theorem Holds.censusFrom (h : Holds L (l ++ r)) (hf : r.length < fuel) (cnt : ℤ) :
    L.census fuel cnt l.getLast? r.head? = some (cnt + r.length, (l ++ r).getLast?) := by
  induction r generalizing l fuel cnt with
  | nil =>
    obtain ⟨fuel, rfl⟩ : ∃ k, fuel = k + 1 := ⟨fuel - 1, by omega⟩
    simp [census]
  | cons x r ih =>
    obtain ⟨fuel, rfl⟩ : ∃ k, fuel = k + 1 := ⟨fuel - 1, by omega⟩
    have h' : Holds L ((l ++ [x]) ++ r) := by simpa using h
    have hrest := ih h' (by simpa using hf) (cnt + 1)
    rw [getLast?_append, getLast?_singleton, Option.some_or, append_assoc,
      singleton_append] at hrest
    rw [head?_cons, census, h.chain.next_eq, hrest, length_cons]
    push_cast
    rw [add_assoc, add_comm 1]

/-- **The counter and the tail are what a walk along the list finds.** -/
theorem Holds.census (h : Holds L xs) (hf : xs.length < fuel) :
    L.census fuel 0 none L.head = some (L.len, L.tail) := by
  have := @Holds.censusFrom L [] xs fuel h hf 0
  rw [h.head, h.len, h.tail]
  simpa using this

end TailList

end LinkedList
