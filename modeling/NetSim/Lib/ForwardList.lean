import NetSim.Lib.LinkedList

/-! # Singly linked lists

`Chain next a xs` says that the nodes from `a` on are `xs`. Linking a node behind another one
(`Chain.insertAfter`) and unlinking the node behind another one (`Chain.removeAfter`) are the list
operations that they look like, and so is a search for a node and the one before it
(`Chain.findFrom`).
-/

namespace LinkedList

open List

variable {next next' : ℕ → Option ℕ} {a : Option ℕ} {l r : List ℕ} {p g n : ℕ}

theorem Chain.next_eq (h : Chain next a (l ++ p :: r)) : next p = r.head? := by
  induction l generalizing a with
  | nil =>
    cases r with
    | nil => exact h.2
    | cons x r => exact h.2.1
  | cons x l ih => exact ih h.2

theorem Chain.head_eq {xs : List ℕ} (h : Chain next a xs) : a = xs.head? := by
  cases xs with
  | nil => exact h
  | cons x xs => exact h.1

theorem Chain.tail {x : ℕ} {xs : List ℕ} (h : Chain next a (x :: xs)) : Chain next (next x) xs := h.2

theorem Chain.insertAfter (h : Chain next a (l ++ p :: r)) (hnd : (l ++ p :: r).Nodup)
    (hn : n ∉ l ++ p :: r) (hnew : next' n = r.head?) (hp : next' p = some n)
    (hsame : ∀ x, x ≠ p → x ≠ n → next' x = next x) :
    Chain next' a (l ++ p :: n :: r) := by
  induction l generalizing a with
  | nil =>
    obtain ⟨rfl, hr⟩ := h
    refine ⟨rfl, hp, ?_⟩
    rw [hnew]
    rw [hr.head_eq] at hr
    refine hr.congr (fun x hx => hsame x (fun he => ?_) (fun he => ?_))
    · exact (nodup_cons.mp hnd).1 (he ▸ hx)
    · exact hn (he ▸ mem_cons_of_mem p hx)
  | cons x l ih =>
    obtain ⟨rfl, hl⟩ := h
    obtain ⟨hx, hnd'⟩ := nodup_cons.mp hnd
    have hxp : x ≠ p := fun he => hx (he ▸ by simp)
    have hxn : x ≠ n := fun he => hn (he ▸ by simp)
    refine ⟨rfl, ?_⟩
    rw [hsame x hxp hxn]
    exact ih hl hnd' (fun hmem => hn (mem_cons_of_mem x hmem))

theorem Chain.removeAfter (h : Chain next a (l ++ p :: g :: r)) (hnd : (l ++ p :: g :: r).Nodup)
    (hp : next' p = next g) (hsame : ∀ x, x ≠ p → next' x = next x) :
    Chain next' a (l ++ p :: r) := by
  induction l generalizing a with
  | nil =>
    obtain ⟨rfl, -, hr⟩ := h
    refine ⟨rfl, ?_⟩
    rw [hp]
    refine hr.congr (fun x hx => hsame x (fun he => ?_))
    exact (nodup_cons.mp hnd).1 (he ▸ mem_cons_of_mem g hx)
  | cons x l ih =>
    obtain ⟨rfl, hl⟩ := h
    obtain ⟨hx, hnd'⟩ := nodup_cons.mp hnd
    have hxp : x ≠ p := fun he => hx (he ▸ by simp)
    refine ⟨rfl, ?_⟩
    rw [hsame x hxp]
    exact ih hl hnd'

/-- The first node from `g` on that meets a condition, with the node before it; `none` when the search
runs off the list. -/
def findFrom (next : ℕ → Option ℕ) (c : ℕ → Bool) : ℕ → ℕ → Option ℕ → Option (ℕ × ℕ)
  | 0, _, _ => none
  | _ + 1, _, none => none
  | fuel + 1, p, some g => if c g then some (p, g) else findFrom next c fuel g (next g)

theorem Chain.findFrom {c : ℕ → Bool} {fuel : ℕ} (h : Chain next a (l ++ p :: r))
    (hr : ∃ g ∈ r, c g) (hfuel : r.length < fuel) :
    ∃ m q g t, l ++ p :: r = m ++ q :: g :: t ∧ c g ∧
      LinkedList.findFrom next c fuel p r.head? = some (q, g) := by
  induction r generalizing l p fuel with
  | nil =>
    obtain ⟨g, hg, -⟩ := hr
    exact absurd hg not_mem_nil
  | cons x r ih =>
    obtain ⟨fuel, rfl⟩ : ∃ k, fuel = k + 1 := ⟨fuel - 1, by omega⟩
    rw [head?_cons]
    by_cases hc : c x
    · refine ⟨l, p, x, r, rfl, hc, ?_⟩
      rw [LinkedList.findFrom, if_pos hc]
    · have h' : Chain next a ((l ++ [p]) ++ x :: r) := by simpa using h
      obtain ⟨g, hg, hcg⟩ := hr
      have hgr : g ∈ r := by
        rcases mem_cons.mp hg with rfl | hg
        · exact absurd hcg hc
        · exact hg
      obtain ⟨m, q, g', t, hsplit, hc', hfind⟩ := ih h' ⟨g, hgr, hcg⟩ (by simpa using hfuel)
      refine ⟨m, q, g', t, by simpa using hsplit, hc', ?_⟩
      rw [LinkedList.findFrom, if_neg hc, h'.next_eq]
      exact hfind

end LinkedList
