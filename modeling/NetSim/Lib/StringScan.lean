import Mathlib

/-! # Strings that are scanned by positions

`findFirstOf`, `findFirstNotOf` and `substr` are the operations of a string class whose positions are numbers or
`npos` (here `none`). `token` is what stands between the separators behind a position, and `scanTokens` is the
loop that visits the tokens from left to right. `Starts s p x` says that `x` is what `token` finds there: a token
is read whole (`Starts.token`), and the loop meets all of them (`scanTokens_eq`).
-/

namespace StringScan

open List

variable {α : Type} [DecidableEq α]

abbrev SizeType := Option ℕ

def findFirstOf (s : List α) (c : α) : SizeType → SizeType
  | none => none
  | some p => ((s.drop p).findIdx? (· = c)).map (p + ·)

def findFirstNotOf (s : List α) (c : α) : SizeType → SizeType
  | none => none
  | some p => ((s.drop p).findIdx? (· ≠ c)).map (p + ·)

/-- The difference of two positions, where `none` is more than any string has: `npos` is the greatest number, and
a difference below zero wraps around. -/
def sub : SizeType → SizeType → SizeType
  | some b, some a => if a ≤ b then some (b - a) else none
  | none, some _ => none
  | some b, none => some (b + 1)
  | none, none => some 0

/-- The next position; `npos` wraps around to zero. -/
def next : SizeType → SizeType
  | some p => some (p + 1)
  | none => some 0

def substr (s : List α) (pos : SizeType) (n : SizeType) : Option (List α) :=
  pos.bind (fun p => if p ≤ s.length then some (n.elim (s.drop p) (fun n => (s.drop p).take n)) else none)

def tokenEnd (s : List α) (c : α) (p : SizeType) : SizeType := findFirstOf s c (findFirstNotOf s c p)

def token (s : List α) (c : α) (p : SizeType) : Option (List α) :=
  substr s (findFirstNotOf s c p) (sub (tokenEnd s c p) (findFirstNotOf s c p))

def scanTokens {β : Type} (s : List α) (c : α) (body : β → List α → Option β) : ℕ → SizeType → β → Option β
  | fuel, p, b =>
    if tokenEnd s c p = none ∧ findFirstNotOf s c p = none then some b
    else
      match fuel with
      | 0 => none
      | fuel + 1 => (token s c p).bind (fun t => (body b t).bind (scanTokens s c body fuel (tokenEnd s c p)))

variable {s t rest : List α} {c : α} {p : SizeType} {i : ℕ}

theorem findIdx?_separator (hc : c ∉ t) : t.findIdx? (· = c) = none := by
  rw [findIdx?_eq_none_iff]
  intro x hx
  have hne : x ≠ c := fun heq => hc (heq ▸ hx)
  simpa using hne

theorem findFirstOf_here (hs : s.drop i = t ++ c :: rest) (hc : c ∉ t) :
    findFirstOf s c (some i) = some (i + t.length) := by
  have hfind : (t ++ c :: rest).findIdx? (· = c) = some t.length := by
    rw [findIdx?_append, findIdx?_separator hc, Option.none_or, findIdx?_cons]
    simp
  rw [findFirstOf, hs, hfind]
  rfl

theorem findFirstOf_none (hs : s.drop i = t) (hc : c ∉ t) : findFirstOf s c (some i) = none := by
  rw [findFirstOf, hs, findIdx?_separator hc]
  rfl

structure Starts (s : List α) (c : α) (p : SizeType) (i : ℕ) (x : List α) : Prop where
  first : findFirstNotOf s c p = some i
  drop : s.drop i = x
  inside : i ≤ s.length

theorem starts_zero (hne : t ≠ []) (hc : c ∉ t) (hs : s = t ++ rest) : Starts s c (some 0) 0 s := by
  obtain ⟨x, t, rfl⟩ := exists_cons_of_ne_nil hne
  have hx : x ≠ c := fun heq => hc (heq ▸ mem_cons_self)
  subst hs
  exact ⟨by simp [findFirstNotOf, findIdx?_cons, hx], rfl, Nat.zero_le _⟩

theorem starts_behind (hne : t ≠ []) (hc : c ∉ t) (hs : s.drop i = c :: (t ++ rest)) :
    Starts s c (some i) (i + 1) (t ++ rest) := by
  obtain ⟨x, t, rfl⟩ := exists_cons_of_ne_nil hne
  have hx : x ≠ c := fun heq => hc (heq ▸ mem_cons_self)
  refine ⟨?_, ?_, ?_⟩
  · rw [findFirstNotOf, hs]
    simp [findIdx?_cons, hx]
  · rw [← drop_drop, hs]
    rfl
  · have hlength := congrArg length hs
    rw [length_drop, length_cons] at hlength
    omega

/-- No token is behind the last separator. -/
theorem not_starts (hs : s.drop i = [c]) : findFirstNotOf s c (some i) = none ∧ tokenEnd s c (some i) = none := by
  have hnone : findFirstNotOf s c (some i) = none := by
    rw [findFirstNotOf, hs]
    simp [findIdx?_cons]
  exact ⟨hnone, by rw [tokenEnd, hnone]; rfl⟩

/-- **A token** before a separator is read whole. -/
theorem Starts.token (h : Starts s c p i (t ++ c :: rest)) (hc : c ∉ t) :
    token s c p = some t ∧ tokenEnd s c p = some (i + t.length) ∧ s.drop (i + t.length) = c :: rest := by
  have hend : tokenEnd s c p = some (i + t.length) := by
    rw [tokenEnd, h.first]
    exact findFirstOf_here h.drop hc
  refine ⟨?_, hend, ?_⟩
  · rw [StringScan.token, hend, h.first, sub, if_pos (Nat.le_add_right _ _), Nat.add_sub_cancel_left, substr,
      Option.bind_some, if_pos h.inside, h.drop]
    simp
  · rw [← drop_drop, h.drop, drop_left]

/-- The last token reaches to the end of the string. -/
theorem Starts.last (h : Starts s c p i t) (hc : c ∉ t) : StringScan.token s c p = some t := by
  have hend : tokenEnd s c p = none := by
    rw [tokenEnd, h.first]
    exact findFirstOf_none h.drop hc
  rw [StringScan.token, hend, h.first, sub, substr, Option.bind_some, if_pos h.inside, h.drop]
  rfl

/-! ## The loop -/

variable {β : Type} {body : β → List α → Option β}

/-- The loop visits the token behind the position, and goes on where it ends. -/
theorem scanTokens_step {fuel : ℕ} (h : Starts s c p i (t ++ c :: rest)) (hc : c ∉ t) (b : β) :
    scanTokens s c body (fuel + 1) p b = (body b t).bind (scanTokens s c body fuel (some (i + t.length))) := by
  obtain ⟨htoken, hend, -⟩ := h.token hc
  rw [scanTokens, if_neg (by rw [h.first]; simp), htoken, hend]
  rfl

def joined (c : α) (tokens : List (List α)) : List α := tokens.flatMap (· ++ [c])

omit [DecidableEq α] in
theorem joined_cons (c : α) (t : List α) (tokens : List (List α)) :
    joined c (t :: tokens) = t ++ c :: joined c tokens := by
  rw [joined, flatMap_cons, append_assoc]
  rfl

omit [DecidableEq α] in
theorem length_le_joined (c : α) (tokens : List (List α)) : tokens.length ≤ (joined c tokens).length := by
  induction tokens with
  | nil => exact Nat.zero_le _
  | cons t tokens ih =>
    rw [joined_cons, length_cons, length_append, length_cons]
    omega

/-- The loop from a separator on. -/
theorem scanTokens_behind (tokens : List (List α)) (htokens : ∀ t ∈ tokens, t ≠ [] ∧ c ∉ t) {fuel : ℕ}
    (hfuel : tokens.length ≤ fuel) (hs : s.drop i = c :: joined c tokens) (b : β) :
    scanTokens s c body fuel (some i) b = tokens.foldlM body b := by
  induction tokens generalizing i fuel b with
  | nil =>
    obtain ⟨hfirst, hend⟩ := not_starts hs
    unfold scanTokens
    rw [if_pos ⟨hend, hfirst⟩]
    rfl
  | cons t tokens ih =>
    obtain ⟨hne, hc⟩ := htokens t mem_cons_self
    rw [joined_cons] at hs
    have hstarts := starts_behind hne hc hs
    cases fuel with
    | zero => cases hfuel
    | succ fuel =>
      rw [scanTokens_step hstarts hc, foldlM_cons]
      refine congrArg (Option.bind (body b t)) (funext fun b' => ?_)
      exact ih (fun t' ht' => htokens t' (mem_cons_of_mem _ ht')) (Nat.le_of_succ_le_succ hfuel)
        (hstarts.token hc).2.2 b'

/-- **The loop** meets the tokens from left to right. -/
theorem scanTokens_eq (tokens : List (List α)) (htokens : ∀ t ∈ tokens, t ≠ [] ∧ c ∉ t) {fuel : ℕ}
    (hfuel : tokens.length ≤ fuel) (b : β) :
    scanTokens (joined c tokens) c body fuel (some 0) b = tokens.foldlM body b := by
  cases tokens with
  | nil =>
    unfold scanTokens
    rw [if_pos ⟨rfl, rfl⟩]
    rfl
  | cons t tokens =>
    obtain ⟨hne, hc⟩ := htokens t mem_cons_self
    have hstarts := starts_zero hne hc (joined_cons c t tokens)
    rw [joined_cons] at hstarts ⊢
    cases fuel with
    | zero => cases hfuel
    | succ fuel =>
      rw [scanTokens_step hstarts hc, foldlM_cons]
      refine congrArg (Option.bind (body b t)) (funext fun b' => ?_)
      exact scanTokens_behind tokens (fun t' ht' => htokens t' (mem_cons_of_mem _ ht'))
        (Nat.le_of_succ_le_succ hfuel) (hstarts.token hc).2.2 b'

end StringScan
