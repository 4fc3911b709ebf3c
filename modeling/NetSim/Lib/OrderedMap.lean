import Mathlib

/-! # Ordered maps

A map kept as the list of its entries in ascending order of the keys, with the order as part of the
map: a walk over it meets the keys in order, and the first entry is the one with the smallest key.
`find?` is the lookup. `set` writes an entry, `insert` only one that is not there, `mapVals` changes all
values, `erase` and `eraseBegin` take entries out.
-/

/-- A map from keys to values, in ascending order of the keys. -/
structure OrderedMap (κ α : Type) [LinearOrder κ] where
  entries : List (κ × α)
  sorted : entries.Pairwise (fun a b => a.1 < b.1)

namespace OrderedMap

open List

variable {κ α : Type} [LinearOrder κ]

instance [DecidableEq α] : DecidableEq (OrderedMap κ α) := fun m n =>
  decidable_of_iff (m.entries = n.entries)
    ⟨fun h => by cases m; cases n; cases h; rfl, fun h => h ▸ rfl⟩

/-! ## Entries -/

def lookup (k : κ) : List (κ × α) → Option α
  | [] => none
  | e :: es => if e.1 = k then some e.2 else lookup k es

/-- Write an entry at its place in the order. -/
def put (k : κ) (a : α) : List (κ × α) → List (κ × α)
  | [] => [(k, a)]
  | e :: es =>
    if k < e.1 then (k, a) :: e :: es
    else if k = e.1 then (k, a) :: es
    else e :: put k a es

theorem mem_put {k : κ} {a : α} {e : κ × α} {es : List (κ × α)} (h : e ∈ put k a es) :
    e = (k, a) ∨ e ∈ es := by
  induction es with
  | nil => exact .inl (mem_singleton.mp h)
  | cons f es ih =>
    rw [put] at h
    split_ifs at h with hlt heq
    · rcases mem_cons.mp h with h | h
      · exact .inl h
      · exact .inr h
    · rcases mem_cons.mp h with h | h
      · exact .inl h
      · exact .inr (mem_cons_of_mem _ h)
    · rcases mem_cons.mp h with h | h
      · exact .inr (h ▸ mem_cons_self)
      · exact (ih h).imp_right (mem_cons_of_mem _)

theorem sorted_put {k : κ} {a : α} {es : List (κ × α)}
    (h : es.Pairwise (fun a b => a.1 < b.1)) :
    (put k a es).Pairwise (fun a b => a.1 < b.1) := by
  induction es with
  | nil => exact pairwise_singleton _ _
  | cons f es ih =>
    obtain ⟨hf, hes⟩ := pairwise_cons.mp h
    rw [put]
    split_ifs with hlt heq
    · apply List.Pairwise.cons _ h
      intro e he
      rcases mem_cons.mp he with rfl | he
      · exact hlt
      · exact lt_trans hlt (hf e he)
    · subst heq
      exact List.Pairwise.cons (fun e he => hf e he) hes
    · apply List.Pairwise.cons _ (ih hes)
      intro e he
      rcases mem_put he with rfl | he
      · exact lt_of_le_of_ne (not_lt.mp hlt) (Ne.symm heq)
      · exact hf e he

theorem lookup_put_self {k : κ} {a : α} {es : List (κ × α)} : lookup k (put k a es) = some a := by
  induction es with
  | nil => simp [put, lookup]
  | cons f es ih =>
    rw [put]
    split_ifs with hlt heq
    · simp [lookup]
    · simp [lookup]
    · rw [lookup, if_neg (Ne.symm heq), ih]

theorem lookup_put_of_ne {k j : κ} {a : α} {es : List (κ × α)} (h : j ≠ k) :
    lookup j (put k a es) = lookup j es := by
  induction es with
  | nil => simp [put, lookup, Ne.symm h]
  | cons f es ih =>
    rw [put]
    split_ifs with hlt heq
    · rw [lookup, if_neg (Ne.symm h)]
    · rw [lookup, if_neg (Ne.symm h), lookup, if_neg (heq ▸ Ne.symm h)]
    · rw [lookup, lookup, ih]

theorem lookup_eq_none {k : κ} {es : List (κ × α)} (h : ∀ e ∈ es, e.1 ≠ k) :
    lookup k es = none := by
  induction es with
  | nil => rfl
  | cons f es ih =>
    rw [lookup, if_neg (h f mem_cons_self)]
    exact ih (fun e he => h e (mem_cons_of_mem _ he))

theorem mem_of_lookup {k : κ} {a : α} {es : List (κ × α)} (h : lookup k es = some a) :
    (k, a) ∈ es := by
  induction es with
  | nil => cases h
  | cons f es ih =>
    rw [lookup] at h
    split_ifs at h with heq
    · cases h
      cases heq
      exact mem_cons_self
    · exact mem_cons_of_mem _ (ih h)

theorem lookup_of_mem {k : κ} {a : α} {es : List (κ × α)}
    (hs : es.Pairwise (fun a b => a.1 < b.1)) (h : (k, a) ∈ es) : lookup k es = some a := by
  induction es with
  | nil => cases h
  | cons f es ih =>
    obtain ⟨hf, hes⟩ := pairwise_cons.mp hs
    rw [lookup]
    rcases mem_cons.mp h with rfl | h
    · rw [if_pos rfl]
    · rw [if_neg (ne_of_lt (hf _ h)), ih hes h]

/-- Where the key is there, only its own entry changes. -/
theorem put_of_lookup {k : κ} {a b : α} {es : List (κ × α)} (hs : es.Pairwise (fun a b => a.1 < b.1))
    (h : lookup k es = some b) : put k a es = es.map (fun e => if e.1 = k then (k, a) else e) := by
  induction es with
  | nil => cases h
  | cons f es ih =>
    obtain ⟨hf, hes⟩ := pairwise_cons.mp hs
    rw [lookup] at h
    rw [put, map_cons]
    by_cases heq : f.1 = k
    · -- all later keys are greater
      have hrest : ∀ e ∈ es, (if e.1 = k then (k, a) else e) = e :=
        fun e he => if_neg (ne_of_gt (heq ▸ hf e he))
      rw [if_neg (by simp [heq]), if_pos heq.symm, if_pos heq, map_congr_left hrest, map_id']
    · rw [if_neg heq] at h
      have hlt : f.1 < k := hf (k, b) (mem_of_lookup h)
      rw [if_neg (not_lt.mpr hlt.le), if_neg (Ne.symm heq), if_neg heq, ih hes h]

/-! ## Operations -/

def empty : OrderedMap κ α := ⟨[], List.Pairwise.nil⟩

instance : Inhabited (OrderedMap κ α) := ⟨empty⟩

def find? (m : OrderedMap κ α) (k : κ) : Option α := lookup k m.entries

def size (m : OrderedMap κ α) : ℕ := m.entries.length

def set (m : OrderedMap κ α) (k : κ) (a : α) : OrderedMap κ α :=
  ⟨put k a m.entries, sorted_put m.sorted⟩

def insert (m : OrderedMap κ α) (k : κ) (a : α) : Option (OrderedMap κ α) :=
  if (m.find? k).isSome then none else some (m.set k a)

def erase (m : OrderedMap κ α) (k : κ) : OrderedMap κ α :=
  ⟨m.entries.filter (fun e => e.1 ≠ k), m.sorted.filter _⟩

def mapVals (m : OrderedMap κ α) (f : κ → α → α) : OrderedMap κ α :=
  ⟨m.entries.map (fun e => (e.1, f e.1 e.2)), pairwise_map.mpr m.sorted⟩

def eraseBegin (m : OrderedMap κ α) : OrderedMap κ α := ⟨m.entries.tail, m.sorted.tail⟩

def begin? (m : OrderedMap κ α) : Option κ := m.entries.head?.map Prod.fst

/-! ## Lookups -/

variable {m : OrderedMap κ α} {k j : κ} {a b : α}

theorem find?_eq_some : m.find? k = some a ↔ (k, a) ∈ m.entries :=
  ⟨mem_of_lookup, lookup_of_mem m.sorted⟩

@[simp] theorem find?_set_self : (m.set k a).find? k = some a := lookup_put_self

theorem find?_set_of_ne (h : j ≠ k) : (m.set k a).find? j = m.find? j := lookup_put_of_ne h

theorem find?_set : (m.set k a).find? j = if j = k then some a else m.find? j := by
  split_ifs with h
  · rw [h, find?_set_self]
  · exact find?_set_of_ne h

theorem entries_set (h : m.find? k = some b) :
    (m.set k a).entries = m.entries.map (fun e => if e.1 = k then (k, a) else e) :=
  put_of_lookup m.sorted h

theorem insert_eq_some {n : OrderedMap κ α} :
    m.insert k a = some n ↔ m.find? k = none ∧ n = m.set k a := by
  rw [insert]
  cases h : m.find? k with
  | none => simp [eq_comm]
  | some b => simp

@[simp] theorem find?_erase_self : (m.erase k).find? k = none := by
  apply lookup_eq_none
  intro e he
  simpa using (mem_filter.mp he).2

theorem find?_erase_of_ne (h : j ≠ k) : (m.erase k).find? j = m.find? j := by
  apply Option.ext
  intro a
  rw [find?_eq_some, find?_eq_some, erase, mem_filter]
  simp [h]

theorem find?_eraseBegin_of_ne (h : m.begin? ≠ some j) : m.eraseBegin.find? j = m.find? j := by
  apply Option.ext
  intro a
  rw [find?_eq_some, find?_eq_some]
  show (j, a) ∈ m.entries.tail ↔ _
  cases hm : m.entries with
  | nil => rfl
  | cons e es =>
    rw [tail_cons, mem_cons]
    constructor
    · exact .inr
    · rintro (rfl | hin)
      · exact absurd (by rw [begin?, hm]; rfl) h
      · exact hin

theorem find?_of_eraseBegin (h : m.eraseBegin.find? j = some a) : m.find? j = some a := by
  rw [find?_eq_some] at h ⊢
  exact mem_of_mem_tail h

theorem find?_of_erase (h : (m.erase k).find? j = some a) : m.find? j = some a := by
  rw [find?_eq_some] at h ⊢
  exact mem_of_mem_filter h

/-! ## Sums over the entries -/

section Sums

variable {M : Type} [AddCommMonoid M]

def sum (f : κ → α → M) (m : OrderedMap κ α) : M := (m.entries.map (fun e => f e.1 e.2)).sum

variable {f : κ → α → M}

theorem sum_put {es : List (κ × α)} (hs : es.Pairwise (fun a b => a.1 < b.1)) :
    ((put k a es).map (fun e => f e.1 e.2)).sum + ((lookup k es).elim 0 (f k)) =
      (es.map (fun e => f e.1 e.2)).sum + f k a := by
  induction es with
  | nil => simp [put, lookup]
  | cons e es ih =>
    obtain ⟨he, hes⟩ := pairwise_cons.mp hs
    rw [put, lookup]
    rcases lt_trichotomy k e.1 with hlt | heq | hgt
    · have hnone : lookup k es = none :=
        lookup_eq_none (fun e' h' => (hlt.trans (he e' h')).ne')
      rw [if_pos hlt, if_neg hlt.ne', hnone]
      simp [add_comm]
    · subst heq
      rw [if_neg (lt_irrefl _), if_pos rfl, if_pos rfl]
      simp only [map_cons, sum_cons, Option.elim_some]
      ac_rfl
    · rw [if_neg hgt.not_gt, if_neg hgt.ne', if_neg hgt.ne, map_cons, sum_cons,
        add_assoc, ih hes, map_cons, sum_cons, add_assoc]

theorem sum_set : (m.set k a).sum f + (m.find? k).elim 0 (f k) = m.sum f + f k a := sum_put m.sorted

theorem sum_filter {es : List (κ × α)} (hs : es.Pairwise (fun a b => a.1 < b.1)) :
    ((es.filter (fun e => e.1 ≠ k)).map (fun e => f e.1 e.2)).sum + ((lookup k es).elim 0 (f k)) =
      (es.map (fun e => f e.1 e.2)).sum := by
  induction es with
  | nil => simp [lookup]
  | cons e es ih =>
    obtain ⟨he, hes⟩ := pairwise_cons.mp hs
    rw [lookup]
    by_cases heq : e.1 = k
    · subst heq
      have hkeep : es.filter (fun e' => e'.1 ≠ e.1) = es :=
        filter_eq_self.mpr (fun e' h' => by simpa using (he e' h').ne')
      rw [if_pos rfl, filter_cons_of_neg (by simp), hkeep, map_cons, sum_cons,
        Option.elim_some, add_comm]
    · rw [if_neg heq, filter_cons_of_pos (by simpa using heq), map_cons, sum_cons,
        add_assoc, ih hes, map_cons, sum_cons]

theorem sum_erase : (m.erase k).sum f + (m.find? k).elim 0 (f k) = m.sum f := sum_filter m.sorted

end Sums

end OrderedMap
