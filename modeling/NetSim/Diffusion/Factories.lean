import Mathlib
import NetSim.Lib.Runs

/-! # Attribute factories

The list of all factories of diffusion attributes, and the check of a new one against it
(`NRAttributeFactory::verify_unique`, `diffusion3/lib/nr/nr.cc`). An address is the number of a factory.
-/

namespace NetSim.Diffusion

open List

structure NRAttributeFactory where
  key : BitVec 16
  type : BitVec 8
  next : Option ℕ
  deriving DecidableEq

/-- All factories that there are, and the anchor of their list. -/
structure Factories where
  heap : List NRAttributeFactory
  first : Option ℕ

namespace Factories

/-- The constructor takes two numbers of type `int`. -/
abbrev Registration := ℤ × ℤ

def keyOf (r : Registration) : BitVec 16 := BitVec.ofInt 16 r.1

def typeOf (r : Registration) : BitVec 8 := BitVec.ofInt 8 r.2

def empty : Factories := { heap := [], first := none }

inductive Search where
  | found (i : NRAttributeFactory)
  | absent (last : Option ℕ)

/-- The loop over the list; `none` when it does not end. -/
def search (heap : List NRAttributeFactory) (key : BitVec 16) : ℕ → Option ℕ → Option ℕ → Option Search
  | _, none, last => some (.absent last)
  | 0, some _, _ => none
  | fuel + 1, some a, _ =>
    (heap[a]?).bind (fun i => if key = i.key then some (.found i) else search heap key fuel i.next (some a))

/-- The new factory is at the address `baby`. The outer `none`: the loop does not end; the inner one: the
assertion fails. -/
def verifyUnique (t : Factories) (baby : ℕ) (r : Registration) : Option (Option Factories) :=
  (search t.heap (keyOf r) t.heap.length t.first none).map (fun
    | .found i => if typeOf r = i.type then some t else none
    | .absent last =>
      some { heap := last.elim t.heap (fun l => t.heap.modify l (fun i => { i with next := t.first }))
             first := some baby })

def register (t : Factories) (r : Registration) : Option (Option Factories) :=
  verifyUnique { t with heap := t.heap ++ [⟨keyOf r, typeOf r, none⟩] } t.heap.length r

def step (t : Factories) (r : Registration) : Option (Factories × Unit) :=
  (register t r).join.map (fun t' => (t', ()))

/-- The keys along the list, if it ends. -/
def keysFrom (heap : List NRAttributeFactory) : ℕ → Option ℕ → Option (List (BitVec 16))
  | _, none => some []
  | 0, some _ => none
  | fuel + 1, some a => (heap[a]?).bind (fun i => (keysFrom heap fuel i.next).map (fun ks => i.key :: ks))

def keys (t : Factories) : Option (List (BitVec 16)) := keysFrom t.heap t.heap.length t.first

/-! ## The check that was meant -/

/-- What the registration `r`, after those of `past`, has to do. -/
structure Checked (past : List Registration) (r : Registration) (result : Option (Option Factories)) :
    Prop where
  ends : result ≠ none
  asserts : result = some none ↔ ∃ r' ∈ past, keyOf r' = keyOf r ∧ typeOf r' ≠ typeOf r
  lists : ∀ t, result = some (some t) →
    ∃ ks, t.keys = some ks ∧ ks.Nodup ∧ ∀ k, k ∈ ks ↔ ∃ r' ∈ past ++ [r], keyOf r' = k

def AllChecked (rs : List Registration) : Prop :=
  ∀ past r t outs, past ++ [r] <+: rs → Runs.run step empty past = some (t, outs) →
    Checked past r (register t r)

def SameKey (t : Factories) (r : Registration) : Prop :=
  ∀ a ∈ t.first, ∀ i ∈ t.heap[a]?, i.key = keyOf r

/-! ## One registration -/

variable {t t' : Factories} {r : Registration} {past rs : List Registration} {i : NRAttributeFactory} {a : ℕ}

/-- The member of the list at `a` is the only one. -/
structure Only (t : Factories) (a : ℕ) (i : NRAttributeFactory) : Prop where
  first : t.first = some a
  get : t.heap[a]? = some i
  next : i.next = none

/-- **The list has at most one member**, the factory that was linked last. -/
def Single (past : List Registration) (t : Factories) : Prop :=
  (t.first = none ∧ past = []) ∨ ∃ a i, t.Only a i ∧ ∃ r ∈ past, keyOf r = i.key ∧ typeOf r = i.type

theorem Only.keys (h : t.Only a i) : t.keys = some [i.key] := by
  have hlt : a < t.heap.length := (List.getElem?_eq_some_iff.mp h.get).1
  obtain ⟨n, hn⟩ : ∃ n, t.heap.length = n + 1 := ⟨t.heap.length - 1, by omega⟩
  rw [Factories.keys, hn, h.first, keysFrom, h.get, Option.bind_some, h.next, keysFrom]
  rfl

theorem get_append (hget : t.heap[a]? = some i) (j : NRAttributeFactory) : (t.heap ++ [j])[a]? = some i := by
  rw [getElem?_append_left (List.getElem?_eq_some_iff.mp hget).1, hget]

theorem Only.register_found (h : t.Only a i) (hkey : keyOf r = i.key) :
    register t r = some (if typeOf r = i.type then
      some ⟨t.heap ++ [⟨keyOf r, typeOf r, none⟩], t.first⟩ else none) := by
  rw [register, verifyUnique, h.first, length_append, length_singleton, search, get_append h.get,
    Option.bind_some, if_pos hkey, Option.map_some]

/-- A factory with a new key becomes the only member: the link of the old one now leads to itself. -/
theorem Single.register_new (h : Single past t)
    (hnew : ∀ a ∈ t.first, ∀ i ∈ t.heap[a]?, i.key ≠ keyOf r) :
    ∃ t' a, register t r = some (some t') ∧ t'.Only a ⟨keyOf r, typeOf r, none⟩ := by
  rcases h with ⟨hfirst, -⟩ | ⟨a, i, h, -⟩
  · refine ⟨⟨_, some t.heap.length⟩, t.heap.length, ?_, ⟨rfl, getElem?_concat_length, rfl⟩⟩
    rw [register, verifyUnique, hfirst, search]
    rfl
  · have hkey : ¬ keyOf r = i.key := fun heq => hnew a h.first i h.get heq.symm
    have hlt : a < t.heap.length := (List.getElem?_eq_some_iff.mp h.get).1
    refine ⟨⟨(t.heap ++ [(⟨keyOf r, typeOf r, none⟩ : NRAttributeFactory)]).modify a
      (fun i => { i with next := some a }), some t.heap.length⟩, t.heap.length, ?_, ⟨rfl, ?_, rfl⟩⟩
    · rw [register, verifyUnique, h.first, length_append, length_singleton, search, get_append h.get,
        Option.bind_some, if_neg hkey, h.next, search]
      rfl
    · rw [getElem?_modify_ne _ _ hlt.ne]
      exact getElem?_concat_length

/-- What a registration does, when its assertion holds. -/
theorem Single.register_cases (h : Single past t) (hr : register t r = some (some t')) :
    (∃ a, t'.Only a ⟨keyOf r, typeOf r, none⟩ ∧ ∀ a ∈ t.first, ∀ i ∈ t.heap[a]?, i.key ≠ keyOf r) ∨
      ∃ a i, t.Only a i ∧ t'.Only a i ∧ keyOf r = i.key ∧ typeOf r = i.type := by
  by_cases hnew : ∀ a ∈ t.first, ∀ i ∈ t.heap[a]?, i.key ≠ keyOf r
  · obtain ⟨t'', a, hr', honly⟩ := h.register_new hnew
    rw [hr'] at hr
    cases hr
    exact .inl ⟨a, honly, hnew⟩
  · push Not at hnew
    obtain ⟨a, hfirst, i, hget, hkey⟩ := hnew
    rcases h with ⟨hnil, -⟩ | ⟨a', i', h, -⟩
    · rw [hnil] at hfirst
      cases hfirst
    · cases h.first.symm.trans hfirst
      cases h.get.symm.trans hget
      rw [h.register_found hkey.symm, Option.some.injEq] at hr
      split_ifs at hr with htype
      · cases hr
        exact .inr ⟨a, i, h, ⟨h.first, get_append h.get _, h.next⟩, hkey.symm, htype⟩

theorem Single.step (h : Single past t) (hr : register t r = some (some t')) : Single (past ++ [r]) t' := by
  rcases h.register_cases hr with ⟨a, honly, -⟩ | ⟨a, i, -, honly, hr⟩
  · exact .inr ⟨a, _, honly, r, by simp, rfl, rfl⟩
  · exact .inr ⟨a, i, honly, r, by simp, hr⟩

/-! ## All registrations -/

/-- All factories so far are copies of the member of the list. -/
def Copies (past : List Registration) (t : Factories) : Prop :=
  ∀ a i, t.Only a i → ∀ r ∈ past, keyOf r = i.key ∧ typeOf r = i.type

theorem Only.unique {a' : ℕ} {i' : NRAttributeFactory} (h : t.Only a i) (h' : t.Only a' i') : i = i' := by
  cases h.first.symm.trans h'.first
  exact Option.some.inj (h.get.symm.trans h'.get)

theorem Copies.step (h : Copies past t) (hsingle : Single past t) (hsame : SameKey t r)
    (hr : register t r = some (some t')) : Copies (past ++ [r]) t' := by
  intro a i honly r' hmem
  rcases hsingle.register_cases hr with ⟨a', honly', hnew⟩ | ⟨a', i', hold, honly', hcopy⟩
  · cases honly.unique honly'
    rcases hsingle with ⟨-, rfl⟩ | ⟨b, j, hold, -⟩
    · rw [nil_append, mem_singleton] at hmem
      exact ⟨congrArg keyOf hmem, congrArg typeOf hmem⟩
    · exact absurd (hsame b hold.first j hold.get) (hnew b hold.first j hold.get)
  · cases honly.unique honly'
    rcases mem_append.mp hmem with hpast | hlast
    · exact h a' i hold r' hpast
    · rw [mem_singleton.mp hlast]
      exact hcopy

theorem step_eq (hs : step t r = some (t', ())) : register t r = some (some t') := by
  obtain ⟨t'', hjoin, heq⟩ := Option.map_eq_some_iff.mp hs
  cases heq
  exact Option.join_eq_some_iff.mp hjoin

/-- By induction on the registrations. -/
theorem single_of_run {outs : List Unit} (hrun : Runs.run step empty past = some (t, outs)) : Single past t :=
  @Runs.run_keeps _ _ _ _ (fun _ _ => True) _ _ _ [] _ [] (fun past _ t => Single past t)
    (fun _ _ _ _ _ _ h _ hs => h.step (step_eq hs)) (.inl ⟨rfl, rfl⟩) (Runs.meets_of_forall (fun _ _ => trivial))
    hrun

theorem copies_of_run {outs : List Unit} (hmeets : Runs.Meets step SameKey empty past)
    (hrun : Runs.run step empty past = some (t, outs)) : Copies past t := by
  refine (@Runs.run_keeps _ _ _ _ _ _ _ _ [] _ [] (fun past _ t => Single past t ∧ Copies past t)
    (fun past _ t r t' _ h hsame hs => ?_) ⟨.inl ⟨rfl, rfl⟩, fun a i h => (by cases h.first)⟩ hmeets hrun).2
  exact ⟨h.1.step (step_eq hs), h.2.step h.1 hsame (step_eq hs)⟩

/-- Where the keys differ, the old member is missing in the new list. -/
theorem Single.sameKey (h : Single past t) (hchecked : Checked past r (register t r)) : SameKey t r := by
  intro a hfirst i hget
  by_contra hkey
  rcases h with ⟨hnil, -⟩ | ⟨a', i', h, r', hmem, hkey', hr'⟩
  · rw [hnil] at hfirst
    cases hfirst
  · cases h.first.symm.trans hfirst
    cases h.get.symm.trans hget
    obtain ⟨t', b, hreg, honly⟩ := @register_new t r past (.inr ⟨a, i, h, r', hmem, hkey', hr'⟩)
      (fun b hb j hj => by cases hfirst.symm.trans hb; cases hget.symm.trans hj; exact hkey)
    obtain ⟨ks, hks, -, hall⟩ := hchecked.lists t' hreg
    cases honly.keys.symm.trans hks
    have hold := (hall i.key).mpr ⟨r', by simp [hmem], hkey'⟩
    exact hkey (mem_singleton.mp hold)

/-- Where all keys are the same, the check does what it should. -/
theorem Single.checked (h : Single past t) (hcopies : Copies past t) (hsame : SameKey t r) :
    Checked past r (register t r) := by
  have hlists : ∀ t', register t r = some (some t') →
      ∃ ks, t'.keys = some ks ∧ ks.Nodup ∧ ∀ k, k ∈ ks ↔ ∃ r' ∈ past ++ [r], keyOf r' = k := by
    intro t' hr
    have hcopies' := hcopies.step h hsame hr
    rcases h.step hr with ⟨-, hnil⟩ | ⟨a, i, honly, r', hmem, hkey, -⟩
    · simp at hnil
    · refine ⟨_, honly.keys, nodup_singleton _, fun k => ?_⟩
      rw [mem_singleton]
      constructor
      · rintro rfl
        exact ⟨r', hmem, hkey⟩
      · rintro ⟨r'', hmem', rfl⟩
        exact (hcopies' a i honly r'' hmem').1
  rcases h with ⟨hfirst, rfl⟩ | ⟨a, i, honly, r', hmem, hkey, htype⟩
  · obtain ⟨t', a, hr, -⟩ := @register_new t r [] (.inl ⟨hfirst, rfl⟩) (by rw [hfirst]; simp)
    refine ⟨?_, ?_, hlists⟩ <;> simp [hr]
  · have hr := honly.register_found (hsame a honly.first i honly.get).symm
    refine ⟨by rw [hr]; simp, ?_, hlists⟩
    rw [hr, Option.some.injEq]
    split_ifs with heq
    · simp only [false_iff, not_exists, not_and, not_not]
      exact fun r'' hmem' _ => ((hcopies a i honly r'' hmem').2).trans heq.symm
    · simp only [true_iff]
      exact ⟨r', hmem, hkey.trans (hsame a honly.first i honly.get), fun he => heq (he.symm.trans htype)⟩

/-- **The check against all earlier factories**, exactly: it is made if and only if all factories have the
same key. -/
theorem all_checked_iff (rs : List Registration) : AllChecked rs ↔ Runs.Meets step SameKey empty rs := by
  constructor
  · intro hall
    exact Runs.meets_of_prefixes (fun past r s hpre _ hs =>
      (single_of_run hs).sameKey (hall past r s.1 s.2 hpre hs))
  · rintro hmeets past r t outs ⟨rest, rfl⟩ hrun
    obtain ⟨hpast, hlast⟩ := Runs.meets_concat.mp hmeets.append_left
    exact (single_of_run hrun).checked (copies_of_run hpast hrun) (hlast _ hrun)

/-- A factory of each of two keys, and one of the first key with another type: nothing is noticed. -/
theorem not_all_checked : ¬ AllChecked [(1, 0), (2, 0), (1, 1)] := by
  intro hall
  have hasserts := (hall [(1, 0), (2, 0)] (1, 1)
    ⟨[⟨1, 0, some 0⟩, ⟨2, 0, none⟩], some 1⟩ [(), ()] (prefix_refl _) rfl).asserts
  have hreg : register ⟨[⟨1, 0, some 0⟩, ⟨2, 0, none⟩], some 1⟩ (1, 1) =
    some (some ⟨[⟨1, 0, some 0⟩, ⟨2, 0, some 1⟩, ⟨1, 1, none⟩], some 2⟩) := rfl
  rw [hreg] at hasserts
  have hmiss := hasserts.mpr ⟨(1, 0), by decide, by decide, by decide⟩
  cases hmiss

end Factories

end NetSim.Diffusion
