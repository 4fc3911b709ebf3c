import Mathlib

/-! # Class based queueing

`CBQueue` (`queue/cbq.cc`) lets a class send when it is not overlimit or when an ancestor lends to it. Which
ancestors may lend depends on the algorithm: with formal link-sharing those without unsatisfied classes
below them, with ancestors-only all of them, and with top-level those up to a level.

The rules at the head of the source differ from the code at the limit: a class at its limit has to borrow,
and an ancestor at its limit lends where only one under its limit should. The walk along the ancestors also
ends at an overlimit one above the top level, and a class has demand below it only through classes that
may borrow. `send_permitted_iff` says exactly when the code follows the rules.

The times are a linear order. A queue for which no algorithm was chosen aborts and is not modelled.
-/

namespace NetSim

open List

def cbqMaxLevel : ℕ := 32

def cbqLeafLevel : ℕ := 1

/-- `eligible_type_`. -/
inductive LinkSharing
  | formal
  | ancestors
  | toplevel
deriving DecidableEq

/-- `CBQueue` with its `classes`. The lenders make a forest: the rank of a class is above that of its
lender. -/
structure Cbq (α T : Type) where
  classes : List α
  undertime : α → T
  level : α → ℕ
  demand : α → Bool
  permitBorrowing : α → Bool
  delayed : α → Bool
  lender : α → Option α
  eligible : LinkSharing
  toplevel : ℕ
  lastLender : Option α
  rank : α → ℕ
  lender_rank : ∀ c p, lender c = some p → rank p < rank c
  level_range : ∀ c, cbqLeafLevel ≤ level c ∧ level c ≤ cbqMaxLevel

namespace Cbq

variable {α T : Type}

def ancestors (s : Cbq α T) (c : α) : List α :=
  match _h : s.lender c with
  | none => []
  | some p => p :: s.ancestors p
termination_by s.rank c
decreasing_by exact s.lender_rank c p _h

theorem ancestors_none {s : Cbq α T} {c : α} (h : s.lender c = none) : s.ancestors c = [] := by
  rw [ancestors]
  split
  · rfl
  · next p hp => exact absurd (h.symm.trans hp) (by simp)

theorem ancestors_some {s : Cbq α T} {c p : α} (h : s.lender c = some p) : s.ancestors c = p :: s.ancestors p := by
  rw [ancestors]
  split
  · next hnone => exact absurd (h.symm.trans hnone) (by simp)
  · next q hq =>
      obtain rfl : p = q := Option.some.inj (h.symm.trans hq)
      rfl

variable [DecidableEq α] [LinearOrder T]

/-- `levels_`: `insert_class` puts every class on the list of its level. -/
def levels (s : Cbq α T) (level : ℕ) : List α := s.classes.filter (fun p => s.level p = level)

def leaf (s : Cbq α T) (c : α) : Bool := s.level c = cbqLeafLevel

def ancestor (s : Cbq α T) (a p : α) : Bool :=
  if ¬ s.permitBorrowing p then false
  else
    match _h : s.lender p with
    | none => false
    | some l => if l = a then true else s.ancestor a l
termination_by s.rank p
decreasing_by exact s.lender_rank p l _h

def descWithDemand (s : Cbq α T) (c : α) : Bool :=
  (s.levels cbqLeafLevel).any (fun p => s.demand p && s.ancestor c p)

def satisfied (s : Cbq α T) (now : T) (c : α) : Bool :=
  if s.leaf c then
    if s.undertime c < now ∧ s.demand c then false else true
  else if s.undertime c < now ∧ s.descWithDemand c then false
  else true

def eligibleFormal (s : Cbq α T) (now : T) (c : α) : Bool :=
  (List.range' cbqLeafLevel (s.level c - cbqLeafLevel)).all
    (fun level => (s.levels level).all (fun p => s.satisfied now p))

/-- The test of the algorithm. -/
def isEligible (s : Cbq α T) (now : T) (c : α) : Bool :=
  match s.eligible with
  | .toplevel => s.level c ≤ s.toplevel
  | .ancestors => true
  | .formal => s.eligibleFormal now c

/-- The loop of `find_lender` behind the class `c`. -/
def lenderWalk (s : Cbq α T) (now : T) (c : α) : Option α :=
  match _h : s.lender c with
  | none => none
  | some p =>
    if now < s.undertime p then
      if s.eligible = .toplevel ∧ s.toplevel < s.level p then none else s.lenderWalk now p
    else if s.isEligible now p then some p
    else s.lenderWalk now p
termination_by s.rank c
decreasing_by all_goals exact s.lender_rank c p _h

def findLender (s : Cbq α T) (now : T) (c : α) : Option α :=
  if ¬ s.permitBorrowing c then none else s.lenderWalk now c

def sendPermitted (s : Cbq α T) (now : T) (c : α) : Bool × Cbq α T :=
  if s.undertime c < now then
    (true, { s with delayed := Function.update s.delayed c false, lastLender := some c })
  else if s.permitBorrowing c then
    match s.findLender now c with
    | some l => (true, { s with lastLender := some l })
    | none => (false, s)
  else (false, s)

/-! ## The rules -/

def Descendant (s : Cbq α T) (d c : α) : Prop := c ∈ s.ancestors d

instance (s : Cbq α T) (d c : α) : Decidable (s.Descendant d c) := inferInstanceAs (Decidable (_ ∈ _))

def Unsatisfied (s : Cbq α T) (now : T) (c : α) : Prop :=
  s.undertime c < now ∧
    if s.leaf c then s.demand c = true else ∃ d ∈ s.classes, s.Descendant d c ∧ s.demand d = true

instance (s : Cbq α T) (now : T) (c : α) : Decidable (s.Unsatisfied now c) :=
  inferInstanceAs (Decidable (_ ∧ _))

def MayLend (s : Cbq α T) (now : T) (a : α) : Prop :=
  match s.eligible with
  | .formal => s.undertime a ≤ now ∧ ∀ p ∈ s.classes, s.level p < s.level a → ¬ s.Unsatisfied now p
  | .ancestors => s.undertime a < now
  | .toplevel => s.undertime a < now ∧ s.level a ≤ s.toplevel

instance (s : Cbq α T) (now : T) : DecidablePred (s.MayLend now) := fun a => by
  unfold MayLend
  cases s.eligible <;> infer_instance

/-- The class may continue unregulated. -/
def MaySend (s : Cbq α T) (now : T) (c : α) : Prop :=
  s.undertime c ≤ now ∨ (s.permitBorrowing c = true ∧ ∃ a ∈ s.ancestors c, s.MayLend now a)

def rightLender (s : Cbq α T) (now : T) (c : α) : Option α :=
  if s.undertime c ≤ now then some c else (s.ancestors c).find? (fun a => s.MayLend now a)

def FollowsRules (s : Cbq α T) (now : T) (c : α) : Prop :=
  ((s.sendPermitted now c).1 = true ↔ s.MaySend now c) ∧
    ((s.sendPermitted now c).1 = true → (s.sendPermitted now c).2.lastLender = s.rightLender now c)

/-! ## When the code follows the rules -/

/-- `d` is a descendant of `c`, and every class on the way from it may borrow. -/
def BorrowsUpTo (s : Cbq α T) (d c : α) : Prop :=
  s.Descendant d c ∧ ∀ b ∈ (d :: s.ancestors d).takeWhile (· ≠ c), s.permitBorrowing b = true

instance (s : Cbq α T) (d c : α) : Decidable (s.BorrowsUpTo d c) := inferInstanceAs (Decidable (_ ∧ _))

/-- A class of the leaf level with demand may borrow up to `c`. -/
def LeafDemand (s : Cbq α T) (c : α) : Prop :=
  ∃ d ∈ s.classes, s.level d = cbqLeafLevel ∧ s.demand d = true ∧ s.BorrowsUpTo d c

instance (s : Cbq α T) (c : α) : Decidable (s.LeafDemand c) :=
  inferInstanceAs (Decidable (∃ d ∈ _, _))

/-- A class that is underlimit and has demand or, when it is above the leaf level, demand of the leaf level
that may borrow up to it. -/
def Hungry (s : Cbq α T) (now : T) (c : α) : Prop :=
  s.undertime c < now ∧ if s.level c = cbqLeafLevel then s.demand c = true else s.LeafDemand c

instance (s : Cbq α T) (now : T) (c : α) : Decidable (s.Hungry now c) := inferInstanceAs (Decidable (_ ∧ _))

/-- A class above the leaf level that is underlimit, with demand below it, but none of the leaf level that may
borrow up to it. -/
def HiddenDemand (s : Cbq α T) (now : T) (c : α) : Prop :=
  s.level c ≠ cbqLeafLevel ∧ s.undertime c < now ∧ ¬ s.LeafDemand c ∧
    ∃ d ∈ s.classes, s.Descendant d c ∧ s.demand d = true

/-- An overlimit ancestor above the top level. -/
def Cuts (s : Cbq α T) (now : T) (a : α) : Prop := now < s.undertime a ∧ s.toplevel < s.level a

instance (s : Cbq α T) (now : T) (a : α) : Decidable (s.Cuts now a) := inferInstanceAs (Decidable (_ ∧ _))

/-- What has to hold of the ancestors of an overlimit class that may borrow. -/
def LendersRight (s : Cbq α T) (now : T) (c : α) : Prop :=
  match s.eligible with
  | .ancestors =>
    -- the nearest ancestor that is not overlimit is not at its limit
    ∀ a, (s.ancestors c).find? (fun a => s.undertime a ≤ now) = some a → s.undertime a ≠ now
  | .toplevel =>
    -- nor is the nearest one up to the top level, and none that is underlimit lies behind a cut
    let reach := (s.ancestors c).takeWhile (fun a => ¬ s.Cuts now a)
    let near := reach.find? (fun a => s.undertime a ≤ now ∧ s.level a ≤ s.toplevel)
    (∀ a, near = some a → s.undertime a ≠ now) ∧
      (near = none → ∀ a ∈ (s.ancestors c).dropWhile (fun a => ¬ s.Cuts now a),
        ¬ (s.undertime a < now ∧ s.level a ≤ s.toplevel))
  | .formal =>
    -- no demand is hidden below the nearest ancestor that is not overlimit and has no hungry class below it
    ∀ a, (s.ancestors c).find? (fun a => s.undertime a ≤ now ∧
        ∀ p ∈ s.classes, s.level p < s.level a → ¬ s.Hungry now p) = some a →
      ∀ p ∈ s.classes, s.level p < s.level a → ¬ s.HiddenDemand now p

variable {s : Cbq α T} {now : T} {a c p : α}

/-! ## The walk -/

omit [DecidableEq α] [LinearOrder T] in
theorem rank_ancestor (h : a ∈ s.ancestors c) : s.rank a < s.rank c := by
  induction hr : s.rank c using Nat.strong_induction_on generalizing c with
  | _ n ih =>
    cases hl : s.lender c with
    | none =>
      rw [ancestors_none hl] at h
      simp at h
    | some p =>
      have hp := s.lender_rank c p hl
      rw [ancestors_some hl] at h
      rcases mem_cons.mp h with rfl | h
      · rw [← hr]
        exact hp
      · have hlt := ih (s.rank p) (hr ▸ hp) h rfl
        omega

omit [DecidableEq α] [LinearOrder T] in
theorem ne_of_ancestor (h : a ∈ s.ancestors c) : a ≠ c := by
  rintro rfl
  exact lt_irrefl _ (rank_ancestor h)

/-- The ancestor that is found ends the walk. -/
def Accepts (s : Cbq α T) (now : T) (a : α) : Bool := s.undertime a ≤ now ∧ s.isEligible now a

/-- The ancestor ends the walk without a lender. -/
def Stops (s : Cbq α T) (now : T) (a : α) : Bool := s.eligible = .toplevel ∧ s.Cuts now a

/-- **The walk of `find_lender`** looks for the first ancestor that may lend, up to one that stops it. -/
theorem lenderWalk_eq (s : Cbq α T) (now : T) (c : α) :
    s.lenderWalk now c = ((s.ancestors c).takeWhile (fun a => !s.Stops now a)).find? (s.Accepts now) := by
  induction hr : s.rank c using Nat.strong_induction_on generalizing c with
  | _ n ih =>
    rw [lenderWalk]
    split
    · next hl =>
        rw [ancestors_none hl]
        rfl
    · next p hl =>
        have hrest := ih (s.rank p) (hr ▸ s.lender_rank c p hl) p rfl
        rw [ancestors_some hl, takeWhile_cons]
        by_cases hover : now < s.undertime p
        · rw [if_pos hover]
          have haccept : s.Accepts now p = false := by
            unfold Accepts
            simp [hover]
          by_cases hstop : s.eligible = .toplevel ∧ s.toplevel < s.level p
          · have hstops : s.Stops now p = true := by
              unfold Stops Cuts
              simp [hstop, hover]
            rw [if_pos hstop, hstops]
            rfl
          · have hstops : s.Stops now p = false := by
              unfold Stops Cuts
              rw [decide_eq_false_iff_not]
              rintro ⟨htop, -, hlevel⟩
              exact hstop ⟨htop, hlevel⟩
            rw [if_neg hstop, hstops, hrest]
            simp [haccept]
        · have hstops : s.Stops now p = false := by
            unfold Stops Cuts
            simp [hover]
          rw [if_neg hover, hstops]
          by_cases helig : s.isEligible now p = true
          · have haccept : s.Accepts now p = true := by
              unfold Accepts
              simp [helig, not_lt.mp hover]
            rw [if_pos helig]
            simp [haccept]
          · have haccept : s.Accepts now p = false := by
              unfold Accepts
              simp [helig]
            rw [if_neg helig, hrest]
            simp [haccept]

omit [DecidableEq α] in
/-- A search that stops early and accepts too much finds the same as another one exactly if what it finds
is right and it misses nothing. -/
theorem find_takeWhile_eq_iff {l : List α} {accept stop : α → Bool} {P : α → Prop} [DecidablePred P]
    (haccept : ∀ a, P a → accept a = true) :
    (l.takeWhile (fun a => !stop a)).find? accept = l.find? (fun a => P a) ↔
      (∀ a, (l.takeWhile (fun a => !stop a)).find? accept = some a → P a) ∧
        ((l.takeWhile (fun a => !stop a)).find? accept = none → ∀ a ∈ l, ¬ P a) := by
  constructor
  · intro h
    constructor
    · intro a ha
      rw [h] at ha
      simpa using find?_some ha
    · intro hnone a ha
      rw [h] at hnone
      simpa using find?_eq_none.mp hnone a ha
  · rintro ⟨hright, hall⟩
    cases hfind : (l.takeWhile (fun a => !stop a)).find? accept with
    | none =>
      symm
      rw [find?_eq_none]
      intro a ha
      simpa using hall hfind a ha
    | some a =>
      symm
      have hP := hright a hfind
      obtain ⟨-, pre, post, hsplit, hpre⟩ := find?_eq_some_iff_append.mp hfind
      rw [find?_eq_some_iff_append]
      refine ⟨by simpa using hP, pre, post ++ l.dropWhile (fun a => !stop a), ?_, ?_⟩
      · calc l = l.takeWhile (fun a => !stop a) ++ l.dropWhile (fun a => !stop a) :=
              takeWhile_append_dropWhile.symm
          _ = _ := by rw [hsplit, append_assoc, cons_append]
      · intro x hx
        have hnot := hpre x hx
        by_contra hPx
        have hPx' : P x := by simpa using hPx
        rw [haccept x hPx'] at hnot
        simp at hnot

/-! ## Satisfied classes -/

omit [LinearOrder T] in
/-- **`ancestor`** goes up from a class as long as the classes may borrow. -/
theorem ancestor_iff : s.ancestor c a = true ↔ s.BorrowsUpTo a c := by
  unfold BorrowsUpTo Descendant
  induction hr : s.rank a using Nat.strong_induction_on generalizing a with
  | _ n ih =>
    rw [ancestor]
    by_cases hborrow : s.permitBorrowing a = true
    · rw [if_neg (not_not.mpr hborrow)]
      split
      · next hl =>
          rw [ancestors_none hl]
          simp
      · next l hl =>
          rw [ancestors_some hl]
          by_cases heq : l = c
          · subst heq
            have hne : a ≠ l := (ne_of_ancestor (ancestors_some hl ▸ mem_cons_self)).symm
            rw [if_pos rfl, takeWhile_cons_of_pos (by simpa using hne), takeWhile_cons_of_neg (by simp)]
            simp [hborrow]
          · rw [if_neg heq, ih (s.rank l) (hr ▸ s.lender_rank a l hl) rfl, mem_cons, or_iff_right (Ne.symm heq)]
            refine and_congr_right (fun hup => ?_)
            have hne : a ≠ c := by
              rintro rfl
              exact absurd (rank_ancestor hup) (s.lender_rank a l hl).asymm
            have hdrop : (a :: l :: s.ancestors l).takeWhile (· ≠ c) = a :: (l :: s.ancestors l).takeWhile (· ≠ c) :=
              takeWhile_cons_of_pos (by simpa using hne)
            rw [hdrop, forall_mem_cons, and_iff_right hborrow]
    · rw [if_pos hborrow]
      refine iff_of_false Bool.false_ne_true (fun hup => hborrow (hup.2 a ?_))
      rw [takeWhile_cons_of_pos (by simpa using (ne_of_ancestor hup.1).symm)]
      exact mem_cons_self

omit [DecidableEq α] [LinearOrder T] in
theorem mem_levels {i : ℕ} : p ∈ s.levels i ↔ p ∈ s.classes ∧ s.level p = i := by
  unfold levels
  rw [mem_filter, decide_eq_true_eq]

omit [LinearOrder T] in
theorem descWithDemand_iff : s.descWithDemand c = true ↔ s.LeafDemand c := by
  unfold descWithDemand LeafDemand
  simp only [any_eq_true, mem_levels, Bool.and_eq_true, ancestor_iff, and_assoc]

omit [LinearOrder T] in
theorem LeafDemand.demand (h : s.LeafDemand c) : ∃ d ∈ s.classes, s.Descendant d c ∧ s.demand d = true := by
  obtain ⟨d, hd, -, hdemand, hup⟩ := h
  exact ⟨d, hd, hup.1, hdemand⟩

/-- What the code calls satisfied. -/
theorem satisfied_iff : s.satisfied now p = true ↔ ¬ s.Hungry now p := by
  unfold satisfied leaf Hungry
  by_cases hleaf : s.level p = cbqLeafLevel
  · simp [hleaf, imp_iff_not_or]
  · simp [hleaf, descWithDemand_iff, imp_iff_not_or]

/-- **A class is unsatisfied** if the code says so, or if its demand is hidden. -/
theorem unsatisfied_iff : s.Unsatisfied now p ↔ s.Hungry now p ∨ s.HiddenDemand now p := by
  unfold Unsatisfied leaf Hungry HiddenDemand
  by_cases hleaf : s.level p = cbqLeafLevel
  · simp [hleaf]
  · by_cases hunder : s.undertime p < now
    · by_cases hdemand : s.LeafDemand p
      · simp [hleaf, hunder, hdemand, hdemand.demand]
      · simp [hleaf, hunder, hdemand]
    · simp [hunder]

theorem eligibleFormal_iff : s.eligibleFormal now a = true ↔
    ∀ p ∈ s.classes, s.level p < s.level a → ¬ s.Hungry now p := by
  unfold eligibleFormal
  simp only [← satisfied_iff]
  rw [all_eq_true]
  constructor
  · intro h p hp hlevel
    have hmem : s.level p ∈ List.range' cbqLeafLevel (s.level a - cbqLeafLevel) := by
      rw [mem_range'_1]
      have hpos := (s.level_range p).1
      omega
    exact all_eq_true.mp (h _ hmem) p (mem_levels.mpr ⟨hp, rfl⟩)
  · intro h i hi
    rw [mem_range'_1] at hi
    rw [all_eq_true]
    intro p hp
    obtain ⟨hmem, hlevel⟩ := mem_levels.mp hp
    exact h p hmem (by omega)

theorem accepts_of_mayLend (h : s.MayLend now a) : s.Accepts now a = true := by
  unfold MayLend at h
  unfold Accepts isEligible
  cases helig : s.eligible with
  | formal =>
    rw [helig] at h
    have hformal : s.eligibleFormal now a = true := by
      rw [eligibleFormal_iff]
      intro p hp hlevel hsat
      exact h.2 p hp hlevel (unsatisfied_iff.mpr (Or.inl hsat))
    simp [h.1, hformal]
  | ancestors =>
    rw [helig] at h
    simp [le_of_lt h]
  | toplevel =>
    rw [helig] at h
    simp [le_of_lt h.1, h.2]

/-! ## The class at the time `now` -/

theorem follows_of_lt (h : s.undertime c < now) : s.FollowsRules now c := by
  unfold FollowsRules sendPermitted MaySend rightLender
  rw [if_pos h, if_pos h.le]
  exact ⟨iff_of_true rfl (Or.inl h.le), fun _ => rfl⟩

theorem mem_of_findLender (h : s.findLender now c = some a) : a ∈ s.ancestors c := by
  unfold findLender at h
  split_ifs at h
  rw [lenderWalk_eq] at h
  exact (takeWhile_subset _) (mem_of_find?_eq_some h)

theorem not_follows_of_eq (h : s.undertime c = now) : ¬ s.FollowsRules now c := by
  rintro ⟨hsend, hlender⟩
  have hmay : s.MaySend now c := Or.inl h.le
  have hright : s.rightLender now c = some c := if_pos h.le
  have htrue := hsend.mpr hmay
  have heq := hlender htrue
  rw [hright] at heq
  unfold sendPermitted at htrue heq
  rw [if_neg (by rw [h]; exact lt_irrefl now)] at htrue heq
  split_ifs at htrue heq with hborrow
  cases hfind : s.findLender now c with
  | none =>
    rw [hfind] at htrue
    simp at htrue
  | some a =>
    rw [hfind] at heq
    have hself : a = c := Option.some.inj heq
    exact ne_of_ancestor (mem_of_findLender hfind) hself

theorem follows_of_not_borrowing (h : now < s.undertime c) (hborrow : ¬ s.permitBorrowing c = true) :
    s.FollowsRules now c := by
  have hsend : s.sendPermitted now c = (false, s) := by
    unfold sendPermitted
    rw [if_neg (not_lt.mpr h.le), if_neg hborrow]
  have hmay : ¬ s.MaySend now c := by
    rintro (hle | ⟨htrue, -⟩)
    · exact absurd hle (not_le.mpr h)
    · exact hborrow htrue
  unfold FollowsRules
  rw [hsend]
  exact ⟨iff_of_false Bool.false_ne_true hmay, fun hfalse => absurd hfalse Bool.false_ne_true⟩

/-- An overlimit class that may borrow sends with the lender of the rules if the walk finds that one. -/
theorem follows_iff_walk (h : now < s.undertime c) (hborrow : s.permitBorrowing c = true) :
    s.FollowsRules now c ↔
      s.lenderWalk now c = (s.ancestors c).find? (fun a => s.MayLend now a) := by
  have hfind : s.findLender now c = s.lenderWalk now c := by
    unfold findLender
    rw [if_neg (not_not.mpr hborrow)]
  have hright : s.rightLender now c = (s.ancestors c).find? (fun a => s.MayLend now a) :=
    if_neg (not_le.mpr h)
  have hmay : s.MaySend now c ↔ ∃ a ∈ s.ancestors c, s.MayLend now a := by
    unfold MaySend
    rw [or_iff_right (not_le.mpr h), and_iff_right hborrow]
  unfold FollowsRules sendPermitted
  rw [if_neg (not_lt.mpr h.le), if_pos hborrow, hright, hmay, hfind]
  cases hwalk : s.lenderWalk now c with
  | none =>
    constructor
    · rintro ⟨hnone, -⟩
      symm
      rw [find?_eq_none]
      intro a ha hlend
      exact Bool.false_ne_true (hnone.mpr ⟨a, ha, by simpa using hlend⟩)
    · intro hnone
      refine ⟨iff_of_false Bool.false_ne_true ?_, fun hfalse => absurd hfalse Bool.false_ne_true⟩
      rintro ⟨a, ha, hlend⟩
      have := find?_eq_none.mp hnone.symm a ha
      simp [hlend] at this
  | some a =>
    constructor
    · exact fun hboth => hboth.2 rfl
    · intro hsome
      refine ⟨iff_of_true rfl ?_, fun _ => hsome⟩
      have hlend := find?_some hsome.symm
      exact ⟨a, mem_of_find?_eq_some hsome.symm, by simpa using hlend⟩

/-- A walk that nothing stops misses no lender. -/
theorem walk_unstopped (hstops : ∀ a, (!s.Stops now a) = true) :
    ((∀ a, ((s.ancestors c).takeWhile (fun a => !s.Stops now a)).find? (s.Accepts now) = some a →
        s.MayLend now a) ∧
      (((s.ancestors c).takeWhile (fun a => !s.Stops now a)).find? (s.Accepts now) = none →
        ∀ a ∈ s.ancestors c, ¬ s.MayLend now a)) ↔
      ∀ a, (s.ancestors c).find? (s.Accepts now) = some a → s.MayLend now a := by
  rw [takeWhile_eq_self_iff.mpr (fun a _ => hstops a)]
  refine and_iff_left (fun hnone a ha hlend => ?_)
  exact find?_eq_none.mp hnone a ha (accepts_of_mayLend hlend)

/-- What the walk finds is right and complete exactly under the condition of the algorithm. -/
theorem walk_right_iff :
    s.lenderWalk now c = (s.ancestors c).find? (fun a => s.MayLend now a) ↔ s.LendersRight now c := by
  rw [lenderWalk_eq, find_takeWhile_eq_iff (fun a ha => accepts_of_mayLend ha)]
  cases helig : s.eligible with
  | formal =>
    have haccepts : s.Accepts now = fun a => decide (s.undertime a ≤ now ∧
        ∀ p ∈ s.classes, s.level p < s.level a → ¬ s.Hungry now p) := by
      funext a
      unfold Accepts isEligible
      simp only [helig, eligibleFormal_iff]
    rw [walk_unstopped (fun a => by simp [Stops, helig]), haccepts]
    unfold LendersRight
    rw [helig]
    apply forall_congr'
    intro a
    apply imp_congr_right
    intro hfind
    have hfound := find?_some hfind
    rw [decide_eq_true_eq] at hfound
    unfold MayLend
    rw [helig]
    rw [and_iff_right hfound.1]
    apply forall_congr'
    intro p
    apply imp_congr_right
    intro hp
    apply imp_congr_right
    intro hlevel
    -- the accepted lender sees no hungry class below it, so only hidden demand can be missed
    rw [not_iff_not, unsatisfied_iff, or_iff_right (hfound.2 p hp hlevel)]
  | ancestors =>
    have haccepts : s.Accepts now = fun a => decide (s.undertime a ≤ now) := by
      funext a
      simp [Accepts, isEligible, helig]
    rw [walk_unstopped (fun a => by simp [Stops, helig]), haccepts]
    unfold LendersRight
    rw [helig]
    apply forall_congr'
    intro a
    apply imp_congr_right
    intro hfind
    have hfound := find?_some hfind
    rw [decide_eq_true_eq] at hfound
    unfold MayLend
    rw [helig]
    exact ⟨ne_of_lt, fun hne => lt_of_le_of_ne hfound hne⟩
  | toplevel =>
    have hstops : (fun a => !s.Stops now a) = fun a => decide ¬ s.Cuts now a := by
      funext a
      simp [Stops, helig]
    have haccepts : s.Accepts now =
        fun a => decide (s.undertime a ≤ now ∧ s.level a ≤ s.toplevel) := by
      funext a
      simp [Accepts, isEligible, helig]
    rw [hstops, haccepts]
    unfold LendersRight
    rw [helig]
    apply and_congr
    · apply forall_congr'
      intro a
      apply imp_congr_right
      intro hfind
      have hfound := find?_some hfind
      rw [decide_eq_true_eq] at hfound
      unfold MayLend
      rw [helig]
      exact ⟨fun hlend => ne_of_lt hlend.1, fun hne => ⟨lt_of_le_of_ne hfound.1 hne, hfound.2⟩⟩
    · apply imp_congr_right
      intro hnone
      have hlends : ∀ a, s.MayLend now a ↔ s.undertime a < now ∧ s.level a ≤ s.toplevel := by
        intro a
        unfold MayLend
        rw [helig]
      constructor
      · intro hmissed a ha
        rw [← hlends]
        exact hmissed a (dropWhile_subset _ ha)
      · intro hbehind a ha
        rw [hlends]
        rw [← takeWhile_append_dropWhile (p := fun a => decide ¬ s.Cuts now a)
          (l := s.ancestors c)] at ha
        -- before the cut the walk itself would have found it
        rcases mem_append.mp ha with ha | ha
        · intro hlend
          have hnot := find?_eq_none.mp hnone a ha
          simp [hlend.1.le, hlend.2] at hnot
        · exact hbehind a ha

/-- **`send_permitted` follows the rules** exactly for a class that is not at its limit and, if it has to
borrow, has the right lenders. -/
theorem send_permitted_iff (s : Cbq α T) (now : T) (c : α) :
    s.FollowsRules now c ↔
      s.undertime c ≠ now ∧
        (now < s.undertime c → s.permitBorrowing c = true → s.LendersRight now c) := by
  rcases lt_trichotomy (s.undertime c) now with h | h | h
  · refine iff_of_true (follows_of_lt h) ⟨ne_of_lt h, fun hover => absurd h hover.asymm⟩
  · exact iff_of_false (not_follows_of_eq h) (fun hboth => hboth.1 h)
  · rw [and_iff_right (ne_of_gt h)]
    by_cases hborrow : s.permitBorrowing c = true
    · rw [follows_iff_walk h hborrow, walk_right_iff]
      exact ⟨fun hright _ _ => hright, fun hright => hright h hborrow⟩
    · exact iff_of_true (follows_of_not_borrowing h hborrow) (fun _ hb => absurd hb hborrow)

/-- A class at its limit that may not borrow is not permitted to send. -/
theorem at_limit_not_permitted :
    ¬ ({
      classes := [0]
      undertime := fun _ => 5
      level := fun _ => 1
      demand := fun _ => true
      permitBorrowing := fun _ => false
      delayed := fun _ => false
      lender := fun _ => none
      eligible := .ancestors
      toplevel := 32
      lastLender := none
      rank := fun _ => 0
      lender_rank := by simp
      level_range := fun _ => ⟨by decide, by decide⟩
    } : Cbq ℕ ℕ).FollowsRules 5 0 :=
  not_follows_of_eq rfl

end Cbq

end NetSim
