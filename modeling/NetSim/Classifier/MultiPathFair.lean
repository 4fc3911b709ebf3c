import NetSim.Classifier.MultiPath

/-! # Fair multipath forwarding

Whatever is installed and cleared, `maxslot_` is the highest slot with a node, and `classify` goes round
the slots with nodes (`round_robin_iff`). It divides by zero when there is none (`empty_divides`), and a
slot from `2 ^ 30` on makes the size of the table overflow.
-/

namespace NetSim.MultiPathForwarder

open List Function RoundRobin Doubling

variable {α : Type}

/-! ## Operations -/

inductive Op (α : Type)
  | install (slot : ℕ) (p : α)
  | installNext (p : α)
  | clear (slot : ℕ)
  | classify
deriving DecidableEq

inductive Out
  | none
  | next (slot : ℕ)
  | classified (slot : ℕ)
deriving DecidableEq

def step (c : MultiPathForwarder α) : Op α → Option (MultiPathForwarder α × Out)
  | .install slot p => (c.install slot p).map (·, .none)
  | .installNext p => (c.installNext p).map (fun r => (r.1, .next r.2))
  | .clear slot => (c.clear slot).map (·, .none)
  | .classify => c.classify.map (fun r => (r.2, .classified r.1))

def Allowed (c : MultiPathForwarder α) : Op α → Prop
  | .clear slot => slot < c.nslot
  | _ => True

instance (c : MultiPathForwarder α) (op : Op α) : Decidable (Allowed c op) := by
  cases op <;> unfold Allowed <;> infer_instance

/-- A packet finds some node, and the slots are below `2 ^ 30`. -/
def Ready (c : MultiPathForwarder α) : Op α → Prop
  | .install slot _ => slot < 2 ^ 30
  | .installNext _ => c.maxslot + 1 < 2 ^ 30
  | .clear _ => True
  | .classify => ∃ i, (c.node i).isSome

instance (c : MultiPathForwarder α) : (op : Op α) → Decidable (Ready c op)
  | .install slot _ => inferInstanceAs (Decidable (slot < 2 ^ 30))
  | .installNext _ => inferInstanceAs (Decidable (c.maxslot + 1 < 2 ^ 30))
  | .clear _ => isTrue trivial
  | .classify => decidable_of_iff (∃ x ∈ c.slot, x.isSome) (by
      constructor
      · rintro ⟨x, hx, hsome⟩
        obtain ⟨i, hi⟩ := mem_iff_getElem?.mp hx
        exact ⟨i, by rwa [node, hi]⟩
      · rintro ⟨i, hi⟩
        cases hx : c.slot[i]? with
        | none =>
          rw [node, hx] at hi
          cases hi
        | some x =>
          rw [node, hx] at hi
          exact ⟨x, mem_of_getElem? hx, hi⟩)

/-- The node that the last operation on a slot left there. -/
def record (m : ℕ → Option α) : Op α × Out → ℕ → Option α
  | (.install slot p, _) => update m slot (some p)
  | (.installNext p, .next slot) => update m slot (some p)
  | (.clear slot, _) => update m slot none
  | _ => m

def installed (past : List (Op α)) (outs : List Out) : ℕ → Option α :=
  (past.zip outs).foldl record (fun _ => none)

def Out.slot? : Out → Option ℕ
  | .classified slot => some slot
  | _ => Option.none

def returned (outs : List Out) : List ℕ := outs.filterMap Out.slot?

/-- The table stays as it is. -/
def Unchanged (c : MultiPathForwarder α) (seg : List (Op α)) : Prop :=
  ∀ pre, pre <+: seg → ∀ r, Runs.run step c pre = some r → r.1.slot = c.slot

/-- What is said of the forwarder after the operations `past`. -/
structure Serves (past : List (Op α)) (outs : List Out) (c : MultiPathForwarder α) : Prop where
  highest : (∀ i, (c.node i).isSome → (i : ℤ) ≤ c.maxslot) ∧
    (c.maxslot = -1 ∨ ∃ i : ℕ, c.maxslot = i ∧ (c.node i).isSome)
  kept : c.node = installed past outs
  found : (∃ i, (c.node i).isSome) → ∃ cl p c', c.classify = some (cl, c') ∧ c.node cl = some p ∧
    c.find = some (.node p, c')
  fair : ∀ seg c' outs', Runs.run step c seg = some (c', outs') → Unchanged c seg →
    ∀ s mid, returned outs' = s :: mid ++ [s] → s ∉ mid →
      ∀ i, (c.node i).isSome → i ≠ s → mid.count i = 1

/-! ## The table -/

structure Tidy (c : MultiPathForwarder α) : Prop where
  nsize : c.nsize = 0
  size : c.slot = [] ∨ ∃ k ≤ 30, c.nslot = 2 ^ k
  below : ∀ i, (c.node i).isSome → (i : ℤ) ≤ c.maxslot
  top : c.maxslot = -1 ∨ ∃ i : ℕ, c.maxslot = i ∧ (c.node i).isSome
  cursor : c.ns = 0 ∨ c.ns < c.nslot

variable {c c' : MultiPathForwarder α} {slot i : ℕ} {p : α}

theorem node_lt (h : (c.node i).isSome) : i < c.nslot := by
  by_contra hge
  rw [node, getElem?_eq_none (Nat.not_lt.mp hge)] at h
  cases h

theorem tidy_init : (init : MultiPathForwarder α).Tidy :=
  ⟨rfl, .inl rfl, fun i hi => by simp [node, init] at hi, .inl rfl, .inl rfl⟩

theorem nslot_le (h : c.Tidy) : c.nslot ≤ 2 ^ 30 := by
  rcases h.size with hnil | ⟨k, hk, hsize⟩
  · simp [nslot, hnil]
  · rw [hsize]
    exact Nat.pow_le_pow_right (by norm_num) hk

/-- The size from which `alloc` doubles. -/
theorem exists_size (h : c.Tidy) : ∃ k ≤ 30, c.nslot ≤ 2 ^ k ∧ ∀ slot : ℕ, c.alloc slot =
    (double slot rounds (2 ^ k)).map (fun nslot =>
      { c with slot := c.slot ++ replicate (nslot.toNat - c.nslot) none }) := by
  rcases h.size with hnil | ⟨k, hk, hsize⟩
  · refine ⟨5, by omega, by simp [nslot, hnil], fun slot => ?_⟩
    simp [alloc, hnil, h.nsize]
  · have hne : c.slot ≠ [] := by
      intro hnil
      have hpos : 0 < 2 ^ k := by positivity
      rw [nslot, hnil, length_nil] at hsize
      omega
    refine ⟨k, hk, hsize.le, fun slot => ?_⟩
    simp [alloc, hne, hsize]

/-- **`alloc`** keeps the slots, and adds empty ones. -/
theorem alloc_spec (h : c.Tidy) (hslot : slot < 2 ^ 30) : ∃ n k, k ≤ 30 ∧ c.nslot + n = 2 ^ k ∧
    slot < c.nslot + n ∧ c.alloc slot = some { c with slot := c.slot ++ replicate n none } := by
  obtain ⟨k, hk, hle, halloc⟩ := exists_size h
  have hdouble := double_spec k rounds hk hslot (by rw [rounds]; omega)
  set j := max k slot.size with hj
  have hpow : 2 ^ k ≤ 2 ^ j := Nat.pow_le_pow_right (by norm_num) (le_max_left _ _)
  have hlt : slot < 2 ^ j := Nat.size_le.mp (le_max_right _ _)
  have htoNat : ((2 : ℤ) ^ j).toNat = 2 ^ j := by
    rw [show (2 : ℤ) ^ j = ((2 ^ j : ℕ) : ℤ) by push_cast; rfl, Int.toNat_natCast]
  refine ⟨2 ^ j - c.nslot, j, max_le hk (Nat.size_le.mpr hslot), by omega, by omega, ?_⟩
  rw [halloc, hdouble, Option.map_some, htoNat]

theorem node_append (n i : ℕ) :
    ({ c with slot := c.slot ++ replicate n none } : MultiPathForwarder α).node i = c.node i := by
  unfold node
  rcases Nat.lt_or_ge i c.slot.length with hlt | hge
  · rw [getElem?_append_left hlt]
  · rw [getElem?_append_right hge, getElem?_eq_none hge, getElem?_replicate]
    split_ifs <;> rfl

theorem node_set (x : Option α) (hlt : slot < c.nslot) :
    ({ c with slot := c.slot.set slot x } : MultiPathForwarder α).node = update c.node slot x := by
  funext i
  unfold node
  rw [getElem?_set]
  by_cases hi : slot = i
  · subst hi
    rw [if_pos rfl, if_pos (show slot < c.slot.length from hlt)]
    show x = update c.node slot x slot
    rw [update_self]
  · rw [if_neg hi]
    show c.node i = update c.node slot x i
    rw [update_of_ne (Ne.symm hi)]

/-- **`install`**: no other slot changes. -/
theorem install_spec (h : c.Tidy) (hslot : slot < 2 ^ 30) (p : α) :
    ∃ c', c.install slot p = some c' ∧ c'.Tidy ∧ c'.node = update c.node slot (some p) := by
  obtain ⟨n, hsize, hlt, hgrow⟩ : ∃ n, (∃ k ≤ 30, c.nslot + n = 2 ^ k) ∧ slot < c.nslot + n ∧
      (if c.nslot ≤ slot then c.alloc slot else some c) =
        some { c with slot := c.slot ++ replicate n none } := by
    by_cases hle : c.nslot ≤ slot
    · obtain ⟨n, k, hk, hsize, hlt, halloc⟩ := alloc_spec h hslot
      exact ⟨n, ⟨k, hk, hsize⟩, hlt, by rw [if_pos hle, halloc]⟩
    · have hsize := h.size.resolve_left (fun hnil => by simp [nslot, hnil] at hle)
      exact ⟨0, hsize, by omega, by rw [if_neg hle]; simp⟩
  set d : MultiPathForwarder α := { c with slot := c.slot ++ replicate n none } with hd
  have hdlen : d.nslot = c.nslot + n := by simp [hd, nslot]
  have hnode : ({ d with slot := d.slot.set slot (some p) } : MultiPathForwarder α).node =
      update c.node slot (some p) := by
    rw [node_set _ (hdlen ▸ hlt), funext (node_append (c := c) n)]
  have hinstall : c.install slot p = some { d with
      slot := d.slot.set slot (some p)
      maxslot := if c.maxslot ≤ slot then slot else c.maxslot } := by
    rw [install, hgrow]
    rfl
  refine ⟨_, hinstall, ⟨h.nsize, .inr ?_, fun i hi => ?_, .inr ?_, ?_⟩, hnode⟩
  · obtain ⟨k, hk, hsize⟩ := hsize
    exact ⟨k, hk, by rw [nslot, length_set, ← hsize, ← hdlen]; rfl⟩
  · replace hi : (update c.node slot (some p) i).isSome := hnode ▸ hi
    dsimp only
    by_cases his : i = slot
    · split_ifs <;> omega
    · rw [update_of_ne his] at hi
      have hmax := h.below i hi
      split_ifs <;> omega
  · dsimp only
    split_ifs with hmax
    · exact ⟨slot, rfl, (congrArg Option.isSome (congrFun hnode slot)).trans (by simp)⟩
    · obtain ⟨i, hi, hsome⟩ := h.top.resolve_left (by omega)
      refine ⟨i, hi, ?_⟩
      show (({ d with slot := d.slot.set slot (some p) } : MultiPathForwarder α).node i).isSome
      rw [hnode, update_of_ne (by omega)]
      exact hsome
  · refine h.cursor.imp_right (fun hns => ?_)
    show c.ns < (d.slot.set slot (some p)).length
    rw [length_set]
    exact hns.trans_le (le_of_le_of_eq (Nat.le_add_right _ n) hdlen.symm)

theorem install_none (h : c.Tidy) (hslot : 2 ^ 30 ≤ slot) (p : α) :
    c.install slot p = none := by
  have hle : c.nslot ≤ slot := (nslot_le h).trans hslot
  obtain ⟨k, hk, -, halloc⟩ := exists_size h
  rw [install, if_pos hle, halloc, double_none k rounds hk hslot]
  rfl

/-- The loop of `clear` ends at the highest node below. -/
theorem lower_spec (c : MultiPathForwarder α) (m : ℕ) :
    (c.lower m = -1 ∨ ∃ i : ℕ, c.lower m = i ∧ (c.node i).isSome) ∧
      ∀ i < m, (c.node i).isSome → (i : ℤ) ≤ c.lower m := by
  induction m with
  | zero => exact ⟨.inl rfl, fun i hi => by omega⟩
  | succ m ih =>
    unfold lower
    by_cases hm : c.node m = none
    · rw [if_pos hm]
      refine ⟨ih.1, fun i hi hsome => ih.2 i ?_ hsome⟩
      have hne : i ≠ m := by
        rintro rfl
        rw [hm] at hsome
        cases hsome
      omega
    · rw [if_neg hm]
      exact ⟨.inr ⟨m, rfl, Option.isSome_iff_ne_none.mpr hm⟩, fun i hi _ => by omega⟩

/-- **`clear`**: no other slot changes. -/
theorem clear_spec (h : c.Tidy) (hlt : slot < c.nslot) :
    ∃ c', c.clear slot = some c' ∧ c'.Tidy ∧ c'.node = update c.node slot none := by
  set d : MultiPathForwarder α := { c with slot := c.slot.set slot none } with hd
  have hnode : d.node = update c.node slot none := node_set none hlt
  have hbelow : ∀ i, (d.node i).isSome → i ≠ slot ∧ (i : ℤ) ≤ c.maxslot := by
    intro i hi
    rw [hnode] at hi
    have hne : i ≠ slot := by
      rintro rfl
      simp at hi
    rw [update_of_ne hne] at hi
    exact ⟨hne, h.below i hi⟩
  have hsize : c.slot.set slot none = [] ∨ ∃ k ≤ 30, (c.slot.set slot none).length = 2 ^ k := by
    simpa [nslot] using h.size
  have hcursor : c.ns = 0 ∨ c.ns < (c.slot.set slot none).length := by
    simpa [nslot] using h.cursor
  by_cases hmax : (slot : ℤ) = c.maxslot
  · refine ⟨{ d with maxslot := d.lower slot }, ?_, ⟨h.nsize, hsize, fun i hi => ?_, ?_, hcursor⟩, hnode⟩
    · exact (if_pos hlt).trans (congrArg some (if_pos hmax))
    · obtain ⟨hne, hle⟩ := hbelow i hi
      exact (lower_spec d slot).2 i (by omega) hi
    · exact (lower_spec d slot).1
  · refine ⟨d, ?_, ⟨h.nsize, hsize, fun i hi => (hbelow i hi).2, h.top.imp_right ?_, hcursor⟩, hnode⟩
    · exact (if_pos hlt).trans (congrArg some (if_neg hmax))
    · rintro ⟨i, hi, hsome⟩
      refine ⟨i, hi, ?_⟩
      rw [hnode, update_of_ne (by omega)]
      exact hsome

/-! ## The cursor -/

def busy (c : MultiPathForwarder α) (i : ℕ) : Bool := (c.node i).isSome

def bound (c : MultiPathForwarder α) : ℕ := (c.maxslot + 1).toNat

/-- The slots that `classify` returns next, in their order. -/
def upcoming (c : MultiPathForwarder α) : List ℕ :=
  around c.busy c.bound (if c.ns < c.bound then c.ns else (c.ns + 1) % c.bound)

theorem classifyLoop_spec {a b : List ℕ} {fail fuel ns cl : ℕ} (hns : ns < c.bound)
    (hle : c.bound ≤ c.nslot) (hrot : (range c.bound).rotate ns = a ++ cl :: b)
    (ha : ∀ x ∈ a, ¬ c.busy x) (hcl : c.busy cl) (hfail : fail ∉ (a ++ [cl]).tail) (hfuel : a.length < fuel) :
    c.classifyLoop fail fuel ns = some (cl, (cl + 1) % c.bound) ∧
      around c.busy c.bound cl = around c.busy c.bound ns := by
  induction a generalizing ns b fuel with
  | nil =>
    obtain ⟨t, ht, -⟩ := rotate_cursor hns
    obtain rfl : cl = ns := by
      rw [hrot] at ht
      exact (cons.inj ht).1
    obtain ⟨fuel, rfl⟩ := Nat.exists_eq_succ_of_ne_zero (Nat.ne_zero_of_lt hfuel)
    obtain ⟨p, hp⟩ := Option.isSome_iff_exists.mp hcl
    have hslot : c.slot[cl]? = some (some p) := by simpa [node, Option.join_eq_some_iff] using hp
    refine ⟨?_, rfl⟩
    rw [classifyLoop]
    dsimp only
    rw [← bound, if_neg (Nat.ne_zero_of_lt hns), hslot]
  | cons x a ih =>
    obtain ⟨t, ht, hnext⟩ := rotate_cursor hns
    obtain ⟨rfl, rfl⟩ : x = ns ∧ a ++ cl :: b = t := by
      rw [hrot] at ht
      exact cons.inj ht
    obtain ⟨fuel, rfl⟩ := Nat.exists_eq_succ_of_ne_zero (Nat.ne_zero_of_lt hfuel)
    have hx := ha x mem_cons_self
    have hslot : c.slot[x]? = some none := by
      have hlt : x < c.slot.length := hns.trans_le hle
      cases hget : c.slot[x] with
      | none => rw [getElem?_eq_getElem hlt, hget]
      | some p => simp [busy, node, getElem?_eq_getElem hlt, hget] at hx
    have hpos : 0 < c.bound := Nat.zero_lt_of_lt hns
    have hns' : (x + 1) % c.bound < c.bound := Nat.mod_lt _ hpos
    rw [append_assoc] at hnext
    -- the cursor is at the head of what is left
    have hhead : (a ++ [cl]).head? = some ((x + 1) % c.bound) := by
      obtain ⟨t', ht', -⟩ := rotate_cursor hns'
      rw [hnext] at ht'
      cases a with
      | nil => simpa using (cons.inj ht').1
      | cons y a => simpa using (cons.inj ht').1
    have hne : (x + 1) % c.bound ≠ fail := by
      rintro rfl
      exact hfail (mem_of_mem_head? (by rw [cons_append, tail_cons, hhead]; rfl))
    obtain ⟨hloop, haround⟩ := ih hns' hnext (fun y hy => ha y (mem_cons_of_mem _ hy))
      (fun hmem => hfail (mem_of_mem_tail hmem)) (by simpa using hfuel)
    refine ⟨?_, haround.trans (around_skip hns hx)⟩
    rw [classifyLoop]
    dsimp only
    rw [← bound, if_neg hpos.ne', hslot]
    dsimp only
    rw [if_pos hne, hloop]

theorem bound_le (h : c.Tidy) : c.bound ≤ c.nslot := by
  rcases h.top with htop | ⟨i, hi, hsome⟩
  · simp [bound, htop]
  · have hlt := node_lt hsome
    rw [bound, hi]
    omega

theorem lt_bound (h : c.Tidy) (hi : (c.node i).isSome) : i < c.bound := by
  have hle := h.below i hi
  rw [bound]
  omega

theorem upcoming_of_lt (h : c.ns < c.bound) : c.upcoming = around c.busy c.bound c.ns :=
  congrArg (around c.busy c.bound) (if_pos h)

theorem mem_upcoming (h : c.Tidy) : i ∈ c.upcoming ↔ (c.node i).isSome := by
  rw [upcoming, mem_around]
  exact ⟨fun hi => hi.2, fun hi => ⟨lt_bound h hi, hi⟩⟩

/-- From a slot below the bound, `classify` takes the next one with a node. -/
theorem loop_spec (h : c.Tidy) {fail fuel ns cl : ℕ} {t : List ℕ} (hns : ns < c.bound)
    (hstop : fail = ns ∨ c.bound ≤ fail) (hnext : around c.busy c.bound ns = cl :: t)
    (hfuel : c.bound ≤ fuel) :
    c.classifyLoop fail fuel ns = some (cl, (cl + 1) % c.bound) ∧
      around c.busy c.bound ((cl + 1) % c.bound) = t ++ [cl] ∧ (cl + 1) % c.bound < c.bound := by
  obtain ⟨a, b, hrot, ha, hcl, -⟩ := filter_eq_cons_iff.mp hnext
  have hnodup : (a ++ cl :: b).Nodup := hrot ▸ nodup_rotate.mpr nodup_range
  have hmem : ∀ x ∈ a ++ cl :: b, x < c.bound := by
    intro x hx
    rw [← hrot, mem_rotate, mem_range] at hx
    exact hx
  have hclm : cl < c.bound := hmem cl (by simp)
  have hlen : a.length < fuel := by
    have hl := congrArg length hrot
    rw [length_rotate, length_range, length_append, length_cons] at hl
    omega
  have hfail : fail ∉ (a ++ [cl]).tail := by
    intro hin
    have hsub : (a ++ [cl]) <+: a ++ cl :: b := ⟨b, by simp⟩
    rcases hstop with rfl | hge
    · obtain ⟨t', ht', -⟩ := rotate_cursor hns
      rw [hrot] at ht'
      have hd : (a ++ [cl]).Nodup := hnodup.sublist hsub.sublist
      cases a with
      | nil => simp at hin
      | cons y a =>
        obtain rfl : y = fail := (cons.inj ht').1
        exact (nodup_cons.mp hd).1 hin
    · exact absurd (hmem fail (hsub.subset (mem_of_mem_tail hin))) (not_lt.mpr hge)
  obtain ⟨hloop, haround⟩ := classifyLoop_spec hns (bound_le h) hrot (by simpa using ha) hcl hfail hlen
  obtain ⟨t', ht', hlast⟩ := around_pick (p := c.busy) hclm hcl
  rw [haround, hnext] at ht'
  refine ⟨hloop, ?_, Nat.mod_lt _ (Nat.zero_lt_of_lt hclm)⟩
  rw [hlast, (cons.inj ht').2]

/-- **`classify`** returns the first of the slots to come, which is then the last one. -/
theorem classify_spec (h : c.Tidy) (hsome : ∃ i, (c.node i).isSome) :
    ∃ cl t ns', c.upcoming = cl :: t ∧ c.classify = some (cl, { c with ns := ns' }) ∧
      (c.node cl).isSome ∧ ({ c with ns := ns' } : MultiPathForwarder α).upcoming = t ++ [cl] ∧
      ns' < c.nslot := by
  obtain ⟨i, hi⟩ := hsome
  have hib := lt_bound h hi
  have hpos : 0 < c.bound := Nat.zero_lt_of_lt hib
  obtain ⟨cl, t, hup⟩ := exists_cons_of_ne_nil (ne_nil_of_mem ((mem_upcoming h).mpr hi))
  have hcl : (c.node cl).isSome := (mem_upcoming h).mp (hup ▸ mem_cons_self)
  suffices hclassify : c.classifyLoop c.ns (c.nslot + 1) c.ns = some (cl, (cl + 1) % c.bound) ∧
      around c.busy c.bound ((cl + 1) % c.bound) = t ++ [cl] ∧ (cl + 1) % c.bound < c.bound by
    obtain ⟨hloop, haround, hlt⟩ := hclassify
    have hlast := upcoming_of_lt (c := { c with ns := (cl + 1) % c.bound }) hlt
    exact ⟨cl, t, (cl + 1) % c.bound, hup, by rw [classify, hloop]; rfl, hcl, hlast.trans haround,
      hlt.trans_le (bound_le h)⟩
  unfold upcoming at hup
  by_cases hns : c.ns < c.bound
  · rw [if_pos hns] at hup
    exact loop_spec h hns (.inl rfl) hup ((bound_le h).trans (Nat.le_succ _))
  · -- the cursor is beyond `maxslot_`, at an empty slot
    rw [if_neg hns] at hup
    have hslot : c.slot[c.ns]? = some none := by
      have hlt : c.ns < c.slot.length := h.cursor.resolve_left (by omega)
      cases hget : c.slot[c.ns] with
      | none => rw [getElem?_eq_getElem hlt, hget]
      | some p =>
        have hbusy : (c.node c.ns).isSome := by simp [node, getElem?_eq_getElem hlt, hget]
        exact absurd (lt_bound h hbusy) hns
    have hlt := Nat.mod_lt (c.ns + 1) hpos
    rw [classifyLoop]
    dsimp only
    rw [← bound, if_neg hpos.ne', hslot]
    dsimp only
    rw [if_pos (by omega : (c.ns + 1) % c.bound ≠ c.ns)]
    exact loop_spec h hlt (.inr (not_lt.mp hns)) hup (bound_le h)

/-- **A division by zero**: no slot has a node. -/
theorem empty_divides (h : c.Tidy) (hnone : ∀ i, (c.node i).isNone) : c.classify = none := by
  have hmax : c.maxslot = -1 := by
    refine h.top.resolve_right ?_
    rintro ⟨i, -, hi⟩
    simp [Option.isNone_iff_eq_none.mp (hnone i)] at hi
  rw [classify, classifyLoop]
  simp [hmax]

/-! ## Runs -/

/-- **One operation** that succeeds changes at most one slot. -/
theorem step_tidy (h : c.Tidy) {op : Op α} {o : Out} (hs : step c op = some (c', o)) :
    Ready c op ∧ c'.Tidy ∧ c'.node = record c.node (op, o) := by
  cases op with
  | install slot p =>
    obtain ⟨d, hd, heq⟩ := Option.map_eq_some_iff.mp hs
    cases heq
    have hslot : slot < 2 ^ 30 := by
      by_contra hge
      rw [install_none h (not_lt.mp hge)] at hd
      cases hd
    obtain ⟨e, he, htidy, hnode⟩ := install_spec h hslot p
    rw [hd] at he
    cases he
    exact ⟨hslot, htidy, hnode⟩
  | installNext p =>
    obtain ⟨d, hd, heq⟩ := Option.map_eq_some_iff.mp hs
    cases heq
    obtain ⟨e, he, rfl⟩ := Option.map_eq_some_iff.mp hd
    have hslot : (c.maxslot + 1).toNat < 2 ^ 30 := by
      by_contra hge
      rw [install_none h (not_lt.mp hge)] at he
      cases he
    obtain ⟨e', he', htidy, hnode⟩ := install_spec h hslot p
    rw [he] at he'
    cases he'
    exact ⟨show c.maxslot + 1 < 2 ^ 30 by omega, htidy, hnode⟩
  | clear slot =>
    obtain ⟨d, hd, heq⟩ := Option.map_eq_some_iff.mp hs
    cases heq
    obtain ⟨hlt, -⟩ := Option.ite_none_right_eq_some.mp hd
    obtain ⟨e, he, htidy, hnode⟩ := clear_spec h hlt
    rw [hd] at he
    cases he
    exact ⟨trivial, htidy, hnode⟩
  | classify =>
    obtain ⟨d, hd, heq⟩ := Option.map_eq_some_iff.mp hs
    cases heq
    have hsome : ∃ i, (c.node i).isSome := by
      by_contra hno
      rw [empty_divides h (by simpa using hno)] at hd
      cases hd
    obtain ⟨cl, t, ns', -, hclassify, -, -, hns⟩ := classify_spec h hsome
    rw [hd] at hclassify
    cases hclassify
    exact ⟨hsome, ⟨h.nsize, h.size, h.below, h.top, .inr hns⟩, rfl⟩

theorem step_some (h : c.Tidy) {op : Op α} (hallowed : Allowed c op) (hready : Ready c op) :
    ∃ c' o, step c op = some (c', o) := by
  cases op with
  | install slot p =>
    obtain ⟨d, hd, -⟩ := install_spec h hready p
    exact ⟨d, _, by rw [step, hd]; rfl⟩
  | installNext p =>
    have hslot : (c.maxslot + 1).toNat < 2 ^ 30 := by
      have hlt : c.maxslot + 1 < 2 ^ 30 := hready
      omega
    obtain ⟨d, hd, -⟩ := install_spec h hslot p
    exact ⟨d, _, by rw [step, installNext, hd]; rfl⟩
  | clear slot =>
    obtain ⟨d, hd, -⟩ := clear_spec h hallowed
    exact ⟨d, _, by rw [step, hd]; rfl⟩
  | classify =>
    obtain ⟨cl, t, ns', -, hclassify, -⟩ := classify_spec h hready
    exact ⟨_, _, by rw [step, hclassify]; rfl⟩

/-- Only `classify` moves the cursor. -/
theorem step_ns {op : Op α} {o : Out} (hs : step c op = some (c', o)) :
    op = .classify ∨ o.slot? = none ∧ c'.ns = c.ns := by
  have hinstall : ∀ slot p d, c.install slot p = some d → d.ns = c.ns := by
    intro slot p d hd
    obtain ⟨e, he, rfl⟩ := Option.map_eq_some_iff.mp hd
    split_ifs at he
    · obtain ⟨n, -, rfl⟩ := Option.map_eq_some_iff.mp he
      rfl
    · cases he
      rfl
  cases op with
  | install slot p =>
    obtain ⟨d, hd, heq⟩ := Option.map_eq_some_iff.mp hs
    cases heq
    exact .inr ⟨rfl, hinstall _ _ _ hd⟩
  | installNext p =>
    obtain ⟨d, hd, heq⟩ := Option.map_eq_some_iff.mp hs
    cases heq
    obtain ⟨e, he, rfl⟩ := Option.map_eq_some_iff.mp hd
    exact .inr ⟨rfl, hinstall _ _ _ he⟩
  | clear slot =>
    obtain ⟨d, hd, heq⟩ := Option.map_eq_some_iff.mp hs
    cases heq
    obtain ⟨-, heq⟩ := Option.ite_none_right_eq_some.mp hd
    cases heq
    exact .inr ⟨rfl, by split_ifs <;> rfl⟩
  | classify => exact .inl rfl

/-- The highest slot depends on the nodes alone. -/
theorem maxslot_eq (h : c.Tidy) (h' : c'.Tidy) (hnode : c'.node = c.node) : c'.maxslot = c.maxslot := by
  refine le_antisymm ?_ ?_
  · rcases h'.top with htop | ⟨i, hi, hsome⟩
    · rcases h.top with htop' | ⟨j, hj, -⟩ <;> omega
    · rw [hi]
      exact h.below i (hnode ▸ hsome)
  · rcases h.top with htop | ⟨i, hi, hsome⟩
    · rcases h'.top with htop' | ⟨j, hj, -⟩ <;> omega
    · rw [hi]
      exact h'.below i (hnode ▸ hsome)

/-- As long as the table is unchanged, the slots to come are served in turn. -/
theorem returned_served {seg : List (Op α)} {outs : List Out} (h : c.Tidy)
    (hrun : Runs.run step c seg = some (c', outs)) (hsame : Unchanged c seg) :
    ∃ n, returned outs = served n c.upcoming := by
  induction seg generalizing c outs with
  | nil =>
    cases hrun
    exact ⟨0, rfl⟩
  | cons op seg ih =>
    obtain ⟨⟨d, o⟩, hs, hrun⟩ := Option.bind_eq_some_iff.mp hrun
    obtain ⟨⟨e, outs⟩, hrest, heq⟩ := Option.map_eq_some_iff.mp hrun
    cases heq
    have hslot : d.slot = c.slot := hsame [op] ⟨seg, rfl⟩ (d, [o]) (by rw [Runs.run_cons hs]; rfl)
    have hnode : d.node = c.node := by
      funext i
      rw [node, hslot]
      rfl
    have hd := (step_tidy h hs).2.1
    have hsame' : Unchanged d seg := by
      intro pre hpre r hr
      rw [hslot]
      refine hsame (op :: pre) ((cons_prefix_cons).mpr ⟨rfl, hpre⟩) (r.1, o :: r.2) ?_
      rw [Runs.run_cons hs, hr]
      rfl
    obtain ⟨n, hn⟩ := ih hd hrest hsame'
    rcases step_ns hs with rfl | ⟨ho, hns⟩
    · obtain ⟨cl, t, ns', hup, hclassify, -, hlast, -⟩ := classify_spec h (step_tidy h hs).1
      rw [step, hclassify] at hs
      cases hs
      refine ⟨n + 1, ?_⟩
      rw [hup, served, ← hlast, ← hn]
      rfl
    · have hup : d.upcoming = c.upcoming := by
        have hbusy : d.busy = c.busy := by
          funext i
          rw [busy, hnode]
          rfl
        rw [upcoming, upcoming, hbusy, hns, bound, bound, maxslot_eq h hd hnode]
      refine ⟨n, ?_⟩
      rw [← hup, ← hn, returned, filterMap_cons_none ho]
      rfl

/-- Between two returns of a slot, every other slot with a node is returned once. -/
theorem fair {seg : List (Op α)} {outs : List Out} (h : c.Tidy)
    (hrun : Runs.run step c seg = some (c', outs)) (hsame : Unchanged c seg) {s : ℕ} {mid : List ℕ}
    (hreturned : returned outs = s :: mid ++ [s]) (hs : s ∉ mid) (hi : (c.node i).isSome) (hne : i ≠ s) :
    mid.count i = 1 := by
  obtain ⟨n, hn⟩ := returned_served h hrun hsame
  have hnodup : c.upcoming.Nodup := nodup_around
  have hup := served_between hnodup (hn.symm.trans hreturned) hs
  have hmem : i ∈ mid := by
    have hin := (mem_upcoming h).mpr hi
    rw [hup] at hin
    exact (mem_cons.mp hin).resolve_left hne
  rw [hup] at hnodup
  exact count_eq_one_of_mem (nodup_cons.mp hnodup).2 hmem

theorem installed_concat {past : List (Op α)} {outs : List Out} (hlen : past.length = outs.length)
    (op : Op α) (o : Out) :
    installed (past ++ [op]) (outs ++ [o]) = record (installed past outs) (op, o) := by
  rw [installed, zip_append hlen, foldl_append]
  rfl

/-- The forwarder that is tidy serves fairly. -/
theorem Tidy.serves {past : List (Op α)} {outs : List Out} (h : c.Tidy)
    (hkept : c.node = installed past outs) : Serves past outs c where
  highest := ⟨h.below, h.top⟩
  kept := hkept
  found := by
    intro hsome
    obtain ⟨cl, t, ns', -, hclassify, hcl, -⟩ := classify_spec h hsome
    obtain ⟨p, hp⟩ := Option.isSome_iff_exists.mp hcl
    refine ⟨cl, p, _, hclassify, hp, ?_⟩
    rw [find, hclassify, Option.map_some, hp]
  fair := fun _ _ _ hrun hsame _ _ hreturned hs _ hi hne => fair h hrun hsame hreturned hs hi hne

/-- By induction on the calls: the slots are those that were installed. -/
theorem run_tidy {past : List (Op α)} {outs : List Out} (hrun : Runs.run step init past = some (c, outs)) :
    past.length = outs.length ∧ c.Tidy ∧ c.node = installed past outs := by
  refine @Runs.run_keeps _ _ _ step (fun _ _ => True) init c past [] outs [] (fun past outs c =>
    past.length = outs.length ∧ c.Tidy ∧ c.node = installed past outs) ?_ ⟨rfl, tidy_init, ?_⟩
    (Runs.meets_of_forall (fun _ _ => trivial)) hrun
  · rintro past outs c op c' o ⟨hlen, h, hkept⟩ - hs
    obtain ⟨-, h', hnode⟩ := step_tidy h hs
    exact ⟨by simp [hlen], h', by rw [installed_concat hlen, hnode, hkept]⟩
  · funext i
    simp [node, init, installed]

/-- **Equal-cost multipath forwarding is a fair round robin** in the runs in which packets find some node,
and the slots are below `2 ^ 30`, and only there. -/
theorem round_robin_iff (ops : List (Op α)) (hallowed : Runs.Meets step Allowed init ops) :
    (∀ past, past <+: ops → ∃ c outs, Runs.run step init past = some (c, outs) ∧ Serves past outs c) ↔
      Runs.Meets step Ready (init : MultiPathForwarder α) ops := by
  constructor
  · intro hall
    refine Runs.meets_of_prefixes (fun past op r hpre _ hr => ?_)
    obtain ⟨c', outs', hrun, -⟩ := hall _ hpre
    cases hs : step r.1 op with
    | none =>
      rw [Runs.run_concat_none hr hs] at hrun
      cases hrun
    | some q => exact (step_tidy (run_tidy hr).2.1 hs).1
  · rintro hmeets past ⟨rest, rfl⟩
    obtain ⟨c, outs, hrun, -⟩ := @Runs.run_invariant _ _ _ step _ init past (fun _ _ c => c.Tidy)
      (fun _ _ c op h hok => by
        obtain ⟨c', o, hs⟩ := step_some h hok.1 hok.2
        exact ⟨c', o, hs, (step_tidy h hs).2.1⟩) tidy_init
      (hallowed.append_left.and hmeets.append_left)
    obtain ⟨-, h, hkept⟩ := run_tidy hrun
    exact ⟨c, outs, hrun, h.serves hkept⟩

/-- Three nodes, the last of them cleared when the cursor is there. -/
def threeNodes : List (Op ℕ) :=
  [.installNext 7, .install 3 8, .classify, .installNext 9, .classify, .clear 4, .classify, .classify, .classify]

theorem round_robin_iff_three :
    Runs.Meets step Ready init threeNodes ∧ ∀ past, past <+: threeNodes →
      ∃ c outs, Runs.run step init past = some (c, outs) ∧ Serves past outs c := by
  have hready : Runs.Meets step Ready init threeNodes := by decide +kernel
  exact ⟨hready, (round_robin_iff threeNodes (by decide +kernel)).mpr hready⟩

/-- **No node is there**: the first packet makes `classify` divide by zero. -/
theorem empty_table_divides : ¬ ∀ past, past <+: [Op.classify] →
    ∃ c outs, Runs.run step (init : MultiPathForwarder ℕ) past = some (c, outs) ∧ Serves past outs c := by
  intro hall
  obtain ⟨c, outs, hrun, -⟩ := hall [.classify] (prefix_refl _)
  cases hrun

end NetSim.MultiPathForwarder
