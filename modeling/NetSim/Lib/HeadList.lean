import NetSim.Lib.LinkedList

/-! # Doubly linked lists that are allocated and freed

A list with one anchor, `head`. The nodes are addresses; a node that is not allocated, or has been
freed, has no value, and an operation that reads or writes a field of such a node fails.
`HeadList.Holds L xs` says that the list consists of the nodes `xs`, and that these are all that are
allocated. The library has the operations that keep it: adding a node in front, unlinking one, and
the walks along the list.
-/

namespace LinkedList

open Function List

structure HeadList (V : Type) where
  next : ℕ → Option ℕ
  prev : ℕ → Option ℕ
  val : ℕ → Option V
  head : Option ℕ

namespace HeadList

variable {V : Type}

def empty : HeadList V := { next := fun _ => none, prev := fun _ => none, val := fun _ => none, head := none }

/-- A field of the node is accessed, if there is one. -/
def touch (L : HeadList V) : Option ℕ → Option Unit
  | none => some ()
  | some a => (L.val a).map (fun _ => ())

/-- Allocate the node `a` in front of the list. -/
def pushFront (L : HeadList V) (a : ℕ) (v : V) : Option (HeadList V) :=
  (L.touch L.head).map (fun _ =>
    { next := update L.next a L.head
      prev := setField (update L.prev a none) L.head (some a)
      val := update L.val a (some v)
      head := some a })

/-- Unlink the node `p` and free it. -/
def unlink (L : HeadList V) (p : ℕ) : Option (HeadList V) :=
  (L.val p).bind (fun _ =>
    if L.head = some p then
      (L.touch (L.next p)).map (fun _ =>
        { next := L.next
          prev := setField L.prev (L.next p) none
          val := update L.val p none
          head := L.next p })
    else
      (L.prev p).bind (fun q =>
        (L.val q).bind (fun _ =>
          let next := update L.next q (L.next p)
          (L.touch (next p)).map (fun _ =>
            { next
              prev := setField L.prev (next p) (L.prev p)
              val := update L.val p none
              head := L.head }))))

/-- `for (; a != NULL; a = a->next) if (c(a)) break;`. The outer `none`: the walk fails. -/
def find (L : HeadList V) (c : V → Bool) : ℕ → Option ℕ → Option (Option ℕ)
  | 0, _ => none
  | _ + 1, none => some none
  | fuel + 1, some a =>
    (L.val a).bind (fun v => if c v then some (some a) else find L c fuel (L.next a))

/-- `for (; a != NULL; a = a->next) f(a);`, where `f` may fail. -/
def forEach (f : V → Option V) : ℕ → Option ℕ → HeadList V → Option (HeadList V)
  | 0, _, _ => none
  | _ + 1, none, L => some L
  | fuel + 1, some a, L =>
    ((L.val a).bind f).bind (fun v =>
      forEach f fuel (L.next a) { L with val := update L.val a (some v) })

/-- The values along the list, as far as they can be read. -/
def toList (L : HeadList V) : ℕ → Option ℕ → List V
  | 0, _ => []
  | _ + 1, none => []
  | fuel + 1, some a => (L.val a).elim [] (fun v => v :: toList L fuel (L.next a))

/-- The list consists of the nodes `xs`, and no other node is allocated. -/
structure Holds (L : HeadList V) (xs : List ℕ) : Prop where
  head : L.head = xs.head?
  path : Path L.next L.prev none xs none
  nodup : xs.Nodup
  live : ∀ a, (L.val a).isSome ↔ a ∈ xs

variable {L L' : HeadList V} {xs l r : List ℕ} {p a : ℕ} {v : V} {fuel : ℕ}

theorem holds_empty : Holds (empty : HeadList V) [] :=
  ⟨rfl, trivial, nodup_nil, fun a => by simp [empty]⟩

theorem Holds.exists_val (h : Holds L xs) (ha : a ∈ xs) : ∃ v, L.val a = some v :=
  Option.isSome_iff_exists.mp ((h.live a).mpr ha)

theorem Holds.touch (h : Holds L xs) {o : Option ℕ} (ho : ∀ a ∈ o, a ∈ xs) :
    L.touch o = some () := by
  cases o with
  | none => rfl
  | some a =>
    obtain ⟨v, hv⟩ := h.exists_val (ho a rfl)
    rw [HeadList.touch, hv]
    rfl

theorem Holds.of_val (h : Holds L xs) (hn : L'.next = L.next) (hp : L'.prev = L.prev)
    (hh : L'.head = L.head) (hv : ∀ a, (L'.val a).isSome ↔ (L.val a).isSome) : Holds L' xs :=
  ⟨by rw [hh, h.head], by rw [hn, hp]; exact h.path, h.nodup, fun a => (hv a).trans (h.live a)⟩

theorem Holds.pushFront (h : Holds L xs) (ha : a ∉ xs) (v : V) :
    ∃ L', L.pushFront a v = some L' ∧ Holds L' (a :: xs) ∧
      L'.val = update L.val a (some v) := by
  have htouch : L.touch L.head = some () := by
    refine h.touch (fun b hb => ?_)
    rw [h.head] at hb
    exact mem_of_head? hb
  have hhead : L.head ≠ some a := by
    rw [h.head]
    exact fun hb => ha (mem_of_head? hb)
  have hne : ∀ b ∈ xs, b ≠ a := fun b hb he => ha (he ▸ hb)
  rw [HeadList.pushFront, htouch]
  refine ⟨_, rfl, ⟨rfl, ⟨?_, ?_, ?_⟩, nodup_cons.mpr ⟨ha, h.nodup⟩, fun b => ?_⟩, rfl⟩
  · show setField (update L.prev a none) L.head (some a) a = none
    rw [setField_of_ne _ _ hhead, update_self]
  · show update L.next a L.head a = xs.head?.or none
    rw [update_self, Option.or_none, h.head]
  · have hpath := h.path.set_before h.nodup (some a)
    refine hpath.congr (fun b hb => ?_) (fun b hb => ?_)
    · exact update_of_ne (hne b hb) _ _
    · rw [h.head]
      cases hx : xs.head? with
      | none => exact update_of_ne (hne b hb) _ _
      | some c =>
        simp only [setField, update_apply]
        split
        · rfl
        · rw [if_neg (hne b hb)]
  · show (update L.val a (some v) b).isSome = true ↔ _
    by_cases hb : b = a
    · rw [hb, update_self]
      simp
    · rw [update_of_ne hb, h.live, mem_cons, or_iff_right hb]

theorem Holds.unlink (h : Holds L (l ++ p :: r)) :
    ∃ L', L.unlink p = some L' ∧ Holds L' (l ++ r) ∧ L'.val = update L.val p none := by
  obtain ⟨hl, hr, hpl, hpr, hlr⟩ := nodup_middle h.nodup
  obtain ⟨hpath, hprev, hnext, hrest⟩ := path_append.mp h.path
  rw [Option.or_none] at hprev hnext
  obtain ⟨v, hv⟩ := h.exists_val (show p ∈ l ++ p :: r by simp)
  have htouch : L.touch (L.next p) = some () := by
    refine h.touch (fun b hb => ?_)
    rw [hnext] at hb
    exact mem_append_right _ (mem_cons_of_mem _ (mem_of_head? hb))
  have hnodup : (l ++ r).Nodup :=
    h.nodup.sublist (List.Sublist.append (List.Sublist.refl l) (sublist_cons_self p r))
  have hlive : ∀ b, (update L.val p none b).isSome ↔ b ∈ l ++ r := by
    intro b
    by_cases hb : b = p
    · rw [hb, update_self]
      simp [hpl, hpr]
    · rw [update_of_ne hb, h.live]
      simp [hb]
  rw [HeadList.unlink, hv, Option.bind_some]
  split
  case isTrue hhead =>
    -- the first node
    have hnil : l = [] := by
      cases l with
      | nil => rfl
      | cons b l =>
        rw [h.head] at hhead
        simp only [cons_append, head?_cons, Option.some.injEq] at hhead
        exact absurd hhead (fun he => hpl (by simp [he]))
    subst hnil
    rw [htouch]
    refine ⟨_, rfl, ⟨hnext, ?_, hnodup, hlive⟩, rfl⟩
    rw [hnext]
    exact hrest.set_before hr none
  case isFalse hhead =>
    rcases eq_nil_or_concat l with rfl | ⟨m, q, hm⟩
    · exact absurd (by rw [h.head]; rfl) hhead
    have hlast : l.getLast? = some q := by
      rw [hm]
      simp
    have hql : q ∈ l := mem_of_getLast? hlast
    have hqp : p ≠ q := fun he => hpl (he ▸ hql)
    rw [hlast] at hprev
    obtain ⟨w, hw⟩ := h.exists_val (mem_append_left (p :: r) hql)
    simp only [hprev, Option.bind_some, hw, update_of_ne hqp, htouch]
    refine ⟨_, rfl, ⟨?_, ?_, hnodup, hlive⟩, rfl⟩
    · rw [h.head, head?_append, head?_append, hm]
      simp
    · rw [hnext, path_append, Option.or_none, Option.or_none, hlast]
      constructor
      · have hset := hpath.set_after hl r.head?
        rw [hlast] at hset
        refine hset.congr (fun _ _ => rfl) (fun b hb => ?_)
        exact setField_of_ne _ _ (fun he => hlr b hb (mem_of_head? he))
      · refine (hrest.set_before hr (some q)).congr (fun b hb => ?_) (fun _ _ => rfl)
        have hne : b ≠ q := fun he => hlr q hql (he ▸ hb)
        exact update_of_ne hne _ _

/-! ## Walks -/

theorem Holds.next_eq (h : Holds L (l ++ a :: r)) : L.next a = r.head? := by
  have := (path_append.mp h.path).2.2.1
  simpa using this

theorem Holds.find (h : Holds L (l ++ r)) (c : V → Bool) (hf : r.length < fuel) :
    L.find c fuel r.head? = some (r.find? (fun a => (L.val a).any c)) := by
  induction r generalizing l fuel with
  | nil =>
    cases fuel with
    | zero => omega
    | succ fuel => rfl
  | cons a r ih =>
    cases fuel with
    | zero => omega
    | succ fuel =>
      obtain ⟨v, hv⟩ := h.exists_val (show a ∈ l ++ a :: r by simp)
      have h' : Holds L ((l ++ [a]) ++ r) := by simpa using h
      rw [head?_cons, HeadList.find, hv, Option.bind_some, find?_cons, hv,
        Option.any_some]
      cases hc : c v with
      | true => rfl
      | false =>
        rw [h.next_eq]
        exact ih h' (by simpa using hf)

theorem Holds.toList (h : Holds L (l ++ r)) (hf : r.length < fuel) :
    L.toList fuel r.head? = r.filterMap L.val := by
  induction r generalizing l fuel with
  | nil =>
    cases fuel with
    | zero => omega
    | succ fuel => rfl
  | cons a r ih =>
    cases fuel with
    | zero => omega
    | succ fuel =>
      obtain ⟨v, hv⟩ := h.exists_val (show a ∈ l ++ a :: r by simp)
      have h' : Holds L ((l ++ [a]) ++ r) := by simpa using h
      rw [head?_cons, HeadList.toList, hv, Option.elim_some, filterMap_cons_some hv,
        h.next_eq, ih h' (by simpa using hf)]

theorem Holds.forEach {f : V → Option V} {g : V → V} (h : Holds L (l ++ r))
    (hf : ∀ a ∈ r, ∀ v ∈ L.val a, f v = some (g v)) (hfuel : r.length < fuel) :
    ∃ L', L.forEach f fuel r.head? = some L' ∧ Holds L' (l ++ r) ∧
      ∀ a, L'.val a = if a ∈ r then (L.val a).map g else L.val a := by
  induction r generalizing l fuel L with
  | nil =>
    cases fuel with
    | zero => omega
    | succ fuel => exact ⟨L, rfl, h, fun a => by simp⟩
  | cons b r ih =>
    cases fuel with
    | zero => omega
    | succ fuel =>
      obtain ⟨v, hv⟩ := h.exists_val (show b ∈ l ++ b :: r by simp)
      have hbr : b ∉ r := (nodup_middle h.nodup).2.2.2.1
      have h₁ : Holds { L with val := update L.val b (some (g v)) } ((l ++ [b]) ++ r) := by
        rw [append_assoc, singleton_append]
        refine h.of_val rfl rfl rfl (fun a => ?_)
        show (update L.val b (some (g v)) a).isSome = true ↔ _
        by_cases ha : a = b
        · rw [ha, update_self, hv]
          simp
        · rw [update_of_ne ha]
      have hf₁ : ∀ a ∈ r, ∀ w ∈ update L.val b (some (g v)) a, f w = some (g w) := by
        intro a ha w hw
        have hne : a ≠ b := fun he => hbr (he ▸ ha)
        rw [update_of_ne hne] at hw
        exact hf a (mem_cons_of_mem _ ha) w hw
      have hlen : r.length < fuel := by simpa using hfuel
      obtain ⟨L', heq, h', hval⟩ := ih h₁ hf₁ hlen
      refine ⟨L', ?_, ?_, fun a => ?_⟩
      · rw [head?_cons, HeadList.forEach, hv, Option.bind_some, hf b (by simp) v hv,
          Option.bind_some, h.next_eq]
        exact heq
      · rw [append_assoc, singleton_append] at h'
        exact h'
      · rw [hval]
        by_cases hab : a = b
        · rw [hab, if_neg hbr, if_pos (by simp)]
          show update L.val b (some (g v)) b = _
          rw [update_self, hv]
          rfl
        · have hmem : a ∈ b :: r ↔ a ∈ r := by rw [mem_cons, or_iff_right hab]
          have hval' : ({ L with val := update L.val b (some (g v)) } : HeadList V).val a =
              L.val a := update_of_ne hab _ _
          rw [hval']
          by_cases har : a ∈ r
          · rw [if_pos har, if_pos (hmem.mpr har)]
          · rw [if_neg har, if_neg (fun hm => har (hmem.mp hm))]

end HeadList

end LinkedList
