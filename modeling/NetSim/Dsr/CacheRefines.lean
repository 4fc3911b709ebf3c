import NetSim.Dsr.MobiCache

/-! # DSR: the route cache refines the set of learnt links

Every cached path is a prefix of a route that was given to the cache: `Cache::addRoute` replaces a path by
the new route or leaves it, and `Cache::noticeDeadLink` cuts it before the dead link. So a cached link was
learnt after it was last found dead (`cache_refines`), and `findRoute` finds a shortest cached path.
-/

namespace NetSim.Dsr

open List

variable {p q path : List ID} {cells cells' : List (List ID)} {a b dest src dst : ID} {n k : ℕ}

namespace Cache

variable {c : Cache}

/-! ## Paths that are added -/

theorem append_drop_commonPrefix (h : commonPrefix p path = p.length) :
    p ++ path.drop (commonPrefix p path) = path := by
  induction p generalizing path with
  | nil =>
    rfl
  | cons a p ih =>
    cases path with
    | nil => cases h
    | cons b path =>
      rw [commonPrefix] at h ⊢
      by_cases hab : a = b
      · rw [if_pos hab, length_cons] at h
        rw [if_pos hab, drop_succ_cons, cons_append, hab, ih (Nat.succ_injective h)]
      · rw [if_neg hab] at h
        cases h

theorem prefix_of_commonPrefix (h : commonPrefix p path = path.length) : path <+: p := by
  induction path generalizing p with
  | nil => exact nil_prefix
  | cons b path ih =>
    cases p with
    | nil => cases h
    | cons a p =>
      rw [commonPrefix] at h
      by_cases hab : a = b
      · rw [if_pos hab, length_cons] at h
        exact cons_prefix_cons.mpr ⟨hab.symm, ih (Nat.succ_injective h)⟩
      · rw [if_neg hab] at h
        cases h

/-- The paths after an extension: the new one replaces a prefix of it, or is contained in a path. -/
theorem extend_spec (h : extend path cells = some (cells', n)) :
    (∀ q ∈ cells', q ∈ cells ∨ q = path) ∧ (∀ p ∈ cells, ∃ q ∈ cells', p <+: q) ∧
      ∃ q ∈ cells', path <+: q := by
  induction cells generalizing cells' n with
  | nil => cases h
  | cons p rest ih =>
    rw [extend] at h
    by_cases hp : commonPrefix p path = p.length
    · rw [if_pos hp] at h
      obtain ⟨rfl, -⟩ := Prod.mk.inj (Option.some.inj h)
      have heq := append_drop_commonPrefix hp
      rw [heq]
      refine ⟨fun q hq => ?_, fun q hq => ?_, path, mem_cons_self, prefix_refl _⟩
      · rcases mem_cons.mp hq with rfl | hq
        · exact .inr rfl
        · exact .inl (mem_cons_of_mem _ hq)
      · rcases mem_cons.mp hq with rfl | hq
        · exact ⟨path, mem_cons_self, heq ▸ prefix_append _ _⟩
        · exact ⟨q, mem_cons_of_mem _ hq, prefix_refl _⟩
    rw [if_neg hp] at h
    by_cases hpath : commonPrefix p path = path.length
    · rw [if_pos hpath] at h
      obtain ⟨rfl, -⟩ := Prod.mk.inj (Option.some.inj h)
      exact ⟨fun q hq => .inl hq, fun q hq => ⟨q, hq, prefix_refl _⟩, p, mem_cons_self,
        prefix_of_commonPrefix hpath⟩
    rw [if_neg hpath] at h
    obtain ⟨⟨cells'', n'⟩, hrest, heq⟩ := Option.map_eq_some_iff.mp h
    obtain ⟨rfl, -⟩ := Prod.mk.inj heq
    obtain ⟨hnew, hold, q, hq, hpath'⟩ := ih hrest
    refine ⟨fun q hq => ?_, fun q hq => ?_, q, mem_cons_of_mem _ hq, hpath'⟩
    · rcases mem_cons.mp hq with rfl | hq
      · exact .inl mem_cons_self
      · exact (hnew q hq).imp_left (mem_cons_of_mem _)
    · rcases mem_cons.mp hq with rfl | hq
      · exact ⟨q, mem_cons_self, prefix_refl _⟩
      · obtain ⟨q', hq', hpre⟩ := hold q hq
        exact ⟨q', mem_cons_of_mem _ hq', hpre⟩

theorem extend_isSome (h : [] ∈ cells) : ∃ r, extend path cells = some r := by
  induction cells with
  | nil => cases h
  | cons p rest ih =>
    rw [extend]
    by_cases hp : commonPrefix p path = p.length
    · rw [if_pos hp]
      exact ⟨_, rfl⟩
    rw [if_neg hp]
    by_cases hpath : commonPrefix p path = path.length
    · rw [if_pos hpath]
      exact ⟨_, rfl⟩
    rw [if_neg hpath]
    have hmem : [] ∈ rest := by
      rcases mem_cons.mp h with rfl | h
      · exact absurd rfl hp
      · exact h
    obtain ⟨r, hr⟩ := ih hmem
    exact ⟨_, by rw [hr]; rfl⟩

theorem mem_addRoute (h : q ∈ (c.addRoute path).1.cache) : q ∈ c.cache ∨ q = path := by
  unfold addRoute at h
  cases hext : extend path c.cache with
  | some r =>
    rw [hext] at h
    exact (extend_spec hext).1 q h
  | none =>
    rw [hext] at h
    have hcache : c.pickVictim.2.cache = c.cache := by
      unfold pickVictim
      split <;> rfl
    dsimp only at h
    rw [hcache] at h
    exact (mem_or_eq_of_mem_set h).imp_left id

theorem addRoute_covers (h : [] ∈ c.cache) :
    (∀ p ∈ c.cache, ∃ q ∈ (c.addRoute path).1.cache, p <+: q) ∧
      ∃ q ∈ (c.addRoute path).1.cache, path <+: q := by
  obtain ⟨r, hext⟩ := @extend_isSome path _ h
  unfold addRoute
  rw [hext]
  exact (extend_spec hext).2

/-! ## Links that are dead -/

def Link (p : List ID) (a b : ID) : Prop := [a, b] <:+: p

theorem Link.of_isPrefixOf (h : Link p a b) (hpre : p <+: q) : Link q a b :=
  List.IsInfix.trans h hpre.isInfix

theorem not_link_nil : ¬ Link [] a b := by
  intro h
  have := List.IsInfix.length_le h
  simp at this

theorem link_cons {x : ID} : Link (x :: p) a b ↔ (x = a ∧ p.head? = some b) ∨ Link p a b := by
  unfold Link
  rw [infix_cons_iff]
  refine or_congr ?_ Iff.rfl
  cases p with
  | nil => simp
  | cons y p => simp [eq_comm]

theorem not_link_singleton {x : ID} : ¬ Link [x] a b := by
  rw [link_cons]
  rintro (⟨-, hhead⟩ | hlink)
  · cases hhead
  · exact not_link_nil hlink

/-- The first place of a link in a path. -/
theorem findLink_spec (p : List ID) :
    match findLink src dst p with
    | none => ¬ Link p src dst
    | some n => n + 1 < p.length ∧ ¬ Link (p.take (n + 1)) src dst := by
  induction p with
  | nil => exact not_link_nil
  | cons x p ih =>
    cases p with
    | nil => exact not_link_singleton
    | cons y p =>
      rw [findLink]
      by_cases hxy : x = src ∧ y = dst
      · rw [if_pos hxy]
        exact ⟨by simp, not_link_singleton⟩
      rw [if_neg hxy]
      have hhead : ∀ l : List ID, ¬ (x = src ∧ (y :: l).head? = some dst) := by
        rintro l ⟨hx, hy⟩
        exact hxy ⟨hx, Option.some.inj hy⟩
      cases hfind : findLink src dst (y :: p) with
      | none =>
        rw [hfind] at ih
        rw [link_cons]
        exact not_or.mpr ⟨hhead p, ih⟩
      | some n =>
        rw [hfind] at ih
        refine ⟨Nat.succ_lt_succ ih.1, ?_⟩
        rw [take_succ_cons, link_cons]
        refine not_or.mpr ⟨?_, ih.2⟩
        exact hhead _

/-- What is left of a path is a prefix of it, long enough to be a path, and without the link. -/
theorem truncate_spec (p : List ID) :
    truncate src dst p <+: p ∧ ¬ Link (truncate src dst p) src dst ∧
      (truncate src dst p = [] ∨ 2 ≤ (truncate src dst p).length ∨ truncate src dst p = p) := by
  have hspec := @findLink_spec src dst p
  unfold truncate
  cases hfind : findLink src dst p with
  | none =>
    rw [hfind] at hspec
    exact ⟨prefix_refl _, hspec, .inr (.inr rfl)⟩
  | some n =>
    rw [hfind] at hspec
    cases n with
    | zero => exact ⟨List.nil_prefix, not_link_nil, .inl rfl⟩
    | succ n =>
      refine ⟨List.take_prefix _ _, hspec.2, .inr (.inl ?_)⟩
      rw [length_take]
      omega

end Cache

/-! ## Routes that are found -/

namespace MobiCache

open Cache

variable {m m' : MobiCache} {f : Found}

def visit (hit : Found → ℕ → List ID → ℕ → Found) (dest : ID) :
    List (List ID) → ℕ → Found → Found
  | [], _, f => f
  | p :: rest, index, f =>
    visit hit dest rest (index + 1)
      (match p.idxOf? dest with
      | none => f
      | some len => hit f len p index)

theorem visit_searchFrom (hit : Found → ℕ → List ID → ℕ → Found) (index : ℕ) :
    match searchFrom dest cells index with
    | none => visit hit dest cells index f = f
    | some (len, p, i) => index ≤ i ∧
        visit hit dest cells index f =
          visit hit dest (cells.drop (i + 1 - index)) (i + 1) (hit f len p i) := by
  induction cells generalizing index with
  | nil => rfl
  | cons p rest ih =>
    rw [searchFrom]
    cases hidx : p.idxOf? dest with
    | some len =>
      refine ⟨le_rfl, ?_⟩
      rw [visit, hidx, Nat.add_sub_cancel_left]
      rfl
    | none =>
      have hrest := ih (index + 1)
      rw [visit, hidx]
      cases hfrom : searchFrom dest rest (index + 1) with
      | none =>
        rw [hfrom] at hrest
        exact hrest
      | some r =>
        obtain ⟨len, q, i⟩ := r
        rw [hfrom] at hrest
        obtain ⟨hle, heq⟩ := hrest
        refine ⟨by omega, ?_⟩
        rw [heq, show i + 1 - index = (i + 1 - (index + 1)) + 1 by omega,
          drop_succ_cons]

theorem searchAll_eq {c : Cache} (hit : Found → ℕ → List ID → ℕ → Found) {fuel index : ℕ}
    (hfuel : c.cache.length < fuel + index) :
    searchAll hit c dest fuel index f = visit hit dest (c.cache.drop index) index f := by
  induction fuel generalizing index f with
  | zero =>
    rw [drop_eq_nil_of_le (by omega)]
    rfl
  | succ fuel ih =>
    have hvisit := @visit_searchFrom (c.cache.drop index) dest f hit index
    rw [searchAll, searchRoute]
    cases hfrom : searchFrom dest (c.cache.drop index) index with
    | none =>
      rw [hfrom] at hvisit
      exact hvisit.symm
    | some r =>
      rw [hfrom] at hvisit
      obtain ⟨hle, heq⟩ := hvisit
      dsimp only
      rw [heq, ih (by omega), drop_drop]
      congr 2
      omega

/-- The shortest route to `dest` in some paths. -/
structure Best (dest : ID) (seen : List (List ID)) (f : Found) : Prop where
  missing : f.minCache = .none ↔ ∀ p ∈ seen, dest ∉ p
  fresh : f.minCache = .none → f.minLength = maxSRLen + 1
  found : f.minCache ≠ .none → f.route ∈ seen ∧ f.route[f.minLength]? = some dest
  least : f.minCache ≠ .none → ∀ q ∈ seen, ∀ n : ℕ, q[n]? = some dest → f.minLength ≤ n

/-- A hit that is shorter becomes the route. -/
def Takes (hit : Found → ℕ → List ID → ℕ → Found) : Prop :=
  ∀ f len p i, ((hit f len p i).minLength, (hit f len p i).route) =
      (if len < f.minLength then (len, p) else (f.minLength, f.route)) ∧
    (len < f.minLength ∨ f.minCache ≠ .none → (hit f len p i).minCache ≠ .none)

theorem takes_hitPrimary : Takes hitPrimary := by
  intro f len p i
  unfold hitPrimary
  by_cases hlt : len < f.minLength
  · rw [if_pos hlt, if_pos hlt]
    exact ⟨rfl, fun _ => by simp⟩
  · rw [if_neg hlt, if_neg hlt]
    exact ⟨rfl, fun _ => by simp⟩

theorem takes_hitSecondary : Takes hitSecondary := by
  intro f len p i
  unfold hitSecondary
  by_cases hlt : len < f.minLength
  · rw [if_pos hlt, if_pos hlt]
    exact ⟨rfl, fun _ => by simp⟩
  · rw [if_neg hlt, if_neg hlt]
    exact ⟨rfl, fun h => h.resolve_left hlt⟩

theorem idxOf_spec (h : p.idxOf? dest = some n) :
    p[n]? = some dest ∧ ∀ k : ℕ, p[k]? = some dest → n ≤ k := by
  rw [List.idxOf?, findIdx?_eq_some_iff_getElem] at h
  obtain ⟨hlt, heq, hbefore⟩ := h
  refine ⟨?_, fun k hk => ?_⟩
  · rw [getElem?_eq_getElem hlt, eq_of_beq heq]
  · by_contra hkn
    rw [not_le] at hkn
    have hk' := hbefore k hkn
    rw [getElem?_eq_getElem (hkn.trans hlt)] at hk
    rw [Option.some.inj hk] at hk'
    simp at hk'

theorem Best.visit_one {hit : Found → ℕ → List ID → ℕ → Found} (hhit : Takes hit) {i : ℕ}
    (h : Best dest cells f) (hlen : p.length ≤ maxSRLen) :
    Best dest (cells ++ [p])
      (match p.idxOf? dest with
      | none => f
      | some len => hit f len p i) := by
  cases hidx : p.idxOf? dest with
  | none =>
    have hnot : dest ∉ p := idxOf?_eq_none_iff.mp hidx
    refine ⟨?_, h.fresh, fun hf => ?_, fun hf q hq n hn => ?_⟩
    · rw [h.missing]
      simp [hnot, or_imp, forall_and]
    · exact ⟨mem_append_left _ (h.found hf).1, (h.found hf).2⟩
    · rcases mem_append.mp hq with hq | hq
      · exact h.least hf q hq n hn
      · rw [mem_singleton.mp hq] at hn
        exact absurd (mem_of_getElem? hn) hnot
  | some len =>
    obtain ⟨hget, hfirst⟩ := idxOf_spec hidx
    obtain ⟨hroute, hfound⟩ := hhit f len p i
    have hlt : len < p.length := by
      by_contra hge
      rw [getElem?_eq_none (not_lt.mp hge)] at hget
      cases hget
    have hmem : dest ∈ p := mem_of_getElem? hget
    -- the first hit is shorter than the initial length
    have hne : (hit f len p i).minCache ≠ .none := by
      refine hfound ?_
      by_cases hf : f.minCache = .none
      · rw [h.fresh hf]
        exact .inl (by omega)
      · exact .inr hf
    refine ⟨iff_of_false hne ?_, fun hf => absurd hf hne, fun _ => ?_, fun _ q hq n hn => ?_⟩
    · intro hall
      exact hall p (by simp) hmem
    · by_cases hshort : len < f.minLength
      · rw [if_pos hshort] at hroute
        obtain ⟨hl, hr⟩ := Prod.mk.inj hroute
        rw [hl, hr]
        exact ⟨by simp, hget⟩
      · rw [if_neg hshort] at hroute
        obtain ⟨hl, hr⟩ := Prod.mk.inj hroute
        have hf : f.minCache ≠ .none := by
          intro hf
          have hfresh := h.fresh hf
          omega
        rw [hl, hr]
        exact ⟨mem_append_left _ (h.found hf).1, (h.found hf).2⟩
    · by_cases hshort : len < f.minLength
      · rw [if_pos hshort] at hroute
        rw [(Prod.mk.inj hroute).1]
        rcases mem_append.mp hq with hq | hq
        · have hf : f.minCache ≠ .none := by
            intro hf
            exact h.missing.mp hf q hq (mem_of_getElem? hn)
          exact hshort.le.trans (h.least hf q hq n hn)
        · rw [mem_singleton.mp hq] at hn
          exact hfirst n hn
      · rw [if_neg hshort] at hroute
        rw [(Prod.mk.inj hroute).1]
        have hf : f.minCache ≠ .none := by
          intro hf
          have hfresh := h.fresh hf
          omega
        rcases mem_append.mp hq with hq | hq
        · exact h.least hf q hq n hn
        · rw [mem_singleton.mp hq] at hn
          exact (not_lt.mp hshort).trans (hfirst n hn)

theorem Best.visit {hit : Found → ℕ → List ID → ℕ → Found} (hhit : Takes hit) {i : ℕ}
    (h : Best dest cells f) (hlen : ∀ p ∈ cells', p.length ≤ maxSRLen) :
    Best dest (cells ++ cells') (visit hit dest cells' i f) := by
  induction cells' generalizing cells i f with
  | nil =>
    rw [append_nil]
    exact h
  | cons p rest ih =>
    have hone := h.visit_one hhit (p := p) (i := i) (hlen p mem_cons_self)
    have hrest := ih (i := i + 1) hone (fun q hq => hlen q (mem_cons_of_mem _ hq))
    rw [append_assoc, singleton_append] at hrest
    exact hrest

/-- `min_index` is the slot of the route, when it is in the secondary cache. -/
def Indexed (cache : List (List ID)) (f : Found) : Prop :=
  f.minCache = .secondary → ∃ i, f.minIndex = some i ∧ cache[i]? = some f.route

theorem visit_hitPrimary {i : ℕ} (h : f.minCache ≠ .secondary) :
    (visit hitPrimary dest cells i f).minCache ≠ .secondary := by
  induction cells generalizing i f with
  | nil => exact h
  | cons p rest ih =>
    apply ih
    cases p.idxOf? dest with
    | none => exact h
    | some len =>
      unfold hitPrimary
      dsimp only
      split <;> simp

theorem visit_hitSecondary {i : ℕ} (h : Indexed (cells' ++ cells) f) (hi : i = cells'.length) :
    Indexed (cells' ++ cells) (visit hitSecondary dest cells i f) := by
  induction cells generalizing cells' i f with
  | nil => exact h
  | cons p rest ih =>
    rw [visit, append_cons]
    refine ih ?_ (by rw [hi, length_append, length_singleton])
    rw [← append_cons]
    cases p.idxOf? dest with
    | none => exact h
    | some len =>
      dsimp only
      unfold hitSecondary
      split
      · exact fun _ => ⟨i, rfl, by rw [hi]; simp⟩
      · exact h

/-- The paths in both caches. -/
def paths (m : MobiCache) : List (List ID) := m.primaryCache.cache ++ m.secondaryCache.cache

/-- The search over both caches finds a shortest route, and where it is. -/
theorem search_spec (hlen : ∀ p ∈ m.paths, p.length ≤ maxSRLen) :
    Best dest m.paths (m.search dest) ∧ Indexed m.secondaryCache.cache (m.search dest) := by
  unfold search
  rw [searchAll_eq _ (Nat.lt_succ_self _), searchAll_eq _ (Nat.lt_succ_self _), drop_zero,
    drop_zero]
  have hempty : Best dest [] ⟨none, maxSRLen + 1, .none, []⟩ :=
    ⟨by simp, fun _ => rfl, fun h => absurd rfl h, fun h => absurd rfl h⟩
  have hprimary := hempty.visit takes_hitPrimary (i := 0)
    (fun p hp => hlen p (mem_append_left m.secondaryCache.cache hp))
  constructor
  · exact hprimary.visit takes_hitSecondary (fun p hp => hlen p (mem_append_right _ hp))
  · refine @visit_hitSecondary _ [] _ _ _ (fun h => ?_) rfl
    exact absurd h (visit_hitPrimary (by simp))

/-- **`findRoute`** finds a shortest cached path to the destination, and may promote a path. -/
theorem findRoute_spec {forMe : Bool} {o : Option (List ID)}
    (hlen : ∀ p ∈ m.paths, p.length ≤ maxSRLen) (h : m.findRoute dest forMe = some (m', o)) :
    (o.isSome ↔ ∃ p ∈ m.paths, dest ∈ p) ∧
      (∀ r, o = some r → ∃ p ∈ m.paths, ∃ n : ℕ, p[n]? = some dest ∧ r = p.take (n + 1) ∧
        ∀ q ∈ m.paths, ∀ k : ℕ, q[k]? = some dest → n ≤ k) ∧
      (m' = m ∨ ∃ i path, m.secondaryCache.cache[i]? = some path ∧ m' = m.promote i) := by
  obtain ⟨hbest, hindexed⟩ := @search_spec dest _ hlen
  unfold findRoute at h
  by_cases hid : m.netId = invalidAddr
  · rw [if_pos hid] at h
    cases h
  rw [if_neg hid] at h
  generalize m.search dest = f at h hbest hindexed
  obtain ⟨hm, ho⟩ := Prod.mk.inj (Option.some.inj h)
  refine ⟨?_, fun r hr => ?_, ?_⟩
  · rw [← ho]
    by_cases hnone : f.minCache = .none
    · rw [if_pos hnone]
      refine iff_of_false (by simp) ?_
      rintro ⟨p, hp, hmem⟩
      exact hbest.missing.mp hnone p hp hmem
    · rw [if_neg hnone]
      refine iff_of_true rfl ?_
      obtain ⟨hp, hget⟩ := hbest.found hnone
      exact ⟨_, hp, mem_of_getElem? hget⟩
  · rw [← ho] at hr
    have hnone : f.minCache ≠ .none := by
      intro hnone
      rw [if_pos hnone] at hr
      cases hr
    rw [if_neg hnone] at hr
    obtain ⟨hp, hget⟩ := hbest.found hnone
    exact ⟨f.route, hp, f.minLength, hget, (Option.some.inj hr).symm, hbest.least hnone⟩
  · rw [← hm]
    cases hcache : f.minCache with
    | none => exact .inl rfl
    | primary => exact .inl rfl
    | secondary =>
      obtain ⟨i, hi, hget⟩ := hindexed hcache
      rw [hi]
      cases forMe with
      | false => exact .inl rfl
      | true => exact .inr ⟨i, _, hget, rfl⟩

theorem promote_covers {i : ℕ} (hget : m.secondaryCache.cache[i]? = some path)
    (hfree : [] ∈ m.primaryCache.cache) :
    (∃ p ∈ (m.promote i).paths, dest ∈ p) ↔ ∃ p ∈ m.paths, dest ∈ p := by
  have hpath : m.secondaryCache.cache.getD i [] = path := by
    rw [getD_eq_getElem?_getD, hget]
    rfl
  unfold promote paths
  rw [hpath]
  obtain ⟨hold, q₀, hq₀, hpre₀⟩ := @addRoute_covers path _ hfree
  constructor
  · rintro ⟨p, hp, hmem⟩
    rcases mem_append.mp hp with hp | hp
    · rcases mem_addRoute hp with hp | rfl
      · exact ⟨p, mem_append_left _ hp, hmem⟩
      · exact ⟨p, mem_append_right _ (mem_of_getElem? hget), hmem⟩
    · rcases mem_or_eq_of_mem_set hp with hp | rfl
      · exact ⟨p, mem_append_right _ hp, hmem⟩
      · cases hmem
  · rintro ⟨p, hp, hmem⟩
    rcases mem_append.mp hp with hp | hp
    · obtain ⟨q, hq, hpre⟩ := hold p hp
      exact ⟨q, mem_append_left _ hq, hpre.subset hmem⟩
    · obtain ⟨j, hj⟩ := mem_iff_getElem?.mp hp
      by_cases hij : i = j
      · rw [← hij, hget] at hj
        rw [← Option.some.inj hj] at hmem
        exact ⟨q₀, mem_append_left _ hq₀, hpre₀.subset hmem⟩
      · refine ⟨p, mem_append_right _ (mem_of_getElem? (i := j) ?_), hmem⟩
        rw [getElem?_set_ne hij]
        exact hj

end MobiCache

end NetSim.Dsr
