import NetSim.Dsr.CacheRefines

/-! # DSR: the links of the cached paths were learnt

Every cached path starts at the node and has no loop, and each of its links was in a route that was given
to the cache after the link was last reported dead (`cache_refines`). A lookup finds a shortest cached
path, and loses a destination only when it promotes a path to a primary cache without a free slot.
-/

namespace NetSim.Dsr

open List Cache

variable {m m' : MobiCache} {e : Call} {calls : List Call} {p q : List ID} {a b dest : ID}

/-! ## Learnt links -/

/-- The call gives the link from `a` to `b`, also where the node assumes a link to the transmitter. -/
def Call.Gives (m : MobiCache) : Call → ID → ID → Prop
  | .addRoute route, a, b => Link route.ids a b
  | .noticeRouteUsed p, a, b =>
    Link p.ids a b ∨ (p.ids.all (fun id => ¬ m.isOwn id) ∧ a = m.netId ∧ 0 < p.index ∧
      p.ids[(p.index - 1).toNat]? = some b)
  | .noticeDeadLink _ _, _, _ => False
  | .findRoute _ _, _, _ => False

/-- The link was given, and was not dead since. -/
def Learnt (m : MobiCache) (calls : List Call) (a b : ID) : Prop :=
  ∃ before e since, calls = before ++ e :: since ∧ e.Gives m a b ∧ Call.noticeDeadLink a b ∉ since

/-- The route of the call has no loop. -/
def Call.LoopFree : Call → Prop
  | .addRoute route => route.ids.Nodup
  | .noticeRouteUsed p => p.ids.Nodup
  | .noticeDeadLink _ _ => True
  | .findRoute _ _ => True

instance (e : Call) : Decidable e.LoopFree := by
  unfold Call.LoopFree
  cases e <;> infer_instance

/-- A slot holds a path without a loop from the node, all of whose links were learnt, or is free. -/
structure Slot (m : MobiCache) (calls : List Call) (p : List ID) : Prop where
  start : p ≠ [] → p.head?.any m.isOwn
  nodup : p.Nodup
  long : p ≠ [] → 2 ≤ p.length
  short : p.length ≤ maxSRLen
  learnt : ∀ a b, Link p a b → Learnt m calls a b

def Sound (m : MobiCache) (calls : List Call) : Prop := ∀ p ∈ m.paths, Slot m calls p

theorem Learnt.of_gives (h : e.Gives m a b) : Learnt m (calls ++ [e]) a b :=
  ⟨calls, e, [], rfl, h, not_mem_nil⟩

theorem Learnt.concat (h : Learnt m calls a b) (he : e ≠ .noticeDeadLink a b) :
    Learnt m (calls ++ [e]) a b := by
  obtain ⟨before, e', since, rfl, hgives, hnot⟩ := h
  refine ⟨before, e', since ++ [e], by simp, hgives, ?_⟩
  rw [mem_append, mem_singleton]
  exact not_or.mpr ⟨hnot, he.symm⟩

theorem Slot.nil : Slot m calls [] :=
  ⟨fun h => absurd rfl h, nodup_nil, fun h => absurd rfl h, Nat.zero_le _,
    fun _ _ h => absurd h not_link_nil⟩

theorem Slot.concat (h : Slot m calls p) (he : ∀ a b, e ≠ .noticeDeadLink a b) :
    Slot m (calls ++ [e]) p :=
  ⟨h.start, h.nodup, h.long, h.short, fun a b hlink => (h.learnt a b hlink).concat (he a b)⟩

theorem head?_eq_of_isPrefixOf (h : q <+: p) (hne : q ≠ []) : q.head? = p.head? := by
  obtain ⟨r, rfl⟩ := h
  cases q with
  | nil => exact absurd rfl hne
  | cons a q => rfl

theorem Slot.truncate {src dst : ID} (h : Slot m calls p) :
    Slot m (calls ++ [.noticeDeadLink src dst]) (truncate src dst p) := by
  obtain ⟨hpre, hnot, hlong⟩ := @truncate_spec src dst p
  refine ⟨fun hne => ?_, ?_, fun hne => ?_, hpre.length_le.trans h.short, fun a b hlink => ?_⟩
  · rw [head?_eq_of_isPrefixOf hpre hne]
    exact h.start (fun hp => hne (prefix_nil.mp (hp ▸ hpre)))
  · exact h.nodup.sublist hpre.sublist
  · rcases hlong with hnil | hlong | heq
    · exact absurd hnil hne
    · exact hlong
    · rw [heq] at hne ⊢
      exact h.long hne
  · refine (h.learnt a b (hlink.of_isPrefixOf hpre)).concat ?_
    intro heq
    obtain ⟨rfl, rfl⟩ := Call.noticeDeadLink.inj heq
    exact hnot hlink

theorem Call.Gives.congr (h : e.Gives m a b) (hnet : m'.netId = m.netId)
    (hmac : m'.MACId = m.MACId) : e.Gives m' a b := by
  have hown : m'.isOwn = m.isOwn := by
    funext id
    unfold MobiCache.isOwn
    rw [hnet, hmac]
  cases e with
  | addRoute route => exact h
  | noticeRouteUsed p =>
    unfold Call.Gives at h ⊢
    rw [hown, hnet]
    exact h
  | noticeDeadLink src dst => exact h
  | findRoute dest forMe => exact h

theorem Slot.congr (h : Slot m calls p) (hnet : m'.netId = m.netId) (hmac : m'.MACId = m.MACId) :
    Slot m' calls p := by
  refine ⟨fun hne => ?_, h.nodup, h.long, h.short, fun a b hlink => ?_⟩
  · have hstart := h.start hne
    unfold MobiCache.isOwn at hstart ⊢
    rw [hnet, hmac]
    exact hstart
  · obtain ⟨before, e, since, heq, hgives, hnot⟩ := h.learnt a b hlink
    exact ⟨before, e, since, heq, hgives.congr hnet hmac, hnot⟩

/-! ## Routes that are given to the cache -/

theorem preAddRoute_slot {route : Path} (h : m.preAddRoute route = some p)
    (hnodup : route.ids.Nodup) : Slot m (calls ++ [.addRoute route]) p := by
  unfold MobiCache.preAddRoute at h
  split at h
  · cases h
  rename_i hlong
  split at h
  · cases h
  rename_i hstart
  obtain rfl := Option.some.inj h
  rw [not_lt] at hlong
  exact ⟨fun _ => not_not.mp hstart, hnodup, fun _ => hlong, route.short,
    fun a b hlink => Learnt.of_gives hlink⟩

theorem fill_eq {stub : List ID} (h : stub.length ≤ maxSRLen) :
    MobiCache.fill stub p = stub ++ p.take (maxSRLen - stub.length) := by
  induction p generalizing stub with
  | nil => rw [MobiCache.fill, take_nil, append_nil]
  | cons id p ih =>
    rw [MobiCache.fill]
    unfold full
    by_cases hfull : maxSRLen ≤ stub.length
    · rw [if_pos (decide_eq_true hfull), show maxSRLen - stub.length = 0 by omega, take_zero,
        append_nil]
    · obtain ⟨k, hk⟩ : ∃ k, maxSRLen - stub.length = k + 1 := ⟨maxSRLen - stub.length - 1, by omega⟩
      rw [if_neg (by simpa using hfull), ih (by rw [length_append, length_singleton]; omega),
        length_append, length_singleton, ← Nat.sub_sub, hk, Nat.add_sub_cancel,
        take_succ_cons, append_assoc, singleton_append]

theorem drop_slot {route : Path} (hnodup : route.ids.Nodup)
    (hown : route.ids.findIdx m.isOwn < route.ids.length - 1) :
    Slot m (calls ++ [.noticeRouteUsed route]) (route.ids.drop (route.ids.findIdx m.isOwn)) := by
  have hlt : route.ids.findIdx m.isOwn < route.ids.length := by omega
  refine ⟨fun _ => ?_, hnodup.sublist (drop_sublist _ _), fun _ => ?_, ?_, fun a b hlink => ?_⟩
  · rw [head?_drop, getElem?_eq_getElem hlt, Option.any_some]
    exact findIdx_getElem
  · rw [length_drop]
    omega
  · rw [length_drop]
    exact (Nat.sub_le _ _).trans route.short
  · refine Learnt.of_gives (.inl ?_)
    exact List.IsInfix.trans hlink (drop_suffix _ _).isInfix

theorem fill_slot {route : Path} (hnodup : route.ids.Nodup) (hindex : 0 < route.index)
    (hown : ∀ id ∈ route.ids, m.isOwn id = false) :
    Slot m (calls ++ [.noticeRouteUsed route])
      (MobiCache.fill [m.netId] (route.ids.drop (route.index - 1).toNat)) := by
  have hself : m.isOwn m.netId = true := by
    unfold MobiCache.isOwn
    simp
  have hnot : m.netId ∉ route.ids := by
    intro hmem
    rw [hown _ hmem] at hself
    cases hself
  have hbound := route.bounds.2
  have hone : [m.netId].length ≤ maxSRLen := by
    rw [length_singleton]
    decide
  rw [fill_eq hone, singleton_append]
  generalize hrest : (route.ids.drop (route.index - 1).toNat).take (maxSRLen - [m.netId].length) = rest
  have hpre : rest <+: route.ids.drop (route.index - 1).toNat := hrest ▸ take_prefix _ _
  have hlen : rest.length ≤ maxSRLen - 1 := by
    rw [← hrest, length_take]
    exact Nat.min_le_left _ _
  have hmax : maxSRLen = 16 := rfl
  have hne : rest ≠ [] := by
    rw [← length_pos_iff, ← hrest, length_take, length_drop, length_singleton]
    omega
  refine ⟨fun _ => hself, nodup_cons.mpr ⟨fun hmem => ?_, ?_⟩, fun _ => ?_, ?_, fun a b hlink => ?_⟩
  · exact hnot (mem_of_mem_drop (hpre.subset hmem))
  · exact (hnodup.sublist (drop_sublist _ _)).sublist hpre.sublist
  · rw [length_cons]
    have := length_pos_iff.mpr hne
    omega
  · rw [length_cons]
    omega
  · rcases link_cons.mp hlink with ⟨rfl, hhead⟩ | hlink
    · -- the assumed link
      rw [head?_eq_of_isPrefixOf hpre hne, head?_drop] at hhead
      exact Learnt.of_gives (.inr ⟨by simpa using hown, rfl, hindex, hhead⟩)
    · refine Learnt.of_gives (.inl ?_)
      exact List.IsInfix.trans (hlink.of_isPrefixOf hpre) (drop_suffix _ _).isInfix

theorem preNoticeRouteUsed_slot {route : Path} (h : m.preNoticeRouteUsed route = some (some p))
    (hnodup : route.ids.Nodup) : Slot m (calls ++ [.noticeRouteUsed route]) p := by
  have hle : route.ids.findIdx m.isOwn ≤ route.ids.length := findIdx_le_length
  unfold MobiCache.preNoticeRouteUsed at h
  dsimp only at h
  split at h
  · cases h
  split at h
  · cases h
  split at h
  · cases h
  split at h
  · rename_i hnone
    split at h
    swap
    · cases h
    split at h
    · cases h
    split at h
    · cases h
    obtain rfl := Option.some.inj (Option.some.inj h)
    exact fill_slot hnodup (by omega) (fun id hid => findIdx_eq_length.mp hnone id hid)
  · obtain rfl := Option.some.inj (Option.some.inj h)
    exact drop_slot hnodup (by omega)

/-! ## Calls -/

theorem promote_slot {i : ℕ} {path : List ID} (h : Sound m calls)
    (hget : m.secondaryCache.cache[i]? = some path) : Sound (m.promote i) calls := by
  intro p hp
  have hpath : m.secondaryCache.cache.getD i [] = path := by
    rw [getD_eq_getElem?_getD, hget]
    rfl
  refine Slot.congr (m := m) ?_ rfl rfl
  unfold MobiCache.promote MobiCache.paths at hp
  rw [hpath] at hp
  rcases mem_append.mp hp with hp | hp
  · rcases mem_addRoute hp with hp | rfl
    · exact h p (mem_append_left _ hp)
    · exact h p (mem_append_right _ (mem_of_getElem? hget))
  · rcases mem_or_eq_of_mem_set hp with hp | rfl
    · exact h p (mem_append_right _ hp)
    · exact Slot.nil

/-- No event makes up a link that was not learnt. -/
theorem step_sound {o : Option (List ID)} (h : Sound m calls) (hfree : e.LoopFree)
    (hstep : m.step e = some (m', o)) :
    Sound m' (calls ++ [e]) ∧ m'.netId = m.netId ∧ m'.MACId = m.MACId := by
  cases e with
  | addRoute route =>
    obtain ⟨m₁, hadd, heq⟩ := Option.map_eq_some_iff.mp hstep
    obtain ⟨rfl, -⟩ := Prod.mk.inj heq
    unfold MobiCache.addRoute at hadd
    split at hadd
    · cases hadd
    have hold : Sound m (calls ++ [.addRoute route]) := fun p hp => (h p hp).concat (by simp)
    cases hpre : m.preAddRoute route with
    | none =>
      rw [hpre] at hadd
      obtain rfl := Option.some.inj hadd
      exact ⟨hold, rfl, rfl⟩
    | some rt =>
      rw [hpre] at hadd
      obtain rfl := Option.some.inj hadd
      refine ⟨fun p hp => Slot.congr (m := m) ?_ rfl rfl, rfl, rfl⟩
      rcases mem_append.mp hp with hp | hp
      · rcases mem_addRoute hp with hp | rfl
        · exact hold p (mem_append_left _ hp)
        · exact preAddRoute_slot hpre hfree
      · exact hold p (mem_append_right _ hp)
  | noticeRouteUsed route =>
    obtain ⟨m₁, hnotice, heq⟩ := Option.map_eq_some_iff.mp hstep
    obtain ⟨rfl, -⟩ := Prod.mk.inj heq
    obtain ⟨stub, hpre, heq⟩ := Option.map_eq_some_iff.mp hnotice
    have hold : Sound m (calls ++ [.noticeRouteUsed route]) := fun p hp => (h p hp).concat (by simp)
    cases stub with
    | none =>
      obtain rfl : m = m₁ := heq
      exact ⟨hold, rfl, rfl⟩
    | some stub =>
      obtain rfl : { m with secondaryCache := (m.secondaryCache.addRoute stub).1 } = m₁ := heq
      refine ⟨fun p hp => Slot.congr (m := m) ?_ rfl rfl, rfl, rfl⟩
      rcases mem_append.mp hp with hp | hp
      · exact hold p (mem_append_left _ hp)
      · rcases mem_addRoute hp with hp | rfl
        · exact hold p (mem_append_right _ hp)
        · exact preNoticeRouteUsed_slot hpre hfree
  | noticeDeadLink src dst =>
    obtain ⟨rfl, -⟩ := Prod.mk.inj (Option.some.inj hstep)
    refine ⟨fun p hp => Slot.congr (m := m) ?_ rfl rfl, rfl, rfl⟩
    have hmap : m.paths.map (truncate src dst) = (m.noticeDeadLink src dst).paths := map_append
    rw [← hmap] at hp
    obtain ⟨q, hq, rfl⟩ := mem_map.mp hp
    exact (h q hq).truncate
  | findRoute dest forMe =>
    have hold : Sound m (calls ++ [.findRoute dest forMe]) := fun p hp => (h p hp).concat (by simp)
    rcases (MobiCache.findRoute_spec (fun p hp => (h p hp).short) hstep).2.2 with
      rfl | ⟨i, path, hget, rfl⟩
    · exact ⟨hold, rfl, rfl⟩
    · exact ⟨promote_slot hold hget, rfl, rfl⟩

/-! ## Runs -/

/-- A lookup can find the destination. -/
def MobiCache.canFind (m : MobiCache) (dest : ID) : Prop := ∃ p ∈ m.paths, dest ∈ p

/-- **The route cache refines the set of learnt links**, whatever the calls, when the routes have no
loops; and a lookup finds a shortest cached path. -/
theorem cache_refines (netId MACId : ID) (ignoreHints useOverheard : Bool) (calls : List Call)
    (m : MobiCache) (os : List (Option (List ID))) (hfree : ∀ e ∈ calls, e.LoopFree)
    (hrun : Runs.run MobiCache.step (MobiCache.init netId MACId ignoreHints useOverheard) calls =
      some (m, os)) :
    m.netId = netId ∧ m.MACId = MACId ∧ Sound m calls ∧
      ∀ dest forMe m' o, m.findRoute dest forMe = some (m', o) →
        (o.isSome ↔ m.canFind dest) ∧
        (∀ r, o = some r → ∃ p ∈ m.paths, ∃ n : ℕ, p[n]? = some dest ∧ r = p.take (n + 1) ∧
          ∀ q ∈ m.paths, ∀ k : ℕ, q[k]? = some dest → n ≤ k) ∧
        ([] ∈ m.primaryCache.cache → ∀ d, m'.canFind d ↔ m.canFind d) := by
  have hinit : Sound (MobiCache.init netId MACId ignoreHints useOverheard) [] := by
    intro p hp
    have hnil : p = [] := by
      rcases mem_append.mp hp with hp | hp
      · exact eq_of_mem_replicate hp
      · exact eq_of_mem_replicate hp
    rw [hnil]
    exact Slot.nil
  let Inv : List Call → List (Option (List ID)) → MobiCache → Prop :=
    fun past _ m => m.netId = netId ∧ m.MACId = MACId ∧ Sound m past
  have hstart : Inv [] [] (MobiCache.init netId MACId ignoreHints useOverheard) := ⟨rfl, rfl, hinit⟩
  have hinv : Inv ([] ++ calls) ([] ++ os) m :=
    Runs.run_keeps ?_ hstart (Runs.meets_of_forall hfree) hrun
  · obtain ⟨hnet, hmac, hsound⟩ := hinv
    refine ⟨hnet, hmac, hsound, fun dest forMe m' o hfind => ?_⟩
    obtain ⟨hiff, hshortest, hcases⟩ :=
      MobiCache.findRoute_spec (fun p hp => (hsound p hp).short) hfind
    refine ⟨hiff, hshortest, fun hslot d => ?_⟩
    rcases hcases with rfl | ⟨i, path, hget, rfl⟩
    · exact Iff.rfl
    · exact MobiCache.promote_covers hget hslot
  · intro past outs m e m' o ⟨hnet, hmac, hsound⟩ hloop hstep
    obtain ⟨hsound', hnet', hmac'⟩ := step_sound hsound hloop hstep
    exact ⟨hnet'.trans hnet, hmac'.trans hmac, hsound'⟩

/-- A route is added, a path is overheard, a link dies, and the overheard path is promoted. -/
theorem cache_refines_calls :
    ∃ m os, Runs.run MobiCache.step (MobiCache.init (ID.ofIP 1) ⟨1, .mac⟩ false true)
        [.addRoute ⟨[ID.ofIP 1, ID.ofIP 2, ID.ofIP 3], 0, by decide, by decide⟩,
          .noticeRouteUsed ⟨[ID.ofIP 5, ID.ofIP 4, ID.ofIP 6], 1, by decide, by decide⟩,
          .noticeDeadLink (ID.ofIP 2) (ID.ofIP 3), .findRoute (ID.ofIP 4) true] = some (m, os) ∧
      (∀ p ∈ m.paths, p.Nodup) ∧
      ∀ m' o, m.findRoute (ID.ofIP 6) false = some (m', o) → (o.isSome ↔ m.canFind (ID.ofIP 6)) := by
  have hsome : (Runs.run MobiCache.step (MobiCache.init (ID.ofIP 1) ⟨1, .mac⟩ false true)
        [.addRoute ⟨[ID.ofIP 1, ID.ofIP 2, ID.ofIP 3], 0, by decide, by decide⟩,
          .noticeRouteUsed ⟨[ID.ofIP 5, ID.ofIP 4, ID.ofIP 6], 1, by decide, by decide⟩,
          .noticeDeadLink (ID.ofIP 2) (ID.ofIP 3), .findRoute (ID.ofIP 4) true]).isSome = true := by
    decide +kernel
  obtain ⟨r, hr⟩ := Option.isSome_iff_exists.mp hsome
  obtain ⟨-, -, hsound, hfind⟩ := cache_refines _ _ _ _ _ r.1 r.2 (by decide) hr
  exact ⟨r.1, r.2, hr, fun p hp => (hsound p hp).nodup, fun m' o h => (hfind _ _ m' o h).1⟩

end NetSim.Dsr
