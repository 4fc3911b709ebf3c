import NetSim.Dsr.CacheRefines
import NetSim.Dsr.CompressPath

/-! # DSR: replies from the route cache

`replyFromRouteCache` (`dsr/dsragent.cc`) appends a cached route to the route of a request, cuts the double
backs out, and answers with the result when the node is still on it (`replyFromRouteCache_sound`). A
request that must also be passed on ends in an assertion: the node is looked for at the current place of
the route of the request, which it is not on.

A header holds the ids of a route without the data of their links, so these are blank here.
-/

namespace NetSim.Dsr

open Function List LoopErasure PathArray

/-- What the program stops with: an assertion, a write behind an array, or a walk without end. -/
inductive Stop
  | assertion
  | overflow
  | endless
deriving DecidableEq

/-- `ID(unsigned long, ID_Type)`: an id without data of a link. -/
def HopID.blank (id : ID) : HopID := ⟨id, -1, .none, .none⟩

namespace PathArray

def ids (p : PathArray) : List ID := p.hops.map HopID.id

/-- `Path(const struct sr_addr *, int)`. -/
def ofIds (ids : List ID) : PathArray :=
  { len := ids.length, path := fun k => HopID.blank (ids.getD k invalidAddr) }

/-- `Path::appendPath`. The test of the length comes after the write. -/
def appendPath (p : PathArray) : List ID → Except Stop PathArray
  | [] => .ok p
  | id :: rest =>
    if p.len < maxSRLen then
      appendPath { p with len := p.len + 1, path := update p.path p.len (HopID.blank id) } rest
    else .error .overflow

end PathArray

namespace Path

def appendToPath (p : Path) (id : ID) : Except Stop Path :=
  if h : p.ids.length < maxSRLen then
    .ok
      { ids := p.ids ++ [id]
        index := p.index
        short := by
          rw [length_append, length_singleton]
          exact h
        bounds := by
          have := p.bounds
          rw [length_append, length_singleton]
          omega }
  else .error .assertion

def reverseInPlace (p : Path) : Path where
  ids := p.ids.reverse
  index := if p.ids = [] then p.index else (p.ids.length - 1 : ℤ) - p.index
  short := by
    rw [length_reverse]
    exact p.short
  bounds := by
    have := p.bounds
    rw [length_reverse]
    split <;> omega

end Path

/-- A packet with a route request, as far as `replyFromRouteCache` looks at it. -/
structure RequestPacket where
  src : ID
  dest : ID
  route : Path
  isDSR : Bool
  routeReply : Bool
  routeError : Bool
  tellAddr : ℕ
  rtreqSeq : ℤ

structure CacheReply where
  src : ID
  dest : ID
  route : Path
  replyAddrs : List ID
  rtreqSeq : ℤ

def gratRouteError : ℕ := 0

/-- Other information in the packet has to go on to the destination. -/
def RequestPacket.mustForward (p : RequestPacket) : Bool :=
  !p.isDSR || p.routeReply || (p.routeError && p.tellAddr != gratRouteError)

/-- The route of the request, completed with a cached one. -/
def completeRoute (route rest : List ID) : Except Stop PathArray := do
  let complete ← (ofIds route).appendPath rest
  match compressPath complete with
  | none => throw .endless
  | some complete => return complete

/-- The packet is split: one copy goes to the destination along the completed route. -/
def split (m : MobiCache) (p : RequestPacket) (complete : PathArray) : Except Stop Unit :=
  if complete.len ≤ p.route.ids.length then .error .assertion
  else if p.route.index < 0 then .error .assertion
  else if p.route.ids[p.route.index.toNat]? ≠ some m.netId then .error .assertion
  else .ok ()

def answer (m : MobiCache) (p : RequestPacket) (complete : PathArray) :
    Except Stop (MobiCache × CacheReply) := do
  if p.mustForward then split m p complete
  let route ← p.route.appendToPath m.netId
  let route := route.reverseInPlace
  match m.addRoute route with
  | none => throw .assertion
  | some cache =>
    if maxSRLen < complete.len then throw .overflow
    else return (cache, ⟨m.netId, p.src, route, complete.ids, p.rtreqSeq⟩)

/-- `replyFromRouteCache`: the reply, `none` when it returns false. -/
def replyFromRouteCache (m : MobiCache) (p : RequestPacket) :
    Except Stop (MobiCache × Option CacheReply) :=
  if member p.route.ids m.netId m.MACId then .error .assertion
  else
    match m.findRoute p.dest false with
    | none => .error .assertion
    | some (m, none) => .ok (m, none)
    | some (m, some rest) =>
      if ¬ rest.head?.any m.isOwn then .error .assertion
      else if maxSRLen < rest.length + p.route.ids.length then .ok (m, none)
      else do
        let complete ← completeRoute p.route.ids rest
        if ¬ member complete.ids m.netId m.MACId then return (m, none)
        else do
          let (m, reply) ← answer m p complete
          return (m, some reply)

variable {m m' : MobiCache} {p : RequestPacket} {q route rest : List ID} {a b : ID}

/-! ## Appending -/

theorem ids_length (p : PathArray) : p.ids.length = p.len := by
  rw [PathArray.ids, length_map, hops_length]

theorem ids_ofIds (l : List ID) : (ofIds l).ids = l := by
  apply ext_getElem?
  intro k
  have hlen : (ofIds l).len = l.length := rfl
  have hpath : (ofIds l).path k = HopID.blank (l.getD k invalidAddr) := rfl
  rw [PathArray.ids, getElem?_map, getElem?_hops, hlen, hpath]
  by_cases hk : k < l.length
  · rw [if_pos hk, getElem?_eq_getElem hk, Option.map_some, HopID.blank,
      getD_eq_getElem _ _ hk]
  · rw [if_neg hk, Option.map_none, getElem?_eq_none (by omega)]

theorem ids_push (p : PathArray) (id : ID) :
    ({ p with len := p.len + 1, path := update p.path p.len (HopID.blank id) } : PathArray).ids =
      p.ids ++ [id] := by
  rw [PathArray.ids, hops, range_succ, map_append, map_append, map_singleton,
    map_singleton]
  dsimp only
  rw [update_self, PathArray.ids, hops]
  congr 1
  rw [map_map, map_map]
  refine map_congr_left (fun k hk => ?_)
  have hne : k ≠ p.len := by
    have := mem_range.mp hk
    omega
  rw [comp_apply, comp_apply, update_of_ne hne]

theorem appendPath_ok {p : PathArray} (h : p.len + rest.length ≤ maxSRLen) :
    ∃ p', p.appendPath rest = .ok p' ∧ p'.ids = p.ids ++ rest ∧
      ∀ k, maxSRLen ≤ k → p'.path k = p.path k := by
  induction rest generalizing p with
  | nil => exact ⟨p, rfl, (append_nil _).symm, fun _ _ => rfl⟩
  | cons id rest ih =>
    rw [length_cons] at h
    obtain ⟨p', happend, hids, hcells⟩ := @ih { p with
      len := p.len + 1, path := update p.path p.len (HopID.blank id) } (by dsimp only; omega)
    refine ⟨p', ?_, ?_, fun k hk => ?_⟩
    · rw [PathArray.appendPath, if_pos (by omega)]
      exact happend
    · rw [hids, ids_push, append_assoc, singleton_append]
    · rw [hcells k hk]
      exact update_of_ne (by omega) _ _

/-! ## The completed route -/

theorem Linked.ids {l : List HopID} {x y : HopID} (h : Linked HopID.id l x y) :
    [x.id, y.id] <:+: l.map HopID.id := by
  obtain ⟨y', hinfix, hy⟩ := h
  have := hinfix.map HopID.id
  rwa [map_cons, map_singleton, hy] at this

theorem isChain_ids {l l' : List HopID} (h : l.IsChain (Linked HopID.id l')) :
    (l.map HopID.id).IsChain (fun a b => [a, b] <:+: l'.map HopID.id) := by
  rw [isChain_map]
  exact h.imp (fun _ _ hlink => Linked.ids hlink)

/-- **The completed route**: the request's route and the cached one without their loops. -/
theorem completeRoute_spec (h : route.length + rest.length ≤ maxSRLen) :
    ∃ complete, completeRoute route rest = .ok complete ∧
      complete.ids.Nodup ∧ complete.len ≤ maxSRLen ∧
      complete.ids.head? = (route ++ rest).head? ∧ complete.ids.getLast? = (route ++ rest).getLast? ∧
      complete.ids.IsChain (fun a b => [a, b] <:+: route ++ rest) := by
  obtain ⟨joined, happend, hids, -⟩ := @appendPath_ok rest (ofIds route) h
  rw [ids_ofIds] at hids
  obtain ⟨complete, hcompress, hnodup, hfirst, hlast, hsub, hlinks, -⟩ :=
    compressPath_removes_loops joined
  have hmap : joined.hops.map HopID.id = route ++ rest := hids
  refine ⟨complete, ?_, hnodup, ?_, ?_, ?_, ?_⟩
  · simp only [completeRoute, happend, hcompress, bind, Except.bind, pure, Except.pure]
  · calc complete.len = complete.hops.length := (hops_length complete).symm
      _ ≤ joined.hops.length := hsub.length_le
      _ = (joined.hops.map HopID.id).length := (length_map _).symm
      _ = route.length + rest.length := by rw [hmap, length_append]
      _ ≤ maxSRLen := h
  · rw [PathArray.ids, head?_map, hfirst, ← head?_map, hmap]
  · rw [PathArray.ids, getLast?_map, hlast, ← getLast?_map, hmap]
  · rw [← hmap]
    exact isChain_ids hlinks

/-- **Nothing is written behind the array** of the completed route. -/
theorem completeRoute_cells (h : route.length + rest.length ≤ maxSRLen) :
    ∃ joined complete, (ofIds route).appendPath rest = .ok joined ∧
      compressPath joined = some complete ∧
      ∀ k, maxSRLen ≤ k → complete.path k = (ofIds route).path k := by
  obtain ⟨joined, happend, hids, hcells⟩ := @appendPath_ok rest (ofIds route) h
  obtain ⟨complete, hcompress, -⟩ := compressPath_removes_loops joined
  have hlen : joined.len ≤ maxSRLen := by
    rw [ids_ofIds] at hids
    rw [← ids_length, hids, length_append]
    exact h
  refine ⟨joined, complete, happend, hcompress, fun k hk => ?_⟩
  rw [compressPath_cells hcompress (hlen.trans hk), hcells k hk]

theorem infix_append (h : [a, b] <:+: route ++ rest) :
    [a, b] <:+: route ∨ (route.getLast? = some a ∧ rest.head? = some b) ∨ [a, b] <:+: rest := by
  induction route with
  | nil => exact Or.inr (Or.inr h)
  | cons x route ih =>
    rw [cons_append, infix_cons_iff] at h
    rcases h with h | h
    · cases route with
      | nil =>
        obtain ⟨rfl, hb⟩ := cons_prefix_cons.mp h
        refine Or.inr (Or.inl ⟨rfl, ?_⟩)
        cases rest with
        | nil => exact absurd hb (by simp)
        | cons y rest =>
          obtain ⟨rfl, -⟩ := cons_prefix_cons.mp hb
          rfl
      | cons y route =>
        obtain ⟨rfl, hb⟩ := cons_prefix_cons.mp h
        obtain ⟨rfl, -⟩ := cons_prefix_cons.mp hb
        exact Or.inl (prefix_append [a, b] route).isInfix
    · rcases ih h with h | ⟨hlast, hhead⟩ | h
      · exact Or.inl (h.trans (suffix_cons x route).isInfix)
      · refine Or.inr (Or.inl ⟨?_, hhead⟩)
        cases route with
        | nil => cases hlast
        | cons y route => exact hlast
      · exact Or.inr (Or.inr h)

/-! ## The reply -/

theorem own_of_member {route : List ID} (h : member route m.netId m.MACId = true) :
    ∃ id ∈ route, m.isOwn id = true := by
  obtain ⟨id, hid, hown⟩ := any_eq_true.mp h
  exact ⟨id, hid, hown⟩

theorem not_member {route : List ID} (h : ∀ id ∈ route, m.isOwn id = false) :
    member route m.netId m.MACId = false := by
  rw [member, any_eq_false]
  intro id hid
  have hown := h id hid
  rw [MobiCache.isOwn] at hown
  rw [hown]
  exact Bool.false_ne_true

theorem split_assertion (hme : ∀ id ∈ p.route.ids, m.isOwn id = false) (complete : PathArray) :
    split m p complete = .error .assertion := by
  unfold split
  split
  · rfl
  · split
    · rfl
    · rw [if_pos]
      intro hget
      have hfalse := hme m.netId (mem_of_getElem? hget)
      simp [MobiCache.isOwn] at hfalse

/-- **The answer**: the completed route, along the reverse of the request's route. -/
theorem answer_spec (hme : ∀ id ∈ p.route.ids, m.isOwn id = false)
    (hroom : p.route.ids.length < maxSRLen) {complete : PathArray} (hlen : complete.len ≤ maxSRLen) :
    (answer m p complete = .error .assertion ∧ (m.netId = invalidAddr ∨ p.mustForward = true)) ∨
      ∃ m' r, answer m p complete = .ok (m', r) ∧ r.replyAddrs = complete.ids ∧
        r.route.ids = (p.route.ids ++ [m.netId]).reverse ∧ r.src = m.netId ∧ r.dest = p.src := by
  unfold answer
  by_cases hforward : p.mustForward = true
  · refine Or.inl ⟨?_, Or.inr hforward⟩
    rw [if_pos hforward, split_assertion hme]
    rfl
  · rw [if_neg hforward, Path.appendToPath, dif_pos hroom]
    simp only [bind, Except.bind]
    by_cases hid : m.netId = invalidAddr
    · refine Or.inl ⟨?_, Or.inl hid⟩
      rw [MobiCache.addRoute, if_pos hid]
      rfl
    · rw [MobiCache.addRoute, if_neg hid]
      refine Or.inr ?_
      split
      · rename_i hadd
        split at hadd <;> cases hadd
      · rw [if_neg (by omega)]
        exact ⟨_, _, rfl, rfl, rfl, rfl, rfl⟩

structure SoundReply (m : MobiCache) (p : RequestPacket) (r : CacheReply) : Prop where
  first : r.replyAddrs.head? = some p.src
  last : r.replyAddrs.getLast? = some p.dest
  own : ∃ id ∈ r.replyAddrs, m.isOwn id = true
  nodup : r.replyAddrs.Nodup
  short : r.replyAddrs.length ≤ maxSRLen
  links : ∀ a b, [a, b] <:+: r.replyAddrs →
    [a, b] <:+: p.route.ids ∨ (p.route.ids.getLast? = some a ∧ m.isOwn b = true) ∨
      ∃ q ∈ m.paths, [a, b] <:+: q
  back : r.route.ids = (p.route.ids ++ [m.netId]).reverse

/-- The outcomes of `replyFromRouteCache`. -/
def Outcome (m : MobiCache) (p : RequestPacket) : Except Stop (MobiCache × Option CacheReply) → Prop
  | .error e => e = .assertion ∧ (m.netId = invalidAddr ∨ p.mustForward = true)
  | .ok (_, none) => True
  | .ok (_, some r) => SoundReply m p r

theorem replyFromRouteCache_outcome (hme : ∀ id ∈ p.route.ids, m.isOwn id = false)
    (hsrc : p.route.ids.head? = some p.src)
    (hpaths : ∀ q ∈ m.paths, q.length ≤ maxSRLen ∧ (q ≠ [] → q.head?.any m.isOwn = true)) :
    Outcome m p (replyFromRouteCache m p) := by
  unfold replyFromRouteCache
  rw [if_neg (by rw [not_member hme]; exact Bool.false_ne_true)]
  split
  · rename_i hfind
    refine ⟨rfl, Or.inl ?_⟩
    unfold MobiCache.findRoute at hfind
    split at hfind
    · assumption
    · cases hfind
  · trivial
  · rename_i m' rest hfind
    have hid : m' = m := by
      unfold MobiCache.findRoute at hfind
      split at hfind
      · cases hfind
      · have h := (Prod.mk.inj (Option.some.inj hfind)).1
        rw [← h]
        split <;> rfl
    subst hid
    obtain ⟨q, hq, n, hget, hrest, -⟩ :=
      (MobiCache.findRoute_spec (fun q hq => (hpaths q hq).1) hfind).2.1 rest rfl
    obtain ⟨hshort, hhead⟩ := hpaths q hq
    have hn : n < q.length := (List.getElem?_eq_some_iff.mp hget).1
    have hprefix : rest <+: q := hrest ▸ take_prefix _ _
    have hfirst : rest.head? = q.head? := by
      rw [hrest, head?_take, if_neg (Nat.succ_ne_zero n)]
    have hown : rest.head?.any m'.isOwn = true := by
      rw [hfirst]
      apply hhead
      rintro rfl
      exact absurd hn (Nat.not_lt_zero n)
    have hlast : rest.getLast? = some p.dest := by
      rw [hrest, getLast?_eq_getElem?, length_take, getElem?_take, if_pos (by omega),
        show min (n + 1) q.length - 1 = n from by omega]
      exact hget
    have hne : rest ≠ [] := by
      rintro rfl
      cases hlast
    rw [if_neg (not_not.mpr hown)]
    split
    · trivial
    -- the recorded route and the cached rest are joined, and the joined route is answered
    · have hpos := length_pos_of_ne_nil hne
      obtain ⟨complete, hcomplete, hnodup', hlen, hfirst', hlast', hlinks⟩ :=
        @completeRoute_spec p.route.ids rest (by omega)
      simp only [hcomplete, bind, Except.bind]
      split
      · trivial
      · rename_i hmember
        rcases answer_spec hme (by omega) hlen with ⟨habort, hwhy⟩ | ⟨m'', r, hanswer, hids, hback, -, -⟩
        · rw [habort]
          exact ⟨rfl, hwhy⟩
        · rw [hanswer]
          refine ⟨?_, ?_, ?_, ?_, ?_, ?_, hback⟩
          · rw [hids, hfirst', head?_append, hsrc]
            rfl
          · rw [hids, hlast', getLast?_append, hlast]
            rfl
          · rw [hids]
            exact own_of_member (not_not.mp hmember)
          · rw [hids]
            exact hnodup'
          · rw [hids, ids_length]
            exact hlen
          · intro a b hab
            rw [hids] at hab
            have hpair := List.IsChain.infix hlinks hab
            have hlink : [a, b] <:+: p.route.ids ++ rest := (isChain_cons_cons.mp hpair).1
            rcases infix_append hlink with h | ⟨ha, hb⟩ | h
            · exact Or.inl h
            · rw [hb] at hown
              exact Or.inr (Or.inl ⟨ha, hown⟩)
            · exact Or.inr (Or.inr ⟨q, hq, h.trans hprefix.isInfix⟩)

/-- Node 5 knows the route 5, 6, 2, 7. -/
def five : MobiCache :=
  { MobiCache.init (ID.ofIP 5) invalidAddr false true with
    primaryCache := { cache := [[ID.ofIP 5, ID.ofIP 6, ID.ofIP 2, ID.ofIP 7]], victimPtr := 0 }
    secondaryCache := { cache := [], victimPtr := 0 } }

/-- Node 1 asks for node 7, over node 3. -/
def askSeven : RequestPacket where
  src := ID.ofIP 1
  dest := ID.ofIP 7
  route := ⟨[ID.ofIP 1, ID.ofIP 3], 2, by decide, by decide⟩
  isDSR := true
  routeReply := false
  routeError := false
  tellAddr := 0
  rtreqSeq := 4

example : (replyFromRouteCache five askSeven).toOption.map
      (fun r => r.2.map (fun reply => (reply.replyAddrs.map ID.addr, reply.route.ids.map ID.addr))) =
    some (some ([1, 3, 5, 6, 2, 7], [5, 3, 1])) := by
  decide +kernel

end NetSim.Dsr
