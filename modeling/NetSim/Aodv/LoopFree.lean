import NetSim.Aodv.Routes
import NetSim.Lib.Acyclic

/-! # Loops of routes

A route is better when its sequence number is larger, or equal with fewer hops. As long as no node loses
a route under repair to the timer, takes a route to itself, or takes a route with the hop count that
stands for infinity, routes only get better at every node, and the next hop of a route that is up has a
better one, or is the destination; so the routes to a destination have no cycle (`loop_free`). A timer
that gives up a repair makes the route worse under the same sequence number, and a node upstream can
then sell it its own route back (`local_repair_loop`).
-/

namespace NetSim.Aodv

open Function List Acyclic

/-! ## The order of routes -/

def Route.rank (r : Route) : ℕ ×ₗ ℕᵒᵈ := Acyclic.rank r.seqno r.hops

theorem Route.fresher_iff {r : Route} {s h : ℕ} : r.Fresher s h ↔ r.rank < Acyclic.rank s h :=
  rank_lt_iff.symm

/-! ## The invariant of a node -/

variable {v v' v'' v₀ : View} {p : Packet} {e : Event} {r r' r₀ : Route} {dst : ℕ}

structure Route.Sound (r : Route) : Prop where
  hops : r.hops ≤ infinity2
  finite : r.hops ≠ infinity2 → r.seqno % 2 = 0 ∧ 0 < r.seqno
  infinite : r.hops = infinity2 → r.seqno = 0 ∨ r.seqno % 2 = 1
  down : r.flags = .down → r.hops = infinity2
  up : r.flags = .up → r.hops ≠ infinity2

structure Packet.Sound (p : Packet) : Prop where
  advert : ∀ {dst seqno hops via : ℕ}, Advertises dst seqno hops via p →
    seqno % 2 = 0 ∧ 0 < seqno ∧ 1 ≤ hops ∧ hops ≤ infinity2
  ttl : ∀ rq, p.body = .rreq rq → 0 < p.ttl ∧ p.ttl + rq.rqHopCount ≤ 31
  error : ∀ l, p.body = .rerr l → ∀ x ∈ l, x.2 = 0 ∨ x.2 % 2 = 1

def View.Covers (v : View) (p : Packet) : Prop :=
  ∀ {dst seqno hops via : ℕ}, Advertises dst seqno hops via p →
    via = v.index ∧ (dst = v.index ∨ rank seqno (hops - 1) ≤ (v.route dst).rank)

structure View.Sound (v : View) : Prop where
  seqno : v.seqno % 2 = 0 ∧ 0 < v.seqno
  routes : ∀ dst r, v.routes dst = some r → r.Sound
  self : ∀ r, v.routes v.index = some r → r.flags ≠ .up
  packets : ∀ p ∈ v.target, p.Sound ∧ v.Covers p

/-- The route to a destination is up and goes through a node. -/
def View.Via (v : View) (dst via : ℕ) : Prop :=
  ∃ r, v.routes dst = some r ∧ r.flags = .up ∧ r.nexthop = via

/-- Routes get better; a new route comes from a packet. -/
structure Grows (e : Event) (v v' : View) : Prop where
  index : v'.index = v.index
  rank : ∀ dst, (v.route dst).rank ≤ (v'.route dst).rank
  via : ∀ dst b, v'.Via dst b →
    v.Via dst b ∧ (v'.route dst).rank = (v.route dst).rank ∨
      ∃ p s h, e = .recv p ∧ Advertises dst s h b p ∧ (v'.route dst).rank = Acyclic.rank s h

theorem Grows.refl (e : Event) (v : View) : Grows e v v where
  index := rfl
  rank _ := le_rfl
  via _ _ hvia := Or.inl ⟨hvia, rfl⟩

theorem Grows.trans (h : Grows e v v') (h' : Grows e v' v'') : Grows e v v'' where
  index := h'.index.trans h.index
  rank dst := (h.rank dst).trans (h'.rank dst)
  via dst b hvia := by
    rcases h'.via dst b hvia with ⟨hvia', hrank⟩ | hnew
    · rw [hrank]
      exact h.via dst b hvia'
    · exact Or.inr hnew

theorem View.Covers.grow (h : v.Covers p) (hgrows : Grows e v v') : v'.Covers p := by
  intro dst seqno hops via hadvertises
  rw [hgrows.index]
  obtain ⟨hvia, hcovered⟩ := h hadvertises
  exact ⟨hvia, hcovered.imp_right (fun hle => hle.trans (hgrows.rank dst))⟩

/-- The condition on an event: no timer gives up a repair, and no reply is accepted that is about the
node itself or counts `infinity2` hops. -/
def View.Careful (v : View) : Event → Prop
  | .recv p => ∀ rp, p.body = .rrep rp →
      (v.route rp.rpDst).Fresher rp.rpDstSeqno rp.rpHopCount →
      rp.rpHopCount ≠ infinity2 ∧ rp.rpDst ≠ v.index
  | .lrTimer dst => (v.route dst).flags = .inRepair → (v.route dst).hops = infinity2
  | _ => True

theorem Route.Sound.lost {s : ℕ} (h : s = 0 ∨ s % 2 = 1) : (Route.lost s).Sound where
  hops := le_rfl
  finite hfinite := absurd rfl hfinite
  infinite _ := h
  down _ := rfl
  up hup := Flags.noConfusion hup

theorem learns (hpacket : p.Sound) (hcareful : v.Careful (.recv p)) {seqno hops via : ℕ}
    (hadvertises : Advertises dst seqno hops via p) (hself : ∀ rq, p.body = .rreq rq → dst ≠ v.index)
    (hbefore : (v.route dst).Fresher seqno hops) : hops ≠ infinity2 ∧ dst ≠ v.index := by
  cases hadvertises with
  | rreq hbody hdst hseqno hhops hvia =>
    obtain ⟨hpos, httl⟩ := hpacket.ttl _ hbody
    refine ⟨?_, hself _ hbody⟩
    show _ ≠ 255
    omega
  | rrep hbody hdst hseqno hhops hvia =>
    subst hdst hseqno hhops
    exact hcareful _ hbody hbefore

/-- **What becomes of a route** is sound and better, and up only when it is learned. -/
theorem RouteChange.sound (h : RouteChange e v.index dst (v₀.route dst) r r') (hr : r.Sound)
    (hpacket : ∀ p, e = .recv p → p.Sound) (hcareful : v₀.Careful e) (hindex : v₀.index = v.index) :
    r'.Sound ∧ r.rank ≤ r'.rank ∧ (r'.flags = .up → dst ≠ v.index ∧
      ∃ p, e = .recv p ∧ Advertises dst r'.seqno r'.hops r'.nexthop p) := by
  cases h with
  | learn hrecv hadvertises hself hbefore hfresher =>
    subst hrecv
    rw [← hindex] at hself ⊢
    obtain ⟨hhops, hother⟩ := learns (hpacket _ rfl) hcareful hadvertises hself hbefore
    obtain ⟨heven, hpos, -, hle⟩ := (hpacket _ rfl).advert hadvertises
    refine ⟨⟨hle, fun _ => ⟨heven, hpos⟩, fun hinf => absurd hinf hhops,
      fun hdown => Flags.noConfusion hdown, fun _ => hhops⟩, ?_, fun _ => ⟨hother, _, rfl, hadvertises⟩⟩
    exact (Route.fresher_iff.mp hfresher).le
  | invalidate hhops hup =>
    obtain ⟨heven, -⟩ := hr.finite hhops
    refine ⟨.lost (Or.inr (by omega)), rank_le_iff.mpr (Or.inl (Nat.lt_succ_self _)),
      fun hup' => Flags.noConfusion hup'⟩
  | @error p l seqno hrecv hbody hmem hhops hup heven hle =>
    -- the number of an error is odd, that of the route even
    have hodd := (hpacket _ hrecv).error _ hbody _ hmem
    have hpos := (hr.finite hhops).2
    refine ⟨.lost hodd, rank_le_iff.mpr (Or.inl ?_), fun hup' => Flags.noConfusion hup'⟩
    show r.seqno < seqno
    omega
  | repair =>
    refine ⟨⟨hr.hops, hr.finite, hr.infinite, fun hdown => Flags.noConfusion hdown,
      fun hup => Flags.noConfusion hup⟩, le_rfl, fun hup => Flags.noConfusion hup⟩
  | giveUp htimer hbefore hup =>
    subst htimer
    have hinf : r.hops = infinity2 := by
      have hcareful' : (v₀.route dst).flags = .inRepair → (v₀.route dst).hops = infinity2 :=
        hcareful
      rw [hbefore] at hcareful'
      exact hcareful' hup
    refine ⟨.lost (hr.infinite hinf), rank_le_iff.mpr (Or.inr ⟨rfl, ?_⟩),
      fun hup' => Flags.noConfusion hup'⟩
    rw [hinf]
    exact le_rfl

theorem sound_rreq {rq : Rreq} (hbody : p.body = .rreq rq)
    (hseqno : rq.rqSrcSeqno % 2 = 0 ∧ 0 < rq.rqSrcSeqno) (hhops : 1 ≤ rq.rqHopCount)
    (httl : 0 < p.ttl ∧ p.ttl + rq.rqHopCount ≤ 31) (hvia : p.saddr = v.index)
    (hcovered : rq.rqSrc = v.index ∨
      rank rq.rqSrcSeqno (rq.rqHopCount - 1) ≤ (v.route rq.rqSrc).rank) :
    p.Sound ∧ v.Covers p := by
  refine ⟨⟨?_, ?_, ?_⟩, ?_⟩
  · intro dst seqno hops via h
    obtain ⟨-, rfl, rfl, -⟩ := advertises_rreq hbody h
    refine ⟨hseqno.1, hseqno.2, hhops, ?_⟩
    show _ ≤ 255
    omega
  · intro rq' hbody'
    rw [hbody] at hbody'
    cases hbody'
    exact httl
  · intro l hbody'
    rw [hbody] at hbody'
    cases hbody'
  · intro dst seqno hops via h
    obtain ⟨rfl, rfl, rfl, rfl⟩ := advertises_rreq hbody h
    exact ⟨hvia, hcovered⟩

theorem sound_rrep {rp : Rrep} (hbody : p.body = .rrep rp)
    (hseqno : rp.rpDstSeqno % 2 = 0 ∧ 0 < rp.rpDstSeqno)
    (hhops : 1 ≤ rp.rpHopCount ∧ rp.rpHopCount ≤ infinity2) (hvia : rp.rpSrc = v.index)
    (hcovered : rp.rpDst = v.index ∨
      rank rp.rpDstSeqno (rp.rpHopCount - 1) ≤ (v.route rp.rpDst).rank) :
    p.Sound ∧ v.Covers p := by
  refine ⟨⟨?_, ?_, ?_⟩, ?_⟩
  · intro dst seqno hops via h
    obtain ⟨-, rfl, rfl, -⟩ := advertises_rrep hbody h
    exact ⟨hseqno.1, hseqno.2, hhops.1, hhops.2⟩
  · intro rq hbody'
    rw [hbody] at hbody'
    cases hbody'
  · intro l hbody'
    rw [hbody] at hbody'
    cases hbody'
  · intro dst seqno hops via h
    obtain ⟨rfl, rfl, rfl, rfl⟩ := advertises_rrep hbody h
    exact ⟨hvia, hcovered⟩

theorem sound_other (hrreq : ∀ rq, p.body ≠ .rreq rq) (hrrep : ∀ rp, p.body ≠ .rrep rp)
    (herror : ∀ l, p.body = .rerr l → ∀ x ∈ l, x.2 = 0 ∨ x.2 % 2 = 1) : p.Sound ∧ v.Covers p := by
  have hnone : ∀ {dst seqno hops via : ℕ}, ¬ Advertises dst seqno hops via p := by
    intro dst seqno hops via h
    cases h with
    | rreq hbody => exact hrreq _ hbody
    | rrep hbody => exact hrrep _ hbody
  exact ⟨⟨fun h => absurd h hnone, fun rq hbody => absurd hbody (hrreq rq), herror⟩,
    fun h => absurd h hnone⟩

theorem Sends.sound (h : Sends e v p) (hv : v.Sound) (hpacket : ∀ p, e = .recv p → p.Sound) :
    p.Sound ∧ v.Covers p := by
  cases h with
  | data hbody =>
    exact sound_other (by simp [hbody]) (by simp [hbody]) (by simp [hbody])
  | hello hbody =>
    exact sound_other (by simp [hbody]) (by simp [hbody]) (by simp [hbody])
  | request hbody hsaddr hsrc hseqno hhops hpos httl =>
    refine sound_rreq hbody (by rw [hseqno]; exact hv.seqno) (by rw [hhops]) ⟨hpos, ?_⟩ hsaddr
      (Or.inl hsrc)
    have httl' : p.ttl ≤ 30 := httl
    omega
  | @forwardRequest p₀ rq₀ rq r hrecv hbody₀ hbody hsaddr hsrc hseqno hhops hpos httl hroute hknown =>
    obtain ⟨hpos₀, httl₀⟩ := (hpacket p₀ hrecv).ttl rq₀ hbody₀
    obtain ⟨heven, hpositive, hone, -⟩ := (hpacket p₀ hrecv).advert (.rreq hbody₀ rfl rfl rfl rfl)
    have hmod : (rq₀.rqHopCount + 1) % 256 = rq₀.rqHopCount + 1 := Nat.mod_eq_of_lt (by omega)
    rw [hmod] at hhops
    refine sound_rreq hbody (by rw [hseqno]; exact ⟨heven, hpositive⟩) (by omega)
      ⟨by omega, by omega⟩ hsaddr (Or.inr ?_)
    rw [hseqno, hhops, hsrc, route_of_routes hroute]
    exact not_lt.mp (fun hlt => hknown (Route.fresher_iff.mpr hlt))
  | ownReply hbody hsrc hdst hseqno hhops =>
    exact sound_rrep hbody (by rw [hseqno]; exact hv.seqno) (by rw [hhops]; decide) hsrc
      (Or.inl hdst)
  | @routeReply rp r hbody hsrc hroute hfinite hseqno hhops =>
    have hr := hv.routes _ r hroute
    have hmod : (r.hops + 1) % 256 = r.hops + 1 := by
      have hle : r.hops ≤ 255 := hr.hops
      have hne : r.hops ≠ 255 := hfinite
      exact Nat.mod_eq_of_lt (by omega)
    rw [hmod] at hhops
    refine sound_rrep hbody (by rw [hseqno]; exact hr.finite hfinite) ?_ hsrc (Or.inr ?_)
    · show 1 ≤ rp.rpHopCount ∧ rp.rpHopCount ≤ 255
      omega
    · rw [hseqno, hhops, route_of_routes hroute]
      exact le_rfl
  | @forwardReply p₀ rp₀ rp r hrecv hbody₀ hbody hsrc hdst hroute hup hseqno₀ hhops₀ hseqno hhops =>
    have hr := hv.routes _ r hroute
    have hfinite := hr.up hup
    have hmod : (rp₀.rpHopCount + 1) % 256 = r.hops + 1 := by
      have hle : r.hops ≤ 255 := hr.hops
      have hne : r.hops ≠ 255 := hfinite
      rw [← hhops₀]
      exact Nat.mod_eq_of_lt (by omega)
    rw [hmod] at hhops
    refine sound_rrep hbody (by rw [hseqno, ← hseqno₀]; exact hr.finite hfinite) ?_ hsrc (Or.inr ?_)
    · show 1 ≤ rp.rpHopCount ∧ rp.rpHopCount ≤ 255
      omega
    · rw [hseqno, hhops, hdst, route_of_routes hroute, ← hseqno₀]
      exact le_rfl
  | error hbody hdown =>
    refine sound_other (by simp [hbody]) (by simp [hbody]) (fun l' hbody' x hx => ?_)
    rw [hbody] at hbody'
    cases hbody'
    obtain ⟨r, hroute, hflags, hseqno⟩ := hdown x hx
    have hr := hv.routes _ r hroute
    rw [← hseqno]
    exact hr.infinite (hr.down hflags)

/-! ## Steps and chains -/

theorem sound_new : Route.new.Sound := .lost (Or.inl rfl)

theorem View.Sound.set (hv : v.Sound) (hr : r.Sound) (hle : (v.route dst).rank ≤ r.rank)
    (hup : r.flags = .up → dst ≠ v.index ∧
      ∃ p, e = .recv p ∧ Advertises dst r.seqno r.hops r.nexthop p) :
    (v.set dst r).Sound ∧ Grows e v (v.set dst r) := by
  have hgrows : Grows e v (v.set dst r) := by
    refine ⟨rfl, fun d => ?_, fun d b hvia => ?_⟩
    · by_cases hd : d = dst
      · rw [hd, route_set_self]
        exact hle
      · rw [route_set_of_ne hd]
    · obtain ⟨r', hr', hflags, hnexthop⟩ := hvia
      by_cases hd : d = dst
      · subst hd
        have heq : r = r' := Option.some.inj ((v.routes_set_self d r).symm.trans hr')
        subst heq
        obtain ⟨-, p, hrecv, hadvertises⟩ := hup hflags
        rw [hnexthop] at hadvertises
        refine Or.inr ⟨p, _, _, hrecv, hadvertises, ?_⟩
        rw [route_set_self]
        rfl
      · have hold : v.routes d = some r' := (v.routes_set_of_ne hd r).symm.trans hr'
        exact Or.inl ⟨⟨r', hold, hflags, hnexthop⟩, by rw [route_set_of_ne hd]⟩
  refine ⟨⟨hv.seqno, ?_, ?_, ?_⟩, hgrows⟩
  · intro d r' hr'
    by_cases hd : d = dst
    · subst hd
      rw [← Option.some.inj ((v.routes_set_self d r).symm.trans hr')]
      exact hr
    · exact hv.routes d r' ((v.routes_set_of_ne hd r).symm.trans hr')
  · intro r' hr' hflags
    by_cases hd : v.index = dst
    · have hr'' : (v.set dst r).routes v.index = some r' := hr'
      rw [hd, v.routes_set_self] at hr''
      cases hr''
      exact (hup hflags).1 hd.symm
    · exact hv.self r' ((v.routes_set_of_ne hd r).symm.trans hr') hflags
  · intro p hp
    obtain ⟨hsound, hcovers⟩ := hv.packets p hp
    exact ⟨hsound, hcovers.grow hgrows⟩

theorem Change.sound (h : Change e v₀ v v') (hv : v.Sound) (hindex : v₀.index = v.index)
    (hpacket : ∀ p, e = .recv p → p.Sound) (hcareful : v₀.Careful e) : v'.Sound ∧ Grows e v v' := by
  cases h with
  | @count seqno hle heven =>
    have hgrows : Grows e v { v with seqno } := ⟨rfl, fun _ => le_rfl, fun _ _ hvia => Or.inl ⟨hvia, rfl⟩⟩
    refine ⟨⟨⟨heven hv.seqno.1, hv.seqno.2.trans_le hle⟩, hv.routes, hv.self, ?_⟩, hgrows⟩
    intro p hp
    obtain ⟨hsound, hcovers⟩ := hv.packets p hp
    exact ⟨hsound, hcovers.grow hgrows⟩
  | @add dst hnone hnew =>
    have hroute : v.route dst = .new := by
      unfold View.route
      rw [hnone]
      rfl
    obtain ⟨hset, hgrows⟩ := @View.Sound.set v e .new dst hv sound_new (by rw [hroute])
      (fun hup => Flags.noConfusion hup)
    exact ⟨⟨hset.seqno, hset.routes, hset.self, hset.packets⟩,
      ⟨hgrows.index, hgrows.rank, hgrows.via⟩⟩
  | @route dst r r' hroute hchange =>
    obtain ⟨hr', hle, hup⟩ := hchange.sound (hv.routes dst r hroute) hpacket hcareful hindex
    exact hv.set hr' (by rw [route_of_routes hroute]; exact hle) hup
  | @send p hsends =>
    have hgrows : Grows e v { v with target := v.target ++ [p] } :=
      ⟨rfl, fun _ => le_rfl, fun _ _ hvia => Or.inl ⟨hvia, rfl⟩⟩
    refine ⟨⟨hv.seqno, hv.routes, hv.self, ?_⟩, hgrows⟩
    intro q hq
    rcases mem_append.mp hq with hq | hq
    · exact hv.packets q hq
    · rw [mem_singleton.mp hq]
      exact hsends.sound hv hpacket

theorem Evolves.sound (h : Evolves e v₀ v₀ v) (hv₀ : v₀.Sound)
    (hpacket : ∀ p, e = .recv p → p.Sound) (hcareful : v₀.Careful e) : v.Sound ∧ Grows e v₀ v := by
  induction h with
  | refl => exact ⟨hv₀, .refl e v₀⟩
  | tail _ hchange ih =>
    obtain ⟨hv, hgrows⟩ := ih
    obtain ⟨hv', hgrows'⟩ := hchange.sound hv hgrows.index.symm hpacket hcareful
    exact ⟨hv', hgrows.trans hgrows'⟩

/-! ## The network -/

variable {s : ℕ → Node} {a : ℕ}

/-- The node `a` has a route to `dst` that is up, with `b` as its next hop. -/
def Edge (s : ℕ → Node) (dst a b : ℕ) : Prop :=
  ∃ rt ∈ (s a).rtable, rt.rtDst = dst ∧ rt.rtFlags = .up ∧ rt.rtNexthop = b

/-- The condition on an event at node `a`: no timer gives up a repair of a route with a hop count, and
no reply is accepted that is about the node itself or counts `infinity2` hops. -/
def Careful (s : ℕ → Node) (a : ℕ) (_now : ℚ) : Event → Prop
  | .recv p => ∀ rp, p.body = .rrep rp →
      ((s a).entry rp.rpDst).Fresher rp.rpDstSeqno rp.rpHopCount →
      rp.rpHopCount ≠ infinity2 ∧ rp.rpDst ≠ a
  | .lrTimer dst =>
    ((s a).entry dst).rtFlags = .inRepair → ((s a).entry dst).rtHops = infinity2
  | _ => True

instance (s : ℕ → Node) (a : ℕ) (now : ℚ) : (e : Event) → Decidable (Careful s a now e)
  | .recv p =>
    match hbody : p.body with
    | .rrep rp =>
      decidable_of_iff (((s a).entry rp.rpDst).Fresher rp.rpDstSeqno rp.rpHopCount →
        rp.rpHopCount ≠ infinity2 ∧ rp.rpDst ≠ a) (by simp [Careful, hbody])
    | .data => isTrue (by simp [Careful, hbody])
    | .rreq _ => isTrue (by simp [Careful, hbody])
    | .rerr _ => isTrue (by simp [Careful, hbody])
    | .hello _ _ => isTrue (by simp [Careful, hbody])
  | .lrTimer dst =>
    inferInstanceAs (Decidable
      (((s a).entry dst).rtFlags = .inRepair → ((s a).entry dst).rtHops = infinity2))
  | .llFailed _ => isTrue trivial
  | .nbPurge => isTrue trivial
  | .rtPurge => isTrue trivial
  | .idPurge => isTrue trivial
  | .hello => isTrue trivial

/-- The invariant of the network: every node is sound, and the next hop of a route that is up has a
better one. -/
structure Ordered (s : ℕ → Node) : Prop where
  index : ∀ a, (s a).index = a
  sound : ∀ a, (s a).view.Sound
  edges : ∀ dst a b, (s a).view.Via dst b →
    b = dst ∨ ((s a).view.route dst).rank < ((s b).view.route dst).rank

theorem Careful.view {now : ℚ} (h : Careful s a now e) (hindex : (s a).index = a) :
    (s a).view.Careful e := by
  cases e with
  | recv p =>
    intro rp hbody hfresher
    rw [Node.view_entry] at hfresher
    show _ ∧ rp.rpDst ≠ (s a).index
    rw [hindex]
    exact h rp hbody hfresher
  | lrTimer dst =>
    intro hflags
    rw [Node.view_entry] at hflags ⊢
    exact h hflags
  | llFailed p => trivial
  | nbPurge => trivial
  | rtPurge => trivial
  | idPurge => trivial
  | hello => trivial

theorem ordered_init : Ordered Node.init where
  index _ := rfl
  sound a := by
    refine ⟨(by decide : 2 % 2 = 0 ∧ 0 < 2), fun dst r hr => ?_, fun r hr => ?_, fun p hp => ?_⟩
    · cases hr
    · cases hr
    · cases hp
  edges dst a b hvia := by
    obtain ⟨r, hr, -⟩ := hvia
    cases hr

/-- The step lemma: what the node now has is no worse than what others rely on. -/
theorem Ordered.step (h : Ordered s) {now : ℚ} {n' : Node} (henabled : Enabled s a e)
    (hcareful : Careful s a now e) (hstep : (s a).step now e = some n') :
    Ordered (update s a n') := by
  have hsent : ∀ p, e = .recv p → p.body = .data ∨ ∃ b, p ∈ (s b).target := by
    rintro p rfl
    exact henabled.imp_right And.left
  have hpacket : ∀ p, e = .recv p → p.Sound := by
    intro p hp
    rcases hsent p hp with hdata | ⟨b, hmem⟩
    · exact (@sound_other (s a).view p (by simp [hdata]) (by simp [hdata]) (by simp [hdata])).1
    · exact ((h.sound b).packets p hmem).1
  obtain ⟨hsound, hgrows⟩ := (Node.step_evolves hstep).sound (h.sound a) hpacket
    (hcareful.view (h.index a))
  -- no route of the network gets worse
  have hrank : ∀ b dst, ((s b).view.route dst).rank ≤
      ((update s a n' b).view.route dst).rank := by
    intro b dst
    by_cases hb : b = a
    · subst hb
      rw [update_self]
      exact hgrows.rank dst
    · rw [update_of_ne hb]
  refine ⟨fun b => ?_, fun b => ?_, fun dst b c hvia => ?_⟩
  · by_cases hb : b = a
    · subst hb
      rw [update_self]
      exact hgrows.index.trans (h.index b)
    · rw [update_of_ne hb]
      exact h.index b
  · by_cases hb : b = a
    · subst hb
      rw [update_self]
      exact hsound
    · rw [update_of_ne hb]
      exact h.sound b
  · by_cases hb : b = a
    · subst hb
      rw [update_self] at hvia ⊢
      rcases hgrows.via dst c hvia with ⟨hold, hsame⟩ | ⟨p, s', h', hrecv, hadvertises, hnew⟩
      · rw [hsame]
        exact (h.edges dst b c hold).imp_right (fun hlt => hlt.trans_le (hrank c dst))
      · -- the sender of the packet has a better route
        rcases hsent p hrecv with hdata | ⟨d, hmem⟩
        · cases hadvertises with
          | rreq hbody => rw [hdata] at hbody; cases hbody
          | rrep hbody => rw [hdata] at hbody; cases hbody
        · obtain ⟨hps, hcovers⟩ := (h.sound d).packets p hmem
          obtain ⟨hvia', hcovered⟩ := hcovers hadvertises
          have hd : (s d).view.index = d := h.index d
          rw [hd] at hvia' hcovered
          subst hvia'
          refine hcovered.imp Eq.symm (fun hle => ?_)
          rw [hnew]
          have hone := (hps.advert hadvertises).2.2.1
          calc rank s' h' < rank s' (h' - 1) := rank_lt_iff.mpr (Or.inr ⟨rfl, by omega⟩)
            _ ≤ ((s c).view.route dst).rank := hle
            _ ≤ ((update s b n' c).view.route dst).rank := hrank c dst
    · rw [update_of_ne hb] at hvia ⊢
      exact (h.edges dst b c hvia).imp_right (fun hlt => hlt.trans_le (hrank c dst))

/-- By induction on the run. -/
theorem Reachable.ordered (h : Reachable Careful s) : Ordered s := by
  induction h with
  | init => exact ordered_init
  | step _ henabled hcareful hstep ih => exact ih.step henabled hcareful hstep

/-- **Loop freedom**, in runs whose events meet the condition. -/
theorem loop_free (s : ℕ → Node) (h : Reachable Careful s) (dst a : ℕ) :
    ¬ Relation.TransGen (Edge s dst) a a := by
  have hordered := h.ordered
  have hvia : ∀ {a b : ℕ}, Edge s dst a b → (s a).view.Via dst b := by
    rintro a b ⟨rt, hmem, rfl, hup, hnexthop⟩
    exact ⟨rt.route, Node.view_routes (h.lookup hmem), hup, hnexthop⟩
  refine Acyclic.acyclic_of_rank (fun a => ((s a).view.route dst).rank)
    (fun a b hedge => hordered.edges dst a b (hvia hedge)) (fun b hedge => ?_) a
  obtain ⟨r, hr, hup, -⟩ := hvia hedge
  refine (hordered.sound dst).self r ?_ hup
  rw [show (s dst).view.index = dst from hordered.index dst]
  exact hr

/-- After the discovery of a route. -/
theorem loop_free_discovery :
    ∃ s, follow Careful discovery Node.init = some s ∧ ∀ a, ¬ Relation.TransGen (Edge s 3) a a := by
  obtain ⟨s, hs⟩ := Option.isSome_iff_exists.mp
    (show (follow Careful discovery Node.init).isSome by decide +kernel)
  exact ⟨s, hs, loop_free s (Reachable.init.follow hs) 3⟩

/-- The link from 2 to 3 breaks and 2 starts a local repair; 1 answers its request with the route
through 2, and the reply comes when the timer has given up the repair. -/
def repair : List (ℕ × ℚ × Choice) :=
  [(2, 2, .happen (.llFailed (dataPacket 2 3))), (1, 21 / 10, .deliver 2 2),
    (2, 5, .happen (.lrTimer 3)), (2, 51 / 10, .deliver 1 2)]

/-- **A failed local repair** leaves a loop: 1 and 2 are each other's next hop to 3. -/
theorem local_repair_loop :
    ∃ s, Reachable (fun _ _ _ _ => True) s ∧ Relation.TransGen (Edge s 3) 1 1 := by
  have hedges : ((follow (fun _ _ _ _ => True) (discovery ++ repair) Node.init).map (fun s =>
      [1, 2].map (fun a => ((s a).rtLookup 3).map (fun rt => (rt.rtFlags, rt.rtNexthop))))) =
      some [some (.up, 2), some (.up, 1)] := by
    decide +kernel
  obtain ⟨s, hs, hedges⟩ := Option.map_eq_some_iff.mp hedges
  simp only [map_cons, map_nil, List.cons.injEq, Option.map_eq_some_iff, Prod.mk.injEq,
    and_true] at hedges
  obtain ⟨⟨rt₁, hrt₁, h₁⟩, rt₂, hrt₂, h₂⟩ := hedges
  have hfirst : Edge s 3 1 2 :=
    ⟨rt₁, mem_of_find?_eq_some hrt₁, Node.rtLookup_dst hrt₁, h₁⟩
  have hsecond : Edge s 3 2 1 :=
    ⟨rt₂, mem_of_find?_eq_some hrt₂, Node.rtLookup_dst hrt₂, h₂⟩
  exact ⟨s, Reachable.init.follow hs, .tail (.single hfirst) hsecond⟩

end NetSim.Aodv
