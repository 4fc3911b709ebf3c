import Mathlib.Logic.Function.Basic
import Mathlib.Logic.Relation
import NetSim.Aodv.Network

/-! # What a node does to its routes

The protocol as its routes see it: of every entry the sequence number, the hop count, the state and the
next hop, and the packets that the node has sent. Every handler is a chain of the changes listed in
`Change` (`step_evolves`).
-/

namespace NetSim.Aodv

open Function List

structure Route where
  seqno : ℕ
  hops : ℕ
  flags : Flags
  nexthop : ℕ

namespace Route

/-- The route is better than `r`. -/
def Fresher (r : Route) (seqno hops : ℕ) : Prop :=
  r.seqno < seqno ∨ r.seqno = seqno ∧ hops < r.hops

def new : Route := ⟨0, infinity2, .down, 0⟩

/-- A route that is given up, with a sequence number. -/
def lost (seqno : ℕ) : Route := ⟨seqno, infinity2, .down, 0⟩

end Route

/-- A node as its routes see it; `dsts` lists the destinations that have an entry. -/
structure View where
  index : ℕ
  seqno : ℕ
  dsts : List ℕ
  routes : ℕ → Option Route
  target : List Packet

namespace View

def set (v : View) (dst : ℕ) (r : Route) : View :=
  { v with routes := update v.routes dst (some r) }

theorem routes_set_self (v : View) (dst : ℕ) (r : Route) : (v.set dst r).routes dst = some r :=
  update_self ..

theorem routes_set_of_ne (v : View) {dst d : ℕ} (hne : d ≠ dst) (r : Route) :
    (v.set dst r).routes d = v.routes d :=
  update_of_ne hne ..

def route (v : View) (dst : ℕ) : Route := (v.routes dst).getD .new

end View

/-- A packet says that its sender, `via`, is on the way to `dst`. -/
inductive Advertises (dst seqno hops via : ℕ) : Packet → Prop
  | rreq {p : Packet} {rq : Rreq} (hbody : p.body = .rreq rq) (hdst : rq.rqSrc = dst)
      (hseqno : rq.rqSrcSeqno = seqno) (hhops : rq.rqHopCount = hops) (hvia : p.saddr = via) :
      Advertises dst seqno hops via p
  | rrep {p : Packet} {rp : Rrep} (hbody : p.body = .rrep rp) (hdst : rp.rpDst = dst)
      (hseqno : rp.rpDstSeqno = seqno) (hhops : rp.rpHopCount = hops) (hvia : rp.rpSrc = via) :
      Advertises dst seqno hops via p

section

variable {v : View} {p : Packet} {r : Route} {dst : ℕ}

theorem route_of_routes (h : v.routes dst = some r) : v.route dst = r := by
  unfold View.route
  rw [h]
  rfl

theorem route_set_self : (v.set dst r).route dst = r :=
  route_of_routes (v.routes_set_self dst r)

theorem route_set_of_ne {dst' : ℕ} (hne : dst' ≠ dst) : (v.set dst r).route dst' = v.route dst' := by
  unfold View.route
  rw [v.routes_set_of_ne hne]

theorem advertises_rreq {rq : Rreq} {seqno hops via : ℕ} (hbody : p.body = .rreq rq)
    (h : Advertises dst seqno hops via p) :
    rq.rqSrc = dst ∧ rq.rqSrcSeqno = seqno ∧ rq.rqHopCount = hops ∧ p.saddr = via := by
  cases h with
  | rreq hbody' hdst hseqno hhops hvia =>
    rw [hbody] at hbody'
    cases hbody'
    exact ⟨hdst, hseqno, hhops, hvia⟩
  | rrep hbody' =>
    rw [hbody] at hbody'
    cases hbody'

theorem advertises_rrep {rp : Rrep} {seqno hops via : ℕ} (hbody : p.body = .rrep rp)
    (h : Advertises dst seqno hops via p) :
    rp.rpDst = dst ∧ rp.rpDstSeqno = seqno ∧ rp.rpHopCount = hops ∧ rp.rpSrc = via := by
  cases h with
  | rreq hbody' =>
    rw [hbody] at hbody'
    cases hbody'
  | rrep hbody' hdst hseqno hhops hvia =>
    rw [hbody] at hbody'
    cases hbody'
    exact ⟨hdst, hseqno, hhops, hvia⟩

end

/-- What may become of a route at the event `e`; `r₀` is the route before the event. -/
inductive RouteChange (e : Event) (index dst : ℕ) (r₀ r : Route) : Route → Prop
  | learn {p : Packet} {seqno hops via : ℕ} (hrecv : e = .recv p)
      (hadvertises : Advertises dst seqno hops via p) (hself : ∀ rq, p.body = .rreq rq → dst ≠ index)
      (hbefore : r₀.Fresher seqno hops) (hfresher : r.Fresher seqno hops) :
      RouteChange e index dst r₀ r ⟨seqno, hops, .up, via⟩
  | invalidate (hhops : r.hops ≠ infinity2) (hup : r.flags = .up) :
      RouteChange e index dst r₀ r (.lost (r.seqno + 1))
  | error {p : Packet} {l : List (ℕ × ℕ)} {seqno : ℕ} (hrecv : e = .recv p)
      (hbody : p.body = .rerr l) (hmem : (dst, seqno) ∈ l) (hhops : r.hops ≠ infinity2)
      (hup : r.flags = .up) (heven : r.seqno % 2 = 0) (hle : r.seqno ≤ seqno) :
      RouteChange e index dst r₀ r (.lost seqno)
  | repair : RouteChange e index dst r₀ r { r with flags := .inRepair }
  | giveUp (htimer : e = .lrTimer dst) (hbefore : r₀ = r) (hup : r.flags = .inRepair) :
      RouteChange e index dst r₀ r (.lost r.seqno)

/-- The packets that a node may send at the event `e`. -/
inductive Sends (e : Event) (v : View) (p : Packet) : Prop
  | data (hbody : p.body = .data)
  | hello {rpDst rpDstSeqno : ℕ} (hbody : p.body = .hello rpDst rpDstSeqno)
  | request {rq : Rreq} (hbody : p.body = .rreq rq) (hsaddr : p.saddr = v.index)
      (hsrc : rq.rqSrc = v.index) (hseqno : rq.rqSrcSeqno = v.seqno) (hhops : rq.rqHopCount = 1)
      (hpos : 0 < p.ttl) (httl : p.ttl ≤ networkDiameter)
  | forwardRequest {p₀ : Packet} {rq₀ rq : Rreq} {r : Route} (hrecv : e = .recv p₀)
      (hbody₀ : p₀.body = .rreq rq₀) (hbody : p.body = .rreq rq) (hsaddr : p.saddr = v.index)
      (hsrc : rq.rqSrc = rq₀.rqSrc) (hseqno : rq.rqSrcSeqno = rq₀.rqSrcSeqno)
      (hhops : rq.rqHopCount = (rq₀.rqHopCount + 1) % 256) (hpos : p.ttl ≠ 0)
      (httl : p.ttl = p₀.ttl - 1) (hroute : v.routes rq₀.rqSrc = some r)
      (hknown : ¬ r.Fresher rq₀.rqSrcSeqno rq₀.rqHopCount)
  | ownReply {rp : Rrep} (hbody : p.body = .rrep rp) (hsrc : rp.rpSrc = v.index)
      (hdst : rp.rpDst = v.index) (hseqno : rp.rpDstSeqno = v.seqno) (hhops : rp.rpHopCount = 1)
  | routeReply {rp : Rrep} {r : Route} (hbody : p.body = .rrep rp) (hsrc : rp.rpSrc = v.index)
      (hroute : v.routes rp.rpDst = some r) (hfinite : r.hops ≠ infinity2)
      (hseqno : rp.rpDstSeqno = r.seqno) (hhops : rp.rpHopCount = (r.hops + 1) % 256)
  | forwardReply {p₀ : Packet} {rp₀ rp : Rrep} {r : Route} (hrecv : e = .recv p₀)
      (hbody₀ : p₀.body = .rrep rp₀) (hbody : p.body = .rrep rp) (hsrc : rp.rpSrc = v.index)
      (hdst : rp.rpDst = rp₀.rpDst) (hroute : v.routes rp₀.rpDst = some r)
      (hup : r.flags = .up) (hseqno₀ : r.seqno = rp₀.rpDstSeqno) (hhops₀ : r.hops = rp₀.rpHopCount)
      (hseqno : rp.rpDstSeqno = rp₀.rpDstSeqno)
      (hhops : rp.rpHopCount = (rp₀.rpHopCount + 1) % 256)
  | error {l : List (ℕ × ℕ)} (hbody : p.body = .rerr l)
      (hdown : ∀ x ∈ l, ∃ r, v.routes x.1 = some r ∧ r.flags = .down ∧ r.seqno = x.2)

/-- One change at the event `e`; `v₀` is the node before the event. -/
inductive Change (e : Event) (v₀ v : View) : View → Prop
  | count {seqno : ℕ} (hle : v.seqno ≤ seqno) (heven : v.seqno % 2 = 0 → seqno % 2 = 0) :
      Change e v₀ v { v with seqno }
  | add {dst : ℕ} (hnone : v.routes dst = none) (hnew : dst ∉ v.dsts) :
      Change e v₀ v { v.set dst .new with dsts := dst :: v.dsts }
  | route {dst : ℕ} {r r' : Route} (hroute : v.routes dst = some r)
      (hchange : RouteChange e v.index dst (v₀.route dst) r r') : Change e v₀ v (v.set dst r')
  | send {p : Packet} (hsends : Sends e v p) : Change e v₀ v { v with target := v.target ++ [p] }

def Evolves (e : Event) (v₀ : View) : View → View → Prop := Relation.ReflTransGen (Change e v₀)

namespace RtEntry

def route (rt : RtEntry) : Route := ⟨rt.rtSeqno, rt.rtHops, rt.rtFlags, rt.rtNexthop⟩

def Quiet (f : RtEntry → RtEntry) : Prop := ∀ rt, (f rt).rtDst = rt.rtDst ∧ (f rt).route = rt.route

end RtEntry

namespace Node

def entry (n : Node) (dst : ℕ) : RtEntry := (n.rtLookup dst).getD (.new dst)

variable {n n' : Node} {e : Event} {v₀ : View} {now : ℚ} {p : Packet} {dst id : ℕ}
  {f : RtEntry → RtEntry} {rt : RtEntry}

def view (n : Node) : View where
  index := n.index
  seqno := n.seqno
  dsts := n.rtable.map RtEntry.rtDst
  routes := fun dst => (n.rtLookup dst).map RtEntry.route
  target := n.target

theorem view_entry (n : Node) (dst : ℕ) : n.view.route dst = (n.entry dst).route := by
  unfold View.route entry
  show ((n.rtLookup dst).map RtEntry.route).getD .new = _
  cases n.rtLookup dst <;> rfl

/-! ## The routing table -/

theorem rtLookup_dst (h : n.rtLookup dst = some rt) : rt.rtDst = dst := by
  simpa using find?_some h

theorem find_modifyEntry (hf : ∀ rt, (f rt).rtDst = rt.rtDst) (l : List RtEntry) (id : ℕ) :
    (modifyEntry dst f l).find? (fun rt => rt.rtDst = id) =
      if id = dst then (l.find? (fun rt => rt.rtDst = dst)).map f
      else l.find? (fun rt => rt.rtDst = id) := by
  induction l with
  | nil => simp [modifyEntry]
  | cons rt l ih =>
    unfold modifyEntry
    by_cases hrt : rt.rtDst = dst
    · rw [if_pos hrt]
      by_cases hid : id = dst
      · subst hid
        rw [find?_cons_of_pos (by simpa [hf] using hrt), if_pos rfl,
          find?_cons_of_pos (by simpa using hrt)]
        rfl
      · have hne : rt.rtDst ≠ id := fun heq => hid (heq.symm.trans hrt)
        rw [find?_cons_of_neg (by simpa [hf] using hne), if_neg hid,
          find?_cons_of_neg (by simpa using hne)]
    · rw [if_neg hrt]
      by_cases hid : rt.rtDst = id
      · have hne : id ≠ dst := fun heq => hrt (hid.trans heq)
        rw [find?_cons_of_pos (by simpa using hid), if_neg hne,
          find?_cons_of_pos (by simpa using hid)]
      · rw [find?_cons_of_neg (by simpa using hid), ih,
          find?_cons_of_neg (by simpa using hrt),
          find?_cons_of_neg (by simpa using hid)]

theorem dsts_modifyEntry (hf : ∀ rt, (f rt).rtDst = rt.rtDst) (l : List RtEntry) :
    (modifyEntry dst f l).map RtEntry.rtDst = l.map RtEntry.rtDst := by
  induction l with
  | nil => rfl
  | cons rt l ih =>
    unfold modifyEntry
    split
    · rw [map_cons, map_cons, hf]
    · rw [map_cons, map_cons, ih]

theorem rtLookup_modify (hf : ∀ rt, (f rt).rtDst = rt.rtDst) (id : ℕ) :
    (n.modify dst f).rtLookup id =
      if id = dst then (n.rtLookup dst).map f else n.rtLookup id :=
  find_modifyEntry hf n.rtable id

theorem rtLookup_modify_self (hf : ∀ rt, (f rt).rtDst = rt.rtDst) (h : n.rtLookup dst = some rt) :
    (n.modify dst f).rtLookup dst = some (f rt) := by
  rw [rtLookup_modify hf, if_pos rfl, h]
  rfl

theorem view_routes (h : n.rtLookup dst = some rt) : n.view.routes dst = some rt.route := by
  show (n.rtLookup dst).map RtEntry.route = _
  rw [h]
  rfl

theorem view_modify (hf : ∀ rt, (f rt).rtDst = rt.rtDst) (h : n.rtLookup dst = some rt) :
    (n.modify dst f).view = n.view.set dst (f rt).route := by
  have hroutes : (n.modify dst f).view.routes = (n.view.set dst (f rt).route).routes := by
    funext id
    show ((n.modify dst f).rtLookup id).map RtEntry.route =
      update n.view.routes dst (some (f rt).route) id
    rw [rtLookup_modify hf]
    by_cases hid : id = dst
    · subst hid
      rw [if_pos rfl, h, update_self]
      rfl
    · rw [if_neg hid, update_of_ne hid]
      rfl
  show View.mk n.index n.seqno ((modifyEntry dst f n.rtable).map RtEntry.rtDst)
    (n.modify dst f).view.routes n.target = _
  rw [hroutes, dsts_modifyEntry hf]
  rfl

/-- What the routes do not see. -/
@[simp] theorem view_modify_quiet (hf : RtEntry.Quiet f) : (n.modify dst f).view = n.view := by
  cases h : n.rtLookup dst with
  | none =>
    have hroutes : (n.modify dst f).view.routes = n.view.routes := by
      funext id
      show ((n.modify dst f).rtLookup id).map RtEntry.route = _
      rw [rtLookup_modify (fun rt => (hf rt).1)]
      split
      · rename_i hid
        rw [hid, h]
        show _ = (n.rtLookup dst).map RtEntry.route
        rw [h]
        rfl
      · rfl
    show View.mk n.index n.seqno ((modifyEntry dst f n.rtable).map RtEntry.rtDst)
      (n.modify dst f).view.routes n.target = _
    rw [hroutes, dsts_modifyEntry (fun rt => (hf rt).1)]
    rfl
  | some rt =>
    rw [view_modify (fun rt => (hf rt).1) h, (hf rt).2]
    show View.mk n.index n.seqno n.view.dsts
      (update n.view.routes dst (some rt.route)) n.target = _
    rw [← view_routes h, update_eq_self]
    rfl

theorem quiet_pcInsert (id : ℕ) : RtEntry.Quiet (·.pcInsert id) := by
  intro rt
  show (rt.pcInsert id).rtDst = rt.rtDst ∧ (rt.pcInsert id).route = rt.route
  unfold RtEntry.pcInsert
  split <;> exact ⟨rfl, rfl⟩

theorem quiet_pcDelete (id : ℕ) : RtEntry.Quiet (·.pcDelete id) := fun _ => ⟨rfl, rfl⟩

theorem rtDown_dst (rt : RtEntry) : rt.rtDown.rtDst = rt.rtDst := by
  unfold RtEntry.rtDown
  split <;> rfl

theorem rtDown_route (h : rt.rtFlags ≠ .down) : rt.rtDown.route = .lost rt.rtSeqno := by
  unfold RtEntry.rtDown
  rw [if_neg h]
  rfl

theorem assert_eq_some {q : Prop} [Decidable q] {u : Unit} : assert q = some u ↔ q := by
  unfold assert
  split <;> simp_all

/-! ## Forwarding and requests -/

theorem forward_evolves {d : Option ℕ} (h : n.forward now d p = some n')
    (hsends : p.ttl ≠ 0 → ∀ nextHop, Sends e n.view { p with nextHop, up := false }) :
    Evolves e v₀ n.view n'.view := by
  unfold forward at h
  split at h
  · cases h
    exact .refl
  rename_i httl
  split at h
  · cases h
    exact .refl
  cases d with
  | none =>
    cases h
    exact .single (.send (hsends httl p.nextHop))
  | some dst =>
    obtain ⟨rt, hrt, h⟩ := Option.bind_eq_some_iff.mp h
    obtain ⟨-, -, h⟩ := Option.bind_eq_some_iff.mp h
    cases h
    have hquiet : (n.modify dst
        (fun rt => { rt with rtExpire := now + activeRouteTimeout })).view = n.view :=
      view_modify_quiet (fun _ => ⟨rfl, rfl⟩)
    have hchange := @Change.send e v₀ n.view _ (hsends httl rt.rtNexthop)
    rw [← hquiet] at hchange ⊢
    exact .single hchange

/-- A packet that may be sent in the state is a change of it. -/
theorem send_evolves {m : Node} {v : View} (hview : m.view = v) (hsends : Sends e v p) :
    Evolves e v₀ v (m.send p).view := by
  subst hview
  exact .single (.send hsends)

theorem foldlM_evolves {α : Type} {g : Node → α → Option Node} {l : List α}
    (hg : ∀ n x n', g n x = some n' → Evolves e v₀ n.view n'.view)
    (h : l.foldlM g n = some n') : Evolves e v₀ n.view n'.view := by
  induction l generalizing n with
  | nil =>
    cases h
    exact .refl
  | cons x l ih =>
    obtain ⟨n₁, h₁, h⟩ := Option.bind_eq_some_iff.mp h
    exact (hg n x n₁ h₁).trans (ih h)

/-- What a handler sends and learns is, step by step, among the changes of its event. -/
theorem forwardBuffered_evolves (h : n.forwardBuffered now dst = some n') :
    Evolves e v₀ n.view n'.view :=
  @foldlM_evolves (n.rqDrop now dst) n' e v₀ _ _ _
    (fun _ p _ h => forward_evolves h (fun _ _ => .data p.2)) h

theorem requestTtl_le (lastTtl : ℕ) : (requestTtl lastTtl).1 ≤ networkDiameter := by
  unfold requestTtl
  split
  · decide
  · split
    · rename_i hlt
      unfold ttlThreshold at hlt
      show lastTtl + 2 ≤ 30
      omega
    · exact le_rfl

theorem requestTtl_pos (lastTtl : ℕ) : 0 < (requestTtl lastTtl).1 := by
  unfold requestTtl
  split
  · decide
  · split
    · exact Nat.add_pos_right _ (by decide)
    · decide

theorem sendRequest_evolves (h : n.sendRequest now dst = some n') :
    Evolves e v₀ n.view n'.view := by
  obtain ⟨rt, hrt, h⟩ := Option.bind_eq_some_iff.mp h
  split at h
  · obtain ⟨-, -, h⟩ := Option.bind_eq_some_iff.mp h
    cases h
    exact .refl
  split at h
  · cases h
    exact .refl
  split at h
  · cases h
    have hquiet : (n.modify dst (fun rt =>
        { rt with rtReqTimeout := now + maxRreqTimeout, rtReqCnt := 0 })).view = n.view :=
      view_modify_quiet (fun _ => ⟨rfl, rfl⟩)
    show Evolves e v₀ n.view (n.modify dst _).view
    rw [hquiet]
    exact .refl
  · obtain ⟨-, -, h⟩ := Option.bind_eq_some_iff.mp h
    cases h
    have hcount : Evolves e v₀ n.view { n.view with seqno := n.seqno + 2 } :=
      .single (.count (Nat.le_add_right _ _) (fun heven => by
        have heven' : n.seqno % 2 = 0 := heven
        omega))
    refine hcount.trans (send_evolves ?_ (.request rfl rfl rfl rfl rfl ?_ ?_))
    · refine congrArg (fun v : View => { v with seqno := n.seqno + 2 })
        (@view_modify_quiet n dst _ ?_)
      exact fun _ => ⟨rfl, rfl⟩
    · exact Int.natCast_pos.mpr (requestTtl_pos _)
    · exact Int.ofNat_le.mpr (requestTtl_le _)

theorem sendReply_evolves {ipdst hopCount rpdst rpseq : ℕ} {lifetime timestamp : ℚ}
    (h : n.sendReply ipdst hopCount rpdst rpseq lifetime timestamp = some n')
    (hsends : ∀ nextHop, Sends e n.view
      { saddr := n.index, daddr := some ipdst, ttl := networkDiameter, nextHop
        numForwards := 0, up := false
        body := .rrep
          { rpHopCount := hopCount % 256, rpDst := rpdst, rpDstSeqno := rpseq, rpSrc := n.index
            rpLifetime := lifetime, rpTimestamp := timestamp } }) :
    Evolves e v₀ n.view n'.view := by
  obtain ⟨rt, -, h⟩ := Option.bind_eq_some_iff.mp h
  cases h
  exact .single (.send (hsends rt.rtNexthop))

/-- The routes to the destinations of an error are down, with the numbers that it tells. -/
def Downs (v : View) (l : List (ℕ × ℕ)) : Prop :=
  ∀ x ∈ l, ∃ r, v.routes x.1 = some r ∧ r.flags = .down ∧ r.seqno = x.2

theorem sendError_evolves {l : List (ℕ × ℕ)} (hdowns : Downs n.view l) :
    Evolves e v₀ n.view (n.sendError l).view := by
  unfold sendError
  split
  · exact .refl
  · exact .single (.send (.error rfl hdowns))

theorem Downs.set {v : View} {l : List (ℕ × ℕ)} {r : Route} (h : Downs v l)
    (hroute : v.routes dst = some r) (hflags : r.flags ≠ .down) (r' : Route) :
    Downs (v.set dst r') l := by
  intro x hx
  obtain ⟨r₁, h₁, hdown, hseqno⟩ := h x hx
  refine ⟨r₁, ?_, hdown, hseqno⟩
  show update v.routes dst (some r') x.1 = some r₁
  rw [update_of_ne, h₁]
  rintro rfl
  rw [hroute] at h₁
  cases h₁
  exact hflags hdown

theorem Downs.concat {v : View} {l : List (ℕ × ℕ)} {seqno : ℕ} (h : Downs v l)
    (hroute : v.routes dst = some (.lost seqno)) : Downs v (l ++ [(dst, seqno)]) := by
  intro x hx
  rcases mem_append.mp hx with hx | hx
  · exact h x hx
  · rw [mem_singleton.mp hx]
    exact ⟨_, hroute, rfl, rfl⟩

/-! ## Link failures -/

theorem view_down (h : n.rtLookup dst = some rt) (hup : rt.rtFlags = .up) (seqno : RtEntry → ℕ) :
    (n.modify dst (fun rt => { rt with rtSeqno := seqno rt }.rtDown)).view =
      n.view.set dst (.lost (seqno rt)) := by
  rw [view_modify (f := fun rt => RtEntry.rtDown { rt with rtSeqno := seqno rt })
    (fun _ => rtDown_dst _) h, rtDown_route]
  rw [hup]
  exact Flags.noConfusion

/-- One turn of the loop over the routes: the packet only lists routes that are down by then. -/
theorem linkFailed_evolves {l : List (ℕ × ℕ)} {r : Node × List (ℕ × ℕ)}
    (h : linkFailed id (n, l) dst = some r) (hdowns : Downs n.view l) :
    Evolves e v₀ n.view r.1.view ∧ Downs r.1.view r.2 := by
  obtain ⟨rt, hrt, h⟩ := Option.bind_eq_some_iff.mp h
  split at h
  · rename_i hbroken
    obtain ⟨_, hup, h⟩ := Option.bind_eq_some_iff.mp h
    obtain ⟨-, -, h⟩ := Option.bind_eq_some_iff.mp h
    rw [assert_eq_some] at hup
    cases h
    have hroute := view_routes hrt
    have hne : rt.route.flags ≠ .down := by
      rw [show rt.route.flags = .up from hup]
      exact Flags.noConfusion
    simp only [view_modify_quiet (quiet_pcDelete id), view_down hrt hup]
    refine ⟨.single (.route hroute (.invalidate hbroken.1 hup)), ?_⟩
    exact (hdowns.set hroute hne _).concat (update_self ..)
  · cases h
    simp only [view_modify_quiet (quiet_pcDelete id)]
    exact ⟨.refl, hdowns⟩

/-- All routes through the lost neighbour go down before their error is sent. -/
theorem handleLinkFailure_evolves (h : n.handleLinkFailure id = some n') :
    Evolves e v₀ n.view n'.view := by
  have hloop : ∀ (dsts : List ℕ) (acc r : Node × List (ℕ × ℕ)), Downs acc.1.view acc.2 →
      dsts.foldlM (linkFailed id) acc = some r →
      Evolves e v₀ acc.1.view r.1.view ∧ Downs r.1.view r.2 := by
    intro dsts
    induction dsts with
    | nil =>
      intro acc r hdowns h
      cases h
      exact ⟨.refl, hdowns⟩
    | cons dst dsts ih =>
      intro acc r hdowns h
      obtain ⟨acc₁, h₁, h⟩ := Option.bind_eq_some_iff.mp h
      obtain ⟨hfirst, hdowns₁⟩ := linkFailed_evolves h₁ hdowns
      obtain ⟨hrest, hdowns'⟩ := ih acc₁ r hdowns₁ h
      exact ⟨hfirst.trans hrest, hdowns'⟩
  obtain ⟨r, hr, h⟩ := Option.bind_eq_some_iff.mp h
  cases h
  obtain ⟨hevolves, hdowns⟩ := hloop _ _ r (fun x hx => absurd hx not_mem_nil) hr
  exact hevolves.trans (sendError_evolves hdowns)

theorem nbDelete_evolves (h : n.nbDelete id = some n') : Evolves e v₀ n.view n'.view := by
  obtain ⟨-, -, h⟩ := Option.bind_eq_some_iff.mp h
  have hcount : Evolves e v₀ n.view { n.view with seqno := n.seqno + 2 } :=
    .single (.count (Nat.le_add_right _ _) (fun heven => by
      have heven' : n.seqno % 2 = 0 := heven
      omega))
  exact hcount.trans (handleLinkFailure_evolves h)

theorem nbPurge_evolves (h : n.nbPurge now = some n') : Evolves e v₀ n.view n'.view := by
  refine foldlM_evolves ?_ h
  intro n nb n' h
  split at h
  · exact nbDelete_evolves h
  · cases h
    exact .refl

/-- A local repair keeps the number and the hop count of the route. -/
theorem localRtRepair_evolves {p : DataPacket} (h : n.localRtRepair now dst p = some n')
    (hrt : n.rtLookup dst = some rt) : Evolves e v₀ n.view n'.view := by
  obtain ⟨n₁, h₁, h⟩ := Option.bind_eq_some_iff.mp h
  cases h
  have hrepair : Evolves e v₀ n.view
      ((n.enque now p).modify dst (fun rt => { rt with rtFlags := .inRepair })).view := by
    have hrt' : (n.enque now p).rtLookup dst = some rt := hrt
    rw [view_modify (f := fun rt => { rt with rtFlags := .inRepair }) (fun _ => rfl) hrt']
    exact .single (.route (view_routes hrt) .repair)
  have hrequest : Evolves e v₀ _ n₁.view := sendRequest_evolves h₁
  exact hrepair.trans hrequest

theorem rtLlFailed_evolves (h : n.rtLlFailed now p = some n') : Evolves e v₀ n.view n'.view := by
  unfold rtLlFailed at h
  split at h
  · split at h
    · cases h
      exact .refl
    · split at h
      · cases h
        exact .refl
      · rename_i rt hrt
        split at h
        · exact localRtRepair_evolves h hrt
        · exact nbDelete_evolves h
  · cases h
    exact .refl

theorem lrTimer_evolves : Evolves (.lrTimer dst) n.view n.view (n.lrTimer dst).view := by
  unfold lrTimer
  simp only
  split
  · exact .refl
  · rename_i rt hrt
    have hrt' : n.rtLookup dst = some rt := hrt
    cases hflags : rt.rtFlags with
    | up =>
      exact .refl
    | down =>
      have hquiet : rt.rtDown = rt := by
        unfold RtEntry.rtDown
        rw [if_pos hflags]
      rw [if_pos (by simp), view_modify rtDown_dst hrt, hquiet]
      show Evolves _ _ n.view (n.view.set dst rt.route)
      unfold View.set
      rw [← view_routes hrt', update_eq_self]
      exact .refl
    | inRepair =>
      have hne : rt.rtFlags ≠ .down := by
        rw [hflags]
        exact Flags.noConfusion
      rw [if_pos (by simp), view_modify rtDown_dst hrt, rtDown_route hne]
      have hbefore : n.view.route dst = rt.route := by
        unfold View.route
        rw [view_routes hrt']
        rfl
      exact .single (.route (view_routes hrt') (.giveUp rfl hbefore hflags))

/-! ## Routes -/

theorem rtAdd_evolves (h : n.rtAdd id = some n') : Evolves e v₀ n.view n'.view := by
  obtain ⟨_, hnone, h⟩ := Option.bind_eq_some_iff.mp h
  rw [assert_eq_some] at hnone
  cases h
  have hroute : n.view.routes id = none := by
    show (n.rtLookup id).map RtEntry.route = none
    rw [hnone]
    rfl
  have hnew : id ∉ n.view.dsts := by
    intro hmem
    obtain ⟨rt, hrt, hdst⟩ := mem_map.mp hmem
    have hno := find?_eq_none.mp hnone rt hrt
    exact hno (by simpa using hdst)
  have hview : ({ n with rtable := RtEntry.new id :: n.rtable } : Node).view =
      { n.view.set id .new with dsts := id :: n.view.dsts } := by
    show View.mk n.index n.seqno _ _ n.target = View.mk n.index n.seqno _ _ n.target
    congr 1
    funext dst
    show (List.find? _ (RtEntry.new id :: n.rtable)).map RtEntry.route = _
    by_cases hdst : dst = id
    · subst hdst
      rw [find?_cons_of_pos (by simp [RtEntry.new]), View.routes_set_self]
      rfl
    · have hne : id ≠ dst := fun heq => hdst heq.symm
      rw [find?_cons_of_neg (by simp [RtEntry.new, hne]), View.routes_set_of_ne _ hdst]
      rfl
  rw [hview]
  exact .single (.add hroute hnew)

theorem rtFind_evolves (h : n.rtFind id = some n') : Evolves e v₀ n.view n'.view := by
  unfold rtFind at h
  split at h
  · exact rtAdd_evolves h
  · cases h
    exact .refl

theorem rtResolve_evolves {p : DataPacket} (h : n.rtResolve now dst p = some n') :
    Evolves e v₀ n.view n'.view := by
  obtain ⟨n₁, h₁, h⟩ := Option.bind_eq_some_iff.mp h
  refine (rtFind_evolves h₁).trans ?_
  obtain ⟨rt, hrt, h⟩ := Option.bind_eq_some_iff.mp h
  split at h
  · obtain ⟨-, -, h⟩ := Option.bind_eq_some_iff.mp h
    exact forward_evolves h (fun _ _ => .data p.2)
  split at h
  · exact @sendRequest_evolves (n₁.enque now p) n' e v₀ now dst h
  split at h
  · cases h
    exact .refl
  · obtain ⟨_, hdown, h⟩ := Option.bind_eq_some_iff.mp h
    rw [assert_eq_some] at hdown
    cases h
    refine sendError_evolves (fun x hx => ?_)
    rw [mem_singleton.mp hx]
    exact ⟨rt.route, view_routes hrt, hdown, rfl⟩

theorem purgeRoute_evolves (h : n.purgeRoute now dst = some n') :
    Evolves e v₀ n.view n'.view := by
  obtain ⟨rt, hrt, h⟩ := Option.bind_eq_some_iff.mp h
  split at h
  · rename_i hexpired
    obtain ⟨_, hfinite, h⟩ := Option.bind_eq_some_iff.mp h
    obtain ⟨-, -, h⟩ := Option.bind_eq_some_iff.mp h
    rw [assert_eq_some] at hfinite
    cases h
    have hrt' : (n.rqDrop now dst).rtLookup dst = some rt := hrt
    rw [view_down hrt' hexpired.1 (fun rt => rt.rtSeqno + 1)]
    exact .single (.route (view_routes hrt) (.invalidate hfinite hexpired.1))
  split at h
  · obtain ⟨-, -, h⟩ := Option.bind_eq_some_iff.mp h
    exact forwardBuffered_evolves h
  split at h
  · exact sendRequest_evolves h
  · cases h
    exact .refl

theorem rtPurge_evolves (h : n.rtPurge now = some n') : Evolves e v₀ n.view n'.view :=
  foldlM_evolves (fun _ _ _ h => purgeRoute_evolves h) h

/-! ## Packet reception -/

theorem forward_keeps {d : Option ℕ} (h : n.forward now d p = some n') :
    n'.view.routes = n.view.routes ∧ n'.index = n.index := by
  unfold forward at h
  split at h
  · cases h
    exact ⟨rfl, rfl⟩
  split at h
  · cases h
    exact ⟨rfl, rfl⟩
  cases d with
  | none =>
    cases h
    exact ⟨rfl, rfl⟩
  | some dst =>
    obtain ⟨rt, -, h⟩ := Option.bind_eq_some_iff.mp h
    obtain ⟨-, -, h⟩ := Option.bind_eq_some_iff.mp h
    cases h
    refine ⟨?_, rfl⟩
    have hquiet : (n.modify dst
        (fun rt => { rt with rtExpire := now + activeRouteTimeout })).view = n.view :=
      view_modify_quiet (fun _ => ⟨rfl, rfl⟩)
    have hroutes := congrArg View.routes hquiet
    exact hroutes

theorem forwardBuffered_keeps (h : n.forwardBuffered now dst = some n') :
    n'.view.routes = n.view.routes ∧ n'.index = n.index := by
  have hloop : ∀ (ps : List DataPacket) (m m' : Node),
      ps.foldlM (fun n p => n.forward now (some dst) p.1) m = some m' →
      m'.view.routes = m.view.routes ∧ m'.index = m.index := by
    intro ps
    induction ps with
    | nil =>
      intro m m' h
      cases h
      exact ⟨rfl, rfl⟩
    | cons p ps ih =>
      intro m m' h
      obtain ⟨m₁, h₁, h⟩ := Option.bind_eq_some_iff.mp h
      obtain ⟨hroutes₁, hindex₁⟩ := forward_keeps h₁
      obtain ⟨hroutes, hindex⟩ := ih m₁ m' h
      exact ⟨hroutes.trans hroutes₁, hindex.trans hindex₁⟩
  exact hloop _ (n.rqDrop now dst) n' h

theorem rtFind_keeps (h : n.rtFind id = some n') :
    (∀ dst, n'.view.route dst = n.view.route dst) ∧ n'.index = n.index := by
  unfold rtFind at h
  split at h
  · rename_i hnone
    obtain ⟨-, -, h⟩ := Option.bind_eq_some_iff.mp h
    cases h
    refine ⟨fun dst => ?_, rfl⟩
    show ((List.find? _ (RtEntry.new id :: n.rtable)).map RtEntry.route).getD .new =
      ((n.rtLookup dst).map RtEntry.route).getD .new
    by_cases hdst : dst = id
    · subst hdst
      rw [find?_cons_of_pos (by simp [RtEntry.new]), hnone]
      rfl
    · have hne : id ≠ dst := fun heq => hdst heq.symm
      rw [find?_cons_of_neg (by simp [RtEntry.new, hne])]
      rfl
  · cases h
    exact ⟨fun _ => rfl, rfl⟩

theorem view_route (h : n.rtLookup dst = some rt) : n.view.route dst = rt.route := by
  unfold View.route
  rw [view_routes h]
  rfl

theorem learnRequest_keeps (saddr : ℕ) (rq : Rreq) (rt : RtEntry) :
    (rt.learnRequest now saddr rq).rtDst = rt.rtDst ∧
      (rt.learnRequest now saddr rq).route = ⟨rq.rqSrcSeqno, rq.rqHopCount, .up, saddr⟩ := by
  unfold RtEntry.learnRequest
  simp only
  split <;> exact ⟨rfl, rfl⟩

theorem learnReply_keeps (mine : Bool) (rp : Rrep) (rt : RtEntry) :
    (rt.learnReply now mine rp).rtDst = rt.rtDst ∧
      (rt.learnReply now mine rp).route = ⟨rp.rpDstSeqno, rp.rpHopCount, .up, rp.rpSrc⟩ := by
  unfold RtEntry.learnReply
  split <;> exact ⟨rfl, rfl⟩

theorem view_learnRequest {rq : Rreq} (saddr : ℕ) (hrt : n.rtLookup rq.rqSrc = some rt) :
    (n.modify rq.rqSrc (·.learnRequest now saddr rq)).view =
      n.view.set rq.rqSrc ⟨rq.rqSrcSeqno, rq.rqHopCount, .up, saddr⟩ := by
  rw [view_modify (fun rt => (learnRequest_keeps saddr rq rt).1) hrt,
    (learnRequest_keeps saddr rq rt).2]

theorem view_learnReply {rp : Rrep} (mine : Bool) (hrt : n.rtLookup rp.rpDst = some rt) :
    (n.modify rp.rpDst (·.learnReply now mine rp)).view =
      n.view.set rp.rpDst ⟨rp.rpDstSeqno, rp.rpHopCount, .up, rp.rpSrc⟩ := by
  rw [view_modify (fun rt => (learnReply_keeps mine rp rt).1) hrt, (learnReply_keeps mine rp rt).2]

/-- The route back to the source is replaced as a whole. -/
theorem reverseRoute_keeps {rq : Rreq} (h : n.reverseRoute now p rq = some n')
    (hrt : n.rtLookup rq.rqSrc = some rt) :
    n'.view.routes = (n.view.set rq.rqSrc ⟨rq.rqSrcSeqno, rq.rqHopCount, .up, p.saddr⟩).routes := by
  obtain ⟨rt₁, -, h⟩ := Option.bind_eq_some_iff.mp h
  obtain ⟨-, -, h⟩ := Option.bind_eq_some_iff.mp h
  obtain ⟨-, -, h⟩ := Option.bind_eq_some_iff.mp h
  rw [(forwardBuffered_keeps h).1, view_learnRequest p.saddr hrt]

theorem reverseRoute_evolves {rq : Rreq} (h : n.reverseRoute now p rq = some n')
    (hrt : n.rtLookup rq.rqSrc = some rt)
    (hlearn : RouteChange e n.index rq.rqSrc (v₀.route rq.rqSrc) rt.route
      ⟨rq.rqSrcSeqno, rq.rqHopCount, .up, p.saddr⟩) : Evolves e v₀ n.view n'.view := by
  obtain ⟨rt₁, -, h⟩ := Option.bind_eq_some_iff.mp h
  obtain ⟨-, -, h⟩ := Option.bind_eq_some_iff.mp h
  obtain ⟨-, -, h⟩ := Option.bind_eq_some_iff.mp h
  have hrest := @forwardBuffered_evolves _ _ e v₀ _ _ h
  rw [view_learnRequest p.saddr hrt] at hrest
  exact .trans (.single (.route (view_routes hrt) hlearn)) hrest

theorem acceptReply_keeps {rp : Rrep} (h : n.acceptReply now p rp = some n')
    (hrt : n.rtLookup rp.rpDst = some rt) :
    n'.view.routes =
        (n.view.set rp.rpDst ⟨rp.rpDstSeqno, rp.rpHopCount, .up, rp.rpSrc⟩).routes ∧
      n'.index = n.index := by
  obtain ⟨rt₁, -, h⟩ := Option.bind_eq_some_iff.mp h
  split at h
  · obtain ⟨-, -, h⟩ := Option.bind_eq_some_iff.mp h
    obtain ⟨hroutes, hindex⟩ := forwardBuffered_keeps h
    exact ⟨by rw [hroutes, view_learnReply _ hrt], hindex⟩
  · cases h
    exact ⟨congrArg View.routes (view_learnReply _ hrt), rfl⟩

theorem acceptReply_evolves {rp : Rrep} (h : n.acceptReply now p rp = some n')
    (hrt : n.rtLookup rp.rpDst = some rt)
    (hlearn : RouteChange e n.index rp.rpDst (v₀.route rp.rpDst) rt.route
      ⟨rp.rpDstSeqno, rp.rpHopCount, .up, rp.rpSrc⟩) : Evolves e v₀ n.view n'.view := by
  have hview := @view_learnReply _ now _ _ (p.daddr = some n.index) hrt
  have hfirst : Evolves e v₀ n.view
      (n.view.set rp.rpDst ⟨rp.rpDstSeqno, rp.rpHopCount, .up, rp.rpSrc⟩) :=
    .single (.route (view_routes hrt) hlearn)
  rw [← hview] at hfirst
  obtain ⟨rt₁, -, h⟩ := Option.bind_eq_some_iff.mp h
  split at h
  · obtain ⟨-, -, h⟩ := Option.bind_eq_some_iff.mp h
    exact hfirst.trans (forwardBuffered_evolves h)
  · cases h
    exact hfirst

theorem forwardRequest_evolves {rq : Rreq} {r : Route} {dstSeqno : ℕ}
    (h : n.forwardRequest now { p with ttl := p.ttl - 1 } rq dstSeqno = some n')
    (he : e = .recv p) (hbody : p.body = .rreq rq) (hroute : n.view.routes rq.rqSrc = some r)
    (hknown : ¬ r.Fresher rq.rqSrcSeqno rq.rqHopCount) : Evolves e v₀ n.view n'.view :=
  forward_evolves h (fun httl _ =>
    .forwardRequest he hbody rfl rfl rfl rfl rfl httl rfl hroute hknown)

theorem answerRequest_evolves {rq : Rreq} {r : Route}
    (h : n.answerRequest now { p with ttl := p.ttl - 1 } rq = some n')
    (he : e = .recv p) (hbody : p.body = .rreq rq) (hroute : n.view.routes rq.rqSrc = some r)
    (hknown : ¬ r.Fresher rq.rqSrcSeqno rq.rqHopCount) : Evolves e v₀ n.view n'.view := by
  unfold answerRequest at h
  split at h
  · -- the destination raises its number before it replies
    have hcount : Evolves e v₀ n.view { n.view with
        seqno := if (max n.seqno rq.rqDstSeqno + 1) % 2 = 1 then max n.seqno rq.rqDstSeqno + 1 + 1
          else max n.seqno rq.rqDstSeqno + 1 } := by
      refine .single (.count ?_ ?_)
      · show n.seqno ≤ _
        split <;> omega
      · intro _
        split <;> omega
    exact hcount.trans (sendReply_evolves h (fun _ => .ownReply rfl rfl rfl rfl rfl))
  split at h
  · exact forwardRequest_evolves h he hbody hroute hknown
  · rename_i rt hrt
    split at h
    · rename_i hfinite
      obtain ⟨-, -, h⟩ := Option.bind_eq_some_iff.mp h
      obtain ⟨n₁, h₁, h⟩ := Option.bind_eq_some_iff.mp h
      obtain ⟨rt0, -, h⟩ := Option.bind_eq_some_iff.mp h
      cases h
      simp only [view_modify_quiet (quiet_pcInsert _)]
      exact sendReply_evolves h₁ (fun _ =>
        .routeReply rfl rfl (view_routes hrt) hfinite.1 rfl rfl)
    · exact forwardRequest_evolves h he hbody hroute hknown

/-- A request is learnt from before it is answered or passed on. -/
theorem recvRequest_evolves {rq : Rreq}
    (h : n.recvRequest now { p with ttl := p.ttl - 1 } rq = some n')
    (hbody : p.body = .rreq rq) : Evolves (.recv p) n.view n.view n'.view := by
  unfold recvRequest at h
  split at h
  · cases h
    exact .refl
  rename_i hother
  split at h
  · cases h
    exact .refl
  obtain ⟨n₁, h₁, h⟩ := Option.bind_eq_some_iff.mp h
  obtain ⟨hkeeps, hindex⟩ := rtFind_keeps h₁
  have hfind : Evolves (.recv p) n.view n.view n₁.view :=
    @rtFind_evolves (n.idInsert now rq.rqSrc rq.rqBcastId) n₁ _ _ _ h₁
  have hquiet : (n₁.modify rq.rqSrc (fun rt0 =>
      { rt0 with rtExpire := max rt0.rtExpire (now + revRouteLife) })).view = n₁.view :=
    view_modify_quiet (fun _ => ⟨rfl, rfl⟩)
  rw [← hquiet] at hfind
  refine hfind.trans ?_
  obtain ⟨rt0, hrt, h⟩ := Option.bind_eq_some_iff.mp h
  have hbefore : n.view.route rq.rqSrc = rt0.route := by
    have hsame := hkeeps rq.rqSrc
    rw [← hquiet, view_route hrt] at hsame
    exact hsame.symm
  split at h
  · rename_i hfresher
    obtain ⟨n₂, h₂, h⟩ := Option.bind_eq_some_iff.mp h
    have hlearn : RouteChange (.recv p) n₁.index rq.rqSrc (n.view.route rq.rqSrc) rt0.route
        ⟨rq.rqSrcSeqno, rq.rqHopCount, .up, p.saddr⟩ :=
      .learn rfl (.rreq hbody rfl rfl rfl rfl) (fun _ _ => by rw [hindex]; exact hother)
        (by rw [hbefore]; exact hfresher) hfresher
    have hroute : n₂.view.routes rq.rqSrc =
        some ⟨rq.rqSrcSeqno, rq.rqHopCount, .up, p.saddr⟩ := by
      rw [reverseRoute_keeps h₂ hrt]
      exact View.routes_set_self ..
    refine (reverseRoute_evolves h₂ hrt hlearn).trans
      (answerRequest_evolves h rfl hbody hroute ?_)
    unfold Route.Fresher
    simp
  · rename_i hknown
    exact answerRequest_evolves h rfl hbody (view_routes hrt) hknown

theorem forwardReply_evolves {rp : Rrep} {r : Route}
    (h : n.forwardReply now { p with ttl := p.ttl - 1 } rp = some n')
    (he : e = .recv p) (hbody : p.body = .rrep rp) (hroute : n.view.routes rp.rpDst = some r)
    (hup : r.flags = .up) (hseqno : r.seqno = rp.rpDstSeqno) (hhops : r.hops = rp.rpHopCount) :
    Evolves e v₀ n.view n'.view := by
  unfold forwardReply at h
  split at h
  · cases h
    exact .refl
  split at h
  · cases h
    exact .refl
  split at h
  · obtain ⟨-, -, h⟩ := Option.bind_eq_some_iff.mp h
    obtain ⟨n₁, h₁, h⟩ := Option.bind_eq_some_iff.mp h
    cases h
    rw [view_modify_quiet (quiet_pcInsert _)]
    exact forward_evolves h₁ (fun _ _ =>
      .forwardReply he hbody rfl rfl rfl hroute hup hseqno hhops rfl rfl)
  · cases h
    exact .refl

/-- A reply is learnt from before it is passed on, so it goes on with the node's own hop count. -/
theorem recvReply_evolves {rp : Rrep}
    (h : n.recvReply now { p with ttl := p.ttl - 1 } rp = some n')
    (hbody : p.body = .rrep rp) : Evolves (.recv p) n.view n.view n'.view := by
  obtain ⟨n₁, h₁, h⟩ := Option.bind_eq_some_iff.mp h
  obtain ⟨hkeeps, -⟩ := rtFind_keeps h₁
  refine (rtFind_evolves h₁).trans ?_
  obtain ⟨rt, hrt, h⟩ := Option.bind_eq_some_iff.mp h
  split at h
  · rename_i hfresher
    have hbefore : n.view.route rp.rpDst = rt.route :=
      (hkeeps rp.rpDst).symm.trans (view_route hrt)
    have hlearn : RouteChange (.recv p) n₁.index rp.rpDst (n.view.route rp.rpDst) rt.route
        ⟨rp.rpDstSeqno, rp.rpHopCount, .up, rp.rpSrc⟩ :=
      .learn rfl (.rrep hbody rfl rfl rfl rfl)
        (fun rq hrq => by rw [hbody] at hrq; exact (Body.noConfusion hrq))
        (by rw [hbefore]; exact hfresher) hfresher
    obtain ⟨n₂, h₂, h⟩ := Option.bind_eq_some_iff.mp h
    refine (acceptReply_evolves h₂ hrt hlearn).trans ?_
    split at h
    · cases h
      exact .refl
    · have hroute : n₂.view.routes rp.rpDst =
          some ⟨rp.rpDstSeqno, rp.rpHopCount, .up, rp.rpSrc⟩ := by
        rw [(acceptReply_keeps h₂ hrt).1]
        exact View.routes_set_self ..
      exact forwardReply_evolves h rfl hbody hroute rfl rfl rfl
  · cases h
    exact .refl

/-- One turn of the loop over the listed destinations. -/
theorem routeError_evolves {l l₀ : List (ℕ × ℕ)} {u : ℕ × ℕ} {r : Node × List (ℕ × ℕ)} {saddr : ℕ}
    (h : routeError saddr (n, l) u = some r) (he : e = .recv p) (hbody : p.body = .rerr l₀)
    (hu : u ∈ l₀) (hdowns : Downs n.view l) :
    Evolves e v₀ n.view r.1.view ∧ Downs r.1.view r.2 := by
  unfold routeError at h
  dsimp only at h
  split at h
  · cases h
    exact ⟨.refl, hdowns⟩
  rename_i rt hrt
  split at h
  · rename_i hbroken
    obtain ⟨_, hup, h⟩ := Option.bind_eq_some_iff.mp h
    obtain ⟨_, heven, h⟩ := Option.bind_eq_some_iff.mp h
    rw [assert_eq_some] at hup heven
    have hroute := view_routes hrt
    have hne : rt.route.flags ≠ .down := by
      rw [show rt.route.flags = .up from hup]
      exact Flags.noConfusion
    have hview := view_down hrt hup (fun _ => u.2)
    have hevolves : Evolves e v₀ n.view (n.view.set u.1 (.lost u.2)) :=
      .single (.route hroute (.error he hbody hu hbroken.1 hup heven hbroken.2.2))
    have hdowns' := hdowns.set hroute hne (.lost u.2)
    split at h
    · cases h
      simp only [hview]
      exact ⟨hevolves, hdowns'⟩
    · cases h
      simp only [@view_modify_quiet (Node.modify n u.1 _) u.1 (fun rt : RtEntry => { rt with rtPclist := [] }) (fun _ => ⟨rfl, rfl⟩), hview]
      exact ⟨hevolves, hdowns'.concat (update_self ..)⟩
  · cases h
    exact ⟨.refl, hdowns⟩

theorem recvError_evolves {l : List (ℕ × ℕ)}
    (h : n.recvError { p with ttl := p.ttl - 1 } l = some n') (hbody : p.body = .rerr l) :
    Evolves (.recv p) n.view n.view n'.view := by
  have hloop : ∀ (us : List (ℕ × ℕ)) (acc r : Node × List (ℕ × ℕ)), (∀ u ∈ us, u ∈ l) →
      Downs acc.1.view acc.2 → us.foldlM (routeError p.saddr) acc = some r →
      Evolves (.recv p) n.view acc.1.view r.1.view ∧ Downs r.1.view r.2 := by
    intro us
    induction us with
    | nil =>
      intro acc r _ hdowns h
      cases h
      exact ⟨.refl, hdowns⟩
    | cons u us ih =>
      intro acc r hmem hdowns h
      obtain ⟨acc₁, h₁, h⟩ := Option.bind_eq_some_iff.mp h
      obtain ⟨hfirst, hdowns₁⟩ :=
        routeError_evolves h₁ rfl hbody (hmem u mem_cons_self) hdowns
      obtain ⟨hrest, hdowns'⟩ :=
        ih acc₁ r (fun u hu => hmem u (mem_cons_of_mem _ hu)) hdowns₁ h
      exact ⟨hfirst.trans hrest, hdowns'⟩
  obtain ⟨r, hr, h⟩ := Option.bind_eq_some_iff.mp h
  cases h
  obtain ⟨hevolves, hdowns⟩ :=
    hloop l _ r (fun _ hu => hu) (fun x hx => absurd hx not_mem_nil) hr
  exact hevolves.trans (sendError_evolves hdowns)

theorem recvHello_evolves (h : n.recvHello now id = some n') : Evolves e v₀ n.view n'.view := by
  unfold recvHello at h
  split at h
  · cases h
    exact .refl
  · obtain ⟨-, -, h⟩ := Option.bind_eq_some_iff.mp h
    cases h
    exact .single (.count (Nat.le_add_right _ _) (fun heven => by
      have heven' : n.seqno % 2 = 0 := heven
      show (n.seqno + 2) % 2 = 0
      omega))

theorem recvData_evolves {p : DataPacket} (h : n.recvData now p = some n') :
    Evolves e v₀ n.view n'.view := by
  unfold recvData at h
  split at h
  · split at h
    · exact rtResolve_evolves h
    · exact forward_evolves h (fun _ _ => .data p.2)
  split at h
  · cases h
    exact .refl
  split at h
  · cases h
    exact .refl
  · split at h
    · exact rtResolve_evolves h
    · exact forward_evolves h (fun _ _ => .data p.2)

/-- **A received packet** only causes the changes of its event. -/
theorem recv_evolves (h : n.recv now p = some n') : Evolves (.recv p) n.view n.view n'.view := by
  unfold recv at h
  split at h
  · exact recvData_evolves h
  · rename_i hbody
    exact recvRequest_evolves h hbody
  · rename_i hbody
    exact recvReply_evolves h hbody
  · rename_i hbody
    exact recvError_evolves h hbody
  · exact recvHello_evolves h

/-- **Every event of a node** is a sequence of the changes that the network model allows it. -/
theorem step_evolves (h : n.step now e = some n') : Evolves e n.view n.view n'.view := by
  cases e with
  | recv p => exact recv_evolves h
  | llFailed p => exact rtLlFailed_evolves h
  | lrTimer dst =>
    cases h
    exact lrTimer_evolves
  | nbPurge => exact nbPurge_evolves h
  | rtPurge => exact rtPurge_evolves h
  | idPurge =>
    cases h
    exact .refl
  | hello =>
    cases h
    exact .single (.send (.hello rfl))

end Node

/-! ## The entries -/

theorem Evolves.nodup {e : Event} {v₀ v v' : View} (h : Evolves e v₀ v v') (hv : v.dsts.Nodup) :
    v'.dsts.Nodup := by
  induction h with
  | refl => exact hv
  | tail _ hchange ih =>
    cases hchange with
    | count hle heven => exact ih
    | add hnone hnew => exact nodup_cons.mpr ⟨hnew, ih⟩
    | route hroute hchange => exact ih
    | send hsends => exact ih

/-- By induction on the run: tables have one entry a destination. -/
theorem Reachable.nodup {ok : (ℕ → Node) → ℕ → ℚ → Event → Prop} {s : ℕ → Node}
    (h : Reachable ok s) (a : ℕ) : ((s a).rtable.map RtEntry.rtDst).Nodup := by
  induction h with
  | init => exact nodup_nil
  | @step s b now e n' _ _ _ hstep ih =>
    by_cases ha : a = b
    · subst ha
      rw [update_self]
      exact (Node.step_evolves hstep).nodup ih
    · rw [update_of_ne ha]
      exact ih

theorem Reachable.lookup {ok : (ℕ → Node) → ℕ → ℚ → Event → Prop} {s : ℕ → Node}
    (h : Reachable ok s) {a : ℕ} {rt : RtEntry} (hrt : rt ∈ (s a).rtable) :
    (s a).rtLookup rt.rtDst = some rt := by
  have hfind : ∀ l : List RtEntry, (l.map RtEntry.rtDst).Nodup → rt ∈ l →
      l.find? (fun rt' => rt'.rtDst = rt.rtDst) = some rt := by
    intro l
    induction l with
    | nil => exact fun _ hmem => absurd hmem not_mem_nil
    | cons x l ih =>
      intro hnodup hmem
      obtain ⟨hx, hl⟩ := nodup_cons.mp hnodup
      rcases mem_cons.mp hmem with rfl | hmem
      · exact find?_cons_of_pos (by simp)
      · have hne : x.rtDst ≠ rt.rtDst := fun heq => hx (heq ▸ mem_map_of_mem hmem)
        rw [find?_cons_of_neg (by simpa using hne)]
        exact ih hl hmem
  exact hfind _ (h.nodup a) hrt

end NetSim.Aodv
