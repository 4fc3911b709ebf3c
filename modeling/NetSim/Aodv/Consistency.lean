import NetSim.Aodv.Routes

/-! # Consistency of route entries

The state, the hop count and the sequence number of an entry are written by a dozen handlers and checked
by assertions in others. `handle_link_failure`, `recvError` and `recvReply` take an entry with a hop
count for one that is up, which an entry under repair is not. In runs in which they do not meet one, and
in which no reply with the hop count that stands for infinity is accepted, the entries are consistent
and no assertion fails (`consistent_entries`).
-/

namespace NetSim.Aodv

open List

variable {v v' v'' v₀ : View} {p : Packet} {e : Event} {r r' r₀ : Route} {dst id : ℕ}

/-! ## The invariant -/

structure Route.Consistent (r : Route) : Prop where
  up : r.flags = .up → r.hops ≠ infinity2
  down : r.flags = .down → r.hops = infinity2
  even : r.hops ≠ infinity2 → r.seqno % 2 = 0

/-- The numbers that a packet promises are even, and a request does not run out of hop counts. -/
structure Packet.Even (p : Packet) : Prop where
  advert : ∀ {dst seqno hops via : ℕ}, Advertises dst seqno hops via p → seqno % 2 = 0
  ttl : ∀ rq, p.body = .rreq rq → 0 < p.ttl ∧ p.ttl + rq.rqHopCount ≤ 31

structure View.Consistent (v : View) : Prop where
  seqno : v.seqno % 2 = 0
  routes : ∀ dst r, v.routes dst = some r → r.Consistent
  packets : ∀ p ∈ v.target, p.Even

/-- The reply does not count `infinity2` hops when it is accepted. -/
def View.Finite (v : View) (e : Event) : Prop :=
  ∀ p rp, e = .recv p → p.body = .rrep rp →
    (v.route rp.rpDst).Fresher rp.rpDstSeqno rp.rpHopCount → rp.rpHopCount ≠ infinity2

theorem Route.Consistent.lost (s : ℕ) : (Route.lost s).Consistent where
  up hup := Flags.noConfusion hup
  down _ := rfl
  even hfinite := absurd rfl hfinite

/-- One change of a route, case by case. -/
theorem RouteChange.consistent (h : RouteChange e v.index dst (v₀.route dst) r r')
    (hr : r.Consistent) (hpacket : ∀ p, e = .recv p → p.Even) (hfinite : v₀.Finite e) :
    r'.Consistent := by
  cases h with
  | learn hrecv hadvertises hself hbefore hfresher =>
    have heven := (hpacket _ hrecv).advert hadvertises
    refine ⟨fun _ => ?_, fun hdown => Flags.noConfusion hdown, fun _ => heven⟩
    cases hadvertises with
    | @rreq rq hbody hdst hseqno hhops hvia =>
      obtain ⟨hpos, httl⟩ := (hpacket _ hrecv).ttl _ hbody
      subst hhops
      show rq.rqHopCount ≠ 255
      omega
    | rrep hbody hdst hseqno hhops hvia =>
      subst hdst hseqno hhops
      exact hfinite _ _ hrecv hbody hbefore
  | invalidate hhops hup => exact .lost _
  | error hrecv hbody hmem hhops hup heven hle => exact .lost _
  | repair => exact ⟨fun hup => Flags.noConfusion hup, fun hdown => Flags.noConfusion hdown, hr.even⟩
  | giveUp htimer hbefore hup => exact .lost _

theorem even_rreq {rq : Rreq} (hbody : p.body = .rreq rq) (heven : rq.rqSrcSeqno % 2 = 0)
    (httl : 0 < p.ttl ∧ p.ttl + rq.rqHopCount ≤ 31) : p.Even := by
  refine ⟨fun h => ?_, fun rq' hbody' => ?_⟩
  · obtain ⟨-, rfl, -, -⟩ := advertises_rreq hbody h
    exact heven
  · rw [hbody] at hbody'
    cases hbody'
    exact httl

theorem even_rrep {rp : Rrep} (hbody : p.body = .rrep rp) (heven : rp.rpDstSeqno % 2 = 0) :
    p.Even := by
  refine ⟨fun h => ?_, fun rq hbody' => ?_⟩
  · obtain ⟨-, rfl, -, -⟩ := advertises_rrep hbody h
    exact heven
  · rw [hbody] at hbody'
    cases hbody'

theorem even_other (hrreq : ∀ rq, p.body ≠ .rreq rq) (hrrep : ∀ rp, p.body ≠ .rrep rp) : p.Even := by
  refine ⟨fun h => ?_, fun rq hbody => absurd hbody (hrreq rq)⟩
  cases h with
  | rreq hbody => exact absurd hbody (hrreq _)
  | rrep hbody => exact absurd hbody (hrrep _)

/-- What a consistent node sends promises even numbers. -/
theorem Sends.even (h : Sends e v p) (hv : v.Consistent) (hpacket : ∀ p, e = .recv p → p.Even) :
    p.Even := by
  cases h with
  | data hbody => exact even_other (by simp [hbody]) (by simp [hbody])
  | hello hbody => exact even_other (by simp [hbody]) (by simp [hbody])
  | request hbody hsaddr hsrc hseqno hhops hpos httl =>
    have httl' : p.ttl ≤ 30 := httl
    exact even_rreq hbody (by rw [hseqno]; exact hv.seqno) ⟨hpos, by omega⟩
  | @forwardRequest p₀ rq₀ rq r hrecv hbody₀ hbody hsaddr hsrc hseqno hhops hpos httl hroute hknown =>
    obtain ⟨hpos₀, httl₀⟩ := (hpacket p₀ hrecv).ttl rq₀ hbody₀
    have heven := (hpacket p₀ hrecv).advert (.rreq hbody₀ rfl rfl rfl rfl)
    exact even_rreq hbody (by rw [hseqno]; exact heven)
      ⟨by omega, by omega⟩
  | ownReply hbody hsrc hdst hseqno hhops =>
    exact even_rrep hbody (by rw [hseqno]; exact hv.seqno)
  | routeReply hbody hsrc hroute hfinite hseqno hhops =>
    exact even_rrep hbody (by rw [hseqno]; exact (hv.routes _ _ hroute).even hfinite)
  | @forwardReply p₀ rp₀ rp r hrecv hbody₀ hbody hsrc hdst hroute hup hseqno₀ hhops₀ hseqno hhops =>
    have heven := (hpacket p₀ hrecv).advert (.rrep hbody₀ rfl rfl rfl rfl)
    exact even_rrep hbody (by rw [hseqno]; exact heven)
  | error hbody hdown => exact even_other (by simp [hbody]) (by simp [hbody])

theorem View.Consistent.set (hv : v.Consistent) (hr : r.Consistent) : (v.set dst r).Consistent := by
  refine ⟨hv.seqno, fun d r' hr' => ?_, hv.packets⟩
  by_cases hd : d = dst
  · subst hd
    rw [← Option.some.inj ((v.routes_set_self d r).symm.trans hr')]
    exact hr
  · exact hv.routes d r' ((v.routes_set_of_ne hd r).symm.trans hr')

/-- One change keeps a node consistent, if the packet behind it is even. -/
theorem Change.consistent (h : Change e v₀ v v') (hv : v.Consistent)
    (hpacket : ∀ p, e = .recv p → p.Even) (hfinite : v₀.Finite e) : v'.Consistent := by
  cases h with
  | count hle heven => exact ⟨heven hv.seqno, hv.routes, hv.packets⟩
  | @add dst hnone hnew =>
    have hset : (v.set dst .new).Consistent := hv.set (.lost 0)
    exact ⟨hset.seqno, hset.routes, hset.packets⟩
  | route hroute hchange => exact hv.set (hchange.consistent (hv.routes _ _ hroute) hpacket hfinite)
  | send hsends =>
    refine ⟨hv.seqno, hv.routes, fun q hq => ?_⟩
    rcases mem_append.mp hq with hq | hq
    · exact hv.packets q hq
    · rw [mem_singleton.mp hq]
      exact hsends.even hv hpacket

/-- All changes of an event together keep a node consistent. -/
theorem Evolves.consistent (h : Evolves e v₀ v v') (hv : v.Consistent)
    (hpacket : ∀ p, e = .recv p → p.Even) (hfinite : v₀.Finite e) : v'.Consistent := by
  induction h with
  | refl => exact hv
  | tail _ hchange ih => exact hchange.consistent ih hpacket hfinite

theorem Evolves.keeps (h : Evolves e v₀ v v') (hroute : v.routes dst ≠ none) :
    v'.routes dst ≠ none := by
  have hset : ∀ (w : View) (d : ℕ) (r : Route), w.routes dst ≠ none → (w.set d r).routes dst ≠ none := by
    intro w d r hw
    by_cases hd : dst = d
    · rw [hd, w.routes_set_self]
      exact Option.some_ne_none r
    · rwa [w.routes_set_of_ne hd]
  induction h with
  | refl => exact hroute
  | tail _ hchange ih =>
    cases hchange with
    | count hle heven => exact ih
    | add hnone hnew => exact hset _ _ _ ih
    | route hroute hchange => exact hset _ _ _ ih
    | send hsends => exact ih

/-! ## Handlers whose assertions hold -/

/-- No route through `id` is under repair while it has a hop count. -/
def View.Steady (v : View) (id : ℕ) : Prop :=
  ∀ dst r, v.routes dst = some r → r.flags = .inRepair → r.hops ≠ infinity2 → r.nexthop ≠ id

def Drops (v v' : View) : Prop :=
  ∀ dst, v'.routes dst = v.routes dst ∨ v.routes dst ≠ none ∧ ∃ s, v'.routes dst = some (.lost s)

theorem Drops.trans (h : Drops v v') (h' : Drops v' v'') : Drops v v'' := by
  intro dst
  rcases h' dst with heq' | ⟨hne', hlost'⟩
  · rw [heq']
    exact h dst
  · rcases h dst with heq | ⟨hne, -⟩
    · exact Or.inr ⟨by rwa [heq] at hne', hlost'⟩
    · exact Or.inr ⟨hne, hlost'⟩

theorem Drops.set (hroute : v.routes dst = some r) (s : ℕ) : Drops v (v.set dst (.lost s)) := by
  intro d
  by_cases hd : d = dst
  · subst hd
    exact Or.inr ⟨by rw [hroute]; exact Option.some_ne_none r, s, v.routes_set_self d _⟩
  · exact Or.inl (v.routes_set_of_ne hd _)

theorem Drops.keeps (h : Drops v v') (hroute : v.routes dst ≠ none) : v'.routes dst ≠ none := by
  rcases h dst with heq | ⟨-, s, hlost⟩
  · rwa [heq]
  · rw [hlost]
    exact Option.some_ne_none _

theorem Drops.steady (h : Drops v v') (hsteady : v.Steady id) : v'.Steady id := by
  intro dst r hr hflags
  rcases h dst with heq | ⟨-, s, hlost⟩
  · rw [heq] at hr
    exact hsteady dst r hr hflags
  · rw [hlost] at hr
    cases hr
    exact Flags.noConfusion hflags

namespace Node

variable {n n' : Node} {now : ℚ} {rt : RtEntry}

theorem assert_bind {q : Prop} {_ : Decidable q} {α : Type} {k : Unit → Option α} (h : q) :
    (assert q).bind k = k () := by
  unfold assert
  rw [if_pos h]
  rfl

theorem foldlM_invariant {α β : Type} {g : β → α → Option β} {P : β → Prop} {l : List α} {b : β}
    (hg : ∀ b, ∀ x ∈ l, P b → ∃ b', g b x = some b' ∧ P b') (hb : P b) :
    ∃ b', l.foldlM g b = some b' ∧ P b' := by
  induction l generalizing b with
  | nil => exact ⟨b, rfl, hb⟩
  | cons x l ih =>
    obtain ⟨b₁, h₁, hb₁⟩ := hg b x mem_cons_self hb
    obtain ⟨b', h', hb'⟩ := ih (fun b y hy => hg b y (mem_cons_of_mem _ hy)) hb₁
    refine ⟨b', ?_, hb'⟩
    rw [foldlM_cons, h₁]
    exact h'

theorem exists_entry (h : n.view.routes dst ≠ none) : ∃ rt, n.rtLookup dst = some rt := by
  obtain ⟨r, hr⟩ := Option.ne_none_iff_exists'.mp h
  obtain ⟨rt, hrt, -⟩ := Option.map_eq_some_iff.mp hr
  exact ⟨rt, hrt⟩

theorem entry_consistent (h : n.view.Consistent) (hrt : n.rtLookup dst = some rt) :
    rt.route.Consistent :=
  h.routes dst _ (view_routes hrt)

theorem routes_ne_none (hrt : n.rtLookup dst = some rt) : n.view.routes dst ≠ none := by
  rw [view_routes hrt]
  exact Option.some_ne_none _

/-- The route to `dst` is up. -/
def Up (n : Node) (dst : ℕ) : Prop := ∃ r, n.view.routes dst = some r ∧ r.flags = .up

theorem forward_some {d : Option ℕ} (hup : ∀ dst, d = some dst → n.Up dst) :
    ∃ n', n.forward now d p = some n' := by
  unfold forward
  split
  · exact ⟨_, rfl⟩
  split
  · exact ⟨_, rfl⟩
  cases d with
  | none => exact ⟨_, rfl⟩
  | some dst =>
    obtain ⟨r, hr, hflags⟩ := hup dst rfl
    obtain ⟨rt, hrt, rfl⟩ := Option.map_eq_some_iff.mp hr
    have hflags' : rt.rtFlags = .up := hflags
    simp only [hrt, Option.bind_eq_bind, Option.bind_some, assert_bind hflags']
    exact ⟨_, rfl⟩

theorem forwardBuffered_some (hup : n.Up dst) : ∃ n', n.forwardBuffered now dst = some n' := by
  obtain ⟨n', hn', -⟩ := @foldlM_invariant _ _ (fun n (p : DataPacket) => n.forward now (some dst) p.1)
    (fun n => n.Up dst) (n.rqPackets now dst) (n.rqDrop now dst) (by
      intro m p _ hm
      obtain ⟨m', hm'⟩ := @forward_some p.1 m now (some dst) (fun _ hd => Option.some.inj hd ▸ hm)
      refine ⟨m', hm', ?_⟩
      unfold Up
      rw [(forward_keeps hm').1]
      exact hm) hup
  exact ⟨n', hn'⟩

theorem sendRequest_some (hv : n.view.Consistent) (hroute : n.view.routes dst ≠ none) :
    ∃ n', n.sendRequest now dst = some n' := by
  obtain ⟨rt, hrt⟩ := exists_entry hroute
  unfold sendRequest
  simp only [hrt, Option.bind_eq_bind, Option.bind_some]
  split
  · rename_i hup
    have hfinite : rt.rtHops ≠ infinity2 := (entry_consistent hv hrt).up hup
    rw [assert_bind hfinite]
    exact ⟨_, rfl⟩
  split
  · exact ⟨_, rfl⟩
  split
  · exact ⟨_, rfl⟩
  · have heven : (n.seqno + 2) % 2 = 0 := by
      have heven' : n.seqno % 2 = 0 := hv.seqno
      omega
    exact ⟨_, assert_bind heven⟩

theorem sendReply_some {ipdst hopCount rpdst rpseq : ℕ} {lifetime timestamp : ℚ}
    (hroute : n.view.routes ipdst ≠ none) :
    ∃ n', n.sendReply ipdst hopCount rpdst rpseq lifetime timestamp = some n' ∧
      n'.view.routes = n.view.routes := by
  obtain ⟨rt, hrt⟩ := exists_entry hroute
  unfold sendReply
  simp only [hrt]
  exact ⟨_, rfl, rfl⟩

/-- The assertions of one turn of the loop hold of a consistent node without a repair through the neighbour. -/
theorem linkFailed_some {acc : Node × List (ℕ × ℕ)} (hv : acc.1.view.Consistent)
    (hroute : acc.1.view.routes dst ≠ none) (hsteady : acc.1.view.Steady id) :
    ∃ acc', linkFailed id acc dst = some acc' ∧ acc'.1.view.Consistent ∧
      Drops acc.1.view acc'.1.view := by
  obtain ⟨rt, hrt⟩ := exists_entry hroute
  unfold linkFailed
  simp only [hrt, Option.bind_eq_bind, Option.bind_some]
  split
  · rename_i hbroken
    have hr := entry_consistent hv hrt
    have heven : rt.rtSeqno % 2 = 0 := hr.even hbroken.1
    have hup : rt.rtFlags = .up := by
      cases hflags : rt.rtFlags with
      | up => rfl
      | down => exact absurd (hr.down hflags) hbroken.1
      | inRepair => exact absurd hbroken.2 (hsteady dst _ (view_routes hrt) hflags hbroken.1)
    rw [assert_bind hup, assert_bind heven]
    refine ⟨_, rfl, ?_⟩
    simp only [view_modify_quiet (quiet_pcDelete id), view_down hrt hup]
    exact ⟨hv.set (.lost _), .set (view_routes hrt) _⟩
  · refine ⟨_, rfl, ?_⟩
    simp only [view_modify_quiet (quiet_pcDelete id)]
    exact ⟨hv, fun _ => Or.inl rfl⟩

theorem mem_routes {d : ℕ} (h : d ∈ n.rtable.map RtEntry.rtDst) : n.view.routes d ≠ none := by
  obtain ⟨rt, hmem, rfl⟩ := mem_map.mp h
  show (n.rtLookup rt.rtDst).map RtEntry.route ≠ none
  have hsome : (n.rtLookup rt.rtDst).isSome := find?_isSome.mpr ⟨rt, hmem, by simp⟩
  obtain ⟨rt', hrt'⟩ := Option.isSome_iff_exists.mp hsome
  rw [hrt']
  exact Option.some_ne_none _

/-- No assertion fails when the routes through a neighbour are taken down. -/
theorem handleLinkFailure_some (hv : n.view.Consistent) (hsteady : n.view.Steady id) :
    ∃ n', n.handleLinkFailure id = some n' ∧ Drops n.view n'.view := by
  obtain ⟨r, hr, -, hdrops⟩ := @foldlM_invariant _ _ (linkFailed id)
    (fun acc => acc.1.view.Consistent ∧ Drops n.view acc.1.view)
    (n.rtable.map RtEntry.rtDst) (n, []) (by
      intro acc d hd ⟨hacc, hdrops⟩
      obtain ⟨acc', h', hacc', hdrops'⟩ :=
        linkFailed_some hacc (hdrops.keeps (mem_routes hd)) (hdrops.steady hsteady)
      exact ⟨acc', h', hacc', hdrops.trans hdrops'⟩) ⟨hv, fun _ => Or.inl rfl⟩
  unfold handleLinkFailure
  rw [hr]
  refine ⟨_, rfl, ?_⟩
  have hsame : (r.1.sendError r.2).view.routes = r.1.view.routes := by
    unfold sendError
    split <;> rfl
  intro dst
  rw [hsame]
  exact hdrops dst

theorem nbDelete_some (hv : n.view.Consistent) (hsteady : n.view.Steady id) :
    ∃ n', n.nbDelete id = some n' ∧ Drops n.view n'.view := by
  have heven : (n.seqno + 2) % 2 = 0 := by
    have heven' : n.seqno % 2 = 0 := hv.seqno
    omega
  unfold nbDelete
  simp only [Option.bind_eq_bind]
  rw [assert_bind heven]
  exact @handleLinkFailure_some id { n with
    seqno := n.seqno + 2, nbhead := n.nbhead.eraseP (fun nb => nb.nbAddr = id) }
    ⟨heven, hv.routes, hv.packets⟩ hsteady

theorem nbPurge_some (hv : n.view.Consistent)
    (hsteady : ∀ nb ∈ n.nbhead, nb.nbExpire ≤ now → n.view.Steady nb.nbAddr) :
    ∃ n', n.nbPurge now = some n' := by
  obtain ⟨n', hn', -⟩ := @foldlM_invariant _ _
    (fun (n : Node) nb => if nb.nbExpire ≤ now then n.nbDelete nb.nbAddr else some n)
    (fun m => m.view.Consistent ∧ Drops n.view m.view) n.nbhead n (by
      intro m nb hnb ⟨hm, hdrops⟩
      by_cases hexpired : nb.nbExpire ≤ now
      · obtain ⟨m', hm', hdrops'⟩ := nbDelete_some hm (hdrops.steady (hsteady nb hnb hexpired))
        refine ⟨m', by rw [if_pos hexpired]; exact hm', ?_, hdrops.trans hdrops'⟩
        have hevolves : Evolves .nbPurge m.view m.view m'.view := nbDelete_evolves hm'
        exact hevolves.consistent hm (fun _ h => Event.noConfusion h)
          (fun _ _ h => Event.noConfusion h)
      · exact ⟨m, by rw [if_neg hexpired], hm, hdrops⟩) ⟨hv, fun _ => Or.inl rfl⟩
  exact ⟨n', hn'⟩

theorem localRtRepair_some {p : DataPacket} (hv : n.view.Consistent)
    (hrt : n.rtLookup dst = some rt) : ∃ n', n.localRtRepair now dst p = some n' := by
  have hrt' : (n.enque now p).rtLookup dst = some rt := hrt
  have hview := view_modify (f := fun rt => { rt with rtFlags := .inRepair }) (fun _ => rfl) hrt'
  have hrepair : ((n.enque now p).modify dst (fun rt => { rt with rtFlags := .inRepair })).view.Consistent := by
    rw [hview]
    have hr := entry_consistent hv hrt
    exact View.Consistent.set (v := (n.enque now p).view) ⟨hv.seqno, hv.routes, hv.packets⟩
      ⟨fun hup => Flags.noConfusion hup, fun hdown => Flags.noConfusion hdown, hr.even⟩
  obtain ⟨n₁, h₁⟩ := @sendRequest_some dst _ now hrepair (by
    rw [hview, View.routes_set_self]
    exact Option.some_ne_none _)
  unfold localRtRepair
  simp only [Option.bind_eq_bind]
  rw [h₁]
  exact ⟨_, rfl⟩

theorem rtLlFailed_some (hv : n.view.Consistent)
    (hsteady : p.body = .data → ∀ dst rt, p.daddr = some dst → n.rtLookup dst = some rt →
      p.numForwards ≤ rt.rtHops → n.view.Steady p.nextHop) :
    ∃ n', n.rtLlFailed now p = some n' := by
  unfold rtLlFailed
  split
  · rename_i hdata
    split
    · exact ⟨_, rfl⟩
    · rename_i dst hdaddr
      split
      · exact ⟨_, rfl⟩
      · rename_i rt hrt
        split
        · exact localRtRepair_some hv hrt
        · rename_i hnear
          obtain ⟨n', hn', -⟩ :=
            nbDelete_some hv (hsteady hdata dst rt hdaddr hrt (Nat.not_lt.mp hnear))
          exact ⟨n', hn'⟩
  · exact ⟨_, rfl⟩

theorem rtFind_some : ∃ n', n.rtFind id = some n' ∧ n'.view.routes id ≠ none := by
  unfold rtFind
  split
  · rename_i hnone
    refine ⟨_, assert_bind hnone, ?_⟩
    show (List.find? _ (RtEntry.new id :: n.rtable)).map RtEntry.route ≠ none
    rw [find?_cons_of_pos (by simp [RtEntry.new])]
    exact Option.some_ne_none _
  · rename_i hsome
    obtain ⟨rt, hrt⟩ := Option.ne_none_iff_exists'.mp hsome
    exact ⟨n, rfl, routes_ne_none hrt⟩

theorem rtFind_consistent (h : n.rtFind id = some n') (hv : n.view.Consistent) :
    n'.view.Consistent := by
  have hevolves : Evolves .idPurge n.view n.view n'.view := rtFind_evolves h
  exact hevolves.consistent hv (fun _ h => Event.noConfusion h) (fun _ _ h => Event.noConfusion h)

theorem rtResolve_some {p : DataPacket} (hv : n.view.Consistent) :
    ∃ n', n.rtResolve now dst p = some n' := by
  obtain ⟨n₁, h₁, hroute⟩ := @rtFind_some dst n
  have hv₁ := rtFind_consistent h₁ hv
  obtain ⟨rt, hrt⟩ := exists_entry hroute
  have hr := entry_consistent hv₁ hrt
  unfold rtResolve
  simp only [h₁, hrt, Option.bind_eq_bind, Option.bind_some]
  split
  · rename_i hup
    have hfinite : rt.rtHops ≠ infinity2 := hr.up hup
    rw [assert_bind hfinite]
    refine forward_some (fun d hd => ?_)
    cases hd
    exact ⟨rt.route, view_routes hrt, hup⟩
  split
  · exact @sendRequest_some dst (n₁.enque now p) now ⟨hv₁.seqno, hv₁.routes, hv₁.packets⟩ hroute
  split
  · exact ⟨_, rfl⟩
  · rename_i hnotUp _ hnotRepair
    have hdown : rt.rtFlags = .down := by
      cases hflags : rt.rtFlags with
      | down => rfl
      | up => exact absurd hflags hnotUp
      | inRepair => exact absurd hflags hnotRepair
    exact ⟨_, assert_bind hdown⟩

theorem purgeRoute_some (hv : n.view.Consistent) (hroute : n.view.routes dst ≠ none) :
    ∃ n', n.purgeRoute now dst = some n' := by
  obtain ⟨rt, hrt⟩ := exists_entry hroute
  have hr := entry_consistent hv hrt
  unfold purgeRoute
  simp only [hrt, Option.bind_eq_bind, Option.bind_some]
  split
  · rename_i hexpired
    have hfinite : rt.rtHops ≠ infinity2 := hr.up hexpired.1
    have hodd : (rt.rtSeqno + 1) % 2 = 1 := by
      have heven : rt.rtSeqno % 2 = 0 := hr.even hfinite
      omega
    rw [assert_bind hfinite, assert_bind hodd]
    exact ⟨_, rfl⟩
  split
  · rename_i hup
    have hfinite : rt.rtHops ≠ infinity2 := hr.up hup
    rw [assert_bind hfinite]
    exact forwardBuffered_some ⟨rt.route, view_routes hrt, hup⟩
  split
  · exact sendRequest_some hv hroute
  · exact ⟨_, rfl⟩

theorem rtPurge_some (hv : n.view.Consistent) : ∃ n', n.rtPurge now = some n' := by
  obtain ⟨n', hn', -⟩ := @foldlM_invariant _ _ (purgeRoute now)
    (fun m => m.view.Consistent ∧ ∀ d, n.view.routes d ≠ none → m.view.routes d ≠ none)
    (n.rtable.map RtEntry.rtDst) n (by
      intro m d hd ⟨hm, hkeeps⟩
      obtain ⟨m', hm'⟩ := purgeRoute_some hm (hkeeps d (mem_routes hd))
      have hevolves : Evolves .rtPurge m.view m.view m'.view := purgeRoute_evolves hm'
      exact ⟨m', hm', hevolves.consistent hm (fun _ h => Event.noConfusion h)
        (fun _ _ h => Event.noConfusion h), fun d hd => hevolves.keeps (hkeeps d hd)⟩)
    ⟨hv, fun _ hd => hd⟩
  exact ⟨n', hn'⟩

theorem reverseRoute_some {rq : Rreq} (hrt : n.rtLookup rq.rqSrc = some rt)
    (hfinite : rq.rqHopCount ≠ infinity2) : ∃ n', n.reverseRoute now p rq = some n' := by
  have hlearned := rtLookup_modify_self (f := (·.learnRequest now p.saddr rq))
    (fun rt => (learnRequest_keeps p.saddr rq rt).1) hrt
  have hroute := (@learnRequest_keeps now p.saddr rq rt).2
  have hup : (rt.learnRequest now p.saddr rq).rtFlags = .up := congrArg Route.flags hroute
  have hhops : (rt.learnRequest now p.saddr rq).rtHops ≠ infinity2 := by
    rw [show (rt.learnRequest now p.saddr rq).rtHops = rq.rqHopCount from congrArg Route.hops hroute]
    exact hfinite
  unfold reverseRoute
  simp only [hlearned, Option.bind_eq_bind, Option.bind_some]
  rw [assert_bind hup, assert_bind (Or.inr hhops)]
  exact forwardBuffered_some ⟨_, view_routes hlearned, hup⟩

theorem answerRequest_some {rq : Rreq} (hroute : n.view.routes rq.rqSrc ≠ none) :
    ∃ n', n.answerRequest now p rq = some n' := by
  unfold answerRequest
  split
  · obtain ⟨n', hn', -⟩ := sendReply_some (n := { n with
      seqno := if (max n.seqno rq.rqDstSeqno + 1) % 2 = 1 then max n.seqno rq.rqDstSeqno + 1 + 1
        else max n.seqno rq.rqDstSeqno + 1 }) hroute
    exact ⟨n', hn'⟩
  split
  · exact forward_some (fun _ hd => by cases hd)
  · rename_i rt hrt
    split
    · obtain ⟨n₁, h₁, hsame⟩ := @sendReply_some n rq.rqSrc (rt.rtHops + 1) rq.rqDst rt.rtSeqno
        (toUInt32 (rt.rtExpire - now)) rq.rqTimestamp hroute
      obtain ⟨rt0, hrt0⟩ := exists_entry (show n₁.view.routes rq.rqSrc ≠ none by rwa [hsame])
      simp only [Option.bind_eq_bind]
      rw [assert_bind (rtLookup_dst hrt).symm, h₁, Option.bind_some, hrt0]
      exact ⟨_, rfl⟩
    · exact forward_some (fun _ hd => by cases hd)

theorem recvRequest_some {rq : Rreq} (hfinite : rq.rqHopCount ≠ infinity2) :
    ∃ n', n.recvRequest now p rq = some n' := by
  unfold recvRequest
  split
  · exact ⟨_, rfl⟩
  split
  · exact ⟨_, rfl⟩
  obtain ⟨n₁, h₁, hroute₁⟩ := @rtFind_some rq.rqSrc (n.idInsert now rq.rqSrc rq.rqBcastId)
  have hquiet : (n₁.modify rq.rqSrc (fun rt0 =>
      { rt0 with rtExpire := max rt0.rtExpire (now + revRouteLife) })).view = n₁.view :=
    view_modify_quiet (fun _ => ⟨rfl, rfl⟩)
  rw [← hquiet] at hroute₁
  obtain ⟨rt0, hrt0⟩ := exists_entry hroute₁
  simp only [h₁, hrt0, Option.bind_eq_bind, Option.bind_some]
  split
  · obtain ⟨n₂, h₂⟩ := @reverseRoute_some p _ now _ _ hrt0 hfinite
    rw [h₂]
    refine answerRequest_some ?_
    -- the reverse route is in the table
    rw [reverseRoute_keeps h₂ hrt0, View.routes_set_self]
    exact Option.some_ne_none _
  · exact answerRequest_some hroute₁

theorem acceptReply_some {rp : Rrep} (hrt : n.rtLookup rp.rpDst = some rt) :
    ∃ n', n.acceptReply now p rp = some n' := by
  have hlearned := rtLookup_modify_self (f := (·.learnReply now (p.daddr = some n.index) rp))
    (fun rt => (learnReply_keeps _ rp rt).1) hrt
  have hroute := (@learnReply_keeps now (p.daddr = some n.index) rp rt).2
  have hup : (rt.learnReply now (p.daddr = some n.index) rp).rtFlags = .up :=
    congrArg Route.flags hroute
  unfold acceptReply
  simp only [hlearned, Option.bind_eq_bind, Option.bind_some]
  split
  · rw [assert_bind (Or.inr hup)]
    exact forwardBuffered_some ⟨_, view_routes hlearned, hup⟩
  · exact ⟨_, rfl⟩

theorem acceptReply_consistent {rp : Rrep} (h : n.acceptReply now p rp = some n')
    (hrt : n.rtLookup rp.rpDst = some rt) (hv : n.view.Consistent)
    (heven : rp.rpDstSeqno % 2 = 0) (hfinite : rp.rpHopCount ≠ infinity2) :
    n'.view.Consistent := by
  have hset : (n.modify rp.rpDst (·.learnReply now (p.daddr = some n.index) rp)).view.Consistent := by
    rw [view_learnReply _ hrt]
    exact hv.set ⟨fun _ => hfinite, fun hdown => Flags.noConfusion hdown, fun _ => heven⟩
  obtain ⟨rt₁, -, h⟩ := Option.bind_eq_some_iff.mp h
  split at h
  · obtain ⟨-, -, h⟩ := Option.bind_eq_some_iff.mp h
    have hevolves := @forwardBuffered_evolves _ _ .idPurge n.view _ _ h
    exact hevolves.consistent hset (fun _ h => Event.noConfusion h)
      (fun _ _ h => Event.noConfusion h)
  · cases h
    exact hset

theorem forwardReply_some {rp : Rrep} (hv : n.view.Consistent)
    (hsteady : ∀ dst r, p.daddr = some dst → n.view.routes dst = some r → r.hops ≠ infinity2 →
      r.flags ≠ .inRepair) : ∃ n', n.forwardReply now p rp = some n' := by
  unfold forwardReply
  split
  · exact ⟨_, rfl⟩
  rename_i dst hdaddr
  split
  · exact ⟨_, rfl⟩
  rename_i rt0 hrt0
  split
  · rename_i hfinite
    have hup : rt0.rtFlags = .up := by
      cases hflags : rt0.rtFlags with
      | up => rfl
      | down => exact absurd ((entry_consistent hv hrt0).down hflags) hfinite
      | inRepair => exact absurd hflags (hsteady dst _ hdaddr (view_routes hrt0) hfinite)
    simp only [Option.bind_eq_bind]
    rw [assert_bind hup]
    obtain ⟨n₁, h₁⟩ := @forward_some
      { p with body := .rrep { rp with rpHopCount := (rp.rpHopCount + 1) % 256, rpSrc := n.index } }
      n now (some dst) (fun d hd => by
        cases hd
        exact ⟨_, view_routes hrt0, hup⟩)
    rw [h₁]
    exact ⟨_, rfl⟩
  · exact ⟨_, rfl⟩

/-- A reply passes the assertions when its hop count is finite and no repair is disturbed. -/
theorem recvReply_some {rp : Rrep} (hv : n.view.Consistent) (heven : rp.rpDstSeqno % 2 = 0)
    (hcareful : (n.view.route rp.rpDst).Fresher rp.rpDstSeqno rp.rpHopCount →
      rp.rpHopCount ≠ infinity2 ∧ ∀ dst, p.daddr = some dst → dst ≠ n.index → dst ≠ rp.rpDst →
        (n.view.route dst).hops ≠ infinity2 → (n.view.route dst).flags ≠ .inRepair) :
    ∃ n', n.recvReply now p rp = some n' := by
  obtain ⟨n₁, h₁, hroute₁⟩ := @rtFind_some rp.rpDst n
  obtain ⟨hkeeps, hindex⟩ := rtFind_keeps h₁
  have hv₁ := rtFind_consistent h₁ hv
  obtain ⟨rt, hrt⟩ := exists_entry hroute₁
  unfold recvReply
  simp only [h₁, hrt, Option.bind_eq_bind, Option.bind_some]
  split
  · rename_i hfresher
    have hfresher' : (n.view.route rp.rpDst).Fresher rp.rpDstSeqno rp.rpHopCount := by
      rw [← hkeeps, view_route hrt]
      exact hfresher
    obtain ⟨hfinite, hsteady⟩ := hcareful hfresher'
    obtain ⟨n₂, h₂⟩ := @acceptReply_some p _ now _ _ hrt
    rw [h₂, Option.bind_some]
    split
    · exact ⟨_, rfl⟩
    rename_i hother
    obtain ⟨hkeeps₂, hindex₂⟩ := acceptReply_keeps h₂ hrt
    refine forwardReply_some (acceptReply_consistent h₂ hrt hv₁ heven hfinite)
      (fun dst r hdaddr hroute hhops hflags => ?_)
    rw [hkeeps₂] at hroute
    by_cases hdst : dst = rp.rpDst
    · subst hdst
      rw [View.routes_set_self] at hroute
      cases hroute
      exact Flags.noConfusion hflags
    · rw [View.routes_set_of_ne _ hdst] at hroute
      have hsame : n.view.route dst = r := (hkeeps dst).symm.trans (route_of_routes hroute)
      have hself : dst ≠ n.index := by
        rintro rfl
        exact hother (by rw [hdaddr, hindex₂, hindex])
      subst hsame
      exact hsteady dst hdaddr hself hdst hhops hflags
  · exact ⟨_, rfl⟩

/-- One turn of the loop over the listed destinations passes its assertion. -/
theorem routeError_some {saddr : ℕ} {acc : Node × List (ℕ × ℕ)} {u : ℕ × ℕ}
    (hv : acc.1.view.Consistent)
    (hsteady : ∀ r, acc.1.view.routes u.1 = some r → r.flags = .inRepair → r.hops ≠ infinity2 →
      r.nexthop = saddr → ¬ r.seqno ≤ u.2) :
    ∃ acc', routeError saddr acc u = some acc' ∧ acc'.1.view.Consistent ∧
      Drops acc.1.view acc'.1.view := by
  obtain ⟨n, l⟩ := acc
  unfold routeError
  dsimp only
  split
  · exact ⟨_, rfl, hv, fun _ => Or.inl rfl⟩
  rename_i rt hrt
  split
  · rename_i hbroken
    have hr := entry_consistent hv hrt
    have heven : rt.rtSeqno % 2 = 0 := hr.even hbroken.1
    have hup : rt.rtFlags = .up := by
      cases hflags : rt.rtFlags with
      | up => rfl
      | down => exact absurd (hr.down hflags) hbroken.1
      | inRepair =>
        exact absurd hbroken.2.2 (hsteady _ (view_routes hrt) hflags hbroken.1 hbroken.2.1)
    have hview := view_down hrt hup (fun _ => u.2)
    simp only [Option.bind_eq_bind]
    rw [assert_bind hup, assert_bind heven]
    split
    · refine ⟨_, rfl, ?_⟩
      simp only [hview]
      exact ⟨hv.set (.lost _), .set (view_routes hrt) _⟩
    · refine ⟨_, rfl, ?_⟩
      simp only [@view_modify_quiet (Node.modify n u.1 _) u.1 (fun rt : RtEntry => { rt with rtPclist := [] }) (fun _ => ⟨rfl, rfl⟩), hview]
      exact ⟨hv.set (.lost _), .set (view_routes hrt) _⟩
  · exact ⟨_, rfl, hv, fun _ => Or.inl rfl⟩

theorem recvError_some {l : List (ℕ × ℕ)} (hv : n.view.Consistent)
    (hsteady : ∀ u ∈ l, ∀ r, n.view.routes u.1 = some r → r.flags = .inRepair →
      r.hops ≠ infinity2 → r.nexthop = p.saddr → ¬ r.seqno ≤ u.2) :
    ∃ n', n.recvError p l = some n' := by
  obtain ⟨r, hr, -⟩ := @foldlM_invariant _ _ (routeError p.saddr)
    (fun acc => acc.1.view.Consistent ∧ Drops n.view acc.1.view) l (n, []) (by
      intro acc u hu ⟨hacc, hdrops⟩
      obtain ⟨acc', h', hacc', hdrops'⟩ := @routeError_some p.saddr acc u hacc (by
        intro r hr hflags
        rcases hdrops u.1 with heq | ⟨-, s, hlost⟩
        · rw [heq] at hr
          exact hsteady u hu r hr hflags
        · rw [hlost] at hr
          cases hr
          exact Flags.noConfusion hflags)
      exact ⟨acc', h', hacc', hdrops.trans hdrops'⟩) ⟨hv, fun _ => Or.inl rfl⟩
  unfold recvError
  rw [hr]
  exact ⟨_, rfl⟩

theorem recvHello_some (hv : n.view.Consistent) : ∃ n', n.recvHello now id = some n' := by
  have heven : (n.seqno + 2) % 2 = 0 := by
    have heven' : n.seqno % 2 = 0 := hv.seqno
    omega
  unfold recvHello
  split
  · exact ⟨_, rfl⟩
  · exact ⟨_, assert_bind heven⟩

theorem recvData_some {p : DataPacket} (hv : n.view.Consistent) :
    ∃ n', n.recvData now p = some n' := by
  unfold recvData
  split
  · split
    · exact rtResolve_some hv
    · exact forward_some (fun _ hd => nomatch hd)
  split
  · exact ⟨_, rfl⟩
  split
  · exact ⟨_, rfl⟩
  · split
    · exact rtResolve_some hv
    · exact forward_some (fun _ hd => nomatch hd)

end Node

/-! ## The network -/

variable {s : ℕ → Node} {a : ℕ} {now : ℚ}

/-- The route is under repair and still has a hop count. -/
def RtEntry.Repairing (rt : RtEntry) : Prop := rt.rtFlags = .inRepair ∧ rt.rtHops ≠ infinity2

/-- No route through `id` is under repair while it has a hop count. -/
def Node.Steady (n : Node) (id : ℕ) : Prop := ∀ rt ∈ n.rtable, rt.Repairing → rt.rtNexthop ≠ id

/-- The condition on a packet with a body: `recvReply` and `recvError` meet no route under repair where
they look for one that is up, and no reply is accepted that counts `infinity2` hops. -/
def Node.Untroubled (n : Node) (p : Packet) : Body → Prop
  | .rrep rp =>
    (n.entry rp.rpDst).Fresher rp.rpDstSeqno rp.rpHopCount →
      rp.rpHopCount ≠ infinity2 ∧
        ∀ dst ∈ p.daddr, dst ≠ n.index → dst ≠ rp.rpDst → ¬ (n.entry dst).Repairing
  | .rerr l =>
    ∀ u ∈ l, (n.entry u.1).Repairing → (n.entry u.1).rtNexthop = p.saddr →
      ¬ (n.entry u.1).rtSeqno ≤ u.2
  | _ => True

/-- The condition on an event at node `a`, with the one on packets: `handle_link_failure` meets no route
under repair through the lost neighbour. -/
def Untroubled (s : ℕ → Node) (a : ℕ) (now : ℚ) : Event → Prop
  | .recv p => (s a).Untroubled p p.body
  | .llFailed p =>
    p.body = .data → ∀ dst ∈ p.daddr, (s a).rtLookup dst ≠ none →
      p.numForwards ≤ ((s a).entry dst).rtHops → (s a).Steady p.nextHop
  | .nbPurge => ∀ nb ∈ (s a).nbhead, nb.nbExpire ≤ now → (s a).Steady nb.nbAddr
  | _ => True

instance (rt : RtEntry) : Decidable rt.Repairing := inferInstanceAs (Decidable (_ ∧ _))

instance (n : Node) (id : ℕ) : Decidable (n.Steady id) :=
  inferInstanceAs (Decidable (∀ rt ∈ n.rtable, rt.Repairing → rt.rtNexthop ≠ id))

instance (n : Node) (p : Packet) : (b : Body) → Decidable (n.Untroubled p b)
  | .rrep rp =>
    inferInstanceAs (Decidable ((n.entry rp.rpDst).Fresher rp.rpDstSeqno rp.rpHopCount →
      rp.rpHopCount ≠ infinity2 ∧
        ∀ dst ∈ p.daddr, dst ≠ n.index → dst ≠ rp.rpDst → ¬ (n.entry dst).Repairing))
  | .rerr l =>
    inferInstanceAs (Decidable (∀ u ∈ l, (n.entry u.1).Repairing →
      (n.entry u.1).rtNexthop = p.saddr → ¬ (n.entry u.1).rtSeqno ≤ u.2))
  | .data => isTrue trivial
  | .rreq _ => isTrue trivial
  | .hello _ _ => isTrue trivial

instance (s : ℕ → Node) (a : ℕ) (now : ℚ) : (e : Event) → Decidable (Untroubled s a now e)
  | .recv p => inferInstanceAs (Decidable ((s a).Untroubled p p.body))
  | .llFailed p =>
    inferInstanceAs (Decidable (p.body = .data → ∀ dst ∈ p.daddr, (s a).rtLookup dst ≠ none →
      p.numForwards ≤ ((s a).entry dst).rtHops → (s a).Steady p.nextHop))
  | .nbPurge =>
    inferInstanceAs (Decidable
      (∀ nb ∈ (s a).nbhead, nb.nbExpire ≤ now → (s a).Steady nb.nbAddr))
  | .lrTimer _ => isTrue trivial
  | .rtPurge => isTrue trivial
  | .idPurge => isTrue trivial
  | .hello => isTrue trivial

theorem Node.Steady.view {n : Node} (h : n.Steady id) : n.view.Steady id := by
  intro dst r hr hflags hhops
  obtain ⟨rt, hrt, rfl⟩ := Option.map_eq_some_iff.mp hr
  exact h rt (mem_of_find?_eq_some hrt) ⟨hflags, hhops⟩

theorem view_entry_of_routes {n : Node} (h : n.view.routes dst = some r) :
    (n.entry dst).route = r := by
  rw [← Node.view_entry, route_of_routes h]

theorem Untroubled.finite (h : Untroubled s a now e) : (s a).view.Finite e := by
  rintro p rp rfl hbody hfresher
  have hp : (s a).Untroubled p p.body := h
  rw [hbody] at hp
  rw [Node.view_entry] at hfresher
  exact (hp hfresher).1

/-- **No assertion fails** in an untroubled step of a consistent node. -/
theorem step_some (hv : (s a).view.Consistent) (hpacket : ∀ p, e = .recv p → p.Even)
    (h : Untroubled s a now e) : ∃ n', (s a).step now e = some n' := by
  cases e with
  | recv p =>
    have hp : (s a).Untroubled p p.body := h
    show ∃ n', (s a).recv now p = some n'
    unfold Node.recv
    split
    · exact Node.recvData_some hv
    · rename_i rq hbody
      obtain ⟨hpos, httl⟩ := (hpacket p rfl).ttl rq hbody
      exact Node.recvRequest_some (fun hinf : rq.rqHopCount = 255 => by omega)
    · rename_i rp hbody
      rw [hbody] at hp
      refine Node.recvReply_some hv ((hpacket p rfl).advert (.rrep hbody rfl rfl rfl rfl)) ?_
      intro hfresher
      rw [Node.view_entry] at hfresher
      obtain ⟨hfinite, hsteady⟩ := hp hfresher
      refine ⟨hfinite, fun dst hdaddr hself hdst hhops hflags => ?_⟩
      rw [Node.view_entry] at hhops hflags
      exact hsteady dst hdaddr hself hdst ⟨hflags, hhops⟩
    · rename_i l hbody
      rw [hbody] at hp
      refine Node.recvError_some hv (fun u hu r hr hflags hhops hnexthop => ?_)
      obtain rfl := view_entry_of_routes hr
      exact hp u hu ⟨hflags, hhops⟩ hnexthop
    · exact Node.recvHello_some hv
  | llFailed p =>
    refine Node.rtLlFailed_some hv (fun hdata dst rt hdaddr hrt hfar => ?_)
    have hentry : (s a).entry dst = rt := by
      unfold Node.entry
      rw [hrt]
      rfl
    exact (h hdata dst hdaddr (by rw [hrt]; exact Option.some_ne_none rt)
      (by rw [hentry]; exact hfar)).view
  | lrTimer dst => exact ⟨_, rfl⟩
  | nbPurge => exact Node.nbPurge_some hv (fun nb hnb hexpired => (h nb hnb hexpired).view)
  | rtPurge => exact Node.rtPurge_some hv
  | idPurge => exact ⟨_, rfl⟩
  | hello => exact ⟨_, rfl⟩

theorem Enabled.even (h : Enabled s a e) (hs : ∀ b, (s b).view.Consistent) :
    ∀ p, e = .recv p → p.Even := by
  rintro p rfl
  rcases h with hdata | ⟨⟨b, hmem⟩, -⟩
  · exact even_other (by simp [hdata]) (by simp [hdata])
  · exact (hs b).packets p hmem

/-- By induction on the run: every node stays consistent, because all packets in flight are even. -/
theorem Reachable.consistent (h : Reachable Untroubled s) (a : ℕ) : (s a).view.Consistent := by
  induction h generalizing a with
  | init =>
    refine ⟨(by decide : 2 % 2 = 0), fun dst r hr => ?_, fun p hp => ?_⟩
    · cases hr
    · cases hp
  | @step s b now e n' _ henabled hok hstep ih =>
    by_cases ha : a = b
    · subst ha
      rw [Function.update_self]
      exact (Node.step_evolves hstep).consistent (ih a) (henabled.even ih) hok.finite
    · rw [Function.update_of_ne ha]
      exact ih a

/-- **Consistency of route entries**, in runs whose events meet the condition: the state, the hop count
and the sequence number of every entry agree, and no assertion fails at the next event either. -/
theorem consistent_entries (s : ℕ → Node) (h : Reachable Untroubled s) :
    (∀ a, ∀ rt ∈ (s a).rtable,
      (rt.rtFlags = .up → rt.rtHops ≠ infinity2 ∧ rt.rtSeqno % 2 = 0) ∧
      (rt.rtFlags = .down → rt.rtHops = infinity2)) ∧
    ∀ a now e, Enabled s a e → Untroubled s a now e → ∃ n', (s a).step now e = some n' := by
  refine ⟨fun a rt hrt => ?_, fun a now e henabled hok => ?_⟩
  · have hr := Node.entry_consistent (h.consistent a) (h.lookup hrt)
    exact ⟨fun hup => ⟨hr.up hup, hr.even (hr.up hup)⟩, hr.down⟩
  · exact step_some (h.consistent a) (henabled.even h.consistent) hok

/-- After the discovery of a route. -/
theorem consistent_entries_discovery :
    ∃ s, follow Untroubled discovery Node.init = some s ∧
      (∀ a, ∀ rt ∈ (s a).rtable,
        (rt.rtFlags = .up → rt.rtHops ≠ infinity2 ∧ rt.rtSeqno % 2 = 0) ∧
        (rt.rtFlags = .down → rt.rtHops = infinity2)) ∧
      ∀ a now e, Enabled s a e → Untroubled s a now e → ∃ n', (s a).step now e = some n' := by
  obtain ⟨s, hs⟩ := Option.isSome_iff_exists.mp
    (show (follow Untroubled discovery Node.init).isSome by decide +kernel)
  exact ⟨s, hs, consistent_entries s (Reachable.init.follow hs)⟩

/-- **A link failure during a local repair**: node 2 repairs its route to 3, and then a packet of its own
to 3 fails too; `handle_link_failure` finds the route in repair, and its assertion fails. -/
theorem link_failure_in_repair :
    ∃ s, Reachable (fun _ _ _ _ => True) s ∧
      ∃ p, Enabled s 2 (.llFailed p) ∧ (s 2).step 2 (.llFailed p) = none := by
  have hfails : (follow (fun _ _ _ _ => True)
      (discovery ++ [(2, 2, .happen (.llFailed (dataPacket 2 3)))]) Node.init).map (fun s =>
      ((s 2).step 2 (.llFailed { dataPacket 0 3 with saddr := 2 })).isNone) = some true := by
    decide +kernel
  obtain ⟨s, hs, hnone⟩ := Option.map_eq_some_iff.mp hfails
  exact ⟨s, Reachable.init.follow hs, _, trivial, Option.isNone_iff_eq_none.mp hnone⟩

end NetSim.Aodv
