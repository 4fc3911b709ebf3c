import NetSim.Dsdv.Network
import NetSim.Dsdv.Routes

/-! # Loops and freshness

Along the next hops to a destination the routes get better: a newer sequence number, or the same one with
a smaller metric. So there is no loop, and no sequence number decreases (`dsdv_loop_free`), as long as no
agent receives an old route to a destination for which it has packets in the queue. There
`processUpdate` writes its candidate back although it was not taken (`old_route_written_back`).
-/

namespace NetSim.Dsdv

open Function List Acyclic

variable {s s₀ : ℕ → Agent} {a b d : ℕ} {now : ℚ} {e : Event} {n' : Agent}

def CarefulEvent (n : Agent) : Event → Prop
  | .update _ adverts => ∀ x ∈ adverts, Careful n x
  | _ => True

instance (n : Agent) (x : Advert) : Decidable (Careful n x) := by
  unfold Careful
  cases h : n.table.getEntry x.dst with
  | none => exact isTrue (fun e he => by cases he)
  | some e =>
    refine decidable_of_iff (e.q ≠ none → x.seqnum < e.seqnum → big ≤ x.metric + 1) ?_
    simp

instance (n : Agent) (e : Event) : Decidable (CarefulEvent n e) := by
  unfold CarefulEvent
  cases e <;> infer_instance

def NextHop (s : ℕ → Agent) (d a b : ℕ) : Prop :=
  a ≠ d ∧ ∃ ent, (s a).table.getEntry d = some ent ∧ ent.metric < big ∧
    b = if ent.metric = 1 then d else ent.hop

/-- What an event may teach an agent about a destination. -/
def Learnt (e : Event) (d : ℕ) (ent : RtableEnt) : Prop :=
  ∃ src adverts, e = .update src adverts ∧ ent.hop = src ∧
    (src = d ∨ ∃ x ∈ adverts, x.dst = d ∧ ent.seqnum = x.seqnum ∧ ent.metric = x.metric + 1)

theorem Learnt.same (d : ℕ) (ent ent' : RtableEnt) (hsame : SameRoute ent ent') (h : Learnt e d ent) :
    Learnt e d ent' := by
  obtain ⟨src, adverts, he, hhop, hx⟩ := h
  refine ⟨src, adverts, he, hsame.1.trans hhop, hx.imp_right ?_⟩
  rintro ⟨x, hx, hdst, hseqnum, hmetric⟩
  exact ⟨x, hx, hdst, hsame.2.2.trans hseqnum, hsame.2.1.trans hmetric⟩

/-- **Every event** that meets the condition keeps an agent sound, and its routes get better. -/
theorem step_sound {n : Agent} (h : Sound n) (hcareful : CarefulEvent n e)
    (hsent : ∀ src adverts, e = .update src adverts →
      (∀ x ∈ adverts, x.metric ≤ big) ∧ (adverts.map (·.dst)).Nodup) :
    ∃ n', n.step now e = some n' ∧ Sound n' ∧ Grows (Learnt e) n n' := by
  cases e with
  | update src adverts =>
    obtain ⟨hle, hnodup⟩ := hsent src adverts rfl
    exact processUpdate_sound Learnt.same h hle hnodup hcareful
      (fun x hx ent hhop hseqnum hmetric =>
        ⟨src, adverts, rfl, hhop, .inr ⟨x, hx, rfl, hseqnum, hmetric⟩⟩)
      (fun ent hhop => ⟨src, adverts, rfl, hhop, .inl rfl⟩)
  | periodic => exact ⟨_, rfl, makeUpdate_sound Learnt.same h⟩
  | triggered => exact ⟨_, rfl, makeUpdate_sound Learnt.same h⟩
  | data p => exact ⟨_, rfl, recv_sound h⟩
  | timeout hop => exact ⟨_, rfl, helperCallback_sound Learnt.same h⟩
  | lostLink p hop => exact ⟨_, rfl, lostLink_sound Learnt.same h⟩

/-! ## The network -/

/-- The invariant of a network: the next hop has a better route, or is the destination. -/
structure Ordered (s : ℕ → Agent) : Prop where
  myaddr : ∀ a, (s a).myaddr = a
  sound : ∀ a, Sound (s a)
  hops : ∀ a d ent, (s a).table.getEntry d = some ent → ent.metric ≠ big → a ≠ d → ent.hop = d ∨
    ∃ ent', (s ent.hop).table.getEntry d = some ent' ∧ ent.rank < ent'.rank

theorem Started.ordered (h : Started s) : Ordered s := by
  have hget : ∀ a d ent, (s a).table.getEntry d = some ent → d = a ∧ ent.metric = 0 ∧
      ent.seqnum = 0 ∧ ent.q = none := by
    intro a d ent hent
    obtain ⟨now, useMac, diffSubnet, baseStn, alpha, wst0, ha⟩ := h a
    rw [ha] at hent
    have hmem := mem_of_find?_eq_some hent
    have hdst := RoutingTable.getEntry_dst hent
    obtain rfl := mem_singleton.mp hmem
    exact ⟨hdst.symm, rfl, rfl, rfl⟩
  refine ⟨fun a => ?_, fun a => ⟨?_, fun d ent hent => ?_, fun u hu => ?_⟩, fun a d ent hent _ hne => ?_⟩
  · obtain ⟨now, useMac, diffSubnet, baseStn, alpha, wst0, ha⟩ := h a
    rw [ha]
    rfl
  · obtain ⟨now, useMac, diffSubnet, baseStn, alpha, wst0, ha⟩ := h a
    rw [ha]
    exact pairwise_singleton _ _
  · obtain ⟨-, hmetric, hseqnum, hq⟩ := hget a d ent hent
    refine ⟨?_, fun q hq' => ?_, fun _ => ?_⟩
    · rw [hmetric]
      exact Nat.zero_le _
    · rw [hq] at hq'
      cases hq'
    · rw [hseqnum]
      exact ⟨Nat.zero_le _, fun _ => Nat.zero_le _⟩
  · obtain ⟨now, useMac, diffSubnet, baseStn, alpha, wst0, ha⟩ := h a
    rw [ha] at hu
    cases hu
  · exact absurd (hget a d ent hent).1.symm hne

/-- The step lemma: a node only takes a route that its next hop has. -/
theorem Ordered.step (h : Ordered s) (henabled : Enabled s a e) (hcareful : CarefulEvent (s a) e)
    (hstep : (s a).step now e = some n') :
    Ordered (update s a n') ∧ Grows (Learnt e) (s a) n' := by
  have hsent : ∀ src adverts, e = .update src adverts →
      (∀ x ∈ adverts, x.metric ≤ big) ∧ (adverts.map (·.dst)).Nodup := by
    rintro src adverts rfl
    obtain ⟨hnodup, hx⟩ := (h.sound src).updates adverts henabled.2
    exact ⟨fun x hxu => (hx x hxu).1, hnodup⟩
  obtain ⟨n₁, hstep', hsound, hgrows⟩ := @step_sound now _ _ (h.sound a) hcareful hsent
  rw [hstep] at hstep'
  obtain rfl := Option.some.inj hstep'
  -- no route of the network gets worse
  have hbetter : ∀ b d ent, (s b).table.getEntry d = some ent →
      ∃ ent', (update s a n' b).table.getEntry d = some ent' ∧ ent.rank ≤ ent'.rank := by
    intro b d ent hent
    by_cases hb : b = a
    · rw [hb, update_self]
      exact hgrows.better d ent (hb ▸ hent)
    · rw [update_of_ne hb]
      exact ⟨ent, hent, le_rfl⟩
  have hmyaddr : n'.myaddr = a := hgrows.myaddr.trans (h.myaddr a)
  refine ⟨⟨fun b => ?_, fun b => ?_, fun b d ent hent hmetric hne => ?_⟩, hgrows⟩
  · by_cases hb : b = a
    · rw [hb, update_self]
      exact hmyaddr
    · rw [update_of_ne hb]
      exact h.myaddr b
  · by_cases hb : b = a
    · rw [hb, update_self]
      exact hsound
    · rw [update_of_ne hb]
      exact h.sound b
  · -- a hop that was there before
    have hold : ∀ ent₀, (s b).table.getEntry d = some ent₀ → SameRoute ent₀ ent →
        ent.hop = d ∨ ∃ ent', (update s a n' ent.hop).table.getEntry d = some ent' ∧
          ent.rank < ent'.rank := by
      intro ent₀ hent₀ hsame
      rw [hsame.rank, hsame.1]
      refine (h.hops b d ent₀ hent₀ (hsame.2.1 ▸ hmetric) hne).imp_right ?_
      rintro ⟨ent', hent', hlt⟩
      obtain ⟨ent'', hent'', hle⟩ := hbetter ent₀.hop d ent' hent'
      exact ⟨ent'', hent'', hlt.trans_le hle⟩
    by_cases hb : b = a
    · rw [hb, update_self] at hent
      have hd : d ≠ (s a).myaddr := by
        rw [h.myaddr a, ← hb]
        exact hne.symm
      rcases hgrows.routes d ent hent hmetric hd with ⟨ent₀, hent₀, hsame⟩ | hnew
      · exact hold ent₀ (hb ▸ hent₀) hsame
      · -- the sender of the update has a better route
        obtain ⟨src, adverts, rfl, hhop, hfrom⟩ := hnew
        rcases hfrom with hsrc | ⟨x, hx, rfl, hseqnum, hadv⟩
        · exact .inl (hhop.trans hsrc)
        · obtain ⟨-, ent₁, hent₁, hle⟩ := ((h.sound src).updates adverts henabled.2).2 x hx
          obtain ⟨ent₂, hent₂, hle'⟩ := hbetter src x.dst ent₁ hent₁
          refine .inr ⟨ent₂, hhop ▸ hent₂, ?_⟩
          calc ent.rank < Acyclic.rank x.seqnum x.metric := by
                refine rank_lt_iff.mpr (.inr ⟨hseqnum, ?_⟩)
                rw [hadv]
                exact Nat.lt_succ_self _
            _ ≤ ent₁.rank := hle
            _ ≤ ent₂.rank := hle'
    · rw [update_of_ne hb] at hent
      exact hold ent hent ⟨rfl, rfl, rfl⟩

/-- By induction on the run. -/
theorem Reachable.ordered (hstart : Started s₀) (h : Reachable CarefulEvent s₀ s) : Ordered s := by
  induction h with
  | init => exact hstart.ordered
  | step _ henabled hcareful hstep ih => exact (ih.step henabled hcareful hstep).1

/-- **Loop freedom and freshness**, in runs whose events meet the condition: there is no loop, and no
event loses an entry or makes its sequence number smaller. -/
theorem dsdv_loop_free (s₀ s : ℕ → Agent) (hstart : Started s₀) (h : Reachable CarefulEvent s₀ s)
    (d : ℕ) :
    (∀ a, ¬ Relation.TransGen (NextHop s d) a a) ∧
      ∀ a now e, Enabled s a e → CarefulEvent (s a) e →
        ∃ n', (s a).step now e = some n' ∧ ∀ ent, (s a).table.getEntry d = some ent →
          ∃ ent', n'.table.getEntry d = some ent' ∧ ent.seqnum ≤ ent'.seqnum := by
  have hordered := h.ordered hstart
  constructor
  · -- the rank of an agent without an entry does not matter
    refine acyclic_of_rank
      (fun a => ((s a).table.getEntry d).elim (⊥ : WithBot (ℕ ×ₗ ℕᵒᵈ)) (fun ent => (ent.rank : WithBot _)))
      ?_ (fun b hedge => hedge.1 rfl)
    rintro a b ⟨hne, ent, hent, hmetric, rfl⟩
    by_cases hone : ent.metric = 1
    · rw [if_pos hone]
      exact .inl rfl
    · rw [if_neg hone]
      refine (hordered.hops a d ent hent hmetric.ne hne).imp_right ?_
      rintro ⟨ent', hent', hlt⟩
      rw [hent, hent']
      exact WithBot.coe_lt_coe.mpr hlt
  · intro a now e henabled hcareful
    have hsent : ∀ src adverts, e = .update src adverts →
        (∀ x ∈ adverts, x.metric ≤ big) ∧ (adverts.map (·.dst)).Nodup := by
      rintro src adverts rfl
      obtain ⟨hnodup, hx⟩ := (hordered.sound src).updates adverts henabled.2
      exact ⟨fun x hxu => (hx x hxu).1, hnodup⟩
    obtain ⟨n', hstep, -, hgrows⟩ := @step_sound now _ _ (hordered.sound a) hcareful hsent
    refine ⟨n', hstep, fun ent hent => ?_⟩
    obtain ⟨ent', hent', hle⟩ := hgrows.better d ent hent
    exact ⟨ent', hent', seqno_le_of_rank_le hle⟩

/-- Every agent is started at time 0. -/
def network (a : ℕ) : Agent := Agent.startUp a 0 true (fun _ => false) 0 (7 / 8) 6

theorem network_started : Started network := fun _ => ⟨_, _, _, _, _, _, rfl⟩

/-- Agent 2 is heard by 0, which is heard by 1, which sends an update. -/
def spread : List (ℕ × ℚ × Choice) :=
  [(2, 1, .happen .periodic), (0, 2, .deliver 2 0), (0, 20, .happen .periodic), (1, 21, .deliver 0 0),
    (1, 40, .happen .periodic)]

/-- Agent 0 loses its neighbour 2, and queues a packet for 2. -/
def loss : List (ℕ × ℚ × Choice) := [(0, 47, .happen (.timeout 2)), (0, 48, .happen (.data ⟨9, 2, 30, 1⟩))]

/-- After the route to 2 has spread. -/
theorem dsdv_loop_free_spread :
    ∃ s, follow CarefulEvent spread network = some s ∧
      (∀ a, ¬ Relation.TransGen (NextHop s 2) a a) ∧
      ∀ a now e, Enabled s a e → CarefulEvent (s a) e →
        ∃ n', (s a).step now e = some n' ∧ ∀ ent, (s a).table.getEntry 2 = some ent →
          ∃ ent', n'.table.getEntry 2 = some ent' ∧ ent.seqnum ≤ ent'.seqnum := by
  obtain ⟨s, hs⟩ := Option.isSome_iff_exists.mp
    (show (follow CarefulEvent spread network).isSome by decide +kernel)
  exact ⟨s, hs, dsdv_loop_free network s network_started (Reachable.init.follow hs) 2⟩

/-- **An old route is written back**: 0 drops the queued packet, but takes the route to 2 through 1, which
goes through 0, and its sequence number decreases. -/
theorem old_route_written_back :
    ∃ s e n', Reachable (fun _ _ => True) network s ∧ Enabled s 0 e ∧ (s 0).step 49 e = some n' ∧
      ((s 0).table.getEntry 2).map (·.seqnum) = some 5 ∧
      (n'.table.getEntry 2).map (·.seqnum) = some 4 ∧
      Relation.TransGen (NextHop (update s 0 n') 2) 0 0 := by
  have hrun : ((follow (fun _ _ => True) (spread ++ loss) network).bind (fun s =>
      (Choice.event s 0 (.deliver 1 0)).bind (fun e => ((s 0).step 49 e).map (fun n' =>
        [(s 0).table.getEntry 2, n'.table.getEntry 2, (s 1).table.getEntry 2].map
          (fun ent => ent.map (fun ent => (ent.hop, ent.metric, ent.seqnum))))))) =
      some [some (2, big, 5), some (1, 3, 4), some (0, 2, 4)] := by
    decide +kernel
  obtain ⟨s, hs, hrun⟩ := Option.bind_eq_some_iff.mp hrun
  obtain ⟨e, he, hrun⟩ := Option.bind_eq_some_iff.mp hrun
  obtain ⟨n', hn', hents⟩ := Option.map_eq_some_iff.mp hrun
  simp only [map_cons, map_nil, List.cons.injEq, Option.map_eq_some_iff, Prod.mk.injEq,
    and_true] at hents
  obtain ⟨⟨ent₀, hent₀, h₀⟩, ⟨ent₁, hent₁, h₁⟩, ent₂, hent₂, h₂⟩ := hents
  refine ⟨s, e, n', Reachable.init.follow hs, Choice.enabled he, hn', ?_, ?_, ?_⟩
  · rw [hent₀, Option.map_some, h₀.2.2]
  · rw [hent₁, Option.map_some, h₁.2.2]
  · have hfirst : NextHop (update s 0 n') 2 0 1 := by
      refine ⟨by decide, ent₁, ?_, ?_, ?_⟩
      · exact hent₁
      · rw [h₁.2.1]
        decide
      · rw [h₁.2.1, h₁.1]
        rfl
    have hsecond : NextHop (update s 0 n') 2 1 0 := by
      refine ⟨by decide, ent₂, ?_, ?_, ?_⟩
      · exact hent₂
      · rw [h₂.2.1]
        decide
      · rw [h₂.2.1, h₂.1]
        rfl
    exact .tail (.single hfirst) hsecond

end NetSim.Dsdv
