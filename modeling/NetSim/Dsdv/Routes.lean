import NetSim.Dsdv.Agent
import NetSim.Lib.Acyclic
import Mathlib.Data.List.Nodup
import Mathlib.Data.List.Pairwise

/-! # Routes of a DSDV agent

What an event does to the routing table: every entry is kept or gets a better route, unless an old update
is written back for a destination for which packets are queued (`Grows`).
-/

namespace NetSim.Dsdv

open List Acyclic

variable {t : RoutingTable} {ent ent' e e' : RtableEnt} {d dst : ℕ} {f : RtableEnt → RtableEnt}

namespace RoutingTable

/-! ## The table as a map -/

def Sorted (t : RoutingTable) : Prop := List.Pairwise (fun e e' => e.dst < e'.dst) t

theorem getEntry_dst (h : t.getEntry d = some e) : e.dst = d := by
  have hp := find?_some h
  simpa using hp

theorem getEntry_map (hf : ∀ e, (f e).dst = e.dst) :
    getEntry (t.map f) d = (t.getEntry d).map f := by
  unfold getEntry
  rw [find?_map]
  congr 2
  funext e
  rw [Function.comp, hf]

theorem getEntry_modify (hf : ∀ e, e.dst = dst → (f e).dst = dst) :
    (t.modify dst f).getEntry d = if d = dst then (t.getEntry d).map f else t.getEntry d := by
  unfold modify
  rw [getEntry_map]
  · cases hget : t.getEntry d with
    | none => simp
    | some e =>
      have hdst := getEntry_dst hget
      rw [Option.map_some, Option.map_some]
      by_cases hd : d = dst
      · rw [if_pos hd, if_pos (hdst.trans hd)]
      · rw [if_neg hd, if_neg (fun heq => hd (hdst.symm.trans heq))]
  · intro e
    split
    · rename_i he
      rw [hf e he, he]
    · rfl

theorem getEntry_insert (h : t.getEntry ent.dst = none) :
    (insert ent t).getEntry d = if d = ent.dst then some ent else t.getEntry d := by
  have hcons : ∀ (e : RtableEnt) (t : RoutingTable) (d : ℕ),
      getEntry (e :: t) d = if e.dst = d then some e else t.getEntry d := by
    intro e t d
    unfold getEntry
    rw [find?_cons]
    by_cases hd : e.dst = d
    · rw [if_pos hd, decide_eq_true hd]
    · rw [if_neg hd, decide_eq_false hd]
  induction t with
  | nil =>
    rw [insert, hcons]
    by_cases hd : d = ent.dst
    · rw [if_pos hd.symm, if_pos hd]
    · rw [if_neg (Ne.symm hd), if_neg hd]
  | cons e t ih =>
    rw [hcons] at h
    have hne : e.dst ≠ ent.dst := by
      intro heq
      rw [if_pos heq] at h
      cases h
    rw [if_neg hne] at h
    rw [insert]
    split
    · rw [hcons]
      by_cases hd : d = ent.dst
      · rw [if_pos hd.symm, if_pos hd]
      · rw [if_neg (Ne.symm hd), if_neg hd]
    · rw [hcons, ih h, hcons]
      by_cases hd : d = ent.dst
      · rw [if_neg (fun heq => hne (heq.trans hd)), if_pos hd, if_pos hd]
      · rw [if_neg hd, if_neg hd]

theorem getEntry_addEntry :
    (t.addEntry ent).getEntry d = if d = ent.dst then some ent else t.getEntry d := by
  unfold addEntry
  split
  · rename_i hsome
    obtain ⟨e, he⟩ := Option.isSome_iff_exists.mp hsome
    rw [getEntry_modify (fun _ _ => rfl)]
    by_cases hd : d = ent.dst
    · rw [if_pos hd, if_pos hd, hd, he, Option.map_some]
    · rw [if_neg hd, if_neg hd]
  · rename_i hnone
    exact getEntry_insert (by simpa using hnone)

theorem Sorted.map (h : t.Sorted) (hf : ∀ e, (f e).dst = e.dst) : Sorted (t.map f) := by
  unfold Sorted
  rw [pairwise_map]
  exact h.imp (fun hlt => by rw [hf, hf]; exact hlt)

theorem Sorted.modify (h : t.Sorted) (hf : ∀ e, e.dst = dst → (f e).dst = dst) :
    Sorted (t.modify dst f) := by
  refine h.map (fun e => ?_)
  split
  · rename_i he
    rw [hf e he, he]
  · rfl

theorem mem_insert (h : e ∈ insert ent t) : e = ent ∨ e ∈ t := by
  induction t with
  | nil => exact .inl (mem_singleton.mp h)
  | cons e' t ih =>
    rw [insert] at h
    split at h
    · exact mem_cons.mp h
    · rcases mem_cons.mp h with rfl | h
      · exact .inr mem_cons_self
      · exact (ih h).imp_right (mem_cons_of_mem _)

theorem Sorted.insert (h : t.Sorted) (hnone : t.getEntry ent.dst = none) : Sorted (insert ent t) := by
  induction t with
  | nil => exact pairwise_singleton _ _
  | cons e t ih =>
    obtain ⟨hbehind, hrest⟩ := pairwise_cons.mp h
    have hne : ∀ e' ∈ e :: t, e'.dst ≠ ent.dst := by
      intro e' he' heq
      have := find?_eq_none.mp hnone e' he'
      simp [heq] at this
    rw [RoutingTable.insert]
    split
    · rename_i hlt
      refine pairwise_cons.mpr ⟨fun e' he' => ?_, h⟩
      rcases mem_cons.mp he' with rfl | he'
      · exact hlt
      · exact hlt.trans (hbehind e' he')
    · have hnone' : getEntry t ent.dst = none :=
        find?_eq_none.mpr (fun e' he' => find?_eq_none.mp hnone e' (mem_cons_of_mem _ he'))
      refine pairwise_cons.mpr ⟨fun e' he' => ?_, ih hrest hnone'⟩
      rcases mem_insert he' with rfl | he'
      · have := hne e mem_cons_self
        omega
      · exact hbehind e' he'

/-- **The table stays sorted**, so that the binary search finds every entry. -/
theorem Sorted.addEntry (h : t.Sorted) : Sorted (t.addEntry ent) := by
  unfold RoutingTable.addEntry
  split
  · exact h.modify (fun _ _ => rfl)
  · rename_i hnone
    exact h.insert (by simpa using hnone)

theorem Sorted.getEntry (h : t.Sorted) (he : e ∈ t) : t.getEntry e.dst = some e := by
  induction t with
  | nil => cases he
  | cons e' t ih =>
    obtain ⟨hbehind, hrest⟩ := pairwise_cons.mp h
    unfold RoutingTable.getEntry
    rw [find?_cons]
    rcases mem_cons.mp he with rfl | he
    · rw [decide_eq_true rfl]
    · rw [decide_eq_false (ne_of_lt (hbehind e he))]
      exact ih hrest he

end RoutingTable

/-! ## The invariant of an agent -/

variable {n n' n'' : Agent} {L : ℕ → RtableEnt → Prop} {now : ℚ} {p : DataPacket}

/-- The rank of the route of an entry. -/
def RtableEnt.rank (e : RtableEnt) : ℕ ×ₗ ℕᵒᵈ := Acyclic.rank e.seqnum e.metric

def SameRoute (e e' : RtableEnt) : Prop :=
  e'.hop = e.hop ∧ e'.metric = e.metric ∧ e'.seqnum = e.seqnum

theorem SameRoute.rank (h : SameRoute e e') : e'.rank = e.rank := by
  unfold RtableEnt.rank
  rw [h.2.1, h.2.2]

/-- What holds of the entry of `d`: only a destination without a route has a queue, and no route to the
agent itself is newer than its own number. -/
structure EntOk (n : Agent) (d : ℕ) (e : RtableEnt) : Prop where
  metric : e.metric ≤ big
  queue : ∀ q, e.q = some q → e.metric = big ∧ ∀ p ∈ q, p.dst = d
  own : d = n.myaddr → e.seqnum ≤ n.seqno + 1 ∧ (e.metric ≠ big → e.seqnum ≤ n.seqno)

/-- The invariant of an agent: its table is at least as good as the updates that it sent. -/
structure Sound (n : Agent) : Prop where
  sorted : n.table.Sorted
  entries : ∀ d e, n.table.getEntry d = some e → EntOk n d e
  updates : ∀ u ∈ n.updates, (u.map (·.dst)).Nodup ∧ ∀ x ∈ u, x.metric ≤ big ∧
    ∃ e, n.table.getEntry x.dst = some e ∧ Acyclic.rank x.seqnum x.metric ≤ e.rank

structure Grows (L : ℕ → RtableEnt → Prop) (n n' : Agent) : Prop where
  myaddr : n'.myaddr = n.myaddr
  better : ∀ d e, n.table.getEntry d = some e → ∃ e', n'.table.getEntry d = some e' ∧ e.rank ≤ e'.rank
  routes : ∀ d e', n'.table.getEntry d = some e' → e'.metric ≠ big → d ≠ n.myaddr →
    (∃ e, n.table.getEntry d = some e ∧ SameRoute e e') ∨ L d e'

theorem Grows.trans (hL : ∀ d e e', SameRoute e e' → L d e → L d e') (h : Grows L n n')
    (h' : Grows L n' n'') : Grows L n n'' where
  myaddr := h'.myaddr.trans h.myaddr
  better d e he := by
    obtain ⟨e', he', hle⟩ := h.better d e he
    obtain ⟨e'', he'', hle'⟩ := h'.better d e' he'
    exact ⟨e'', he'', hle.trans hle'⟩
  routes d e'' he'' hmetric hd := by
    rcases h'.routes d e'' he'' hmetric (h.myaddr ▸ hd) with ⟨e', he', hsame'⟩ | hnew
    · rcases h.routes d e' he' (hsame'.2.1 ▸ hmetric) hd with ⟨e, he, hsame⟩ | hnew
      · exact .inl ⟨e, he, hsame'.1.trans hsame.1, hsame'.2.1.trans hsame.2.1,
          hsame'.2.2.trans hsame.2.2⟩
      · exact .inr (hL d e' e'' hsame' hnew)
    · exact .inr hnew

theorem Sound.change (h : Sound n) (hmyaddr : n'.myaddr = n.myaddr) (hseqno : n'.seqno = n.seqno)
    (hupdates : n'.updates = n.updates) (hsorted : n'.table.Sorted)
    (hnew : ∀ d e', n'.table.getEntry d = some e' → EntOk n d e' ∧
      ((∃ e, n.table.getEntry d = some e ∧ SameRoute e e') ∨ e'.metric = big ∨ L d e'))
    (hold : ∀ d e, n.table.getEntry d = some e →
      ∃ e', n'.table.getEntry d = some e' ∧ e.rank ≤ e'.rank) : Sound n' ∧ Grows L n n' := by
  refine ⟨⟨hsorted, fun d e' he' => ?_, fun u hu => ?_⟩, hmyaddr, hold, fun d e' he' hmetric _ => ?_⟩
  · have hok := (hnew d e' he').1
    exact ⟨hok.metric, hok.queue, by rw [hmyaddr, hseqno]; exact hok.own⟩
  · rw [hupdates] at hu
    obtain ⟨hnodup, hx⟩ := h.updates u hu
    refine ⟨hnodup, fun x hxu => ?_⟩
    obtain ⟨hle, e, he, hrank⟩ := hx x hxu
    obtain ⟨e', he', hrank'⟩ := hold x.dst e he
    exact ⟨hle, e', he', hrank.trans hrank'⟩
  · rcases (hnew d e' he').2 with hsame | hbig | hlearnt
    · exact .inl hsame
    · exact absurd hbig hmetric
    · exact .inr hlearnt

theorem Sound.send (h : Sound n) (hmyaddr : n'.myaddr = n.myaddr) (hseqno : n'.seqno = n.seqno)
    (hupdates : n'.updates = n.updates) (htable : n'.table = n.table) : Sound n' ∧ Grows L n n' := by
  refine h.change hmyaddr hseqno hupdates (htable ▸ h.sorted) (fun d e he => ?_) (fun d e he => ?_)
  · rw [htable] at he
    exact ⟨h.entries d e he, .inl ⟨e, he, rfl, rfl, rfl⟩⟩
  · rw [htable]
    exact ⟨e, he, le_rfl⟩

theorem Sound.modify (h : Sound n) (hdst : ∀ e, e.dst = dst → (f e).dst = dst)
    (hf : ∀ e, n.table.getEntry dst = some e → SameRoute e (f e) ∧
      ∀ q, (f e).q = some q → e.metric = big ∧ ∀ p ∈ q, p.dst = dst) :
    Sound { n with table := n.table.modify dst f } ∧
      Grows L n { n with table := n.table.modify dst f } := by
  refine h.change rfl rfl rfl (h.sorted.modify hdst) (fun d e' he' => ?_) (fun d e he => ?_)
  · rw [RoutingTable.getEntry_modify hdst] at he'
    by_cases hd : d = dst
    · rw [if_pos hd] at he'
      obtain ⟨e, he, rfl⟩ := Option.map_eq_some_iff.mp he'
      obtain ⟨hsame, hqueue⟩ := hf e (hd ▸ he)
      have hok := h.entries d e he
      refine ⟨⟨?_, ?_, ?_⟩, .inl ⟨e, he, hsame⟩⟩
      · rw [hsame.2.1]
        exact hok.metric
      · rw [hsame.2.1, hd]
        exact hqueue
      · rw [hsame.2.1, hsame.2.2]
        exact hok.own
    · rw [if_neg hd] at he'
      exact ⟨h.entries d e' he', .inl ⟨e', he', rfl, rfl, rfl⟩⟩
  · rw [RoutingTable.getEntry_modify hdst]
    by_cases hd : d = dst
    · rw [if_pos hd, he]
      exact ⟨f e, rfl, (hf e (hd ▸ he)).1.rank.ge⟩
    · rw [if_neg hd]
      exact ⟨e, he, le_rfl⟩

theorem Sound.flag (h : Sound n) (hdst : ∀ e, e.dst = dst → (f e).dst = dst)
    (hf : ∀ e, SameRoute e (f e) ∧ (f e).q = e.q) :
    Sound { n with table := n.table.modify dst f } ∧
      Grows L n { n with table := n.table.modify dst f } := by
  refine h.modify hdst (fun e he => ⟨(hf e).1, fun q hq => ?_⟩)
  rw [(hf e).2] at hq
  exact (h.entries dst e he).queue q hq

theorem Sound.put (h : Sound n) (hmyaddr : n'.myaddr = n.myaddr) (hseqno : n'.seqno = n.seqno)
    (hupdates : n'.updates = n.updates) (hsorted : n'.table.Sorted)
    (hget : ∀ d, n'.table.getEntry d = if d = ent.dst then some ent else n.table.getEntry d)
    (hok : EntOk n ent.dst ent) (hbetter : ∀ e, n.table.getEntry ent.dst = some e → e.rank ≤ ent.rank)
    (hroute : ent.metric = big ∨ L ent.dst ent) : Sound n' ∧ Grows L n n' := by
  refine h.change hmyaddr hseqno hupdates hsorted (fun d e' he' => ?_) (fun d e he => ?_)
  · rw [hget] at he'
    by_cases hd : d = ent.dst
    · rw [if_pos hd] at he'
      obtain rfl := Option.some.inj he'
      rw [hd]
      exact ⟨hok, .inr hroute⟩
    · rw [if_neg hd] at he'
      exact ⟨h.entries d e' he', .inl ⟨e', he', rfl, rfl, rfl⟩⟩
  · rw [hget]
    by_cases hd : d = ent.dst
    · rw [if_pos hd]
      exact ⟨ent, rfl, hbetter e (hd ▸ he)⟩
    · rw [if_neg hd]
      exact ⟨e, he, le_rfl⟩

theorem Sound.addEntry (h : Sound n) (hok : EntOk n ent.dst ent)
    (hbetter : ∀ e, n.table.getEntry ent.dst = some e → e.rank ≤ ent.rank)
    (hroute : ent.metric = big ∨ L ent.dst ent) :
    Sound { n with table := n.table.addEntry ent } ∧
      Grows L n { n with table := n.table.addEntry ent } :=
  h.put rfl rfl rfl h.sorted.addEntry (fun _ => RoutingTable.getEntry_addEntry) hok hbetter hroute

/-! ## Data packets and lost neighbours -/

theorem forwardPacket_sound (h : Sound n) :
    Sound (n.forwardPacket now p) ∧ Grows L n (n.forwardPacket now p) := by
  unfold Agent.forwardPacket
  cases hroute : n.route p.dst with
  | some prte => exact h.send rfl rfl rfl rfl
  | none =>
    dsimp only
    split
    · cases n.route n.baseStn with
      | some prte => exact h.send rfl rfl rfl rfl
      | none => exact h.send rfl rfl rfl rfl
    split
    · -- the packet is queued for a destination without a route
      refine h.modify (fun _ he => he) (fun e he => ⟨⟨rfl, rfl, rfl⟩, fun q hq => ?_⟩)
      have hbig : e.metric = big := by
        unfold Agent.route at hroute
        rw [he, Option.filter_some] at hroute
        by_contra hne
        rw [if_pos (by simpa using hne)] at hroute
        cases hroute
      refine ⟨hbig, fun x hx => ?_⟩
      obtain rfl := Option.some.inj hq
      rcases mem_append.mp (mem_of_mem_drop hx) with hx | hx
      · cases hold : e.q with
        | none =>
          rw [hold] at hx
          cases hx
        | some q =>
          rw [hold] at hx
          exact ((h.entries _ e he).queue q hold).2 x hx
      · rw [mem_singleton.mp hx]
    · rename_i hnone
      rw [Bool.not_eq_true, Option.isSome_eq_false_iff, Option.isNone_iff_eq_none] at hnone
      refine h.addEntry ⟨le_rfl, fun q hq => ⟨rfl, fun x hx => ?_⟩, fun _ => ⟨Nat.zero_le _, fun _ => Nat.zero_le _⟩⟩
        (fun e he => ?_) (.inl rfl)
      · obtain rfl := Option.some.inj hq
        rw [mem_singleton.mp hx]
        rfl
      · change n.table.getEntry p.dst = some e at he
        rw [hnone] at he
        cases he

theorem recv_sound (h : Sound n) : Sound (n.recv now p) ∧ Grows L n (n.recv now p) := by
  unfold Agent.recv
  split
  · split
    · exact forwardPacket_sound h
    · exact h.send rfl rfl rfl rfl
  · split
    · exact h.send rfl rfl rfl rfl
    · exact forwardPacket_sound h

theorem helperCallback_sound {hop : ℕ} (hL : ∀ d e e', SameRoute e e' → L d e → L d e')
    (h : Sound n) :
    Sound (n.helperCallback now hop) ∧ Grows L n (n.helperCallback now hop) := by
  have hdst : ∀ e, (Agent.lose now hop e).dst = e.dst := by
    intro e
    unfold Agent.lose
    split <;> rfl
  -- a route that is lost gets the next number
  have hlose : ∀ d e, n.table.getEntry d = some e → EntOk n d (Agent.lose now hop e) ∧
      (SameRoute e (Agent.lose now hop e) ∨ (Agent.lose now hop e).metric = big) ∧
      e.rank ≤ (Agent.lose now hop e).rank := by
    intro d e he
    have hok := h.entries d e he
    unfold Agent.lose
    split
    · rename_i hlost
      refine ⟨⟨le_rfl, fun q hq => ?_, fun hd => ?_⟩, .inr rfl, rank_le_iff.mpr (.inl (Nat.lt_succ_self _))⟩
      · exact absurd (hok.queue q hq).1 hlost.2
      · exact ⟨Nat.succ_le_succ ((hok.own hd).2 hlost.2), fun hne => absurd rfl hne⟩
    · exact ⟨hok, .inl ⟨rfl, rfl, rfl⟩, le_rfl⟩
  have hmap : Sound { n with table := n.table.map (Agent.lose now hop) } ∧
      Grows L n { n with table := n.table.map (Agent.lose now hop) } := by
    refine h.change rfl rfl rfl (h.sorted.map hdst) (fun d e' he' => ?_) (fun d e he => ?_)
    · rw [RoutingTable.getEntry_map hdst] at he'
      obtain ⟨e, he, rfl⟩ := Option.map_eq_some_iff.mp he'
      obtain ⟨hok, hsame, -⟩ := hlose d e he
      exact ⟨hok, hsame.imp (fun hs => ⟨e, he, hs⟩) .inl⟩
    · rw [RoutingTable.getEntry_map hdst, he]
      exact ⟨_, rfl, (hlose d e he).2.2⟩
  obtain ⟨hsound, hgrows⟩ := hmap
  obtain ⟨hsound', hgrows'⟩ := @NetSim.Dsdv.Sound.flag hop (fun e => { e with timeoutEvent := false }) _ L hsound (fun _ he => he) (fun _ => ⟨⟨rfl, rfl, rfl⟩, rfl⟩)
  exact ⟨hsound', hgrows.trans hL hgrows'⟩

theorem lostLink_sound {hop : ℕ} (hL : ∀ d e e', SameRoute e e' → L d e → L d e') (h : Sound n) :
    Sound (n.lostLink now p hop) ∧ Grows L n (n.lostLink now p hop) := by
  unfold Agent.lostLink
  split
  · split
    · obtain ⟨hsound, hgrows⟩ := @helperCallback_sound _ _ now hop hL h
      obtain ⟨hsound', hgrows'⟩ := @recv_sound _ L now p hsound
      exact ⟨hsound', hgrows.trans hL hgrows'⟩
    · exact recv_sound h
  · exact h.send rfl rfl rfl rfl

/-! ## Updates are sent -/

theorem renew_sound (h : Sound n) : Sound (n.renew now) ∧ Grows L n (n.renew now) := by
  have hget : ∀ d, (n.renew now).table.getEntry d =
      if d = n.myaddr then some ((n.renew now).freshEnt now) else n.table.getEntry d := by
    intro d
    exact RoutingTable.getEntry_addEntry
  have hold : ∀ d e, n.table.getEntry d = some e →
      ∃ e', (n.renew now).table.getEntry d = some e' ∧ e.rank ≤ e'.rank := by
    intro d e he
    rw [hget]
    by_cases hd : d = n.myaddr
    · rw [if_pos hd]
      refine ⟨_, rfl, rank_le_iff.mpr (.inl ?_)⟩
      have hown := ((h.entries d e he).own hd).1
      change e.seqnum < n.seqno + 2
      omega
    · rw [if_neg hd]
      exact ⟨e, he, le_rfl⟩
  refine ⟨⟨h.sorted.addEntry, fun d e' he' => ?_, fun u hu => ?_⟩, rfl, hold, fun d e' he' hmetric hd => ?_⟩
  · rw [hget] at he'
    by_cases hd : d = n.myaddr
    · rw [if_pos hd] at he'
      obtain rfl := Option.some.inj he'
      exact ⟨Nat.zero_le _, fun q hq => (by cases hq), fun _ => ⟨Nat.le_succ _, fun _ => le_rfl⟩⟩
    · rw [if_neg hd] at he'
      have hok := h.entries d e' he'
      exact ⟨hok.metric, hok.queue, fun heq => absurd heq hd⟩
  · obtain ⟨hnodup, hx⟩ := h.updates u hu
    refine ⟨hnodup, fun x hxu => ?_⟩
    obtain ⟨hle, e, he, hrank⟩ := hx x hxu
    obtain ⟨e', he', hrank'⟩ := hold x.dst e he
    exact ⟨hle, e', he', hrank.trans hrank'⟩
  · rw [hget, if_neg hd] at he'
    exact .inl ⟨e', he', rfl, rfl, rfl⟩

theorem advertise_sound {periodic : Bool} (h : Sound n) :
    Sound (n.advertise now periodic) ∧ Grows L n (n.advertise now periodic) := by
  have hsame : ∀ e, (Agent.advertised now periodic e).dst = e.dst ∧
      SameRoute e (Agent.advertised now periodic e) ∧ (Agent.advertised now periodic e).q = e.q := by
    intro e
    unfold Agent.advertised
    split <;> exact ⟨rfl, ⟨rfl, rfl, rfl⟩, rfl⟩
  have hget : ∀ d, (n.advertise now periodic).table.getEntry d =
      (n.table.getEntry d).map (Agent.advertised now periodic) :=
    fun d => RoutingTable.getEntry_map (fun e => (hsame e).1)
  have hold : ∀ d e, n.table.getEntry d = some e →
      ∃ e', (n.advertise now periodic).table.getEntry d = some e' ∧ e.rank ≤ e'.rank := by
    intro d e he
    rw [hget, he]
    exact ⟨_, rfl, (hsame e).2.1.rank.ge⟩
  refine ⟨⟨h.sorted.map (fun e => (hsame e).1), fun d e' he' => ?_, fun u hu => ?_⟩, rfl, hold,
    fun d e' he' _ _ => ?_⟩
  · rw [hget] at he'
    obtain ⟨e, he, rfl⟩ := Option.map_eq_some_iff.mp he'
    have hok := h.entries d e he
    obtain ⟨-, ⟨-, hmetric, hseqnum⟩, hq⟩ := hsame e
    refine ⟨?_, ?_, ?_⟩
    · rw [hmetric]
      exact hok.metric
    · rw [hmetric, hq]
      exact hok.queue
    · rw [hmetric, hseqnum]
      exact hok.own
  · rcases mem_append.mp hu with hu | hu
    · obtain ⟨hnodup, hx⟩ := h.updates u hu
      refine ⟨hnodup, fun x hxu => ?_⟩
      obtain ⟨hle, e, he, hrank⟩ := hx x hxu
      obtain ⟨e', he', hrank'⟩ := hold x.dst e he
      exact ⟨hle, e', he', hrank.trans hrank'⟩
    · rw [mem_singleton.mp hu]
      constructor
      · rw [map_map]
        have hlt : (n.table.filter (Agent.goes now periodic)).Pairwise (fun e e' => e.dst < e'.dst) :=
          List.Pairwise.sublist filter_sublist h.sorted
        refine pairwise_map.mpr (hlt.imp (fun hlt => ?_))
        exact ne_of_lt hlt
      · intro x hx
        obtain ⟨e, he, rfl⟩ := mem_map.mp hx
        have hmem := h.sorted.getEntry (mem_filter.mp he).1
        obtain ⟨e', he', hrank'⟩ := hold e.dst e hmem
        exact ⟨(h.entries e.dst e hmem).metric, e', he', hrank'⟩
  · rw [hget] at he'
    obtain ⟨e, he, rfl⟩ := Option.map_eq_some_iff.mp he'
    exact .inl ⟨e, he, (hsame e).2.1⟩

theorem makeUpdate_sound {periodic : Bool} (hL : ∀ d e e', SameRoute e e' → L d e → L d e')
    (h : Sound n) : Sound (n.makeUpdate now periodic) ∧ Grows L n (n.makeUpdate now periodic) := by
  unfold Agent.makeUpdate
  dsimp only
  split
  · obtain ⟨hsound, hgrows⟩ := @renew_sound _ L now h
    split
    · exact ⟨hsound, hgrows⟩
    · obtain ⟨hsound', hgrows'⟩ := @advertise_sound _ L now true hsound
      exact ⟨hsound', hgrows.trans hL hgrows'⟩
  · split
    · exact h.send rfl rfl rfl rfl
    · exact advertise_sound h

/-! ## Updates are received -/

variable {a : Advert} {src : ℕ}

theorem modify_id (t : RoutingTable) (d : ℕ) : t.modify d id = t := by
  unfold RoutingTable.modify
  simp

/-- **The decision**: the candidate is taken when it is better, else only flags change. -/
theorem decideRoute_cases (n : Agent) (now : ℚ) (c : RtableEnt) :
    (∃ rte, n.decideRoute now c = ({ n with table := n.table.addEntry rte }, rte) ∧
      rte.dst = c.dst ∧ SameRoute c rte ∧ rte.q = c.q ∧
      ∀ e, n.table.getEntry c.dst = some e → e.rank ≤ c.rank) ∨
    ∃ f e, n.decideRoute now c = ({ n with table := n.table.modify c.dst f }, c) ∧
      (∀ e, (f e).dst = e.dst ∧ SameRoute e (f e) ∧ (f e).q = e.q) ∧
      n.table.getEntry c.dst = some e ∧
      (e.seqnum = c.seqnum ∧ e.metric ≤ c.metric ∨ c.seqnum < e.seqnum) := by
  have hid : ∀ e : RtableEnt, (id e).dst = e.dst ∧ SameRoute e (id e) ∧ (id e).q = e.q :=
    fun e => ⟨rfl, ⟨rfl, rfl, rfl⟩, rfl⟩
  have hkeep : (n, c) = ({ n with table := n.table.modify c.dst id }, c) := by
    rw [modify_id]
  unfold Agent.decideRoute
  cases hget : n.table.getEntry c.dst with
  | none =>
    refine .inl ⟨_, rfl, ?_, ?_, ?_, fun e he => by cases he⟩
    · split <;> rfl
    · split <;> exact ⟨rfl, rfl, rfl⟩
    · split <;> rfl
  | some e =>
    dsimp only
    by_cases heq : e.seqnum = c.seqnum
    · rw [if_pos heq]
      by_cases hlt : c.metric < e.metric
      · rw [if_pos hlt]
        refine .inl ⟨_, rfl, rfl, ⟨rfl, rfl, rfl⟩, rfl, fun e' he' => ?_⟩
        obtain rfl := Option.some.inj he'
        exact rank_le_iff.mpr (.inr ⟨heq, hlt.le⟩)
      · rw [if_neg hlt]
        exact .inr ⟨id, e, hkeep, hid, rfl, .inl ⟨heq, not_lt.mp hlt⟩⟩
    rw [if_neg heq]
    by_cases hlt : e.seqnum < c.seqnum
    · rw [if_pos hlt]
      refine .inl ⟨_, rfl, rfl, ⟨rfl, rfl, rfl⟩, rfl, fun e' he' => ?_⟩
      obtain rfl := Option.some.inj he'
      exact rank_le_iff.mpr (.inl hlt)
    rw [if_neg hlt]
    have hold : c.seqnum < e.seqnum := by omega
    split
    · exact .inr ⟨_, e, rfl, fun e => ⟨rfl, ⟨rfl, rfl, rfl⟩, rfl⟩, rfl, .inr hold⟩
    · exact .inr ⟨id, e, hkeep, hid, rfl, .inr hold⟩

theorem recv_route (hroute : n.route p.dst = some e) :
    ∃ forwarded, n.recv now p = { n with forwarded := forwarded } := by
  have hforward : ∀ ttl : ℤ, ∃ forwarded,
      n.forwardPacket now { p with ttl := ttl } = { n with forwarded := forwarded } := by
    intro ttl
    unfold Agent.forwardPacket
    rw [hroute]
    exact ⟨_, rfl⟩
  unfold Agent.recv
  split
  · split
    · exact hforward _
    · exact ⟨n.forwarded, rfl⟩
  · split
    · exact ⟨n.forwarded, rfl⟩
    · exact hforward _

/-- The loop over the queue of a destination with a route ends, and sends or drops every packet. -/
theorem flush_spec {fuel : ℕ} {q : List DataPacket} (he : n.table.getEntry d = some e)
    (hmetric : e.metric ≠ big) (hq : e.q = some q) (hdst : ∀ p ∈ q, p.dst = d)
    (hfuel : q.length < fuel) :
    ∃ t forwarded, Agent.flush now d fuel n = some { n with table := t, forwarded := forwarded } ∧
      (n.table.Sorted → t.Sorted) ∧ ∀ x, x ≠ d → t.getEntry x = n.table.getEntry x := by
  induction q generalizing n e fuel with
  | nil =>
    obtain ⟨m, rfl⟩ : ∃ m, fuel = m + 1 := ⟨fuel - 1, by omega⟩
    rw [Agent.flush, he, Option.bind_some, hq]
    exact ⟨n.table, n.forwarded, rfl, id, fun _ _ => rfl⟩
  | cons p q ih =>
    rw [length_cons] at hfuel
    obtain ⟨m, rfl⟩ : ∃ m, fuel = m + 1 := ⟨fuel - 1, by omega⟩
    rw [Agent.flush, he, Option.bind_some, hq]
    dsimp only
    -- the queue without its first packet
    let f : RtableEnt → RtableEnt := fun e => { e with q := some q }
    have hf : ∀ e, e.dst = d → (f e).dst = d := fun _ h => h
    have hget : (n.table.modify d f).getEntry d = some (f e) := by
      rw [RoutingTable.getEntry_modify hf, if_pos rfl, he]
      rfl
    have hroute : Agent.route { n with table := n.table.modify d f } p.dst = some (f e) := by
      unfold Agent.route
      rw [hdst p mem_cons_self]
      rw [hget, Option.filter_some, if_pos (by simpa using hmetric)]
    obtain ⟨forwarded, hrecv⟩ := @recv_route _ _ now _ hroute
    rw [hrecv]
    obtain ⟨t, forwarded', hflush, hsorted, hother⟩ :=
      @ih _ { n with table := n.table.modify d f, forwarded := forwarded } m hget
        hmetric rfl (fun p hp => hdst p (mem_cons_of_mem _ hp)) (by omega)
    refine ⟨t, forwarded', hflush, fun h => hsorted (h.modify hf), fun x hx => ?_⟩
    rw [hother x hx]
    rw [RoutingTable.getEntry_modify hf, if_neg hx]

theorem length_lt_rounds (q : List DataPacket) : q.length < Agent.rounds q := by
  unfold Agent.rounds
  induction q with
  | nil => exact Nat.zero_lt_one
  | cons p q ih =>
    rw [map_cons, sum_cons, length_cons]
    omega

theorem candidate_q {q : List DataPacket} (h : (n.candidate now src a).q = some q) :
    ∃ e, n.table.getEntry a.dst = some e ∧ e.q = some q := by
  have hq : ((n.table.getEntry a.dst).getD RtableEnt.zero).q = some q := h
  cases hget : n.table.getEntry a.dst with
  | none =>
    rw [hget] at hq
    cases hq
  | some e =>
    rw [hget] at hq
    exact ⟨e, rfl, hq⟩

def Careful (n : Agent) (a : Advert) : Prop :=
  ∀ e, n.table.getEntry a.dst = some e → e.q ≠ none → a.seqnum < e.seqnum → big ≤ a.metric + 1

theorem processAdvert_sound (h : Sound n) (ha : a.metric ≤ big) (hcareful : Careful n a)
    (hlearn : ∀ e : RtableEnt, e.hop = src → e.seqnum = a.seqnum → e.metric = a.metric + 1 →
      L a.dst e) :
    ∃ n', n.processAdvert now src a = some n' ∧ Sound n' ∧ Grows L n n' ∧
      ∀ d, d ≠ a.dst → n'.table.getEntry d = n.table.getEntry d := by
  unfold Agent.processAdvert
  by_cases hself : a.dst = n.myaddr
  · rw [if_pos hself]
    obtain ⟨hsound, hgrows⟩ := @NetSim.Dsdv.Sound.send _ n L h rfl rfl rfl rfl
    exact ⟨n, rfl, hsound, hgrows, fun _ _ => rfl⟩
  rw [if_neg hself]
  dsimp only
  generalize hc : n.candidate now src a = c
  have hcdst : c.dst = a.dst := by rw [← hc]; rfl
  have hchop : c.hop = src := by rw [← hc]; rfl
  have hcseqnum : c.seqnum = a.seqnum := by rw [← hc]; rfl
  have hcmetric : c.metric = if a.metric ≠ big then a.metric + 1 else a.metric := by rw [← hc]; rfl
  have hcq : ∀ q, c.q = some q → ∃ e, n.table.getEntry a.dst = some e ∧ e.q = some q := by
    rw [← hc]
    exact fun q => candidate_q
  have hle : c.metric ≤ big := by
    rw [hcmetric]
    split
    · omega
    · exact ha
  have hroute : ∀ e : RtableEnt, SameRoute c e → e.metric = big ∨ L a.dst e := by
    intro e hsame
    by_cases hbig : e.metric = big
    · exact .inl hbig
    right
    have hne : a.metric ≠ big := by
      intro heq
      rw [hsame.2.1, hcmetric, if_neg (not_not.mpr heq)] at hbig
      exact hbig heq
    refine hlearn e (hsame.1.trans hchop) (hsame.2.2.trans hcseqnum) ?_
    rw [hsame.2.1, hcmetric, if_pos hne]
  rcases decideRoute_cases n now c with ⟨rte, hdecide, hdst, hsame, hq, hbetter⟩ |
      ⟨f, e, hdecide, hf, hget, hold⟩
  · -- the candidate is taken, with the queue or without it
    have hput : ∀ (ent : RtableEnt) (n' : Agent), ent.dst = a.dst → SameRoute c ent →
        (∀ q, ent.q = some q → ent.metric = big ∧ ∀ p ∈ q, p.dst = a.dst) →
        n'.myaddr = n.myaddr → n'.seqno = n.seqno → n'.updates = n.updates → n'.table.Sorted →
        (∀ d, n'.table.getEntry d = if d = a.dst then some ent else n.table.getEntry d) →
        Sound n' ∧ Grows L n n' := by
      intro ent n' hent hsame' hqueue hmyaddr hseqno hupdates hsorted hget
      refine h.put hmyaddr hseqno hupdates hsorted (hent ▸ hget) ?_ (fun e he => ?_) ?_
      · rw [hent]
        exact ⟨hsame'.2.1 ▸ hle, hqueue, fun heq => absurd heq hself⟩
      · rw [hsame'.rank]
        refine hbetter e ?_
        rw [hcdst, ← hent]
        exact he
      · rw [hent]
        exact hroute ent hsame'
    have hget : ∀ d, (n.table.addEntry rte).getEntry d =
        if d = a.dst then some rte else n.table.getEntry d := by
      intro d
      rw [RoutingTable.getEntry_addEntry, hdst, hcdst]
    rw [hdecide]
    cases hrq : rte.q with
    | none =>
      obtain ⟨hsound, hgrows⟩ := hput rte { n with table := n.table.addEntry rte }
        (hdst.trans hcdst) hsame (fun q hq' => by rw [hrq] at hq'; cases hq') rfl rfl rfl
        h.sorted.addEntry hget
      exact ⟨_, rfl, hsound, hgrows, fun d hd => (hget d).trans (if_neg hd)⟩
    | some q =>
      obtain ⟨e, he, heq⟩ := hcq q (hq ▸ hrq)
      have hqdst := ((h.entries _ e he).queue q heq).2
      dsimp only
      by_cases hbig : rte.metric ≠ big
      · rw [if_pos hbig]
        obtain ⟨t, forwarded, hflush, hsorted, hother⟩ := @flush_spec _ _ ({ n with table := n.table.addEntry rte }) now _ _ ((hget a.dst).trans (if_pos rfl)) hbig hrq hqdst (length_lt_rounds q)
        rw [hflush]
        have hget' : ∀ d, (t.addEntry { rte with q := none }).getEntry d =
            if d = a.dst then some { rte with q := none } else n.table.getEntry d := by
          intro d
          rw [RoutingTable.getEntry_addEntry]
          rw [hdst, hcdst]
          by_cases hd : d = a.dst
          · rw [if_pos hd, if_pos hd]
          · rw [if_neg hd, if_neg hd, hother d hd]
            exact (hget d).trans (if_neg hd)
        obtain ⟨hsound, hgrows⟩ := hput { rte with q := none }
          { n with table := t.addEntry { rte with q := none }, forwarded := forwarded }
          (hdst.trans hcdst) hsame (fun q hq' => by cases hq') rfl rfl rfl
          (hsorted h.sorted.addEntry).addEntry hget'
        exact ⟨_, rfl, hsound, hgrows, fun d hd => (hget' d).trans (if_neg hd)⟩
      · rw [if_neg hbig]
        rw [not_not] at hbig
        obtain ⟨hsound, hgrows⟩ := hput rte { n with table := n.table.addEntry rte }
          (hdst.trans hcdst) hsame
          (fun q' hq' => ⟨hbig, by rw [hrq] at hq'; cases hq'; exact hqdst⟩) rfl rfl rfl
          h.sorted.addEntry hget
        exact ⟨_, rfl, hsound, hgrows, fun d hd => (hget d).trans (if_neg hd)⟩
  · -- only flags change
    rw [hdecide]
    have hfdst : ∀ e, e.dst = c.dst → (f e).dst = c.dst := fun e he => (hf e).1.trans he
    obtain ⟨hsound, hgrows⟩ := h.flag (L := L) hfdst (fun e => (hf e).2)
    have hother : ∀ d, d ≠ a.dst → (n.table.modify c.dst f).getEntry d = n.table.getEntry d := by
      intro d hd
      rw [RoutingTable.getEntry_modify hfdst, if_neg (hcdst.symm ▸ hd)]
    cases hrq : c.q with
    | none => exact ⟨_, rfl, hsound, hgrows, hother⟩
    | some q =>
      -- an entry with a queue has no route, so neither has the candidate
      have hbig : c.metric = big := by
        obtain ⟨e', he', heq⟩ := hcq q hrq
        rw [hcdst, he'] at hget
        obtain rfl := Option.some.inj hget
        have hebig := ((h.entries _ e' he').queue q heq).1
        rcases hold with ⟨-, hmetric⟩ | hlt
        · omega
        · have hcond := hcareful e' he' (by rw [heq]; exact Option.some_ne_none q) (hcseqnum ▸ hlt)
          rw [hcmetric]
          split
          · omega
          · omega
      dsimp only
      rw [if_neg (not_not.mpr hbig)]
      exact ⟨_, rfl, hsound, hgrows, hother⟩

theorem Grows.refl (L : ℕ → RtableEnt → Prop) (n : Agent) : Grows L n n :=
  ⟨rfl, fun _ e he => ⟨e, he, le_rfl⟩, fun _ e he _ _ => .inl ⟨e, he, rfl, rfl, rfl⟩⟩

theorem processAdverts_sound {adverts : List Advert}
    (hL : ∀ d e e', SameRoute e e' → L d e → L d e') (h : Sound n)
    (hle : ∀ x ∈ adverts, x.metric ≤ big) (hnodup : (adverts.map (·.dst)).Nodup)
    (hcareful : ∀ x ∈ adverts, Careful n x)
    (hlearn : ∀ x ∈ adverts, ∀ e : RtableEnt, e.hop = src → e.seqnum = x.seqnum →
      e.metric = x.metric + 1 → L x.dst e) :
    ∃ n', Agent.processAdverts now src adverts n = some n' ∧ Sound n' ∧ Grows L n n' := by
  induction adverts generalizing n with
  | nil => exact ⟨n, rfl, h, Grows.refl L n⟩
  | cons x adverts ih =>
    rw [map_cons, nodup_cons] at hnodup
    obtain ⟨n₁, hone, hsound, hgrows, hother⟩ := @processAdvert_sound _ _ now _ _ h (hle x mem_cons_self) (hcareful x mem_cons_self) (hlearn x mem_cons_self)
    -- the other destinations are as before
    have hcareful' : ∀ y ∈ adverts, Careful n₁ y := by
      intro y hy e he
      have hne : y.dst ≠ x.dst := fun heq => hnodup.1 (heq ▸ mem_map_of_mem hy)
      rw [hother y.dst hne] at he
      exact hcareful y (mem_cons_of_mem _ hy) e he
    obtain ⟨n', hrest, hsound', hgrows'⟩ := ih hsound
      (fun y hy => hle y (mem_cons_of_mem _ hy)) hnodup.2 hcareful'
      (fun y hy => hlearn y (mem_cons_of_mem _ hy))
    refine ⟨n', ?_, hsound', hgrows.trans hL hgrows'⟩
    rw [Agent.processAdverts, hone]
    exact hrest

theorem keepNeighbor_sound (hfake : ∀ e : RtableEnt, e.hop = src → L src e) (h : Sound n) :
    Sound (n.keepNeighbor now src) ∧ Grows L n (n.keepNeighbor now src) := by
  unfold Agent.keepNeighbor
  split
  · exact h.flag (fun _ he => he) (fun _ => ⟨⟨rfl, rfl, rfl⟩, rfl⟩)
  · rename_i hnone
    rw [Bool.not_eq_true, Option.isSome_eq_false_iff, Option.isNone_iff_eq_none] at hnone
    refine h.addEntry ⟨(by decide : 1 ≤ big), fun q hq => (by cases hq), fun _ => ⟨Nat.zero_le _, fun _ => Nat.zero_le _⟩⟩
      (fun e he => ?_) (.inr (hfake _ rfl))
    change n.table.getEntry src = some e at he
    rw [hnone] at he
    cases he

theorem processUpdate_sound {adverts : List Advert}
    (hL : ∀ d e e', SameRoute e e' → L d e → L d e') (h : Sound n)
    (hle : ∀ x ∈ adverts, x.metric ≤ big) (hnodup : (adverts.map (·.dst)).Nodup)
    (hcareful : ∀ x ∈ adverts, Careful n x)
    (hlearn : ∀ x ∈ adverts, ∀ e : RtableEnt, e.hop = src → e.seqnum = x.seqnum →
      e.metric = x.metric + 1 → L x.dst e) (hfake : ∀ e : RtableEnt, e.hop = src → L src e) :
    ∃ n', n.processUpdate now src adverts = some n' ∧ Sound n' ∧ Grows L n n' := by
  have hsub := take_subset (adverts.length % 256) adverts
  obtain ⟨n₁, hall, hsound, hgrows⟩ := @processAdverts_sound _ _ now _ _ hL h (fun x hx => hle x (hsub hx)) (hnodup.sublist ((take_sublist _ _).map _)) (fun x hx => hcareful x (hsub hx)) (fun x hx => hlearn x (hsub hx))
  obtain ⟨hsound', hgrows'⟩ := @keepNeighbor_sound _ _ now _ hfake hsound
  refine ⟨_, ?_, hsound', hgrows.trans hL hgrows'⟩
  unfold Agent.processUpdate
  rw [hall]
  rfl

end NetSim.Dsdv
