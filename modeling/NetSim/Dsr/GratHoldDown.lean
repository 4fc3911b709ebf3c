import Mathlib
import NetSim.Dsr.RequestTable

/-! # DSR: gratuitous replies are held down

`sendRouteShortening` (`dsr/dsragent.cc`) keeps the routes it answered last in a ring, with the time of
the answer, and does not answer again within `grat_hold_down_time`. When it records a route it sets the
time in the slot behind that of the route: the route has the time at which the route before it was
recorded, and once the ring is full the time of another route is lost. So the replies are held down as long
as no more than nine routes are recorded, and no route is asked for soon after its recording but late after
that of the route before it (`replies_held_down`).

The ring holds the last ten recordings (`Table`).
-/

namespace NetSim.Dsr

open Function List

abbrev rtrepHoldoffSize : ℕ := 10

def gratHoldDownTime : ℚ := 1

structure GratReplyHoldDown where
  t : ℚ
  p : List ID

/-- The part of a `DSRAgent` that sends gratuitous replies. -/
structure GratHold where
  netId : ID
  gratHold : ℕ → GratReplyHoldDown
  gratHoldVictim : ℕ

/-- A call of `sendRouteShortening`: the route of the packet and its index, and the places where it was
heard and where it would have come to the node. -/
structure Overheard where
  now : ℚ
  route : List ID
  index : ℕ
  heardAt : ℕ
  xmitAt : ℕ
  nonempty : route ≠ []

structure GratReply where
  dest : ID
  src : ID
  route : List ID
  replyAddrs : List ID
deriving DecidableEq

namespace GratHold

def init (netId : ID) : GratHold where
  netId := netId
  gratHold := fun _ => ⟨0, []⟩
  gratHoldVictim := 0

def findGratHoldDown (hd : ℕ → GratReplyHoldDown) (query : List ID) : Option ℕ :=
  (List.range rtrepHoldoffSize).find? (fun c => (hd c).p = query)

/-- `Path::removeSection`. -/
def removeSection (route : List ID) (first last : ℕ) : List ID :=
  if last ≤ first then route else route.take first ++ route.drop last

/-- The reply: the shortened route goes back along the part of the route that the packet took. -/
def shortened (netId : ID) (c : Overheard) : GratReply where
  dest := c.route.head c.nonempty
  src := netId
  route := removeSection (c.route.set c.index netId).reverse 0 (c.route.length - 1 - c.index)
  replyAddrs := removeSection c.route c.heardAt c.xmitAt

/-- `sendRouteShortening`: the reply, if there is one. -/
def sendRouteShortening (s : GratHold) (c : Overheard) : GratHold × Option GratReply :=
  match findGratHoldDown s.gratHold c.route with
  | none =>
    let gratHold := update s.gratHold s.gratHoldVictim
      { s.gratHold s.gratHoldVictim with p := c.route }
    let g := (s.gratHoldVictim + 1) % rtrepHoldoffSize
    ({ s with gratHold := update gratHold g { gratHold g with t := c.now }
              gratHoldVictim := g },
      some (shortened s.netId c))
  | some g =>
    if c.now - (s.gratHold g).t < gratHoldDownTime then (s, none)
    else
      ({ s with gratHold := update s.gratHold g { s.gratHold g with t := c.now } },
        some (shortened s.netId c))

def after (s : GratHold) (calls : List Overheard) : GratHold :=
  calls.foldl (fun s c => (s.sendRouteShortening c).1) s

def Records (s : GratHold) (c : Overheard) : Prop := findGratHoldDown s.gratHold c.route = none

instance (s : GratHold) (c : Overheard) : Decidable (s.Records c) :=
  inferInstanceAs (Decidable (_ = _))

def Replies (s : GratHold) (c : Overheard) : Prop := (s.sendRouteShortening c).2.isSome = true

instance (s : GratHold) (c : Overheard) : Decidable (s.Replies c) :=
  inferInstanceAs (Decidable (_ = _))

/-- The calls that record a route. -/
def recordings (s : GratHold) : List Overheard → List Overheard
  | [] => []
  | c :: calls =>
    (if s.Records c then [c] else []) ++ recordings (s.sendRouteShortening c).1 calls

/-- While the calls `mid` are handled the entry of the route is overwritten, and as many other routes are
recorded as the ring has slots. -/
def Evicted (s : GratHold) (past mid : List Overheard) (r : List ID) : Prop :=
  (∃ mid₁ c mid₂, mid = mid₁ ++ c :: mid₂ ∧ (s.after (past ++ mid₁)).Records c ∧
    ((s.after (past ++ mid₁)).gratHold (s.after (past ++ mid₁)).gratHoldVictim).p = r) ∧
  rtrepHoldoffSize ≤ ((s.after past).recordings mid).countP (fun c => c.route ≠ r)

/-- **Gratuitous replies are held down**: two replies for a route are apart, unless its entry was evicted
between them; and recording a route leaves the times of the other routes alone. -/
structure HeldDown (s : GratHold) (calls : List Overheard) : Prop where
  apart : ∀ past c₁ mid c₂ rest, calls = past ++ c₁ :: mid ++ c₂ :: rest → c₁.route = c₂.route →
    (s.after past).Replies c₁ → (s.after (past ++ c₁ :: mid)).Replies c₂ →
    c₂.now - c₁.now < gratHoldDownTime → s.Evicted (past ++ [c₁]) mid c₁.route
  stamps : ∀ past c rest, calls = past ++ c :: rest → (s.after past).Records c →
    ∀ i < rtrepHoldoffSize, i ≠ (s.after past).gratHoldVictim → ((s.after past).gratHold i).p ≠ [] →
      ((s.after (past ++ [c])).gratHold i).t = ((s.after past).gratHold i).t

/-- A call that the wrong slot does no harm to: when it records its route, the slot behind the victim is
still free; when its route was recorded less than `grat_hold_down_time` ago, so was the one before it. -/
structure Harmless (s : GratHold) (past : List Overheard) (c : Overheard) : Prop where
  free : (s.after past).Records c → (s.recordings past).length + 1 < rtrepHoldoffSize
  due : ∀ k < (s.recordings past).length, ∀ first ∈ (s.recordings past)[k]?, first.route = c.route →
    c.now - first.now < gratHoldDownTime →
      0 < k ∧ ∀ before ∈ (s.recordings past)[k - 1]?, c.now - before.now < gratHoldDownTime

instance (s : GratHold) (past : List Overheard) (c : Overheard) : Decidable (Harmless s past c) :=
  decidable_of_iff (_ ∧ _) ⟨fun h => ⟨h.1, h.2⟩, fun h => ⟨h.free, h.due⟩⟩

def AllHarmless (s : GratHold) (calls : List Overheard) : Prop :=
  ∀ past c rest, calls = past ++ c :: rest → Harmless s past c

/-! ## The ring holds the last recordings -/

/-- The slots hold the last recordings, which have different routes. -/
structure Table (l : List Overheard) (s : GratHold) : Prop where
  victim : s.gratHoldVictim = l.length % 10
  holds : ∀ (k : ℕ) (c : Overheard), l[k]? = some c → l.length ≤ k + 10 → (s.gratHold (k % 10)).p = c.route
  free : ∀ i, l.length ≤ i → i < 10 → (s.gratHold i).p = []
  distinct : ∀ (k k' : ℕ) (c c' : Overheard), l[k]? = some c → l[k']? = some c' → l.length ≤ k + 10 →
    l.length ≤ k' + 10 → c.route = c'.route → k = k'

variable {s : GratHold} {l : List Overheard} {calls past : List Overheard} {c c' : Overheard}
  {i k g : ℕ} {r : List ID} {netId : ID}

theorem table_init (netId : ID) : Table [] (init netId) where
  victim := rfl
  holds := fun _ _ h => by cases h
  free := fun _ _ _ => rfl
  distinct := fun _ _ _ _ h => by cases h

theorem find_some (h : findGratHoldDown s.gratHold r = some g) : g < 10 ∧ (s.gratHold g).p = r := by
  have hmem := mem_range.mp (mem_of_find?_eq_some h)
  have hp := find?_some h
  exact ⟨hmem, of_decide_eq_true hp⟩

theorem Table.slot (h : Table l s) (hi : i < 10) :
    (l.length ≤ i ∧ (s.gratHold i).p = []) ∨
      ∃ k c, l[k]? = some c ∧ l.length ≤ k + 10 ∧ k % 10 = i ∧ (s.gratHold i).p = c.route := by
  by_cases hfree : l.length ≤ i
  · exact Or.inl ⟨hfree, h.free i hfree hi⟩
  · have hk : l.length - 1 - (l.length - 1 - i) % 10 < l.length := by omega
    refine Or.inr ⟨_, _, getElem?_eq_getElem hk, by omega, by omega, ?_⟩
    rw [← h.holds _ _ (getElem?_eq_getElem hk) (by omega)]
    congr 2
    omega

theorem Table.find (h : Table l s) (hk : l[k]? = some c) (hlast : l.length ≤ k + 10) :
    findGratHoldDown s.gratHold c.route = some (k % 10) := by
  have hp := h.holds k c hk hlast
  cases hfind : findGratHoldDown s.gratHold c.route with
  | none =>
    have hnone := find?_eq_none.mp hfind (k % 10) (mem_range.mpr (Nat.mod_lt _ (by decide)))
    exact absurd (decide_eq_true hp) hnone
  | some g =>
    obtain ⟨hg, hpg⟩ := find_some hfind
    rcases h.slot hg with ⟨-, hfree⟩ | ⟨k', c', hk', hlast', hg', hp'⟩
    · exact absurd (hpg.symm.trans hfree) c.nonempty
    · have heq := h.distinct k' k c' c hk' hk hlast' hlast (hp'.symm.trans hpg)
      rw [← hg', heq]

theorem Table.of_found (h : Table l s) (hfind : findGratHoldDown s.gratHold c.route = some g) :
    ∃ k first, l[k]? = some first ∧ l.length ≤ k + 10 ∧ k % 10 = g ∧ first.route = c.route := by
  obtain ⟨hg, hp⟩ := find_some hfind
  rcases h.slot hg with ⟨-, hfree⟩ | ⟨k, first, hk, hlast, hmod, hp'⟩
  · exact absurd (hp.symm.trans hfree) c.nonempty
  · exact ⟨k, first, hk, hlast, hmod, hp'.symm.trans hp⟩

/-! ## One call -/

/-- What a recording does: the route in the slot of the victim, the time in the one behind it. -/
theorem send_records (h : s.Records c) :
    (s.sendRouteShortening c).1.gratHoldVictim = (s.gratHoldVictim + 1) % 10 ∧
      (s.gratHoldVictim < 10 → ∀ i,
        ((s.sendRouteShortening c).1.gratHold i).p =
          (if i = s.gratHoldVictim then c.route else (s.gratHold i).p) ∧
        ((s.sendRouteShortening c).1.gratHold i).t =
          (if i = (s.gratHoldVictim + 1) % 10 then c.now else (s.gratHold i).t)) ∧
      s.Replies c := by
  have hfind : findGratHoldDown s.gratHold c.route = none := h
  unfold Replies sendRouteShortening
  rw [hfind]
  refine ⟨rfl, fun hlt i => ?_, rfl⟩
  dsimp only
  have hne : (s.gratHoldVictim + 1) % rtrepHoldoffSize ≠ s.gratHoldVictim := by
    show (s.gratHoldVictim + 1) % 10 ≠ s.gratHoldVictim
    omega
  by_cases hg : i = (s.gratHoldVictim + 1) % rtrepHoldoffSize
  · rw [hg, update_self, update_of_ne hne, if_neg hne, if_pos rfl]
    exact ⟨rfl, rfl⟩
  · rw [update_of_ne hg, if_neg hg]
    by_cases hv : i = s.gratHoldVictim
    · rw [hv, update_self, if_pos rfl]
      exact ⟨rfl, rfl⟩
    · rw [update_of_ne hv, if_neg hv]
      exact ⟨rfl, rfl⟩

theorem send_found (h : findGratHoldDown s.gratHold c.route = some g) :
    (s.sendRouteShortening c).1.gratHoldVictim = s.gratHoldVictim ∧
      (∀ i, ((s.sendRouteShortening c).1.gratHold i).p = (s.gratHold i).p) ∧
      (∀ i, i ≠ g → ((s.sendRouteShortening c).1.gratHold i).t = (s.gratHold i).t) ∧
      (s.Replies c ↔ ¬ c.now - (s.gratHold g).t < gratHoldDownTime) ∧
      (s.Replies c → ((s.sendRouteShortening c).1.gratHold g).t = c.now) ∧
      (¬ s.Replies c → (s.sendRouteShortening c).1 = s) := by
  unfold Replies sendRouteShortening
  rw [h]
  dsimp only
  by_cases hheld : c.now - (s.gratHold g).t < gratHoldDownTime
  · rw [if_pos hheld]
    refine ⟨rfl, fun _ => rfl, fun _ _ => rfl, ?_, ?_, fun _ => rfl⟩
    · simp [hheld]
    · intro hreply
      cases hreply
  · rw [if_neg hheld]
    refine ⟨rfl, fun i => ?_, fun i hi => ?_, ?_, fun _ => ?_, ?_⟩
    · dsimp only
      by_cases hi : i = g
      · rw [hi, update_self]
      · rw [update_of_ne hi]
    · dsimp only
      rw [update_of_ne hi]
    · simp [hheld]
    · dsimp only
      rw [update_self]
    · intro hreply
      exact absurd rfl hreply

theorem Table.victim_lt (h : Table l s) : s.gratHoldVictim < 10 := by
  rw [h.victim]
  exact Nat.mod_lt _ (by decide)

theorem Table.send (h : Table l s) (c : Overheard) :
    Table (l ++ if s.Records c then [c] else []) (s.sendRouteShortening c).1 := by
  by_cases hrec : s.Records c
  · obtain ⟨hvictim, hslots, -⟩ := send_records hrec
    have hslots := hslots h.victim_lt
    have hnew : ∀ (k : ℕ) (c' : Overheard), l[k]? = some c' → l.length ≤ k + 10 → c'.route ≠ c.route := by
      intro k c' hk hlast heq
      have hfind := h.find hk hlast
      rw [heq] at hfind
      rw [Records, hfind] at hrec
      cases hrec
    have hlength : (l ++ [c]).length = l.length + 1 := length_append
    rw [if_pos hrec]
    constructor
    · rw [hvictim, h.victim, hlength]
      omega
    · intro k c' hk hlast
      rw [(hslots _).1]
      by_cases hkl : k < l.length
      · rw [getElem?_append_left hkl] at hk
        rw [if_neg (by rw [h.victim]; omega)]
        exact h.holds k c' hk (by omega)
      · rw [getElem?_append_right (by omega), getElem?_singleton] at hk
        split at hk
        · cases hk
          rw [if_pos (by rw [h.victim]; congr 1; omega)]
        · cases hk
    · intro i hle hi
      rw [(hslots i).1, if_neg (by rw [h.victim]; omega)]
      exact h.free i (by omega) hi
    · intro k k' c₁ c₂ hk hk' hlast hlast' heq
      have hcases : ∀ (k : ℕ) (c' : Overheard), (l ++ [c])[k]? = some c' →
          (k < l.length ∧ l[k]? = some c') ∨ (k = l.length ∧ c' = c) := by
        intro k c' hk
        by_cases hkl : k < l.length
        · rw [getElem?_append_left hkl] at hk
          exact Or.inl ⟨hkl, hk⟩
        · rw [getElem?_append_right (by omega), getElem?_singleton] at hk
          split at hk
          · cases hk
            exact Or.inr ⟨by omega, rfl⟩
          · cases hk
      rcases hcases k c₁ hk with ⟨-, h₁⟩ | ⟨h₁, rfl⟩
      · rcases hcases k' c₂ hk' with ⟨-, h₂⟩ | ⟨-, rfl⟩
        · exact h.distinct k k' c₁ c₂ h₁ h₂ (by omega) (by omega) heq
        · exact absurd heq (hnew k c₁ h₁ (by omega))
      · rcases hcases k' c₂ hk' with ⟨-, h₂⟩ | ⟨h₂, -⟩
        · exact absurd heq.symm (hnew k' c₂ h₂ (by omega))
        · rw [h₁, h₂]
  · obtain ⟨g, hfind⟩ := Option.ne_none_iff_exists'.mp hrec
    obtain ⟨hvictim, hp, -⟩ := send_found hfind
    rw [if_neg hrec, append_nil]
    refine ⟨hvictim.trans h.victim, fun k c' hk hlast => ?_, fun i hle hi => ?_, h.distinct⟩
    · rw [hp]
      exact h.holds k c' hk hlast
    · rw [hp]
      exact h.free i hle hi

/-! ## Runs -/

theorem after_append (s : GratHold) (l l' : List Overheard) :
    s.after (l ++ l') = (s.after l).after l' := by
  rw [after, after, after, foldl_append]

theorem after_concat (s : GratHold) (l : List Overheard) (c : Overheard) :
    s.after (l ++ [c]) = ((s.after l).sendRouteShortening c).1 := by
  rw [after_append]
  rfl

theorem recordings_append (s : GratHold) (l l' : List Overheard) :
    s.recordings (l ++ l') = s.recordings l ++ (s.after l).recordings l' := by
  induction l generalizing s with
  | nil => rfl
  | cons c l ih =>
    rw [cons_append, recordings, recordings, ih, append_assoc]
    rfl

theorem recordings_concat (s : GratHold) (l : List Overheard) (c : Overheard) :
    s.recordings (l ++ [c]) = s.recordings l ++ if (s.after l).Records c then [c] else [] := by
  rw [recordings_append, recordings, recordings, append_nil]

theorem table_after (netId : ID) (calls : List Overheard) :
    Table ((init netId).recordings calls) ((init netId).after calls) := by
  induction calls using List.reverseRecOn with
  | nil => exact table_init netId
  | append_singleton calls c ih =>
    rw [recordings_concat, after_concat]
    exact ih.send c

theorem mem_of_recorded (h : c ∈ s.recordings calls) : c ∈ calls := by
  induction calls generalizing s with
  | nil => exact h
  | cons c' calls ih =>
    rcases mem_append.mp h with h | h
    · split at h
      · rw [mem_singleton.mp h]
        exact mem_cons_self
      · exact absurd h not_mem_nil
    · exact mem_cons_of_mem _ (ih h)

/-! ## Runs of harmless calls -/

theorem AllHarmless.before {rest : List Overheard} (h : AllHarmless s (calls ++ rest)) : AllHarmless s calls := by
  intro past c rest' hcalls
  exact h past c (rest' ++ rest) (by rw [hcalls, append_assoc, cons_append])

theorem AllHarmless.last (h : AllHarmless s (calls ++ [c])) : Harmless s calls c := h calls c [] rfl

/-- The ring is never full. -/
theorem AllHarmless.length_lt (h : AllHarmless s calls) : (s.recordings calls).length < 10 := by
  induction calls using List.reverseRecOn with
  | nil => exact Nat.zero_lt_succ 9
  | append_singleton calls c ih =>
    rw [recordings_concat, length_append]
    split
    · rename_i hrec
      exact h.last.free hrec
    · exact ih h.before

/-- A route finds its slot with the time at which the route before it was recorded, or a later one. -/
theorem stamps_after (h : AllHarmless (init netId) calls)
    (hnow : calls.Pairwise (fun c c' => c.now ≤ c'.now)) {before : Overheard}
    (hk : ((init netId).recordings calls)[k]? = some before) :
    before.now ≤ (((init netId).after calls).gratHold (k + 1)).t := by
  induction calls using List.reverseRecOn with
  | nil => cases hk
  | append_singleton calls c ih =>
    have htable := table_after netId calls
    have hbefore := h.before.length_lt
    obtain ⟨hnow', -, hlast⟩ := pairwise_append.mp hnow
    rw [recordings_concat] at hk
    rw [after_concat]
    by_cases hrec : ((init netId).after calls).Records c
    · have hfree := h.last.free hrec
      have hlength : ((init netId).recordings calls).length + 1 < 10 := hfree
      rw [((send_records hrec).2.1 htable.victim_lt _).2, htable.victim]
      rw [if_pos hrec] at hk
      by_cases hkl : k < ((init netId).recordings calls).length
      · rw [getElem?_append_left hkl] at hk
        rw [if_neg (by omega)]
        exact ih h.before hnow' hk
      · rw [getElem?_append_right (by omega), getElem?_singleton] at hk
        split at hk
        · cases hk
          rw [if_pos (by omega)]
        · cases hk
    · rw [if_neg hrec, append_nil] at hk
      obtain ⟨g, hfind⟩ := Option.ne_none_iff_exists'.mp hrec
      obtain ⟨-, -, hother, -, hreply, hheld⟩ := send_found hfind
      by_cases hanswered : ((init netId).after calls).Replies c
      · by_cases hg : k + 1 = g
        · rw [hg, hreply hanswered]
          exact hlast _ (mem_of_recorded (mem_of_getElem? hk)) c mem_cons_self
        · rw [hother _ hg]
          exact ih h.before hnow' hk
      · rw [hheld hanswered]
        exact ih h.before hnow' hk

/-- What the ring knows of a route that was answered by the call `c₁`. -/
def Kept (netId : ID) (c₁ : Overheard) (past : List Overheard) : Prop :=
  ∃ k first, ((init netId).recordings past)[k]? = some first ∧ first.route = c₁.route ∧
    (first.now = c₁.now ∨ c₁.now ≤ (((init netId).after past).gratHold k).t)

theorem kept_start (h : AllHarmless (init netId) past) (hreply : ((init netId).after past).Replies c) :
    Kept netId c (past ++ [c]) := by
  have htable := table_after netId past
  by_cases hrec : ((init netId).after past).Records c
  · refine ⟨((init netId).recordings past).length, c, ?_, rfl, Or.inl rfl⟩
    rw [recordings_concat, if_pos hrec, getElem?_concat_length]
  · obtain ⟨g, hfind⟩ := Option.ne_none_iff_exists'.mp hrec
    obtain ⟨k, first, hk, -, hmod, hroute⟩ := htable.of_found hfind
    have hlt : k < 10 := (List.getElem?_eq_some_iff.mp hk).1.trans h.length_lt
    rw [Nat.mod_eq_of_lt hlt] at hmod
    refine ⟨k, first, ?_, hroute, Or.inr ?_⟩
    · rw [recordings_concat, if_neg hrec, append_nil]
      exact hk
    · rw [after_concat, hmod, (send_found hfind).2.2.2.2.1 hreply]

theorem Kept.send {c₁ : Overheard} (h : Kept netId c₁ past) (hnow : c₁.now ≤ c.now) :
    Kept netId c₁ (past ++ [c]) := by
  obtain ⟨k, first, hk, hroute, htime⟩ := h
  have htable := table_after netId past
  have hlt : k < ((init netId).recordings past).length := (List.getElem?_eq_some_iff.mp hk).1
  refine ⟨k, first, ?_, hroute, ?_⟩
  · rw [recordings_concat, getElem?_append_left hlt]
    exact hk
  · rw [after_concat]
    by_cases hrec : ((init netId).after past).Records c
    · rw [((send_records hrec).2.1 htable.victim_lt _).2]
      split
      · exact Or.inr hnow
      · exact htime
    · obtain ⟨g, hfind⟩ := Option.ne_none_iff_exists'.mp hrec
      obtain ⟨-, -, hother, -, hreply, hheld⟩ := send_found hfind
      by_cases hg : k = g
      · by_cases hanswered : ((init netId).after past).Replies c
        · rw [hg, hreply hanswered]
          exact Or.inr hnow
        · rw [hheld hanswered]
          exact htime
      · rw [hother _ hg]
        exact htime

theorem kept_run {c₁ : Overheard} {mid : List Overheard} (h : Kept netId c₁ past)
    (hnow : ∀ c ∈ mid, c₁.now ≤ c.now) : Kept netId c₁ (past ++ mid) := by
  induction mid using List.reverseRecOn with
  | nil => rwa [append_nil]
  | append_singleton mid c ih =>
    have hbefore : Kept netId c₁ (past ++ mid) := ih (fun c' hc' => hnow c' (mem_append_left _ hc'))
    rw [← append_assoc]
    exact hbefore.send (hnow c (mem_append_right _ mem_cons_self))

/-- A route that was answered is held down. -/
theorem held_down {c₁ c₂ : Overheard} {mid : List Overheard}
    (hharmless : AllHarmless (init netId) (past ++ c₁ :: mid ++ [c₂]))
    (hnow : (past ++ c₁ :: mid).Pairwise (fun c c' => c.now ≤ c'.now)) (hroute : c₁.route = c₂.route)
    (hfirst : ((init netId).after past).Replies c₁) (hgap : c₂.now - c₁.now < gratHoldDownTime) :
    ¬ ((init netId).after (past ++ c₁ :: mid)).Replies c₂ := by
  have hlater : ∀ c ∈ mid, c₁.now ≤ c.now := (pairwise_cons.mp (pairwise_append.mp hnow).2.1).1
  have hbefore : AllHarmless (init netId) (past ++ c₁ :: mid) := hharmless.before
  have hkept : Kept netId c₁ (past ++ c₁ :: mid) := by
    have h := kept_run (kept_start hbefore.before hfirst) hlater
    rwa [append_assoc] at h
  obtain ⟨k, first, hk, hfirst', htime⟩ := hkept
  have hlt := (List.getElem?_eq_some_iff.mp hk).1
  have hlength := hbefore.length_lt
  have hfind : findGratHoldDown ((init netId).after (past ++ c₁ :: mid)).gratHold c₂.route = some k := by
    rw [← hroute, ← hfirst', (table_after netId _).find hk (by omega), Nat.mod_eq_of_lt (by omega)]
  rw [(send_found hfind).2.2.2.1, not_not]
  rcases htime with htime | htime
  · -- answered by its recording: the time in its slot is that of the route before it
    obtain ⟨hpos, hdue⟩ := hharmless.last.due k hlt first hk (hfirst'.trans hroute) (by rwa [htime])
    have hlt' : k - 1 < ((init netId).recordings (past ++ c₁ :: mid)).length := by omega
    have hstamp := stamps_after hbefore hnow (getElem?_eq_getElem hlt')
    rw [Nat.sub_add_cancel hpos] at hstamp
    calc c₂.now - (((init netId).after (past ++ c₁ :: mid)).gratHold k).t
        ≤ c₂.now - ((init netId).recordings (past ++ c₁ :: mid))[k - 1].now := sub_le_sub_left hstamp _
      _ < gratHoldDownTime := hdue _ (getElem?_eq_getElem hlt')
  · calc c₂.now - (((init netId).after (past ++ c₁ :: mid)).gratHold k).t
        ≤ c₂.now - c₁.now := sub_le_sub_left htime _
      _ < gratHoldDownTime := hgap

/-- **Replies are held down** in the runs of harmless calls. -/
theorem replies_held_down (netId : ID) (calls : List Overheard)
    (hnow : calls.Pairwise (fun c c' => c.now ≤ c'.now)) (hharmless : AllHarmless (init netId) calls) :
    HeldDown (init netId) calls := by
  constructor
  · intro past c₁ mid c₂ rest hcalls hroute hfirst hsecond hgap
    rw [hcalls] at hnow
    rw [hcalls, append_cons _ c₂ rest] at hharmless
    exact absurd hsecond (held_down hharmless.before (pairwise_append.mp hnow).1 hroute hfirst hgap)
  · intro past c rest hcalls hrec i hi hne hused
    have htable := table_after netId past
    have hlength : ((init netId).recordings past).length + 1 < 10 := (hharmless past c rest hcalls).free hrec
    rw [after_concat, ((send_records hrec).2.1 htable.victim_lt i).2, if_neg]
    -- the slot behind the victim is free
    rintro rfl
    rw [htable.victim] at hused
    exact hused (htable.free _ (by omega) (Nat.mod_lt _ (by decide)))

/-- A call for the route from node 1 to node `n`, which the node overhears. -/
def overhear (now : ℚ) (n : ℕ) : Overheard :=
  ⟨now, [ID.ofIP 1, ID.ofIP 2, ID.ofIP 9, ID.ofIP n], 1, 1, 2, by simp⟩

/-- A second route is recorded half a second after the first one, asked for again, and held down; then the
first one is answered again. -/
theorem replies_held_down_two :
    HeldDown (init (ID.ofIP 9))
      [overhear 2 3, overhear (5 / 2) 4, overhear (11 / 4) 4, overhear (7 / 2) 3] := by
  apply replies_held_down
  · norm_num [overhear]
  · intro past c rest h
    rcases past with _ | ⟨c₁, _ | ⟨c₂, _ | ⟨c₃, _ | ⟨c₄, past⟩⟩⟩⟩
    · cases h
      decide +kernel
    · cases h
      decide +kernel
    · cases h
      decide +kernel
    · cases h
      decide +kernel
    · simp at h

/-- A route is answered twice within half a second, with nothing between. -/
theorem replied_twice :
    ¬ HeldDown (init (ID.ofIP 9)) [overhear 2 3, overhear (5 / 2) 3] := by
  intro h
  have hreply : ((init (ID.ofIP 9)).after []).Replies (overhear 2 3) ∧
      ((init (ID.ofIP 9)).after [overhear 2 3]).Replies (overhear (5 / 2) 3) := by
    constructor <;> decide +kernel
  obtain ⟨⟨mid₁, c, mid₂, hmid, -⟩, -⟩ := h.apart [] (overhear 2 3) [] (overhear (5 / 2) 3) [] rfl rfl
    hreply.1 hreply.2 (by norm_num [overhear, gratHoldDownTime])
  cases mid₁ <;> cases hmid

end GratHold

end NetSim.Dsr
