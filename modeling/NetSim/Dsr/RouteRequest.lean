import NetSim.Dsr.RequestTable
import NetSim.Lib.Runs

/-! # DSR: route requests

A `DSRAgent` (`dsr/dsragent.cc`) records the number of a route request before it answers or passes it on,
and ignores a request whose number is not above the recorded one. So it passes every request on at most
once (`rtreq_once`), unless an old request for the node itself arrives late: `handlePacketReceipt` records
its number in any case.
-/

namespace NetSim.Dsr

open List

def maxSRLen : ℕ := 16

structure RouteRequest where
  src : ℕ
  rtreqSeq : ℤ
  maxPropagation : ℤ
  route : List ID
deriving DecidableEq

/-- The part of a `DSRAgent` that handles route requests. -/
structure DSRAgent where
  netId : ID
  MACId : ID
  replyOnlyToFirstRtreq : Bool
  replyFromCacheOnPropagating : Bool
  requestTable : RequestTable

inductive Action
  | ignored
  | replied (src : ℕ) (rtreqSeq : ℤ)
  | dropped
  | rebroadcast (src : ℕ) (rtreqSeq : ℤ) (route : List ID)
  | returned (src : ℕ) (rtreqSeq : ℤ)
  | none
deriving DecidableEq

def full (route : List ID) : Bool := maxSRLen ≤ route.length

def member (route : List ID) (netId MACId : ID) : Bool :=
  route.any (fun id => id = netId ∨ id = MACId)

namespace DSRAgent

def ignoreRouteRequestp (a : DSRAgent) (p : RouteRequest) : Bool :=
  p.rtreqSeq ≤ a.requestTable.get (ID.ofIP p.src) || member p.route a.netId a.MACId || full p.route

def record (a : DSRAgent) (p : RouteRequest) : DSRAgent :=
  { a with requestTable := a.requestTable.insert (ID.ofIP p.src) (ID.ofIP p.src) p.rtreqSeq }

/-- `handleRouteRequest`, where `cached` is what `replyFromRouteCache` returns. -/
def handleRouteRequest (a : DSRAgent) (p : RouteRequest) (cached : Bool) : DSRAgent × Action :=
  if a.ignoreRouteRequestp p then (a, .ignored)
  else
    let a := a.record p
    if (p.maxPropagation = 0 ∨ a.replyFromCacheOnPropagating) ∧ cached then
      (a, .replied p.src p.rtreqSeq)
    else if p.maxPropagation < p.route.length then (a, .dropped)
    else if full p.route then (a, .dropped)
    else (a, .rebroadcast p.src p.rtreqSeq (p.route ++ [a.netId]))

/-- `handlePacketReceipt`, for a route request. -/
def handlePacketReceipt (a : DSRAgent) (p : RouteRequest) : DSRAgent × Action :=
  if a.replyOnlyToFirstRtreq && a.ignoreRouteRequestp p then (a, .ignored)
  else (a.record p, .returned p.src p.rtreqSeq)

/-- The entry that `getRouteForPacket` and `acceptRouteReply` use for a node. -/
def getEntry (a : DSRAgent) (node : ℕ) : DSRAgent :=
  { a with requestTable := (a.requestTable.getEntry (ID.ofIP node)).1 }

end DSRAgent

inductive Event
  | forOthers (p : RouteRequest) (cached : Bool)
  | forUs (p : RouteRequest)
  | entry (node : ℕ)

/-- The node whose entry the event uses. -/
def Event.node : Event → ℕ
  | .forOthers p _ => p.src
  | .forUs p => p.src
  | .entry node => node

def step (a : DSRAgent) : Event → Option (DSRAgent × Action)
  | .forOthers p cached => some (a.handleRouteRequest p cached)
  | .forUs p => some (a.handlePacketReceipt p)
  | .entry node => some (a.getEntry node, .none)

def Action.handled : Action → Option (ℕ × ℤ)
  | .ignored => Option.none
  | .replied src seq => some (src, seq)
  | .dropped => Option.none
  | .rebroadcast src seq _ => some (src, seq)
  | .returned _ _ => Option.none
  | .none => Option.none

def InTurn (a : DSRAgent) : Event → Prop
  | .forOthers _ _ => True
  | .forUs p => a.replyOnlyToFirstRtreq = false → a.requestTable.get (ID.ofIP p.src) ≤ p.rtreqSeq
  | .entry _ => True

/-! ## One event -/

variable {a a' a₀ : DSRAgent} {p : RouteRequest} {all : List ℕ} {o : Action} {os os' : List Action}

def Room (all : List ℕ) (a : DSRAgent) : Prop :=
  all.length < a.requestTable.size ∧ ∃ nodes, a.requestTable.Rep nodes ∧ ∀ n ∈ nodes, n ∈ all

def DSRAgent.reqNum (a : DSRAgent) (n : ℕ) : ℤ := a.requestTable.get (ID.ofIP n)

theorem mem_nodes {nodes : List ℕ} {n : ℕ} (hsub : ∀ m ∈ nodes, m ∈ all) (hn : n ∈ all) :
    ∀ m ∈ (if n ∈ nodes then nodes else nodes ++ [n]), m ∈ all := by
  intro m hm
  split at hm
  · exact hsub m hm
  · rcases mem_append.mp hm with hm | hm
    · exact hsub m hm
    · rw [mem_singleton.mp hm]
      exact hn

theorem insert_size (t : RequestTable) (n : ℕ) (k : ℤ) :
    (t.insert (ID.ofIP n) (ID.ofIP n) k).size = t.size := by
  unfold RequestTable.insert
  dsimp only
  split <;> rfl

theorem getEntry_size (t : RequestTable) (n : ℕ) : (t.getEntry (ID.ofIP n)).1.size = t.size := by
  unfold RequestTable.getEntry
  split <;> rfl

theorem Room.record (h : Room all a) (hp : p.src ∈ all) :
    Room all (a.record p) ∧ (a.record p).reqNum p.src = p.rtreqSeq ∧
      ∀ n, n ≠ p.src → (a.record p).reqNum n = a.reqNum n := by
  obtain ⟨hsize, nodes, hrep, hsub⟩ := h
  obtain ⟨hrep', hself, hother⟩ := hrep.insert (k := p.rtreqSeq)
    (hrep.room_of_subset hsub hp hsize)
  exact ⟨⟨by rw [DSRAgent.record, insert_size]; exact hsize, _, hrep', mem_nodes hsub hp⟩, hself,
    hother⟩

theorem Room.getEntry {n : ℕ} (h : Room all a) (hn : n ∈ all) :
    Room all (a.getEntry n) ∧ ∀ m, (a.getEntry n).reqNum m = a.reqNum m := by
  obtain ⟨hsize, nodes, hrep, hsub⟩ := h
  obtain ⟨hrep', hget⟩ := hrep.getEntry (hrep.room_of_subset hsub hn hsize)
  exact ⟨⟨by rw [DSRAgent.getEntry, getEntry_size]; exact hsize, _, hrep', mem_nodes hsub hn⟩, hget⟩

theorem ignore_of_le (h : p.rtreqSeq ≤ a.reqNum p.src) : a.ignoreRouteRequestp p = true := by
  have hle : p.rtreqSeq ≤ a.requestTable.get (ID.ofIP p.src) := h
  unfold DSRAgent.ignoreRouteRequestp
  rw [decide_eq_true hle, Bool.true_or, Bool.true_or]

/-- **One event**: no number decreases, and a request that is answered or passed on has a number above
the recorded one, which is recorded. -/
theorem step_spec {e : Event} (h : Room all a) (he : e.node ∈ all) (hturn : InTurn a e)
    (hstep : step a e = some (a', o)) :
    Room all a' ∧ (∀ n, a.reqNum n ≤ a'.reqNum n) ∧
      ∀ src seq, o.handled = some (src, seq) → a.reqNum src < seq ∧ a'.reqNum src = seq := by
  have hrecord : ∀ p : RouteRequest, p.src ∈ all → a.reqNum p.src ≤ p.rtreqSeq →
      Room all (a.record p) ∧ ∀ n, a.reqNum n ≤ (a.record p).reqNum n := by
    intro p hp hle
    obtain ⟨hroom, hself, hother⟩ := h.record hp
    refine ⟨hroom, ?_⟩
    intro n
    by_cases hn : n = p.src
    · rw [hn, hself]
      exact hle
    · rw [hother n hn]
  cases e with
  | forOthers p cached =>
    have hhandle : a.handleRouteRequest p cached = (a', o) := Option.some.inj hstep
    unfold DSRAgent.handleRouteRequest at hhandle
    split at hhandle
    · obtain ⟨rfl, rfl⟩ := Prod.mk.inj hhandle
      exact ⟨h, fun n => le_rfl, fun src seq ho => by cases ho⟩
    · rename_i hignore
      have hlt : a.reqNum p.src < p.rtreqSeq := by
        by_contra hle
        exact hignore (ignore_of_le (not_lt.mp hle))
      obtain ⟨-, hself, -⟩ := h.record he
      obtain ⟨hroom, hmono⟩ := hrecord p he (le_of_lt hlt)
      have hmine : ∀ src seq, some (p.src, p.rtreqSeq) = some (src, seq) →
          a.reqNum src < seq ∧ (a.record p).reqNum src = seq := by
        intro src seq ho
        obtain ⟨rfl, rfl⟩ := Prod.mk.inj (Option.some.inj ho)
        exact ⟨hlt, hself⟩
      dsimp only at hhandle
      split at hhandle
      · obtain ⟨rfl, rfl⟩ := Prod.mk.inj hhandle
        exact ⟨hroom, hmono, hmine⟩
      split at hhandle
      · obtain ⟨rfl, rfl⟩ := Prod.mk.inj hhandle
        exact ⟨hroom, hmono, fun src seq ho => by cases ho⟩
      split at hhandle
      · obtain ⟨rfl, rfl⟩ := Prod.mk.inj hhandle
        exact ⟨hroom, hmono, fun src seq ho => by cases ho⟩
      · obtain ⟨rfl, rfl⟩ := Prod.mk.inj hhandle
        exact ⟨hroom, hmono, hmine⟩
  | forUs p =>
    have hhandle : a.handlePacketReceipt p = (a', o) := Option.some.inj hstep
    unfold DSRAgent.handlePacketReceipt at hhandle
    split at hhandle
    · obtain ⟨rfl, rfl⟩ := Prod.mk.inj hhandle
      exact ⟨h, fun n => le_rfl, fun src seq ho => by cases ho⟩
    · rename_i hignore
      have hle : a.reqNum p.src ≤ p.rtreqSeq := by
        cases hfirst : a.replyOnlyToFirstRtreq with
        | false => exact hturn hfirst
        | true =>
          by_contra hlt
          rw [hfirst, ignore_of_le (le_of_lt (not_le.mp hlt))] at hignore
          exact hignore rfl
      obtain ⟨rfl, rfl⟩ := Prod.mk.inj hhandle
      obtain ⟨hroom, hmono⟩ := hrecord p he hle
      exact ⟨hroom, hmono, fun src seq ho => by cases ho⟩
  | entry node =>
    obtain ⟨rfl, rfl⟩ := Prod.mk.inj (Option.some.inj hstep)
    obtain ⟨hroom, hget⟩ := h.getEntry he
    exact ⟨hroom, fun n => le_of_eq (hget n).symm, fun src seq ho => by cases ho⟩

/-! ## Runs -/

structure Once (all : List ℕ) (os : List Action) (a : DSRAgent) : Prop where
  room : Room all a
  below : ∀ src seq, (src, seq) ∈ os.filterMap Action.handled → seq ≤ a.reqNum src
  once : (os.filterMap Action.handled).Nodup

/-- A request that is answered or passed on is recorded in the same step. -/
theorem Once.step {e : Event} (h : Once all os a) (he : e.node ∈ all) (hturn : InTurn a e)
    (hstep : step a e = some (a', o)) : Once all (os ++ [o]) a' := by
  obtain ⟨hroom, hmono, hnew⟩ := step_spec h.room he hturn hstep
  rw [show (os ++ [o] : List Action) = os.concat o from (concat_eq_append ..).symm]
  cases ho : o.handled with
  | none =>
    have hsame : (os.concat o).filterMap Action.handled = os.filterMap Action.handled := by
      rw [concat_eq_append, filterMap_append, filterMap_cons_none ho,
        filterMap_nil, append_nil]
    refine ⟨hroom, ?_, by rw [hsame]; exact h.once⟩
    intro src seq hmem
    rw [hsame] at hmem
    exact (h.below src seq hmem).trans (hmono src)
  | some r =>
    obtain ⟨src₀, seq₀⟩ := r
    obtain ⟨hlt, heq⟩ := hnew src₀ seq₀ ho
    have hmore : (os.concat o).filterMap Action.handled =
        (os.filterMap Action.handled).concat (src₀, seq₀) := by
      rw [concat_eq_append, filterMap_append, filterMap_cons_some ho,
        filterMap_nil, concat_eq_append]
    refine ⟨hroom, ?_, ?_⟩
    · intro src seq hmem
      rw [hmore, concat_eq_append, mem_append, mem_singleton] at hmem
      rcases hmem with hmem | hmem
      · exact (h.below src seq hmem).trans (hmono src)
      · obtain ⟨rfl, rfl⟩ := Prod.mk.inj hmem
        exact le_of_eq heq.symm
    · rw [hmore]
      refine h.once.concat ?_
      intro hmem
      exact absurd (h.below src₀ seq₀ hmem) (not_le.mpr hlt)

/-- **A route request is answered from the cache or passed on at most once, and the recorded numbers never
decrease**, when no request for the node itself is older than the latest one of its source. -/
theorem rtreq_once {size : ℕ} {pre evs : List Event} (hinit : a₀.requestTable = RequestTable.init size)
    (hall : all.length < size) (hnodes : ∀ e ∈ pre ++ evs, e.node ∈ all)
    (hok : Runs.Meets step InTurn a₀ (pre ++ evs)) (hpre : Runs.run step a₀ pre = some (a, os))
    (hrun : Runs.run step a evs = some (a', os')) :
    (∀ n, a.reqNum n ≤ a'.reqNum n) ∧ ((os ++ os').filterMap Action.handled).Nodup := by
  have hstart : Once all [] a₀ := by
    refine ⟨⟨by rw [hinit]; exact hall, [], ?_, by simp⟩, by simp, nodup_nil⟩
    rw [hinit]
    exact RequestTable.rep_init (by omega)
  have hok₁ : Runs.Meets step (fun a e => InTurn a e ∧ e.node ∈ all) a₀ pre :=
    hok.append_left.and_forall (fun e he => hnodes e (mem_append_left _ he))
  have hok₂ : Runs.Meets step (fun a e => InTurn a e ∧ e.node ∈ all) a evs :=
    (hok.append_right hpre).and_forall (fun e he => hnodes e (mem_append_right _ he))
  have honce : Once all os a := by
    have h := @Runs.run_preserves _ _ _ step _ a₀ a pre os [] (Once all)
      (fun os a e a' o h hok hstep => h.step hok.2 hok.1 hstep) hstart hok₁ hpre
    rwa [nil_append] at h
  have hend := @Runs.run_preserves _ _ _ step _ a a' evs os' os
    (fun os a' => Once all os a' ∧ ∀ n, a.reqNum n ≤ a'.reqNum n)
    (fun os a' e a'' o h hok hstep =>
      ⟨h.1.step hok.2 hok.1 hstep,
        fun n => (h.2 n).trans ((step_spec h.1.room hok.2 hok.1 hstep).2.1 n)⟩)
    ⟨honce, fun n => le_rfl⟩ hok₂ hrun
  exact ⟨hend.2, hend.1.once⟩

/-- A node with address 9 that answers from its cache. -/
def nine : DSRAgent where
  netId := ID.ofIP 9
  MACId := invalidAddr
  replyOnlyToFirstRtreq := false
  replyFromCacheOnPropagating := true
  requestTable := RequestTable.init 128

instance decidableInTurn (a : DSRAgent) : ∀ e, Decidable (InTurn a e)
  | .forOthers _ _ => inferInstanceAs (Decidable True)
  | .forUs p => inferInstanceAs (Decidable (a.replyOnlyToFirstRtreq = false →
      a.requestTable.get (ID.ofIP p.src) ≤ p.rtreqSeq))
  | .entry _ => inferInstanceAs (Decidable True)

/-- The requests 4 and 5 of node 1, with a copy, and one of node 2. -/
def requests : List Event :=
  [.entry 2, .forUs ⟨1, 4, 16, [ID.ofIP 1]⟩, .forOthers ⟨1, 5, 16, [ID.ofIP 1]⟩ false,
    .forOthers ⟨2, 1, 16, [ID.ofIP 2]⟩ true, .forOthers ⟨1, 5, 16, [ID.ofIP 1, ID.ofIP 3]⟩ false]

theorem rtreq_once_requests :
    ∃ a' os, Runs.run step nine requests = some (a', os) ∧
      os.filterMap Action.handled = [(1, 5), (2, 1)] ∧
      (os.filterMap Action.handled).Nodup := by
  have hrun : (Runs.run step nine requests).map (fun r => r.2.filterMap Action.handled) =
      some [(1, 5), (2, 1)] := by decide +kernel
  obtain ⟨⟨a', os⟩, heq, hhandled⟩ := Option.map_eq_some_iff.mp hrun
  refine ⟨a', os, heq, hhandled, ?_⟩
  exact (@rtreq_once nine a' nine [1, 2] [] os 128 [] requests rfl (by decide) (by decide)
    (by decide +kernel) rfl heq).2

/-- The request 3 of node 1 for this node arrives after its request 5 for another one, and a copy of
request 5 is passed on again. -/
theorem rtreq_twice :
    ∃ a a' os os', Runs.run step nine [.forOthers ⟨1, 5, 16, [ID.ofIP 1]⟩ false] = some (a, os) ∧
      Runs.run step a [.forUs ⟨1, 3, 16, [ID.ofIP 1]⟩, .forOthers ⟨1, 5, 16, [ID.ofIP 1]⟩ false] =
        some (a', os') ∧
      (os ++ os').filterMap Action.handled = [(1, 5), (1, 5)] ∧
      ∃ b o, step a (.forUs ⟨1, 3, 16, [ID.ofIP 1]⟩) = some (b, o) ∧ ¬ a.reqNum 1 ≤ b.reqNum 1 := by
  refine ⟨_, _, _, _, rfl, rfl, by decide +kernel, _, _, rfl, by decide +kernel⟩

end NetSim.Dsr
