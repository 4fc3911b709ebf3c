import NetSim.LinkState.Routing

/-! # Comparing sequence numbers

`isNewMessage` and `receiveTopo` take a number of 32 bits for newer when it is the larger one or when
the difference is above the threshold. For two numbers at a circular distance below the threshold
this is the circular order except in one case: an older number from before the wrap-around is the
larger one, and is taken for newer (`older_iff_ahead`). A number that a history or a record stores
moves as in a set of registers (`offer`), and while no such number arrives it is the largest count
of those received (`offers_greatest`).
-/

namespace NetSim.LinkState

open Function List

/-! ## The circular order -/

/-- `b` is strictly ahead of `a`, by less than the threshold. -/
def Ahead (a b : UInt32T) : Prop := 0 < (b - a).val ∧ (b - a).val < 2 ^ 30

def Window (a b : UInt32T) : Prop := (b - a).val < 2 ^ 30 ∨ (a - b).val < 2 ^ 30

/-- `b` is behind `a`, and is the larger one: the wrap-around is between them. -/
def BeforeWrap (a b : UInt32T) : Prop := a < b ∧ (a - b).val < 2 ^ 30

instance (a b : UInt32T) : Decidable (Ahead a b) := inferInstanceAs (Decidable (_ ∧ _))

instance (a b : UInt32T) : Decidable (Window a b) := inferInstanceAs (Decidable (_ ∨ _))

instance (a b : UInt32T) : Decidable (BeforeWrap a b) := inferInstanceAs (Decidable (_ ∧ _))

variable {a b : UInt32T}

theorem sub_val : (a - b).val = (2 ^ 32 - b.val + a.val) % 2 ^ 32 := rfl

theorem older_iff : older a b = true ↔ a.val < b.val ∨ 2 ^ 30 < (a - b).val := by
  rw [older, decide_eq_true_iff]
  exact Iff.rfl

theorem Ahead.older (h : Ahead a b) : older a b = true := by
  obtain ⟨hpos, hlt⟩ := h
  rw [sub_val] at hpos hlt
  rw [older_iff, sub_val]
  omega

/-- **The test is the circular order except across the wrap-around.** -/
theorem older_iff_ahead (hw : Window a b) :
    (older a b = true ↔ Ahead a b) ↔ ¬ BeforeWrap a b := by
  rw [older_iff, Ahead, BeforeWrap, Fin.lt_def]
  rw [Window] at hw
  rw [sub_val, sub_val] at *
  omega

/-! ## Registers -/

abbrev Registers := ℤ → Option UInt32T

def offer (numbers : Registers) (m : ℤ × UInt32T) : Registers × Bool :=
  if ∀ stored ∈ numbers m.1, older stored m.2 then (update numbers m.1 (some m.2), true)
  else (numbers, false)

theorem isNewMessage_offer (history : LsMessageHistory) (msg : LsMessage) :
    (history.isNewMessage msg).1.find? =
        (offer history.find? (msg.originNodeId, msg.sequenceNumber)).1 ∧
      (history.isNewMessage msg).2 =
        (offer history.find? (msg.originNodeId, msg.sequenceNumber)).2 := by
  have hset : (history.set msg.originNodeId msg.sequenceNumber).find? =
      update history.find? msg.originNodeId (some msg.sequenceNumber) := by
    funext o
    rw [OrderedMap.find?_set, update_apply]
  unfold LsMessageHistory.isNewMessage offer
  cases hfind : history.find? msg.originNodeId with
  | none =>
    rw [if_pos (by simp)]
    exact ⟨hset, rfl⟩
  | some stored =>
    by_cases hold : older stored msg.sequenceNumber
    · rw [if_pos (by simpa using hold)]
      simp only [hold, if_true]
      exact ⟨hset, trivial⟩
    · simp [hold]

/-! ## Counts

The numbers are those of counters that wrap around: `number t` is what is left of the count `t`. -/

def number (t : ℕ) : UInt32T := ⟨t % 2 ^ 32, Nat.mod_lt _ (by decide)⟩

/-- The largest counts received so far. -/
abbrev Counts := ℤ → Option ℕ

def Counts.raise (top : Counts) (m : ℤ × ℕ) : Counts :=
  update top m.1 (some (max ((top m.1).getD m.2) m.2))

def Counts.numbers (top : Counts) : Registers := fun o => (top o).map number

def InWindow (top : Counts) (m : ℤ × ℕ) : Prop :=
  ∀ t ∈ top m.1, t < m.2 + 2 ^ 30 ∧ m.2 < t + 2 ^ 30 ∧ (t ≤ m.2 ∨ m.2 / 2 ^ 32 = t / 2 ^ 32)

/-- `InWindow` at every step of a list of counts. -/
def AllInWindow : Counts → List (ℤ × ℕ) → Prop
  | _, [] => True
  | top, m :: ms => InWindow top m ∧ AllInWindow (top.raise m) ms

theorem AllInWindow.left {top : Counts} {ms ns : List (ℤ × ℕ)} (h : AllInWindow top (ms ++ ns)) :
    AllInWindow top ms := by
  induction ms generalizing top with
  | nil => trivial
  | cons m ms ih => exact ⟨h.1, ih h.2⟩

theorem number_val {t : ℕ} : (number t).val = t % 2 ^ 32 := rfl

theorem older_number {t c : ℕ} (hle : t < c + 2 ^ 30) (hlt : c < t + 2 ^ 30)
    (hwrap : t ≤ c ∨ c / 2 ^ 32 = t / 2 ^ 32) :
    older (number t) (number c) = true ↔ t < c := by
  rw [older_iff, sub_val, number_val, number_val]
  omega

theorem offer_numbers {top : Counts} {m : ℤ × ℕ} (h : InWindow top m) :
    (offer top.numbers (m.1, number m.2)).1 = (top.raise m).numbers := by
  unfold offer
  have hupdate : ∀ t : ℕ, Counts.numbers (update top m.1 (some t)) =
      update top.numbers m.1 (some (number t)) := by
    intro t
    funext o
    simp only [Counts.numbers, update_apply]
    split_ifs <;> rfl
  cases htop : top m.1 with
  | none =>
    rw [if_pos (by simp [Counts.numbers, htop]), Counts.raise, htop, Option.getD_none, max_self,
      hupdate]
  | some t =>
    obtain ⟨hle, hlt, hwrap⟩ := h t htop
    have hold := older_number hle hlt hwrap
    have hreg : top.numbers m.1 = some (number t) := by rw [Counts.numbers, htop, Option.map_some]
    rw [Counts.raise, htop, Option.getD_some]
    by_cases hc : t < m.2
    · rw [if_pos (by simpa [hreg] using hold.mpr hc), max_eq_right hc.le, hupdate]
    · rw [if_neg (by simpa [hreg] using fun h => hc (hold.mp h)), max_eq_left (not_lt.mp hc),
        hupdate, ← hreg, update_eq_self]

def offers (numbers : Registers) (ms : List (ℤ × ℕ)) : Registers :=
  ms.foldl (fun numbers m => (offer numbers (m.1, number m.2)).1) numbers

theorem offers_cons {numbers : Registers} {m : ℤ × ℕ} {ms : List (ℤ × ℕ)} :
    offers numbers (m :: ms) = offers (offer numbers (m.1, number m.2)).1 ms := by
  rw [offers, foldl_cons, offers]

theorem offers_greatest {top : Counts} {ms : List (ℤ × ℕ)} (h : AllInWindow top ms) :
    offers top.numbers ms = (ms.foldl Counts.raise top).numbers := by
  induction ms generalizing top with
  | nil => rfl
  | cons m ms ih =>
    rw [offers_cons, offer_numbers h.1]
    exact ih h.2

theorem le_raise {top : Counts} {m : ℤ × ℕ} {o : ℤ} {t : ℕ} (h : top o = some t) :
    ∃ t', (top.raise m) o = some t' ∧ t ≤ t' := by
  rw [Counts.raise, update_apply]
  split_ifs with ho
  · refine ⟨_, rfl, ?_⟩
    rw [← ho, h, Option.getD_some]
    exact le_max_left _ _
  · exact ⟨t, h, le_rfl⟩

theorem le_foldl_raise {top : Counts} {ms : List (ℤ × ℕ)} {o : ℤ} {t : ℕ} (h : top o = some t) :
    ∃ t', (ms.foldl Counts.raise top) o = some t' ∧ t ≤ t' := by
  induction ms generalizing top t with
  | nil => exact ⟨t, h, le_rfl⟩
  | cons m ms ih =>
    obtain ⟨t₁, h₁, hle⟩ := @le_raise top m o t h
    obtain ⟨t₂, h₂, hle'⟩ := ih h₁
    exact ⟨t₂, h₂, hle.trans hle'⟩

/-! ## Records of the topology -/

def LsTopoMap.number (topo : LsTopoMap) (o : ℤ) : Option UInt32T :=
  ((topo.find? o).bind List.head?).map LsLinkState.sequenceNumber

namespace LsSystem

variable {s s' : LsSystem} {n m neighborId o : ℤ} {msgId : UInt32T} {topo : LsTopoMap}

def database? (s : LsSystem) (n : ℤ) : Option LsTopoMap :=
  (s.routing? n).map LsRouting.linkStateDatabase

theorem database?_modifyRouting {f : LsRouting → LsRouting}
    (hf : ∀ r, (f r).linkStateDatabase = r.linkStateDatabase) :
    (s.modifyRouting n f).database? m = s.database? m := by
  rw [database?, routing?_modifyRouting, database?]
  split_ifs with h
  · rw [h, Option.map_map]
    congr 1
    funext r
    exact hf r
  · rfl

theorem database?_regenAndSend {exception origin : ℤ} {lsl : List LsLinkState}
    (h : s.regenAndSend n exception origin lsl = some s') : s'.database? m = s.database? m := by
  unfold regenAndSend at h
  split at h
  · cases h
  · rw [Option.bind_eq_some_iff] at h
    obtain ⟨r, -, h⟩ := h
    obtain ⟨t, -, rfl⟩ := Option.map_eq_some_iff.mp h
    apply sendToPeers_keeps (P := fun t => t.database? m = s.database? m)
    · rfl
    · intro t peer ht
      rw [← ht]
      exact database?_modifyRouting (fun r => rfl)

/-- One record of a received map: it is taken when the node's own is missing, empty or older. -/
theorem topoRecord_spec {first : LsLinkState} {rest : List LsLinkState} {c : Bool}
    (hdb : s.database? n = some topo) (ho : o ≠ n)
    (h : topoRecord n neighborId msgId s (o, first :: rest) = some (s', c)) :
    c = outdated (topo.find? o) first ∧
      s'.database? n = some (if outdated (topo.find? o) first then topo.set o (first :: rest) else topo) := by
  obtain ⟨r, hr, rfl⟩ := Option.map_eq_some_iff.mp hdb
  unfold topoRecord at h
  rw [if_neg ho] at h
  dsimp only at h
  rw [hr, Option.bind_some] at h
  split_ifs at h with hold
  · obtain ⟨t, ht, h⟩ := Option.bind_eq_some_iff.mp h
    split_ifs at h
    cases h
    rw [if_pos hold, hold, database?_regenAndSend ht, database?, routing?_modifyRouting, if_pos rfl, hr]
    exact ⟨rfl, rfl⟩
  · cases h
    rw [if_neg hold, hdb]
    exact ⟨by simpa using hold, rfl⟩

theorem topoRecord_own {lsl : List LsLinkState} {c : Bool}
    (h : topoRecord n neighborId msgId s (n, lsl) = some (s', c)) : s' = s := by
  unfold topoRecord at h
  rw [if_pos rfl] at h
  cases h
  rfl

theorem topoRecord_cons {lsl : List LsLinkState} {c : Bool} (ho : o ≠ n)
    (h : topoRecord n neighborId msgId s (o, lsl) = some (s', c)) : ∃ first rest, lsl = first :: rest := by
  unfold topoRecord at h
  rw [if_neg ho] at h
  cases lsl with
  | nil => cases h
  | cons first rest => exact ⟨first, rest, rfl⟩

/-- **The loop of `receiveTopo`** compares each record with the one that the node has at first. -/
theorem topoRecords_spec {records : List (ℤ × List LsLinkState)} {outs : List Bool}
    (hsorted : records.Pairwise (fun a b => a.1 < b.1)) (hdb : s.database? n = some topo)
    (h : Runs.run (topoRecord n neighborId msgId) s records = some (s', outs)) :
    ∃ topo', s'.database? n = some topo' ∧
      (∀ o, (∀ e ∈ records, e.1 ≠ o) → topo'.find? o = topo.find? o) ∧
      ∀ o first rest, (o, first :: rest) ∈ records → o ≠ n → topo'.find? o =
        if outdated (topo.find? o) first then some (first :: rest) else topo.find? o := by
  induction records generalizing s topo outs with
  | nil =>
    cases h
    exact ⟨topo, hdb, fun o _ => rfl, fun o first rest hmem => absurd hmem not_mem_nil⟩
  | cons e records ih =>
    obtain ⟨he, hrest⟩ := pairwise_cons.mp hsorted
    rw [Runs.run, Option.bind_eq_some_iff] at h
    obtain ⟨⟨s₁, c⟩, h₁, h⟩ := h
    obtain ⟨⟨s₂, outs⟩, h₂, heq⟩ := Option.map_eq_some_iff.mp h
    cases heq
    obtain ⟨o, lsl⟩ := e
    by_cases ho : o = n
    · -- the record of the node itself is passed over
      subst ho
      cases topoRecord_own h₁
      obtain ⟨topo', hdb', hother, htaken⟩ := ih hrest hdb h₂
      refine ⟨topo', hdb', fun o' hne => hother o' (fun e he => hne e (mem_cons_of_mem _ he)), ?_⟩
      intro o' first rest hmem hne
      rcases mem_cons.mp hmem with heq | hmem
      · cases heq
        exact absurd rfl hne
      · exact htaken o' first rest hmem hne
    · obtain ⟨first, rest, rfl⟩ := topoRecord_cons ho h₁
      obtain ⟨-, hdb₁⟩ := topoRecord_spec hdb ho h₁
      obtain ⟨topo', hdb', hother, htaken⟩ := ih hrest hdb₁ h₂
      have hset : ∀ o', o' ≠ o → (if outdated (topo.find? o) first then topo.set o (first :: rest)
          else topo).find? o' = topo.find? o' := by
        intro o' hne
        split_ifs
        · exact OrderedMap.find?_set_of_ne hne
        · rfl
      refine ⟨topo', hdb', ?_, ?_⟩
      · intro o' hne
        rw [hother o' (fun e he => hne e (mem_cons_of_mem _ he))]
        exact hset o' (fun heq => hne _ mem_cons_self heq.symm)
      · intro o' first' rest' hmem hne
        rcases mem_cons.mp hmem with heq | hmem
        · cases heq
          rw [hother o (fun e hin => (he e hin).ne')]
          split_ifs
          · exact OrderedMap.find?_set_self
          · rfl
        · have hlt := he _ hmem
          rw [htaken o' first' rest' hmem hne, hset o' hlt.ne']

theorem openTopo_spec {msg : LsMessage} {r : LsRouting} {new : Bool} (hr : s.routing? n = some r)
    (h : s.openTopo n neighborId msg = some (s', new)) :
    new = (r.tpmHistory.isNewMessage msg).2 ∧ s'.database? m = s.database? m := by
  unfold openTopo at h
  rw [Option.bind_eq_some_iff] at h
  obtain ⟨t, ht, h⟩ := h
  rw [routing?_sendAck ht, hr, Option.map_some] at h
  cases h
  refine ⟨rfl, ?_⟩
  have hdb : t.database? m = s.database? m := by rw [database?, routing?_sendAck ht, database?]
  rw [← hdb]
  exact database?_modifyRouting (fun r => rfl)

/-- **`receiveTopo`** of a new message: each record of the map that it points to is compared with the
one that the node has. -/
theorem receiveTopo_spec {msg : LsMessage} {r : LsRouting} {node : ℤ} {sent : LsTopoMap}
    {changed : Bool} (hr : s.routing? n = some r) (hnew : (r.tpmHistory.isNewMessage msg).2 = true)
    (hcontent : msg.content = .topo node) (hsent : s.database? node = some sent)
    (h : s.receiveTopo n neighborId msg = some (s', changed)) :
    ∃ topo', s'.database? n = some topo' ∧
      ∀ o first rest, (o, first :: rest) ∈ sent.entries → o ≠ n → topo'.find? o =
        if outdated (r.linkStateDatabase.find? o) first then some (first :: rest)
        else r.linkStateDatabase.find? o := by
  unfold receiveTopo at h
  rw [Option.bind_eq_some_iff] at h
  obtain ⟨⟨t, new⟩, ht, h⟩ := h
  obtain ⟨hflag, hdb⟩ := @openTopo_spec s t n n neighborId msg r new hr ht
  obtain ⟨-, hdb'⟩ := @openTopo_spec s t n node neighborId msg r new hr ht
  rw [hnew] at hflag
  subst hflag
  rw [if_neg (by simp), hcontent] at h
  dsimp only at h
  rw [hsent] at hdb'
  obtain ⟨sender, hsender, hmap⟩ := Option.map_eq_some_iff.mp hdb'
  rw [hsender, Option.bind_some, hmap] at h
  obtain ⟨⟨t', outs⟩, hrun, heq⟩ := Option.map_eq_some_iff.mp h
  cases heq
  have hmine : t.database? n = some r.linkStateDatabase := by
    rw [hdb, database?, hr, Option.map_some]
  obtain ⟨topo', htopo, -, htaken⟩ := topoRecords_spec sent.sorted hmine hrun
  exact ⟨topo', htopo, htaken⟩

def registers (s : LsSystem) (n : ℤ) : Registers := fun o => (s.database? n).bind (fun t => t.number o)

theorem topoRecord_offer {first : LsLinkState} {rest : List LsLinkState} {c : Bool}
    (hdb : s.database? n = some topo) (ho : o ≠ n)
    (h : topoRecord n neighborId msgId s (o, first :: rest) = some (s', c)) :
    s'.registers n = (offer (s.registers n) (o, first.sequenceNumber)).1 := by
  obtain ⟨-, hdb'⟩ := topoRecord_spec hdb ho h
  have htest : outdated (topo.find? o) first = true ↔
      ∀ stored ∈ s.registers n o, older stored first.sequenceNumber = true := by
    rw [registers, hdb, Option.bind_some, LsTopoMap.number]
    cases topo.find? o with
    | none => simp [outdated]
    | some mine =>
      cases mine with
      | nil => simp [outdated]
      | cons mine mines => simp [outdated]
  unfold offer
  funext o'
  rw [registers, hdb', Option.bind_some]
  by_cases hold : outdated (topo.find? o) first = true
  · rw [if_pos hold, if_pos (htest.mp hold), LsTopoMap.number, OrderedMap.find?_set]
    dsimp only
    rw [update_apply]
    split_ifs with heq
    · rfl
    · rw [registers, hdb, Option.bind_some, LsTopoMap.number]
  · rw [if_neg hold, if_neg (fun hall => hold (htest.mpr hall))]
    dsimp only
    rw [registers, hdb, Option.bind_some]

end LsSystem

/-! ## Runs -/

def LsMessageHistory.hear (history : LsMessageHistory) (msgs : List LsMessage) : LsMessageHistory :=
  msgs.foldl (fun history msg => (history.isNewMessage msg).1) history

/-- A message that carries the number of a count. -/
abbrev Counted := { m : LsMessage × ℕ // m.1.sequenceNumber = number m.2 }

def Counted.offered (m : Counted) : ℤ × ℕ := (m.1.1.originNodeId, m.1.2)

theorem hear_offers {history : LsMessageHistory} {ms : List Counted} :
    (history.hear (ms.map (fun m => m.1.1))).find? =
      offers history.find? (ms.map Counted.offered) := by
  induction ms generalizing history with
  | nil => rfl
  | cons m ms ih =>
    have hstep := (isNewMessage_offer history m.1.1).1
    rw [m.2] at hstep
    refine ih.trans ?_
    rw [hstep, map_cons, offers_cons]
    rfl

structure CountedRecord where
  neighborId : ℤ
  msgId : UInt32T
  origin : ℤ
  first : LsLinkState
  rest : List LsLinkState
  count : ℕ
  numbered : first.sequenceNumber = number count

/-- The node `n` goes through a record. -/
def takeRecord (n : ℤ) (s : LsSystem) (e : CountedRecord) : Option (LsSystem × Bool) :=
  LsSystem.topoRecord n e.neighborId e.msgId s (e.origin, e.first :: e.rest)

theorem records_offers {n : ℤ} {s s' : LsSystem} {es : List CountedRecord} {outs : List Bool}
    {topo : LsTopoMap} (hdb : s.database? n = some topo) (hes : ∀ e ∈ es, e.origin ≠ n)
    (h : Runs.run (takeRecord n) s es = some (s', outs)) :
    s'.registers n = offers (s.registers n) (es.map (fun e => (e.origin, e.count))) := by
  induction es generalizing s topo outs with
  | nil =>
    cases h
    rfl
  | cons e es ih =>
    rw [Runs.run, Option.bind_eq_some_iff] at h
    obtain ⟨⟨s₁, c⟩, h₁, h⟩ := h
    obtain ⟨⟨s₂, outs⟩, h₂, heq⟩ := Option.map_eq_some_iff.mp h
    cases heq
    have ho := hes e mem_cons_self
    obtain ⟨-, hdb₁⟩ := LsSystem.topoRecord_spec hdb ho h₁
    have hoffer := LsSystem.topoRecord_offer hdb ho h₁
    rw [e.numbered] at hoffer
    rw [ih hdb₁ (fun e he => hes e (mem_cons_of_mem _ he)) h₂, hoffer, map_cons,
      offers_cons]

/-! ## The comparison -/

/-- `isNewMessage` takes the number of the message exactly when it is ahead of the stored one, and
stores it then. -/
def TakesAhead (history : LsMessageHistory) (msg : LsMessage) (a : UInt32T) : Prop :=
  ((history.isNewMessage msg).2 = true ↔ Ahead a msg.sequenceNumber) ∧
    (history.isNewMessage msg).1.find? msg.originNodeId =
      some (if Ahead a msg.sequenceNumber then msg.sequenceNumber else a)

theorem takesAhead_iff {history : LsMessageHistory} {msg : LsMessage} {a : UInt32T}
    (ha : history.find? msg.originNodeId = some a) (hw : Window a msg.sequenceNumber) :
    TakesAhead history msg a ↔ ¬ BeforeWrap a msg.sequenceNumber := by
  have hiff := older_iff_ahead hw
  have hstep : history.isNewMessage msg =
      if older a msg.sequenceNumber then (history.set msg.originNodeId msg.sequenceNumber, true)
      else (history, false) := by
    unfold LsMessageHistory.isNewMessage
    rw [ha]
  rw [← hiff, TakesAhead, hstep]
  by_cases hold : older a msg.sequenceNumber = true
  · rw [if_pos hold, hold]
    constructor
    · exact fun h => h.1
    · intro h
      refine ⟨h, ?_⟩
      rw [OrderedMap.find?_set_self, if_pos (h.mp rfl)]
  · rw [if_neg hold, ha]
    constructor
    · intro h
      exact ⟨fun hold' => absurd hold' hold, fun hahead => absurd (h.1.mpr hahead) (by simp)⟩
    · intro h
      refine ⟨⟨fun hf => absurd hf (by simp), fun hahead => absurd (h.mpr hahead) hold⟩, ?_⟩
      rw [if_neg (fun hahead => hold (h.mpr hahead))]

/-- **Sequence numbers are compared circularly except across the wrap-around.** Below the threshold
`isNewMessage` and `receiveTopo` take a number exactly when it is ahead, unless it is one from before
the wrap-around. In a run without such numbers the stored number of each node is that of the largest
count received, and so never moves backwards. -/
theorem compared_circularly (history : LsMessageHistory) (s s' : LsSystem) (n : ℤ) :
    (∀ (msg : LsMessage) (a : UInt32T),
      history.find? msg.originNodeId = some a → Window a msg.sequenceNumber →
        (TakesAhead history msg a ↔ ¬ BeforeWrap a msg.sequenceNumber)) ∧
    (∀ (neighborId node o : ℤ) (msg : LsMessage) (r : LsRouting)
      (sent : LsTopoMap) (changed : Bool) (first mine : LsLinkState) (rest mines : List LsLinkState),
      s.routing? n = some r → (r.tpmHistory.isNewMessage msg).2 = true →
      msg.content = .topo node → s.database? node = some sent →
      (o, first :: rest) ∈ sent.entries → o ≠ n →
      r.linkStateDatabase.find? o = some (mine :: mines) →
      Window mine.sequenceNumber first.sequenceNumber →
      s.receiveTopo n neighborId msg = some (s', changed) →
        ((s'.database? n).bind (fun t => t.find? o) =
          some (if Ahead mine.sequenceNumber first.sequenceNumber then first :: rest
            else mine :: mines) ↔
        ¬ BeforeWrap mine.sequenceNumber first.sequenceNumber)) ∧
    (∀ (top : Counts) (past next : List Counted),
      history.find? = top.numbers → AllInWindow top ((past ++ next).map Counted.offered) →
      ∀ o t, ((past.map Counted.offered).foldl Counts.raise top) o = some t →
        ∃ t', t ≤ t' ∧
          (history.hear (past.map (fun m => m.1.1))).find? o = some (number t) ∧
          (history.hear ((past ++ next).map (fun m => m.1.1))).find? o = some (number t')) ∧
    (∀ (topo : LsTopoMap) (top : Counts) (es : List CountedRecord) (outs : List Bool),
      s.database? n = some topo → (∀ e ∈ es, e.origin ≠ n) → s.registers n = top.numbers →
      AllInWindow top (es.map (fun e => (e.origin, e.count))) →
      Runs.run (takeRecord n) s es = some (s', outs) →
      ∀ o t, top o = some t →
        ∃ t', t ≤ t' ∧ s'.registers n o = some (number t')) := by
  refine ⟨fun msg a ha hw => takesAhead_iff ha hw, ?_, ?_, ?_⟩
  · intro neighborId node o msg r sent changed first mine rest mines hr hnew hcontent hsent
      hmem ho hmine hw h
    obtain ⟨topo', htopo, htaken⟩ := LsSystem.receiveTopo_spec hr hnew hcontent hsent h
    have hfind := htaken o first rest hmem ho
    rw [hmine] at hfind
    have hiff := older_iff_ahead hw
    rw [htopo, Option.bind_some, hfind, ← hiff]
    show (if older mine.sequenceNumber first.sequenceNumber then some (first :: rest)
      else some (mine :: mines)) = _ ↔ _
    by_cases hold : older mine.sequenceNumber first.sequenceNumber = true
    · have hne : first :: rest ≠ mine :: mines := by
        intro heq
        cases heq
        rw [older_iff, sub_val] at hold
        omega
      split_ifs with hahead
      · exact iff_of_true rfl (iff_of_true hold hahead)
      · exact iff_of_false (fun heq => hne (Option.some.inj heq)) (fun h => hahead (h.mp hold))
    · rw [if_neg hold]
      have hahead : ¬ Ahead mine.sequenceNumber first.sequenceNumber :=
        fun hahead => hold hahead.older
      rw [if_neg hahead]
      exact iff_of_true rfl (iff_of_false hold hahead)
  · intro top past next hhist hwin o t ht
    rw [map_append] at hwin
    obtain ⟨t', ht', hle⟩ := @le_foldl_raise _ (next.map Counted.offered) o t ht
    rw [← foldl_append] at ht'
    have hpast : AllInWindow top (past.map Counted.offered) := hwin.left
    refine ⟨t', hle, ?_, ?_⟩
    · rw [hear_offers, hhist, offers_greatest hpast, Counts.numbers, ht, Option.map_some]
    · rw [hear_offers, hhist, map_append, offers_greatest hwin, Counts.numbers, ht',
        Option.map_some]
  · intro topo top es outs hdb hes hreg hwin hrun o t ht
    obtain ⟨t', ht', hle⟩ := @le_foldl_raise top (es.map (fun e => (e.origin, e.count))) o t ht
    refine ⟨t', hle, ?_⟩
    rw [records_offers hdb hes hrun, hreg, offers_greatest hwin, Counts.numbers, ht', Option.map_some]

/-- The numbers `2 ^ 32 - 2`, `1` and again `2 ^ 32 - 2` of the node 7: the second is ahead of the
first, across the wrap-around. -/
def wrapHistory (stored : UInt32T) : LsMessageHistory := OrderedMap.empty.set 7 stored

def numbered (seq : UInt32T) : LsMessage := ⟨.lsa, 1, seq, 7, .null⟩

theorem compared_circularly_wrap :
    TakesAhead (wrapHistory 4294967294) (numbered 1) 4294967294 ∧
      ∃ t', 4294967294 ≤ t' ∧
        ((wrapHistory 4294967294).hear [numbered 4294967290, numbered 1]).find? 7 =
          some (number t') := by
  have hpart := compared_circularly (wrapHistory 4294967294) LsSystem.start LsSystem.start 7
  constructor
  · exact (hpart.1 (numbered 1) 4294967294 (by decide) (by decide)).mpr
      (by decide)
  · have hhist : (wrapHistory 4294967294).find? =
        Counts.numbers (update (fun _ => none) 7 (some 4294967294)) := by
      funext o
      rw [wrapHistory, OrderedMap.find?_set, Counts.numbers, update_apply]
      split_ifs <;> rfl
    obtain ⟨t', hle, -, hfind⟩ := hpart.2.2.1
      (update (fun _ => none) 7 (some 4294967294)) []
      [⟨(numbered 4294967290, 4294967290), by decide⟩, ⟨(numbered 1, 4294967297), by decide⟩] hhist
      (by
        refine ⟨?_, ?_, trivial⟩
        · intro t ht
          cases ht
          decide
        · intro t ht
          cases ht
          decide)
      7 4294967294 (by simp)
    exact ⟨t', hle, hfind⟩

/-- A number from before the wrap-around is behind the stored one by 10, and is taken. -/
theorem stored_number_moves_back :
    Window 5 4294967291 ∧ ¬ Ahead 5 4294967291 ∧
      ((wrapHistory 5).isNewMessage (numbered 4294967291)).2 = true ∧
      ((wrapHistory 5).isNewMessage (numbered 4294967291)).1.find? 7 = some 4294967291 ∧
      LsSystem.outdated (some [⟨8, .up, 1, 5⟩]) ⟨8, .up, 1, 4294967291⟩ = true := by
  decide

end NetSim.LinkState
