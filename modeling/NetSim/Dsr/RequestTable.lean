import Mathlib.Algebra.Order.Field.Rat
import Mathlib.Data.List.Nodup
import Mathlib.Data.List.Perm.Subperm
import Mathlib.Logic.Function.Basic

/-! # DSR: the table of route requests

A node remembers, for every node that it heard of, the number of its latest route request
(`dsr/requesttable.cc`), in a circular array. The nodes of its own route discoveries have entries in the
same array. As long as no entry is overwritten, the array is a map from nodes to numbers (`Rep`).
-/

namespace NetSim.Dsr

open Function List

inductive IDType
  | none | mac | ip
deriving DecidableEq

structure ID where
  addr : ℕ
  type : IDType
deriving DecidableEq

def invalidAddr : ID := ⟨4294967295, .none⟩

def ID.ofIP (addr : ℕ) : ID := ⟨addr, .ip⟩

def rtRqPeriod : ℚ := 1 / 2

structure Entry where
  MACId : ID
  netId : ID
  reqNum : ℤ
  lastArp : ℚ
  rtReqsOutstanding : ℤ
  lastRtReq : ℚ

structure RequestTable where
  size : ℕ
  table : ℕ → Entry
  ptr : ℕ

namespace RequestTable

/-- A new table. `ID::ID` sets the type to `NONE`. -/
def init (size : ℕ) : RequestTable where
  size := size
  table := fun _ => ⟨⟨0, .none⟩, ⟨0, .none⟩, 0, 0, 0, 0⟩
  ptr := 0

def find (t : RequestTable) (netId MACId : ID) : ℕ :=
  ((List.range t.size).find?
    (fun c => (t.table c).netId = netId ∨ (t.table c).MACId = MACId)).getD t.size

def get (t : RequestTable) (id : ID) : ℤ :=
  if t.size ≤ t.find id id then 0 else (t.table (t.find id id)).reqNum

/-- The entry at `ptr` is overwritten. -/
def add (t : RequestTable) (netId MACId : ID) (reqNum : ℤ) : RequestTable where
  size := t.size
  table := update t.table t.ptr ⟨MACId, netId, reqNum, 0, 0, -(rtRqPeriod + 1)⟩
  ptr := (t.ptr + 1) % t.size

/-- `RequestTable::getEntry`: the table and the index of the entry. -/
def getEntry (t : RequestTable) (id : ID) : RequestTable × ℕ :=
  if t.size ≤ t.find id id then (t.add id invalidAddr 0, t.ptr) else (t, t.find id id)

/-- The changes of `RequestTable::insert` to an entry. -/
def record (e : Entry) (MACId : ID) (reqNum : ℤ) : Entry :=
  { e with
    MACId := if e.MACId = invalidAddr then MACId else e.MACId
    reqNum := reqNum }

def insert (t : RequestTable) (netId MACId : ID) (reqNum : ℤ) : RequestTable :=
  let c := t.find netId MACId
  if c < t.size then
    { t with table := update t.table c (record (t.table c) MACId reqNum) }
  else t.add netId MACId reqNum

/-! ## The table as a map -/

/-- The table has entries for the nodes `nodes`, in this order, and nothing was overwritten. -/
structure Rep (t : RequestTable) (nodes : List ℕ) : Prop where
  ptr : t.ptr = nodes.length
  room : nodes.length < t.size
  nodup : nodes.Nodup
  netId : ∀ c (h : c < nodes.length), (t.table c).netId = ID.ofIP nodes[c]
  MACId : ∀ c (h : c < nodes.length),
    (t.table c).MACId = ID.ofIP nodes[c] ∨ (t.table c).MACId = invalidAddr
  blank : ∀ c, nodes.length ≤ c → (t.table c).netId.type = .none ∧ (t.table c).MACId.type = .none

variable {t : RequestTable} {nodes : List ℕ} {n m : ℕ} {k : ℤ}

theorem rep_init {size : ℕ} (h : 0 < size) : (init size).Rep [] where
  ptr := rfl
  room := h
  nodup := nodup_nil
  netId := fun c hc => absurd hc (Nat.not_lt_zero c)
  MACId := fun c hc => absurd hc (Nat.not_lt_zero c)
  blank := fun _ _ => ⟨rfl, rfl⟩

theorem Rep.match_iff (h : t.Rep nodes) (n c : ℕ) :
    ((t.table c).netId = ID.ofIP n ∨ (t.table c).MACId = ID.ofIP n) ↔ nodes[c]? = some n := by
  by_cases hc : c < nodes.length
  · have hnet := h.netId c hc
    have hMAC := h.MACId c hc
    rw [hnet, getElem?_eq_getElem hc, Option.some.injEq]
    have hof : ∀ a b, ID.ofIP a = ID.ofIP b ↔ a = b := fun a b =>
      ⟨fun heq => congrArg ID.addr heq, fun heq => by rw [heq]⟩
    rw [hof]
    refine ⟨fun hor => hor.elim id ?_, Or.inl⟩
    intro heq
    rcases hMAC with hMAC | hMAC
    · rw [hMAC, hof] at heq
      exact heq
    · rw [hMAC] at heq
      cases congrArg ID.type heq
  · obtain ⟨hnet, hMAC⟩ := h.blank c (by omega)
    rw [getElem?_eq_none (by omega)]
    constructor
    · rintro (heq | heq)
      · rw [heq] at hnet
        cases hnet
      · rw [heq] at hMAC
        cases hMAC
    · intro heq
      cases heq

theorem Rep.find_mem (h : t.Rep nodes) {c : ℕ} (hc : nodes[c]? = some n) :
    t.find (ID.ofIP n) (ID.ofIP n) = c := by
  obtain ⟨hlt, hget⟩ := List.getElem?_eq_some_iff.mp hc
  have hroom := h.room
  unfold find
  cases hfind : (List.range t.size).find?
      (fun c => (t.table c).netId = ID.ofIP n ∨ (t.table c).MACId = ID.ofIP n) with
  | none =>
    rw [find?_eq_none] at hfind
    refine absurd ?_ (hfind c (mem_range.mpr (by omega)))
    simpa using (h.match_iff n c).mpr hc
  | some c' =>
    have hmatch := find?_some hfind
    rw [decide_eq_true_eq, h.match_iff n c'] at hmatch
    obtain ⟨hlt', hget'⟩ := List.getElem?_eq_some_iff.mp hmatch
    exact (List.Nodup.getElem_inj_iff h.nodup).mp (hget'.trans hget.symm)

theorem Rep.find_not_mem (h : t.Rep nodes) (hn : n ∉ nodes) :
    t.find (ID.ofIP n) (ID.ofIP n) = t.size := by
  unfold find
  have hnone : (List.range t.size).find?
      (fun c => (t.table c).netId = ID.ofIP n ∨ (t.table c).MACId = ID.ofIP n) = none := by
    rw [find?_eq_none]
    intro c hc hmatch
    rw [decide_eq_true_eq, h.match_iff n c] at hmatch
    exact hn (mem_of_getElem? hmatch)
  rw [hnone, Option.getD_none]

theorem Rep.get_mem (h : t.Rep nodes) {c : ℕ} (hc : nodes[c]? = some n) :
    t.get (ID.ofIP n) = (t.table c).reqNum := by
  obtain ⟨hlt, -⟩ := List.getElem?_eq_some_iff.mp hc
  have hroom := h.room
  unfold get
  rw [h.find_mem hc, if_neg (by omega)]

theorem Rep.get_not_mem (h : t.Rep nodes) (hn : n ∉ nodes) : t.get (ID.ofIP n) = 0 := by
  unfold get
  rw [h.find_not_mem hn, if_pos le_rfl]

theorem Rep.add (h : t.Rep nodes) (hn : n ∉ nodes) (hroom : nodes.length + 1 < t.size) {MACId : ID}
    (hMAC : MACId = ID.ofIP n ∨ MACId = invalidAddr) :
    (t.add (ID.ofIP n) MACId k).Rep (nodes ++ [n]) ∧
      (t.add (ID.ofIP n) MACId k).get (ID.ofIP n) = k ∧
      ∀ m, m ≠ n → (t.add (ID.ofIP n) MACId k).get (ID.ofIP m) = t.get (ID.ofIP m) := by
  have hptr := h.ptr
  have hold : ∀ c, c < nodes.length → (t.add (ID.ofIP n) MACId k).table c = t.table c :=
    fun c hc => update_of_ne (by omega) ..
  have hnew : (t.add (ID.ofIP n) MACId k).table nodes.length =
      ⟨MACId, ID.ofIP n, k, 0, 0, -(rtRqPeriod + 1)⟩ := by
    rw [← hptr]
    exact update_self ..
  have hrep : (t.add (ID.ofIP n) MACId k).Rep (nodes ++ [n]) := by
    refine ⟨?_, ?_, ?_, ?_, ?_, ?_⟩
    · rw [length_append, length_singleton, ← hptr]
      exact Nat.mod_eq_of_lt (by omega)
    · rw [length_append, length_singleton]
      exact hroom
    · rw [← concat_eq_append]
      exact h.nodup.concat hn
    · intro c hc
      rw [length_append, length_singleton] at hc
      by_cases hlt : c < nodes.length
      · rw [hold c hlt, getElem_append_left hlt]
        exact h.netId c hlt
      · obtain rfl : c = nodes.length := by omega
        rw [hnew, getElem_concat_length rfl]
    · intro c hc
      rw [length_append, length_singleton] at hc
      by_cases hlt : c < nodes.length
      · rw [hold c hlt, getElem_append_left hlt]
        exact h.MACId c hlt
      · obtain rfl : c = nodes.length := by omega
        rw [hnew, getElem_concat_length rfl]
        exact hMAC
    · intro c hc
      rw [length_append, length_singleton] at hc
      have hother : (t.add (ID.ofIP n) MACId k).table c = t.table c :=
        update_of_ne (by omega) ..
      rw [hother]
      exact h.blank c (by omega)
  refine ⟨hrep, ?_, ?_⟩
  · rw [hrep.get_mem (getElem?_concat_length ..), hnew]
  · intro m hm
    by_cases hmem : m ∈ nodes
    · obtain ⟨c, hc⟩ := getElem?_of_mem hmem
      obtain ⟨hlt, -⟩ := List.getElem?_eq_some_iff.mp hc
      rw [hrep.get_mem ((getElem?_append_left hlt).trans hc), h.get_mem hc, hold c hlt]
    · rw [h.get_not_mem hmem, hrep.get_not_mem ?_]
      rw [mem_append, mem_singleton]
      exact not_or.mpr ⟨hmem, hm⟩

theorem Rep.insert (h : t.Rep nodes) (hroom : n ∉ nodes → nodes.length + 1 < t.size) :
    (t.insert (ID.ofIP n) (ID.ofIP n) k).Rep (if n ∈ nodes then nodes else nodes ++ [n]) ∧
      (t.insert (ID.ofIP n) (ID.ofIP n) k).get (ID.ofIP n) = k ∧
      ∀ m, m ≠ n →
        (t.insert (ID.ofIP n) (ID.ofIP n) k).get (ID.ofIP m) = t.get (ID.ofIP m) := by
  unfold RequestTable.insert
  by_cases hn : n ∈ nodes
  · obtain ⟨c, hc⟩ := getElem?_of_mem hn
    obtain ⟨hlt, hget⟩ := List.getElem?_eq_some_iff.mp hc
    have hlt' := h.room
    rw [h.find_mem hc, if_pos (by omega), if_pos hn]
    generalize hu : ({ t with
      table := update t.table c (record (t.table c) (ID.ofIP n) k) } : RequestTable) = u
    have hself : u.table c = record (t.table c) (ID.ofIP n) k := by
      rw [← hu]
      exact update_self ..
    have hother : ∀ c', c' ≠ c → u.table c' = t.table c' := by
      intro c' hc'
      rw [← hu]
      exact update_of_ne hc' ..
    have hrep : u.Rep nodes := by
      refine ⟨?_, ?_, h.nodup, ?_, ?_, ?_⟩
      · rw [← hu]
        exact h.ptr
      · rw [← hu]
        exact h.room
      · intro c' hc'
        by_cases heq : c' = c
        · subst heq
          rw [hself]
          exact h.netId c' hc'
        · rw [hother c' heq]
          exact h.netId c' hc'
      · intro c' hc'
        by_cases heq : c' = c
        · subst heq
          rw [hself]
          unfold record
          split
          · rw [hget]
            exact Or.inl rfl
          · exact h.MACId c' hc'
        · rw [hother c' heq]
          exact h.MACId c' hc'
      · intro c' hc'
        rw [hother c' (by omega)]
        exact h.blank c' hc'
    refine ⟨hrep, ?_, ?_⟩
    · rw [hrep.get_mem hc, hself]
      rfl
    · intro m hm
      by_cases hmem : m ∈ nodes
      · obtain ⟨c', hc'⟩ := getElem?_of_mem hmem
        have hne : c' ≠ c := by
          intro heq
          rw [heq, hc] at hc'
          exact hm (Option.some.inj hc').symm
        rw [hrep.get_mem hc', h.get_mem hc', hother c' hne]
      · rw [hrep.get_not_mem hmem, h.get_not_mem hmem]
  · rw [h.find_not_mem hn, if_neg (lt_irrefl _), if_neg hn]
    exact h.add hn (hroom hn) (Or.inl rfl)

theorem Rep.getEntry (h : t.Rep nodes) (hroom : n ∉ nodes → nodes.length + 1 < t.size) :
    (t.getEntry (ID.ofIP n)).1.Rep (if n ∈ nodes then nodes else nodes ++ [n]) ∧
      ∀ m, (t.getEntry (ID.ofIP n)).1.get (ID.ofIP m) = t.get (ID.ofIP m) := by
  unfold RequestTable.getEntry
  by_cases hn : n ∈ nodes
  · obtain ⟨c, hc⟩ := getElem?_of_mem hn
    obtain ⟨hlt, -⟩ := List.getElem?_eq_some_iff.mp hc
    have hlt' := h.room
    rw [h.find_mem hc, if_neg (by omega), if_pos hn]
    exact ⟨h, fun m => rfl⟩
  · rw [h.find_not_mem hn, if_pos le_rfl, if_neg hn]
    obtain ⟨hrep, hself, hother⟩ := h.add (k := 0) hn (hroom hn) (Or.inr rfl)
    refine ⟨hrep, ?_⟩
    intro m
    by_cases hm : m = n
    · subst hm
      rw [hself, h.get_not_mem hn]
    · exact hother m hm

/-- The nodes of the table are among the nodes of the network, so there is room for another one. -/
theorem Rep.room_of_subset {all : List ℕ} (h : t.Rep nodes) (hsub : ∀ m ∈ nodes, m ∈ all)
    (hn : n ∈ all) (hall : all.length < t.size) : n ∉ nodes → nodes.length + 1 < t.size := by
  intro hnot
  have hle : (n :: nodes).length ≤ all.length := by
    refine (List.Nodup.subperm (nodup_cons.mpr ⟨hnot, h.nodup⟩) ?_).length_le
    intro m hm
    rcases mem_cons.mp hm with rfl | hm
    · exact hn
    · exact hsub m hm
  rw [length_cons] at hle
  omega

end RequestTable

end NetSim.Dsr
