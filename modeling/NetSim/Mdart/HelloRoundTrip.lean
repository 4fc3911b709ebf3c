import NetSim.Mdart.Hello

/-! # Hello messages survive the wire

The entry that `getUpdate` selects for a level is the first with the least `rank` (`selectEntry_eq`). Each level is
written and read between its separators (`readEntry_entryText`), and the reader's count of the levels keeps step
with the writer's (`updateLevel_levels`), so the neighbour's table holds what was selected and the receiver finds
the quality that is listed for it (`hello_survives`).
-/

namespace NetSim.Mdart

open List StringScan Decimal

/-! ## The selection -/

def rank (etxMetric : Bool) (e : RoutingEntry) : ℤ ×ₗ ℚ :=
  toLex (e.networkId, if etxMetric then e.etxMetric.value else e.hopNumber)

theorem better_iff {etxMetric : Bool} {e best : RoutingEntry} :
    better etxMetric e best = true ↔ rank etxMetric e < rank etxMetric best := by
  rw [rank, rank, Prod.Lex.toLex_lt_toLex]
  cases etxMetric <;> simp [better]

/-- **The entry of a level** is the first with the least rank. -/
theorem selectEntry_eq {etxMetric : Bool} {es : List RoutingEntry} (hes : ∀ e ∈ es, e.networkId < infinito) :
    selectEntry etxMetric es = (es.argmin (rank etxMetric)).getD noEntry := by
  -- the loop goes on from an entry as `argmin` does
  have hloop : ∀ (es : List RoutingEntry) best,
      es.foldl (argAux fun b c => rank etxMetric b < rank etxMetric c) (some best) =
        some (es.foldl (fun best e => if better etxMetric e best then e else best) best) := by
    intro es
    induction es with
    | nil => exact fun _ => rfl
    | cons e es ih =>
      intro best
      rw [foldl_cons, foldl_cons, ← ih]
      congr 1
      by_cases hbetter : better etxMetric e best = true
      · simp [argAux, hbetter, better_iff.mp hbetter]
      · simp [argAux, hbetter, mt better_iff.mpr hbetter]
  cases es with
  | nil => rfl
  | cons e es =>
    have hfirst : better etxMetric e noEntry = true :=
      better_iff.mpr (Prod.Lex.toLex_lt_toLex.mpr (.inl (hes e mem_cons_self)))
    rw [selectEntry, foldl_cons, if_pos hfirst]
    exact congrArg (Option.getD · noEntry) (hloop es e).symm

/-! ## Texts -/

/-- No separator is in a printed number. -/
theorem not_mem_showInt {c : Char} (z : ℤ) (hc : c.isDigit = false) (hminus : c ≠ '-') : c ∉ showInt z := by
  intro hmem
  rcases mem_showInt hmem with hdigit | rfl
  · exact Bool.false_ne_true (hc.symm.trans hdigit)
  · exact hminus rfl

theorem Printed.not_mem (x : Printed) {c : Char} (hc : c.isDigit = false) (hplain : c ≠ '.' ∧ c ≠ 'e' ∧ c ≠ '+' ∧ c ≠ '-') :
    c ∉ x.text := by
  intro hmem
  rcases x.plain c hmem with hdigit | h | h | h | h
  · exact Bool.false_ne_true (hc.symm.trans hdigit)
  · exact hplain.1 h
  · exact hplain.2.1 h
  · exact hplain.2.2.1 h
  · exact hplain.2.2.2 h

def textChar (c : Char) : Prop := c.isDigit = true ∨ c ∈ ['.', 'e', '+', '-', ',', ';']

theorem textChar_showInt {c : Char} {z : ℤ} (hc : c ∈ showInt z) : textChar c :=
  (mem_showInt hc).imp_right (fun h => by simp [h])

theorem Printed.textChar {c : Char} {x : Printed} (hc : c ∈ x.text) : textChar c := by
  rcases x.plain c hc with hdigit | h | h | h | h
  · exact .inl hdigit
  all_goals exact .inr (by simp [h])

/-- **A level** is read as it was written. -/
theorem readEntry_entryText (e : RoutingEntry) (hhop : e.hopNumber < 2 ^ 32) :
    readEntry (entryText e) = some ⟨e.networkId, e.hopNumber, e.etxMetric.value, e.routeLog⟩ := by
  have hnum : ∀ z : ℤ, ',' ∉ showInt z := fun z => not_mem_showInt z (by decide) (by decide)
  have hetx : ',' ∉ e.etxMetric.text := e.etxMetric.not_mem (by decide) (by decide)
  -- the four fields, from left to right
  have h₁ := starts_zero (showInt_ne_nil e.networkId) (hnum _) (rfl : entryText e = _)
  obtain ⟨htoken₁, hend₁, hrest₁⟩ := h₁.token (hnum _)
  have h₂ := starts_behind (showInt_ne_nil e.hopNumber) (hnum _) hrest₁
  obtain ⟨htoken₂, hend₂, hrest₂⟩ := h₂.token (hnum _)
  have h₃ := starts_behind e.etxMetric.text_ne_nil hetx hrest₂
  obtain ⟨htoken₃, hend₃, hrest₃⟩ := h₃.token hetx
  have h₄ := @starts_behind Char _ (entryText e) (showInt e.routeLog.toNat) [] ',' _ (showInt_ne_nil _) (hnum _)
    (by rw [append_nil]; exact hrest₃)
  rw [append_nil] at h₄
  have hhop' : ((e.hopNumber : ℤ) % 2 ^ 32).toNat = e.hopNumber := by omega
  have hlog : BitVec.ofInt 16 (e.routeLog.toNat : ℤ) = e.routeLog := by
    rw [BitVec.ofInt_natCast, BitVec.ofNat_toNat, BitVec.setWidth_eq]
  rw [readEntry]
  simp only [htoken₁, hend₁, htoken₂, hend₂, htoken₃, hend₃, h₄.last (hnum _), Option.bind_some, Option.map_some,
    atoi_showInt, hhop', hlog]
  rfl

theorem entryText_ne_nil (e : RoutingEntry) : entryText e ≠ [] := by
  rw [entryText]
  exact append_ne_nil_of_left_ne_nil (showInt_ne_nil _) _

theorem mem_entryText {c : Char} {e : RoutingEntry} (hc : c ∈ entryText e) :
    c ∈ showInt e.networkId ∨ c.isDigit = true ∨ c ∈ e.etxMetric.text ∨ c = ',' := by
  rw [entryText] at hc
  simp only [mem_append, mem_cons] at hc
  rcases hc with h | h | h | h | h | h | h
  · exact .inl h
  · exact .inr (.inr (.inr h))
  · exact .inr (.inl (mem_showInt_natCast h))
  · exact .inr (.inr (.inr h))
  · exact .inr (.inr (.inl h))
  · exact .inr (.inr (.inr h))
  · exact .inr (.inl (mem_showInt_natCast h))

/-! ## The levels -/

/-- The texts of the levels below `i`. -/
def levels (etxMetric : Bool) (table : RoutingTable) : (i : ℕ) → i ≤ addrSize → List (List Char)
  | 0, _ => []
  | i + 1, h =>
    entryText (selectEntry etxMetric (table ⟨i, h⟩)) :: levels etxMetric table i (Nat.le_of_succ_le h)

theorem levelsText_eq (etxMetric : Bool) (table : RoutingTable) (i : ℕ) (h : i ≤ addrSize) :
    levelsText etxMetric table i h = joined ';' (levels etxMetric table i h) := by
  induction i with
  | zero => rfl
  | succ i ih => rw [levelsText, levels, joined_cons, ih]

theorem mem_levels {etxMetric : Bool} {table : RoutingTable} {i : ℕ} {h : i ≤ addrSize} {text : List Char}
    (htext : text ∈ levels etxMetric table i h) :
    ∃ j, text = entryText (selectEntry etxMetric (table j)) := by
  induction i with
  | zero => cases htext
  | succ i ih =>
    rcases mem_cons.mp htext with rfl | htext
    · exact ⟨_, rfl⟩
    · exact ih htext

/-- What a neighbour's table holds of an entry. -/
def received : Option RoutingEntry → LevelEntry
  | some e => ⟨e.networkId, e.hopNumber, e.etxMetric.value, e.routeLog⟩
  | none => ⟨infinito, infinito, rtrEtxMax.value, 0⟩

theorem received_getD (e : Option RoutingEntry) :
    received (some (e.getD noEntry)) = received e := by
  cases e <;> rfl

/-- The entries that a hello message may bring: ids and hop numbers below `INFINITO`. -/
def Sendable (table : RoutingTable) : Prop :=
  ∀ i, ∀ e ∈ table i, 0 ≤ e.networkId ∧ e.networkId < infinito ∧ e.hopNumber < infinito

variable {etxMetric : Bool} {table : RoutingTable}

/-- What is selected is sendable, or the level is without an entry. -/
theorem selectEntry_bounds (h : Sendable table) (i : Fin addrSize) :
    0 ≤ (selectEntry etxMetric (table i)).networkId ∧ (selectEntry etxMetric (table i)).hopNumber < 2 ^ 32 := by
  rw [selectEntry_eq (fun e he => (h i e he).2.1)]
  cases hsel : (table i).argmin (rank etxMetric) with
  | none => exact ⟨by decide, by decide⟩
  | some e =>
    obtain ⟨hid, -, hhop⟩ := h i e (argmin_mem hsel)
    exact ⟨hid, hhop.trans (by decide)⟩

/-- **The levels** are read into their places. -/
theorem updateLevel_levels (h : Sendable table) (i : ℕ) (hi : i ≤ addrSize) (nt : NeighborTable) :
    (levels etxMetric table i hi).foldlM updateLevel (i, nt) =
      some (0, fun j => if j.val < i then received ((table j).argmin (rank etxMetric)) else nt j) := by
  induction i generalizing nt with
  | zero => rfl
  | succ i ih =>
    have hlevel : updateLevel (i + 1, nt) (entryText (selectEntry etxMetric (table ⟨i, hi⟩))) =
        some (i, Function.update nt ⟨i, hi⟩ (received ((table ⟨i, hi⟩).argmin (rank etxMetric)))) := by
      rw [updateLevel, readEntry_entryText _ (selectEntry_bounds h ⟨i, hi⟩).2, Option.bind_some]
      have hsel := @selectEntry_eq etxMetric _ (fun e he => (h ⟨i, hi⟩ e he).2.1)
      have hlt : i < addrSize := hi
      rw [← received_getD, ← hsel]
      simp only [hlt, dite_true]
      rfl
    rw [levels, foldlM_cons, hlevel]
    show foldlM updateLevel (i, _) (levels etxMetric table i _) = _
    rw [ih]
    congr 2
    funext j
    by_cases hj : j = ⟨i, hi⟩
    · subst hj
      simp
    · have hne : j.val ≠ i := fun heq => hj (Fin.ext heq)
      have hiff : j.val < i + 1 ↔ j.val < i := by omega
      rw [Function.update_of_ne hj]
      simp only [hiff]

/-- `NeighborTable::update` reads what `RoutingTable::getUpdate` writes. -/
theorem update_getUpdate (h : Sendable table) (nt : NeighborTable) :
    nt.update (getUpdate etxMetric table) = some (fun i => received ((table i).argmin (rank etxMetric))) := by
  have htokens : ∀ t ∈ levels etxMetric table addrSize le_rfl, t ≠ [] ∧ ';' ∉ t := by
    intro t ht
    obtain ⟨j, rfl⟩ := mem_levels ht
    refine ⟨entryText_ne_nil _, fun hmem => ?_⟩
    rcases mem_entryText hmem with hid | hdigit | hetx | hcomma
    · exact not_mem_showInt _ (by decide) (by decide) hid
    · exact absurd hdigit (by decide)
    · exact Printed.not_mem _ (by decide) (by decide) hetx
    · exact absurd hcomma (by decide)
  rw [NeighborTable.update, getUpdate, levelsText_eq, scanTokens_eq _ htokens (length_le_joined _ _),
    updateLevel_levels h]
  simp

/-! ## The qualities -/

theorem getNeighborQuality_eq (qs : List (ℤ × Printed)) :
    getNeighborQuality qs = joined ';' (qs.map qualityText) := by
  rw [getNeighborQuality, joined, flatMap_map]

def listed (id : ℤ) (qs : List (ℤ × Printed)) : ℚ := ((qs.filter (·.1 = id)).getLast?).elim 0 (·.2.value)

theorem readQuality_qualityText (id : ℤ) (q : ℚ) (x : ℤ × Printed) :
    readQuality id q (qualityText x) = some (if x.1 = id then x.2.value else q) := by
  have hnum : ',' ∉ showInt x.1 := not_mem_showInt _ (by decide) (by decide)
  have hval : ',' ∉ x.2.text := x.2.not_mem (by decide) (by decide)
  have h₁ := starts_zero (showInt_ne_nil x.1) hnum (rfl : qualityText x = _)
  obtain ⟨htoken₁, hend₁, hrest₁⟩ := h₁.token hnum
  have h₂ := @starts_behind Char _ (qualityText x) x.2.text [] ',' _ x.2.text_ne_nil hval
    (by rw [append_nil]; exact hrest₁)
  rw [append_nil] at h₂
  rw [readQuality]
  simp only [htoken₁, hend₁, h₂.last hval, Option.bind_some, atoi_showInt, Option.map_some]
  split <;> rfl

theorem readQuality_list (id : ℤ) (qs : List (ℤ × Printed)) :
    (qs.map qualityText).foldlM (readQuality id) 0 = some (listed id qs) := by
  induction qs using List.reverseRecOn with
  | nil => rfl
  | append_singleton qs x ih =>
    rw [map_append, foldlM_append, ih]
    show foldlM (readQuality id) (listed id qs) [qualityText x] = _
    rw [foldlM_cons, readQuality_qualityText, listed, listed, filter_append]
    by_cases hx : x.1 = id <;> simp [hx]

/-! ## Hello messages -/

theorem textChar_getUpdate {c : Char} (h : Sendable table) (hc : c ∈ getUpdate etxMetric table) :
    textChar c ∧ c ≠ '-' := by
  rw [getUpdate, levelsText_eq, joined, mem_flatMap] at hc
  obtain ⟨text, htext, hc⟩ := hc
  obtain ⟨j, rfl⟩ := mem_levels htext
  have hdigit : c.isDigit = true → textChar c ∧ c ≠ '-' :=
    fun hd => ⟨.inl hd, (digit_plain hd).2.1⟩
  rcases mem_append.mp hc with hc | hc
  · rcases mem_entryText hc with hid | hd | hetx | rfl
    · obtain ⟨n, hn⟩ := Int.eq_ofNat_of_zero_le (@selectEntry_bounds etxMetric table h j).1
      rw [hn] at hid
      exact hdigit (mem_showInt_natCast hid)
    · exact hdigit hd
    · exact ⟨Printed.textChar hetx, fun heq => EtxMetric.unsigned _ (heq ▸ hetx)⟩
    · exact ⟨.inr (by simp), by decide⟩
  · rw [mem_singleton.mp hc]
    exact ⟨.inr (by simp), by decide⟩

theorem textChar_getNeighborQuality {c : Char} {qs : List (ℤ × Printed)} (hc : c ∈ getNeighborQuality qs) :
    textChar c := by
  rw [getNeighborQuality, mem_flatMap] at hc
  obtain ⟨x, -, hc⟩ := hc
  simp only [qualityText, mem_append, mem_cons, not_mem_nil, or_false] at hc
  rcases hc with (h | rfl | h) | rfl
  · exact textChar_showInt h
  · exact .inr (by simp)
  · exact Printed.textChar h
  · exact .inr (by simp)

/-- The text ends a C string nowhere. -/
theorem textChar_ne_zero {c : Char} (hc : textChar c) : c ≠ Char.ofNat 0 := by
  rintro rfl
  rcases hc with hd | hmem
  · exact absurd hd (by decide)
  · exact absurd hmem (by decide)

theorem getUpdate_ne_nil : getUpdate etxMetric table ≠ [] := by
  show entryText (selectEntry etxMetric (table ⟨15, by decide⟩)) ++ _ ≠ []
  exact append_ne_nil_of_left_ne_nil (entryText_ne_nil _) _

/-- The neighbour takes the table and the quality. -/
theorem neighborInsert_getUpdate (h : Sendable table) (neighbors : OrderedMap ℤ Neighbor) (id address : ℤ)
    (quality : ℚ) (fresh : Fin addrSize → ℤ) :
    ∃ neighbors' neighbor,
      neighborInsert neighbors id address (getUpdate etxMetric table) quality fresh = some neighbors' ∧
        neighbors'.find? id = some neighbor ∧
        (∀ i, neighbor.table i = received ((table i).argmin (rank etxMetric))) ∧
        neighbor.forLinkQuality = quality := by
  rw [neighborInsert]
  simp only [update_getUpdate h, Option.map_some]
  exact ⟨_, _, rfl, OrderedMap.find?_set_self, fun _ => rfl, rfl⟩

/-- **Hello messages survive**: after a message of a node, its neighbour has for each level the entry that the
node selected, and the quality that is listed for it. The sender and the receiver may use different metrics. -/
theorem hello_survives (etxMetric : Bool) (table : RoutingTable) (qs : List (ℤ × Printed)) (ndp : Ndp)
    (srcId srcAdd : ℤ) (fresh : Fin addrSize → ℤ) (h : Sendable table) :
    ∃ ndp' neighbor,
      recvHello ndp srcId srcAdd (helloText (getUpdate etxMetric table) (getNeighborQuality qs)) fresh = some ndp' ∧
        ndp'.neighbors.find? srcId = some neighbor ∧
        (∀ i, neighbor.table i = received ((table i).argmin (rank etxMetric))) ∧
        (ndp.etxMetric = true → neighbor.forLinkQuality = listed ndp.id qs) := by
  set update := getUpdate etxMetric table with hupdate
  set quality := getNeighborQuality qs with hquality
  have hstring : (helloText update quality).takeWhile (fun c => c ≠ Char.ofNat 0) = helloText update quality := by
    rw [takeWhile_eq_self_iff]
    intro c hc
    refine decide_eq_true (textChar_ne_zero ?_)
    rcases mem_append.mp hc with hc | hc
    · exact (textChar_getUpdate h hc).1
    · rcases mem_cons.mp hc with rfl | hc
      · exact .inr (by simp)
      · exact textChar_getNeighborQuality hc
  -- the message is cut at the first minus sign
  have hminus : '-' ∉ update := fun hc => (textChar_getUpdate h hc).2 rfl
  have hstarts := starts_zero getUpdate_ne_nil hminus (rfl : helloText update quality = _)
  have hstop : findFirstOf (helloText update quality) '-' (some 0) = some update.length := by
    rw [findFirstOf_here hstarts.drop hminus, Nat.zero_add]
  have htable : substr (helloText update quality) (some 0) (some update.length) = some update := by
    rw [substr, Option.bind_some, if_pos (Nat.zero_le _)]
    exact congrArg some take_left
  have hnext : StringScan.next (some update.length) = some (update.length + 1) := rfl
  have hrest : substr (helloText update quality) (some (update.length + 1))
      (sub (some (helloText update quality).length) (some (update.length + 1))) = some quality := by
    have hlength : (helloText update quality).length = update.length + 1 + quality.length := by
      rw [helloText, length_append, length_cons]
      omega
    have hdrop : (helloText update quality).drop (update.length + 1) = quality := by
      rw [helloText, ← drop_drop, drop_left]
      rfl
    rw [sub, if_pos (by omega), substr, Option.bind_some, if_pos (by omega), hdrop, hlength,
      Nat.add_sub_cancel_left]
    exact congrArg some (take_length ..)
  have hqualities : scanTokens quality ';' (readQuality ndp.id) quality.length (some 0) 0 =
      some (listed ndp.id qs) := by
    have htokens : ∀ t ∈ qs.map qualityText, t ≠ [] ∧ ';' ∉ t := by
      intro t ht
      obtain ⟨x, -, rfl⟩ := mem_map.mp ht
      refine ⟨append_ne_nil_of_left_ne_nil (showInt_ne_nil _) _, fun hc => ?_⟩
      rcases mem_append.mp hc with hc | hc
      · exact not_mem_showInt _ (by decide) (by decide) hc
      · rcases mem_cons.mp hc with hc | hc
        · exact absurd hc (by decide)
        · exact x.2.not_mem (by decide) (by decide) hc
    rw [hquality, getNeighborQuality_eq, scanTokens_eq _ htokens (length_le_joined _ _), readQuality_list]
  obtain ⟨neighbors, neighbor, hinsert, hfind, hlevels, hfor⟩ :=
    @neighborInsert_getUpdate etxMetric table h ndp.neighbors srcId srcAdd
      (if ndp.etxMetric then listed ndp.id qs else 0) fresh
  refine ⟨{ ndp with neighbors := neighbors }, neighbor, ?_, hfind, hlevels, fun hetx => ?_⟩
  · rw [recvHello]
    simp only [hstring, hstarts.first, hstop, htable, Option.bind_some, hnext, hrest, hqualities]
    cases hetx : ndp.etxMetric with
    | true =>
      rw [hetx, if_pos rfl] at hinsert
      rw [if_pos rfl, Option.bind_some, hinsert]
      rfl
    | false =>
      rw [hetx, if_neg Bool.false_ne_true] at hinsert
      rw [if_neg Bool.false_ne_true, Option.bind_some, hinsert]
      rfl
  · rw [hfor, if_pos hetx]

/-- The quality 0.5. -/
def half : Printed where
  text := ['0', '.', '5']
  text_ne_nil := by simp
  plain := by simp [Char.isDigit]

/-- Two ways to the network 7, on the level 3. -/
def twoWays : RoutingTable := fun i => if i.val = 3 then [⟨7, 3, rtrEtxMax, 5⟩, ⟨7, 2, rtrEtxMax, 6⟩] else []

theorem hello_survives_twoWays :
    ∃ ndp' neighbor,
      recvHello ⟨4, true, OrderedMap.empty⟩ 9 12
          (helloText (getUpdate true twoWays) (getNeighborQuality [(3, half), (4, half)])) (fun _ => 0) = some ndp' ∧
        ndp'.neighbors.find? 9 = some neighbor ∧
        (∀ i, neighbor.table i = received ((twoWays i).argmin (rank true))) ∧
        (true = true → neighbor.forLinkQuality = listed 4 [(3, half), (4, half)]) := by
  apply hello_survives true twoWays [(3, half), (4, half)] ⟨4, true, OrderedMap.empty⟩ 9 12 (fun _ => 0)
  intro i e he
  rw [twoWays] at he
  split at he
  · rcases mem_cons.mp he with rfl | he
    · decide
    · rw [mem_singleton.mp he]
      decide
  · cases he

end NetSim.Mdart
