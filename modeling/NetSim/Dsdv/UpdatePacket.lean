import NetSim.Dsdv.Node

/-! # DSDV update packets

`makeUpdate` counts the entries that go into an update, may renew the own entry, and writes the entries behind
their number; `decode` is the loop of `processUpdate` that reads them. All writes are inside the packet and the
assertion on the count holds (`makeUpdate_some`). But the number has one byte: of `k` routes the first `k % 256`
are read, so a packet carries the table just when at most 255 routes are `eligible` (`carries_iff`).
-/

namespace NetSim.DsdvNode

open List ByteMemory

/-! ## Bytes -/

def Advert.bytes (a : Advert) : List Byte :=
  (wordBytes 4 a.dst).reverse ++ [BitVec.ofNat 8 a.metric] ++ (wordBytes 4 a.seqnum).reverse

def routeBytes (adverts : List Advert) : List Byte := adverts.flatMap Advert.bytes

@[simp] theorem Advert.length_bytes (a : Advert) : a.bytes.length = 9 := by
  simp [Advert.bytes, length_wordBytes 4 a.dst]

namespace DsdvAgent

variable {cfg : DsdvConfig} {n : DsdvAgent} {now : ℚ} {full periodic : Bool} {fresh : ℤ → Byte}

/-- A route is read as it was written, if its metric fits into a byte. -/
theorem advertOf_bytes {a : Advert} (h : a.metric ≤ big) : advertOf a.bytes = a := by
  obtain ⟨dst, metric, seqnum⟩ := a
  have hd : (wordBytes 4 dst).reverse.length = 4 := length_reverse.trans (length_wordBytes 4 dst)
  have hs : (wordBytes 4 seqnum).reverse.length = 4 := by simp
  have hmetric : (BitVec.ofNat 8 metric).toNat = metric := by
    rw [BitVec.toNat_ofNat]
    exact Nat.mod_eq_of_lt (lt_of_le_of_lt h (by decide))
  rw [advertOf, Advert.bytes, append_assoc]
  dsimp only at h ⊢
  rw [take_left' hd, getD_append_right _ _ _ _ hd.le, hd, drop_append, hd,
    drop_eq_nil_of_le (hd.trans_le (by decide))]
  simp only [reverse_reverse, singleton_append, Nat.sub_self, getD_cons_zero, nil_append, drop_succ_cons, drop_zero,
    Nat.reduceSub, hmetric]
  congr 1
  · exact word_wordBytes 4 dst
  · exact word_wordBytes 4 seqnum

/-- The loop reads the first routes of those that lie there. -/
theorem readAdverts_of_has {m : Memory} {adverts : List Advert} (hmetric : ∀ a ∈ adverts, a.metric ≤ big)
    {w : ℤ} (h : m.Has w (routeBytes adverts)) {i : ℕ} (hi : i ≤ adverts.length) :
    readAdverts m i w = some (adverts.take i) := by
  induction adverts generalizing w i with
  | nil =>
    rw [Nat.le_zero.mp hi]
    rfl
  | cons a adverts ih =>
    cases i with
    | zero => rfl
    | succ i =>
      obtain ⟨hfirst, hrest⟩ := h.append
      have hload := hfirst.load
      rw [Advert.length_bytes] at hload hrest
      have htail := ih (fun b hb => hmetric b (mem_cons_of_mem _ hb)) hrest (Nat.le_of_succ_le_succ hi)
      rw [readAdverts, hload, Option.bind_some, advertOf_bytes (hmetric a mem_cons_self)]
      exact congrArg (Option.map (a :: ·)) htail

/-! ## What is eligible -/

/-- A node that was started: it may always advertise its own entry. -/
structure Started (cfg : DsdvConfig) (n : DsdvAgent) (now : ℚ) : Prop where
  own : ∃ e, n.table.find? cfg.myaddr = some e ∧ e.advertiseOkAt ≤ now
  metric : ∀ x ∈ n.table.entries, x.2.metric ≤ big
  clock : 0 ≤ now

/-- `startUp` starts the node. -/
theorem started_startUp {t : ℚ} (ht : 0 ≤ t) (hnow : t ≤ now) : Started cfg (startUp cfg t) now := by
  refine ⟨⟨_, OrderedMap.find?_set_self, ht.trans hnow⟩, ?_, ht.trans hnow⟩
  intro x hx
  have h : x = (cfg.myaddr, ownEnt cfg t) := by
    simpa [startUp, OrderedMap.set, OrderedMap.empty, OrderedMap.put] using hx
  rw [h]
  exact Nat.zero_le _

/-- The mode of the update: much news makes it a periodic one. -/
def mode (n : DsdvAgent) (now : ℚ) (periodic : Bool) : Bool := periodic || n.muchChanged now

def Due (now : ℚ) (full : Bool) (e : RtableEnt) : Prop :=
  e.advertiseOkAt ≤ now ∧ (full = true ∨ e.advertSeqnum = true ∨ e.advertMetric = true)

instance decidableDue (now : ℚ) (full : Bool) (e : RtableEnt) : Decidable (Due now full e) :=
  inferInstanceAs (Decidable (_ ∧ _))

/-- The route that the writing loop takes from an entry. -/
def written (x : NsAddr × RtableEnt) : Advert := ⟨x.1, x.2.metric, x.2.seqnum⟩

/-- What the update says of an entry; of the node itself a periodic one has the new sequence number. -/
def routeOf (cfg : DsdvConfig) (n : DsdvAgent) (full : Bool) (x : NsAddr × RtableEnt) : Advert :=
  if full = true ∧ x.1 = cfg.myaddr then ⟨cfg.myaddr, 0, n.seqno + 2⟩ else written x

def eligible (cfg : DsdvConfig) (n : DsdvAgent) (now : ℚ) (full : Bool) : List Advert :=
  (n.table.entries.filter (fun x => Due now full x.2)).map (n.routeOf cfg full)

theorem goes_eq_due (e : RtableEnt) : goes now full e = decide (Due now full e) := by
  cases full <;> simp [goes, changed, Due, and_comm]

theorem metric_of_eligible (h : Started cfg n now) {a : Advert} (ha : a ∈ n.eligible cfg now full) :
    a.metric ≤ big := by
  obtain ⟨x, hx, rfl⟩ := mem_map.mp ha
  rw [routeOf]
  split
  · exact Nat.zero_le _
  · exact h.metric x (mem_filter.mp hx).1

/-! ## The passes over the table -/

def renewed (cfg : DsdvConfig) (n : DsdvAgent) (now : ℚ) : DsdvAgent :=
  { n with
    seqno := n.seqno + 2
    table := n.table.set cfg.myaddr (freshEnt cfg { n with seqno := n.seqno + 2 } now) }

/-- The agent whose table is written into the update. -/
def advertiser (cfg : DsdvConfig) (n : DsdvAgent) (now : ℚ) (full : Bool) : DsdvAgent :=
  if full then n.renewed cfg now else n

theorem renew_eq : (if full then n.renew cfg now else some n) = some (n.advertiser cfg now full) := by
  cases full with
  | true =>
    have hbound : (freshEnt cfg { n with seqno := n.seqno + 2 } now).metric ≤ big := Nat.zero_le _
    rw [if_pos rfl, renew, RoutingTable.addEntry, if_pos hbound]
    rfl
  | false => rfl

/-- The entries that the writing loop meets are the eligible ones. -/
theorem advertiser_eligible (h : Started cfg n now) :
    ((n.advertiser cfg now full).table.entries.filter (fun x => goes now full x.2)).map written =
      n.eligible cfg now full := by
  simp only [goes_eq_due]
  cases full with
  | false =>
    apply map_congr_left
    intro x _
    rw [routeOf, if_neg (fun hx => Bool.false_ne_true hx.1)]
  | true =>
    obtain ⟨own, hown, hok⟩ := h.own
    set renewal : NsAddr × RtableEnt → NsAddr × RtableEnt := fun x =>
      if x.1 = cfg.myaddr then (cfg.myaddr, freshEnt cfg { n with seqno := n.seqno + 2 } now) else x with hrenewal
    have hentries : (n.advertiser cfg now true).table.entries = n.table.entries.map renewal :=
      OrderedMap.entries_set hown
    -- the own entry is due before and after it is renewed
    have hdue : ∀ x ∈ n.table.entries,
        ((fun x : NsAddr × RtableEnt => decide (Due now true x.2)) ∘ renewal) x = decide (Due now true x.2) := by
      intro x hx
      rw [Function.comp_apply, hrenewal, decide_eq_decide]
      dsimp only
      by_cases hself : x.1 = cfg.myaddr
      · have hx2 : x.2 = own := by
          have hfind := OrderedMap.find?_eq_some.mpr hx
          rw [hself, hown] at hfind
          exact (Option.some.inj hfind).symm
        rw [if_pos hself, hx2]
        exact iff_of_true ⟨h.clock, .inl rfl⟩ ⟨hok, .inl rfl⟩
      · rw [if_neg hself]
    rw [hentries, filter_map, map_map, filter_congr hdue]
    apply map_congr_left
    intro x _
    rw [Function.comp_apply, routeOf, hrenewal]
    dsimp only
    by_cases hself : x.1 = cfg.myaddr
    · rw [if_pos hself, if_pos ⟨rfl, hself⟩]
      rfl
    · rw [if_neg hself, if_neg (fun hx => hself hx.2)]

/-- The first pass counts them. -/
theorem count_eligible :
    (if full then (n.table.size : ℤ) - n.table.entries.countP (fun x => now < x.2.advertiseOkAt)
      else n.changeCount now) = (n.eligible cfg now full).length := by
  rw [eligible, length_map, ← countP_eq_length_filter]
  cases full with
  | false =>
    rw [if_neg Bool.false_ne_true, changeCount, Nat.cast_inj]
    apply countP_congr
    intro x _
    simp [changed, Due, and_comm]
  | true =>
    have hsplit := length_eq_countP_add_countP (fun x : NsAddr × RtableEnt => decide (now < x.2.advertiseOkAt))
      (l := n.table.entries)
    have hrest : n.table.entries.countP (fun x => ¬ decide (now < x.2.advertiseOkAt) = true) =
        n.table.entries.countP (fun x => decide (Due now true x.2)) := by
      apply countP_congr
      intro x _
      simp [Due]
    rw [if_pos rfl, OrderedMap.size, hsplit, hrest]
    push_cast
    ring

/-- **The writing loop** writes the routes of the entries that go, and counts them down. -/
theorem writeEnts_spec (xs : List (NsAddr × RtableEnt)) (data : Memory) (walk count : ℤ) (hwalk : 0 ≤ walk)
    {adverts : List Advert}
    (hadverts : (xs.filter (fun x => goes now full x.2)).map written = adverts)
    (hsize : walk + 9 * adverts.length ≤ data.size) :
    ∃ data', writeEnts now full xs data walk count = some (data', count - adverts.length) ∧
      data'.Has walk (routeBytes adverts) ∧ data.Frame data' walk (walk + 9 * adverts.length) := by
  induction xs generalizing data walk count adverts with
  | nil =>
    subst hadverts
    exact ⟨data, by simp [writeEnts], Memory.has_nil hwalk (by simpa using hsize), Memory.Frame.refl _ _ _⟩
  | cons x xs ih =>
    rw [writeEnts]
    by_cases hx : goes now full x.2
    · rw [@filter_cons_of_pos _ (fun x : NsAddr × RtableEnt => goes now full x.2) _ _ hx, map_cons] at hadverts
      subst hadverts
      rw [length_cons] at hsize
      have hlen : (entBytes x.1 x.2).length = 9 := (written x).length_bytes
      -- this entry, then those behind it
      obtain ⟨data₁, hstore, hhas, hframe⟩ :=
        Memory.store_spec (m := data) (l := entBytes x.1 x.2) hwalk (by rw [hlen]; push_cast at hsize ⊢; omega)
      rw [hlen] at hframe
      obtain ⟨data', hloop, hhas', hframe'⟩ := ih data₁ (walk + 9) (count - 1) (by omega) rfl
        (by rw [hframe.size]; push_cast at hsize; omega)
      refine ⟨data', ?_, ?_, ?_⟩
      · rw [if_pos hx, hstore, Option.bind_some, hloop, length_cons]
        push_cast
        rw [sub_sub, add_comm (1 : ℤ)]
      · apply Memory.Has.concat
        · exact hhas.frame hframe' (.inl (by rw [hlen]; push_cast; omega))
        · rw [(written x).length_bytes]
          exact hhas'
      · apply (hframe.mono le_rfl _).trans (hframe'.mono _ _)
        · rw [length_cons]
          push_cast
          omega
        · omega
        · rw [length_cons]
          push_cast
          omega
    · rw [if_neg hx]
      rw [@filter_cons_of_neg _ (fun x : NsAddr × RtableEnt => goes now full x.2) _ _ hx] at hadverts
      exact ih data walk count hwalk hadverts hsize

/-! ## Updates -/

def afterUpdate (cfg : DsdvConfig) (n : DsdvAgent) (now : ℚ) (full : Bool) : DsdvAgent :=
  { n.advertiser cfg now full with
    table := (n.advertiser cfg now full).table.mapVals (fun _ => advertised now full) }

/-- Without an eligible entry there is no update. -/
theorem makeUpdate_none (hfull : n.mode now periodic = full) (hnone : n.eligible cfg now full = []) :
    n.makeUpdate cfg now periodic fresh = some (n.advertiser cfg now full, full, none) := by
  rw [mode] at hfull
  have hcount := @count_eligible cfg n now full
  rw [hnone, length_nil, Nat.cast_zero] at hcount
  rw [makeUpdate, hfull, renew_eq, Option.bind_some, if_pos hcount]

/-- **An update is written**: the assertion holds, all writes are in the packet, and of the eligible routes the
first are read, as many as the byte of the count says. -/
theorem makeUpdate_some (h : Started cfg n now) (hfull : n.mode now periodic = full)
    (hsome : n.eligible cfg now full ≠ []) :
    ∃ data, n.makeUpdate cfg now periodic fresh = some (n.afterUpdate cfg now full, full, some data) ∧
      decode data =
        some ((n.eligible cfg now full).take ((n.eligible cfg now full).length % 256)) := by
  rw [mode] at hfull
  have hcount := @count_eligible cfg n now full
  have hentries := @advertiser_eligible cfg n now full h
  have hmetric := fun a => @metric_of_eligible cfg n now full h a
  generalize n.eligible cfg now full = due at *
  have hpos : 0 < due.length := length_pos_of_ne_nil hsome
  have hcount0 : (due.length : ℤ) ≠ 0 := by omega
  have hbytes : 0 ≤ (due.length : ℤ) * 9 + 1 := by omega
  -- the count, the entries, and what is read of them
  set packet : Memory := ⟨((due.length : ℤ) * 9 + 1).toNat, fresh⟩
  have hsize : (packet.size : ℤ) = due.length * 9 + 1 := Int.toNat_of_nonneg hbytes
  obtain ⟨data₁, hstore, hhas, hframe⟩ :=
    Memory.store_spec (m := packet) (a := 0) (l := [BitVec.ofInt 8 due.length]) le_rfl
      (by rw [hsize, length_singleton]; omega)
  have hroom : 1 + 9 * (due.length : ℤ) ≤ data₁.size := by
    rw [hframe.size, hsize]
    omega
  obtain ⟨data, hloop, hroutes, hframe'⟩ := writeEnts_spec _ data₁ 1 due.length Int.one_nonneg hentries hroom
  refine ⟨data, ?_, ?_⟩
  · rw [makeUpdate, hfull, renew_eq, Option.bind_some, hcount, if_neg hcount0, hstore, Option.bind_some, hloop,
      Option.bind_some, if_pos (sub_self _)]
    rfl
  · have hload : data.load 0 1 = some [BitVec.ofInt 8 due.length] :=
      (hhas.frame hframe' (.inl (by simp))).load
    have hbyte : (BitVec.ofInt 8 (due.length : ℤ)).toNat = due.length % 256 := by
      rw [BitVec.ofInt_natCast, BitVec.toNat_ofNat]
    rw [decode, hload, Option.bind_some, headD_cons, hbyte]
    exact readAdverts_of_has hmetric hroutes (Nat.mod_le _ _)

/-- The update carries the table: it is made, and it is decoded to the eligible routes, or there are none. -/
def Carries (cfg : DsdvConfig) (n : DsdvAgent) (now : ℚ) (periodic : Bool) (fresh : ℤ → Byte) : Prop :=
  ∃ n' data, n.makeUpdate cfg now periodic fresh = some (n', n.mode now periodic, data) ∧
    (data = none ↔ n.eligible cfg now (n.mode now periodic) = []) ∧
      ∀ m, data = some m → decode m = some (n.eligible cfg now (n.mode now periodic))

/-- What is read is all of it just when the count fits into its byte. -/
theorem take_count_eq {due : List Advert} : due.take (due.length % 256) = due ↔ due.length ≤ 255 := by
  rw [take_eq_self_iff]
  omega

/-- **An update packet carries the table** just when at most 255 routes are eligible. -/
theorem carries_iff (cfg : DsdvConfig) (n : DsdvAgent) (now : ℚ) (periodic : Bool) (fresh : ℤ → Byte)
    (h : Started cfg n now) :
    Carries cfg n now periodic fresh ↔ (n.eligible cfg now (n.mode now periodic)).length ≤ 255 := by
  by_cases hdue : n.eligible cfg now (n.mode now periodic) = []
  · rw [hdue]
    refine iff_of_true ⟨_, _, makeUpdate_none rfl hdue, ?_, ?_⟩ (Nat.zero_le _)
    · exact iff_of_true rfl hdue
    · exact fun m hm => absurd hm (Option.some_ne_none m).symm
  · obtain ⟨data, hmade, hread⟩ := @makeUpdate_some cfg n now _ periodic fresh h rfl hdue
    rw [← take_count_eq]
    constructor
    · rintro ⟨n', data', hmade', -, hall⟩
      rw [hmade] at hmade'
      cases hmade'
      have hread' := hall data rfl
      rw [hread] at hread'
      exact Option.some.inj hread'
    · intro htake
      refine ⟨_, _, hmade, iff_of_false (Option.some_ne_none data) hdue, ?_⟩
      intro m hm
      cases hm
      rw [hread, htake]

/-- Node 0 of a network without a base station. -/
def node0 : DsdvConfig where
  myaddr := (0 : BitVec 32)
  useMac := true
  diffSubnet := fun _ => false
  baseStn := (-1 : BitVec 32)
  alpha := 7 / 8
  wst0 := 6
  alpha_nonneg := by norm_num
  alpha_le_one := by norm_num
  wst0_nonneg := by norm_num

/-- Node 0 knows the nodes 1, 2 and 3; it may not advertise node 2 before the time 5. -/
def threeRoutes : DsdvAgent :=
  { startUp node0 0 with
    table := (((startUp node0 0).table.set (1 : BitVec 32) { RtableEnt.zero with metric := 1 }).set (2 : BitVec 32)
      { RtableEnt.zero with metric := 2, advertiseOkAt := 5 }).set (3 : BitVec 32) { RtableEnt.zero with metric := 3 } }

theorem carries_iff_started :
    Carries node0 threeRoutes 1 true (fun _ => 0) ∧
      threeRoutes.eligible node0 1 true =
        [⟨(0 : BitVec 32), 0, 4⟩, ⟨(1 : BitVec 32), 1, 0⟩, ⟨(3 : BitVec 32), 3, 0⟩] :=
  ⟨(carries_iff node0 threeRoutes 1 true (fun _ => 0)
    ⟨⟨_, rfl, by decide +kernel⟩, by decide +kernel, by decide +kernel⟩).mpr (by decide +kernel), by decide +kernel⟩

/-- Node 0 knows the nodes up to 255. -/
def crowded : DsdvAgent where
  seqno := 2
  table :=
    { entries := (range 256).map (fun i => ((BitVec.ofNat 32 i : NsAddr), RtableEnt.zero))
      sorted := by
        rw [pairwise_map]
        refine pairwise_lt_range.imp_of_mem (fun {i j} hi hj hij => ?_)
        show (BitVec.ofNat 32 i).toInt < (BitVec.ofNat 32 j).toInt
        rw [mem_range] at hi hj
        rw [BitVec.toInt_eq_toNat_cond, BitVec.toInt_eq_toNat_cond, BitVec.toNat_ofNat, BitVec.toNat_ofNat]
        omega }
  lasttup := -10
  triggers := []
  made := 0

/-- 256 routes are counted as none. -/
theorem crowded_not_carried : ¬ Carries node0 crowded 0 true (fun _ => 0) := by
  have hall : ∀ x ∈ crowded.table.entries, x.2 = RtableEnt.zero := by
    intro x hx
    obtain ⟨i, -, rfl⟩ := mem_map.mp hx
    rfl
  have hstarted : Started node0 crowded 0 := by
    refine ⟨⟨RtableEnt.zero, ?_, le_rfl⟩, fun x hx => ?_, le_rfl⟩
    · apply OrderedMap.find?_eq_some.mpr
      exact mem_map.mpr ⟨0, mem_range.mpr (by decide), rfl⟩
    · rw [hall x hx]
      exact Nat.zero_le _
  have hlength : (crowded.eligible node0 0 true).length = 256 := by
    have hdue : ∀ x ∈ crowded.table.entries, decide (Due 0 true x.2) = true := by
      intro x hx
      rw [hall x hx]
      exact decide_eq_true ⟨le_rfl, .inl rfl⟩
    rw [eligible, filter_eq_self.mpr hdue, length_map]
    show ((range 256).map _).length = 256
    rw [length_map, length_range]
  have hdue : crowded.eligible node0 0 (crowded.mode 0 true) ≠ [] := by
    intro hnil
    rw [mode, Bool.true_or] at hnil
    rw [hnil] at hlength
    cases hlength
  rintro ⟨n', data', hmade', -, hall'⟩
  obtain ⟨data, hmade, hread⟩ := @makeUpdate_some node0 crowded 0 _ true (fun _ => 0) hstarted rfl hdue
  rw [hmade] at hmade'
  cases hmade'
  have hread' := (hall' data rfl).symm.trans hread
  rw [mode, Bool.true_or, hlength, Nat.mod_self, take_zero] at hread'
  exact hdue (Option.some.inj hread')

end DsdvAgent

end NetSim.DsdvNode
