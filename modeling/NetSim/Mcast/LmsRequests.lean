import NetSim.Mcast.LmsNaks

/-! # Remembered requests

`add_req` compares ranges and turning points, but not the numbers of the NAKs, and it cuts its list at a
place behind the tenth request; `add_rdl` cuts nothing. So repliers answer retries, and their lists stay
within their bounds, exactly in the runs in which a remembered request comes again with the same number
only, a new one while there is room, and a repair while there is room (`repliers_iff`).
-/

namespace NetSim.Lms

open List RcvBuffer

variable {l : RequestList} {rq p : Request} {n : ℕ} {past : List Request} {r r' : LmsReceiver}
  {s s' : LmsSender} {o : List Sent} {now : ℚ} {i rseq size : ℤ}

/-! ## What is promised -/

def Event.request? (e : ℚ × Event) : Option Request :=
  match e.2 with
  | .request rq => some rq
  | _ => none

def requestsOf (events : List (ℚ × Event)) : List Request := events.filterMap Event.request?

/-- A retry, after the requests `past`: its number is larger than those before it with the same range and
turning point. -/
def Retry (past : List Request) (rq : Request) : Prop :=
  0 < rq.nakSeqn ∧ ∀ q ∈ past, q.Same rq → q.nakSeqn < rq.nakSeqn

instance (past : List Request) (rq : Request) : Decidable (Retry past rq) :=
  inferInstanceAs (Decidable (_ ∧ _))

/-- The request is remembered, with its number. -/
def RequestList.Repeats (l : RequestList) (rq : Request) : Prop :=
  ∃ p ∈ l.requests, p.Same rq ∧ p.nakSeqn = rq.nakSeqn

def RequestList.Fits (l : RequestList) (rq : Request) : Prop :=
  if ∃ p ∈ l.requests, p.Same rq then l.Repeats rq else l.requests.length < lmsRqlMax

instance (l : RequestList) (rq : Request) : Decidable (l.Repeats rq) :=
  inferInstanceAs (Decidable (∃ p ∈ l.requests, _))

instance (l : RequestList) (rq : Request) : Decidable (l.Fits rq) := by
  unfold RequestList.Fits
  infer_instance

def RequestList.Counted (l : RequestList) : Prop := l.size = l.requests.length

/-- What a receiver promises about an event: retries are answered from what it has, duplicates are
repetitions, and the lists keep to their bounds and are counted, `rql_sz_` from the first request on. -/
structure LmsReceiver.Honours (past : List (ℚ × Event)) (e : ℚ × Event) (r r' : LmsReceiver)
    (o : List Sent) : Prop where
  retry : ∀ rq, e.2 = .request rq → Retry (requestsOf past) rq → ∀ i, 0 ≤ i →
    o.count (r.sendDmcast rq i 3) = if rq.lo ≤ i ∧ i ≤ rq.hi ∧ Added (arrivals past) i then 1 else 0
  duplicate : ∀ rq, e.2 = .request rq → r'.dupReqs ≠ r.dupReqs → r.rql.Repeats rq
  requests : r'.rql.requests.length ≤ lmsRqlMax
  repairs : r'.rdl.length ≤ lmsRdlMax
  rqlSz : requestsOf (past ++ [e]) ≠ [] → r'.rql.Counted
  rdlSz : r'.rdlSz = r'.rdl.length

/-- What a sender promises about a request. It has all packets. -/
structure LmsSender.Honours (past : List Request) (rq : Request) (s s' : LmsSender) (o : List Sent) :
    Prop where
  retry : Retry past rq → ∀ i,
    o.count (s.sendDmcast rq i 3) = if rq.lo ≤ i ∧ i ≤ rq.hi then 1 else 0
  duplicate : s'.dupReqs ≠ s.dupReqs → s.reqList.Repeats rq
  requests : s'.reqList.requests.length ≤ lmsRqlMax
  reqListSz : s'.reqList.Counted

/-- A retransmission, of a packet that was missing. -/
def LmsReceiver.Recovers (r : LmsReceiver) (rseq : ℤ) : Prop :=
  rseq < r.rcvbuf.nextpkt ∧ r.rcvbuf.existsPkt rseq = false

instance (r : LmsReceiver) (rseq : ℤ) : Decidable (r.Recovers rseq) := inferInstanceAs (Decidable (_ ∧ _))

def LmsReceiver.Fits (r : LmsReceiver) (e : ℚ × Event) : Prop :=
  match e.2 with
  | .request rq => r.rql.Fits rq
  | .data rseq _ => r.Recovers rseq → r.rdl.length < lmsRdlMax
  | _ => True

instance (r : LmsReceiver) : ∀ e : ℚ × Event, Decidable (r.Fits e)
  | (_, .request rq) => inferInstanceAs (Decidable (r.rql.Fits rq))
  | (_, .data rseq _) => inferInstanceAs (Decidable (r.Recovers rseq → _))
  | (_, .lms _) => inferInstanceAs (Decidable True)
  | (_, .nakTimer _) => inferInstanceAs (Decidable True)

structure LmsReceiver.New (r : LmsReceiver) : Prop extends r.Fresh where
  requests : r.rql.requests = []
  rdl : r.rdl = []
  rdlSz : r.rdlSz = 0

/-! ## The list of requests -/

theorem Request.Same.trans {q : Request} (h : p.Same q) (h' : q.Same rq) : p.Same rq :=
  ⟨h.1.trans h'.1, h.2.1.trans h'.2.1, h.2.2.1.trans h'.2.2.1, h.2.2.2.trans h'.2.2.2⟩

/-- A request that is remembered under its range and turning point is counted there. -/
theorem addReq_old (hlen : l.requests.length ≤ n) (hp : ∃ p ∈ l.requests, p.Same rq) :
    ∃ k c, l.addReq n rq =
      (⟨l.requests.modify k (fun p => { p with dupCnt := p.dupCnt + 1 }), l.size, c⟩, false) := by
  obtain ⟨p, hp, hsame⟩ := hp
  have hne : l.requests ≠ [] := ne_nil_of_mem hp
  unfold RequestList.addReq
  rw [if_neg hne, take_of_length_le hlen]
  cases hfind : l.requests.findIdx? (fun p => decide (p.Same rq)) with
  | none =>
    have hno := findIdx?_eq_none_iff.mp hfind p hp
    exact absurd hsame (of_decide_eq_false hno)
  | some k => exact ⟨k, _, rfl⟩

theorem addReq_new (hlen : l.requests.length ≤ n) (hp : ¬ ∃ p ∈ l.requests, p.Same rq) :
    l.addReq n rq =
      (⟨rq :: l.requests, if l.requests = [] then 1 else l.size + 1, l.maxDupNaks⟩, true) := by
  have hfind : l.requests.findIdx? (fun p => decide (p.Same rq)) = none :=
    findIdx?_eq_none_iff.mpr (fun p hmem => decide_eq_false (fun hsame => hp ⟨p, hmem, hsame⟩))
  have hget : l.requests[n + 1]? = none := getElem?_eq_none (by omega)
  unfold RequestList.addReq
  rw [take_of_length_le hlen, hfind, hget]
  split
  · rename_i hnil
    rw [hnil]
  · rfl

structure Remembers (past : List Request) (l : RequestList) : Prop where
  length : l.requests.length ≤ lmsRqlMax
  counted : past ≠ [] → l.Counted
  nil : past = [] → l.requests = []
  seen : ∀ p ∈ l.requests, ∃ q ∈ past, q.Same p ∧ q.nakSeqn = p.nakSeqn

/-- A retry is not remembered with its number. -/
theorem Remembers.not_repeats (h : Remembers past l) (hrq : Retry past rq) : ¬ l.Repeats rq := by
  rintro ⟨p, hp, hsame, hseqn⟩
  obtain ⟨q, hq, hqp, hq'⟩ := h.seen p hp
  have hlt := hrq.2 q hq (hqp.trans hsame)
  omega

theorem Remembers.addReq_length (h : Remembers past l) (hn : lmsRqlMax ≤ n) :
    (l.addReq n rq).1.requests.length =
      if ∃ p ∈ l.requests, p.Same rq then l.requests.length else l.requests.length + 1 := by
  split
  · rename_i hp
    obtain ⟨k, c, heq⟩ := addReq_old (h.length.trans hn) hp
    rw [heq]
    exact length_modify _ _ _
  · rename_i hp
    rw [addReq_new (h.length.trans hn) hp]
    rfl

theorem Remembers.addReq_snd (h : Remembers past l) (hn : lmsRqlMax ≤ n) :
    (l.addReq n rq).2 = true ↔ ¬ ∃ p ∈ l.requests, p.Same rq := by
  by_cases hp : ∃ p ∈ l.requests, p.Same rq
  · obtain ⟨k, c, heq⟩ := addReq_old (h.length.trans hn) hp
    rw [heq]
    exact iff_of_false Bool.false_ne_true (not_not.mpr hp)
  · rw [addReq_new (h.length.trans hn) hp]
    exact iff_of_true rfl hp

theorem Remembers.addReq_counted (h : Remembers past l) (hn : lmsRqlMax ≤ n) :
    (l.addReq n rq).1.Counted := by
  by_cases hp : ∃ p ∈ l.requests, p.Same rq
  · obtain ⟨k, c, heq⟩ := addReq_old (h.length.trans hn) hp
    obtain ⟨p, hp, -⟩ := hp
    have hne : past ≠ [] := fun hnil => ne_nil_of_mem hp (h.nil hnil)
    rw [heq, RequestList.Counted]
    dsimp only
    rw [length_modify]
    exact h.counted hne
  · rw [addReq_new (h.length.trans hn) hp, RequestList.Counted]
    dsimp only
    split
    · rename_i hnil
      rw [hnil]
      rfl
    · rename_i hne
      have hpast : past ≠ [] := fun hnil => hne (h.nil hnil)
      have hcount : l.size = l.requests.length := h.counted hpast
      rw [hcount, length_cons]
      push_cast
      rfl

/-- **A request that fits** leaves a list that keeps to its bound. -/
theorem Remembers.addReq (h : Remembers past l) (hn : lmsRqlMax ≤ n) (hfits : l.Fits rq) :
    Remembers (past ++ [rq]) (l.addReq n rq).1 where
  length := by
    rw [h.addReq_length hn]
    by_cases hp : ∃ p ∈ l.requests, p.Same rq
    · rw [if_pos hp]
      exact h.length
    · rw [RequestList.Fits, if_neg hp] at hfits
      rw [if_neg hp]
      exact hfits
  counted _ := h.addReq_counted hn
  nil hnil := absurd hnil (by simp)
  seen p hp := by
    have hkeep : ∀ p ∈ l.requests, ∃ q ∈ past ++ [rq], q.Same p ∧ q.nakSeqn = p.nakSeqn := by
      intro p hp
      obtain ⟨q, hq, hqp⟩ := h.seen p hp
      exact ⟨q, mem_append_left _ hq, hqp⟩
    by_cases hold : ∃ p ∈ l.requests, p.Same rq
    · obtain ⟨k, c, heq⟩ := addReq_old (h.length.trans hn) hold
      rw [heq] at hp
      obtain ⟨j, hj, hget⟩ := mem_iff_getElem.mp hp
      rw [getElem_modify] at hget
      have hmem := hkeep _ (getElem_mem (show j < l.requests.length by simpa using hj))
      split at hget
      · rw [← hget]
        exact hmem
      · rw [← hget]
        exact hmem
    · rw [addReq_new (h.length.trans hn) hold] at hp
      rcases mem_cons.mp hp with rfl | hp
      · exact ⟨p, by simp, ⟨rfl, rfl, rfl, rfl⟩, rfl⟩
      · exact hkeep p hp

/-- **The condition is exact**: a request that the list takes as remembered must be a repetition, and any
other needs room. -/
theorem Remembers.fits_iff (h : Remembers past l) (hn : lmsRqlMax ≤ n) :
    l.Fits rq ↔ ((l.addReq n rq).2 = false → l.Repeats rq) ∧
      (l.addReq n rq).1.requests.length ≤ lmsRqlMax := by
  have hst := @Remembers.addReq_snd _ rq _ _ h hn
  rw [h.addReq_length hn]
  unfold RequestList.Fits
  split
  · rename_i hp
    have hfalse : (l.addReq n rq).2 = false := Bool.eq_false_iff.mpr (fun ht => hst.mp ht hp)
    exact ⟨fun hrep => ⟨fun _ => hrep, h.length⟩, fun hall => hall.1 hfalse⟩
  · rename_i hp
    have htrue : (l.addReq n rq).2 = true := hst.mpr hp
    constructor
    · exact fun hlt => ⟨fun hf => absurd (htrue.symm.trans hf) (by decide), hlt⟩
    · exact fun hall => hall.2

/-- A retry that fits is not suppressed. -/
theorem Remembers.retry_added (h : Remembers past l) (hn : lmsRqlMax ≤ n) (hrq : Retry past rq)
    (hfits : l.Fits rq) : (l.addReq n rq).2 = true := by
  apply (h.addReq_snd hn).mpr
  intro hp
  rw [RequestList.Fits, if_pos hp] at hfits
  exact h.not_repeats hrq hfits

theorem mem_range : i ∈ rq.range ↔ rq.lo ≤ i ∧ i ≤ rq.hi := by
  unfold Request.range
  rw [mem_map]
  constructor
  · rintro ⟨k, hk, rfl⟩
    rw [List.mem_range] at hk
    omega
  · rintro ⟨hlo, hhi⟩
    exact ⟨(i - rq.lo).toNat, List.mem_range.mpr (by omega), by omega⟩

theorem nodup_range : rq.range.Nodup := by
  refine List.nodup_range.map (fun j k hjk => ?_)
  have heq : rq.lo + (j : ℤ) = rq.lo + k := hjk
  omega

/-- The packets of a range that are sent: one each. -/
theorem count_dmcast {send : ℤ → Sent} (hsend : Function.Injective send) (f : ℤ → Bool) :
    ((rq.range.filter f).map send).count (send i) =
      if rq.lo ≤ i ∧ i ≤ rq.hi ∧ f i = true then 1 else 0 := by
  rw [count_map_of_injective _ _ hsend, (nodup_range.filter f).count]
  refine if_congr ?_ rfl rfl
  rw [mem_filter, mem_range, and_assoc]

/-! ## A receiver -/

theorem sendDmcast_injective (r : LmsReceiver) (rq : Request) :
    Function.Injective (fun i => r.sendDmcast rq i 3) := by
  intro i j hij
  exact (Dmcast.mk.inj (Sent.dmcast.inj hij)).1

theorem LmsSender.sendDmcast_injective (s : LmsSender) (rq : Request) :
    Function.Injective (fun i => s.sendDmcast rq i 3) := by
  intro i j hij
  exact (Dmcast.mk.inj (Sent.dmcast.inj hij)).1

/-- What the lists of requests and repairs say. -/
structure SameLists (r r' : LmsReceiver) : Prop where
  rql : r'.rql = r.rql
  dupReqs : r'.dupReqs = r.dupReqs
  rdl : r'.rdl = r.rdl
  rdlSz : r'.rdlSz = r.rdlSz

theorem SameLists.refl (r : LmsReceiver) : SameLists r r := ⟨rfl, rfl, rfl, rfl⟩

theorem SameLists.trans {r₁ : LmsReceiver} (h : SameLists r r₁) (h' : SameLists r₁ r') : SameLists r r' :=
  ⟨h'.rql.trans h.rql, h'.dupReqs.trans h.dupReqs, h'.rdl.trans h.rdl, h'.rdlSz.trans h.rdlSz⟩

theorem SameLists.behind {r₁ : LmsReceiver} (h : SameLists r₁ r') (hrql : r₁.rql = r.rql)
    (hdup : r₁.dupReqs = r.dupReqs) (hrdl : r₁.rdl = r.rdl) (hsz : r₁.rdlSz = r.rdlSz) : SameLists r r' :=
  SameLists.trans ⟨hrql, hdup, hrdl, hsz⟩ h

theorem sampleLoss_frame (h : r.sampleLoss = some (r', o)) : SameLists r r' := by
  unfold LmsReceiver.sampleLoss at h
  split at h
  · cases h
    exact .refl r
  dsimp only at h
  split at h
  · cases h
    exact ⟨rfl, rfl, rfl, rfl⟩
  split at h
  · cases h
  cases h
  split <;> exact ⟨rfl, rfl, rfl, rfl⟩

theorem splitNak_frame (n : LmsNak) : SameLists r (r.splitNak now n rseq) := by
  unfold LmsReceiver.splitNak
  split
  · exact .refl r
  split
  · exact ⟨rfl, rfl, rfl, rfl⟩
  split <;> exact ⟨rfl, rfl, rfl, rfl⟩

theorem deleteNak_frame {n : LmsNak} (h : r.deleteNak n = some r') : SameLists r r' := by
  unfold LmsReceiver.deleteNak at h
  split at h
  · cases h
    exact ⟨rfl, rfl, rfl, rfl⟩
  · cases h

theorem recvGap_frame (h : r.recvGap now rseq = some (r', o)) :
    SameLists (if r.Recovers rseq then r.addRdl rseq now else r) r' := by
  unfold LmsReceiver.recvGap at h
  split at h
  · rename_i hlt
    cases h
    rw [if_neg (fun hrec : r.Recovers rseq => absurd hrec.1 (by omega))]
    exact ⟨rfl, rfl, rfl, rfl⟩
  split at h
  · rename_i hrec
    obtain ⟨n, -, hn⟩ := Option.bind_eq_some_iff.mp h
    obtain ⟨r₁, hdel, heq⟩ := Option.map_eq_some_iff.mp hn
    cases heq
    rw [if_pos (show r.Recovers rseq from hrec)]
    exact (splitNak_frame n).trans (deleteNak_frame hdel)
  · rename_i hrec
    cases h
    rw [if_neg (show ¬ r.Recovers rseq from hrec)]
    exact .refl r

/-- What `recv` does to the lists of requests and repairs. -/
theorem recv_frame (h : r.recv now rseq size = some (r', o)) :
    SameLists (if r.Recovers rseq then r.addRdl rseq now else r) r' := by
  obtain ⟨⟨r₁, o₁⟩, hgap, h⟩ := Option.bind_eq_some_iff.mp h
  obtain ⟨b, -, h⟩ := Option.bind_eq_some_iff.mp h
  obtain ⟨⟨r₂, o₂⟩, hloss, heq⟩ := Option.map_eq_some_iff.mp h
  cases heq
  have hbuf : SameLists r₁ { r₁ with rcvbuf := b } := ⟨rfl, rfl, rfl, rfl⟩
  have hrest : SameLists r₁ r₂ := hbuf.trans (sampleLoss_frame hloss)
  -- the size of the packet is no part of the lists
  have hsize : LmsReceiver.addRdl { r with dataSize := size } rseq now =
      { r.addRdl rseq now with dataSize := size } := by
    unfold LmsReceiver.addRdl
    dsimp only
    split <;> rfl
  have hfirst := recvGap_frame hgap
  by_cases hrec : r.Recovers rseq
  · rw [if_pos (show LmsReceiver.Recovers { r with dataSize := size } rseq from hrec), hsize] at hfirst
    rw [if_pos hrec]
    exact hrest.behind hfirst.rql hfirst.dupReqs hfirst.rdl hfirst.rdlSz
  · rw [if_neg (show ¬ LmsReceiver.Recovers { r with dataSize := size } rseq from hrec)] at hfirst
    rw [if_neg hrec]
    exact hrest.behind hfirst.rql hfirst.dupReqs hfirst.rdl hfirst.rdlSz

theorem addRdl_rql : (r.addRdl rseq now).rql = r.rql ∧ (r.addRdl rseq now).dupReqs = r.dupReqs := by
  unfold LmsReceiver.addRdl
  dsimp only
  split <;> exact ⟨rfl, rfl⟩

/-- The list of repairs takes one more; only its counter knows about the bound. -/
theorem addRdl_spec (hsz : r.rdlSz = r.rdl.length) (hlen : r.rdl.length ≤ lmsRdlMax) :
    (r.addRdl rseq now).rdl.length = r.rdl.length + 1 ∧
      (r.rdl.length < lmsRdlMax → (r.addRdl rseq now).rdlSz = r.rdl.length + 1) := by
  unfold LmsReceiver.addRdl
  dsimp only
  rw [hsz]
  split
  · rename_i hlt
    rw [length_take, length_cons]
    exact ⟨by omega, fun hroom => absurd hroom (by omega)⟩
  · exact ⟨length_cons, fun _ => rfl⟩

/-- What is known after the events `past`, when all of them fit. -/
structure Tidy (past : List (ℚ × Event)) (r : LmsReceiver) : Prop where
  good : ∃ sent, Good (arrivals past) sent r
  rql : Remembers (requestsOf past) r.rql
  repairs : r.rdl.length ≤ lmsRdlMax
  rdlSz : r.rdlSz = r.rdl.length

theorem requestsOf_concat (past : List (ℚ × Event)) (e : ℚ × Event) :
    requestsOf (past ++ [e]) = requestsOf past ++ (Event.request? e).toList := by
  unfold requestsOf
  rw [filterMap_append, filterMap_cons, filterMap_nil]
  cases Event.request? e <;> rfl

theorem recvLms_frame {pkt : LmsPkt} (h : r.recvLms now pkt = some (r', o)) : SameLists r r' := by
  cases pkt with
  | other => cases h
  | _ =>
    cases h
    exact ⟨rfl, rfl, rfl, rfl⟩

theorem expire_frame {a : ℕ} (h : r.expire now a = some (r', o)) : SameLists r r' := by
  obtain ⟨n, -, h⟩ := Option.bind_eq_some_iff.mp h
  obtain ⟨m, -, heq⟩ := Option.map_eq_some_iff.mp h
  cases heq
  exact ⟨rfl, rfl, rfl, rfl⟩

/-- A step that leaves the lists alone. -/
theorem Tidy.quiet {past : List (ℚ × Event)} {e : ℚ × Event} (h : Tidy past r) (hreq : Event.request? e = none)
    (hsame : SameLists r r') :
    r.Honours past e r' o ∧ Remembers (requestsOf (past ++ [e])) r'.rql ∧ r'.rdl.length ≤ lmsRdlMax ∧
      r'.rdlSz = r'.rdl.length := by
  have hpast : requestsOf (past ++ [e]) = requestsOf past := by
    rw [requestsOf_concat, hreq, Option.toList_none, append_nil]
  have hno : ∀ rq, e.2 ≠ .request rq := by
    intro rq heq
    rw [Event.request?, heq] at hreq
    cases hreq
  rw [hpast, hsame.rql, hsame.rdl, hsame.rdlSz]
  refine ⟨⟨fun rq heq => absurd heq (hno rq), fun rq heq => absurd heq (hno rq), ?_, ?_, fun hne => ?_, ?_⟩,
    h.rql, h.repairs, h.rdlSz⟩
  · rw [hsame.rql]
    exact h.rql.length
  · rw [hsame.rdl]
    exact h.repairs
  · rw [hsame.rql]
    rw [hpast] at hne
    exact h.rql.counted hne
  · rw [hsame.rdlSz, hsame.rdl]
    exact h.rdlSz

theorem recvRequest_spec : (r.recvRequest rq).1.rql = (r.rql.addReq lmsRqlMax rq).1 ∧
    ((r.recvRequest rq).1.dupReqs = r.dupReqs ↔ (r.rql.addReq lmsRqlMax rq).2 = true) ∧
    (r.recvRequest rq).1.rdl = r.rdl ∧ (r.recvRequest rq).1.rdlSz = r.rdlSz ∧
    ((r.rql.addReq lmsRqlMax rq).2 = true → (r.recvRequest rq).2 =
      (rq.range.filter (fun i => !(rq.nakSeqn = 0 && r.existsRdl i) && r.rcvbuf.existsPkt i)).map
        (fun i => r.sendDmcast rq i 3)) := by
  unfold LmsReceiver.recvRequest
  dsimp only
  split
  · rename_i hst
    exact ⟨rfl, iff_of_true rfl hst, rfl, rfl, fun _ => rfl⟩
  · rename_i hst
    exact ⟨rfl, iff_of_false (Nat.succ_ne_self _) hst, rfl, rfl, fun ht => absurd ht hst⟩

/-- **A request** is honoured just when it fits the list. -/
theorem Tidy.request {past : List (ℚ × Event)} (h : Tidy past r) (rq : Request) :
    (r.Honours past (now, .request rq) (r.recvRequest rq).1 (r.recvRequest rq).2 ↔ r.rql.Fits rq) ∧
      (r.rql.Fits rq → Tidy (past ++ [(now, .request rq)]) (r.recvRequest rq).1) := by
  obtain ⟨sent, hgood⟩ := h.good
  obtain ⟨gs, htracks⟩ := hgood.tracks
  obtain ⟨hrql, hdup, hrdl, hsz, hout⟩ := @recvRequest_spec rq r
  have hiff := @Remembers.fits_iff _ rq _ _ h.rql le_rfl
  have hdup' : (r.recvRequest rq).1.dupReqs ≠ r.dupReqs ↔ (r.rql.addReq lmsRqlMax rq).2 = false := by
    rw [Ne, hdup, Bool.not_eq_true]
  have hrepairs : (r.recvRequest rq).1.rdl.length ≤ lmsRdlMax := hrdl ▸ h.repairs
  have hcount : (r.recvRequest rq).1.rdlSz = (r.recvRequest rq).1.rdl.length := by
    rw [hrdl, hsz]
    exact h.rdlSz
  refine ⟨⟨fun hhon => ?_, fun hfits => ?_⟩, fun hfits => ?_⟩
  · refine hiff.mpr ⟨fun hst => hhon.duplicate rq rfl (hdup'.mpr hst), ?_⟩
    rw [← hrql]
    exact hhon.requests
  · obtain ⟨hdupl, hlen⟩ := hiff.mp hfits
    refine ⟨?_, ?_, ?_, hrepairs, fun _ => ?_, hcount⟩
    · rintro rq' heq hretry i hi
      cases heq
      rw [hout (h.rql.retry_added le_rfl hretry hfits), count_dmcast (sendDmcast_injective r rq)]
      refine if_congr (and_congr_right fun _ => and_congr_right fun _ => ?_) rfl rfl
      have hpos : rq.nakSeqn ≠ 0 := hretry.1.ne'
      rw [← htracks.existsPkt_iff hi]
      simp [hpos]
    · rintro rq' heq hne
      cases heq
      exact hdupl (hdup'.mp hne)
    · rw [hrql]
      exact hlen
    · rw [hrql]
      exact h.rql.addReq_counted le_rfl
  · refine ⟨⟨sent ++ (r.recvRequest rq).2.filterMap Sent.request?, ?_⟩, ?_, hrepairs, hcount⟩
    · have harrivals : arrivals (past ++ [(now, .request rq)]) = arrivals past := by
        rw [arrivals_concat, Event.arrival?, Option.toList_none, append_nil]
      rw [harrivals]
      exact hgood.recvRequest rq
    · rw [requestsOf_concat, hrql]
      exact h.rql.addReq le_rfl hfits

/-- **A data packet** keeps the bound of the repairs just when there is room for it. -/
theorem Tidy.data {past : List (ℚ × Event)} (h : Tidy past r)
    (hrecv : r.recv now rseq size = some (r', o)) :
    (r.Honours past (now, .data rseq size) r' o ↔ (r.Recovers rseq → r.rdl.length < lmsRdlMax)) ∧
      ((r.Recovers rseq → r.rdl.length < lmsRdlMax) →
        Remembers (requestsOf (past ++ [(now, .data rseq size)])) r'.rql ∧ r'.rdl.length ≤ lmsRdlMax ∧
          r'.rdlSz = r'.rdl.length) := by
  have hsame := recv_frame hrecv
  by_cases hrec : r.Recovers rseq
  · rw [if_pos hrec] at hsame
    obtain ⟨hlen, hsz⟩ := @addRdl_spec r now rseq h.rdlSz h.repairs
    have hlen' : r'.rdl.length = r.rdl.length + 1 := by rw [hsame.rdl, hlen]
    have hrql : r'.rql = r.rql := hsame.rql.trans addRdl_rql.1
    have hpast : requestsOf (past ++ [(now, .data rseq size)]) = requestsOf past := by
      rw [requestsOf_concat, Event.request?, Option.toList_none, append_nil]
    have hroom : r.rdl.length < lmsRdlMax → r'.rdlSz = r'.rdl.length := by
      intro hlt
      rw [hsame.rdlSz, hsz hlt, hlen']
      push_cast
      rfl
    refine ⟨⟨fun hhon _ => ?_, fun hfits => ?_⟩, fun hfits => ?_⟩
    · have hle := hhon.repairs
      rw [hlen'] at hle
      exact hle
    · refine ⟨fun _ heq => (by cases heq), fun _ heq => (by cases heq), ?_, ?_, fun hne => ?_,
        hroom (hfits hrec)⟩
      · rw [hrql]
        exact h.rql.length
      · rw [hlen']
        exact hfits hrec
      · rw [hpast] at hne
        rw [hrql]
        exact h.rql.counted hne
    · rw [hpast, hrql]
      exact ⟨h.rql, hlen' ▸ hfits hrec, hroom (hfits hrec)⟩
  · rw [if_neg hrec] at hsame
    obtain ⟨hhon, hrest⟩ := @Tidy.quiet r r' o past (now, .data rseq size) h rfl hsame
    exact ⟨iff_of_true hhon (fun hr => absurd hr hrec), fun _ => hrest⟩

/-- **Every event** is honoured just when it fits. -/
theorem Tidy.step {past : List (ℚ × Event)} {e : ℚ × Event} (h : Tidy past r) (ha : Allowed r e) :
    ∃ r' o, r.step e = some (r', o) ∧ (r.Honours past e r' o ↔ r.Fits e) ∧
      (r.Fits e → Tidy (past ++ [e]) r') := by
  obtain ⟨sent, hgood⟩ := h.good
  obtain ⟨r', o, hs, hgood'⟩ := hgood.step ha
  rw [← arrivals_concat] at hgood'
  obtain ⟨now, e⟩ := e
  have hquiet : Event.request? (now, e) = none → SameLists r r' → r.Fits (now, e) →
      ∃ r' o, r.step (now, e) = some (r', o) ∧ (r.Honours past (now, e) r' o ↔ r.Fits (now, e)) ∧
        (r.Fits (now, e) → Tidy (past ++ [(now, e)]) r') := by
    intro hreq hsame hfits
    obtain ⟨hhon, hrql, hrdl, hsz⟩ := h.quiet hreq hsame
    exact ⟨r', o, hs, iff_of_true hhon hfits, fun _ => ⟨⟨_, hgood'⟩, hrql, hrdl, hsz⟩⟩
  cases e with
  | data rseq size =>
    obtain ⟨hiff, hkeep⟩ := h.data hs
    refine ⟨r', o, hs, hiff, fun hfits => ?_⟩
    obtain ⟨hrql, hrdl, hsz⟩ := hkeep hfits
    exact ⟨⟨_, hgood'⟩, hrql, hrdl, hsz⟩
  | request rq =>
    obtain ⟨hiff, hkeep⟩ := @Tidy.request r now past h rq
    exact ⟨_, _, rfl, hiff, hkeep⟩
  | lms pkt => exact hquiet rfl (recvLms_frame hs) trivial
  | nakTimer a => exact hquiet rfl (expire_frame hs) trivial

/-! ## A sender -/

def LmsSender.step (s : LmsSender) (rq : Request) : Option (LmsSender × List Sent) := s.recvRequest rq

/-- A request that is taken as new is answered with all of its packets. -/
theorem LmsSender.recvRequest_spec (hsrc : rq.src = s.addr) : ∃ s' o, s.recvRequest rq = some (s', o) ∧
    s'.reqList = (s.reqList.addReq (lmsRqlMax + 1) rq).1 ∧
    (s'.dupReqs = s.dupReqs ↔ (s.reqList.addReq (lmsRqlMax + 1) rq).2 = true) ∧
    ((s.reqList.addReq (lmsRqlMax + 1) rq).2 = true → o = rq.range.map (fun i => s.sendDmcast rq i 3)) := by
  unfold LmsSender.recvRequest
  rw [if_neg (not_not.mpr hsrc)]
  dsimp only
  cases hst : (s.reqList.addReq (lmsRqlMax + 1) rq).2 with
  | false =>
    exact ⟨_, _, rfl, rfl, iff_of_false (Nat.succ_ne_self _) Bool.false_ne_true,
      fun ht => absurd ht Bool.false_ne_true⟩
  | true => exact ⟨_, _, rfl, rfl, iff_of_true rfl rfl, fun _ => rfl⟩

/-- **A request** at the sender it is meant for is honoured just when it fits the list. -/
theorem LmsSender.step_spec (h : Remembers past s.reqList) (hsrc : rq.src = s.addr) :
    ∃ s' o, s.step rq = some (s', o) ∧ (s.Honours past rq s' o ↔ s.reqList.Fits rq) ∧
      (s.reqList.Fits rq → Remembers (past ++ [rq]) s'.reqList) := by
  have hle : lmsRqlMax ≤ lmsRqlMax + 1 := Nat.le_succ _
  have hiff := @Remembers.fits_iff _ rq _ _ h hle
  obtain ⟨s', o, hs, hlist, hdup, hout⟩ := LmsSender.recvRequest_spec hsrc
  have hdup' : s'.dupReqs ≠ s.dupReqs ↔ (s.reqList.addReq (lmsRqlMax + 1) rq).2 = false := by
    rw [Ne, hdup, Bool.not_eq_true]
  refine ⟨s', o, hs, ⟨fun hhon => ?_, fun hfits => ?_⟩, fun hfits => ?_⟩
  · refine hiff.mpr ⟨fun hst => hhon.duplicate (hdup'.mpr hst), ?_⟩
    rw [← hlist]
    exact hhon.requests
  · obtain ⟨hdupl, hlen⟩ := hiff.mp hfits
    refine ⟨fun hretry i => ?_, fun hne => hdupl (hdup'.mp hne), ?_, ?_⟩
    · have hcount := @count_dmcast rq i _ (sendDmcast_injective s rq) (fun _ => true)
      rw [filter_true] at hcount
      rw [hout (h.retry_added hle hretry hfits), hcount]
      exact if_congr (and_congr_right fun _ => and_iff_left rfl) rfl rfl
    · rw [hlist]
      exact hlen
    · rw [hlist]
      exact h.addReq_counted hle
  · rw [hlist]
    exact h.addReq hle hfits

/-! ## Runs -/

theorem remembers_nil (hl : l.requests = []) : Remembers [] l where
  length := by
    rw [hl]
    exact Nat.zero_le _
  counted hne := absurd rfl hne
  nil _ := hl
  seen p hp := by
    rw [hl] at hp
    exact absurd hp not_mem_nil

theorem tidy_nil (h : r.New) : Tidy [] r where
  good := ⟨[], Good.init h.toFresh⟩
  rql := remembers_nil h.requests
  repairs := by
    rw [h.rdl]
    exact Nat.zero_le _
  rdlSz := by
    rw [h.rdl, h.rdlSz]
    rfl

/-- **Repliers honour requests in exactly these runs.** A receiver answers all retries from what it has,
suppresses repetitions only, and keeps its lists to their bounds and counted, just when every request that is
remembered under its range and turning point is remembered with its number, every other request comes while
fewer than ten are remembered, and every retransmission while fewer than ten repairs are. The same holds of a
sender and its requests. -/
theorem repliers_iff (r : LmsReceiver) (events : List (ℚ × Event)) (s : LmsSender) (rqs : List Request) :
    (r.New → Runs.Meets LmsReceiver.step Allowed r events →
      ((∀ past e, past ++ [e] <+: events → ∃ r₁ outs r₂ o,
        Runs.run LmsReceiver.step r past = some (r₁, outs) ∧ r₁.step e = some (r₂, o) ∧
          r₁.Honours past e r₂ o) ↔ Runs.Meets LmsReceiver.step LmsReceiver.Fits r events)) ∧
    (s.reqList.requests = [] → Runs.Meets LmsSender.step (fun s rq => rq.src = s.addr) s rqs →
      ((∀ past rq, past ++ [rq] <+: rqs → ∃ s₁ outs s₂ o,
        Runs.run LmsSender.step s past = some (s₁, outs) ∧ s₁.step rq = some (s₂, o) ∧
          s₁.Honours past rq s₂ o) ↔ Runs.Meets LmsSender.step (fun s rq => s.reqList.Fits rq) s rqs)) := by
  constructor
  · intro hr hok
    apply Runs.run_exact_total _ (tidy_nil hr) hok
    exact fun past r e h ha => Tidy.step h ha
  · intro hs hok
    apply @Runs.run_exact_total _ _ _ _ _ _ _ _ (fun past s => Remembers past s.reqList) _ _ (remembers_nil hs) hok
    exact fun past s rq h hsrc => LmsSender.step_spec h hsrc

/-- A request for two packets, and its retry behind a lost repair. -/
def lost (nakSeqn : ℕ) : Request := ⟨5, 6, 7, 8, 9, 0, 1, nakSeqn, 0⟩

/-- A request and its repetition, and a retransmission between them. -/
theorem repliers_iff_repeated :
    (∀ past e, past ++ [e] <+: [(1, .data 0 100), (2, .data 2 100), (3, .request (lost 0)), (4, .data 1 100),
        (5, .request (lost 0))] → ∃ r₁ outs r₂ o,
      Runs.run LmsReceiver.step (.init 1 0 0) past = some (r₁, outs) ∧ r₁.step e = some (r₂, o) ∧
        r₁.Honours past e r₂ o) ∧
    (∀ past rq, past ++ [rq] <+: [lost 0, lost 0] → ∃ s₁ outs s₂ o,
      Runs.run LmsSender.step (.init 5 6 100 0) past = some (s₁, outs) ∧ s₁.step rq = some (s₂, o) ∧
        s₁.Honours past rq s₂ o) := by
  constructor
  · refine ((repliers_iff (.init 1 0 0) _ (.init 5 6 100 0) []).1 ⟨⟨rfl, rfl, by decide⟩, rfl, rfl, rfl⟩ ?_).mpr ?_
    · decide +kernel
    · decide +kernel
  · refine ((repliers_iff (.init 1 0 0) [] (.init 5 6 100 0) _).2 rfl ?_).mpr ?_
    · decide +kernel
    · decide +kernel

/-- A receiver that has both packets does not answer the retry. -/
theorem retry_suppressed :
    Runs.Meets LmsReceiver.step Allowed (.init 1 0 0)
        [(1, .data 0 100), (2, .data 1 100), (3, .request (lost 0)), (5, .request (lost 1))] ∧
      ¬ ∃ r₁ outs r₂ o,
        Runs.run LmsReceiver.step (.init 1 0 0) [(1, .data 0 100), (2, .data 1 100), (3, .request (lost 0))] =
            some (r₁, outs) ∧
          r₁.step (5, .request (lost 1)) = some (r₂, o) ∧
          r₁.Honours [(1, .data 0 100), (2, .data 1 100), (3, .request (lost 0))] (5, .request (lost 1)) r₂ o := by
  refine ⟨by decide +kernel, ?_⟩
  rintro ⟨r₁, outs, r₂, o, hrun, hs, hhon⟩
  have hcount : (Runs.run LmsReceiver.step (.init 1 0 0)
      [(1, .data 0 100), (2, .data 1 100), (3, .request (lost 0))]).bind (fun t =>
        (t.1.step (5, .request (lost 1))).map (fun u => u.2.count (t.1.sendDmcast (lost 1) 0 3))) =
      some 0 := by
    decide +kernel
  rw [hrun, Option.bind_some, hs, Option.map_some] at hcount
  have hanswer := hhon.retry (lost 1) rfl (by decide) 0 le_rfl
  rw [Option.some.inj hcount] at hanswer
  exact absurd hanswer (by decide)

end NetSim.Lms
