import Mathlib.Algebra.Order.BigOperators.Group.List
import NetSim.Mcast.Srm

/-! # One agent asks once for every number

Every handler brings `ldata_` of a source up to some number and passes the numbers in between to the
`request` upcall (`SrmInfo.request_spec`). The bits of the numbers above `ldata_` are clear, and the bit
vector is never more than one number behind, so that it at most doubles (`BitsOk`); that is why `resize` may
set to 0 as many bytes as there were before. The sizes are `int`s as long as there is `Room`. What was asked for and what was received as the highest number
so far is the `Ledger` of a source, and every message extends it (`recv_spec`).
-/

namespace NetSim.Srm

open List Doubling

/-- The numbers `i`, `i + 1`, ..., `n` of them. -/
def numbers : ℤ → ℕ → List ℤ
  | _, 0 => []
  | i, n + 1 => i :: numbers (i + 1) n

theorem mem_numbers {i j : ℤ} {n : ℕ} : j ∈ numbers i n ↔ i ≤ j ∧ j < i + n := by
  induction n generalizing i with
  | zero =>
    refine iff_of_false not_mem_nil ?_
    omega
  | succ n ih =>
    rw [numbers, mem_cons, ih]
    omega

theorem nodup_numbers (i : ℤ) (n : ℕ) : (numbers i n).Nodup := by
  induction n generalizing i with
  | zero => exact nodup_nil
  | succ n ih =>
    refine nodup_cons.mpr ⟨fun hmem => ?_, ih (i + 1)⟩
    have hle := (mem_numbers.mp hmem).1
    omega

namespace SrmInfo

variable {sp : SrmInfo} {top id hi msgid : ℤ}

/-! ## The bit vector -/

/-- The bits above `ldata_` are clear, and those up to `top` have memory. -/
structure BitsOk (sp : SrmInfo) (top : ℤ) : Prop where
  alloc : (sp.recvmax = -1 ∧ top = -1) ∨
    ((∃ k, 8 ≤ k ∧ k ≤ 30 ∧ sp.recvmax = 2 ^ k) ∧ top < sp.recvmax)
  clear : ∀ i : ℕ, sp.ldata < i → i / 8 < sp.recvmax.toNat → sp.received i = some false

def withBits (sp : SrmInfo) (m : ℤ) (f : ℕ → Option Bool) : SrmInfo :=
  { sp with recvmax := m, received := f }

/-- A vector of `2 ^ k` bytes is doubled for the number behind its bits. -/
theorem resize_spec {k : ℕ} (hk : k < 30) (hmax : sp.recvmax = 2 ^ k) :
    sp.resize (2 ^ k) = some (sp.withBits (2 ^ (k + 1)) (sp.grown (2 ^ k))) := by
  have hpos : (0 : ℤ) < 2 ^ k := by positivity
  have hpow : 2 ^ k ≤ 2 ^ 29 := Nat.pow_le_pow_right (by omega) (by omega)
  have hallocate : sp.allocate = sp := if_neg (by omega)
  have hdouble := double_spec k rounds hk.le (show 2 ^ k < 2 ^ 30 by omega) (by rw [rounds]; omega)
  rw [Nat.size_pow, max_eq_right (by omega)] at hdouble
  have htoNat : ((2 : ℤ) ^ k).toNat = 2 ^ k := by
    exact_mod_cast Int.toNat_natCast (2 ^ k)
  unfold resize
  rw [hallocate]
  dsimp only
  rw [if_pos (by rw [hmax]; push_cast; exact le_rfl), hmax, hdouble, htoNat]
  rfl

/-- **`ifReceived`** for the number behind those with memory, or one of them. -/
theorem ifReceived_spec (h : BitsOk sp top) (hpos : 0 ≤ id) (hnew : sp.ldata < id) (hid : id ≤ top + 1)
    (hsmall : id < 2 ^ 30) :
    ∃ m f, sp.ifReceived id = some (sp.withBits m f, false) ∧ BitsOk (sp.withBits m f) (max top id) := by
  unfold ifReceived
  rw [if_neg (by omega)]
  rcases h.alloc with ⟨hmax, htop⟩ | ⟨⟨k, hk8, hk, hmax⟩, htop⟩
  · -- the first allocation
    obtain rfl : id = 0 := by omega
    have hallocate : sp.allocate = sp.withBits 256 (fun i => if i / 8 < 256 then some false else none) :=
      if_pos (by omega)
    have hresize : sp.resize (Int.toNat 0) =
        some (sp.withBits 256 (fun i => if i / 8 < 256 then some false else none)) := by
      unfold resize
      rw [hallocate]
      exact if_neg (show ¬ (256 : ℤ) ≤ 0 by decide)
    refine ⟨256, fun i => if i / 8 < 256 then some false else none, ?_, ?_, ?_⟩
    · rw [if_pos (by omega), hresize]
      rfl
    · right
      change (∃ k, 8 ≤ k ∧ k ≤ 30 ∧ (256 : ℤ) = 2 ^ k) ∧ max top 0 < 256
      exact ⟨⟨8, le_rfl, by omega, by norm_num⟩, by omega⟩
    · intro i _ hi
      exact if_pos hi
  · by_cases hfit : sp.recvmax ≤ id
    · -- the bit vector is doubled
      obtain rfl : id = 2 ^ k := by omega
      have hlt : k < 30 := (pow_lt_pow_iff_right₀ (show (1 : ℤ) < 2 by omega)).mp hsmall
      have htoNat : ((2 : ℤ) ^ k).toNat = 2 ^ k := by
        exact_mod_cast Int.toNat_natCast (2 ^ k)
      have hmaxNat : sp.recvmax.toNat = 2 ^ k := by
        rw [hmax, htoNat]
      have hpow : (2 : ℕ) ^ k * 2 = 2 ^ (k + 1) := (pow_succ 2 k).symm
      refine ⟨2 ^ (k + 1), sp.grown (2 ^ k), ?_, ?_, ?_⟩
      · rw [if_pos hfit, htoNat, resize_spec hlt hmax, Option.bind_some]
        have hbit : sp.received (2 ^ k) = some false := by
          refine h.clear _ (by push_cast; exact hnew) ?_
          rw [hmaxNat]
          exact Nat.div_lt_self (Nat.two_pow_pos k) (by omega)
        have hgrown : sp.grown (2 ^ k) (2 ^ k) = sp.received (2 ^ k) :=
          if_pos (Nat.div_lt_self (Nat.two_pow_pos k) (by omega))
        unfold withBits
        dsimp only
        rw [hgrown, hbit]
        rfl
      · right
        refine ⟨⟨k + 1, by omega, by omega, rfl⟩, ?_⟩
        change max top (2 ^ k) < 2 ^ (k + 1)
        have hpos : (0 : ℤ) < 2 ^ k := by positivity
        rw [pow_succ]
        omega
      · intro i hi hlt
        change i / 8 < Int.toNat (2 ^ (k + 1)) at hlt
        change sp.grown (2 ^ k) i = some false
        have hlt' : i / 8 < 2 ^ k + 2 ^ k := by
          have heq : ((2 : ℤ) ^ (k + 1)).toNat = 2 ^ (k + 1) := by
            exact_mod_cast Int.toNat_natCast (2 ^ (k + 1))
          rw [heq] at hlt
          omega
        unfold grown
        by_cases hold : i / 8 < 2 ^ k
        · rw [if_pos hold]
          exact h.clear i hi (by rw [hmaxNat]; exact hold)
        · rw [if_neg hold, if_pos hlt']
    · refine ⟨sp.recvmax, sp.received, ?_, ?_, ?_⟩
      · rw [if_neg hfit, Option.bind_some, h.clear _ (by omega) (by omega)]
        rfl
      · right
        exact ⟨⟨k, hk8, hk, hmax⟩, show max top id < sp.recvmax by omega⟩
      · exact h.clear

/-- By induction on the numbers below the new one: none of them was received. -/
theorem missing_spec (n : ℕ) (h : BitsOk sp (id - 1)) (hpos : 0 ≤ id) (hnew : sp.ldata < id)
    (hsmall : id + n ≤ 2 ^ 30) :
    ∃ m f, sp.missing n id = some (sp.withBits m f, numbers id n) ∧
      BitsOk (sp.withBits m f) (id + n - 1) := by
  induction n generalizing sp id with
  | zero =>
    refine ⟨sp.recvmax, sp.received, rfl, ?_⟩
    rw [Nat.cast_zero, add_zero]
    exact h
  | succ n ih =>
    obtain ⟨m, f, hif, hbits⟩ := ifReceived_spec h hpos hnew (by omega) (by omega)
    rw [max_eq_right (by omega)] at hbits
    have hbits' : BitsOk (sp.withBits m f) (id + 1 - 1) := by
      rw [add_sub_cancel_right]
      exact hbits
    have hnew' : (sp.withBits m f).ldata < id + 1 := Int.lt_add_one_iff.mpr (le_of_lt hnew)
    obtain ⟨m', f', hmissing, hbits''⟩ := ih hbits' (by omega) hnew' (by omega)
    refine ⟨m', f', ?_, ?_⟩
    · rw [missing, hif, Option.bind_some, hmissing]
      rfl
    · have heq : id + (n + 1 : ℕ) - 1 = id + 1 + n - 1 := by
        omega
      rw [heq]
      exact hbits''

/-! ## `request` -/

theorem chars_le {msgids : List ℤ} (h : ∀ i ∈ msgids, i ≤ hi) :
    chars msgids ≤ (Nat.log 10 (hi + 1).toNat + 2) * msgids.length := by
  have hle : ∀ k ∈ msgids.map (fun i => 1 + digits i), k ≤ Nat.log 10 (hi + 1).toNat + 2 := by
    intro k hk
    obtain ⟨i, hi', rfl⟩ := mem_map.mp hk
    have hmono : Nat.log 10 i.toNat ≤ Nat.log 10 (hi + 1).toNat :=
      Nat.log_mono_right (Int.toNat_le_toNat (le_trans (h i hi') (by omega)))
    unfold digits
    omega
  have hsum := sum_le_card_nsmul _ _ hle
  rw [length_map, nsmul_eq_mul, Nat.cast_id, Nat.mul_comm] at hsum
  exact hsum

theorem length_numbers (i : ℤ) (n : ℕ) : (numbers i n).length = n := by
  induction n generalizing i with
  | zero => rfl
  | succ n ih => rw [numbers, length_cons, ih]

/-- The number `number`, if it is new, and the size of the buffer for those up to `hi` stay within the
`int`s. -/
def Room (sp : SrmInfo) (number hi : ℤ) : Prop :=
  sp.ldata < number → number < 2 ^ 30 ∧ sp.maxsize hi < 2 ^ 31

instance (sp : SrmInfo) (number hi : ℤ) : Decidable (sp.Room number hi) :=
  inferInstanceAs (Decidable (_ → _ ∧ _))

theorem Room.mono {sp' : SrmInfo} {number : ℤ} (h : sp.Room number hi) (hle : sp.ldata ≤ sp'.ldata) :
    sp'.Room number hi := by
  intro hnew
  obtain ⟨hnumber, hsize⟩ := h (lt_of_le_of_lt hle hnew)
  refine ⟨hnumber, lt_of_le_of_lt ?_ hsize⟩
  exact Nat.mul_le_mul_left _ (Int.toNat_le_toNat (by omega))

/-- **`request`** asks for all numbers behind `ldata_` up to `hi`; its assertion holds, and its buffer is
large enough. -/
theorem request_spec (hbits : BitsOk sp sp.ldata) (hldata : -1 ≤ sp.ldata) (hhi : sp.ldata ≤ hi)
    (hsmall : hi < 2 ^ 30) (hsize : sp.maxsize hi < 2 ^ 31) :
    ∃ m f, sp.request hi =
        some (sp.withBits m f, numbers (sp.ldata + 1) (hi - sp.ldata).toNat) ∧
      BitsOk (sp.withBits m f) hi := by
  unfold request
  split
  · obtain rfl : hi = sp.ldata := by omega
    refine ⟨sp.recvmax, sp.received, ?_, hbits⟩
    rw [sub_self]
    rfl
  · have hbits' : BitsOk sp (sp.ldata + 1 - 1) := by
      rw [add_sub_cancel_right]
      exact hbits
    obtain ⟨m, f, hmissing, hbits''⟩ := missing_spec (hi - sp.ldata).toNat hbits' (by omega) (by omega)
      (by omega)
    refine ⟨m, f, ?_, ?_⟩
    · rw [if_neg (not_le.mpr hsize), hmissing]
      refine if_neg ?_
      rintro (hnil | hlong)
      · have hlen := congrArg List.length hnil
        rw [length_numbers, length_nil] at hlen
        omega
      · have hle := @chars_le hi (numbers (sp.ldata + 1) (hi - sp.ldata).toNat) (fun i hi' => by
          have hmem := mem_numbers.mp hi'
          omega)
        rw [length_numbers] at hle
        exact absurd hlong (not_lt_of_ge hle)
    · have heq : sp.ldata + 1 + ((hi - sp.ldata).toNat : ℤ) - 1 = hi := by omega
      rw [heq] at hbits''
      exact hbits''

theorem setReceived_spec (h : BitsOk sp (msgid - 1)) (hpos : 0 ≤ msgid) (hnew : sp.ldata < msgid)
    (hsmall : msgid < 2 ^ 30) :
    ∃ m f, sp.setReceived msgid = some (sp.withBits m f) ∧
      BitsOk { sp.withBits m f with ldata := msgid } msgid := by
  obtain ⟨m, f, hif, hbits⟩ := ifReceived_spec h hpos hnew (by omega) hsmall
  rw [max_eq_right (by omega)] at hbits
  refine ⟨m, Function.update f msgid.toNat (some true), ?_, hbits.alloc, fun i hi hlt => ?_⟩
  · unfold setReceived
    rw [hif]
    rfl
  · change msgid < i at hi
    change Function.update f msgid.toNat (some true) i = some false
    rw [Function.update_of_ne (by omega)]
    exact hbits.clear i (lt_trans hnew hi) hlt

structure Sound (sp : SrmInfo) : Prop where
  ldata : -1 ≤ sp.ldata
  bits : BitsOk sp sp.ldata

theorem sound_init (sender : ℤ) : Sound (init sender) where
  ldata := le_refl _
  bits := ⟨.inl ⟨rfl, rfl⟩, fun _ _ hlt => absurd hlt (Nat.not_lt_zero _)⟩

theorem BitsOk.raise (h : BitsOk sp hi) (hle : sp.ldata ≤ hi) : BitsOk { sp with ldata := hi } hi :=
  ⟨h.alloc, fun i hi' hlt => h.clear i (lt_of_le_of_lt hle hi') hlt⟩

end SrmInfo

/-! ## The ledger of a source -/

/-- **The ledger**: each number up to `ldata` was either asked for, once, or received as the highest one. -/
structure Ledger (ldata : ℤ) (highest : ℤ → Prop) (requested : List ℤ) : Prop where
  nodup : requested.Nodup
  cover : ∀ j, (j ∈ requested ∨ highest j) ↔ 0 ≤ j ∧ j ≤ ldata
  once : ∀ j ∈ requested, ¬ highest j

variable {ldata hi msgid : ℤ} {highest : ℤ → Prop} {requested : List ℤ}

theorem ledger_init : Ledger (-1) (fun _ => False) [] where
  nodup := nodup_nil
  cover j := by
    refine iff_of_false ?_ (by omega)
    rintro (hmem | hfalse)
    · exact absurd hmem not_mem_nil
    · exact hfalse
  once _ hmem := absurd hmem not_mem_nil

theorem Ledger.congr {h' : ℤ → Prop} (h : Ledger ldata highest requested) (heq : ∀ j, h' j ↔ highest j) :
    Ledger ldata h' requested := by
  rw [show h' = highest from funext (fun j => propext (heq j))]
  exact h

theorem Ledger.nodup_append (h : Ledger ldata highest requested) (n : ℕ) :
    (requested ++ numbers (ldata + 1) n).Nodup := by
  refine List.nodup_append.mpr ⟨h.nodup, nodup_numbers _ _, fun i hi j hj heq => ?_⟩
  have hold := (h.cover i).mp (.inl hi)
  have hnew := mem_numbers.mp hj
  omega

theorem Ledger.ask (h : Ledger ldata highest requested) (hldata : -1 ≤ ldata) (hhi : ldata ≤ hi) :
    Ledger hi highest (requested ++ numbers (ldata + 1) (hi - ldata).toNat) where
  nodup := h.nodup_append _
  cover j := by
    rw [mem_append, or_right_comm, h.cover, mem_numbers]
    omega
  once j hj hhigh := by
    rcases mem_append.mp hj with hj | hj
    · exact h.once j hj hhigh
    · have hold := (h.cover j).mp (.inr hhigh)
      have hnew := mem_numbers.mp hj
      omega

theorem Ledger.receive (h : Ledger ldata highest requested) (hldata : -1 ≤ ldata) (hnew : ldata < msgid) :
    Ledger msgid (fun j => highest j ∨ j = msgid)
      (requested ++ numbers (ldata + 1) (msgid - 1 - ldata).toNat) where
  nodup := h.nodup_append _
  cover j := by
    have hask := (h.ask hldata (show ldata ≤ msgid - 1 by omega)).cover j
    rw [← or_assoc, hask]
    omega
  once j hj := by
    rintro (hhigh | rfl)
    · exact (h.ask hldata (show ldata ≤ msgid - 1 by omega)).once j hj hhigh
    · rcases mem_append.mp hj with hj | hj
      · have hold := (h.cover j).mp (.inl hj)
        omega
      · have hmem := mem_numbers.mp hj
        omega

namespace SrmAgent

variable {a a' : SrmAgent} {sender t : ℤ} {sp : SrmInfo} {ups : List Upcall}

open SrmInfo

/-! ## The list of sources -/

def Knows (a : SrmAgent) (sender : ℤ) : Prop := ∃ sp ∈ a.sip, sp.sender = sender

theorem info_sender (a : SrmAgent) (sender : ℤ) : (a.info sender).sender = sender := by
  unfold info
  cases hfind : a.sip.find? (fun sp => sp.sender = sender) with
  | none => rfl
  | some sp => simpa using find?_some hfind

theorem info_setInfo (hknows : a.Knows sp.sender) :
    (a.setInfo sp).info t = if t = sp.sender then sp else a.info t := by
  have hfind : ∀ l : List SrmInfo, (∃ x ∈ l, x.sender = sp.sender) ∨ t ≠ sp.sender →
      (l.map (fun x => if x.sender = sp.sender then sp else x)).find? (fun x => x.sender = t) =
        if t = sp.sender then some sp else l.find? (fun x => x.sender = t) := by
    intro l
    induction l with
    | nil =>
      rintro (⟨x, hx, -⟩ | hne)
      · exact absurd hx not_mem_nil
      · rw [if_neg hne]
        rfl
    | cons x l ih =>
      intro hor
      rw [map_cons]
      by_cases hx : x.sender = sp.sender
      · rw [if_pos hx]
        by_cases ht : t = sp.sender
        · rw [if_pos ht, find?_cons_of_pos (by simp [ht])]
        · rw [if_neg ht, find?_cons_of_neg (by simpa using Ne.symm ht), ih (.inr ht), if_neg ht,
            find?_cons_of_neg (by simpa [hx] using Ne.symm ht)]
      · rw [if_neg hx]
        by_cases hxt : x.sender = t
        · rw [find?_cons_of_pos (by simpa using hxt), find?_cons_of_pos (by simpa using hxt),
            if_neg (fun ht => hx (hxt.trans ht))]
        · rw [find?_cons_of_neg (by simpa using hxt), find?_cons_of_neg (by simpa using hxt)]
          refine ih (hor.imp_left ?_)
          rintro ⟨y, hy, hys⟩
          rcases mem_cons.mp hy with rfl | hy
          · exact absurd hys hx
          · exact ⟨y, hy, hys⟩
  unfold info setInfo
  rw [hfind a.sip (.inl hknows)]
  split
  · rfl
  · rfl

theorem info_getState : (a.getState sender).info t = a.info t := by
  unfold getState
  split
  · rfl
  · rename_i hnone
    have hno : a.sip.find? (fun sp => sp.sender = sender) = none := by
      rw [find?_eq_none]
      intro x hx hxs
      exact hnone (any_eq_true.mpr ⟨x, hx, hxs⟩)
    unfold info
    by_cases ht : t = sender
    · subst ht
      rw [hno, find?_append, find?_eq_none.mpr, Option.none_or,
        find?_cons_of_pos (by simp [init])]
      · rfl
      · intro x hx
        exact find?_eq_none.mp hno x (mem_of_mem_take hx)
    · rw [find?_append, find?_cons_of_neg (fun heq => ht (of_decide_eq_true heq).symm), ← find?_append,
        take_append_drop]

theorem knows_getState : (a.getState sender).Knows sender := by
  unfold getState
  split
  · rename_i hany
    obtain ⟨x, hx, hxs⟩ := any_eq_true.mp hany
    exact ⟨x, hx, by simpa using hxs⟩
  · exact ⟨init sender, by simp, rfl⟩

structure AgentOk (a : SrmAgent) : Prop where
  own : ∃ sp sps, a.sip = sp :: sps ∧ sp.sender = a.addr
  size : a.groupSize = a.sip.length
  sound : ∀ s, Sound (a.info s)

theorem agentOk_start (addr : ℤ) : AgentOk (start addr) where
  own := ⟨_, [], rfl, rfl⟩
  size := rfl
  sound s := by
    have hown : Sound { SrmInfo.init addr with distance := 0 } :=
      ⟨le_refl _, (sound_init addr).bits.alloc, (sound_init addr).bits.clear⟩
    unfold info start
    rw [find?_singleton]
    split
    · exact hown
    · exact sound_init s

theorem AgentOk.getState (h : AgentOk a) : AgentOk (a.getState sender) where
  own := by
    obtain ⟨sp, sps, hsip, hown⟩ := h.own
    unfold SrmAgent.getState
    split
    · exact ⟨sp, sps, hsip, hown⟩
    · rw [hsip]
      exact ⟨sp, init sender :: sps, rfl, hown⟩
  size := by
    unfold SrmAgent.getState
    split
    · exact h.size
    · have hlen : a.sip.length = (a.sip.take 1).length + (a.sip.drop 1).length := by
        rw [← length_append, take_append_drop]
      change a.groupSize + 1 = ((a.sip.take 1 ++ init sender :: a.sip.drop 1).length : ℤ)
      rw [h.size, hlen, length_append, length_cons]
      omega
  sound s := by
    rw [info_getState]
    exact h.sound s

theorem AgentOk.setInfo (h : AgentOk a) (hknows : a.Knows sp.sender) (hsound : Sound sp) :
    AgentOk (a.setInfo sp) where
  own := by
    obtain ⟨x, xs, hsip, hown⟩ := h.own
    unfold SrmAgent.setInfo
    rw [hsip, map_cons]
    refine ⟨_, _, rfl, ?_⟩
    split
    · rename_i heq
      exact heq.symm.trans hown
    · exact hown
  size := by
    unfold SrmAgent.setInfo
    rw [length_map]
    exact h.size
  sound s := by
    rw [info_setInfo hknows]
    split
    · exact hsound
    · exact h.sound s

theorem AgentOk.info_own (h : AgentOk a) : ∃ sps, a.sip = a.info a.addr :: sps := by
  obtain ⟨sp, sps, hsip, hown⟩ := h.own
  refine ⟨sps, ?_⟩
  unfold info
  rw [hsip, find?_cons_of_pos (by simpa using hown), Option.getD_some]

/-! ## Messages -/

/-- The numbers of a source that an upcall asks for. -/
def Upcall.asks (sender : ℤ) : Upcall → List ℤ
  | .request s msgids => if s = sender then msgids else []
  | _ => []

def requests (sender : ℤ) (ups : List Upcall) : List ℤ := ups.flatMap (Upcall.asks sender)

theorem requests_upcall (msgids : List ℤ) :
    requests t (upcall sender msgids) = if t = sender then msgids else [] := by
  unfold upcall
  split
  · rename_i hnil
    rw [hnil, ite_self]
    rfl
  · change (if sender = t then msgids else []) ++ [] = _
    rw [append_nil]
    exact if_congr eq_comm rfl rfl

theorem requests_append (us us' : List Upcall) :
    requests t (us ++ us') = requests t us ++ requests t us' := flatMap_append

/-- **What a message does**: the ledgers of all sources are extended; `new` are the numbers that are received
as the highest ones. -/
structure Receives (a a' : SrmAgent) (ups : List Upcall) (new : ℤ → ℤ → Prop) : Prop where
  ok : AgentOk a'
  same : a'.addr = a.addr ∧ a'.dataCtr = a.dataCtr ∧ a'.sessCtr = a.sessCtr
  ledger : ∀ t highest requested, Ledger (a.info t).ldata highest requested →
    Ledger (a'.info t).ldata (fun j => highest j ∨ new t j) (requested ++ requests t ups)
  ldata : ∀ t, (a.info t).ldata ≤ (a'.info t).ldata

theorem getState_same : (a.getState sender).addr = a.addr ∧ (a.getState sender).dataCtr = a.dataCtr ∧
    (a.getState sender).sessCtr = a.sessCtr := by
  unfold getState
  split <;> exact ⟨rfl, rfl, rfl⟩

theorem Receives.nothing (hok : AgentOk a') (hsame : a'.addr = a.addr ∧ a'.dataCtr = a.dataCtr ∧
      a'.sessCtr = a.sessCtr) (hldata : ∀ t, (a'.info t).ldata = (a.info t).ldata)
    (hups : ∀ t, requests t ups = []) {new : ℤ → ℤ → Prop} (hnew : ∀ t j, ¬ new t j) :
    Receives a a' ups new where
  ok := hok
  same := hsame
  ledger t highest requested h := by
    rw [hldata, hups, append_nil]
    exact h.congr (fun j => or_iff_left (hnew t j))
  ldata t := le_of_eq (hldata t).symm

theorem Receives.trans {a'' : SrmAgent} {ups' : List Upcall} (h : Receives a a' ups (fun _ _ => False))
    (h' : Receives a' a'' ups' (fun _ _ => False)) : Receives a a'' (ups ++ ups') (fun _ _ => False) where
  ok := h'.ok
  same := ⟨h'.same.1.trans h.same.1, h'.same.2.1.trans h.same.2.1, h'.same.2.2.trans h.same.2.2⟩
  ledger t highest requested hl := by
    have hl' := h'.ledger t _ _ (h.ledger t highest requested hl)
    rw [requests_append, ← append_assoc]
    exact hl'.congr (fun j => by simp)
  ldata t := le_trans (h.ldata t) (h'.ldata t)

theorem Receives.update (hok : AgentOk a) (hknows : a.Knows sp.sender) (hsound : Sound sp)
    (hle : (a.info sp.sender).ldata ≤ sp.ldata) {ids : List ℤ} {new : ℤ → ℤ → Prop}
    (hnew : ∀ t j, t ≠ sp.sender → ¬ new t j)
    (hledger : ∀ highest requested, Ledger (a.info sp.sender).ldata highest requested →
      Ledger sp.ldata (fun j => highest j ∨ new sp.sender j) (requested ++ ids)) :
    Receives a (a.setInfo sp) (upcall sp.sender ids) new where
  ok := hok.setInfo hknows hsound
  same := ⟨rfl, rfl, rfl⟩
  ledger t highest requested h := by
    rw [info_setInfo hknows, requests_upcall]
    by_cases ht : t = sp.sender
    · rw [if_pos ht, if_pos ht]
      subst ht
      exact hledger highest requested h
    · rw [if_neg ht, if_neg ht, append_nil]
      exact h.congr (fun j => or_iff_left (hnew t j ht))
  ldata t := by
    rw [info_setInfo hknows]
    split
    · rename_i ht
      rw [ht]
      exact hle
    · exact le_refl _

/-- Data beyond `ldata_`: what lies between is requested, once. -/
theorem newData_spec (hok : AgentOk a) (hknows : a.Knows sender) (hnew : (a.info sender).ldata < msgid)
    (hroom : (a.info sender).Room msgid (msgid - 1)) :
    ∃ a' ups, a.newData sender msgid = some (a', ups) ∧
      Receives a a' ups (fun t j => t = sender ∧ j = msgid) ∧
      ∀ t, (a'.info t).lsess = (a.info t).lsess := by
  obtain ⟨hldata, hbits⟩ := hok.sound sender
  obtain ⟨hsmall, hsize⟩ := hroom hnew
  obtain ⟨m, f, hrequest, hbits'⟩ :=
    request_spec hbits hldata (show _ ≤ msgid - 1 by omega) (by omega) hsize
  obtain ⟨m', f', hset, hbits''⟩ := setReceived_spec hbits' (by omega) hnew hsmall
  obtain ⟨sp, hdata, hsender, hmsgid, hlsess, hsound⟩ : ∃ sp : SrmInfo,
      a.newData sender msgid = some (a.setInfo sp, upcall sender (numbers ((a.info sender).ldata + 1)
        (msgid - 1 - (a.info sender).ldata).toNat)) ∧
      sp.sender = sender ∧ sp.ldata = msgid ∧ sp.lsess = (a.info sender).lsess ∧ Sound sp := by
    refine ⟨{ ((a.info sender).withBits m f).withBits m' f' with ldata := msgid }, ?_,
      a.info_sender sender, rfl, rfl, ⟨show -1 ≤ msgid by omega, hbits''⟩⟩
    unfold newData
    rw [hrequest, Option.bind_some, hset]
    rfl
  subst hsender hmsgid
  refine ⟨_, _, hdata, Receives.update hok hknows hsound (le_of_lt hnew) (fun t j ht hj => ht hj.1)
    (fun highest requested h => ?_), fun t => ?_⟩
  · exact (h.receive hldata hnew).congr (fun j => by simp)
  · rw [info_setInfo hknows]
    split
    · rename_i ht
      rw [ht, hlsess]
    · rfl

/-- A number that a session message tells is requested like those before it. -/
theorem learn_spec (hok : AgentOk a) (hknows : a.Knows sp.sender) (hsound : Sound sp)
    (hldata : sp.ldata = (a.info sp.sender).ldata) {dataCnt : ℤ} (hroom : sp.Room dataCnt dataCnt) :
    ∃ a' ups, a.learn sp.sender dataCnt sp = some (a', ups) ∧ Receives a a' ups (fun _ _ => False) ∧
      dataCnt ≤ (a'.info sp.sender).ldata ∧ (a'.info sp.sender).lsess = sp.lsess ∧
      ∀ t, t ≠ sp.sender → a'.info t = a.info t := by
  unfold learn
  by_cases hle : dataCnt ≤ sp.ldata
  · have hrequest : sp.request dataCnt = some (sp, []) := if_pos hle
    have hupTo : sp.upTo dataCnt = sp := if_neg (not_lt_of_ge hle)
    rw [hrequest, Option.map_some, hupTo]
    refine ⟨_, _, rfl, Receives.update hok hknows hsound (le_of_eq hldata.symm) (fun _ _ _ h => h)
      (fun highest requested h => ?_), ?_, ?_, fun t ht => ?_⟩
    · rw [append_nil, hldata]
      exact h.congr (fun j => or_iff_left id)
    · rw [info_setInfo hknows, if_pos rfl]
      exact hle
    · rw [info_setInfo hknows, if_pos rfl]
    · rw [info_setInfo hknows, if_neg ht]
  · have hlt : sp.ldata < dataCnt := lt_of_not_ge hle
    obtain ⟨hsmall, hsize⟩ := hroom hlt
    obtain ⟨m, f, hrequest, hbits⟩ :=
      request_spec hsound.bits hsound.ldata (le_of_lt hlt) hsmall hsize
    obtain ⟨sp', hlearn, hsender, hdata, hlsess, hsound'⟩ : ∃ sp' : SrmInfo,
        (sp.request dataCnt).map (fun r => (a.setInfo (r.1.upTo dataCnt), upcall sp.sender r.2)) =
          some (a.setInfo sp', upcall sp.sender (numbers (sp.ldata + 1) (dataCnt - sp.ldata).toNat)) ∧
        sp'.sender = sp.sender ∧ sp'.ldata = dataCnt ∧ sp'.lsess = sp.lsess ∧ Sound sp' := by
      refine ⟨{ sp.withBits m f with ldata := dataCnt }, ?_, rfl, rfl, rfl,
        ⟨le_trans hsound.ldata (le_of_lt hlt), hbits.raise (le_of_lt hlt)⟩⟩
      have hupTo : (sp.withBits m f).upTo dataCnt = { sp.withBits m f with ldata := dataCnt } := if_pos hlt
      rw [hrequest, Option.map_some, hupTo]
    rw [hlearn, ← hsender]
    rw [← hsender] at hknows hldata
    have hle' : (a.info sp'.sender).ldata ≤ sp'.ldata := by
      rw [← hldata, hdata]
      exact le_of_lt hlt
    refine ⟨_, _, rfl, Receives.update hok hknows hsound' hle' (fun _ _ _ h => h)
      (fun highest requested h => ?_), ?_, ?_, fun t ht => ?_⟩
    · rw [hdata, hldata]
      exact (h.ask (hldata ▸ hsound.ldata) (hldata ▸ le_of_lt hlt)).congr (fun j => or_iff_left id)
    · rw [info_setInfo hknows, if_pos rfl, hdata]
    · rw [info_setInfo hknows, if_pos rfl, hlsess]
    · rw [info_setInfo hknows, if_neg ht]

theorem Receives.getState (hok : AgentOk a) (sender : ℤ) :
    Receives a (a.getState sender) [] (fun _ _ => False) :=
  .nothing hok.getState getState_same (fun _ => congrArg SrmInfo.ldata info_getState) (fun _ => rfl)
    (fun _ _ h => h)

theorem learn_getState_spec (hok : AgentOk a) (hsound : Sound sp)
    (hldata : sp.ldata = (a.info sp.sender).ldata) {dataCnt : ℤ} (hroom : sp.Room dataCnt dataCnt) :
    ∃ a' ups, (a.getState sp.sender).learn sp.sender dataCnt sp = some (a', ups) ∧
      Receives a a' ups (fun _ _ => False) ∧ dataCnt ≤ (a'.info sp.sender).ldata ∧
      (a'.info sp.sender).lsess = sp.lsess ∧ ∀ t, t ≠ sp.sender → a'.info t = a.info t := by
  rw [← @info_getState _ sp.sender _] at hldata
  obtain ⟨a', ups, hlearn, hreceives, hle, hlsess, hother⟩ :=
    learn_spec hok.getState knows_getState hsound hldata hroom
  refine ⟨a', ups, hlearn, (Receives.getState hok sp.sender).trans hreceives, hle, hlsess,
    fun t ht => ?_⟩
  rw [hother t ht, info_getState]

theorem setInfo_spec (hok : AgentOk a) (hsound : Sound sp) (hldata : sp.ldata = (a.info sp.sender).ldata)
    (hlsess : sp.lsess = (a.info sp.sender).lsess) :
    Receives a ((a.getState sp.sender).setInfo sp) [] (fun _ _ => False) ∧
      ∀ t, (((a.getState sp.sender).setInfo sp).info t).lsess = (a.info t).lsess := by
  have hknows : (a.getState sp.sender).Knows sp.sender := knows_getState
  constructor
  · refine .nothing (hok.getState.setInfo hknows hsound) getState_same (fun t => ?_) (by exact fun _ => rfl)
      (fun _ _ h => h)
    rw [info_setInfo hknows, info_getState]
    split
    · rename_i ht
      rw [ht, hldata]
    · rfl
  · intro t
    rw [info_setInfo hknows, info_getState]
    split
    · rename_i ht
      rw [ht, hlsess]
    · rfl

/-- By induction on the tuples of the message. -/
theorem recvTuples_spec (now sentBy sentAt : ℤ) (bs : List SessBlock) (hok : AgentOk a)
    (hroom : ∀ b ∈ bs, (a.info b.sender).Room b.dataCnt b.dataCnt) :
    ∃ a' ups, recvTuples now sentBy sentAt bs.length bs a = some (a', ups) ∧
      Receives a a' ups (fun _ _ => False) ∧ ∀ t, (a'.info t).lsess = (a.info t).lsess := by
  induction bs generalizing a with
  | nil =>
    exact ⟨a, [], rfl, .nothing hok ⟨rfl, rfl, rfl⟩ (fun _ => rfl) (fun _ => rfl) (fun _ _ h => h),
      fun _ => rfl⟩
  | cons b bs ih =>
    rw [length_cons, recvTuples]
    split
    · -- a tuple about the agent itself gives the distance to the sender
      dsimp only
      generalize hsp : ({ (a.getState sentBy).info sentBy with
        distance := (((now - sentAt) + (b.rtime - b.stime) : ℤ) : ℚ) / 2 / 1000 } : SrmInfo) = sp
      have hsender : sp.sender = sentBy := hsp ▸ info_sender (a.getState sentBy) sentBy
      have hs : Sound ((a.getState sentBy).info sentBy) := hok.getState.sound sentBy
      have hsound : Sound sp := hsp ▸ ⟨hs.ldata, hs.bits.alloc, hs.bits.clear⟩
      have hinfo : (a.getState sentBy).info sentBy = a.info sp.sender := by
        rw [hsender, info_getState]
      have hldata : sp.ldata = (a.info sp.sender).ldata := by
        rw [← hinfo, ← hsp]
      have hlsess₀ : sp.lsess = (a.info sp.sender).lsess := by
        rw [← hinfo, ← hsp]
      obtain ⟨hreceives, hlsess⟩ := setInfo_spec hok hsound hldata hlsess₀
      rw [hsender] at hreceives hlsess
      obtain ⟨a', ups, hrec, hreceives', hlsess'⟩ := ih hreceives.ok (fun b hb =>
        (hroom b (mem_cons_of_mem _ hb)).mono (hreceives.ldata b.sender))
      exact ⟨a', ups, hrec, hreceives.trans hreceives', fun t => (hlsess' t).trans (hlsess t)⟩
    · have hsender : ((a.getState b.sender).info b.sender).sender = b.sender := info_sender _ _
      have hldata : ((a.getState b.sender).info b.sender).ldata =
          (a.info ((a.getState b.sender).info b.sender).sender).ldata := by
        rw [hsender, info_getState]
      have hroom' : ((a.getState b.sender).info b.sender).Room b.dataCnt b.dataCnt := by
        rw [info_getState]
        exact hroom b mem_cons_self
      obtain ⟨a₁, ups₁, hlearn, hreceives, -, hlsess, hother⟩ :=
        learn_getState_spec hok (hok.getState.sound b.sender) hldata hroom'
      rw [hsender] at hlearn hlsess hother
      obtain ⟨a', ups, hrec, hreceives', hlsess'⟩ := ih hreceives.ok (fun b hb =>
        (hroom b (mem_cons_of_mem _ hb)).mono (hreceives.ldata b.sender))
      refine ⟨a', ups₁ ++ ups, ?_, hreceives.trans hreceives', fun t => ?_⟩
      · dsimp only
        rw [hlearn, Option.bind_some, hrec]
        rfl
      · rw [hlsess']
        by_cases ht : t = b.sender
        · rw [ht, hlsess, info_getState]
        · rw [hother t ht]

def New (a : SrmAgent) : SrmMessage → ℤ → ℤ → Prop
  | .data sender msgid, t, j => (t = sender ∧ j = msgid) ∧ (a.info t).ldata < j
  | .repr _ sender msgid, t, j => (t = sender ∧ j = msgid) ∧ (a.info t).ldata < j
  | .rqst _ _ _ _, _, _ => False
  | .sess _ _ _, _, _ => False

/-- A session message has the tuples that it tells. -/
def WellFormed : SrmMessage → Prop
  | .sess _ cnt blocks => cnt = blocks.length ∧ blocks ≠ []
  | _ => True

theorem recvNumber_spec (hok : AgentOk a) (sender msgid : ℤ) (u : Upcall)
    (hu : ∀ t, Upcall.asks t u = []) (hroom : (a.info sender).Room msgid (msgid - 1)) :
    ∃ a' ups, (if ((a.getState sender).info sender).ldata < msgid then
          (a.getState sender).newData sender msgid
        else some (a.getState sender, [u])) = some (a', ups) ∧
      Receives a a' ups (fun t j => (t = sender ∧ j = msgid) ∧ (a.info t).ldata < j) ∧
      ∀ t, (a'.info t).lsess = (a.info t).lsess := by
  split
  · rename_i hlt
    obtain ⟨a', ups, hdata, hreceives, hlsess⟩ := newData_spec hok.getState knows_getState hlt
      (by rw [info_getState]; exact hroom)
    rw [info_getState] at hlt
    refine ⟨a', ups, hdata, ⟨hreceives.ok, ?_, fun t highest requested h => ?_, fun t => ?_⟩, fun t => ?_⟩
    · have hsame := hreceives.same
      have hget := @getState_same a sender
      exact ⟨hsame.1.trans hget.1, hsame.2.1.trans hget.2.1, hsame.2.2.trans hget.2.2⟩
    · rw [← @info_getState _ sender _] at h
      refine (hreceives.ledger t highest requested h).congr (fun j => or_congr_right ?_)
      rw [and_iff_left_of_imp]
      rintro ⟨rfl, rfl⟩
      exact hlt
    · have hle := hreceives.ldata t
      rw [info_getState] at hle
      exact hle
    · rw [hlsess, info_getState]
  · rename_i hnot
    rw [info_getState] at hnot
    refine ⟨_, _, rfl, .nothing hok.getState getState_same (fun _ => congrArg SrmInfo.ldata info_getState)
      (fun t => ?_) ?_, fun _ => congrArg SrmInfo.lsess info_getState⟩
    · exact (append_nil _).trans (hu t)
    · rintro t j ⟨⟨rfl, rfl⟩, hlt⟩
      exact hnot hlt

/-- What a session message tells about its sender: the number of the message, and `ldata_`. -/
def report : SrmMessage → Option (ℤ × ℤ × ℤ)
  | .sess sessCtr _ (b :: _) => some (b.sender, sessCtr, b.dataCnt)
  | _ => none

def Heard (a a' : SrmAgent) (m : SrmMessage) : Prop :=
  (∀ t, (a'.info t).lsess = (a.info t).lsess ∨ ∃ sessCtr dataCnt, report m = some (t, sessCtr, dataCnt) ∧
    t ≠ a.addr ∧ (a'.info t).lsess = sessCtr ∧ dataCnt ≤ (a'.info t).ldata) ∧
  ∀ t sessCtr dataCnt, report m = some (t, sessCtr, dataCnt) → t ≠ a.addr →
    sessCtr < (a.info t).lsess ∨ dataCnt ≤ (a'.info t).ldata

theorem Heard.nothing {m : SrmMessage} (hreport : report m = none)
    (hlsess : ∀ t, (a'.info t).lsess = (a.info t).lsess) : Heard a a' m := by
  refine ⟨fun t => .inl (hlsess t), fun t sessCtr dataCnt hsome => ?_⟩
  rw [hreport] at hsome
  cases hsome

/-- A session message is taken in tuple by tuple. -/
theorem recvSess_spec (hok : AgentOk a) (now sessCtr : ℤ) (b : SessBlock) (bs : List SessBlock)
    (hroom : ∀ b' ∈ b :: bs, (a.info b'.sender).Room b'.dataCnt b'.dataCnt) :
    ∃ a' ups, a.recvSess now sessCtr (b :: bs).length (b :: bs) = some (a', ups) ∧
      Receives a a' ups (fun _ _ => False) ∧ Heard a a' (.sess sessCtr (b :: bs).length (b :: bs)) := by
  unfold recvSess
  dsimp only
  by_cases hown : b.sender = a.addr
  · rw [if_pos hown]
    refine ⟨a, [], rfl, .nothing hok ⟨rfl, rfl, rfl⟩ (fun _ => rfl) (fun _ => rfl) (fun _ _ h => h),
      fun t => .inl rfl, fun t ctr cnt hreport hne => ?_⟩
    cases hreport
    exact absurd hown hne
  rw [if_neg hown]
  by_cases hold : sessCtr < ((a.getState b.sender).info b.sender).lsess
  · rw [if_pos hold]
    refine ⟨_, [], rfl, Receives.getState hok b.sender, fun t => .inl ?_, fun t ctr cnt hreport _ => .inl ?_⟩
    · exact congrArg SrmInfo.lsess info_getState
    · cases hreport
      rw [info_getState] at hold
      exact hold
  rw [if_neg hold]
  generalize hsp : ({ (a.getState b.sender).info b.sender with
    lsess := sessCtr, recvTime := now, sendTime := b.stime } : SrmInfo) = sp
  have hsender : sp.sender = b.sender := hsp ▸ info_sender (a.getState b.sender) b.sender
  have hs : Sound ((a.getState b.sender).info b.sender) := hok.getState.sound b.sender
  have hsound : Sound sp := hsp ▸ ⟨hs.ldata, hs.bits.alloc, hs.bits.clear⟩
  have hlsess : sp.lsess = sessCtr := by
    rw [← hsp]
  have hldata : sp.ldata = (a.info sp.sender).ldata := by
    rw [hsender, ← @info_getState _ b.sender _, ← hsp]
  have hroom' : sp.Room b.dataCnt b.dataCnt := (hroom b mem_cons_self).mono (by rw [hldata, hsender])
  obtain ⟨a₁, ups₁, hlearn, hreceives, hle, hlsess₁, hother⟩ :=
    learn_getState_spec hok hsound hldata hroom'
  rw [hsender] at hlearn hle hlsess₁ hother
  obtain ⟨a', ups, hrec, hreceives', hlsess'⟩ := recvTuples_spec now b.sender b.stime bs hreceives.ok
    (fun b' hb' => (hroom b' (mem_cons_of_mem _ hb')).mono (hreceives.ldata b'.sender))
  have hcount : (((b :: bs).length : ℤ) - 1).toNat = bs.length := by
    rw [length_cons]
    omega
  have hle' : b.dataCnt ≤ (a'.info b.sender).ldata := le_trans hle (hreceives'.ldata b.sender)
  refine ⟨a', ups₁ ++ ups, ?_, hreceives.trans hreceives', fun t => ?_, fun t ctr cnt hreport _ => .inr ?_⟩
  · rw [hlearn, Option.bind_some, hcount, hrec]
    rfl
  · by_cases ht : t = b.sender
    · right
      rw [ht]
      exact ⟨sessCtr, b.dataCnt, rfl, hown, (hlsess' b.sender).trans (hlsess₁.trans hlsess), hle'⟩
    · left
      rw [hlsess', hother t ht]
  · cases hreport
    exact hle'

/-- What the message makes the agent ask for stays within the `int`s. -/
def Fits (a : SrmAgent) : SrmMessage → Prop
  | .data sender msgid => (a.info sender).Room msgid (msgid - 1)
  | .repr _ sender msgid => (a.info sender).Room msgid (msgid - 1)
  | .rqst _ _ sender msgid => (a.info sender).Room msgid msgid
  | .sess _ _ blocks => ∀ b ∈ blocks, (a.info b.sender).Room b.dataCnt b.dataCnt

instance (a : SrmAgent) : (m : SrmMessage) → Decidable (Fits a m)
  | .data _ _ => inferInstanceAs (Decidable (Room _ _ _))
  | .repr _ _ _ => inferInstanceAs (Decidable (Room _ _ _))
  | .rqst _ _ _ _ => inferInstanceAs (Decidable (Room _ _ _))
  | .sess _ _ blocks =>
    inferInstanceAs (Decidable (∀ b ∈ blocks, (a.info b.sender).Room b.dataCnt b.dataCnt))

/-- **Every message** is taken in, and the ledgers of all sources are extended. -/
theorem recv_spec (hok : AgentOk a) (now : ℤ) {m : SrmMessage} (hwf : WellFormed m) (hfits : Fits a m) :
    ∃ a' ups, a.recv now m = some (a', ups) ∧ Receives a a' ups (New a m) ∧ Heard a a' m := by
  cases m with
  | data sender msgid =>
    obtain ⟨a', ups, hrec, hreceives, hlsess⟩ :=
      recvNumber_spec hok sender msgid (.data sender msgid) (fun _ => rfl) hfits
    exact ⟨a', ups, hrec, hreceives, .nothing rfl hlsess⟩
  | repr round sender msgid =>
    obtain ⟨a', ups, hrec, hreceives, hlsess⟩ :=
      recvNumber_spec hok sender msgid (.repr round sender msgid) (fun _ => rfl) hfits
    exact ⟨a', ups, hrec, hreceives, .nothing rfl hlsess⟩
  | rqst requestor round sender msgid =>
    unfold recv recvRqst
    dsimp only
    have hsender : ((a.getState sender).info sender).sender = sender := info_sender _ _
    have hsound : Sound ((a.getState sender).info sender) := hok.getState.sound sender
    split
    · rename_i hlt
      have hldata : ((a.getState sender).info sender).ldata =
          (a.info ((a.getState sender).info sender).sender).ldata := by
        rw [hsender, info_getState]
      obtain ⟨a', ups, hlearn, hreceives, -, hlsess, hother⟩ :=
        learn_getState_spec hok hsound hldata (hfits.mono (le_of_eq (congrArg _ info_getState.symm)))
      rw [hsender] at hlearn hlsess hother
      obtain ⟨hsmall, hsize⟩ := (hfits.mono (le_of_eq (congrArg _ info_getState.symm))) hlt
      obtain ⟨k, f, hrequest, -⟩ :=
        request_spec hsound.bits hsound.ldata (le_of_lt hlt) hsmall hsize
      refine ⟨a', ups, ?_, hreceives, .nothing rfl (fun t => ?_)⟩
      · -- `request` leaves `ldata_` alone
        have hupTo : (((a.getState sender).info sender).withBits k f).upTo msgid =
            { ((a.getState sender).info sender).withBits k f with ldata := msgid } := if_pos hlt
        rw [← hlearn]
        unfold learn
        rw [hrequest, Option.map_some, Option.map_some, hupTo]
      · by_cases ht : t = sender
        · rw [ht, hlsess, info_getState]
        · rw [hother t ht]
    · exact ⟨_, _, rfl, .nothing hok.getState getState_same
        (fun _ => congrArg SrmInfo.ldata info_getState) (by exact fun _ => rfl) (fun _ _ h => h),
        .nothing rfl (fun _ => congrArg SrmInfo.lsess info_getState)⟩
  | sess sessCtr cnt blocks =>
    obtain ⟨rfl, hne⟩ := hwf
    cases blocks with
    | nil => exact absurd rfl hne
    | cons b bs => exact recvSess_spec hok now sessCtr b bs hfits

end SrmAgent

end NetSim.Srm
