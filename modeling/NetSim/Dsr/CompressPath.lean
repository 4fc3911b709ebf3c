import NetSim.Dsr.RequestTable
import NetSim.Lib.LoopErasure

/-! # DSR: double backs in a path

`compressPath` (`dsr/path.cc`) walks forward over the array of a path; at every place it looks backwards
from the end for the same id and moves the rest of the path from there to the place. The path in front of
the place is done, the path from it on is still that of the input, cut at the front (`walk_erased`).

An id in a path holds the data of the link to the next id: when the link was added, how it was learnt,
whether it was logged.
-/

namespace NetSim.Dsr

open Function List LoopErasure

inductive LinkType
  | none | tested | untested
deriving DecidableEq

inductive LogStatus
  | none | unlogged | logged
deriving DecidableEq

/-- An `ID` with the data of a link. -/
structure HopID where
  id : ID
  t : ℚ
  linkType : LinkType
  logStat : LogStatus
deriving DecidableEq

/-- The array of a `Path` with its length. -/
structure PathArray where
  len : ℕ
  path : ℕ → HopID

namespace PathArray

def hops (p : PathArray) : List HopID := (List.range p.len).map p.path

/-- `ID::operator==`. -/
def same (a b : HopID) : Bool := a.id.type = b.id.type ∧ a.id.addr = b.id.addr

/-- The loop that moves the rest of the path, with the number of ids to go: the array, and `to`. -/
def shift : ℕ → (ℕ → HopID) → ℕ → ℕ → (ℕ → HopID) × ℕ
  | 0, path, _, dst => (path, dst)
  | n + 1, path, src, dst => shift n (update path dst (path src)) (src + 1) (dst + 1)

/-- The loop of `bp`, from `fp + j` down to `fp`: the place of the same id. -/
def scan (p : PathArray) (fp : ℕ) : ℕ → Option ℕ
  | 0 => none
  | j + 1 => if same (p.path fp) (p.path (fp + (j + 1))) then some (fp + (j + 1)) else scan p fp j

def removeDoubleBack (p : PathArray) (fp : ℕ) : PathArray :=
  match scan p fp (p.len - 1 - fp) with
  | none => p
  | some bp =>
    let r := shift (p.len - bp) p.path bp fp
    { p with path := r.1, len := r.2 }

/-- The loop of `fp`, with a bound on the turns. -/
def walk : ℕ → PathArray → ℕ → Option PathArray
  | 0, _, _ => none
  | fuel + 1, p, fp => if fp < p.len then walk fuel (removeDoubleBack p fp) (fp + 1) else some p

/-- `compressPath`; the length does not grow, so the bound is not reached. -/
def compressPath (p : PathArray) : Option PathArray := walk (p.len + 1) p 0

variable {p p' : PathArray} {path : ℕ → HopID} {fp bp j n src dst k fuel : ℕ} {l : List HopID}

theorem same_iff (a b : HopID) : same a b = true ↔ a.id = b.id := by
  obtain ⟨⟨addr, type⟩, -, -, -⟩ := a
  obtain ⟨⟨addr', type'⟩, -, -, -⟩ := b
  simp only [same, decide_eq_true_eq, ID.mk.injEq]
  exact and_comm

theorem hops_length (p : PathArray) : p.hops.length = p.len := by
  rw [hops, length_map, length_range]

theorem getElem?_hops (p : PathArray) (k : ℕ) :
    p.hops[k]? = if k < p.len then some (p.path k) else none := by
  rw [hops, getElem?_map]
  split
  · rename_i h
    rw [getElem?_range h, Option.map_some]
  · rw [getElem?_eq_none (by rw [length_range]; omega), Option.map_none]

theorem shift_spec (h : dst ≤ src) :
    (shift n path src dst).2 = dst + n ∧
      ∀ k, (shift n path src dst).1 k =
        if dst ≤ k ∧ k < dst + n then path (src + (k - dst)) else path k := by
  induction n generalizing path src dst with
  | zero =>
    refine ⟨rfl, fun k => ?_⟩
    rw [if_neg (by omega)]
    rfl
  | succ n ih =>
    obtain ⟨hlen, hpath⟩ := @ih (update path dst (path src)) (src + 1) (dst + 1) (by omega)
    rw [shift]
    refine ⟨by omega, fun k => ?_⟩
    rw [hpath k]
    by_cases hk : k = dst
    · subst hk
      rw [if_neg (by omega), if_pos (by omega), update_self, Nat.sub_self, Nat.add_zero]
    · by_cases hin : dst + 1 ≤ k ∧ k < dst + 1 + n
      · rw [if_pos hin, if_pos (by omega), update_of_ne (by omega)]
        congr 1
        omega
      · rw [if_neg hin, if_neg (by omega), update_of_ne hk]

theorem scan_some (h : scan p fp j = some bp) :
    fp < bp ∧ bp ≤ fp + j ∧ (p.path bp).id = (p.path fp).id ∧
      ∀ k, bp < k → k ≤ fp + j → (p.path k).id ≠ (p.path fp).id := by
  induction j with
  | zero => cases h
  | succ j ih =>
    rw [scan] at h
    split at h
    · rename_i hsame
      cases h
      refine ⟨by omega, le_rfl, ((same_iff _ _).mp hsame).symm, fun k hk hle => ?_⟩
      omega
    · rename_i hsame
      obtain ⟨h1, h2, h3, h4⟩ := ih h
      refine ⟨h1, by omega, h3, fun k hk hle => ?_⟩
      by_cases he : k = fp + (j + 1)
      · subst he
        exact fun heq => hsame ((same_iff _ _).mpr heq.symm)
      · exact h4 k hk (by omega)

theorem scan_none (h : scan p fp j = none) :
    ∀ k, fp < k → k ≤ fp + j → (p.path k).id ≠ (p.path fp).id := by
  induction j with
  | zero =>
    intro k hk hle
    omega
  | succ j ih =>
    rw [scan] at h
    split at h
    · cases h
    · rename_i hsame
      intro k hk hle
      by_cases he : k = fp + (j + 1)
      · subst he
        exact fun heq => hsame ((same_iff _ _).mpr heq.symm)
      · exact ih h k hk (by omega)

/-- **A turn** cuts the path from `fp` to the last place with the same id. -/
theorem removeDoubleBack_cuts (hfp : fp < p.len) :
    ∃ bp, fp ≤ bp ∧ bp < p.len ∧ (p.path bp).id = (p.path fp).id ∧
      (∀ k, bp < k → k < p.len → (p.path k).id ≠ (p.path fp).id) ∧
      (removeDoubleBack p fp).hops = p.hops.take fp ++ p.hops.drop bp ∧
      (bp = fp → removeDoubleBack p fp = p) := by
  cases hscan : scan p fp (p.len - 1 - fp) with
  | none =>
    have hsame : removeDoubleBack p fp = p := by
      unfold removeDoubleBack
      rw [hscan]
    refine ⟨fp, le_rfl, hfp, rfl, fun k hk hlt => scan_none hscan k hk (by omega), ?_, fun _ => hsame⟩
    rw [hsame, take_append_drop]
  | some bp =>
    obtain ⟨hlt, hle, hid, hlast⟩ := scan_some hscan
    obtain ⟨hlen, hpath⟩ := @shift_spec p.path (p.len - bp) bp fp hlt.le
    refine ⟨bp, hlt.le, by omega, hid, fun k hk hk' => hlast k hk (by omega), ?_, fun he => by omega⟩
    have hresult : removeDoubleBack p fp =
        { len := fp + (p.len - bp), path := (shift (p.len - bp) p.path bp fp).1 } := by
      unfold removeDoubleBack
      rw [hscan]
      dsimp only
      rw [hlen]
    apply ext_getElem?
    intro k
    rw [hresult, getElem?_hops]
    dsimp only
    rw [hpath k]
    by_cases hk : k < fp
    · rw [if_pos (by omega), if_neg (by omega),
        getElem?_append_left (by rw [length_take, hops_length]; omega),
        getElem?_take_of_lt hk, getElem?_hops, if_pos (by omega)]
    · rw [getElem?_append_right (by rw [length_take, hops_length]; omega),
        length_take, hops_length, getElem?_drop, getElem?_hops,
        show min fp p.len = fp from by omega]
      by_cases hk' : k < fp + (p.len - bp)
      · rw [if_pos hk', if_pos (by omega), if_pos (by omega)]
      · rw [if_neg hk', if_neg (by omega)]

theorem drop_hops (hfp : fp < p.len) : p.hops.drop fp = p.path fp :: p.hops.drop (fp + 1) := by
  have hlt : fp < p.hops.length := by rw [hops_length]; exact hfp
  have hget : p.hops[fp] = p.path fp := by
    have h := getElem?_hops p fp
    rw [if_pos hfp, getElem?_eq_getElem hlt] at h
    exact Option.some.inj h
  rw [drop_eq_getElem_cons hlt, hget]

theorem removeDoubleBack_erased (hfp : fp < p.len)
    (h : Erased HopID.id l (p.hops.take fp) (p.hops.drop fp)) :
    Erased HopID.id l ((removeDoubleBack p fp).hops.take (fp + 1))
      ((removeDoubleBack p fp).hops.drop (fp + 1)) := by
  obtain ⟨bp, hle, hlt, hid, hlast, hops, -⟩ := removeDoubleBack_cuts hfp
  have hcut : p.path bp :: p.hops.drop (bp + 1) <:+ p.path fp :: p.hops.drop (fp + 1) := by
    rw [← drop_hops hlt, ← drop_hops hfp, show bp = fp + (bp - fp) from by omega, ← drop_drop]
    exact drop_suffix _ _
  have hrest : ∀ y ∈ p.hops.drop (bp + 1), y.id ≠ (p.path fp).id := by
    intro y hy
    obtain ⟨i, hi⟩ := mem_iff_getElem?.mp hy
    rw [getElem?_drop, getElem?_hops] at hi
    split at hi
    · cases hi
      exact hlast _ (by omega) (by omega)
    · cases hi
  have hlength : (p.hops.take fp ++ [p.path bp]).length = fp + 1 := by
    rw [length_append, length_take, hops_length, length_singleton]
    omega
  have hsplit : (removeDoubleBack p fp).hops =
      p.hops.take fp ++ [p.path bp] ++ p.hops.drop (bp + 1) := by
    rw [hops, drop_hops hlt, append_assoc, singleton_append]
  rw [drop_hops hfp] at h
  rw [hsplit, take_left' hlength, drop_left' hlength]
  exact h.step hcut hid hrest

theorem removeDoubleBack_len_le (hfp : fp < p.len) :
    fp < (removeDoubleBack p fp).len ∧ (removeDoubleBack p fp).len ≤ p.len := by
  obtain ⟨bp, hle, hlt, -, -, hops, -⟩ := removeDoubleBack_cuts hfp
  have hlength := congrArg List.length hops
  rw [hops_length, length_append, length_take, length_drop, hops_length] at hlength
  omega

theorem walk_erased (hfp : fp ≤ p.len) (hfuel : p.len - fp < fuel)
    (h : Erased HopID.id l (p.hops.take fp) (p.hops.drop fp)) :
    ∃ p', walk fuel p fp = some p' ∧ Erased HopID.id l p'.hops [] := by
  induction fuel generalizing p fp with
  | zero => omega
  | succ fuel ih =>
    rw [walk]
    by_cases hlt : fp < p.len
    · obtain ⟨hlt', hle⟩ := removeDoubleBack_len_le hlt
      rw [if_pos hlt]
      exact ih hlt' (by omega) (removeDoubleBack_erased hlt h)
    · have hend : fp = p.hops.length := by
        rw [hops_length]
        omega
      rw [hend, take_length, drop_length] at h
      rw [if_neg hlt]
      exact ⟨p, rfl, h⟩

theorem walk_nodup (hfuel : p.len - fp < fuel) (hnodup : (p.hops.map HopID.id).Nodup) :
    walk fuel p fp = some p := by
  induction fuel generalizing fp with
  | zero => omega
  | succ fuel ih =>
    rw [walk]
    by_cases hlt : fp < p.len
    · obtain ⟨bp, hle, hbp, hid, -, -, hsame⟩ := removeDoubleBack_cuts hlt
      have hget : ∀ k, k < p.len → (p.hops.map HopID.id)[k]? = some (p.path k).id := by
        intro k hk
        rw [getElem?_map, getElem?_hops, if_pos hk, Option.map_some]
      have hequal : bp = fp := by
        have hlength : bp < (p.hops.map HopID.id).length := by
          rw [length_map, hops_length]
          exact hbp
        apply (getElem?_inj hlength hnodup).mp
        rw [hget bp hbp, hget fp hlt, hid]
      rw [if_pos hlt, hsame hequal]
      exact ih (by omega)
    · rw [if_neg hlt]

theorem removeDoubleBack_cells (hfp : fp < p.len) (hk : p.len ≤ k) :
    (removeDoubleBack p fp).path k = p.path k := by
  unfold removeDoubleBack
  split
  · rfl
  · rename_i bp hscan
    obtain ⟨hlt, hle, -, -⟩ := scan_some hscan
    dsimp only
    rw [(shift_spec hlt.le).2 k, if_neg (by omega)]

theorem walk_cells (hwalk : walk fuel p fp = some p') (hk : p.len ≤ k) : p'.path k = p.path k := by
  induction fuel generalizing p fp with
  | zero => cases hwalk
  | succ fuel ih =>
    rw [walk] at hwalk
    split at hwalk
    · rename_i hlt
      rw [ih hwalk ((removeDoubleBack_len_le hlt).2.trans hk), removeDoubleBack_cells hlt hk]
    · rw [Option.some.inj hwalk]

theorem compressPath_cells (h : compressPath p = some p') (hk : p.len ≤ k) : p'.path k = p.path k :=
  walk_cells h hk

/-- **`compressPath` removes exactly the loops.** -/
theorem compressPath_removes_loops (p : PathArray) :
    ∃ p', compressPath p = some p' ∧
      (p'.hops.map HopID.id).Nodup ∧
      p'.hops.head?.map HopID.id = p.hops.head?.map HopID.id ∧
      p'.hops.getLast?.map HopID.id = p.hops.getLast?.map HopID.id ∧
      p'.hops.Sublist p.hops ∧
      p'.hops.IsChain (Linked HopID.id p.hops) ∧
      ((p.hops.map HopID.id).Nodup → p' = p) := by
  obtain ⟨p', hwalk, herased⟩ := @walk_erased p 0 (p.len + 1) p.hops (Nat.zero_le _) (by omega)
    (erased_start p.hops)
  obtain ⟨hnodup, hsub, hfirst, hlast, hlinks⟩ := herased.done
  refine ⟨p', hwalk, hnodup, hfirst, hlast, hsub, hlinks, fun hp => ?_⟩
  have hsame := @walk_nodup p 0 (p.len + 1) (by omega) hp
  exact Option.some.inj (hwalk.symm.trans hsame)

def ofAddrs (addrs : List ℕ) : PathArray where
  len := addrs.length
  path := fun k => ⟨ID.ofIP (addrs.getD k 0), k, .tested, .none⟩

-- A B C B D becomes A B D, with the link of the second B
example : (compressPath (ofAddrs [1, 2, 3, 2, 4])).map (fun p => p.hops.map (fun h => (h.id.addr, h.t))) =
    some [(1, 0), (2, 3), (4, 4)] := by
  decide +kernel

end PathArray

end NetSim.Dsr
