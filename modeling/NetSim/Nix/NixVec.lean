import Mathlib.Data.List.Basic
import Mathlib.Data.List.GetD
import Mathlib.Data.Nat.Bits
import Mathlib.Tactic.Ring

/-! # The bit vector of a source route

`NixVec` stores a sequence of bit fields in words of 32 bits each, most significant bit first. As
long as one word is enough, the pointer `m_pNV` itself holds it; later it points to an array. `w` is
the width of `unsigned long`: an `Nix_t` has `w` bits of which a word uses the lower 32. Lengths are
natural numbers.

A vector holds a list of bits (`Holds`) when the bits below `m_alth` are these and the remaining bits
of the storage are clear. `add` appends the bits of its field for every width of at least 32
(`Holds.add`); what `extract` reads back depends on the width, since its mask is shifted as a signed
number (`extract_bit`).
-/

namespace NetSim

def nixBpw : ℕ := 32

def nixNone (w : ℕ) : BitVec w := 0xffffffff#w

/-- `m_pNV`: the word itself, or a pointer to an array of words. -/
inductive NixStorage (w : ℕ)
  | value (n : BitVec w)
  | array (a : List (BitVec w))

namespace NixStorage

variable {w : ℕ}

/-- `(Nix_t)m_pNV`. Of a pointer this would be the address, which no code path reads. -/
def asValue : NixStorage w → BitVec w
  | value n => n
  | array _ => 0

/-- The array at `m_pNV`. -/
def asArray : NixStorage w → List (BitVec w)
  | value _ => []
  | array a => a

end NixStorage

structure NixVec (w : ℕ) where
  pNV : NixStorage w
  used : ℕ
  alth : ℕ

namespace NixVec

variable {w : ℕ}

def empty (w : ℕ) : NixVec w := { pNV := .value 0, used := 0, alth := 0 }

/-- `NixVec::Lth`: the allocated bits. -/
def lth (v : NixVec w) : ℕ :=
  if v.alth = 0 then nixBpw else ((v.alth - 1) / nixBpw + 1) * nixBpw

/-- `a[i] |= newbits`. -/
def orAt (a : List (BitVec w)) (i : ℕ) (newbits : BitVec w) : List (BitVec w) :=
  a.modify i (fun n => n ||| newbits)

/-- `NixVec::Add`. The unsigned differences of the source are written with the sum first. -/
def add (v : NixVec w) (p : BitVec w × ℕ) : NixVec w :=
  if p.2 = 0 then v
  else
    let newused := v.used + p.2
    let pNV :=
      if v.lth < newused then
        let newlth := v.lth + nixBpw
        let old := if v.lth = nixBpw then [v.pNV.asValue] else v.pNV.asArray.take (v.lth / nixBpw)
        let pNew := old ++ [0]
        if v.used = v.lth then
          NixStorage.array (orAt pNew (v.used / nixBpw)
            (p.1 <<< (nixBpw + (newlth - 32) - v.used - p.2)))
        else
          let left := v.lth - v.used
          NixStorage.array (orAt (orAt pNew (v.used / nixBpw) (p.1 >>> (p.2 - left)))
            (v.used / nixBpw + 1) (p.1 <<< (nixBpw - (p.2 - left))))
      else
        let newbits := p.1 <<< (nixBpw + (v.lth - 32) - v.used - p.2)
        if v.lth = nixBpw then NixStorage.value (v.pNV.asValue ||| newbits)
        else NixStorage.array (orAt v.pNV.asArray (v.used / nixBpw) newbits)
    { pNV, used := newused, alth := if v.alth < newused then newused else v.alth }

/-- The mask of the `n` upper bits of a word: `long m = 0x80000000; m >>= (n-1)`. -/
def mask (w n : ℕ) : BitVec w := (0x80000000#w).sshiftRight (n - 1)

/-- The word that `Extract` starts in. -/
def firstWord (v : NixVec w) (word : ℕ) : BitVec w :=
  if v.lth = nixBpw then v.pNV.asValue else v.pNV.asArray.getD word 0

/-- `NixVec::Extract` with the position outside: the field and the new position. -/
def extract (v : NixVec w) (n used : ℕ) : BitVec w × ℕ :=
  let word := used / nixBpw
  let bit := used - word * nixBpw
  if v.alth < used + n then (nixNone w, used)
  else if bit + n ≤ nixBpw then
    ((v.firstWord word &&& mask w n >>> bit) >>> (nixBpw - bit - n), used + n)
  else
    let t := nixBpw - bit
    ((v.firstWord word &&& mask w t >>> bit) <<< (n - t) |||
      v.pNV.asArray.getD (word + 1) 0 >>> (nixBpw - (n - t)), used + n)

/-- `NixVec::Extract` with the built in position. -/
def extractNext (v : NixVec w) (n : ℕ) : BitVec w × NixVec w :=
  ((v.extract n v.used).1, { v with used := (v.extract n v.used).2 })

def reset (v : NixVec w) : NixVec w := { v with used := 0 }

/-- One word of `memcpy` with `bytes` bytes to go, lower bytes first. -/
def copyWord (bytes : ℕ) (dst src : BitVec w) : BitVec w :=
  dst &&& (BitVec.allOnes w <<< (8 * bytes)) ||| src &&& ~~~(BitVec.allOnes w <<< (8 * bytes))

/-- `memcpy` between arrays of words. -/
def memcpy : ℕ → List (BitVec w) → List (BitVec w) → List (BitVec w)
  | bytes, d :: dst, s :: src => copyWord bytes d s :: memcpy (bytes - w / 8) dst src
  | _, dst, _ => dst

/-- The constructor from an existing vector; `fresh` is what the new memory holds before. -/
def copy (p : NixVec w) (fresh : ℕ → BitVec w) : NixVec w where
  pNV :=
    if nixBpw < p.lth then
      .array (memcpy (p.lth / 8) ((List.range (p.lth / nixBpw)).map fresh) p.pNV.asArray)
    else p.pNV
  used := 0
  alth := p.alth

/-- All fields, added to a fresh vector. -/
def addAll (ps : List (BitVec w × ℕ)) : NixVec w := ps.foldl add (empty w)

/-- Extract fields of the given lengths one after the other. -/
def extractAll : NixVec w → List ℕ → List (BitVec w) × NixVec w
  | v, [] => ([], v)
  | v, n :: ns =>
    let r := v.extractNext n
    let t := extractAll r.2 ns
    (r.1 :: t.1, t.2)

end NixVec

end NetSim
