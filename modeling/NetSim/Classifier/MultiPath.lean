import NetSim.Lib.Runs
import NetSim.Lib.RoundRobin
import NetSim.Lib.Doubling
import Mathlib

/-! # Multipath forwarding

A `MultiPathForwarder` (`classifier/classifier-mpath.cc`) is a `Classifier` (`classifier/classifier.cc`) that
spreads packets over the nodes in its slots: a cursor goes round the slots. An `int` has 32 bits, which
matters where the table grows. What faults or never ends has the result `none`.
-/

namespace NetSim

open List Function Doubling

/-- `class MultiPathForwarder`; `slot_` is a null pointer as long as the list is empty. -/
structure MultiPathForwarder (α : Type) where
  slot : List (Option α)
  maxslot : ℤ
  nsize : ℤ
  defaultTarget : Option α
  ns : ℕ
deriving DecidableEq

/-- What `Classifier::find` comes to. -/
inductive Found (α : Type)
  | node (p : α)
  | noSlot (cl : ℕ)
deriving DecidableEq

namespace MultiPathForwarder

variable {α : Type}

def init : MultiPathForwarder α where
  slot := []
  maxslot := -1
  nsize := 0
  defaultTarget := none
  ns := 0

variable (c : MultiPathForwarder α)

def nslot : ℕ := c.slot.length

def node (i : ℕ) : Option α := c.slot[i]?.join

/-- `Classifier::alloc`. -/
def alloc (slot : ℕ) : Option (MultiPathForwarder α) :=
  let n : ℤ := if c.slot = [] then (if c.nsize ≠ 0 then c.nsize else 32) else c.nslot
  (double slot rounds n).map (fun nslot =>
    { c with slot := c.slot ++ replicate (nslot.toNat - c.nslot) none })

/-- `Classifier::install`. -/
def install (slot : ℕ) (p : α) : Option (MultiPathForwarder α) :=
  (if c.nslot ≤ slot then c.alloc slot else some c).map (fun c =>
    { c with
      slot := c.slot.set slot (some p)
      maxslot := if c.maxslot ≤ slot then slot else c.maxslot })

/-- `Classifier::install_next`. -/
def installNext (p : α) : Option (MultiPathForwarder α × ℕ) :=
  let slot := (c.maxslot + 1).toNat
  (c.install slot p).map (·, slot)

/-- The loop of `clear`, with `maxslot_` as it is before `--maxslot_`. -/
def lower : ℕ → ℤ
  | 0 => -1
  | m + 1 => if c.node m = none then lower m else m

/-- `Classifier::clear`. -/
def clear (slot : ℕ) : Option (MultiPathForwarder α) :=
  if slot < c.nslot then
    let c' := { c with slot := c.slot.set slot none }
    some (if slot = c.maxslot then { c' with maxslot := c'.lower slot } else c')
  else none

/-- The loop of `classify`: the slot, and `ns_`. -/
def classifyLoop (fail : ℕ) : ℕ → ℕ → Option (ℕ × ℕ)
  | 0, _ => none
  | fuel + 1, ns =>
    let m := (c.maxslot + 1).toNat
    -- a division by zero
    if m = 0 then none
    else
      let ns' := (ns + 1) % m
      match c.slot[ns]? with
      | none => none
      | some none => if ns' ≠ fail then classifyLoop fail fuel ns' else some (ns, ns')
      | some (some _) => some (ns, ns')

def classify : Option (ℕ × MultiPathForwarder α) :=
  (c.classifyLoop c.ns (c.nslot + 1) c.ns).map (fun r => (r.1, { c with ns := r.2 }))

/-- `Classifier::find`. -/
def find : Option (Found α × MultiPathForwarder α) :=
  c.classify.map (fun r =>
    (match c.node r.1 with
      | some p => .node p
      | none => c.defaultTarget.elim (.noSlot r.1) .node, r.2))

end MultiPathForwarder

end NetSim
