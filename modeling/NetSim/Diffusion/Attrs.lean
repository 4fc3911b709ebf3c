import NetSim.Lib.ByteMemory

/-! # Diffusion attributes: the model

The attributes of directed diffusion (`diffusion3/lib/nr/nr.cc`) and their wire format
(`diffusion3/lib/main/attrs.cc`). An attribute has its fields and the bytes that `val_` points to; the
host is little-endian. The result is `none` where the source reads or writes outside of a buffer or
cannot allocate one. Lengths are `int`: sums of them wrap around at `2^31`.
-/

namespace NetSim.Diffusion

open ByteMemory

/-! ## `NRAttribute` -/

/-- `NRAttribute`, with the bytes of its value. -/
structure NRAttribute where
  key : BitVec 32
  type : BitVec 8
  op : BitVec 8
  len : BitVec 16
  val : List Byte
deriving DecidableEq

def int32Type : BitVec 8 := 0
def float32Type : BitVec 8 := 1
def float64Type : BitVec 8 := 2
def stringType : BitVec 8 := 3
def blobType : BitVec 8 := 4

namespace NRAttribute

/-- `getLen`, as the `int` it is converted to. -/
def getLen (a : NRAttribute) : ℤ := a.len.toInt

/-- The first `n` bytes of the value. -/
def bytes (a : NRAttribute) (n : ℕ) : Option (List Byte) :=
  if n ≤ a.val.length then some (a.val.take n) else none

/-- `NRSimpleAttribute<T>` for a type `T` of `n` bytes. -/
def simple (n : ℕ) (type : BitVec 8) (key : BitVec 32) (op : BitVec 8) (val : BitVec (8 * n)) :
    NRAttribute :=
  { key, type, op, len := BitVec.ofNat 16 n, val := wordBytes n val }

def int32 : BitVec 32 → BitVec 8 → BitVec 32 → NRAttribute := simple 4 int32Type

/-- `NRSimpleAttribute<float>`; the value is the bytes of the number. -/
def float32 : BitVec 32 → BitVec 8 → BitVec 32 → NRAttribute := simple 4 float32Type

/-- `NRSimpleAttribute<double>`; the value is the bytes of the number. -/
def float64 : BitVec 32 → BitVec 8 → BitVec 64 → NRAttribute := simple 8 float64Type

/-- `NRSimpleAttribute<char *>` for a string without its terminator. -/
def string (key : BitVec 32) (op : BitVec 8) (val : List Byte) : NRAttribute :=
  { key, type := stringType, op, len := BitVec.ofNat 16 (val.length + 1), val := val ++ [0] }

def blob (key : BitVec 32) (op : BitVec 8) (val : List Byte) : NRAttribute :=
  { key, type := blobType, op, len := BitVec.ofNat 16 val.length, val }

end NRAttribute

/-! ## The wire format -/

def htonl (w : BitVec 32) : BitVec 32 := swap 4 w

def htons (w : BitVec 16) : BitVec 16 := swap 2 w

def toInt (x : ℤ) : ℤ := x.bmod (2 ^ 32)

def hdrDiff : ℕ := 24

/-- The padding behind a value; `attr_len % sizeof(int)` is unsigned. -/
def pad (attrLen : ℤ) : ℤ := if attrLen % 4 ≠ 0 then 4 - attrLen % 4 else 0

/-- `sizeof(PackedAttribute) - sizeof(int32_t) + attr_len + pad`. -/
def packedSize (attrLen : ℤ) : ℤ := 8 + attrLen + pad attrLen

def calculateSize (attrVec : List NRAttribute) : ℤ :=
  attrVec.foldl (fun totalLen a => toInt (totalLen + packedSize a.getLen)) 0

/-- `AllocateBuffer`: the size of the new buffer in bytes. A negative length makes `new` fail. -/
def allocateBuffer (attrVec : List NRAttribute) : Option ℕ :=
  let len := toInt (calculateSize attrVec + hdrDiff)
  if len < 0 then none else some (4 * (1 + len / 4)).toNat

/-- The value of an attribute goes to `val_`. -/
def packValue (m : Memory) (current : ℤ) (a : NRAttribute) : Option Memory :=
  if 0 < a.getLen then
    if a.type = int32Type then
      (a.bytes 4).bind (fun val => m.store (current + 8) (wordBytes 4 (htonl (word 4 val))))
    else (a.bytes a.getLen.toNat).bind (fun val => m.store (current + 8) val)
  else some m

/-- The body of the loop of `PackAttrs`. -/
def packAttr (m : Memory) (current : ℤ) (a : NRAttribute) : Option Memory :=
  (m.store current (wordBytes 4 (htonl a.key))).bind (fun m =>
  (m.store (current + 4) [a.type]).bind (fun m =>
  (m.store (current + 5) [a.op]).bind (fun m =>
  (m.store (current + 6) (wordBytes 2 (htons (BitVec.ofInt 16 a.getLen)))).bind (fun m =>
    packValue m current a))))

/-- `PackAttrs`, from the attribute at `current` on. -/
def packAttrs : List NRAttribute → Memory → ℤ → ℤ → Option (Memory × ℤ)
  | [], m, _, totalLen => some (m, totalLen)
  | a :: attrVec, m, current, totalLen =>
    (packAttr m current a).bind (fun m =>
      packAttrs attrVec m (current + packedSize a.getLen)
        (toInt (totalLen + packedSize a.getLen)))

/-- The attribute that one round of `UnpackAttrs` appends, if any. -/
def unpackAttr (m : Memory) (current : ℤ) : Option (Option NRAttribute) :=
  (m.load current 4).bind (fun key =>
  (m.load (current + 4) 1).bind (fun type =>
  (m.load (current + 5) 1).bind (fun op =>
  (m.load (current + 6) 2).bind (fun len =>
    let key := htonl (word 4 key)
    let type := word 1 type
    let op := word 1 op
    let len := htons (word 2 len)
    if type = int32Type then
      (m.load (current + 8) 4).map (fun val => some (.int32 key op (htonl (word 4 val))))
    else if type = float32Type then
      (m.load (current + 8) 4).map (fun val => some (.float32 key op (word 4 val)))
    else if type = float64Type then
      (m.load (current + 8) 8).map (fun val => some (.float64 key op (word 8 val)))
    else if type = stringType then
      (m.cstring (m.size + 1) (current + 8)).map (fun val => some (.string key op val))
    else if type = blobType then
      if len.toInt < 0 then none
      else (m.load (current + 8) len.toNat).map (fun val => some (.blob key op val))
    else some none))))

/-- `UnpackAttrs`, from `current` on; the length of a record is the unsigned `ntohs(len_)`. -/
def unpackAttrs (m : Memory) : ℕ → ℤ → Option (List NRAttribute)
  | 0, _ => some []
  | numAttr + 1, current =>
    (unpackAttr m current).bind (fun a =>
    (m.load (current + 6) 2).bind (fun len =>
    (unpackAttrs m numAttr (current + packedSize (htons (word 2 len)).toNat)).map (fun attrVec =>
      a.toList ++ attrVec)))

def copyAttrs : List NRAttribute → Option (List NRAttribute)
  | [] => some []
  | a :: attrVec =>
    (copyAttrs attrVec).bind (fun rest =>
      if a.type = int32Type then
        (a.bytes 4).map (fun val => .int32 a.key a.op (word 4 val) :: rest)
      else if a.type = float32Type then
        (a.bytes 4).map (fun val => .float32 a.key a.op (word 4 val) :: rest)
      else if a.type = float64Type then
        (a.bytes 8).map (fun val => .float64 a.key a.op (word 8 val) :: rest)
      else if a.type = stringType then
        if 0 ∈ a.val then some (.string a.key a.op (a.val.takeWhile (· ≠ 0)) :: rest) else none
      else if a.type = blobType then
        if a.getLen < 0 then none
        else (a.bytes a.getLen.toNat).map (fun val => .blob a.key a.op val :: rest)
      else some rest)

end NetSim.Diffusion
