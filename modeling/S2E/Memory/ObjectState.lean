import S2E.Expr.Create

/-!
`ObjectState`: the bytes of a memory object. A byte is in the concrete buffer, in the table of
known symbolic values, or in the update list, as two masks and the table say.
-/

namespace S2E

abbrev BitArray := List Bool

def BitArray.ones (size : Nat) : BitArray := List.replicate size true

/-- The concrete buffer and its mask, which the parts of a split object share. Without a mask
every byte is concrete. -/
structure ConcreteStore where
  buffer : List (BitVec 8)
  mask : Option BitArray

/-- The update list of an object, the most recent update first. It has no root until it is
needed. -/
structure Updates where
  root : Option ArrayObj
  nodes : List (Expr × Expr)

/-- An object, with its store held as an `S`. The name `updatesId` stands for the addresses of
its update list and of the array at its root. -/
structure ObjectState (S : Type) where
  address : Nat
  size : Nat
  size_lt : size < 2^32
  copyOnWriteOwner : Nat
  splittable : Bool
  readOnly : Bool
  isSharedConcrete : Bool
  store : S
  bufferOffset : Nat
  flushMask : Option BitArray
  knownSymbolics : List (Option Expr)
  updates : Option Updates
  updatesId : Nat

abbrev Object := ObjectState ConcreteStore

def ObjectState.allocate (address size : Nat) (h : size < 2^32) (updatesId : Nat) : Object where
  address := address
  size := size
  size_lt := h
  copyOnWriteOwner := 0
  splittable := false
  readOnly := false
  isSharedConcrete := false
  store := ⟨List.replicate size 0,none⟩
  bufferOffset := 0
  flushMask := none
  knownSymbolics := []
  updates := none
  updatesId := updatesId

namespace ObjectState

def liveList {S : Type} (o : ObjectState S) : ArrayObj := .symbolic o.updatesId o.size o.size_lt

def fastConcreteBufferSize : Nat := 8

variable (o : Object) (offset : Nat)

def isByteConcrete : Bool :=
  match o.store.mask with
  | none => true
  | some mask => mask.getD (o.bufferOffset+offset) false

def isByteFlushed : Bool :=
  match o.flushMask with
  | none => false
  | some mask => !mask.getD offset false

def isByteKnownSymbolic : Bool := (o.knownSymbolics.getD offset none).isSome

def concreteByte : Option (BitVec 8) :=
  if o.size ≤ fastConcreteBufferSize ∧ o.bufferOffset ≠ 0 then none
  else o.store.buffer[o.bufferOffset+offset]?

def setConcreteByte (value : BitVec 8) : Object :=
  {o with store := {o.store with buffer := o.store.buffer.set (o.bufferOffset+offset) value}}

def markByteConcrete : Object :=
  { o with store := { o.store with
      mask := o.store.mask.map fun mask => mask.set (o.bufferOffset+offset) true}}

def initializeConcreteMask : Object :=
  {o with store := {o.store with mask := some (o.store.mask.getD (.ones o.size))}}

def markByteSymbolic : Object :=
  { o with store := { o.store with
      mask := some ((o.store.mask.getD (.ones o.size)).set (o.bufferOffset+offset) false)}}

def markByteUnflushed : Object :=
  {o with flushMask := o.flushMask.map fun mask => mask.set offset true}

def unsetFlushMask : Object :=
  {o with flushMask := o.flushMask.map fun mask => mask.set offset false}

def setKnownSymbolic (value : Option Expr) : Object :=
  if o.knownSymbolics.length > 0 then
    {o with knownSymbolics := o.knownSymbolics.set offset value}
  else if value.isSome then
    {o with knownSymbolics := (List.replicate o.size none).set offset value}
  else o

def pullConcrete (size : Nat) : List (Expr × Expr) → {c : List (BitVec 8) // c.length = size} →
    {c : List (BitVec 8) // c.length = size} × List (Expr × Expr)
  | (.constant index,.constant value) :: writes, contents =>
    pullConcrete size writes ⟨contents.1.set index.value (.ofNat 8 value.value),by
      rw [List.length_set,contents.2]⟩
  | writes, contents => (contents,writes)

def getUpdates : Object :=
  let updates := o.updates.getD ⟨none,[]⟩
  match updates.root with
  | some _ => {o with updates := some updates}
  | none =>
    let (contents,writes) := pullConcrete o.size updates.nodes.reverse
      ⟨List.replicate o.size 0,List.length_replicate⟩
    let array : ArrayObj := ⟨o.updatesId,o.size,contents.1,o.size_lt,.inr contents.2⟩
    {o with updates := some ⟨some array,writes.reverse⟩}

def extendUpdates (index value : Expr) : Option (Object) :=
  let o := o.getUpdates
  if value.width = 8 then
    some {o with updates := o.updates.map fun u => {u with nodes := (index,value) :: u.nodes}}
  else none

def readUpdates (index : Expr) : Option (Expr × Object) :=
  let o := o.getUpdates
  let nodes := (o.updates.map Updates.nodes).getD []
  (ReadExpr.createWith (.read (.root o.liveList)) nodes index).map fun e => (e,o)

def cachedByte : Option Expr :=
  if o.isByteConcrete offset then
    (o.concreteByte offset).map fun byte => ConstantExpr.alloc byte.toNat 8
  else o.knownSymbolics.getD offset none

def initializeFlushMask : Object :=
  {o with flushMask := some (o.flushMask.getD (.ones o.size))}

def flushByteForRead : Option (Object) :=
  if o.isByteFlushed offset then some o
  else do
    let value ← o.cachedByte offset
    let o ← o.extendUpdates (ConstantExpr.alloc offset 32) value
    some (o.unsetFlushMask offset)

def dropCachedByte : Object :=
  if o.isByteConcrete offset then o.markByteSymbolic offset
  else if o.isByteKnownSymbolic offset then o.setKnownSymbolic offset none
  else o

def flushByteForWrite : Option (Object) :=
  if o.isByteFlushed offset then some (o.dropCachedByte offset)
  else do
    let value ← o.cachedByte offset
    let o ← o.extendUpdates (ConstantExpr.alloc offset 32) value
    some ((o.dropCachedByte offset).unsetFlushMask offset)

def flushRangeForRead (rangeBase rangeSize : Nat) : Option (Object) :=
  (List.range' rangeBase rangeSize).foldlM flushByteForRead o.initializeFlushMask

def flushRangeForWrite (rangeBase rangeSize : Nat) : Option (Object) :=
  (List.range' rangeBase rangeSize).foldlM flushByteForWrite o.initializeFlushMask

def read8 : Option (Expr × Object) :=
  if offset < o.size then
    if o.isByteConcrete offset then
      (o.concreteByte offset).map fun byte => (ConstantExpr.alloc byte.toNat 8,o)
    else
      match o.knownSymbolics.getD offset none with
      | some value => some (value,o)
      | none =>
        if o.isByteFlushed offset then o.readUpdates (ConstantExpr.alloc offset 32) else none
  else none

def readAt8 (offset : Expr) : Option (Expr × Object) := do
  if offset.isConstant || o.isSharedConcrete then none
  else
    let o ← o.flushRangeForRead 0 o.size
    let index ← ZExtExpr.create offset 32
    o.readUpdates index

/-- The bytes of a value, put together from byte `i` on; the source has no value to put the
first byte in front of unless that is byte 0. -/
def readBytes (littleEndian : Bool) (read8 : Object → Nat → Option (Expr × Object))
    (numBytes : Nat) : List Nat → Option Expr → Object → Option (Option Expr × Object)
  | [], res, o => some (res,o)
  | i :: is, res, o => do
    let idx := if littleEndian then i else numBytes-i-1
    let (byte,o) ← read8 o idx
    let res ← if idx = 0 then some byte else res.bind fun res => ConcatExpr.create byte res
    readBytes littleEndian read8 numBytes is (some res) o

variable (littleEndian : Bool)

def readWidth (read8 : Object → Nat → Option (Expr × Object))
    (width : Nat) : Option (Expr × Object) :=
  if width = 1 then do
    let (byte,o) ← read8 o 0
    let bit ← ExtractExpr.create byte 0 1
    some (bit,o)
  else if width = width/8*8 then do
    match ← readBytes littleEndian read8 (width/8) (List.range (width/8)) none o with
    | (some res,o) => some (res,o)
    | (none,_) => none
  else none

def read (offset width : Nat) : Option (Expr × Object) :=
  o.readWidth littleEndian (fun o idx => o.read8 ((offset+idx)%2^32)) width

def readAt (offset : Expr) (width : Nat) : Option (Expr × Object) := do
  match ← ZExtExpr.create offset 32 with
  | .constant c => o.read littleEndian c.value width
  | offset =>
    o.readWidth littleEndian (fun o idx => do
      if idx = 0 ∧ width = 1 then o.readAt8 offset
      else o.readAt8 (← AddExpr.create offset (ConstantExpr.alloc idx 32))) width

def writeByte (value : BitVec 8) : Option Object :=
  if offset < o.size then
    (o.concreteByte offset).map fun _ =>
      (((o.setConcreteByte offset value).setKnownSymbolic offset none).markByteConcrete
        offset).markByteUnflushed offset
  else none

def writeSymbolicByte (value : Expr) : Object :=
  ((o.setKnownSymbolic offset (some value)).markByteSymbolic offset).markByteUnflushed offset

def minBytesForWidth (width : Nat) : Nat := (width+7)/8

def byteOffset (offset size i : Nat) : Nat :=
  (offset+if littleEndian then i else size-i-1)%2^32

def write (offset : Nat) (value : Expr) : Option Object :=
  let size := minBytesForWidth value.width
  if (offset+size)%2^32 ≤ o.size then
    match value with
    | .constant c =>
      if c.width ≤ 64 then
        (List.range size).foldlM (fun o i =>
          o.writeByte (byteOffset littleEndian offset size i) (.ofNat 8 (c.value >>> (8*i)))) o
      else none
    | value =>
      if o.isSharedConcrete then none
      else
        (List.range size).foldlM (fun o i => do
          let value8 ← ExtractExpr.create value (8*i) 8
          let idx := byteOffset littleEndian offset size i
          if idx < o.size then some (o.writeSymbolicByte idx value8) else none) o
  else none

def writeAt8 (offset value : Expr) : Option Object := do
  if offset.isConstant || o.isSharedConcrete then none
  else
    let o ← o.flushRangeForWrite 0 o.size
    let index ← ZExtExpr.create offset 32
    o.extendUpdates index value

def writeAt (offset value : Expr) : Option Object := do
  if value.width = 8 ∨ value.width = 1 then
    match ← ZExtExpr.create offset 32 with
    | .constant c => o.write littleEndian c.value value
    | offset =>
      if value.width = 1 then o.writeAt8 offset (← ZExtExpr.create value 8)
      else
        o.writeAt8 (← AddExpr.create offset (ConstantExpr.alloc 0 32))
          (← ExtractExpr.create value 0 8)
  else none

end ObjectState
end S2E
