import S2E.ADT.ImmutableTree
import S2E.Memory.ObjectState

/-!
`AddressSpace`: the map from ranges to memory objects, with the cache in front of it. Objects
and their stores are on a heap, which several address spaces may share.
-/

namespace S2E

abbrev ObjectRef := Nat
abbrev StoreRef := Nat

structure ObjectKey where
  address : Nat
  size : Nat
  deriving DecidableEq

def ObjectKey.lt (a b : ObjectKey) : Bool := (a.address+a.size)%2^64 ≤ b.address

def ObjectState.getKey {S : Type} (o : ObjectState S) : ObjectKey := ⟨o.address,o.size⟩

/-- The objects and stores that have been allocated, and the memory of the host, in which
shared concrete objects have their bytes. -/
structure Heap where
  objects : ObjectRef → ObjectState StoreRef
  stores : StoreRef → ConcreteStore
  nextObject : ObjectRef
  nextStore : StoreRef
  host : Nat → BitVec 8

namespace Heap
variable (h : Heap) (r : ObjectRef)

def setOwnerId (id : Nat) : Heap :=
  {h with objects := Function.update h.objects r {h.objects r with copyOnWriteOwner := id}}

def allocObject (o : ObjectState StoreRef) : ObjectRef × Heap :=
  (h.nextObject, { h with
      objects := Function.update h.objects h.nextObject {o with updatesId := h.nextObject}
      nextObject := h.nextObject+1})

def allocStore (s : ConcreteStore) : StoreRef × Heap :=
  (h.nextStore,
    {h with stores := Function.update h.stores h.nextStore s, nextStore := h.nextStore+1})

def copy : Option (ObjectRef × Heap) :=
  let o := h.objects r
  if o.readOnly then none
  else
    let (store,h) := h.allocStore (h.stores o.store)
    some (h.allocObject {o with store})

def copyWith (store : StoreRef) : Option (ObjectRef × Heap) :=
  let o := h.objects r
  if o.readOnly then none else some (h.allocObject {o with store})

def getBitArraySize : Nat :=
  match (h.stores (h.objects r).store).mask with
  | none => (h.objects r).size
  | some mask => mask.length

def initializeConcreteMask : Heap :=
  let o := h.objects r
  let s := h.stores o.store
  { h with stores :=
      Function.update h.stores o.store {s with mask := some (s.mask.getD (.ones o.size))}}

def split (offset newSize : Nat) (hsize : newSize < 2^32) : Option (ObjectRef × Heap) :=
  let o := h.objects r
  if o.splittable ∧ newSize ≤ o.size ∧ offset+newSize ≤ o.size ∧ o.flushMask.isNone ∧
      (o.updates.map Updates.nodes).getD [] = [] ∧ o.readOnly = false ∧
      o.size > ObjectState.fastConcreteBufferSize then
    some (h.allocObject { o with
        copyOnWriteOwner := 0
        address := o.address+offset
        size := newSize
        size_lt := hsize
        splittable := false
        bufferOffset := offset
        knownSymbolics :=
          if o.knownSymbolics.length > 0 then (o.knownSymbolics.drop offset).take newSize else []
        updates := none})
  else none

end Heap

def Cache.hash (address : Nat) : BitVec 8 :=
  ((List.range 8).map fun i =>
    BitVec.ofNat 8 ((address >>> (8*i))%256*33149)).foldl (· ^^^ ·) 0

structure AddressSpace where
  cowKey : Nat
  cache : BitVec 8 → Option ObjectRef
  objects : ImmutableTree (ObjectKey × ObjectRef)

namespace AddressSpace

def empty : AddressSpace := ⟨1,fun _ => none,.terminator⟩

variable (as : AddressSpace) (h : Heap)

def cacheGet (address : Nat) : Option ObjectRef :=
  (as.cache (Cache.hash address)).filter fun r => (h.objects r).address = address

variable (r : ObjectRef)

def cacheAdd : AddressSpace :=
  {as with cache := Function.update as.cache (Cache.hash (h.objects r).address) (some r)}

def cacheInvalidate (address : Nat) : AddressSpace :=
  {as with cache := Function.update as.cache (Cache.hash address) none}

def findObject (address : Nat) : Option ObjectRef × AddressSpace :=
  match as.cacheGet h address with
  | some r => (some r,as)
  | none =>
    match as.objects.lookup ObjectKey.lt ⟨address,1⟩ with
    | some (_,r) => (some r,as.cacheAdd h r)
    | none => (none,as)

def mapObject (key : ObjectKey) (r : ObjectRef) : AddressSpace :=
  {as with objects := as.objects.replace ObjectKey.lt (key,r)}.cacheAdd h r

def bindObject : Option (Heap × AddressSpace) :=
  let os := h.objects r
  if os.address ≠ 0 ∧ os.size ≠ 0 then
    let (_,as) := as.findObject h os.address
    if os.copyOnWriteOwner = 0 then
      let h := h.setOwnerId r as.cowKey
      some (h,as.mapObject h os.getKey r)
    else none
  else none

def unbindObject (key : ObjectKey) : Option AddressSpace :=
  if key.address ≠ 0 ∧ key.size ≠ 0 then
    match as.findObject h key.address with
    | (some r,as) =>
      let os := h.objects r
      if os.size = key.size then
        some ({as with objects := as.objects.remove ObjectKey.lt key}.cacheInvalidate os.address)
      else none
    | (none,_) => none
  else none

def updateWritable (r w : ObjectRef) : Heap × AddressSpace :=
  let h := h.setOwnerId w as.cowKey
  (h,as.mapObject h (h.objects r).getKey w)

def getWriteableInternal : Option (ObjectRef × Heap × AddressSpace) := do
  let (w,h) ← h.copy r
  some (w,as.updateWritable h r w)

def findPieces (h : Heap) : Nat → AddressSpace → Nat → Nat → Option (List ObjectRef × AddressSpace)
  | 0, _, _, _ => none
  | fuel+1, as, address, size => do
    match as.findObject h address with
    | (some r,as) =>
      let os := h.objects r
      if as.cowKey = os.copyOnWriteOwner then none
      else
        let size := (size+2^32-os.size)%2^32
        if size = 0 then some ([r],as)
        else
          let (rs,as) ← findPieces h fuel as ((address+os.size)%2^64) size
          some (r :: rs,as)
    | (none,_) => none

def copyPieces (os : ObjectRef) (store : StoreRef) : List ObjectRef → Option ObjectRef → Heap →
    AddressSpace → Option (ObjectRef × Heap × AddressSpace)
  | [], ret, h, as => ret.map fun w => (w,h,as)
  | r :: rs, ret, h, as => do
    let (w,h) ← h.copyWith r store
    let (h,as) := as.updateWritable h r w
    copyPieces os store rs (if r = os then some w else ret) h as

def getWriteable : Option (ObjectRef × Heap × AddressSpace) :=
  let os := h.objects r
  if os.readOnly then none
  else if as.cowKey = os.copyOnWriteOwner then some (r,h,as)
  else
    let size := h.getBitArraySize r
    if size = os.size then
      if os.bufferOffset = 0 then as.getWriteableInternal h r else none
    else if size > os.size then do
      let address := (os.address+2^64-os.bufferOffset)%2^64
      let (pieces,as) ← findPieces h (2^64) as address size
      let store := h.stores os.store
      if os.size > ObjectState.fastConcreteBufferSize ∧
          store.mask.map List.length = some store.buffer.length then
        let (store,h) := h.allocStore store
        copyPieces r store pieces none h as
      else none
    else none

def pageSize : Nat := 0x1000

def splitPieces (w : ObjectRef) : List Nat → Heap → Option (List ObjectRef × Heap)
  | [], h => some ([],h)
  | i :: is, h => do
    let (r,h) ← h.split w (i*128) 128 (by decide)
    let (rs,h) ← splitPieces w is h
    some (r :: rs,h)

def bindObjects : List ObjectRef → Heap → AddressSpace → Option (Heap × AddressSpace)
  | [], h, as => some (h,as)
  | r :: rs, h, as => do
    let (h,as) ← as.bindObject h r
    bindObjects rs h as

def splitMemoryObject : Option (List ObjectRef × Heap × AddressSpace) :=
  let originalObject := h.objects r
  if originalObject.size ≠ pageSize ∨ originalObject.splittable = false then some ([],h,as)
  else do
    let (w,h,as) ← as.getWriteable h r
    let h := h.initializeConcreteMask w
    let (pieces,h) ← splitPieces w (List.range (pageSize/128)) h
    let as ← as.unbindObject h originalObject.getKey
    let (h,as) ← bindObjects pieces h as
    some (pieces,h,as)

/-- The copy constructor: both spaces get the same new key, and the copy starts with an empty
cache. -/
def fork : AddressSpace × AddressSpace :=
  let cowKey := (as.cowKey+1)%2^32
  ({as with cowKey}, {as with cowKey, cache := fun _ => none})

end AddressSpace
end S2E
