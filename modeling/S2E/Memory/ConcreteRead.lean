import S2E.Memory.CopyOnWrite

/-!
`readConcrete8`, the direct read of a concrete byte. The bytes of an object are in a buffer that
it refers to, or inside the object if it is small; here the two are told apart.
-/

namespace S2E
open List Option Nat ConstantExpr

structure ConcreteBuffers where
  mask : Option BitArray
  concreteBuffer : Option (List (BitVec 8))
  fastConcreteBuffer : List (BitVec 8)

structure HostedObject where
  object : ObjectState ConcreteBuffers
  host : Nat → BitVec 8

namespace HostedObject
open ObjectState

def allocate (address size : Nat) (h : size < 2^32) (updatesId : Nat) (host : Nat → BitVec 8) :
    HostedObject where
  object := { ObjectState.allocate address size h updatesId with
    store := {
      mask := none
      concreteBuffer :=
        if size > fastConcreteBufferSize then some (List.replicate size 0) else none
      fastConcreteBuffer := List.replicate fastConcreteBufferSize 0}}
  host := host

variable (o : ObjectState ConcreteBuffers)

def getConcreteBuffer : List (BitVec 8) :=
  if o.size ≤ fastConcreteBufferSize then o.store.fastConcreteBuffer
  else o.store.concreteBuffer.getD []

def load : Object :=
  {o with store := ⟨getConcreteBuffer o,o.store.mask⟩}

def save (new : Object) : ObjectState ConcreteBuffers :=
  { new with store :=
      if o.size ≤ fastConcreteBufferSize then
        ⟨new.store.mask,o.store.concreteBuffer,new.store.buffer⟩
      else ⟨new.store.mask,some new.store.buffer,o.store.fastConcreteBuffer⟩}

variable (w : HostedObject)

def isByteConcrete (offset : Nat) : Bool := (load w.object).isByteConcrete offset

/-- Without a result a null pointer is followed, or memory outside the buffer is read. -/
def readConcrete8 (offset : Nat) : Option (Option (BitVec 8)) :=
  if w.object.isSharedConcrete then some (some (w.host (w.object.address+offset)))
  else if w.isByteConcrete offset then do
    let buffer ← w.object.store.concreteBuffer
    let byte ← buffer[offset+w.object.bufferOffset]?
    some (some byte)
  else some none

def read8 (offset : Nat) : Option Expr :=
  if w.object.isSharedConcrete then
    if offset < w.object.size then
      some (ConstantExpr.alloc (w.host (w.object.address+offset)).toNat 8)
    else none
  else ((load w.object).read8 offset).map Prod.fst

def split (offset newSize updatesId : Nat)
    (hsize : newSize < 2^32) : Option (ObjectState ConcreteBuffers) :=
  if o.splittable ∧ offset+newSize ≤ o.size ∧ o.flushMask = none ∧
      (o.updates.map fun u => u.nodes.isEmpty) ≠ some false ∧ o.readOnly = false ∧
      o.size > fastConcreteBufferSize then
    some { o with
      copyOnWriteOwner := 0
      address := o.address+offset
      size := newSize
      size_lt := hsize
      splittable := false
      bufferOffset := offset
      knownSymbolics :=
        if o.knownSymbolics.length > 0 then (o.knownSymbolics.drop offset).take newSize else []
      updates := none
      updatesId := updatesId}
  else none

/-- What is done with an object, or with a part or a copy of it. A write to a shared concrete
object changes the memory of the host, and so may others. -/
inductive Call where
  | write (w : Write)
  | read8 (offset : Nat)
  | read (offset width : Nat)
  | readAt (offset : Expr) (width : Nat)
  | initializeConcreteMask
  | setSharedConcrete (b : Bool)
  | setSplittable (b : Bool)
  | copy (updatesId : Nat)
  | split (offset : Nat) (newSize : Nat) (hsize : newSize < 2^32) (updatesId : Nat)
  | setHost (host : Nat → BitVec 8)

def update (o : Object) : HostedObject := {w with object := save w.object o}

def step (littleEndian : Bool) (w : HostedObject) : Call → Option HostedObject
  | .write op =>
    if w.object.isSharedConcrete then none
    else (op.exec littleEndian (load w.object)).map w.update
  | .read8 offset =>
    if w.object.isSharedConcrete then some w
    else ((load w.object).read8 offset).map fun r => w.update r.2
  | .read offset width =>
    if w.object.isSharedConcrete then some w
    else ((load w.object).read littleEndian offset width).map fun r => w.update r.2
  | .readAt offset width =>
    if w.object.isSharedConcrete then some w
    else ((load w.object).readAt littleEndian offset width).map fun r => w.update r.2
  | .initializeConcreteMask => some (w.update (load w.object).initializeConcreteMask)
  | .setSharedConcrete b => some {w with object := {w.object with isSharedConcrete := b}}
  | .setSplittable b => some {w with object := {w.object with splittable := b}}
  | .copy updatesId =>
    if w.object.readOnly then none
    else some {w with object := {w.object with updatesId := updatesId}}
  | .split offset newSize hsize updatesId =>
    -- without a mask a part would make one of its own size, too short for its offset
    if w.object.store.mask = none then none
    else (split w.object offset newSize updatesId hsize).map fun o => {w with object := o}
  | .setHost host => some {w with host := host}

inductive Reached (littleEndian : Bool) : HostedObject → Prop
  | allocate (address size : Nat) (h : size < 2^32) (updatesId : Nat) (host : Nat → BitVec 8) :
    Reached littleEndian (allocate address size h updatesId host)
  | step {w w' : HostedObject} (call : Call) (hw : Reached littleEndian w)
    (h : w.step littleEndian call = some w') : Reached littleEndian w'

end HostedObject

variable {littleEndian : Bool} {value e : Expr} {width : Nat}

namespace ObjectState

structure Keeps (o o' : Object) : Prop where
  size : o'.size = o.size
  bufferOffset : o'.bufferOffset = o.bufferOffset
  length : o'.store.buffer.length = o.store.buffer.length

variable {offset : Nat}

namespace Keeps
variable {o o' o1 : Object}

lemma refl (o : Object) : o.Keeps o := ⟨rfl,rfl,rfl⟩

lemma trans (h : o.Keeps o1) (h1 : o1.Keeps o') : o.Keeps o' :=
  ⟨h1.size.trans h.size,h1.bufferOffset.trans h.bufferOffset,h1.length.trans h.length⟩

lemma foldlM {α : Type} {f : Object → α → Option Object} {l : List α}
    (hf : ∀ {o a o'}, f o a = some o' → o.Keeps o') (h : l.foldlM f o = some o') : o.Keeps o' := by
  induction l generalizing o with
  | nil =>
    cases h
    exact refl _
  | cons a l ih =>
    rw [foldlM_cons] at h
    obtain ⟨o1,h1,h⟩ := bind_eq_some_iff.mp h
    exact (hf h1).trans (ih h)

lemma setKnownSymbolic (o : Object) (offset : Nat) (value : Option Expr) :
    o.Keeps (o.setKnownSymbolic offset value) := by
  unfold ObjectState.setKnownSymbolic
  split
  · exact ⟨rfl,rfl,rfl⟩
  · split
    · exact ⟨rfl,rfl,rfl⟩
    · exact refl o

lemma getUpdates (o : Object) : o.Keeps o.getUpdates := by
  unfold ObjectState.getUpdates
  dsimp only
  split <;> exact ⟨rfl,rfl,rfl⟩

lemma extendUpdates {index : Expr} (h : o.extendUpdates index value = some o') : o.Keeps o' := by
  obtain ⟨-,h⟩ := ite_none_right_eq_some.mp h
  cases h
  exact ⟨(getUpdates o).size,(getUpdates o).bufferOffset,(getUpdates o).length⟩

lemma readUpdates {index : Expr} (h : o.readUpdates index = some (e,o')) : o.Keeps o' := by
  obtain ⟨a,-,heq⟩ := map_eq_some_iff.mp h
  cases heq
  exact getUpdates o

lemma dropCachedByte (o : Object) (offset : Nat) : o.Keeps (o.dropCachedByte offset) := by
  unfold ObjectState.dropCachedByte
  split
  · exact ⟨rfl,rfl,rfl⟩
  · split
    · exact setKnownSymbolic o offset none
    · exact refl o

lemma flushByteForRead (h : o.flushByteForRead offset = some o') : o.Keeps o' := by
  unfold ObjectState.flushByteForRead at h
  split at h
  · cases h
    exact refl o
  obtain ⟨value,o1,-,h1,h⟩ := bind_bind_eq_some h
  cases h
  exact (extendUpdates h1).trans ⟨rfl,rfl,rfl⟩

lemma flushByteForWrite (h : o.flushByteForWrite offset = some o') : o.Keeps o' := by
  unfold ObjectState.flushByteForWrite at h
  split at h
  · cases h
    exact dropCachedByte o offset
  obtain ⟨value,o1,-,h1,h⟩ := bind_bind_eq_some h
  cases h
  exact (extendUpdates h1).trans ((dropCachedByte o1 offset).trans ⟨rfl,rfl,rfl⟩)

lemma flushRangeForRead {base size : Nat} (h : o.flushRangeForRead base size = some o') :
    o.Keeps o' :=
  have hinit : o.Keeps o.initializeFlushMask := ⟨rfl,rfl,rfl⟩
  hinit.trans (foldlM flushByteForRead h)

lemma flushRangeForWrite {base size : Nat} (h : o.flushRangeForWrite base size = some o') :
    o.Keeps o' :=
  have hinit : o.Keeps o.initializeFlushMask := ⟨rfl,rfl,rfl⟩
  hinit.trans (foldlM flushByteForWrite h)

lemma read8 (h : o.read8 offset = some (e,o')) : o.Keeps o' := by
  unfold ObjectState.read8 at h
  split at h
  · split at h
    · obtain ⟨b,-,heq⟩ := map_eq_some_iff.mp h
      cases heq
      exact refl o
    · split at h
      · cases h
        exact refl o
      · obtain ⟨-,h⟩ := ite_none_right_eq_some.mp h
        exact readUpdates h
  · cases h

lemma readAt8 {offset : Expr} (h : o.readAt8 offset = some (e,o')) : o.Keeps o' := by
  obtain ⟨-,h⟩ := ite_none_left_eq_some.mp h
  obtain ⟨o1,index,h1,-,h⟩ := bind_bind_eq_some h
  exact (flushRangeForRead h1).trans (readUpdates h)

section
variable {littleEndian : Bool} {read8 : Object → Nat → Option (Expr × Object)}

lemma readBytes (hread : ∀ {o i e o'}, read8 o i = some (e,o') → o.Keeps o') {numBytes : Nat}
    {is : List Nat} {res res' : Option Expr}
    (h : readBytes littleEndian read8 numBytes is res o = some (res',o')) : o.Keeps o' := by
  induction is generalizing res o with
  | nil =>
    cases h
    exact refl _
  | cons i is ih =>
    obtain ⟨⟨byte,o1⟩,h1,h⟩ := bind_eq_some_iff.mp h
    dsimp only at h
    generalize (if littleEndian then i else numBytes-i-1) = idx at h
    split at h
    · exact (hread h1).trans (ih h)
    · obtain ⟨r,-,h⟩ := bind_eq_some_iff.mp h
      exact (hread h1).trans (ih h)

lemma readWidth (hread : ∀ {o i e o'}, read8 o i = some (e,o') → o.Keeps o')
    (h : o.readWidth littleEndian read8 width = some (e,o')) : o.Keeps o' := by
  unfold ObjectState.readWidth at h
  split at h
  · obtain ⟨⟨byte,o1⟩,bit,h1,-,h⟩ := bind_bind_eq_some h
    cases h
    exact hread h1
  · split at h
    · obtain ⟨⟨res,o1⟩,h1,h⟩ := bind_eq_some_iff.mp h
      cases res with
      | none => cases h
      | some res =>
        cases h
        exact readBytes hread h1
    · cases h

end

lemma read (h : o.read littleEndian offset width = some (e,o')) : o.Keeps o' := readWidth read8 h

lemma readAt {offset : Expr}
    (h : o.readAt littleEndian offset width = some (e,o')) : o.Keeps o' := by
  obtain ⟨index,-,h⟩ := bind_eq_some_iff.mp h
  split at h
  · exact read h
  refine readWidth (fun {o i e o'} h => ?_) h
  split at h
  · exact readAt8 h
  · obtain ⟨a,-,h⟩ := bind_eq_some_iff.mp h
    exact readAt8 h

lemma writeByte {value : BitVec 8} (h : o.writeByte offset value = some o') : o.Keeps o' := by
  obtain ⟨-,h⟩ := ite_none_right_eq_some.mp h
  obtain ⟨b,-,rfl⟩ := map_eq_some_iff.mp h
  have hset : o.Keeps (o.setConcreteByte offset value) := ⟨rfl,rfl,length_set⟩
  exact hset.trans ((setKnownSymbolic _ offset none).trans ⟨rfl,rfl,rfl⟩)

lemma writeSymbolicByte (o : Object) (offset : Nat) (value : Expr) :
    o.Keeps (o.writeSymbolicByte offset value) :=
  (setKnownSymbolic o offset (some value)).trans ⟨rfl,rfl,rfl⟩

lemma write (h : o.write littleEndian offset value = some o') : o.Keeps o' := by
  obtain ⟨-,h⟩ := ite_none_right_eq_some.mp h
  split at h
  · obtain ⟨-,h⟩ := ite_none_right_eq_some.mp h
    exact foldlM writeByte h
  obtain ⟨-,h⟩ := ite_none_left_eq_some.mp h
  refine foldlM (fun {o i o'} h => ?_) h
  obtain ⟨value8,-,h⟩ := bind_eq_some_iff.mp h
  obtain ⟨-,h⟩ := ite_none_right_eq_some.mp h
  cases h
  exact writeSymbolicByte o _ value8

lemma writeAt8 {offset : Expr} (h : o.writeAt8 offset value = some o') : o.Keeps o' := by
  obtain ⟨-,h⟩ := ite_none_left_eq_some.mp h
  obtain ⟨o1,index,h1,-,h⟩ := bind_bind_eq_some h
  exact (flushRangeForWrite h1).trans (extendUpdates h)

lemma writeAt {offset : Expr}
    (h : o.writeAt littleEndian offset value = some o') : o.Keeps o' := by
  obtain ⟨-,h⟩ := ite_none_right_eq_some.mp h
  obtain ⟨index,-,h⟩ := bind_eq_some_iff.mp h
  split at h
  · exact write h
  split at h
  · obtain ⟨v,-,h⟩ := bind_eq_some_iff.mp h
    exact writeAt8 h
  · obtain ⟨i,v,-,-,h⟩ := bind_bind_eq_some h
    exact writeAt8 h

lemma exec {op : Write} (h : op.exec littleEndian o = some o') : o.Keeps o' := by
  cases op with
  | byte offset value => exact writeByte h
  | expr offset value => exact write h
  | exprAt offset value => exact writeAt h

end Keeps
end ObjectState

namespace HostedObject
open ObjectState

structure Laid (w : HostedObject) : Prop where
  buffer : fastConcreteBufferSize < w.object.size → ∃ b, w.object.store.concreteBuffer = some b ∧
    w.object.bufferOffset+w.object.size ≤ b.length
  fast : w.object.store.fastConcreteBuffer.length = fastConcreteBufferSize

lemma allocate_laid (address size : Nat) (h : size < 2^32) (updatesId : Nat)
    (host : Nat → BitVec 8) : (allocate address size h updatesId host).Laid := by
  refine ⟨fun hsize => ⟨replicate size 0,if_pos hsize,?_⟩,length_replicate⟩
  show 0+size ≤ _
  rw [zero_add,length_replicate]

lemma Laid.update {w : HostedObject} {o : Object} (h : w.Laid) (hk : (load w.object).Keeps o) :
    (w.update o).Laid := by
  have hsize : o.size = w.object.size := hk.size
  have hoffset : o.bufferOffset = w.object.bufferOffset := hk.bufferOffset
  have hlength : o.store.buffer.length = (getConcreteBuffer w.object).length := hk.length
  by_cases hsmall : w.object.size ≤ fastConcreteBufferSize
  · refine ⟨fun hlarge => absurd hlarge (Nat.not_lt_of_le (hsize ▸ hsmall)),?_⟩
    rw [getConcreteBuffer,if_pos hsmall,h.fast] at hlength
    simp [HostedObject.update,save,hsmall,hlength]
  obtain ⟨b,hb,hle⟩ := h.buffer (Nat.lt_of_not_le hsmall)
  rw [getConcreteBuffer,if_neg hsmall,hb,getD_some] at hlength
  refine ⟨fun _ => ⟨o.store.buffer,?_,?_⟩,?_⟩
  · simp [HostedObject.update,save,hsmall]
  · show o.bufferOffset+o.size ≤ _
    rw [hoffset,hsize,hlength]
    exact hle
  · simp [HostedObject.update,save,hsmall,h.fast]

lemma Laid.read {w w' : HostedObject} {r : Option (Expr × Object)} (h : w.Laid)
    (hk : ∀ {e o}, r = some (e,o) → (load w.object).Keeps o)
    (hs : (if w.object.isSharedConcrete then some w else r.map fun r => w.update r.2) = some w') :
    w'.Laid := by
  split at hs
  · cases hs
    exact h
  · obtain ⟨⟨e,o⟩,ho,rfl⟩ := map_eq_some_iff.mp hs
    exact h.update (hk ho)

lemma Laid.step {w w' : HostedObject} {call : Call} (h : w.Laid)
    (hs : w.step littleEndian call = some w') : w'.Laid := by
  cases call with
  | write op =>
    obtain ⟨-,hs⟩ := ite_none_left_eq_some.mp hs
    obtain ⟨o,ho,rfl⟩ := map_eq_some_iff.mp hs
    exact h.update (Keeps.exec ho)
  | read8 offset => exact h.read Keeps.read8 hs
  | read offset width => exact h.read Keeps.read hs
  | readAt offset width => exact h.read Keeps.readAt hs
  | initializeConcreteMask =>
    cases hs
    exact h.update ⟨rfl,rfl,rfl⟩
  | setSharedConcrete b =>
    cases hs
    exact ⟨h.buffer,h.fast⟩
  | setSplittable b =>
    cases hs
    exact ⟨h.buffer,h.fast⟩
  | copy updatesId =>
    obtain ⟨-,hs⟩ := ite_none_left_eq_some.mp hs
    cases hs
    exact ⟨h.buffer,h.fast⟩
  | split offset newSize hsize updatesId =>
    obtain ⟨-,hs⟩ := ite_none_left_eq_some.mp hs
    obtain ⟨o,ho,rfl⟩ := map_eq_some_iff.mp hs
    obtain ⟨⟨-,hle,-,-,-,hlarge⟩,ho⟩ := ite_none_right_eq_some.mp ho
    cases ho
    obtain ⟨b,hb,hlen⟩ := h.buffer hlarge
    exact ⟨fun _ => ⟨b,hb,Nat.le_trans hle (Nat.le_trans (Nat.le_add_left ..) hlen)⟩,h.fast⟩
  | setHost host =>
    cases hs
    exact ⟨h.buffer,h.fast⟩

lemma Reached.laid {w : HostedObject} (h : Reached littleEndian w) : w.Laid := by
  induction h with
  | allocate address size h updatesId host => exact allocate_laid address size h updatesId host
  | step call _ hs ih => exact ih.step hs

def Agrees (w : HostedObject) (offset : Nat) : Prop :=
  ∃ r, w.readConcrete8 offset = some r ∧
    (r.isSome = true ↔ w.object.isSharedConcrete = true ∨ w.isByteConcrete offset = true) ∧
    ∀ v, r = some v → w.read8 offset = some (ConstantExpr.alloc v.toNat 8)

variable {w : HostedObject} {offset : Nat}

lemma alloc_toNat_inj {u v : BitVec 8} (h : alloc u.toNat 8 = alloc v.toNat 8) : u = v := by
  have heval := congrArg (Expr.eval fun _ _ => 0) h
  simp only [eval_alloc,mod_eq_of_lt u.isLt,mod_eq_of_lt v.isLt] at heval
  exact BitVec.eq_of_toNat_eq heval

lemma agrees_concrete (hlt : offset < w.object.size) (hshared : w.object.isSharedConcrete = false)
    (hconcrete : w.isByteConcrete offset) : w.Agrees offset ↔
      ∃ b v, w.object.store.concreteBuffer = some b ∧ b[offset+w.object.bufferOffset]? = some v ∧
        (load w.object).concreteByte offset = some v := by
  have hread : w.read8 offset =
      ((load w.object).concreteByte offset).map fun v => alloc v.toNat 8 := by
    have hload : (load w.object).isByteConcrete offset := hconcrete
    have hsize : offset < (load w.object).size := hlt
    simp only [HostedObject.read8,hshared,ObjectState.read8,hload,hsize,if_true,
      Bool.false_eq_true,if_false,Option.map_map]
    rfl
  unfold Agrees readConcrete8
  rw [hread]
  simp only [hshared,hconcrete,Bool.false_eq_true,if_false,if_true,or_true,iff_true]
  constructor
  · rintro ⟨r,hr,-,hv⟩
    obtain ⟨b,v,hb,hbv,hr⟩ := bind_bind_eq_some hr
    cases hr
    obtain ⟨u,hu,heq⟩ := map_eq_some_iff.mp (hv v rfl)
    exact ⟨b,v,hb,hbv,alloc_toNat_inj heq ▸ hu⟩
  · rintro ⟨b,v,hb,hbv,hv⟩
    refine ⟨some v,by simp [hb,hbv],rfl,fun u hu => ?_⟩
    cases hu
    rw [hv]
    rfl

lemma concreteByte_small (hsmall : w.object.size ≤ fastConcreteBufferSize) :
    (load w.object).concreteByte offset =
      if w.object.bufferOffset = 0 then w.object.store.fastConcreteBuffer[offset]? else none := by
  have hsize : (load w.object).size ≤ fastConcreteBufferSize := hsmall
  simp only [concreteByte,hsize,true_and,ne_eq,ite_not]
  show (if w.object.bufferOffset = 0 then (getConcreteBuffer w.object)[_+offset]? else none) = _
  rw [getConcreteBuffer,if_pos hsmall]
  split
  next hzero => rw [show (load w.object).bufferOffset = 0 from hzero,zero_add]
  next => rfl

lemma concreteByte_large (hlarge : ¬ w.object.size ≤ fastConcreteBufferSize) :
    (load w.object).concreteByte offset =
      (w.object.store.concreteBuffer.getD [])[w.object.bufferOffset+offset]? := by
  have hsize : ¬ (load w.object).size ≤ fastConcreteBufferSize := hlarge
  simp only [concreteByte,hsize,false_and,if_false]
  show (getConcreteBuffer w.object)[_]? = _
  rw [getConcreteBuffer,if_neg hlarge]
  rfl

/-- The direct read agrees with `read8` where the bytes of the object are in the buffer that it
refers to. A part of a split object that is small has bytes of its own inside, and agrees if
these happen to be those of the whole. -/
theorem readConcrete8_agrees_iff {littleEndian : Bool} (hw : Reached littleEndian w)
    (hlt : offset < w.object.size) :
    w.Agrees offset ↔ w.object.isSharedConcrete = true ∨ w.isByteConcrete offset = false ∨
      fastConcreteBufferSize < w.object.size ∨
      w.object.bufferOffset = 0 ∧ ∃ b, w.object.store.concreteBuffer = some b ∧
        b[offset]? = w.object.store.fastConcreteBuffer[offset]? := by
  have hlaid := hw.laid
  cases hshared : w.object.isSharedConcrete with
  | true =>
    refine iff_of_true ⟨_,by rw [readConcrete8,hshared]; rfl,by simp [hshared],fun v hv => ?_⟩
      (.inl rfl)
    cases hv
    simp [read8,hshared,hlt]
  | false =>
    cases hconcrete : w.isByteConcrete offset with
    | false =>
      refine iff_of_true ⟨none,?_,?_,nofun⟩ (.inr (.inl rfl))
      · simp [readConcrete8,hshared,hconcrete]
      · simp [hshared,hconcrete]
    | true =>
      rw [agrees_concrete hlt hshared hconcrete]
      simp only [Bool.false_eq_true,Bool.true_eq_false,false_or]
      by_cases hsmall : w.object.size ≤ fastConcreteBufferSize
      · rw [concreteByte_small hsmall]
        constructor
        · rintro ⟨b,v,hb,hbv,hv⟩
          obtain ⟨hzero,hv⟩ := ite_none_right_eq_some.mp hv
          rw [hzero] at hbv
          exact .inr ⟨hzero,b,hb,hbv.trans hv.symm⟩
        · rintro (hlarge | ⟨hzero,b,hb,hsame⟩)
          · exact absurd hsmall (Nat.not_le_of_lt hlarge)
          · have hin : offset < w.object.store.fastConcreteBuffer.length := by
              rw [hlaid.fast]
              exact lt_of_lt_of_le hlt hsmall
            refine ⟨b,w.object.store.fastConcreteBuffer[offset],hb,?_,?_⟩
            · rw [hzero,add_zero,hsame,getElem?_eq_getElem hin]
            · rw [if_pos hzero,getElem?_eq_getElem hin]
      · have hlarge := Nat.lt_of_not_le hsmall
        obtain ⟨b,hb,hle⟩ := hlaid.buffer hlarge
        have hin : offset+w.object.bufferOffset < b.length := by omega
        refine iff_of_true ⟨b,b[offset+w.object.bufferOffset],hb,?_,?_⟩ (.inl hlarge)
        · exact getElem?_eq_getElem hin
        · rw [concreteByte_large hsmall,hb,getD_some,add_comm]
          exact getElem?_eq_getElem hin

theorem readConcrete8_agrees_page :
    ∃ w, step true (allocate 0x1000 0x1000 (by decide) 0 fun _ => 0) (.write (.byte 1 7)) = some w ∧
      w.Agrees 1 := by
  have hreached : Reached true _ :=
    .step (.write (.byte 1 7)) (.allocate 0x1000 0x1000 (by decide) 0 fun _ => 0) rfl
  refine ⟨_,rfl,(readConcrete8_agrees_iff hreached (by decide)).mpr ?_⟩
  exact .inr (.inr (.inl (by decide)))

/-- An object of 8 bytes has no buffer but the one inside. -/
theorem readConcrete8_small : Reached true (allocate 0x1000 8 (by decide) 0 fun _ => 0) ∧
      isByteConcrete (allocate 0x1000 8 (by decide) 0 fun _ => 0) 0 = true ∧
      readConcrete8 (allocate 0x1000 8 (by decide) 0 fun _ => 0) 0 = none ∧
      ¬ Agrees (allocate 0x1000 8 (by decide) 0 fun _ => 0) 0 := by
  have hnone : readConcrete8 (allocate 0x1000 8 (by decide) 0 fun _ => 0) 0 = none := rfl
  refine ⟨.allocate ..,rfl,hnone,?_⟩
  rintro ⟨r,hr,-⟩
  cases hnone.symm.trans hr

end HostedObject
end S2E
