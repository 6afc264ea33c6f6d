import S2E.Memory.Lookup
import S2E.Memory.CopyOnWrite

/-!
`S2EDeviceState`: the sectors that a path has written to its disks. The sectors of all devices
are objects of one address space, and a device begins where the one before it ends.
-/

namespace S2E
open Option Function AddressSpace Heap Nat

def SECTOR_SIZE : Nat := 512

def BLOCK_DEV_AS : Nat := 2^36

abbrev Sector := Vector (BitVec 8) 512

abbrev BlockDevice := Nat

structure DiskSizes where
  sectors : BlockDevice → Nat
  small : ∀ dev, sectors dev*SECTOR_SIZE < BLOCK_DEV_AS

namespace Heap

def isAllConcrete (h : Heap) (r : ObjectRef) : Bool :=
  match (h.stores (h.objects r).store).mask with
  | none => true
  | some mask => mask.all id

def writeBuffer (h : Heap) (r : ObjectRef) (bytes : Sector) : Option Heap :=
  let o := h.objects r
  let s := h.stores o.store
  let buffer := s.buffer.take o.bufferOffset ++ bytes.toList ++
    s.buffer.drop (o.bufferOffset+SECTOR_SIZE)
  if h.isAllConcrete r ∧ o.bufferOffset+SECTOR_SIZE ≤ s.buffer.length then
    some {h with stores := update h.stores o.store {s with buffer}}
  else none

def readBuffer (h : Heap) (r : ObjectRef) : Option Sector :=
  let o := h.objects r
  let bytes := ((h.stores o.store).buffer.drop o.bufferOffset).take SECTOR_SIZE
  if hlen : bytes.length = 512 then
    if h.isAllConcrete r then some ⟨bytes.toArray,hlen⟩ else none
  else none

end Heap

def getBlockDeviceId (devices : List BlockDevice) (dev : BlockDevice) : Nat × List BlockDevice :=
  match devices.idxOf? dev with
  | some i => (i,devices)
  | none => (devices.length,devices ++ [dev])

def getBlockDeviceStart (devices : List BlockDevice) (dev : BlockDevice) : Nat × List BlockDevice :=
  let (id,devices) := getBlockDeviceId devices dev
  (id*BLOCK_DEV_AS%2^64,devices)

def sectorAddress (bstart sector : Nat) : Nat := (bstart+sector*SECTOR_SIZE)%2^64

namespace AddressSpace

def bindSector (as : AddressSpace) (h : Heap) (address : Nat) :
    Option (ObjectRef × Heap × AddressSpace) := do
  let mo := ObjectState.allocate address SECTOR_SIZE (by decide) 0
  let (h',as) ← as.bindNew h {mo with store := 0} mo.store
  some (h.nextObject,h',as)

def getSector (as : AddressSpace) (h : Heap) (address : Nat) :
    Option (ObjectRef × Heap × AddressSpace) :=
  match as.findObject h address with
  | (some os,as) => some (os,h,as)
  | (none,as) => as.bindSector h address

def writeSectorAt (as : AddressSpace) (h : Heap) (address : Nat) (bytes : Sector) :
    Option (Heap × AddressSpace) := do
  let (os,h,as) ← as.getSector h address
  let (osw,h,as) ← as.getWriteable h os
  let h ← h.writeBuffer osw bytes
  some (h,as)

def writeSectors (bstart : Nat) : Nat → List Sector → Heap → AddressSpace →
    Option (Heap × AddressSpace)
  | _, [], h, as => some (h,as)
  | sector, bytes :: buf, h, as => do
    let (h,as) ← as.writeSectorAt h (sectorAddress bstart sector) bytes
    writeSectors bstart (sector+1) buf h as

def readSectors (bstart : Nat) (h : Heap) : Nat → Nat → AddressSpace →
    Option (List Sector × AddressSpace)
  | _, 0, as => some ([],as)
  | sector, nbSectors+1, as => do
    match as.findObject h (sectorAddress bstart sector) with
    | (none,as) => some ([],as)
    | (some os,as) =>
      let bytes ← h.readBuffer os
      let (buf,as) ← readSectors bstart h (sector+1) nbSectors as
      some (bytes :: buf,as)

end AddressSpace

structure SectorObject (h : Heap) (r : ObjectRef) : Prop where
  readOnly : (h.objects r).readOnly = false
  offset : (h.objects r).bufferOffset = 0
  mask : (h.stores (h.objects r).store).mask = none
  length : (h.stores (h.objects r).store).buffer.length = 512

lemma SectorObject.congr {h h' : Heap} {r : ObjectRef} (ho : SectorObject h r)
    (hobject : h'.objects r = h.objects r)
    (hstore : h'.stores (h.objects r).store = h.stores (h.objects r).store) :
    SectorObject h' r := by
  obtain ⟨h1,h2,h3,h4⟩ := ho
  exact ⟨by rw [hobject,h1],by rw [hobject,h2],by rw [hobject,hstore,h3],
    by rw [hobject,hstore,h4]⟩

structure HoldsSectors (h : Heap) (as : AddressSpace) (d : Nat → Option Sector) : Prop where
  holds : as.Holds h as.bindings
  sized : ∀ {k r}, as.bindings k = some r → k.size = 512 ∧ k.address%512 = 0
  object : ∀ {k r}, as.bindings k = some r → SectorObject h r
  apart : ∀ {k k' r r'}, as.bindings k = some r → as.bindings k' = some r' → k ≠ k' →
    (h.objects r).store ≠ (h.objects r').store
  store_lt : ∀ {k r}, as.bindings k = some r → (h.objects r).store < h.nextStore
  contents : ∀ {address bytes}, d address = some bytes ↔ ∃ r, as.bindings ⟨address,512⟩ = some r ∧
      (h.stores (h.objects r).store).buffer = bytes.toList

namespace AddressSpace
variable {h : Heap} {as : AddressSpace} {r : ObjectRef}

lemma bindObject_eq_some (hne : (h.objects r).address ≠ 0) (hsize : (h.objects r).size ≠ 0)
    (howner : (h.objects r).copyOnWriteOwner = 0) :
    ∃ as', as.bindObject h r = some (h.setOwnerId r as.cowKey,as') := by
  have hcow := (knows_findObject as h (h.objects r).address).1
  simp [bindObject,hne,hsize,howner,hcow]

structure Copied (as : AddressSpace) (h : Heap) (r : ObjectRef) (h' : Heap) : Prop where
  object : h'.objects h.nextObject = { h.objects r with
    copyOnWriteOwner := as.cowKey, store := h.nextStore, updatesId := h.nextObject}
  store : h'.stores h.nextStore = h.stores (h.objects r).store
  nextStore : h'.nextStore = h.nextStore+1
  objects : ∀ r' < h.nextObject, h'.objects r' = h.objects r'
  stores : ∀ s < h.nextStore, h'.stores s = h.stores s

lemma getWriteableInternal_eq_some (as : AddressSpace) (hro : (h.objects r).readOnly = false) :
    ∃ h' as', as.getWriteableInternal h r = some (h.nextObject,h',as') ∧ as.Copied h r h' := by
  refine ⟨_,_,by
    simp only [getWriteableInternal,copy,hro,Bool.false_eq_true,if_false,
      bind_eq_bind,bind_some]
    rfl,?_,update_self ..,rfl,fun r' hr' => ?_,fun s hs => ?_⟩
  · simp [setOwnerId,allocObject,allocStore,hro]
  · have hne := Nat.ne_of_lt hr'
    simp [setOwnerId,allocObject,allocStore,update_of_ne hne]
  · exact update_of_ne (Nat.ne_of_lt hs) _ _

end AddressSpace

variable {bytes : Sector}

namespace HoldsSectors
variable {h h' : Heap} {as as' : AddressSpace} {d : Nat → Option Sector} {r : ObjectRef}
variable {k : ObjectKey} {address : Nat}

lemma empty (h : Heap) : HoldsSectors h .empty fun _ => none where
  holds := by
    have hempty := empty_holds h
    rw [hempty.bindings_eq]
    exact hempty
  sized hk := by cases hk
  object hk := by cases hk
  apart hk := by cases hk
  store_lt hk := by cases hk
  contents := ⟨nofun,fun ⟨_,hr,_⟩ => by cases hr⟩

section
variable (hs : HoldsSectors h as d)
include hs

lemma key_eq (hk : as.bindings k = some r) : k = ⟨k.address,512⟩ := by
  rw [← (hs.sized hk).1]

lemma knows (hk : as.bindings k = some r) : as.Knows r := .inl ⟨k,(hs.holds.bound k r).mpr hk⟩

lemma of_bindings (hholds : as'.Holds h as.bindings) : HoldsSectors h as' d := by
  have heq := hholds.bindings_eq
  exact ⟨by rw [heq]; exact hholds,by rw [heq]; exact hs.sized,by rw [heq]; exact hs.object,
    by rw [heq]; exact hs.apart,by rw [heq]; exact hs.store_lt,by rw [heq]; exact hs.contents⟩

lemma set {w : ObjectRef} (haligned : address%512 = 0)
    (hholds : as'.Holds h' (update as.bindings ⟨address,512⟩ (some w)))
    (hw : SectorObject h' w) (hbytes : (h'.stores (h'.objects w).store).buffer = bytes.toList)
    (hlt : (h'.objects w).store < h'.nextStore) (hnext : h.nextStore ≤ h'.nextStore)
    (hothers : ∀ k r, as.bindings k = some r → k ≠ ⟨address,512⟩ → h'.objects r = h.objects r ∧
      h'.stores (h.objects r).store = h.stores (h.objects r).store ∧
      (h.objects r).store ≠ (h'.objects w).store) :
    HoldsSectors h' as' (update d address (some bytes)) := by
  have hcases : ∀ {k r}, update as.bindings ⟨address,512⟩ (some w) k = some r →
      k = ⟨address,512⟩ ∧ r = w ∨ k ≠ ⟨address,512⟩ ∧ as.bindings k = some r := by
    intro k r hk
    by_cases hkey : k = ⟨address,512⟩
    · rw [hkey,update_self] at hk
      exact .inl ⟨hkey,(some.inj hk).symm⟩
    · rw [update_of_ne hkey] at hk
      exact .inr ⟨hkey,hk⟩
  have hsame : ∀ {k r}, k ≠ ⟨address,512⟩ → as.bindings k = some r →
      SectorObject h' r ∧ (h'.objects r).store < h'.nextStore := by
    intro k r hne hk
    obtain ⟨ho,hst,-⟩ := hothers k r hk hne
    refine ⟨(hs.object hk).congr ho hst,?_⟩
    rw [ho]
    exact lt_of_lt_of_le (hs.store_lt hk) hnext
  have heq := hholds.bindings_eq
  refine ⟨by rw [heq]; exact hholds,?_,?_,?_,?_,?_⟩ <;> rw [heq]
  · intro k r hk
    rcases hcases hk with ⟨rfl,-⟩ | ⟨-,hk⟩
    · exact ⟨rfl,haligned⟩
    · exact hs.sized hk
  · intro k r hk
    rcases hcases hk with ⟨-,rfl⟩ | ⟨hne,hk⟩
    · exact hw
    · exact (hsame hne hk).1
  · intro k k' r r' hk hk' hne
    rcases hcases hk with ⟨rfl,rfl⟩ | ⟨hkne,hk⟩
    · rcases hcases hk' with ⟨rfl,-⟩ | ⟨hkne',hk'⟩
      · exact absurd rfl hne
      · obtain ⟨ho,-,hstore⟩ := hothers k' r' hk' hkne'
        rw [ho]
        exact hstore.symm
    · obtain ⟨ho,-,hstore⟩ := hothers k r hk hkne
      rw [ho]
      rcases hcases hk' with ⟨rfl,rfl⟩ | ⟨hkne',hk'⟩
      · exact hstore
      · rw [(hothers k' r' hk' hkne').1]
        exact hs.apart hk hk' hne
  · intro k r hk
    rcases hcases hk with ⟨-,rfl⟩ | ⟨hne,hk⟩
    · exact hlt
    · exact (hsame hne hk).2
  · intro address' bytes'
    by_cases haddr : address' = address
    · subst haddr
      simp only [update_self,some.injEq,exists_eq_left',hbytes]
      exact ⟨fun h => congrArg Vector.toList h,fun h => Vector.toList_inj.mp h⟩
    have hne : (⟨address',512⟩ : ObjectKey) ≠ ⟨address,512⟩ := fun h =>
      haddr (congrArg ObjectKey.address h)
    rw [update_of_ne haddr,hs.contents,update_of_ne hne]
    refine exists_congr fun r => and_congr_right fun hk => ?_
    obtain ⟨ho,hst,-⟩ := hothers _ r hk hne
    rw [ho,hst]

lemma of_same (hobj : h.nextObject ≤ h'.nextObject) (hstore : h.nextStore ≤ h'.nextStore)
    (hsame : ∀ r, as.Knows r → h'.objects r = h.objects r ∧
      h'.stores (h.objects r).store = h.stores (h.objects r).store) : HoldsSectors h' as d where
  holds := by
    refine ⟨hs.holds.ordered,hs.holds.bound,fun k r hk => ?_,hs.holds.cache⟩
    obtain ⟨hv,hkey,hlt⟩ := hs.holds.valid k r hk
    rw [(hsame r (hs.knows hk)).1]
    exact ⟨hv,hkey,lt_of_lt_of_le hlt hobj⟩
  sized := hs.sized
  object := fun {k r} hk => by
    obtain ⟨ho,hst⟩ := hsame r (hs.knows hk)
    exact (hs.object hk).congr ho hst
  apart := fun {k k' r r'} hk hk' hne => by
    rw [(hsame r (hs.knows hk)).1,(hsame r' (hs.knows hk')).1]
    exact hs.apart hk hk' hne
  store_lt := fun {k r} hk => by
    rw [(hsame r (hs.knows hk)).1]
    exact lt_of_lt_of_le (hs.store_lt hk) hstore
  contents := by
    intro address bytes
    rw [hs.contents]
    refine exists_congr fun r => and_congr_right fun hk => ?_
    obtain ⟨ho,hst⟩ := hsame r (hs.knows hk)
    rw [ho,hst]

lemma fork : HoldsSectors h as.fork.1 d ∧ HoldsSectors h as.fork.2 d := by
  obtain ⟨hordered,hbound,hvalid,hcache⟩ := hs.holds
  exact ⟨hs.of_bindings ⟨hordered,hbound,hvalid,hcache⟩,
    hs.of_bindings ⟨hordered,hbound,hvalid,nofun⟩⟩

lemma findObject (haligned : address%512 = 0) (hlt : address < 2^64) :
    HoldsSectors h (as.findObject h address).2 d ∧
      (as.findObject h address).2.bindings = as.bindings ∧
      (as.findObject h address).1 = as.bindings ⟨address,512⟩ := by
  obtain ⟨hholds,hfind⟩ := hs.holds.findObject hlt
  refine ⟨hs.of_bindings hholds,hholds.bindings_eq,ext fun r => ?_⟩
  rw [hfind]
  constructor
  · rintro ⟨k,hk,hle,hlt⟩
    obtain ⟨hsize,hmod⟩ := hs.sized hk
    have haddr : k.address = address := by omega
    rw [← haddr,← hs.key_eq hk]
    exact hk
  · intro hk
    exact ⟨_,hk,le_rfl,Nat.lt_add_of_pos_right (Nat.zero_lt_succ 511)⟩

lemma store_ne (hk : as.bindings k = some r) : (h.objects r).store ≠ h.nextStore :=
  Nat.ne_of_lt (hs.store_lt hk)

lemma bindSector (haligned : address%512 = 0) (hne : address ≠ 0) (hlt : address+512 < 2^64)
    (hfree : as.bindings ⟨address,512⟩ = none) :
    ∃ r h' as', as.bindSector h address = some (r,h',as') ∧
      HoldsSectors h' as' (update d address (some (Vector.replicate 512 0))) ∧
      as'.bindings ⟨address,512⟩ = some r := by
  let mo := ObjectState.allocate address SECTOR_SIZE (by decide) 0
  let h1 := (h.allocStore mo.store).2
  let h2 := (h1.allocObject {mo with copyOnWriteOwner := 0, store := h.nextStore}).2
  have hnew : h2.objects h.nextObject =
      {mo with store := h.nextStore, updatesId := h.nextObject} :=
    update_self ..
  have hkey : (h2.objects h.nextObject).getKey = ⟨address,512⟩ := by
    rw [hnew]
    rfl
  have hext : h.Extends h2 := (Extends.allocStore h _).trans (Extends.allocObject h1 _)
  obtain ⟨as',hbind⟩ : ∃ as', as.bindObject h2 h.nextObject =
      some (h2.setOwnerId h.nextObject as.cowKey,as') := by
    apply bindObject_eq_some <;> rw [hnew]
    · exact hne
    · exact Nat.succ_ne_zero 511
    · rfl
  have hothers : ∀ k', (as.bindings k').isSome →
      k'.Disjoint (h2.objects h.nextObject).getKey ∨ k' = (h2.objects h.nextObject).getKey := by
    intro k' hk'
    obtain ⟨r',hr'⟩ := isSome_iff_exists.mp hk'
    obtain ⟨hsize,hmod⟩ := hs.sized hr'
    have hkne : k'.address ≠ address := by
      intro heq
      rw [hs.key_eq hr',heq,hfree] at hr'
      cases hr'
    left
    rw [hkey]
    simp only [ObjectKey.Disjoint,hsize]
    omega
  have hvalid : (⟨address,512⟩ : ObjectKey).Valid := ⟨Nat.zero_lt_succ 511,hlt⟩
  obtain ⟨hholds,-⟩ := bindObject_holds (hs.holds.extends_ hext)
    (Nat.lt_succ_self h.nextObject) (hkey ▸ hvalid) hothers hbind
  rw [hkey] at hholds
  have hown : (h2.setOwnerId h.nextObject as.cowKey).objects h.nextObject =
      {h2.objects h.nextObject with copyOnWriteOwner := as.cowKey} := update_self ..
  have hstore : h2.stores h.nextStore = mo.store := update_self ..
  refine ⟨h.nextObject,_,as',bind_eq_some_iff.mpr ⟨(_,as'),hbind,rfl⟩,?_,?_⟩
  · refine hs.set haligned hholds ?_ ?_ ?_ (Nat.le_succ _) fun k r hk _ => ?_
    · refine ⟨?_,?_,?_,?_⟩ <;> rw [hown,hnew]
      · rfl
      · rfl
      · exact congrArg ConcreteStore.mask hstore
      · exact (congrArg (fun s => s.buffer.length) hstore).trans List.length_replicate
    · rw [hown,hnew]
      refine (congrArg ConcreteStore.buffer hstore).trans ?_
      exact Vector.toList_replicate.symm
    · rw [hown,hnew]
      exact Nat.lt_succ_self h.nextStore
    · have hr := (hs.holds.valid k r hk).2.2
      have hst := hs.store_ne hk
      refine ⟨?_,update_of_ne hst _ _,?_⟩
      · simp [h2,h1,setOwnerId,allocObject,allocStore,update_of_ne (Nat.ne_of_lt hr)]
      · rw [hown,hnew]
        exact hst
  · rw [hholds.bindings_eq,update_self]

section
variable (hk : as.bindings ⟨address,512⟩ = some r)
include hk

lemma readBuffer : ∃ bytes, h.readBuffer r = some bytes ∧ d address = some bytes := by
  obtain ⟨hro,hoff,hmask,hlen⟩ := hs.object hk
  have htake : ((h.stores (h.objects r).store).buffer.drop (h.objects r).bufferOffset).take
      SECTOR_SIZE = (h.stores (h.objects r).store).buffer := by
    rw [hoff,List.drop_zero,SECTOR_SIZE,← hlen,List.take_length]
  have hd : d address = some ⟨(h.stores (h.objects r).store).buffer.toArray,hlen⟩ :=
    hs.contents.mpr ⟨r,hk,rfl⟩
  refine ⟨_,?_,hd⟩
  simp only [Heap.readBuffer,htake]
  simp [hlen,isAllConcrete,hmask]

lemma getWriteable : ∃ w h' as', as.getWriteable h r = some (w,h',as') ∧ HoldsSectors h' as' d ∧
      as'.bindings ⟨address,512⟩ = some w := by
  obtain ⟨hro,hoff,hmask,hlen⟩ := hs.object hk
  by_cases howner : as.cowKey = (h.objects r).copyOnWriteOwner
  · exact ⟨r,h,as,by simp [AddressSpace.getWriteable,hro,howner],hs,hk⟩
  obtain ⟨h',as',hinternal,hcopied⟩ := getWriteableInternal_eq_some as hro
  obtain ⟨hholds,-⟩ := getWriteableInternal_update hs.holds hk hinternal
  have hsize : h.getBitArraySize r = (h.objects r).size := by
    simp [getBitArraySize,hmask]
  refine ⟨h.nextObject,h',as',?_,?_,by rw [hholds.bindings_eq,update_self]⟩
  · rw [AddressSpace.getWriteable,if_neg (by simp [hro]),if_neg howner,if_pos hsize,if_pos hoff]
    exact hinternal
  · obtain ⟨bytes,-,hbytes⟩ := hs.readBuffer hk
    rw [← update_eq_self address d,hbytes]
    have hbuffer : (h.stores (h.objects r).store).buffer = bytes.toList := by
      obtain ⟨r',hk',hbuffer⟩ := hs.contents.mp hbytes
      rw [hk] at hk'
      cases hk'
      exact hbuffer
    refine hs.set (hs.sized hk).2 hholds ?_ ?_ ?_ ?_ fun k' r' hk' _ => ?_
    · refine ⟨?_,?_,?_,?_⟩ <;> rw [hcopied.object]
      · exact hro
      · exact hoff
      · rw [hcopied.store,hmask]
      · rw [hcopied.store,hlen]
    · rw [hcopied.object,hcopied.store,hbuffer]
    · rw [hcopied.object,hcopied.nextStore]
      exact lt_succ_self _
    · rw [hcopied.nextStore]
      exact le_succ _
    · rw [hcopied.object]
      exact ⟨hcopied.objects r' (hs.holds.valid k' r' hk').2.2,
        hcopied.stores _ (hs.store_lt hk'),hs.store_ne hk'⟩

lemma writeBuffer (bytes : Sector) : ∃ h', h.writeBuffer r bytes = some h' ∧
      HoldsSectors h' as (update d address (some bytes)) := by
  obtain ⟨hro,hoff,hmask,hlen⟩ := hs.object hk
  let stores := update h.stores (h.objects r).store ⟨bytes.toList,none⟩
  have hnow : stores (h.objects r).store = ⟨bytes.toList,none⟩ := update_self ..
  refine ⟨{h with stores},?_,hs.set (hs.sized hk).2 ?_ ?_ ?_ (hs.store_lt hk) le_rfl
    fun k' r' hk' hne => ?_⟩
  · have hdrop : (h.stores (h.objects r).store).buffer.drop 512 = [] :=
      List.drop_of_length_le hlen.le
    simp only [Heap.writeBuffer,Heap.isAllConcrete,hmask,hoff,SECTOR_SIZE,zero_add,hlen,
      le_rfl,and_self,if_true,List.take_zero,List.nil_append,hdrop,List.append_nil]
    rfl
  · have hB : update as.bindings ⟨address,512⟩ (some r) = as.bindings := by
      rw [← hk,update_eq_self]
    rw [hB]
    exact ⟨hs.holds.ordered,hs.holds.bound,hs.holds.valid,hs.holds.cache⟩
  · refine ⟨hro,hoff,?_,?_⟩
    · exact congrArg ConcreteStore.mask hnow
    · exact (congrArg (fun s => s.buffer.length) hnow).trans bytes.length_toList
  · exact congrArg ConcreteStore.buffer hnow
  · have hst := hs.apart hk' hk hne
    exact ⟨rfl,update_of_ne hst _ _,hst⟩

end

lemma getSector (haligned : address%512 = 0) (hne : address ≠ 0) (hlt : address+512 < 2^64) :
    ∃ r h' as' bytes, as.getSector h address = some (r,h',as') ∧
      HoldsSectors h' as' (update d address (some bytes)) ∧
      as'.bindings ⟨address,512⟩ = some r := by
  obtain ⟨hs1,hbindings,hfind⟩ := hs.findObject haligned (lt_of_le_of_lt (le_add_right _ _) hlt)
  unfold AddressSpace.getSector
  cases hfound : as.findObject h address with
  | mk os as1 =>
    rw [hfound] at hs1 hbindings hfind
    cases os with
    | some r =>
      have hk : as1.bindings ⟨address,512⟩ = some r := by rw [hbindings,← hfind]
      obtain ⟨bytes,-,hbytes⟩ := hs1.readBuffer hk
      refine ⟨r,h,as1,bytes,rfl,?_,hk⟩
      rw [← hbytes,update_eq_self]
      exact hs1
    | none =>
      have hfree : as1.bindings ⟨address,512⟩ = none := by rw [hbindings,← hfind]
      obtain ⟨r,h',as',hbind,hs',hk⟩ := hs1.bindSector haligned hne hlt hfree
      exact ⟨r,h',as',_,hbind,hs',hk⟩

lemma writeSectorAt (haligned : address%512 = 0)
    (hne : address ≠ 0) (hlt : address+512 < 2^64) (bytes : Sector) :
    ∃ h' as', as.writeSectorAt h address bytes = some (h',as') ∧
      HoldsSectors h' as' (update d address (some bytes)) := by
  obtain ⟨r,h1,as1,bytes1,hsector,hs1,hk1⟩ := hs.getSector haligned hne hlt
  obtain ⟨w,h2,as2,hget,hs2,hk2⟩ := hs1.getWriteable hk1
  obtain ⟨h3,hwrite,hs3⟩ := hs2.writeBuffer hk2 bytes
  rw [update_idem] at hs3
  exact ⟨h3,as2,by simp [AddressSpace.writeSectorAt,hsector,hget,hwrite],hs3⟩

end
end HoldsSectors

namespace AddressSpace
variable {P : StoreRef → Prop} {h h' : Heap} {as as' : AddressSpace} {r : ObjectRef}

lemma bindObject_own (hP : P (h.objects r).store) (hs : (h.objects r).store < h.nextStore)
    (hr : r < h.nextObject) (hb : as.bindObject h r = some (h',as')) : Own P h' as' r := by
  simp only [bindObject] at hb
  split at hb
  · split at hb
    · obtain ⟨rfl,rfl⟩ := Prod.ext_iff.mp (some.inj hb)
      refine ⟨?_,?_,?_,hr⟩ <;> simp [setOwnerId,mapObject,cacheAdd,hP,hs]
    · cases hb
  · cases hb

lemma bindNew_own {o : ObjectState StoreRef} {s : ConcreteStore}
    (hfresh : ∀ s, h.nextStore ≤ s → P s) (hb : as.bindNew h o s = some (h',as')) :
    Own P h' as' h.nextObject := by
  have n := allocated_new h o s
  exact bindObject_own (by rw [n.store_eq]; exact hfresh _ le_rfl)
    (by rw [n.store_eq]; exact n.store_lt) n.lt hb

variable {address : Nat}

lemma getSector_effect (hcow : as.cowKey ≠ 0) (hfresh : ∀ s, h.nextStore ≤ s → P s)
    (hown : ∀ r, as.Knows r → as.cowKey = (h.objects r).copyOnWriteOwner → Own P h as r)
    (hg : as.getSector h address = some (r,h',as')) :
    Effect P h as h' as' ∧ (as'.cowKey = (h'.objects r).copyOnWriteOwner → Own P h' as' r) := by
  obtain ⟨hcow1,hknows,hfound⟩ := knows_findObject as h address
  unfold getSector at hg
  cases hf : as.findObject h address with
  | mk os as1 =>
    rw [hf] at hg hcow1 hknows hfound
    have e1 : Effect P h as h as1 := .of_known hcow1 hknows
    cases os with
    | some os =>
      cases some.inj hg
      refine ⟨e1,fun ho => (hown r (hfound r rfl) ?_).effect hcow e1⟩
      rw [← ho,← hcow1]
    | none =>
      obtain ⟨⟨h2,as2⟩,hbind,hrest⟩ := bind_eq_some_iff.mp hg
      cases some.inj hrest
      have hcow' : as1.cowKey ≠ 0 := by
        rw [hcow1]
        exact hcow
      exact ⟨e1.trans hcow (bindNew_effect hcow' hfresh hbind),fun _ => bindNew_own hfresh hbind⟩

lemma writeBuffer_effect (hP : P (h.objects r).store)
    (hw : h.writeBuffer r bytes = some h') : Effect P h as h' as := by
  unfold writeBuffer at hw
  simp only [] at hw
  split at hw
  · cases some.inj hw
    refine ⟨rfl,le_rfl,le_rfl,fun _ _ _ => ⟨rfl,rfl⟩,fun _ _ _ _ => rfl,fun s _ hs => ?_,
      fun _ hr => .inl hr⟩
    have hne : s ≠ (h.objects r).store := fun heq => hs (heq ▸ hP)
    exact update_of_ne hne _ _
  · cases hw

lemma writeSectorAt_effect (hcow : as.cowKey ≠ 0) (hfresh : ∀ s, h.nextStore ≤ s → P s)
    (hown : ∀ r, as.Knows r → as.cowKey = (h.objects r).copyOnWriteOwner → Own P h as r)
    (hw : as.writeSectorAt h address bytes = some (h',as')) : Effect P h as h' as' := by
  obtain ⟨⟨os,h1,as1⟩,⟨osw,h2,as2⟩,hsector,hget,hw⟩ := bind_bind_eq_some hw
  obtain ⟨h3,hwrite,hw⟩ := bind_eq_some_iff.mp hw
  cases some.inj hw
  obtain ⟨e1,hown1⟩ := getSector_effect hcow hfresh hown hsector
  have hcow1 : as1.cowKey ≠ 0 := by
    rw [e1.cowKey]
    exact hcow
  obtain ⟨e2,hown2⟩ := getWriteable_effect hcow1
    (fun s hs => hfresh s (e1.nextStore.trans hs)) hown1 hget
  exact (e1.trans hcow e2).trans hcow (writeBuffer_effect hown2.store hwrite)

end AddressSpace
end S2E
