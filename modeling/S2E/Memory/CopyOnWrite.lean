import S2E.Memory.AddressSpace

/-!
Copies of an address space share their objects until one of them writes. Whether an object may
be written in place is a comparison of two numbers, the key of the space and the owner of the
object.
-/

namespace S2E
open List Option Function Nat AddressSpace Heap

inductive Write where
  | byte (offset : Nat) (value : BitVec 8)
  | expr (offset : Nat) (value : Expr)
  | exprAt (offset value : Expr)

def Write.exec (littleEndian : Bool) (o : Object) : Write → Option Object
  | .byte offset value => o.writeByte offset value
  | .expr offset value => o.write littleEndian offset value
  | .exprAt offset value => o.writeAt littleEndian offset value

namespace Heap

def load (h : Heap) (r : ObjectRef) : Object :=
  {h.objects r with store := h.stores (h.objects r).store}

def save (h : Heap) (r : ObjectRef) (o : Object) : Heap :=
  { h with
    objects := update h.objects r
      { h.objects r with
        flushMask := o.flushMask
        knownSymbolics := o.knownSymbolics
        updates := o.updates}
    stores := update h.stores (h.objects r).store o.store}

def writeHostByte (h : Heap) (o : ObjectState StoreRef) (offset : Nat) (value : BitVec 8) :
    Option Heap :=
  if offset < o.size then
    some {h with host := update h.host (o.address+offset) value}
  else none

def writeHostValue (littleEndian : Bool) (h : Heap) (o : ObjectState StoreRef) (offset : Nat)
    (value : Expr) : Option Heap :=
  let size := ObjectState.minBytesForWidth value.width
  match value with
  | .constant c =>
    if (offset+size)%2^32 ≤ o.size ∧ c.width ≤ 64 then
      (range size).foldlM (fun h i =>
        h.writeHostByte o (ObjectState.byteOffset littleEndian offset size i)
          (.ofNat 8 (c.value >>> (8*i)))) h
    else none
  | _ => none

def writeHost (littleEndian : Bool) (h : Heap) (o : ObjectState StoreRef) : Write → Option Heap
  | .byte offset value => h.writeHostByte o offset value
  | .expr offset value => h.writeHostValue littleEndian o offset value
  | .exprAt offset value => do
    if value.width = 8 ∨ value.width = 1 then
      match ← ZExtExpr.create offset 32 with
      | .constant c => h.writeHostValue littleEndian o c.value value
      | _ => none
    else none

def write (littleEndian : Bool) (r : ObjectRef) (h : Heap) (w : Write) : Option Heap :=
  if (h.objects r).isSharedConcrete then h.writeHost littleEndian (h.objects r) w
  else (w.exec littleEndian (h.load r)).map (h.save r)

def read8 (h : Heap) (r : ObjectRef) (offset : Nat) : Option Expr :=
  let o := h.objects r
  if o.isSharedConcrete then
    if offset < o.size then some (ConstantExpr.alloc (h.host (o.address+offset)).toNat 8)
    else none
  else ((h.load r).read8 offset).map Prod.fst

end Heap

namespace AddressSpace

/-- The byte at an address: the expression that is read, and the updates of the object, which are
the contents of the list that a read in it names. -/
def readByte (as : AddressSpace) (h : Heap) (address : Nat) : Option (Expr × Option Updates) :=
  (as.findObject h address).1.bind fun r =>
    (h.read8 r (address-(h.objects r).address)).map fun e => (e,(h.objects r).updates)

def writeObject (littleEndian : Bool) (as : AddressSpace) (h : Heap) (r : ObjectRef)
    (writes : List Write) : Option (Heap × AddressSpace) := do
  let (w,h,as) ← as.getWriteable h r
  let h ← writes.foldlM (write littleEndian w) h
  some (h,as)

def Maps (as : AddressSpace) (r : ObjectRef) : Prop := ∃ k, (k,r) ∈ as.objects.toList

def Knows (as : AddressSpace) (r : ObjectRef) : Prop :=
  as.Maps r ∨ ∃ slot, as.cache slot = some r

end AddressSpace

/-- What an operation of one space may do, where the stores in `P` are private to it: other
objects that have an owner stay as they are, and what the space comes to know is its own. -/
structure Effect (P : StoreRef → Prop) (h : Heap) (as : AddressSpace) (h' : Heap)
    (as' : AddressSpace) : Prop where
  cowKey : as'.cowKey = as.cowKey
  nextObject : h.nextObject ≤ h'.nextObject
  nextStore : h.nextStore ≤ h'.nextStore
  owner : ∀ r < h.nextObject, (h.objects r).copyOnWriteOwner ≠ 0 →
    (h'.objects r).copyOnWriteOwner = (h.objects r).copyOnWriteOwner ∧
    (h'.objects r).store = (h.objects r).store
  objects : ∀ r < h.nextObject, (h.objects r).copyOnWriteOwner ≠ 0 → ¬P (h.objects r).store →
    h'.objects r = h.objects r
  stores : ∀ s < h.nextStore, ¬P s → h'.stores s = h.stores s
  known : ∀ r, as'.Knows r → as.Knows r ∨
    (h'.objects r).copyOnWriteOwner = as.cowKey ∧ P (h'.objects r).store ∧
      (h'.objects r).store < h'.nextStore ∧ r < h'.nextObject ∧
      (h.nextObject ≤ r ∨ (h.objects r).copyOnWriteOwner = 0)

namespace Effect
variable {P : StoreRef → Prop} {h h1 h2 : Heap} {as as1 as2 : AddressSpace}

lemma refl (P : StoreRef → Prop) (h : Heap) (as : AddressSpace) : Effect P h as h as :=
  ⟨rfl,le_rfl,le_rfl,fun _ _ _ => ⟨rfl,rfl⟩,fun _ _ _ _ => rfl,fun _ _ _ => rfl,
    fun _ hr => .inl hr⟩

lemma trans (hcow : as.cowKey ≠ 0) (e1 : Effect P h as h1 as1) (e2 : Effect P h1 as1 h2 as2) :
    Effect P h as h2 as2 where
  cowKey := e2.cowKey.trans e1.cowKey
  nextObject := e1.nextObject.trans e2.nextObject
  nextStore := e1.nextStore.trans e2.nextStore
  owner := fun r hr ho => by
    obtain ⟨h1,h2⟩ := e1.owner r hr ho
    obtain ⟨h3,h4⟩ := e2.owner r (lt_of_lt_of_le hr e1.nextObject) (h1 ▸ ho)
    exact ⟨h3.trans h1,h4.trans h2⟩
  objects := fun r hr ho hP => by
    have h1 := e1.objects r hr ho hP
    rw [← h1]
    exact e2.objects r (lt_of_lt_of_le hr e1.nextObject) (h1 ▸ ho) (h1 ▸ hP)
  stores := fun s hs hP =>
    (e2.stores s (lt_of_lt_of_le hs e1.nextStore) hP).trans (e1.stores s hs hP)
  known := fun r hr => by
    rcases e2.known r hr with hr | ⟨h1,h2,h3,h4,h5⟩
    · rcases e1.known r hr with hr | ⟨h1,h2,h3,h4,h5⟩
      · exact .inl hr
      · obtain ⟨ho,hs⟩ := e2.owner r h4 (h1 ▸ hcow)
        exact .inr ⟨ho.trans h1,hs ▸ h2,hs ▸ lt_of_lt_of_le h3 e2.nextStore,
          lt_of_lt_of_le h4 e2.nextObject,h5⟩
    · refine .inr ⟨h1.trans e1.cowKey,h2,h3,h4,?_⟩
      rcases h5 with h5 | h5
      · exact .inl (e1.nextObject.trans h5)
      by_contra hn
      rw [not_or,not_le] at hn
      rw [(e1.owner r hn.1 hn.2).1] at h5
      exact hn.2 h5

lemma of_known (hc : as1.cowKey = as.cowKey) (hk : ∀ r, as1.Knows r → as.Knows r) :
    Effect P h as h as1 :=
  ⟨hc,le_rfl,le_rfl,fun _ _ _ => ⟨rfl,rfl⟩,fun _ _ _ _ => rfl,fun _ _ _ => rfl,
    fun r hr => .inl (hk r hr)⟩

end Effect

variable {k : ObjectKey}

namespace AddressSpace
section Knows
variable {as : AddressSpace} {h : Heap}

lemma knows_cacheAdd {r r' : ObjectRef} (hr : (as.cacheAdd h r).Knows r') :
    as.Knows r' ∨ r' = r := by
  rcases hr with hr | ⟨slot,hr⟩
  · exact .inl (.inl hr)
  simp only [cacheAdd,update_apply] at hr
  split at hr
  · exact .inr (some.inj hr).symm
  · exact .inl (.inr ⟨slot,hr⟩)

lemma knows_mapObject {r r' : ObjectRef}
    (hr : (as.mapObject h k r).Knows r') : as.Knows r' ∨ r' = r := by
  rcases knows_cacheAdd hr with (⟨k',hr⟩ | hr) | hr
  · rcases ImmutableTree.mem_of_mem_replace hr with heq | hr
    · exact .inr (congrArg Prod.snd heq)
    · exact .inl (.inl ⟨k',hr⟩)
  · exact .inl (.inr hr)
  · exact .inr hr

lemma knows_findObject (as : AddressSpace) (h : Heap) (address : Nat) :
    (as.findObject h address).2.cowKey = as.cowKey ∧
      (∀ r, (as.findObject h address).2.Knows r → as.Knows r) ∧
      ∀ r, (as.findObject h address).1 = some r → as.Knows r := by
  unfold findObject
  cases hc : as.cacheGet h address with
  | some r =>
    refine ⟨rfl,fun _ hr => hr,fun r' hr' => ?_⟩
    cases some.inj hr'
    exact .inr ⟨_,(filter_eq_some_iff.mp hc).1⟩
  | none =>
    cases hl : as.objects.lookup ObjectKey.lt ⟨address,1⟩ with
    | some x =>
      have hk : as.Knows x.2 := .inl ⟨x.1,ImmutableTree.mem_of_lookup hl⟩
      refine ⟨rfl,fun r hr => ?_,fun r hr => ?_⟩
      · rcases knows_cacheAdd hr with hr | rfl
        · exact hr
        · exact hk
      · cases some.inj hr
        exact hk
    | none => exact ⟨rfl,fun _ hr => hr,nofun⟩

lemma knows_unbindObject {as' : AddressSpace} (hu : as.unbindObject h k = some as') :
    as'.cowKey = as.cowKey ∧ ∀ r, as'.Knows r → as.Knows r := by
  obtain ⟨hcow,hknows,-⟩ := knows_findObject as h k.address
  simp only [unbindObject] at hu
  split at hu
  · cases hf : as.findObject h k.address with
    | mk res as1 =>
      rw [hf] at hu hcow hknows
      cases res with
      | none => cases hu
      | some r0 =>
        simp only [] at hu
        split at hu
        · cases some.inj hu
          refine ⟨hcow,fun r hr => hknows r ?_⟩
          rcases hr with ⟨k',hr⟩ | ⟨slot,hr⟩
          · exact .inl ⟨k',ImmutableTree.mem_of_mem_remove hr⟩
          simp only [cacheInvalidate,update_apply] at hr
          split at hr
          · cases hr
          · exact .inr ⟨slot,hr⟩
        · cases hu
  · cases hu

end Knows
end AddressSpace

structure Heap.Grows (h h' : Heap) : Prop where
  nextObject : h.nextObject ≤ h'.nextObject
  nextStore : h.nextStore ≤ h'.nextStore
  objects : ∀ r < h.nextObject, h'.objects r = h.objects r
  stores : ∀ s < h.nextStore, h'.stores s = h.stores s

lemma Heap.Grows.refl (h : Heap) : h.Grows h := ⟨le_rfl,le_rfl,fun _ _ => rfl,fun _ _ => rfl⟩

lemma Heap.Grows.trans {h1 h2 h3 : Heap} (g : h1.Grows h2) (g' : h2.Grows h3) : h1.Grows h3 :=
  ⟨g.nextObject.trans g'.nextObject,g.nextStore.trans g'.nextStore,
    fun r hr => (g'.objects r (lt_of_lt_of_le hr g.nextObject)).trans (g.objects r hr),
    fun s hs => (g'.stores s (lt_of_lt_of_le hs g.nextStore)).trans (g.stores s hs)⟩

lemma Heap.Grows.effect {h h' : Heap} (g : h.Grows h') (P : StoreRef → Prop)
    (as : AddressSpace) : Effect P h as h' as where
  cowKey := rfl
  nextObject := g.nextObject
  nextStore := g.nextStore
  owner := fun r hr _ => by rw [g.objects r hr]; exact ⟨rfl,rfl⟩
  objects := fun r hr _ _ => g.objects r hr
  stores := fun s hs _ => g.stores s hs
  known := fun _ hr => .inl hr

structure Heap.New (h : Heap) (w : ObjectRef) (store : StoreRef) (h' : Heap) : Prop where
  grows : h.Grows h'
  fresh : h.nextObject ≤ w
  lt : w < h'.nextObject
  store_eq : (h'.objects w).store = store
  store_lt : store < h'.nextStore

variable {offset : Nat}

namespace Heap
variable {h h' : Heap} {r w : ObjectRef} {store : StoreRef}

lemma allocStore_grows (h : Heap) (s : ConcreteStore) : h.Grows (h.allocStore s).2 :=
  ⟨le_rfl,le_succ _,fun _ _ => rfl,
    fun s' hs => by simp [allocStore,update_of_ne (Nat.ne_of_lt hs)]⟩

lemma allocObject_new (h : Heap) (o : ObjectState StoreRef) (hst : o.store = store)
    (hs : store < h.nextStore) : h.New (h.allocObject o).1 store (h.allocObject o).2 where
  grows := ⟨le_succ _,le_rfl,
    fun r hr => by simp [allocObject,update_of_ne (Nat.ne_of_lt hr)],fun _ _ => rfl⟩
  fresh := le_rfl
  lt := lt_succ_self _
  store_eq := by simpa [allocObject] using hst
  store_lt := hs

lemma New.of_grows {h1 : Heap} (g : h.Grows h1) (n : h1.New w store h') : h.New w store h' :=
  ⟨g.trans n.grows,g.nextObject.trans n.fresh,n.lt,n.store_eq,n.store_lt⟩

lemma allocated_new (h : Heap) (o : ObjectState StoreRef) (s : ConcreteStore) :
    h.New h.nextObject h.nextStore
      ((h.allocStore s).2.allocObject {o with copyOnWriteOwner := 0, store := h.nextStore}).2 :=
  .of_grows (allocStore_grows h s) (allocObject_new _ _ rfl (lt_succ_self h.nextStore))

lemma copy_new (hc : h.copy r = some (w,h')) : h.New w h.nextStore h' := by
  simp only [copy] at hc
  split at hc
  · cases hc
  · obtain ⟨rfl,rfl⟩ := Prod.ext_iff.mp (some.inj hc)
    exact .of_grows (allocStore_grows h _) (allocObject_new _ _ rfl (lt_succ_self h.nextStore))

lemma copyWith_new (hs : store < h.nextStore) (hc : h.copyWith r store = some (w,h')) :
    h.New w store h' := by
  simp only [copyWith] at hc
  split at hc
  · cases hc
  · obtain ⟨rfl,rfl⟩ := Prod.ext_iff.mp (some.inj hc)
    exact allocObject_new h _ rfl hs

lemma split_new {newSize : Nat} {hsize : newSize < 2^32}
    (hs : (h.objects r).store < h.nextStore) (hc : h.split r offset newSize hsize = some (w,h')) :
    h.New w (h.objects r).store h' := by
  simp only [split] at hc
  split at hc
  · obtain ⟨rfl,rfl⟩ := Prod.ext_iff.mp (some.inj hc)
    exact allocObject_new h _ rfl hs
  · cases hc

end Heap

structure Own (P : StoreRef → Prop) (h : Heap) (as : AddressSpace) (w : ObjectRef) : Prop where
  owner : (h.objects w).copyOnWriteOwner = as.cowKey
  store : P (h.objects w).store
  store_lt : (h.objects w).store < h.nextStore
  lt : w < h.nextObject

lemma Own.effect {P : StoreRef → Prop} {h h' : Heap} {as as' : AddressSpace} {w : ObjectRef}
    (hcow : as.cowKey ≠ 0) (ho : Own P h as w) (e : Effect P h as h' as') : Own P h' as' w := by
  obtain ⟨h1,h2⟩ := e.owner w ho.lt (ho.owner ▸ hcow)
  exact ⟨(h1.trans ho.owner).trans e.cowKey.symm,h2 ▸ ho.store,
    h2 ▸ lt_of_lt_of_le ho.store_lt e.nextStore,lt_of_lt_of_le ho.lt e.nextObject⟩

variable {rs : List ObjectRef} {o : ObjectState StoreRef} {littleEndian : Bool} {ops : List Write}

namespace AddressSpace
variable {P : StoreRef → Prop} {h h' : Heap} {as as' : AddressSpace} {r w : ObjectRef}

variable {store : StoreRef}

lemma updateWritable_effect (as : AddressSpace) (r : ObjectRef) {h1 : Heap}
    (n : h.New w store h1) (hP : P store) :
    Effect P h as (as.updateWritable h1 r w).1 (as.updateWritable h1 r w).2 ∧
      Own P (as.updateWritable h1 r w).1 (as.updateWritable h1 r w).2 w := by
  have hold : ∀ r' < h.nextObject, (h1.setOwnerId w as.cowKey).objects r' = h.objects r' := by
    intro r' hr'
    have hne : r' ≠ w := Nat.ne_of_lt (Nat.lt_of_lt_of_le hr' n.fresh)
    simp only [setOwnerId,update_of_ne hne]
    exact n.grows.objects r' hr'
  have hown : Own P (h1.setOwnerId w as.cowKey) as w := by
    refine ⟨?_,?_,?_,n.lt⟩ <;> simp [setOwnerId,n.store_eq,hP,n.store_lt]
  refine ⟨⟨rfl,n.grows.nextObject,n.grows.nextStore,fun r' hr' _ => ?_,
    fun r' hr' _ _ => hold r' hr',fun s hs _ => n.grows.stores s hs,fun r' hr' => ?_⟩,
    hown.owner,hown.store,hown.store_lt,hown.lt⟩
  · have := hold r' hr'
    exact ⟨congrArg ObjectState.copyOnWriteOwner this,congrArg ObjectState.store this⟩
  · rcases knows_mapObject hr' with hr' | rfl
    · exact .inl hr'
    · exact .inr ⟨hown.owner,hown.store,hown.store_lt,hown.lt,.inl n.fresh⟩

lemma getWriteableInternal_effect (hfresh : ∀ s, h.nextStore ≤ s → P s)
    (hg : as.getWriteableInternal h r = some (w,h',as')) :
    Effect P h as h' as' ∧ Own P h' as' w := by
  obtain ⟨⟨w1,h1⟩,hc,hg⟩ := bind_eq_some_iff.mp hg
  obtain ⟨rfl,hg⟩ := Prod.ext_iff.mp (some.inj hg)
  obtain ⟨rfl,rfl⟩ := Prod.ext_iff.mp hg
  exact updateWritable_effect as r (copy_new hc) (hfresh _ le_rfl)

lemma findPieces_effect {fuel address size : Nat}
    (hf : findPieces h fuel as address size = some (rs,as')) :
    as'.cowKey = as.cowKey ∧ ∀ r, as'.Knows r → as.Knows r := by
  induction fuel generalizing as address size rs with
  | zero => cases hf
  | succ fuel ih =>
    obtain ⟨hcow,hknows,-⟩ := knows_findObject as h address
    rw [findPieces] at hf
    cases hfind : as.findObject h address with
    | mk res as1 =>
      rw [hfind] at hf hcow hknows
      cases res with
      | none => cases hf
      | some r =>
        simp only [] at hf
        split at hf
        · cases hf
        split at hf
        · cases some.inj hf
          exact ⟨hcow,hknows⟩
        obtain ⟨⟨rs',as2⟩,hrec,hrest⟩ := bind_eq_some_iff.mp hf
        cases some.inj hrest
        obtain ⟨hcow',hknows'⟩ := ih hrec
        exact ⟨hcow'.trans hcow,fun r hr => hknows r (hknows' r hr)⟩

lemma copyPieces_effect {os : ObjectRef}
    {ret : Option ObjectRef} (hcow : as.cowKey ≠ 0) (hP : P store) (hs : store < h.nextStore)
    (hret : ∀ w, ret = some w → Own P h as w)
    (hc : copyPieces os store rs ret h as = some (w,h',as')) :
    Effect P h as h' as' ∧ Own P h' as' w := by
  induction rs generalizing h as ret with
  | nil =>
    cases ret with
    | none => cases hc
    | some w' =>
      cases some.inj hc
      exact ⟨.refl P _ _,hret _ rfl⟩
  | cons r rs ih =>
    obtain ⟨⟨w1,h1⟩,hcopy,hrest⟩ := bind_eq_some_iff.mp hc
    obtain ⟨e,ho⟩ := updateWritable_effect as r (copyWith_new hs hcopy) hP
    obtain ⟨e',ho'⟩ := ih (e.cowKey ▸ hcow) (lt_of_lt_of_le hs e.nextStore) (fun w' hw' => by
        split at hw'
        · cases some.inj hw'
          exact ho
        · exact (hret w' hw').effect hcow e) hrest
    exact ⟨e.trans hcow e',ho'⟩

lemma getWriteable_effect (hcow : as.cowKey ≠ 0) (hfresh : ∀ s, h.nextStore ≤ s → P s)
    (hr : as.cowKey = (h.objects r).copyOnWriteOwner → Own P h as r)
    (hg : as.getWriteable h r = some (w,h',as')) : Effect P h as h' as' ∧ Own P h' as' w := by
  simp only [getWriteable] at hg
  split at hg
  · cases hg
  split at hg
  next ho =>
    cases some.inj hg
    exact ⟨.refl P h as,hr ho⟩
  split at hg
  · split at hg
    · exact getWriteableInternal_effect hfresh hg
    · cases hg
  split at hg
  · obtain ⟨⟨pieces,as1⟩,hf,hrest⟩ := bind_eq_some_iff.mp hg
    obtain ⟨hcow1,hknows⟩ := findPieces_effect hf
    simp only [] at hrest
    split at hrest
    · have e1 : Effect P h as h as1 := .of_known hcow1 hknows
      have e2 := (allocStore_grows h (h.stores (h.objects r).store)).effect P as1
      obtain ⟨e3,ho⟩ := copyPieces_effect (hcow1 ▸ hcow) (hfresh _ le_rfl)
        (lt_succ_self h.nextStore) (by intro w' hw'; cases hw') hrest
      exact ⟨(e1.trans hcow e2).trans hcow e3,ho⟩
    · cases hrest
  · cases hg

lemma bindObject_effect (hP : P (h.objects r).store) (hs : (h.objects r).store < h.nextStore)
    (hr : r < h.nextObject) (hb : as.bindObject h r = some (h',as')) :
    Effect P h as h' as' ∧ h'.nextObject = h.nextObject ∧ h'.nextStore = h.nextStore ∧
      ∀ r', (h'.objects r').store = (h.objects r').store := by
  obtain ⟨hcow,hknows,-⟩ := knows_findObject as h (h.objects r).address
  simp only [bindObject] at hb
  split at hb
  · split at hb
    next hzero =>
      obtain ⟨rfl,rfl⟩ := Prod.ext_iff.mp (some.inj hb)
      have hst : ∀ r' id, ((h.setOwnerId r id).objects r').store = (h.objects r').store := by
        intro r' id
        simp only [setOwnerId,update_apply]
        split
        next heq =>
          rw [heq]
        · rfl
      have hold : ∀ r' id, (h.objects r').copyOnWriteOwner ≠ 0 →
          (h.setOwnerId r id).objects r' = h.objects r' := by
        intro r' id hne
        have : r' ≠ r := fun heq => hne (heq ▸ hzero)
        simp only [setOwnerId,update_of_ne this]
      refine ⟨⟨hcow,le_rfl,le_rfl,fun r' _ hne => ?_,fun r' _ hne _ => hold r' _ hne,
        fun _ _ _ => rfl,fun r' hr' => ?_⟩,rfl,rfl,fun r' => hst r' _⟩
      · rw [hold r' _ hne]
        exact ⟨rfl,rfl⟩
      · rcases knows_mapObject hr' with hr' | rfl
        · exact .inl (hknows r' hr')
        · refine .inr ⟨?_,(hst _ _).symm ▸ hP,(hst _ _).symm ▸ hs,hr,.inr hzero⟩
          simpa [setOwnerId] using hcow
    · cases hb
  · cases hb

lemma bindObjects_effect (hcow : as.cowKey ≠ 0)
    (hrs : ∀ r ∈ rs, P (h.objects r).store ∧ (h.objects r).store < h.nextStore ∧ r < h.nextObject)
    (hb : bindObjects rs h as = some (h',as')) : Effect P h as h' as' := by
  induction rs generalizing h as with
  | nil =>
    cases some.inj hb
    exact .refl P _ _
  | cons r rs ih =>
    obtain ⟨⟨h1,as1⟩,hbind,hrest⟩ := bind_eq_some_iff.mp hb
    obtain ⟨hP,hs,hr⟩ := hrs r mem_cons_self
    obtain ⟨e,hno,hns,hst⟩ := bindObject_effect hP hs hr hbind
    refine e.trans hcow (ih (e.cowKey ▸ hcow) (fun r' hr' => ?_) hrest)
    rw [hst,hno,hns]
    exact hrs r' (mem_cons_of_mem _ hr')

lemma splitPieces_grows {is : List Nat}
    (hs : (h.objects w).store < h.nextStore) (hw : w < h.nextObject)
    (hp : splitPieces w is h = some (rs,h')) :
    h.Grows h' ∧ ∀ r ∈ rs, (h'.objects r).store = (h.objects w).store ∧ r < h'.nextObject := by
  induction is generalizing h rs with
  | nil =>
    cases some.inj hp
    exact ⟨.refl _,nofun⟩
  | cons i is ih =>
    obtain ⟨⟨r,h1⟩,⟨rs',h2⟩,hsplit,hrec,hfin⟩ := bind_bind_eq_some hp
    cases some.inj hfin
    have n := split_new hs hsplit
    have hsame := n.grows.objects w hw
    obtain ⟨g,hall⟩ := ih (hsame.symm ▸ lt_of_lt_of_le hs n.grows.nextStore)
      (lt_of_lt_of_le hw n.grows.nextObject) hrec
    refine ⟨n.grows.trans g,fun r' hr' => ?_⟩
    rcases mem_cons.mp hr' with rfl | hr'
    · rw [g.objects _ n.lt]
      exact ⟨n.store_eq,lt_of_lt_of_le n.lt g.nextObject⟩
    · rw [← hsame]
      exact hall r' hr'

lemma initializeConcreteMask_effect (hP : P (h.objects w).store) :
    Effect P h as (h.initializeConcreteMask w) as where
  cowKey := rfl
  nextObject := le_rfl
  nextStore := le_rfl
  owner := fun _ _ _ => ⟨rfl,rfl⟩
  objects := fun _ _ _ _ => rfl
  stores := fun s _ hs => by
    have : s ≠ (h.objects w).store := fun heq => hs (heq ▸ hP)
    simp [initializeConcreteMask,update_of_ne this]
  known := fun _ hr => .inl hr

lemma splitMemoryObject_effect {pieces : List ObjectRef} (hcow : as.cowKey ≠ 0)
    (hfresh : ∀ s, h.nextStore ≤ s → P s)
    (hr : as.cowKey = (h.objects r).copyOnWriteOwner → Own P h as r)
    (hs : as.splitMemoryObject h r = some (pieces,h',as')) : Effect P h as h' as' := by
  simp only [splitMemoryObject] at hs
  split at hs
  · cases some.inj hs
    exact .refl P _ _
  obtain ⟨⟨w,h1,as1⟩,⟨rs,h2⟩,hg,hsp,hs⟩ := bind_bind_eq_some hs
  obtain ⟨as2,⟨h3,as3⟩,hu,hb,hs⟩ := bind_bind_eq_some hs
  cases some.inj hs
  obtain ⟨e1,ho⟩ := getWriteable_effect hcow hfresh hr hg
  have e2 : Effect P h1 as1 (h1.initializeConcreteMask w) as1 :=
    initializeConcreteMask_effect ho.store
  obtain ⟨g,hall⟩ := splitPieces_grows (h := h1.initializeConcreteMask w) ho.store_lt ho.lt hsp
  obtain ⟨hcow2,hknows⟩ := knows_unbindObject hu
  have e3 : Effect P h2 as1 h2 as2 := .of_known hcow2 hknows
  have e4 := bindObjects_effect (hcow2 ▸ e1.cowKey ▸ hcow) (fun r' hr' => by
      obtain ⟨hst,hlt⟩ := hall r' hr'
      rw [hst]
      exact ⟨ho.store,lt_of_lt_of_le ho.store_lt g.nextStore,hlt⟩) hb
  exact (((e1.trans hcow e2).trans hcow (g.effect P as1)).trans hcow e3).trans hcow e4

lemma save_effect (hP : P (h.objects w).store) (o : Object) : Effect P h as (h.save w o) as where
  cowKey := rfl
  nextObject := le_rfl
  nextStore := le_rfl
  owner := fun r _ _ => by
    simp only [save,update_apply]
    split
    next heq =>
      rw [heq]
      exact ⟨rfl,rfl⟩
    · exact ⟨rfl,rfl⟩
  objects := fun r _ _ hr => by
    have : r ≠ w := fun heq => hr (heq ▸ hP)
    simp [save,update_of_ne this]
  stores := fun s _ hs => by
    have : s ≠ (h.objects w).store := fun heq => hs (heq ▸ hP)
    simp [save,update_of_ne this]
  known := fun _ hr => .inl hr

lemma host_effect {f : Nat → BitVec 8} : Effect P h as {h with host := f} as :=
  ⟨rfl,le_rfl,le_rfl,fun _ _ _ => ⟨rfl,rfl⟩,fun _ _ _ _ => rfl,fun _ _ _ => rfl,
    fun _ hr => .inl hr⟩

lemma writeHostByte_host {value : BitVec 8}
    (hw : h.writeHostByte o offset value = some h') : ∃ f, h' = {h with host := f} := by
  unfold writeHostByte at hw
  split at hw
  · exact ⟨_,(some.inj hw).symm⟩
  · cases hw

lemma writeHostValue_host
    {value : Expr} (hw : h.writeHostValue littleEndian o offset value = some h') :
    ∃ f, h' = {h with host := f} := by
  have hfold : ∀ (is : List Nat) (offset : Nat → Nat) (byte : Nat → BitVec 8) (h : Heap),
      is.foldlM (fun h i => h.writeHostByte o (offset i) (byte i)) h = some h' →
      ∃ f, h' = {h with host := f} := by
    intro is offset byte
    induction is with
    | nil =>
      intro h hh
      exact ⟨h.host,(some.inj hh).symm⟩
    | cons i is ih =>
      intro h hh
      obtain ⟨h1,hb,hrest⟩ := bind_eq_some_iff.mp hh
      obtain ⟨f,rfl⟩ := writeHostByte_host hb
      obtain ⟨f',hf'⟩ := ih _ hrest
      exact ⟨f',hf'⟩
  unfold writeHostValue at hw
  cases value with
  | constant c =>
    simp only [] at hw
    split at hw
    · exact hfold _ _ _ h hw
    · cases hw
  | _ => cases hw

lemma writeHost_host {op : Write}
    (hw : h.writeHost littleEndian o op = some h') : ∃ f, h' = {h with host := f} := by
  cases op with
  | byte offset value => exact writeHostByte_host hw
  | expr offset value => exact writeHostValue_host hw
  | exprAt offset value =>
    simp only [writeHost] at hw
    split at hw
    · obtain ⟨offset32,-,hw⟩ := bind_eq_some_iff.mp hw
      split at hw
      · exact writeHostValue_host hw
      · cases hw
    · cases hw

lemma write_effect {op : Write} (hP : P (h.objects w).store)
    (hw : h.write littleEndian w op = some h') : Effect P h as h' as := by
  unfold write at hw
  split at hw
  · obtain ⟨f,rfl⟩ := writeHost_host hw
    exact host_effect
  · obtain ⟨o,-,rfl⟩ := map_eq_some_iff.mp hw
    exact save_effect hP o

lemma writes_effect (hcow : as.cowKey ≠ 0)
    (ho : Own P h as w) (hw : ops.foldlM (write littleEndian w) h = some h') :
    Effect P h as h' as := by
  induction ops generalizing h with
  | nil =>
    cases some.inj hw
    exact .refl P _ _
  | cons op ops ih =>
    obtain ⟨h1,hop,hrest⟩ := bind_eq_some_iff.mp hw
    have e : Effect P h as h1 as := write_effect ho.store hop
    exact e.trans hcow (ih (ho.effect hcow e) hrest)

lemma writeObject_effect (hcow : as.cowKey ≠ 0) (hfresh : ∀ s, h.nextStore ≤ s → P s)
    (hr : as.cowKey = (h.objects r).copyOnWriteOwner → Own P h as r)
    (hw : as.writeObject littleEndian h r ops = some (h',as')) : Effect P h as h' as' := by
  obtain ⟨⟨w,h1,as1⟩,h2,hg,hops,hfin⟩ := bind_bind_eq_some hw
  cases some.inj hfin
  obtain ⟨e,ho⟩ := getWriteable_effect hcow hfresh hr hg
  exact e.trans hcow (writes_effect (e.cowKey ▸ hcow) ho hops)

def bindNew (as : AddressSpace) (h : Heap) (o : ObjectState StoreRef) (s : ConcreteStore) :
    Option (Heap × AddressSpace) :=
  let (store,h) := h.allocStore s
  let (r,h) := h.allocObject {o with copyOnWriteOwner := 0, store}
  as.bindObject h r

lemma bindNew_effect {s : ConcreteStore} (hcow : as.cowKey ≠ 0)
    (hfresh : ∀ s, h.nextStore ≤ s → P s) (hb : as.bindNew h o s = some (h',as')) :
    Effect P h as h' as' := by
  have n := allocated_new h o s
  have e := bindObject_effect (P := P) (by rw [n.store_eq]; exact hfresh _ le_rfl)
    (by rw [n.store_eq]; exact n.store_lt) n.lt hb
  exact (n.grows.effect P as).trans hcow e.1

end AddressSpace

structure World where
  heap : Heap
  spaces : List AddressSpace

namespace World

def initial (h : Heap) : World := ⟨h,[.empty]⟩

inductive Step (W : World) (i : Nat) : World → Prop
  | findObject {as : AddressSpace} (address : Nat) : W.spaces[i]? = some as →
      W.Step i ⟨W.heap,W.spaces.set i (as.findObject W.heap address).2⟩
  | bindObject {as as' : AddressSpace} {h' : Heap} {o : ObjectState StoreRef}
      {s : ConcreteStore} : W.spaces[i]? = some as → as.bindNew W.heap o s = some (h',as') →
      W.Step i ⟨h',W.spaces.set i as'⟩
  | unbindObject {as as' : AddressSpace} {k : ObjectKey} : W.spaces[i]? = some as →
      as.unbindObject W.heap k = some as' → W.Step i ⟨W.heap,W.spaces.set i as'⟩
  | write {as as' : AddressSpace} {h' : Heap} {r : ObjectRef} {littleEndian : Bool}
      {ops : List Write} : W.spaces[i]? = some as → as.Knows r →
      as.writeObject littleEndian W.heap r ops = some (h',as') →
      W.Step i ⟨h',W.spaces.set i as'⟩
  | splitMemoryObject {as as' : AddressSpace} {h' : Heap} {r : ObjectRef}
      {pieces : List ObjectRef} : W.spaces[i]? = some as → as.Knows r →
      as.splitMemoryObject W.heap r = some (pieces,h',as') →
      W.Step i ⟨h',W.spaces.set i as'⟩
  | fork {as : AddressSpace} : W.spaces[i]? = some as →
      W.Step i ⟨W.heap,W.spaces.set i as.fork.1 ++ [as.fork.2]⟩

def KeyFits (W : World) (i : Nat) (W' : World) : Prop :=
  W'.spaces.length = W.spaces.length ∨ ∀ as, W.spaces[i]? = some as → as.cowKey+1 < 2^32

inductive Reach : World → Prop
  | initial (h : Heap) : Reach (initial h)
  | step {W W' : World} {i : Nat} : Reach W → W.Step i W' → W.KeyFits i W' → Reach W'

/-- What is known has been allocated and has an owner that is not ahead of the space, and the
store of an object that a space owns is in no object that another space knows. -/
structure Inv (W : World) : Prop where
  cowKey : ∀ {i : Nat} {as : AddressSpace}, W.spaces[i]? = some as → as.cowKey ≠ 0
  known : ∀ {i : Nat} {as : AddressSpace} {r : ObjectRef}, W.spaces[i]? = some as → as.Knows r →
    r < W.heap.nextObject ∧ (W.heap.objects r).store < W.heap.nextStore ∧
      (W.heap.objects r).copyOnWriteOwner ≠ 0 ∧
      (W.heap.objects r).copyOnWriteOwner ≤ as.cowKey
  exclusive : ∀ {i j : Nat} {as as' : AddressSpace} {r r' : ObjectRef}, i ≠ j →
    W.spaces[i]? = some as → W.spaces[j]? = some as' → as.Knows r →
      (W.heap.objects r).copyOnWriteOwner = as.cowKey → as'.Knows r' →
    (W.heap.objects r').store ≠ (W.heap.objects r).store

def Private (h : Heap) (as : AddressSpace) (s : StoreRef) : Prop :=
  h.nextStore ≤ s ∨
    ∃ r, as.Knows r ∧ (h.objects r).copyOnWriteOwner = as.cowKey ∧ (h.objects r).store = s

section
variable {W W' : World} {i j : Nat} {as as' as'' : AddressSpace} {h' : Heap} {r : ObjectRef}

lemma empty_knows (r : ObjectRef) : ¬empty.Knows r := by
  rintro (⟨k,hk⟩ | ⟨slot,hs⟩)
  · cases hk
  · cases hs

lemma initial_inv (h : Heap) : (initial h).Inv := by
  have hone : ∀ {i : Nat} {as : AddressSpace}, (initial h).spaces[i]? = some as → as = .empty := by
    intro i as hi
    have := mem_of_getElem? hi
    exact mem_singleton.mp this
  refine ⟨fun hi => ?_,fun hi hk => ?_,fun _ hi _ hk => ?_⟩
  · rw [hone hi]
    exact one_ne_zero
  · rw [hone hi] at hk
    exact absurd hk (empty_knows _)
  · rw [hone hi] at hk
    exact absurd hk (empty_knows _)

lemma spaces_set (hi : (W.spaces.set i as')[j]? = some as) :
    j = i ∧ as = as' ∨ j ≠ i ∧ W.spaces[j]? = some as := by
  rw [getElem?_set] at hi
  by_cases hij : i = j
  · rw [if_pos hij] at hi
    split at hi
    · exact .inl ⟨hij.symm,(some.inj hi).symm⟩
    · cases hi
  · rw [if_neg hij] at hi
    exact .inr ⟨Ne.symm hij,hi⟩

lemma Inv.foreign (hI : W.Inv) (hij : j ≠ i) (hi : W.spaces[i]? = some as)
    (hj : W.spaces[j]? = some as') (hr : as'.Knows r) :
    ¬Private W.heap as (W.heap.objects r).store := by
  rintro (hs | ⟨r',hr',ho,hs⟩)
  · exact absurd hs (not_le.mpr (hI.known hj hr).2.1)
  · exact hI.exclusive hij.symm hi hj hr' ho hr hs.symm

lemma Inv.own_private (hI : W.Inv) (hi : W.spaces[i]? = some as)
    (e : Effect (Private W.heap as) W.heap as h' as') (hr : as'.Knows r)
    (ho : (h'.objects r).copyOnWriteOwner = as'.cowKey) :
    Private W.heap as (h'.objects r).store := by
  rcases e.known r hr with hr | ⟨-,hP,-⟩
  · obtain ⟨hlt,-,hne,-⟩ := hI.known hi hr
    obtain ⟨h1,h2⟩ := e.owner r hlt hne
    exact .inr ⟨r,hr,by rw [← h1,ho,e.cowKey],h2.symm⟩
  · exact hP

lemma Inv.effect (hI : W.Inv) (hi : W.spaces[i]? = some as)
    (e : Effect (Private W.heap as) W.heap as h' as') : Inv ⟨h',W.spaces.set i as'⟩ where
  cowKey := fun hj => by
    rcases spaces_set hj with ⟨-,rfl⟩ | ⟨-,hj⟩
    · exact e.cowKey ▸ hI.cowKey hi
    · exact hI.cowKey hj
  known := fun hj hr => by
    have hold : ∀ {j : Nat} {as1 : AddressSpace} {r : ObjectRef}, W.spaces[j]? = some as1 →
        as1.Knows r → r < h'.nextObject ∧ (h'.objects r).store < h'.nextStore ∧
          (h'.objects r).copyOnWriteOwner ≠ 0 ∧ (h'.objects r).copyOnWriteOwner ≤ as1.cowKey := by
      intro j as1 r hj hr
      obtain ⟨hlt,hs,hne,hle⟩ := hI.known hj hr
      obtain ⟨h1,h2⟩ := e.owner r hlt hne
      rw [h1,h2]
      exact ⟨lt_of_lt_of_le hlt e.nextObject,lt_of_lt_of_le hs e.nextStore,hne,hle⟩
    rcases spaces_set hj with ⟨-,rfl⟩ | ⟨-,hj⟩
    · rcases e.known _ hr with hr | ⟨ho,-,hs,hlt,-⟩
      · rw [e.cowKey]
        exact hold hi hr
      · rw [ho,e.cowKey]
        exact ⟨hlt,hs,hI.cowKey hi,le_rfl⟩
    · exact hold hj hr
  exclusive := fun hjk hj hk hr ho hr' => by
    have hstore : ∀ {j : Nat} {as1 : AddressSpace} {r : ObjectRef}, W.spaces[j]? = some as1 →
        as1.Knows r → (h'.objects r).copyOnWriteOwner = (W.heap.objects r).copyOnWriteOwner ∧
          (h'.objects r).store = (W.heap.objects r).store := fun hj hr =>
      e.owner _ (hI.known hj hr).1 (hI.known hj hr).2.2.1
    rcases spaces_set hj with ⟨rfl,rfl⟩ | ⟨hji,hj0⟩
    · -- the acting space owns the object
      rcases spaces_set hk with ⟨rfl,-⟩ | ⟨hki,hk0⟩
      · exact absurd rfl hjk
      have hp := hI.own_private hi e hr ho
      rw [(hstore hk0 hr').2]
      intro heq
      exact hI.foreign hki hi hk0 hr' (heq ▸ hp)
    · rw [(hstore hj0 hr).1] at ho
      rw [(hstore hj0 hr).2]
      rcases spaces_set hk with ⟨rfl,rfl⟩ | ⟨hki,hk0⟩
      · -- another space owns it, and the acting space knows the other object
        rcases e.known _ hr' with hr' | ⟨-,hP,-⟩
        · rw [(hstore hi hr').2]
          exact hI.exclusive hji hj0 hi hr ho hr'
        · intro heq
          exact hI.foreign hji hi hj0 hr (heq ▸ hP)
      · rw [(hstore hk0 hr').2]
        exact hI.exclusive hjk hj0 hk0 hr ho hr'

lemma Inv.own (hI : W.Inv) (hi : W.spaces[i]? = some as) (hr : as.Knows r)
    (ho : as.cowKey = (W.heap.objects r).copyOnWriteOwner) : Own (Private W.heap as) W.heap as r :=
  ⟨ho.symm,.inr ⟨_,hr,ho.symm,rfl⟩,(hI.known hi hr).2.1,(hI.known hi hr).1⟩

lemma Inv.step (hI : W.Inv) (hs : W.Step i W') :
    (∃ as as' h', W.spaces[i]? = some as ∧ W' = ⟨h',W.spaces.set i as'⟩ ∧
      Effect (Private W.heap as) W.heap as h' as') ∨
    ∃ as, W.spaces[i]? = some as ∧ W' = ⟨W.heap,W.spaces.set i as.fork.1 ++ [as.fork.2]⟩ := by
  have hfresh : ∀ as s, W.heap.nextStore ≤ s → Private W.heap as s := fun _ _ hs => .inl hs
  cases hs with
  | findObject address hi =>
    obtain ⟨hcow,hknows,-⟩ := knows_findObject _ W.heap address
    exact .inl ⟨_,_,_,hi,rfl,.of_known hcow hknows⟩
  | bindObject hi hb =>
    exact .inl ⟨_,_,_,hi,rfl,bindNew_effect (hI.cowKey hi) (hfresh _) hb⟩
  | unbindObject hi hu =>
    obtain ⟨hcow,hknows⟩ := knows_unbindObject hu
    exact .inl ⟨_,_,_,hi,rfl,.of_known hcow hknows⟩
  | write hi hr hw =>
    exact .inl ⟨_,_,_,hi,rfl,writeObject_effect (hI.cowKey hi) (hfresh _) (hI.own hi hr) hw⟩
  | splitMemoryObject hi hr hsp =>
    exact .inl ⟨_,_,_,hi,rfl,
      splitMemoryObject_effect (hI.cowKey hi) (hfresh _) (hI.own hi hr) hsp⟩
  | fork hi => exact .inr ⟨_,hi,rfl⟩

lemma spaces_fork (hj : (W.spaces.set i as.fork.1 ++ [as.fork.2])[j]? = some as') :
    (as'.cowKey = as.fork.1.cowKey ∧ ∀ r, as'.Knows r → as.Knows r) ∨
      j ≠ i ∧ W.spaces[j]? = some as' := by
  rw [getElem?_append] at hj
  split at hj
  · rcases spaces_set hj with ⟨-,rfl⟩ | hj
    · exact .inl ⟨rfl,fun _ hr => hr⟩
    · exact .inr hj
  have := mem_of_getElem? hj
  rw [mem_singleton.mp this]
  refine .inl ⟨rfl,fun r hr => ?_⟩
  rcases hr with hr | ⟨slot,hr⟩
  · exact .inl hr
  · cases hr

lemma Inv.fork (hI : W.Inv) (hi : W.spaces[i]? = some as) (hkey : as.cowKey+1 < 2^32) :
    Inv ⟨W.heap,W.spaces.set i as.fork.1 ++ [as.fork.2]⟩ := by
  have hcow : as.fork.1.cowKey = as.cowKey+1 := mod_eq_of_lt hkey
  refine ⟨fun hj => ?_,fun hj hr => ?_,fun hjk hj hk hr ho hr' => ?_⟩
  · rcases spaces_fork hj with ⟨hc,-⟩ | ⟨-,hj0⟩
    · rw [hc,hcow]
      exact succ_ne_zero _
    · exact hI.cowKey hj0
  · rcases spaces_fork hj with ⟨hc,hkn⟩ | ⟨-,hj0⟩
    · obtain ⟨h1,h2,h3,h4⟩ := hI.known hi (hkn _ hr)
      exact ⟨h1,h2,h3,by rw [hc,hcow]; exact le_succ_of_le h4⟩
    · exact hI.known hj0 hr
  · rcases spaces_fork hj with ⟨hc,hkn⟩ | ⟨hji,hj0⟩
    · -- neither of the two owns anything yet
      have := (hI.known hi (hkn _ hr)).2.2.2
      rw [ho,hc,hcow] at this
      exact absurd this (not_succ_le_self _)
    · rcases spaces_fork hk with ⟨-,hkn⟩ | ⟨-,hk0⟩
      · exact hI.exclusive hji hj0 hi hr ho (hkn _ hr')
      · exact hI.exclusive hjk hj0 hk0 hr ho hr'

lemma Reach.inv (hr : Reach W) : W.Inv := by
  induction hr with
  | initial h => exact initial_inv h
  | step _ hs hkey ih =>
    rcases ih.step hs with ⟨as,as',h',hi,rfl,e⟩ | ⟨as,hi,rfl⟩
    · exact ih.effect hi e
    refine ih.fork hi ?_
    rcases hkey with hlen | hfit
    · simp at hlen
    · exact hfit as hi

lemma Inv.frame_effect (hI : W.Inv) (hij : j ≠ i) (hi : W.spaces[i]? = some as)
    (hj : W.spaces[j]? = some as'') (e : Effect (Private W.heap as) W.heap as h' as')
    (hr : as''.Knows r) : h'.objects r = W.heap.objects r ∧
      h'.stores (W.heap.objects r).store = W.heap.stores (W.heap.objects r).store := by
  obtain ⟨hlt,hs,hne,-⟩ := hI.known hj hr
  have hP := hI.foreign hij hi hj hr
  exact ⟨e.objects r hlt hne hP,e.stores _ hs hP⟩

lemma Inv.frame (hI : W.Inv) (hs : W.Step i W') (hij : j ≠ i) (hj : W.spaces[j]? = some as) :
    W'.spaces[j]? = some as ∧ ∀ r, as.Knows r → W'.heap.objects r = W.heap.objects r ∧
      W'.heap.stores (W.heap.objects r).store = W.heap.stores (W.heap.objects r).store := by
  rcases hI.step hs with ⟨as1,as',h',hi,rfl,e⟩ | ⟨as1,hi,rfl⟩
  · exact ⟨by rw [getElem?_set_ne hij.symm]; exact hj,fun r hr => hI.frame_effect hij hi hj e hr⟩
  refine ⟨?_,fun r _ => ⟨rfl,rfl⟩⟩
  have hlt := (List.getElem?_eq_some_iff.mp hj).1
  rw [getElem?_append_left (by rw [length_set]; exact hlt),getElem?_set_ne hij.symm]
  exact hj

end

lemma findObject_congr {as : AddressSpace} {h h' : Heap}
    (hsame : ∀ r, as.Knows r → h'.objects r = h.objects r) (address : Nat) :
    (as.findObject h' address).1 = (as.findObject h address).1 := by
  have hcache : as.cacheGet h' address = as.cacheGet h address := by
    unfold cacheGet
    cases hc : as.cache (Cache.hash address) with
    | none => rfl
    | some r => simp only [Option.filter,hsame r (.inr ⟨_,hc⟩)]
  unfold findObject
  rw [hcache]
  cases as.cacheGet h address with
  | some r => rfl
  | none => cases as.objects.lookup ObjectKey.lt ⟨address,1⟩ <;> rfl

def NotShared (h : Heap) (as : AddressSpace) (address : Nat) : Prop :=
  ∀ r, (as.findObject h address).1 = some r → (h.objects r).isSharedConcrete = false

lemma readByte_congr {as : AddressSpace} {h h' : Heap}
    (hsame : ∀ r, as.Knows r → h'.objects r = h.objects r ∧
      h'.stores (h.objects r).store = h.stores (h.objects r).store) {address : Nat}
    (hn : NotShared h as address) : as.readByte h' address = as.readByte h address := by
  unfold readByte
  rw [findObject_congr fun r hr => (hsame r hr).1]
  cases hf : (as.findObject h address).1 with
  | none => rfl
  | some r =>
    obtain ⟨ho,hs⟩ := hsame r ((knows_findObject as h address).2.2 r hf)
    simp [read8,load,ho,hs,hn r hf]

/-- Copy-on-write isolation: an object that a space owns is in no other space, no owner is ahead
of its space, and what one space does changes no byte of another that is not shared with the
host. -/
theorem copyOnWrite_isolates {W : World} (hr : Reach W) :
    (∀ (i : Nat) (as : AddressSpace), W.spaces[i]? = some as → ∀ r, as.Maps r →
      (W.heap.objects r).copyOnWriteOwner ≤ as.cowKey ∧
      ((W.heap.objects r).copyOnWriteOwner = as.cowKey →
        ∀ (j : Nat) (as' : AddressSpace), j ≠ i → W.spaces[j]? = some as' → ¬as'.Maps r)) ∧
    ∀ (i : Nat) (W' : World), W.Step i W' → ∀ (j : Nat) (as : AddressSpace), j ≠ i →
      W.spaces[j]? = some as → W'.spaces[j]? = some as ∧ ∀ address, NotShared W.heap as address →
        as.readByte W'.heap address = as.readByte W.heap address := by
  have hI := hr.inv
  refine ⟨fun i as hi r hm => ⟨(hI.known hi (.inl hm)).2.2.2,fun ho j as' hj hj' hm' => ?_⟩,
    fun i W' hs j as hj hj' => ?_⟩
  · exact hI.exclusive hj.symm hi hj' (.inl hm) ho (.inl hm') rfl
  · obtain ⟨hsp,hsame⟩ := hI.frame hs hj hj'
    exact ⟨hsp,fun address hn => readByte_congr hsame hn⟩

variable (shared : Bool)

def smallObject : ObjectState StoreRef :=
  {ObjectState.allocate 0x1000 16 (by decide) 0 with isSharedConcrete := shared, store := 0}

def noHeap : Heap where
  objects := fun _ => smallObject false
  stores := fun _ => ⟨[],none⟩
  nextObject := 0
  nextStore := 0
  host := fun _ => 0

def boundWorld : World :=
  match empty.bindNew noHeap (smallObject shared) ⟨replicate 16 0,none⟩ with
  | some (h,as) => ⟨h,[as]⟩
  | none => initial noHeap

def copiedWorld : World :=
  ⟨(boundWorld shared).heap,(boundWorld shared).spaces.flatMap fun as => [as.fork.1,as.fork.2]⟩

/-- A write of a concrete byte, and, unless the object is shared with the host, one at a symbolic
position, which goes to the update list. -/
def mixedWrites : List Write :=
  .byte 0 1 :: if shared then [] else
    [.exprAt (.zext (.read (.root (.symbolic 0 1 one_fits)) (ConstantExpr.alloc 0 32)) 32)
      (ConstantExpr.alloc 7 8)]

def writtenWorld : World :=
  match (copiedWorld shared).spaces with
  | as :: spaces =>
    match as.writeObject true (copiedWorld shared).heap 0 (mixedWrites shared) with
    | some (h,as) => ⟨h,as :: spaces⟩
    | none => copiedWorld shared
  | [] => copiedWorld shared

lemma copiedWorld_reach : Reach (copiedWorld shared) := by
  have hbind : (initial noHeap).Step 0 (boundWorld shared) :=
    .bindObject (o := smallObject shared) (s := ⟨replicate 16 0,none⟩) rfl rfl
  have hfork : (boundWorld shared).Step 0 (copiedWorld shared) := .fork rfl
  refine .step (.step (.initial noHeap) hbind (.inl rfl)) hfork (.inr fun as has => ?_)
  cases some.inj has
  exact (by decide : 1+1 < 2^32)

def copiedSpace (i : Nat) : AddressSpace := (copiedWorld shared).spaces[i]?.getD .empty

lemma copiedWorld_spaces :
    (copiedWorld shared).spaces = [copiedSpace shared 0,copiedSpace shared 1] := by
  cases shared <;> rfl

lemma writtenWorld_step : (copiedWorld shared).Step 0 (writtenWorld shared) := by
  obtain ⟨⟨h,as⟩,hw⟩ := Option.isSome_iff_exists.mp (by cases shared <;> decide +kernel :
    ((copiedSpace shared 0).writeObject true (copiedWorld shared).heap 0
      (mixedWrites shared)).isSome)
  have hstep := Step.write (W := copiedWorld shared) (i := 0) (by rw [copiedWorld_spaces]; rfl)
    (.inl ⟨⟨0x1000,16⟩,by cases shared <;> exact mem_cons_self⟩) hw
  rw [copiedWorld_spaces] at hstep
  rw [writtenWorld,copiedWorld_spaces]
  simp only [hw]
  exact hstep

theorem copyOnWrite_isolates_small : ∃ as, (copiedWorld false).spaces[1]? = some as ∧
      as.readByte (writtenWorld false).heap 0x1000 = as.readByte (copiedWorld false).heap 0x1000 :=
  ⟨_,rfl,((copyOnWrite_isolates (copiedWorld_reach false)).2 0 _ (writtenWorld_step false) 1 _
    one_ne_zero rfl).2 0x1000 fun r hr => by
      cases some.inj hr
      rfl⟩

/-- If the object is shared with the host, it does. -/
theorem sharedConcrete_not_isolated :
    Reach (copiedWorld true) ∧ (copiedWorld true).Step 0 (writtenWorld true) ∧
      ∃ as, (copiedWorld true).spaces[1]? = some as ∧ (writtenWorld true).spaces[1]? = some as ∧
        as.readByte (copiedWorld true).heap 0x1000 = some (ConstantExpr.alloc 0 8,none) ∧
        as.readByte (writtenWorld true).heap 0x1000 = some (ConstantExpr.alloc 1 8,none) :=
  ⟨copiedWorld_reach true,writtenWorld_step true,_,rfl,rfl,rfl,rfl⟩

end World
end S2E
