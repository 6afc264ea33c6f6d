import S2E.Memory.AddressSpace

/-!
Lookups in an address space: the tree and the cache together are the map from ranges to the
objects that are bound there.
-/

namespace S2E
open List Option Function Nat Bool ObjectKey ImmutableTree

abbrev Bindings := ObjectKey → Option ObjectRef

variable {k : ObjectKey} {address : Nat}

namespace ObjectKey

def Contains (k : ObjectKey) (address : Nat) : Prop :=
  k.address ≤ address ∧ address < k.address+k.size

def Disjoint (k k' : ObjectKey) : Prop :=
  k.address+k.size ≤ k'.address ∨ k'.address+k'.size ≤ k.address

structure Valid (k : ObjectKey) : Prop where
  size_pos : 0 < k.size
  noWrap : k.address+k.size < 2^64

lemma Valid.lt_iff (h : k.Valid) (k' : ObjectKey) : k.lt k' ↔ k.address+k.size ≤ k'.address := by
  simp only [lt,mod_eq_of_lt h.noWrap,decide_eq_true_eq]

lemma Valid.through (h : k.Valid) : Through lt k where
  irrefl := by
    have hpos := h.size_pos
    rw [eq_false_iff,Ne,h.lt_iff]
    omega
  trans := by
    intro a c hak hkc
    rw [h.lt_iff] at hkc
    simp only [lt,decide_eq_true_eq] at hak ⊢
    omega

lemma Valid.lt_or_lt {k k' : ObjectKey} (h : k.Valid) (h' : k'.Valid) :
    k.lt k' ∨ k'.lt k ↔ k.Disjoint k' := by
  rw [h.lt_iff,h'.lt_iff,Disjoint]

lemma Contains.not_disjoint {k k' : ObjectKey} (h : k.Contains address)
    (h' : k'.Contains address) : ¬k.Disjoint k' := by
  obtain ⟨h1,h2⟩ := h
  obtain ⟨h3,h4⟩ := h'
  rintro (hd | hd) <;> omega

end ObjectKey

structure Heap.Extends (h h' : Heap) : Prop where
  keys : ∀ r, r < h.nextObject → (h'.objects r).getKey = (h.objects r).getKey
  next : h.nextObject ≤ h'.nextObject

namespace Heap.Extends

lemma refl (h : Heap) : h.Extends h := ⟨fun _ _ => rfl,le_rfl⟩

lemma trans {h1 h2 h3 : Heap} (h : h1.Extends h2) (h' : h2.Extends h3) : h1.Extends h3 :=
  ⟨fun r hr => (h'.keys r (lt_of_lt_of_le hr h.next)).trans (h.keys r hr),h.next.trans h'.next⟩

lemma setOwnerId (h : Heap) (r : ObjectRef) (id : Nat) : h.Extends (h.setOwnerId r id) := by
  refine ⟨fun r' _ => ?_,le_rfl⟩
  by_cases hr : r' = r
  · subst hr
    simp [Heap.setOwnerId,ObjectState.getKey]
  · simp [Heap.setOwnerId,update_of_ne hr]

lemma allocObject (h : Heap) (o : ObjectState StoreRef) : h.Extends (h.allocObject o).2 := by
  refine ⟨fun r hr => ?_,Nat.le_succ _⟩
  simp [Heap.allocObject,update_of_ne (Nat.ne_of_lt hr)]

lemma allocStore (h : Heap) (s : ConcreteStore) : h.Extends (h.allocStore s).2 :=
  ⟨fun _ _ => rfl,le_rfl⟩

lemma initializeConcreteMask (h : Heap) (r : ObjectRef) :
    h.Extends (h.initializeConcreteMask r) := ⟨fun _ _ => rfl,le_rfl⟩

end Heap.Extends

structure Heap.Allocates (h : Heap) (key : ObjectKey) (w : ObjectRef) (h' : Heap) : Prop where
  ext : h.Extends h'
  fresh : h.nextObject ≤ w
  lt : w < h'.nextObject
  key : (h'.objects w).getKey = key

variable {key : ObjectKey} {w : ObjectRef} {store : StoreRef}

namespace Heap

lemma allocObject_allocates (h : Heap) (o : ObjectState StoreRef)
    (hkey : o.getKey = key) : h.Allocates key (h.allocObject o).1 (h.allocObject o).2 := by
  refine ⟨.allocObject h o,le_rfl,lt_succ_self _,?_⟩
  simpa [allocObject,ObjectState.getKey] using hkey

lemma copy_allocates {h h' : Heap} {r : ObjectRef} (hc : h.copy r = some (w,h')) :
    h.Allocates (h.objects r).getKey w h' := by
  simp only [copy] at hc
  split at hc
  · cases hc
  obtain ⟨rfl,rfl⟩ := Prod.ext_iff.mp (some.inj hc)
  obtain ⟨ext,fresh,lt,key⟩ := allocObject_allocates (h.allocStore (h.stores (h.objects r).store)).2
    {h.objects r with store := (h.allocStore (h.stores (h.objects r).store)).1} rfl
  exact ⟨(Extends.allocStore h _).trans ext,fresh,lt,key⟩

lemma copyWith_allocates {h h' : Heap} {r : ObjectRef}
    (hc : h.copyWith r store = some (w,h')) : h.Allocates (h.objects r).getKey w h' := by
  simp only [copyWith] at hc
  split at hc
  · cases hc
  · obtain ⟨rfl,rfl⟩ := Prod.ext_iff.mp (some.inj hc)
    exact allocObject_allocates h _ rfl

lemma split_allocates {h h' : Heap} {r : ObjectRef} {offset newSize : Nat}
    {hsize : newSize < 2^32} (hc : h.split r offset newSize hsize = some (w,h')) :
    h.Allocates ⟨(h.objects r).address+offset,newSize⟩ w h' ∧
      offset+newSize ≤ (h.objects r).size := by
  simp only [split] at hc
  split at hc
  next hall =>
    obtain ⟨rfl,rfl⟩ := Prod.ext_iff.mp (some.inj hc)
    exact ⟨allocObject_allocates h _ rfl,hall.2.2.1⟩
  · cases hc

end Heap

variable {rs : List ObjectRef} {is : List Nat}

namespace AddressSpace

def bindings (as : AddressSpace) : Bindings := fun k =>
  (as.objects.toList.find? fun x => x.1 = k).map Prod.snd

structure Holds (as : AddressSpace) (h : Heap) (B : Bindings) : Prop where
  ordered : as.objects.Ordered lt
  bound : ∀ k r, (k,r) ∈ as.objects.toList ↔ B k = some r
  valid : ∀ k r, B k = some r → k.Valid ∧ (h.objects r).getKey = k ∧ r < h.nextObject
  cache : ∀ slot r, as.cache slot = some r → ∃ k, B k = some r ∧ Cache.hash k.address = slot

lemma empty_holds (h : Heap) : empty.Holds h fun _ => none :=
  ⟨⟨.nil,by simp [empty,ImmutableTree.toList]⟩,by simp [empty,ImmutableTree.toList],
    nofun,nofun⟩

variable {r : ObjectRef}

namespace Holds
variable {as : AddressSpace} {h : Heap} {B : Bindings}

section
variable (hh : as.Holds h B)
include hh

lemma bindings_eq : as.bindings = B := by
  funext k
  unfold bindings
  cases hf : as.objects.toList.find? fun x => x.1 = k with
  | some x =>
    obtain ⟨k',r⟩ := x
    have hk : k' = k := by simpa using find?_some hf
    subst hk
    exact ((hh.bound _ _).mp (mem_of_find?_eq_some hf)).symm
  | none =>
    cases hB : B k with
    | none => rfl
    | some r =>
      have := find?_eq_none.mp hf (k,r) ((hh.bound k r).mpr hB)
      simp at this

lemma extends_ {h' : Heap} (he : h.Extends h') : as.Holds h' B where
  ordered := hh.ordered
  bound := hh.bound
  valid := fun k r hB => by
    obtain ⟨hv,hk,hr⟩ := hh.valid k r hB
    exact ⟨hv,(he.keys r hr).trans hk,lt_of_lt_of_le hr he.next⟩
  cache := hh.cache

lemma disjoint {k k' : ObjectKey} {r r' : ObjectRef} (hk : B k = some r)
    (hk' : B k' = some r') (hne : k ≠ k') : k.Disjoint k' := by
  have hsymm : ∀ ⦃x⦄, x ∈ as.objects.toList → ∀ ⦃y⦄, y ∈ as.objects.toList →
      x.1 = y.1 ∨ x.1.lt y.1 ∨ y.1.lt x.1 :=
    List.Pairwise.forall_of_forall_of_flip (fun x _ => .inl rfl)
      (hh.ordered.pairwise.imp fun h => .inr (.inl h))
      (hh.ordered.pairwise.imp fun h => .inr (.inr h))
  rcases hsymm ((hh.bound k r).mpr hk) ((hh.bound k' r').mpr hk') with h | h
  · exact absurd h hne
  · exact ((hh.valid k r hk).1.lt_or_lt (hh.valid k' r' hk').1).mp h

lemma unique {k k' : ObjectKey} {r r' : ObjectRef}
    (hk : B k = some r) (hk' : B k' = some r') (hc : k.Contains address)
    (hc' : k'.Contains address) : k = k' := by
  by_contra hne
  exact hc.not_disjoint hc' (hh.disjoint hk hk' hne)

lemma fits (hv : k.Valid)
    (hk : ∀ k', (B k').isSome → k'.Disjoint k ∨ k' = k) : as.objects.Fits lt k := by
  rintro ⟨k',r⟩ hx
  have hB := (hh.bound k' r).mp hx
  rcases hk k' (by simp [hB]) with hd | rfl
  · rcases ((hh.valid k' r hB).1.lt_or_lt hv).mpr hd with hlt | hlt
    · exact .inr (.inl hlt)
    · exact .inl hlt
  · exact .inr (.inr rfl)

lemma fits_bound (hk : B k = some r) : as.objects.Fits lt k := by
  refine hh.fits (hh.valid k r hk).1 fun k' hk' => ?_
  obtain ⟨r',hr'⟩ := isSome_iff_exists.mp hk'
  by_cases hne : k' = k
  · exact .inr hne
  · exact .inl (hh.disjoint hr' hk hne)

lemma cacheAdd (hk : B k = some r) : (as.cacheAdd h r).Holds h B where
  ordered := hh.ordered
  bound := hh.bound
  valid := hh.valid
  cache := fun slot r' hr' => by
    have haddr : (h.objects r).address = k.address := congrArg address (hh.valid k r hk).2.1
    simp only [AddressSpace.cacheAdd,update_apply] at hr'
    split at hr'
    next hslot =>
      cases some.inj hr'
      exact ⟨k,hk,by rw [hslot,haddr]⟩
    · exact hh.cache slot r' hr'

lemma mapObject (hv : k.Valid) (hkey : (h.objects r).getKey = k) (hr : r < h.nextObject)
    (hk : as.objects.Fits lt k) : (as.mapObject h k r).Holds h (update B k (some r)) where
  ordered := ordered_replace hh.ordered hk hv.through
  bound := fun k' r' => by
    refine (mem_replace hh.ordered (v := (k,r)) hk hv.through (k',r')).trans ?_
    rw [hh.bound,update_apply,Prod.mk.injEq]
    by_cases h' : k' = k
    · simp [h',eq_comm]
    · simp [h']
  valid := fun k' r' hB => by
    rw [update_apply] at hB
    split at hB
    next h' =>
      cases some.inj hB
      subst h'
      exact ⟨hv,hkey,hr⟩
    · exact hh.valid k' r' hB
  cache := fun slot r' hr' => by
    have haddr : (h.objects r).address = k.address := congrArg address hkey
    simp only [AddressSpace.mapObject,AddressSpace.cacheAdd,update_apply] at hr'
    split at hr'
    next hslot =>
      cases some.inj hr'
      exact ⟨k,by simp,by rw [hslot,haddr]⟩
    rename_i hslot
    obtain ⟨k',hB,hhash⟩ := hh.cache slot r' hr'
    have hne : k' ≠ k := by
      rintro rfl
      exact hslot (by rw [haddr,hhash])
    exact ⟨k',by rw [update_of_ne hne]; exact hB,hhash⟩

lemma unmapObject (hk : B k = some r) :
    ({as with objects := as.objects.remove lt k}.cacheInvalidate k.address).Holds h
      (update B k none) where
  ordered := ordered_remove hh.ordered (hh.fits_bound hk) (hh.valid k r hk).1.through
  bound := fun k' r' => by
    refine (mem_remove hh.ordered (hh.fits_bound hk) (hh.valid k r hk).1.through (k',r')).trans ?_
    rw [hh.bound,update_apply]
    by_cases h' : k' = k <;> simp [h']
  valid := fun k' r' hB => by
    rw [update_apply] at hB
    split at hB
    · cases hB
    · exact hh.valid k' r' hB
  cache := fun slot r' hr' => by
    simp only [cacheInvalidate,update_apply] at hr'
    split at hr'
    · cases hr'
    rename_i hslot
    obtain ⟨k',hB,hhash⟩ := hh.cache slot r' hr'
    have hne : k' ≠ k := by
      rintro rfl
      exact hslot hhash.symm
    exact ⟨k',by rw [update_of_ne hne]; exact hB,hhash⟩

lemma cacheGet
    (hr : as.cacheGet h address = some r) : ∃ k, B k = some r ∧ k.address = address := by
  obtain ⟨hc,haddr⟩ := filter_eq_some_iff.mp hr
  obtain ⟨k,hB,-⟩ := hh.cache _ _ hc
  refine ⟨k,hB,?_⟩
  rw [← (hh.valid k r hB).2.1]
  exact of_decide_eq_true haddr

lemma lookup (ha : address < 2^64) : match as.objects.lookup lt ⟨address,1⟩ with
    | some (k,r) => B k = some r ∧ k.Contains address
    | none => ∀ k r, B k = some r → ¬k.Contains address := by
  have hvalid : ∀ x ∈ as.objects.toList, x.1.Valid := fun x hx =>
    (hh.valid x.1 x.2 ((hh.bound _ _).mp hx)).1
  by_cases hlast : address+1 = 2^64
  · -- the key wraps, so that it is below every other
    have hlt : ∀ k', lt ⟨address,1⟩ k' := fun k' => by
      simp [lt,hlast]
    rw [lookup_of_lt fun x _ => hlt x.1]
    intro k r hB hc
    have hwrap := (hh.valid k r hB).1.noWrap
    have hle := hc.2
    omega
  have hv : Valid ⟨address,1⟩ := ⟨one_pos,by dsimp only; omega⟩
  have hdiv : WeakOrder.Divides lt Prod.fst ⟨address,1⟩ as.objects.toList := by
    refine ⟨hh.ordered.pairwise.imp_of_mem fun hx _ hlt => ?_,fun x hx hlt => ?_⟩
    · rw [(hvalid _ hx).lt_iff] at hlt ⊢
      rw [hv.lt_iff]
      dsimp only
      omega
    · rw [(hvalid x hx).lt_iff] at hlt
      rw [eq_false_iff,Ne,hv.lt_iff]
      have := (hvalid x hx).size_pos
      dsimp only at hlt ⊢
      omega
  have hsame : ∀ x ∈ as.objects.toList, x ∈ WeakOrder.same lt Prod.fst ⟨address,1⟩
      as.objects.toList ↔ x.1.Contains address := fun x hx => by
    rw [WeakOrder.mem_same,eq_false_iff,Ne,(hvalid x hx).lt_iff,eq_false_iff,Ne,
      hv.lt_iff,Contains]
    dsimp only
    rw [and_iff_right hx]
    omega
  rw [lookup_eq hdiv]
  cases hl : (WeakOrder.same lt Prod.fst ⟨address,1⟩ as.objects.toList).head? with
  | some x =>
    have hmem := mem_of_head? hl
    have hx := (WeakOrder.mem_same.mp hmem).1
    exact ⟨(hh.bound _ _).mp hx,(hsame x hx).mp hmem⟩
  | none =>
    intro k r hB hc
    have hx := (hh.bound k r).mpr hB
    have := (hsame _ hx).mpr hc
    simp [head?_eq_none_iff.mp hl] at this

lemma findObject (ha : address < 2^64) : (as.findObject h address).2.Holds h B ∧
      ∀ r, (as.findObject h address).1 = some r ↔ ∃ k, B k = some r ∧ k.Contains address := by
  have hone : ∀ {k r}, B k = some r → k.Contains address → ∀ r',
      some r = some r' ↔ ∃ k', B k' = some r' ∧ k'.Contains address := by
    intro k r hB hc r'
    constructor
    · intro hr
      exact ⟨k,hB.trans hr,hc⟩
    · rintro ⟨k',hB',hc'⟩
      rw [← hB,hh.unique hB hB' hc hc',hB']
  unfold AddressSpace.findObject
  cases hcache : as.cacheGet h address with
  | some r =>
    obtain ⟨k,hB,haddr⟩ := hh.cacheGet hcache
    have hpos := (hh.valid k r hB).1.size_pos
    exact ⟨hh,hone hB ⟨haddr.le,by omega⟩⟩
  | none =>
    have hl := hh.lookup ha
    cases hlook : as.objects.lookup lt ⟨address,1⟩ with
    | some x =>
      obtain ⟨k,r⟩ := x
      rw [hlook] at hl
      exact ⟨hh.cacheAdd hl.1,hone hl.1 hl.2⟩
    | none =>
      rw [hlook] at hl
      refine ⟨hh,fun r => ⟨nofun,?_⟩⟩
      rintro ⟨k,hB,hc⟩
      exact absurd hc (hl k r hB)

end
end Holds

section Operations
variable {as as' : AddressSpace} {h h' : Heap} {B : Bindings}

lemma bindObject_holds (hh : as.Holds h B) (hr : r < h.nextObject)
    (hv : (h.objects r).getKey.Valid)
    (hk : ∀ k', (B k').isSome → k'.Disjoint (h.objects r).getKey ∨ k' = (h.objects r).getKey)
    (hb : as.bindObject h r = some (h',as')) :
    as'.Holds h' (update B (h.objects r).getKey (some r)) ∧ h.Extends h' := by
  have hf := (hh.findObject (lt_of_le_of_lt (le_add_right _ _) hv.noWrap)).1
  have hext := Heap.Extends.setOwnerId h r (as.findObject h (h.objects r).getKey.address).2.cowKey
  simp only [bindObject] at hb
  split at hb
  · split at hb
    · cases some.inj hb
      exact ⟨(hf.extends_ hext).mapObject hv (hext.keys r hr) hr (hf.fits hv hk),hext⟩
    · cases hb
  · cases hb

lemma unbindObject_holds (hh : as.Holds h B)
    (hk : B k = some r) (hu : as.unbindObject h k = some as') : as'.Holds h (update B k none) := by
  obtain ⟨hv,hkey,-⟩ := hh.valid k r hk
  have haddr : k.address < 2^64 := lt_of_le_of_lt (le_add_right _ _) hv.noWrap
  obtain ⟨hf,hres⟩ := hh.findObject haddr
  have hfind : (as.findObject h k.address).1 = some r :=
    (hres r).mpr ⟨k,hk,le_rfl,Nat.lt_add_of_pos_right hv.size_pos⟩
  simp only [unbindObject] at hu
  split at hu
  · cases hfo : as.findObject h k.address with
    | mk res as1 =>
      rw [hfo] at hu hf hfind
      cases hfind
      simp only at hu
      split at hu
      · cases some.inj hu
        have : (h.objects r).address = k.address := congrArg address hkey
        rw [this]
        exact hf.unmapObject hk
      · cases hu
  · cases hu

lemma updateWritable_holds (hh : as.Holds h B) {r0 r : ObjectRef}
    (hk : B k = some r0) (hrkey : (h.objects r).getKey = k) (hr : r < h.nextObject)
    (hkey : (h.objects w).getKey = k) (hw : w < h.nextObject) :
    (as.updateWritable h r w).2.Holds (as.updateWritable h r w).1
      (update B k (some w)) ∧ h.Extends (as.updateWritable h r w).1 := by
  have hext := Heap.Extends.setOwnerId h w as.cowKey
  have hold := (hh.extends_ hext).mapObject (hh.valid k r0 hk).1 ((hext.keys w hw).trans hkey) hw
    (hh.fits_bound hk)
  refine ⟨?_,hext⟩
  rw [updateWritable,hext.keys r hr,hrkey]
  exact hold

structure Rewrites (B B' : Bindings) (k : ObjectKey) (w : ObjectRef) : Prop where
  keys : ∀ k', (B' k').isSome = (B k').isSome
  here : B' k = some w

lemma isSome_update (hk : (B k).isSome) (w : ObjectRef) (k' : ObjectKey) :
    (update B k (some w) k').isSome = (B k').isSome := by
  rw [update_apply]
  split
  next h' =>
    rw [h',hk]
    rfl
  · rfl

lemma getWriteableInternal_update (hh : as.Holds h B) {r : ObjectRef}
    (hk : B k = some r) (hg : as.getWriteableInternal h r = some (w,h',as')) :
    as'.Holds h' (update B k (some w)) ∧ h.Extends h' := by
  obtain ⟨-,hkey,hr⟩ := hh.valid k r hk
  unfold getWriteableInternal at hg
  cases hc : h.copy r with
  | none => simp [hc] at hg
  | some p =>
    obtain ⟨w1,h1⟩ := p
    simp only [hc,bind_eq_bind,bind_some] at hg
    obtain ⟨rfl,hg⟩ := Prod.ext_iff.mp (some.inj hg)
    obtain ⟨rfl,rfl⟩ := Prod.ext_iff.mp hg
    have ha := Heap.copy_allocates hc
    have hup := updateWritable_holds (hh.extends_ ha.ext) hk ((ha.ext.keys r hr).trans hkey)
      (lt_of_lt_of_le hr ha.ext.next) (ha.key.trans hkey) ha.lt
    exact ⟨hup.1,ha.ext.trans hup.2⟩

lemma getWriteableInternal_holds (hh : as.Holds h B) {r : ObjectRef}
    (hk : B k = some r) (hg : as.getWriteableInternal h r = some (w,h',as')) :
    ∃ B', as'.Holds h' B' ∧ Rewrites B B' k w ∧ h.Extends h' := by
  obtain ⟨hholds,hext⟩ := getWriteableInternal_update hh hk hg
  exact ⟨_,hholds,⟨isSome_update (by simp [hk]) _,by simp⟩,hext⟩

lemma findPieces_holds {fuel size : Nat} (hh : as.Holds h B) (ha : address < 2^64)
    (hf : findPieces h fuel as address size = some (rs,as')) :
    as'.Holds h B ∧ ∀ r ∈ rs, ∃ k, B k = some r := by
  induction fuel generalizing as address size rs with
  | zero => cases hf
  | succ fuel ih =>
    obtain ⟨hfo,hres⟩ := hh.findObject ha
    rw [findPieces] at hf
    cases hfind : as.findObject h address with
    | mk res as1 =>
      rw [hfind] at hf hfo hres
      cases res with
      | none => cases hf
      | some r =>
        obtain ⟨k,hk,-⟩ := (hres r).mp rfl
        simp only [] at hf
        split at hf
        · cases hf
        split at hf
        · cases some.inj hf
          exact ⟨hfo,fun r' hr' => ⟨k,by rw [mem_singleton.mp hr']; exact hk⟩⟩
        obtain ⟨⟨rs',as2⟩,hrec,hrest⟩ := bind_eq_some_iff.mp hf
        cases some.inj hrest
        obtain ⟨hold,hall⟩ := ih hfo (mod_lt _ (by decide)) hrec
        refine ⟨hold,fun r' hr' => ?_⟩
        rcases mem_cons.mp hr' with rfl | hr'
        · exact ⟨k,hk⟩
        · exact hall r' hr'

lemma copyPieces_holds {B0 : Bindings} {os : ObjectRef} {ret : Option ObjectRef}
    (hos : B0 key = some os)
    (hoskey : (h.objects os).getKey = key) (hlt : os < h.nextObject) (hh : as.Holds h B)
    (hkeys : ∀ k, (B k).isSome = (B0 k).isSome)
    (hrs : ∀ r ∈ rs, ∃ k, B0 k = some r ∧ (h.objects r).getKey = k ∧ r < h.nextObject)
    (hret : ∀ w, ret = some w → B key = some w)
    (hc : copyPieces os store rs ret h as = some (w,h',as')) :
    ∃ B', as'.Holds h' B' ∧ Rewrites B0 B' key w ∧ h.Extends h' := by
  induction rs generalizing B ret h as with
  | nil =>
    cases ret with
    | none => cases hc
    | some w' =>
      cases some.inj hc
      exact ⟨B,hh,⟨hkeys,hret _ rfl⟩,.refl _⟩
  | cons r rs ih =>
    obtain ⟨k,hk,hkey,hr⟩ := hrs r mem_cons_self
    rw [copyPieces] at hc
    obtain ⟨⟨w1,h1⟩,hcopy,hrest⟩ := bind_eq_some_iff.mp hc
    have ha := Heap.copyWith_allocates hcopy
    have hsome : (B k).isSome := by rw [hkeys,hk]; rfl
    obtain ⟨r0,hr0⟩ := isSome_iff_exists.mp hsome
    obtain ⟨hold,hext⟩ := updateWritable_holds (hh.extends_ ha.ext) hr0
      ((ha.ext.keys r hr).trans hkey) (lt_of_lt_of_le hr ha.ext.next) (ha.key.trans hkey) ha.lt
    have hext := ha.ext.trans hext
    obtain ⟨B',hold',hrew,hext'⟩ := ih ((hext.keys os hlt).trans hoskey)
      (lt_of_lt_of_le hlt hext.next) hold
      (fun k' => (isSome_update hsome w1 k').trans (hkeys k'))
      (fun r' hr' => by
        obtain ⟨k',hk',hkey',hlt'⟩ := hrs r' (mem_cons_of_mem _ hr')
        exact ⟨k',hk',(hext.keys r' hlt').trans hkey',lt_of_lt_of_le hlt' hext.next⟩)
      (fun w' hw' => by
        split at hw'
        next hr' =>
          cases some.inj hw'
          have : k = key := by rw [← hkey,hr',hoskey]
          simp [this]
        next hr' =>
          have : key ≠ k := by
            rintro rfl
            exact hr' (some.inj (hk.symm.trans hos))
          rw [update_of_ne this]
          exact hret w' hw') hrest
    exact ⟨B',hold',hrew,hext.trans hext'⟩

lemma getWriteable_holds (hh : as.Holds h B) {r : ObjectRef}
    (hk : B k = some r) (hg : as.getWriteable h r = some (w,h',as')) :
    ∃ B', as'.Holds h' B' ∧ Rewrites B B' k w ∧ h.Extends h' := by
  obtain ⟨hv,hkey,hr⟩ := hh.valid k r hk
  simp only [getWriteable] at hg
  split at hg
  · cases hg
  split at hg
  · cases some.inj hg
    exact ⟨B,hh,⟨fun _ => rfl,hk⟩,.refl _⟩
  split at hg
  · split at hg
    · exact getWriteableInternal_holds hh hk hg
    · cases hg
  split at hg
  · obtain ⟨⟨pieces,as1⟩,hf,hrest⟩ := bind_eq_some_iff.mp hg
    obtain ⟨hold,hall⟩ := findPieces_holds hh (mod_lt _ (by decide)) hf
    simp only [] at hrest
    split at hrest
    · have hext := Heap.Extends.allocStore h (h.stores (h.objects r).store)
      obtain ⟨B',hold',hrew,hext'⟩ := copyPieces_holds
        (h := (h.allocStore (h.stores (h.objects r).store)).2) hk hkey hr (hold.extends_ hext)
        (fun _ => rfl)
        (fun r' hr' => by
          obtain ⟨k',hk'⟩ := hall r' hr'
          exact ⟨k',hk',(hh.valid k' r' hk').2⟩) (by intro w' hw'; cases hw') hrest
      exact ⟨B',hold',hrew,hext.trans hext'⟩
    · cases hrest
  · cases hg

def pieceKey (k : ObjectKey) (i : Nat) : ObjectKey := ⟨k.address+i*128,128⟩

lemma pieceKey_disjoint (k : ObjectKey) {i j : Nat} (h : i ≠ j) :
    (pieceKey k i).Disjoint (pieceKey k j) := by
  simp only [ObjectKey.Disjoint,pieceKey]
  omega

lemma pieceKey_ne (k : ObjectKey) {i j : Nat} (h : i ≠ j) : pieceKey k i ≠ pieceKey k j := by
  simp only [pieceKey,ne_eq,ObjectKey.mk.injEq]
  omega

structure IsPiece (h : Heap) (k : ObjectKey) (i : Nat) (r : ObjectRef) : Prop where
  key : (h.objects r).getKey = pieceKey k i
  lt : r < h.nextObject
  inside : i*128+128 ≤ k.size

lemma IsPiece.extends_ {i : Nat} (hp : IsPiece h k i r) (he : h.Extends h') : IsPiece h' k i r :=
  ⟨(he.keys r hp.lt).trans hp.key,lt_of_lt_of_le hp.lt he.next,hp.inside⟩

lemma splitPieces_spec (hkey : (h.objects w).getKey = k) (hw : w < h.nextObject)
    (hs : splitPieces w is h = some (rs,h')) :
    h.Extends h' ∧ List.Forall₂ (IsPiece h' k) is rs := by
  induction is generalizing h rs with
  | nil =>
    cases some.inj hs
    exact ⟨.refl _,.nil⟩
  | cons i is ih =>
    rw [splitPieces] at hs
    obtain ⟨⟨r,h1⟩,⟨rs',h2⟩,hsplit,hrec,hfin⟩ := bind_bind_eq_some hs
    cases some.inj hfin
    obtain ⟨ha,hin⟩ := Heap.split_allocates hsplit
    obtain ⟨hext,hall⟩ := ih ((ha.ext.keys w hw).trans hkey)
      (lt_of_lt_of_le hw ha.ext.next) hrec
    subst hkey
    exact ⟨ha.ext.trans hext,.cons (IsPiece.extends_ ⟨ha.key,ha.lt,hin⟩ hext) hall⟩

lemma bindObjects_holds (hv : k.Valid)
    (hh : as.Holds h B) (hrs : List.Forall₂ (IsPiece h k) is rs) (hnodup : is.Nodup)
    (hfree : ∀ i ∈ is, ∀ k', (B k').isSome → k'.Disjoint (pieceKey k i))
    (hb : bindObjects rs h as = some (h',as')) : ∃ B', as'.Holds h' B' ∧ h.Extends h' ∧
      List.Forall₂ (fun i r => B' (pieceKey k i) = some r) is rs ∧
      ∀ k', (∀ i ∈ is, k' ≠ pieceKey k i) → B' k' = B k' := by
  induction is generalizing h as B rs with
  | nil =>
    cases hrs
    cases some.inj hb
    exact ⟨B,hh,.refl _,.nil,fun _ _ => rfl⟩
  | cons i is ih =>
    obtain ⟨r,rs,hp,hps,rfl⟩ := forall₂_cons_left_iff.mp hrs
    obtain ⟨hi,hnodup⟩ := nodup_cons.mp hnodup
    rw [bindObjects] at hb
    obtain ⟨⟨h1,as1⟩,hbind,hrest⟩ := bind_eq_some_iff.mp hb
    have hpv : (pieceKey k i).Valid := by
      have h1 := hv.noWrap
      have h2 := hp.inside
      refine ⟨succ_pos _,?_⟩
      simp only [pieceKey]
      omega
    obtain ⟨hold,hext⟩ := bindObject_holds hh hp.lt (hp.key ▸ hpv)
      (fun k' hk' => .inl (hp.key ▸ hfree i mem_cons_self k' hk')) hbind
    rw [hp.key] at hold
    have hne : ∀ j ∈ is, i ≠ j := fun j hj hij => hi (hij ▸ hj)
    obtain ⟨B',hold',hext',hparts,hothers⟩ := ih hold
      (hps.imp fun _ _ h => h.extends_ hext) hnodup
      (fun j hj k' hk' => by
        rw [update_apply] at hk'
        split at hk'
        next heq =>
          exact heq ▸ pieceKey_disjoint k (hne j hj)
        · exact hfree j (mem_cons_of_mem _ hj) k' hk') hrest
    refine ⟨B',hold',hext.trans hext',.cons ?_ hparts,fun k' hk' => ?_⟩
    · rw [hothers _ fun j hj => pieceKey_ne k (hne j hj),update_self]
    · rw [hothers k' fun j hj => hk' j (mem_cons_of_mem _ hj),update_of_ne (hk' i mem_cons_self)]

structure Splits (B B' : Bindings) (k : ObjectKey) (pieces : List ObjectRef) : Prop where
  gone : B' k = none
  parts : List.Forall₂ (fun i r => B' (pieceKey k i) = some r) (range 32) pieces
  others : ∀ k', k' ≠ k → (∀ i < 32, k' ≠ pieceKey k i) → (B' k').isSome = (B k').isSome

lemma splitMemoryObject_holds (hh : as.Holds h B) {pieces : List ObjectRef} (hk : B k = some r)
    (hs : as.splitMemoryObject h r = some (pieces,h',as')) :
    ∃ B', as'.Holds h' B' ∧ h.Extends h' ∧ (pieces = [] ∧ B' = B ∨ Splits B B' k pieces) := by
  obtain ⟨hv,hkey,hr⟩ := hh.valid k r hk
  simp only [splitMemoryObject] at hs
  split at hs
  · cases some.inj hs
    exact ⟨B,hh,.refl _,.inl ⟨rfl,rfl⟩⟩
  rename_i hpage
  have hsize : k.size = pageSize := by
    rw [← hkey]
    exact not_not.mp (not_or.mp hpage).1
  obtain ⟨⟨w,h1,as1⟩,⟨rs,h2⟩,hg,hsp,hs⟩ := bind_bind_eq_some hs
  obtain ⟨as2,⟨h3,as3⟩,hu,hb,hs⟩ := bind_bind_eq_some hs
  cases some.inj hs
  obtain ⟨B1,hold1,hrew,hext1⟩ := getWriteable_holds hh hk hg
  obtain ⟨-,hwkey,hwlt⟩ := hold1.valid k w hrew.here
  have hinit := Heap.Extends.initializeConcreteMask h1 w
  obtain ⟨hext2,hpieces⟩ := splitPieces_spec ((hinit.keys w hwlt).trans hwkey)
    (lt_of_lt_of_le hwlt hinit.next) hsp
  rw [hkey] at hu
  have hold2 := unbindObject_holds (hold1.extends_ (hinit.trans hext2)) hrew.here hu
  have hfree : ∀ i ∈ range 32, ∀ k', (update B1 k none k').isSome → k'.Disjoint (pieceKey k i) := by
    intro i hi k' hk'
    rw [update_apply] at hk'
    split at hk'
    · cases hk'
    rename_i hne
    obtain ⟨r',hr'⟩ := isSome_iff_exists.mp hk'
    have hd := hold1.disjoint hr' hrew.here hne
    have hi := mem_range.mp hi
    rw [pageSize] at hsize
    simp only [ObjectKey.Disjoint,pieceKey] at hd ⊢
    omega
  obtain ⟨B3,hold3,hext3,hparts,hothers⟩ := bindObjects_holds hv hold2 hpieces
    nodup_range hfree hb
  refine ⟨B3,hold3,((hext1.trans hinit).trans hext2).trans hext3,.inr ⟨?_,hparts,?_⟩⟩
  · rw [hothers k fun i _ => ?_,update_self]
    intro heq
    have := congrArg ObjectKey.size heq
    rw [hsize] at this
    cases this
  · intro k' hne hpk
    rw [hothers k' fun i hi => hpk i (mem_range.mp hi),update_of_ne hne]
    exact hrew.keys k'

end Operations

/-- The states of an address space that starts empty. Objects are allocated and written to in
between, and the objects that are handed over are bound. -/
inductive Reach : Heap → AddressSpace → Prop
  | empty (h : Heap) : Reach h empty
  | heap {h h' : Heap} {as : AddressSpace} : Reach h as → h.Extends h' → Reach h' as
  | findObject {h : Heap} {as : AddressSpace} {address : Nat} : Reach h as → address < 2^64 →
      Reach h (as.findObject h address).2
  | bindObject {h h' : Heap} {as as' : AddressSpace} {r : ObjectRef} : Reach h as →
      r < h.nextObject → (h.objects r).getKey.Valid →
      (∀ k', (as.bindings k').isSome →
        k'.Disjoint (h.objects r).getKey ∨ k' = (h.objects r).getKey) →
      as.bindObject h r = some (h',as') → Reach h' as'
  | unbindObject {h : Heap} {as as' : AddressSpace} {k : ObjectKey} {r : ObjectRef} :
      Reach h as → as.bindings k = some r → as.unbindObject h k = some as' → Reach h as'
  | getWriteable {h h' : Heap} {as as' : AddressSpace} {k : ObjectKey} {r w : ObjectRef} :
      Reach h as → as.bindings k = some r → as.getWriteable h r = some (w,h',as') →
      Reach h' as'
  | splitMemoryObject {h h' : Heap} {as as' : AddressSpace} {k : ObjectKey} {r : ObjectRef}
      {pieces : List ObjectRef} : Reach h as → as.bindings k = some r →
      as.splitMemoryObject h r = some (pieces,h',as') → Reach h' as'

lemma Reach.holds {h : Heap} {as : AddressSpace} (hr : Reach h as) : as.Holds h as.bindings := by
  suffices hB : ∃ B, as.Holds h B by
    obtain ⟨B,hB⟩ := hB
    exact hB.bindings_eq ▸ hB
  induction hr with
  | empty h => exact ⟨_,empty_holds h⟩
  | heap _ he ih =>
    obtain ⟨B,hB⟩ := ih
    exact ⟨B,hB.extends_ he⟩
  | findObject _ ha ih =>
    obtain ⟨B,hB⟩ := ih
    exact ⟨B,(hB.findObject ha).1⟩
  | bindObject _ hlt hv hk hb ih =>
    obtain ⟨B,hB⟩ := ih
    exact ⟨_,(bindObject_holds hB hlt hv (hB.bindings_eq ▸ hk) hb).1⟩
  | unbindObject _ hk hu ih =>
    obtain ⟨B,hB⟩ := ih
    exact ⟨_,unbindObject_holds hB (hB.bindings_eq ▸ hk) hu⟩
  | getWriteable _ hk hg ih =>
    obtain ⟨B,hB⟩ := ih
    obtain ⟨B',hB',-⟩ := getWriteable_holds hB (hB.bindings_eq ▸ hk) hg
    exact ⟨B',hB'⟩
  | splitMemoryObject _ hk hs ih =>
    obtain ⟨B,hB⟩ := ih
    obtain ⟨B',hB',-⟩ := splitMemoryObject_holds hB (hB.bindings_eq ▸ hk) hs
    exact ⟨B',hB'⟩

/-- Lookups agree with the bindings, the cache has nothing else, and the operations change the
bindings as they should. -/
structure Agrees (h : Heap) (as : AddressSpace) : Prop where
  lookup : ∀ address < 2^64, ∀ r, (as.findObject h address).1 = some r ↔
    ∃ k, as.bindings k = some r ∧ (h.objects r).getKey = k ∧ k.Contains address
  cached : ∀ address r, as.cacheGet h address = some r → as.bindings (h.objects r).getKey = some r
  findObject : ∀ address < 2^64, (as.findObject h address).2.bindings = as.bindings
  bindObject : ∀ r h' as', r < h.nextObject → (h.objects r).getKey.Valid →
    (∀ k', (as.bindings k').isSome → k'.Disjoint (h.objects r).getKey ∨ k' = (h.objects r).getKey) →
    as.bindObject h r = some (h',as') →
    as'.bindings = update as.bindings (h.objects r).getKey (some r)
  unbindObject : ∀ k r as', as.bindings k = some r → as.unbindObject h k = some as' →
    as'.bindings = update as.bindings k none
  getWriteable : ∀ k r w h' as', as.bindings k = some r →
    as.getWriteable h r = some (w,h',as') → Rewrites as.bindings as'.bindings k w
  splitMemoryObject : ∀ k r pieces h' as', as.bindings k = some r →
    as.splitMemoryObject h r = some (pieces,h',as') →
    pieces = [] ∧ as'.bindings = as.bindings ∨ Splits as.bindings as'.bindings k pieces

theorem findObject_agrees {h : Heap} {as : AddressSpace} (hr : Reach h as) : Agrees h as where
  lookup := fun address ha r => by
    rw [(hr.holds.findObject ha).2 r]
    exact exists_congr fun k =>
      ⟨fun ⟨hB,hc⟩ => ⟨hB,(hr.holds.valid k r hB).2.1,hc⟩,fun ⟨hB,_,hc⟩ => ⟨hB,hc⟩⟩
  cached := fun address r hc => by
    obtain ⟨k,hB,-⟩ := hr.holds.cacheGet hc
    rw [(hr.holds.valid k r hB).2.1]
    exact hB
  findObject := fun _ ha => (hr.holds.findObject ha).1.bindings_eq
  bindObject := fun _ _ _ hlt hv hk hb => (bindObject_holds hr.holds hlt hv hk hb).1.bindings_eq
  unbindObject := fun _ _ _ hk hu => (unbindObject_holds hr.holds hk hu).bindings_eq
  getWriteable := fun _ _ _ _ _ hk hg => by
    obtain ⟨B',hB',hrew,-⟩ := getWriteable_holds hr.holds hk hg
    exact hB'.bindings_eq.symm ▸ hrew
  splitMemoryObject := fun _ _ _ _ _ hk hs => by
    obtain ⟨B',hB',-,hsplit⟩ := splitMemoryObject_holds hr.holds hk hs
    exact hB'.bindings_eq.symm ▸ hsplit

def pageHeap (address : Nat) : Heap where
  objects := fun _ =>
    {ObjectState.allocate address pageSize (by decide) 0 with splittable := true, store := 0}
  stores := fun _ => ⟨replicate pageSize 0,none⟩
  nextObject := 1
  nextStore := 1
  host := fun _ => 0

theorem findObject_page : ∃ h' as', empty.bindObject (pageHeap 0x1000) 0 = some (h',as') ∧
      (as'.findObject h' 0x1234).1 = some 0 := by
  refine ⟨_,_,rfl,?_⟩
  have hagrees := findObject_agrees (Reach.bindObject (.empty (pageHeap 0x1000)) (r := 0) one_pos
    ⟨by decide,by decide⟩ (fun k' hk' => by cases hk') rfl)
  exact (hagrees.lookup 0x1234 (by decide) 0).mpr
    ⟨⟨0x1000,pageSize⟩,rfl,rfl,by decide,by decide⟩

/-- The last page of the address space does not wrap past `2^64`, but the sum in the comparison of
keys does: the page comes before every key, and only its first byte is found, by the cache. -/
theorem findObject_misses_lastPage : ∃ h' as',
    empty.bindObject (pageHeap (2^64-pageSize)) 0 = some (h',as') ∧
      as'.bindings ⟨2^64-pageSize,pageSize⟩ = some 0 ∧
      ObjectKey.Contains ⟨2^64-pageSize,pageSize⟩ (2^64-1) ∧
      (as'.findObject h' (2^64-1)).1 = none ∧ (as'.findObject h' (2^64-pageSize)).1 = some 0 :=
  ⟨_,_,rfl,rfl,⟨by decide,by decide⟩,rfl,rfl⟩

end AddressSpace
end S2E
