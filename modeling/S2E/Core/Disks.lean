import S2E.Core.DeviceState

/-!
The disks of all paths: what a path reads from a device is what it, or a path it was copied
from before, has written there last.
-/

namespace S2E
open List Option Function Nat AddressSpace

abbrev Disk := BlockDevice → Nat → Option Sector

variable {buf : List Sector} {sector : Nat}

namespace Disk

def put (D : Disk) (bs : BlockDevice) (sector : Nat) (bytes : Sector) : Disk :=
  update D bs (update (D bs) sector (some bytes))

def write (D : Disk) (bs : BlockDevice) : Nat → List Sector → Disk
  | _, [] => D
  | sector, bytes :: buf => (D.put bs sector bytes).write bs (sector+1) buf

def read (D : Disk) (bs : BlockDevice) : Nat → Nat → List Sector
  | _, 0 => []
  | sector, nbSectors+1 =>
    match D bs sector with
    | none => []
    | some bytes => bytes :: D.read bs (sector+1) nbSectors

lemma write_of_ne {D : Disk} {bs bs' : BlockDevice} (hne : bs' ≠ bs) (buf : List Sector)
    (sector : Nat) : D.write bs sector buf bs' = D bs' := by
  induction buf generalizing D sector with
  | nil => rfl
  | cons bytes buf ih => rw [write,ih,put,update_of_ne hne]

lemma read_write {D : Disk} {bs bs' : BlockDevice} (hne : bs' ≠ bs) {sector' nbSectors : Nat} :
    (D.write bs sector buf).read bs' sector' nbSectors = D.read bs' sector' nbSectors := by
  induction nbSectors generalizing sector' with
  | zero => rfl
  | succ nbSectors ih => rw [read,read,write_of_ne hne,ih]

end Disk

def placeOf (id sector : Nat) : Nat := id*BLOCK_DEV_AS+sector*SECTOR_SIZE

def sectorLimit : Nat := 2^27

def deviceLimit : Nat := 2^28

structure Represents (devices : List BlockDevice) (D : Disk) (d : Nat → Option Sector) : Prop where
  nodup : devices.Nodup
  sector : ∀ {id bs sector}, devices[id]? = some bs → sector < sectorLimit →
    D bs sector = d (placeOf id sector)
  unknown : ∀ {bs}, bs ∉ devices → ∀ sector, D bs sector = none
  free : ∀ {address}, devices.length*BLOCK_DEV_AS ≤ address → d address = none

variable {id : Nat}

lemma placeOf_inj {id' sector' : Nat} (h : sector < sectorLimit)
    (h' : sector' < sectorLimit) (heq : placeOf id sector = placeOf id' sector') :
    id = id' ∧ sector = sector' := by
  simp only [placeOf,BLOCK_DEV_AS,SECTOR_SIZE,sectorLimit] at *
  omega

variable {bs : BlockDevice}

namespace Represents
variable {devices : List BlockDevice} {D : Disk} {d : Nat → Option Sector}

lemma empty : Represents [] (fun _ _ => none) fun _ => none :=
  ⟨.nil,nofun,fun _ _ => rfl,fun _ => rfl⟩

lemma put (h : Represents devices D d)
    (hid : devices[id]? = some bs) (hsector : sector < sectorLimit)
    (bytes : Sector) : Represents devices (D.put bs sector bytes)
      (update d (placeOf id sector) (some bytes)) := by
  have hlt := (List.getElem?_eq_some_iff.mp hid).1
  refine ⟨h.nodup,fun {id' bs' sector'} hid' hsector' => ?_,fun {bs'} hbs' sector' => ?_,
    fun {address} haddress => ?_⟩
  · by_cases hbs : bs' = bs
    · subst hbs
      have hids : id' = id := by
        obtain ⟨hlt',hget'⟩ := List.getElem?_eq_some_iff.mp hid'
        obtain ⟨hlt,hget⟩ := List.getElem?_eq_some_iff.mp hid
        exact (List.Nodup.getElem_inj_iff h.nodup).mp (hget'.trans hget.symm)
      subst hids
      rw [Disk.put,update_self]
      by_cases hs : sector' = sector
      · subst hs
        rw [update_self,update_self]
      · rw [update_of_ne hs,update_of_ne fun heq =>
          hs (placeOf_inj hsector' hsector heq).2]
        exact h.sector hid' hsector'
    · rw [Disk.put,update_of_ne hbs,update_of_ne,h.sector hid' hsector']
      intro heq
      obtain ⟨rfl,-⟩ := placeOf_inj hsector' hsector heq
      rw [hid] at hid'
      exact hbs (some.inj hid').symm
  · have hne : bs' ≠ bs := fun heq => hbs' (heq ▸ mem_of_getElem? hid)
    rw [Disk.put,update_of_ne hne]
    exact h.unknown hbs' sector'
  · rw [update_of_ne,h.free haddress]
    simp only [placeOf,BLOCK_DEV_AS,SECTOR_SIZE,sectorLimit] at *
    omega

lemma getElem?_of_idxOf? {i : Nat} (h : devices.idxOf? bs = some i) : devices[i]? = some bs := by
  obtain ⟨hlt,hbs,-⟩ := idxOf?_eq_some_iff.mp h
  rw [getElem?_eq_getElem hlt,hbs]

lemma register (h : Represents devices D d) (bs : BlockDevice) :
    Represents (getBlockDeviceId devices bs).2 D d ∧
      (getBlockDeviceId devices bs).2[(getBlockDeviceId devices bs).1]? = some bs := by
  unfold getBlockDeviceId
  cases hidx : devices.idxOf? bs with
  | some i => exact ⟨h,getElem?_of_idxOf? hidx⟩
  | none =>
    have hbs : bs ∉ devices := idxOf?_eq_none_iff.mp hidx
    refine ⟨⟨?_,fun {id bs' sector} hid hsector => ?_,fun {bs'} hbs' => ?_,
      fun {address} haddress => ?_⟩,by simp⟩
    · exact List.Nodup.append h.nodup (nodup_singleton bs) (disjoint_singleton.mpr hbs)
    · rw [getElem?_append] at hid
      split at hid
      · exact h.sector hid hsector
      -- Nothing has been written to the new device.
      rename_i hlt
      rw [mem_singleton.mp (mem_of_getElem? hid),h.unknown hbs,h.free]
      exact le_trans (mul_le_mul_right _ (not_lt.mp hlt)) (le_add_right _ _)
    · exact h.unknown fun hmem => hbs' (mem_append_left _ hmem)
    · refine h.free (le_trans (mul_le_mul_right _ ?_) haddress)
      simp

end Represents

def HoldsDisk (h : Heap) (as : AddressSpace) (devices : List BlockDevice) (D : Disk) : Prop :=
  ∃ d, HoldsSectors h as d ∧ Represents devices D d

lemma sectorAddress_eq (hid : id < deviceLimit) (hsector : sector < sectorLimit) :
    sectorAddress (id*BLOCK_DEV_AS%2^64) sector = placeOf id sector := by
  simp only [sectorAddress,placeOf,BLOCK_DEV_AS,SECTOR_SIZE,deviceLimit,sectorLimit] at *
  omega

lemma placeOf_aligned (id sector : Nat) : placeOf id sector%512 = 0 := by
  simp only [placeOf,BLOCK_DEV_AS,SECTOR_SIZE]
  omega

lemma placeOf_lt (hid : id < deviceLimit) (hsector : sector < sectorLimit) :
    placeOf id sector < 2^64 := by
  simp only [placeOf,BLOCK_DEV_AS,SECTOR_SIZE,deviceLimit,sectorLimit] at *
  omega

lemma readSectors_eq {h : Heap} {devices : List BlockDevice} {D : Disk}
    (hid : devices[id]? = some bs) (hroom : id < deviceLimit)
    {d : Nat → Option Sector} (hd : Represents devices D d) (nbSectors : Nat)
    (hlimit : sector+nbSectors ≤ sectorLimit) {as : AddressSpace} (hs : HoldsSectors h as d) :
    ∃ as', as.readSectors (id*BLOCK_DEV_AS%2^64) h sector nbSectors =
        some (D.read bs sector nbSectors,as') ∧ HoldsSectors h as' d ∧
      as'.cowKey = as.cowKey ∧ ∀ r, as'.Knows r → as.Knows r := by
  induction nbSectors generalizing sector as with
  | zero => exact ⟨as,rfl,hs,rfl,fun _ hr => hr⟩
  | succ nbSectors ih =>
    have hsector : sector < sectorLimit := by omega
    obtain ⟨hs1,hbindings,hfind⟩ :=
      hs.findObject (placeOf_aligned id sector) (placeOf_lt hroom hsector)
    obtain ⟨hcow,hknows,-⟩ := knows_findObject as h (placeOf id sector)
    rw [readSectors,sectorAddress_eq hroom hsector,Disk.read,hd.sector hid hsector]
    cases hfound : as.findObject h (placeOf id sector) with
    | mk os as1 =>
      rw [hfound] at hs1 hbindings hfind hcow hknows
      cases os with
      | none =>
        have hnone : d (placeOf id sector) = none := by
          cases hsome : d (placeOf id sector) with
          | none => rfl
          | some bytes =>
            obtain ⟨r,hk,-⟩ := hs.contents.mp hsome
            rw [← hfind] at hk
            cases hk
        exact ⟨as1,by simp [hnone],hs1,hcow,hknows⟩
      | some os =>
        have hk : as1.bindings ⟨placeOf id sector,512⟩ = some os := by rw [hbindings,← hfind]
        obtain ⟨bytes,hread,hbytes⟩ := hs1.readBuffer hk
        have hlimit' : sector+1+nbSectors ≤ sectorLimit := by omega
        obtain ⟨as',hrest,hs',hcow',hknows'⟩ := ih hlimit' hs1
        refine ⟨as',?_,hs',hcow'.trans hcow,fun r hr => hknows r (hknows' r hr)⟩
        simp only [hbytes,hread,hrest,bind_eq_bind,bind_some]

/-- The device states of all paths, and the devices in the order of their first use, which the
paths share. -/
structure Disks where
  world : World
  blockDevices : List BlockDevice

structure HoldsPaths (W : World) (devices : List BlockDevice) (paths : List Disk) : Prop where
  inv : W.Inv
  length : paths.length = W.spaces.length
  disk : ∀ {i : Nat} {as : AddressSpace} {D : Disk}, W.spaces[i]? = some as →
    paths[i]? = some D → HoldsDisk W.heap as devices D

lemma set_of_getElem? {α : Type} {l : List α} {i : Nat} {a : α} (h : l[i]? = some a) :
    l.set i a = l := by
  obtain ⟨hlt,rfl⟩ := List.getElem?_eq_some_iff.mp h
  exact set_getElem_self hlt

namespace HoldsPaths
variable {W : World} {devices : List BlockDevice} {paths : List Disk}
variable {i : Nat} {as as' : AddressSpace} {h' : Heap} {D D' : Disk}

section
variable (hp : HoldsPaths W devices paths)
include hp

lemma act (hi : W.spaces[i]? = some as)
    (e : Effect (World.Private W.heap as) W.heap as h' as') (hD : HoldsDisk h' as' devices D') :
    HoldsPaths ⟨h',W.spaces.set i as'⟩ devices (paths.set i D') where
  inv := hp.inv.effect hi e
  length := by simpa using hp.length
  disk := fun {j as1 D1} hj hD1 => by
    rcases World.spaces_set hj with ⟨rfl,rfl⟩ | ⟨hne,hj⟩
    · have hlt : j < paths.length := by
        rw [hp.length]
        exact (List.getElem?_eq_some_iff.mp hi).1
      rw [getElem?_set_self hlt] at hD1
      cases hD1
      exact hD
    · rw [getElem?_set_ne (Ne.symm hne)] at hD1
      obtain ⟨d,hs,hd⟩ := hp.disk hj hD1
      exact ⟨d,hs.of_same e.nextObject e.nextStore fun r hr =>
        hp.inv.frame_effect hne hi hj e hr,hd⟩

lemma register (bs : BlockDevice) : HoldsPaths W (getBlockDeviceId devices bs).2 paths where
  inv := hp.inv
  length := hp.length
  disk := fun hi hD => by
    obtain ⟨d,hs,hd⟩ := hp.disk hi hD
    exact ⟨d,hs,(hd.register bs).1⟩

lemma copy (hi : W.spaces[i]? = some as) (hD : paths[i]? = some D) (hkey : as.cowKey+1 < 2^32) :
    HoldsPaths ⟨W.heap,W.spaces.set i as.fork.1 ++ [as.fork.2]⟩ devices (paths ++ [D]) where
  inv := hp.inv.fork hi hkey
  length := by simp [hp.length]
  disk := fun {j as1 D1} hj hD1 => by
    obtain ⟨d,hs,hd⟩ := hp.disk hi hD
    rw [getElem?_append,length_set] at hj
    rw [getElem?_append,hp.length] at hD1
    split at hj
    next hlt =>
      rw [if_pos hlt] at hD1
      rcases World.spaces_set hj with ⟨rfl,rfl⟩ | ⟨-,hj⟩
      · rw [hD] at hD1
        cases hD1
        exact ⟨d,hs.fork.1,hd⟩
      · exact hp.disk hj hD1
    next hlt =>
      rw [if_neg hlt] at hD1
      rw [mem_singleton.mp (mem_of_getElem? hj),mem_singleton.mp (mem_of_getElem? hD1)]
      exact ⟨d,hs.fork.2,hd⟩

lemma writeSectorAt (hi : W.spaces[i]? = some as)
    (hD : paths[i]? = some D) (hid : devices[id]? = some bs)
    (hroom : id < deviceLimit) (hsector : sector+1 < sectorLimit) (hne : placeOf id sector ≠ 0)
    (bytes : Sector) : ∃ h' as', as.writeSectorAt W.heap (placeOf id sector) bytes = some (h',as') ∧
      HoldsPaths ⟨h',W.spaces.set i as'⟩ devices (paths.set i (D.put bs sector bytes)) := by
  obtain ⟨d,hs,hd⟩ := hp.disk hi hD
  have hlt : placeOf id sector+512 < 2^64 := by
    simp only [placeOf,BLOCK_DEV_AS,SECTOR_SIZE,deviceLimit,sectorLimit] at *
    omega
  obtain ⟨h',as',hwrite,hs'⟩ := hs.writeSectorAt (placeOf_aligned id sector) hne hlt bytes
  have e := writeSectorAt_effect (hp.inv.cowKey hi) (fun _ hs => .inl hs)
    (fun _ hr ho => hp.inv.own hi hr ho) hwrite
  exact ⟨h',as',hwrite,hp.act hi e ⟨_,hs',hd.put hid (by omega) bytes⟩⟩

end

lemma writeSectors (hid : devices[id]? = some bs) (hroom : id < deviceLimit) (buf : List Sector)
    (hlimit : sector+buf.length < sectorLimit) (hne : buf ≠ [] → placeOf id sector ≠ 0)
    (hp : HoldsPaths W devices paths) (hi : W.spaces[i]? = some as) (hD : paths[i]? = some D) :
    ∃ h' as', as.writeSectors (id*BLOCK_DEV_AS%2^64) sector buf W.heap = some (h',as') ∧
      HoldsPaths ⟨h',W.spaces.set i as'⟩ devices (paths.set i (D.write bs sector buf)) := by
  induction buf generalizing sector W paths as D with
  | nil =>
    refine ⟨W.heap,as,rfl,?_⟩
    rw [Disk.write,set_of_getElem? hi,set_of_getElem? hD]
    exact hp
  | cons bytes buf ih =>
    rw [length_cons] at hlimit
    have hsector : sector+1 < sectorLimit := by omega
    obtain ⟨h1,as1,hwrite,hp1⟩ := hp.writeSectorAt hi hD hid hroom hsector
      (hne (cons_ne_nil _ _)) bytes
    have hi1 : (W.spaces.set i as1)[i]? = some as1 :=
      getElem?_set_self (List.getElem?_eq_some_iff.mp hi).1
    have hD1 : (paths.set i (D.put bs sector bytes))[i]? = some (D.put bs sector bytes) :=
      getElem?_set_self (List.getElem?_eq_some_iff.mp hD).1
    have hlimit' : sector+1+buf.length < sectorLimit := by omega
    have hne' : placeOf id (sector+1) ≠ 0 := by simp [placeOf,SECTOR_SIZE]
    obtain ⟨h',as',hrest,hp'⟩ := ih hlimit' (fun _ => hne') hp1 hi1 hD1
    rw [set_set,set_set] at hp'
    refine ⟨h',as',?_,hp'⟩
    rw [writeSectors,sectorAddress_eq hroom (lt_of_succ_lt hsector)]
    simp only [hwrite,hrest,bind_eq_bind,bind_some]

end HoldsPaths

namespace Disks

def writeSector (D : Disks) (i : Nat) (bs : BlockDevice) (sector : Nat) (buf : List Sector) :
    Option Disks := do
  let as ← D.world.spaces[i]?
  let (bstart,blockDevices) := getBlockDeviceStart D.blockDevices bs
  let (heap,as) ← as.writeSectors bstart sector buf D.world.heap
  some ⟨⟨heap,D.world.spaces.set i as⟩,blockDevices⟩

def readSector (D : Disks) (i : Nat) (bs : BlockDevice) (sector nbSectors : Nat) :
    Option (List Sector × Disks) := do
  let as ← D.world.spaces[i]?
  let (bstart,blockDevices) := getBlockDeviceStart D.blockDevices bs
  let (buf,as) ← as.readSectors bstart D.world.heap sector nbSectors
  some (buf,⟨{D.world with spaces := D.world.spaces.set i as},blockDevices⟩)

def copy (D : Disks) (i : Nat) : Option Disks := do
  let as ← D.world.spaces[i]?
  some {D with world.spaces := D.world.spaces.set i as.fork.1 ++ [as.fork.2]}

end Disks

inductive DiskOperation where
  | writeSector (bs : BlockDevice) (sector : Nat) (buf : List Sector)
  | readSector (bs : BlockDevice) (sector nbSectors : Nat)
  | copy

variable {path : Disk} {op : DiskOperation}

namespace Disks

def step (D : Disks) (i : Nat) : DiskOperation → Option Disks
  | .writeSector bs sector buf => D.writeSector i bs sector buf
  | .readSector bs sector nbSectors => (D.readSector i bs sector nbSectors).map Prod.snd
  | .copy => D.copy i

/-- The sectors are on the device, the device is one of those that have room, the first sector
of the first device is not written, and the key of a state that is copied does not wrap. -/
def Admits (sizes : DiskSizes) (D : Disks) (i : Nat) : DiskOperation → Prop
  | .writeSector bs sector buf => sector+buf.length ≤ sizes.sectors bs ∧
      (getBlockDeviceId D.blockDevices bs).1 < deviceLimit ∧
      ((getBlockDeviceId D.blockDevices bs).1 = 0 → sector = 0 → buf = [])
  | .readSector bs sector nbSectors => sector+nbSectors ≤ sizes.sectors bs ∧
      (getBlockDeviceId D.blockDevices bs).1 < deviceLimit
  | .copy => ∀ as, D.world.spaces[i]? = some as → as.cowKey+1 < 2^32

def written (paths : List Disk) (i : Nat) : DiskOperation → List Disk
  | .writeSector bs sector buf => paths.modify i fun path => path.write bs sector buf
  | .readSector _ _ _ => paths
  | .copy => paths ++ paths[i]?.toList

/-- The device states that come from one by copies and accesses, with what has been written on
each path. -/
inductive Reached (sizes : DiskSizes) : Disks → List Disk → Prop
  | initial (h : Heap) : Reached sizes ⟨.initial h,[]⟩ [fun _ _ => none]
  | step {D D' : Disks} {paths : List Disk} {i : Nat} {op : DiskOperation}
      (hD : Reached sizes D paths) (hop : D.Admits sizes i op) (hstep : D.step i op = some D') :
      Reached sizes D' (written paths i op)

section
variable {sizes : DiskSizes} {D : Disks} {paths : List Disk} {i : Nat}

lemma sectors_lt {n : Nat} (h : n ≤ sizes.sectors bs) : n < sectorLimit := by
  have hsmall := sizes.small bs
  simp only [SECTOR_SIZE,BLOCK_DEV_AS,sectorLimit] at *
  omega

section
variable (hp : HoldsPaths D.world D.blockDevices paths)
include hp

lemma space_of_path (hi : paths[i]? = some path) : ∃ as, D.world.spaces[i]? = some as := by
  have hlt := (List.getElem?_eq_some_iff.mp hi).1
  rw [hp.length] at hlt
  exact ⟨_,getElem?_eq_getElem hlt⟩

lemma readSector_eq (hi : paths[i]? = some path) {nbSectors : Nat}
    (hop : D.Admits sizes i (.readSector bs sector nbSectors)) :
    ∃ D', D.readSector i bs sector nbSectors = some (path.read bs sector nbSectors,D') ∧
      HoldsPaths D'.world D'.blockDevices paths := by
  obtain ⟨hsector,hroom⟩ := hop
  obtain ⟨as,has⟩ := space_of_path hp hi
  have hp' := hp.register bs
  obtain ⟨d,hs,hd⟩ := hp.disk has hi
  obtain ⟨hd',hid⟩ := hd.register bs
  obtain ⟨as',hread,hs',hcow,hknows⟩ :=
    readSectors_eq hid hroom hd' nbSectors (sectors_lt hsector).le hs
  refine ⟨⟨⟨D.world.heap,D.world.spaces.set i as'⟩,(getBlockDeviceId D.blockDevices bs).2⟩,?_,?_⟩
  · simp only [readSector,getBlockDeviceStart,has,hread,bind_eq_bind,bind_some]
  · have hact := hp'.act has (.of_known hcow hknows) ⟨d,hs',hd'⟩
    rw [set_of_getElem? hi] at hact
    exact hact

lemma writeSector_eq (hi : paths[i]? = some path)
    (hop : D.Admits sizes i (.writeSector bs sector buf)) :
    ∃ D', D.writeSector i bs sector buf = some D' ∧
      HoldsPaths D'.world D'.blockDevices (paths.set i (path.write bs sector buf)) := by
  obtain ⟨hsector,hroom,hfirst⟩ := hop
  obtain ⟨as,has⟩ := space_of_path hp hi
  obtain ⟨d,-,hd⟩ := hp.disk has hi
  have hne : buf ≠ [] → placeOf (getBlockDeviceId D.blockDevices bs).1 sector ≠ 0 := by
    intro hbuf hzero
    simp only [placeOf,BLOCK_DEV_AS,SECTOR_SIZE] at hzero
    exact hbuf (hfirst (by omega) (by omega))
  obtain ⟨h',as',hwrite,hp'⟩ := HoldsPaths.writeSectors (hd.register bs).2 hroom buf
    (sectors_lt hsector) hne (hp.register bs) has hi
  refine ⟨⟨⟨h',D.world.spaces.set i as'⟩,(getBlockDeviceId D.blockDevices bs).2⟩,?_,hp'⟩
  simp only [writeSector,getBlockDeviceStart,has,hwrite,bind_eq_bind,bind_some]

lemma step_eq (hi : i < paths.length) (hop : D.Admits sizes i op) : ∃ D', D.step i op = some D' ∧
      HoldsPaths D'.world D'.blockDevices (written paths i op) := by
  have hpath := getElem?_eq_getElem hi
  cases op with
  | writeSector bs sector buf =>
    obtain ⟨D',hD',hp'⟩ := writeSector_eq hp hpath hop
    refine ⟨D',hD',?_⟩
    rw [written,modify_eq_set_getElem?,hpath]
    exact hp'
  | readSector bs sector nbSectors =>
    obtain ⟨D',hD',hp'⟩ := readSector_eq hp hpath hop
    exact ⟨D',by simp [step,hD'],hp'⟩
  | copy =>
    obtain ⟨as,has⟩ := space_of_path hp hpath
    refine ⟨⟨⟨D.world.heap,D.world.spaces.set i as.fork.1 ++ [as.fork.2]⟩,D.blockDevices⟩,?_,?_⟩
    · simp [step,copy,has]
    · rw [written,hpath]
      exact hp.copy has hpath (hop as has)

end

lemma lt_of_step {D' : Disks} (h : D.step i op = some D') : i < D.world.spaces.length := by
  cases hi : D.world.spaces[i]? with
  | none =>
    cases op with
    | writeSector bs sector buf =>
      rw [step,writeSector,hi] at h
      cases h
    | readSector bs sector nbSectors =>
      rw [step,readSector,hi] at h
      cases h
    | copy =>
      rw [step,copy,hi] at h
      cases h
  | some as => exact (List.getElem?_eq_some_iff.mp hi).1

lemma Reached.holds (h : Reached sizes D paths) : HoldsPaths D.world D.blockDevices paths := by
  induction h with
  | initial h =>
    refine ⟨World.initial_inv h,rfl,fun {i as path} hi hD => ?_⟩
    obtain rfl := mem_singleton.mp (mem_of_getElem? hi)
    obtain rfl := mem_singleton.mp (mem_of_getElem? hD)
    exact ⟨_,.empty h,.empty⟩
  | step _ hop hstep ih =>
    obtain ⟨D'',hD'',hp⟩ := step_eq ih (by rw [ih.length]; exact lt_of_step hstep) hop
    rw [hstep] at hD''
    cases hD''
    exact hp

end

/-- A path reads the longest prefix of the sectors that it has written, as it has written them
last, no access or copy fails, and a write changes nothing that is read by another path or from
another device. -/
theorem disks_hold_writes {sizes : DiskSizes} {D : Disks} {paths : List Disk}
    (h : Reached sizes D paths) : paths.length = D.world.spaces.length ∧
    (∀ (i : Nat) path, paths[i]? = some path → ∀ bs sector nbSectors,
      D.Admits sizes i (.readSector bs sector nbSectors) →
      ∃ D', D.readSector i bs sector nbSectors = some (path.read bs sector nbSectors,D')) ∧
    (∀ i op, i < paths.length → D.Admits sizes i op → (D.step i op).isSome) ∧
    ∀ i bs sector buf D', D.Admits sizes i (.writeSector bs sector buf) →
      D.writeSector i bs sector buf = some D' → ∀ i' bs' sector' nbSectors, i' < paths.length →
      i' ≠ i ∨ bs' ≠ bs → D.Admits sizes i' (.readSector bs' sector' nbSectors) →
      D'.Admits sizes i' (.readSector bs' sector' nbSectors) →
      (D'.readSector i' bs' sector' nbSectors).map Prod.fst =
        (D.readSector i' bs' sector' nbSectors).map Prod.fst := by
  have hp := h.holds
  refine ⟨hp.length,fun i path hi bs sector nbSectors hop => ?_,fun i op hi hop => ?_,?_⟩
  · obtain ⟨D',hread,-⟩ := readSector_eq hp hi hop
    exact ⟨D',hread⟩
  · obtain ⟨D',hD',-⟩ := step_eq hp hi hop
    rw [hD']
    rfl
  · intro i bs sector buf D' hop hwrite i' bs' sector' nbSectors hi' hne hread hread'
    have hp' := (h.step hop hwrite).holds
    obtain ⟨path,hpath⟩ : ∃ path, paths[i']? = some path := ⟨_,getElem?_eq_getElem hi'⟩
    obtain ⟨_,hold,-⟩ := readSector_eq hp hpath hread
    by_cases hii : i' = i
    · subst hii
      have hpath' : (written paths i' (.writeSector bs sector buf))[i']? =
          some (path.write bs sector buf) := by
        simp [written,hpath]
      obtain ⟨_,hnew,-⟩ := readSector_eq hp' hpath' hread'
      rw [hold,hnew,map_some,map_some,Disk.read_write (hne.resolve_left fun h => h rfl)]
    · have hpath' : (written paths i (.writeSector bs sector buf))[i']? = some path := by
        simp [written,Ne.symm hii,hpath]
      obtain ⟨_,hnew,-⟩ := readSector_eq hp' hpath' hread'
      rw [hold,hnew,map_some,map_some]

def smallDisks : DiskSizes := ⟨fun _ => 8,fun _ => by decide⟩

def zeros : Sector := Vector.replicate 512 0

theorem disks_hold_writes_copied : ∃ D1 D2 D3 D4, (mk (.initial World.noHeap) []).copy 0 = some D1 ∧
      D1.writeSector 1 7 1 [zeros] = some D2 ∧
      D2.readSector 1 7 1 2 = some ([zeros],D3) ∧ D2.readSector 0 7 1 2 = some ([],D4) := by
  have h0 : Reached smallDisks ⟨.initial World.noHeap,[]⟩ [fun _ _ => none] := .initial _
  have hcopy : (mk (.initial World.noHeap) []).Admits smallDisks 0 .copy := by
    intro as has
    cases some.inj has
    exact (by decide : 1+1 < 2^32)
  obtain ⟨D1,hD1⟩ := isSome_iff_exists.mp
    ((disks_hold_writes h0).2.2.1 0 .copy one_pos hcopy)
  have hdevices : D1.blockDevices = [] := by
    cases some.inj hD1
    rfl
  have h1 := h0.step hcopy hD1
  have hwrite : D1.Admits smallDisks 1 (.writeSector 7 1 [zeros]) := by
    refine ⟨by decide,?_,nofun⟩
    rw [hdevices]
    exact (by decide : 0 < deviceLimit)
  obtain ⟨D2,hD2⟩ := isSome_iff_exists.mp
    ((disks_hold_writes h1).2.2.1 1 _ one_lt_two hwrite)
  have hdevices' : D2.blockDevices = [7] := by
    obtain ⟨as,p,-,-,hD2⟩ := bind_bind_eq_some hD2
    cases some.inj hD2
    rw [hdevices]
    rfl
  have hread : ∀ i, D2.Admits smallDisks i (.readSector 7 1 2) := by
    refine fun i => ⟨by decide,?_⟩
    rw [hdevices']
    exact (by decide : 0 < deviceLimit)
  have h2 := disks_hold_writes (h1.step hwrite hD2)
  obtain ⟨D3,hD3⟩ := h2.2.1 1 _ rfl 7 1 2 (hread 1)
  obtain ⟨D4,hD4⟩ := h2.2.1 0 _ rfl 7 1 2 (hread 0)
  exact ⟨D1,D2,D3,D4,hD1,hD2,hD3,hD4⟩

/-- The first sector of the first device is at address 0, where nothing can be bound. -/
theorem first_sector_fails : (mk (.initial World.noHeap) []).writeSector 0 7 0 [zeros] = none := by
  rfl

end Disks
end S2E
