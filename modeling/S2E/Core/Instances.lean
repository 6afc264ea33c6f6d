import S2E.Lib.SpinLock

/-!
The instances of `S2E.cpp`: processes that fork each other and share, under one lock, how many
there are, which slots they use and which ids are still to give out.
-/

namespace S2E
open SpinLock List Option Bool UInt32

def S2E_MAX_PROCESSES : Nat := 48

def noInstance : UInt32 := 0xFFFFFFFF

structure S2EShared where
  currentInstanceCount : UInt32
  lastFileId : UInt32
  lastStateId : UInt32
  instanceIds : List UInt32

inductive InstancePhase where
  | running
  | fork
  /-- It has reserved a place and calls the `fork` of the system. -/
  | forking (newProcessId : UInt32)
  | forkFailed
  | child (newProcessId : UInt32)
  | fetchAndIncrementStateId
  | closing
  | closed
  deriving DecidableEq

structure Instance where
  currentInstanceIndex : Nat := 0
  currentInstanceId : UInt32 := 0
  phase : InstancePhase := .running
  stateIds : List UInt32 := []

variable {n newProcessId : UInt32}

namespace Instance

abbrev Shared (_ : Unit) : Type := S2EShared

abbrev Code : Type := List (Instruction Shared Instance ())

def require (p : S2EShared → Instance → Bool) : Instruction Shared Instance () := fun s l =>
  if p s l then some (s,l) else none

variable (maxInstances : Nat)

def forkCode : Code := [
  require fun s _ => 0 < s.currentInstanceCount,
  fun s l => some (s, { l with
    phase := if s.currentInstanceCount.toNat = maxInstances then .running
      else .forking s.lastFileId}),
  fun s l => some (if l.phase = .running then s else {s with lastFileId := s.lastFileId+1},l),
  fun s l => some (if l.phase = .running then s
    else {s with currentInstanceCount := s.currentInstanceCount+1},l)]

def forkFailedCode : Code := [
  require fun s _ => 1 < s.currentInstanceCount,
  fun s l => some ({s with currentInstanceCount := s.currentInstanceCount-1},
    {l with phase := .running})]

def childCode (newProcessId : UInt32) : Code := [fun s l =>
  let i := (s.instanceIds.take maxInstances).idxOf noInstance
  if i < maxInstances then
    some ({s with instanceIds := s.instanceIds.set i newProcessId},
      {l with currentInstanceIndex := i, currentInstanceId := newProcessId, phase := .running})
  else none]

def fetchCode : Code := [
  fun s l => some (s, {l with stateIds := s.lastStateId :: l.stateIds, phase := .running}),
  fun s l => some ({s with lastStateId := s.lastStateId+1},l)]

def closeCode : Code := [
  require fun s l => s.instanceIds[l.currentInstanceIndex]? == some l.currentInstanceId,
  fun s l => some ({s with instanceIds := s.instanceIds.set l.currentInstanceIndex noInstance},l),
  require fun s _ => 0 < s.currentInstanceCount,
  fun s l => some ({s with currentInstanceCount := s.currentInstanceCount-1},
    {l with phase := .closed})]

def critical (l : Instance) : Option Code :=
  match l.phase with
  | .fork => some (forkCode maxInstances)
  | .forkFailed => some forkFailedCode
  | .child newProcessId => some (childCode maxInstances newProcessId)
  | .fetchAndIncrementStateId => some fetchCode
  | .closing => some closeCode
  | .running | .forking _ | .closed => none

inductive Outside (l : Instance) : Instance → Option Instance → Prop where
  | callFork (h : l.phase = .running) : Outside l {l with phase := .fork} none
  | callFetch (h : l.phase = .running) :
      Outside l {l with phase := .fetchAndIncrementStateId} none
  | close (h : l.phase = .running) : Outside l {l with phase := .closing} none
  | systemForkFails {newProcessId : UInt32} (h : l.phase = .forking newProcessId) :
      Outside l {l with phase := .forkFailed} none
  | systemFork {newProcessId : UInt32} (h : l.phase = .forking newProcessId) :
      Outside l {l with phase := .running}
        (some {l with phase := .child newProcessId, stateIds := []})

def program : Program Unit Shared Instance where
  critical l := (critical maxInstances l).map (⟨(),·⟩)
  outside := Outside

def start : Config Shared Instance where
  shared _ :=
    { currentInstanceCount := 1, lastFileId := 1, lastStateId := 0
      instanceIds := (replicate S2E_MAX_PROCESSES noInstance).set 0 0}
  processes := [{}]

def Live (l : Instance) : Bool :=
  match l.phase with
  | .child _ | .closed => false
  | .running | .fork | .forking _ | .forkFailed | .fetchAndIncrementStateId | .closing => true

/-- The instance holds a place for a fork that is not complete: the parent until the system has
forked, then the child. -/
def Forking (l : Instance) : Bool :=
  match l.phase with
  | .forking _ | .forkFailed | .child _ => true
  | .running | .fork | .fetchAndIncrementStateId | .closing | .closed => false

def ids (l : Instance) : List UInt32 :=
  match l.phase with
  | .forking newProcessId => [l.currentInstanceId,newProcessId]
  | .child newProcessId => [newProcessId]
  | .closed => []
  | .running | .fork | .forkFailed | .fetchAndIncrementStateId | .closing =>
    [l.currentInstanceId]

structure GivenOut (f : Instance → List UInt32) (next : UInt32) (ps : List Instance) :
    Prop where
  nodup : (ps.flatMap f).Nodup
  lt : ∀ id ∈ ps.flatMap f, id < next

structure Slots (table : List UInt32) (ps : List Instance) : Prop where
  length : table.length = S2E_MAX_PROCESSES
  slot : ∀ l ∈ ps, l.Live → l.currentInstanceIndex < maxInstances ∧
    table[l.currentInstanceIndex]? = some l.currentInstanceId
  owner : ∀ {i : Nat} {id : UInt32}, table[i]? = some id → id ≠ noInstance →
    ∃ l ∈ ps, l.Live ∧ l.currentInstanceIndex = i

structure Consistent (s : S2EShared) (ps : List Instance) : Prop where
  slots : Slots maxInstances s.instanceIds ps
  count : s.currentInstanceCount.toNat = ps.countP Live+ps.countP Forking
  bounded : ps.countP Live+ps.countP Forking ≤ maxInstances
  ids : GivenOut ids s.lastFileId ps
  stateIds : GivenOut stateIds s.lastStateId ps

variable {maxInstances : Nat} {s : S2EShared} {l l' : Instance} {ps qs rest : List Instance}
variable {f : Instance → List UInt32} {next : UInt32} {table : List UInt32}

lemma toNat_add_one (h : n ≠ noInstance) : (n+1).toNat = n.toNat+1 := by
  have hlt : n.toNat < 2^32 := n.toNat_lt
  have hne : n.toNat ≠ 4294967295 := fun e => h (UInt32.toNat_inj.mp e)
  simp only [UInt32.toNat_add,UInt32.toNat_ofNat]
  omega

lemma lt_add_one (h : n ≠ noInstance) : n < n+1 := by
  rw [lt_iff_toNat_lt,toNat_add_one h]
  omega

lemma toNat_sub_one (h : 0 < n) : (n-1).toNat = n.toNat-1 := by
  have hpos : 0 < n.toNat := UInt32.lt_iff_toNat_lt.mp h
  refine UInt32.toNat_sub_of_le _ _ (UInt32.le_iff_toNat_le.mpr ?_)
  exact hpos

lemma GivenOut.of_subperm (h : GivenOut f next ps)
    (hsub : (qs.flatMap f).Subperm (ps.flatMap f)) : GivenOut f next qs where
  nodup := by
    obtain ⟨ids,hperm,hids⟩ := hsub
    exact hperm.nodup_iff.mp (h.nodup.sublist hids)
  lt id hid := h.lt id (hsub.subset hid)

lemma GivenOut.give (h : GivenOut f next ps) (hnext : next ≠ noInstance)
    (hperm : (qs.flatMap f).Perm (next :: ps.flatMap f)) : GivenOut f (next+1) qs where
  nodup := by
    rw [hperm.nodup_iff,nodup_cons]
    exact ⟨fun hmem => UInt32.lt_irrefl _ (h.lt _ hmem),h.nodup⟩
  lt := by
    intro id hid
    obtain rfl | hid := mem_cons.mp (hperm.mem_iff.mp hid)
    · exact lt_add_one hnext
    · exact UInt32.lt_trans (h.lt id hid) (lt_add_one hnext)

lemma Slots.perm (hp : ps.Perm qs) (h : Slots maxInstances table ps) :
    Slots maxInstances table qs where
  length := h.length
  slot l hl := h.slot l (hp.mem_iff.mpr hl)
  owner hi hid := by
    obtain ⟨l,hl,hlive⟩ := h.owner hi hid
    exact ⟨l,hp.mem_iff.mp hl,hlive⟩

lemma Slots.move (h : Slots maxInstances table (l :: rest)) (hlive : l'.Live = l.Live)
    (hindex : l'.currentInstanceIndex = l.currentInstanceIndex)
    (hid : l'.currentInstanceId = l.currentInstanceId) : Slots maxInstances table (l' :: rest) where
  length := h.length
  slot := by
    intro a ha halive
    obtain rfl | ha := mem_cons.mp ha
    · rw [hindex,hid]
      exact h.slot l mem_cons_self (hlive ▸ halive)
    · exact h.slot a (mem_cons_of_mem l ha) halive
  owner := by
    intro i id hi hne
    obtain ⟨a,ha,halive,rfl⟩ := h.owner hi hne
    obtain rfl | ha := mem_cons.mp ha
    · exact ⟨l',mem_cons_self,hlive.trans halive,hindex⟩
    · exact ⟨a,mem_cons_of_mem l' ha,halive,rfl⟩

lemma Slots.cons (h : Slots maxInstances table ps) (hl : l.Live = false) :
    Slots maxInstances table (l :: ps) where
  length := h.length
  slot := by
    intro a ha halive
    obtain rfl | ha := mem_cons.mp ha
    · rw [hl] at halive
      exact absurd halive false_ne_true
    · exact h.slot a ha halive
  owner := by
    intro i id hi hne
    obtain ⟨a,ha,halive⟩ := h.owner hi hne
    exact ⟨a,mem_cons_of_mem l ha,halive⟩

lemma Consistent.perm (hp : ps.Perm qs) (h : Consistent maxInstances s ps) :
    Consistent maxInstances s qs where
  slots := h.slots.perm hp
  count := by rw [← hp.countP_eq,← hp.countP_eq,h.count]
  bounded := by
    rw [← hp.countP_eq,← hp.countP_eq]
    exact h.bounded
  ids := h.ids.of_subperm (hp.flatMap_right _).symm.subperm
  stateIds := h.stateIds.of_subperm (hp.flatMap_right _).symm.subperm

lemma consistent_start (hmax : 1 ≤ maxInstances) :
    Consistent maxInstances (start.shared ()) start.processes where
  slots :=
    { length := by decide
      slot := by
        intro l hl _
        obtain rfl := mem_singleton.mp hl
        exact ⟨hmax,rfl⟩
      owner := by
        intro i id hi hid
        refine ⟨{},mem_singleton_self _,rfl,?_⟩
        by_contra hne
        have hi' : (replicate S2E_MAX_PROCESSES noInstance)[i]? = some id := by
          rwa [← getElem?_set_ne hne]
        exact hid (eq_of_mem_replicate (mem_of_getElem? hi'))}
  count := rfl
  bounded := hmax
  ids := ⟨by decide,by simp [start,ids]⟩
  stateIds := ⟨by decide,by simp [start]⟩

section
variable (h : Consistent maxInstances s (l :: rest))
include h

lemma Consistent.move (hlive : l'.Live = l.Live)
    (hforking : l'.Forking = l.Forking) (hids : l'.ids.Sublist l.ids)
    (hindex : l'.currentInstanceIndex = l.currentInstanceIndex)
    (hid : l'.currentInstanceId = l.currentInstanceId) (hstate : l'.stateIds = l.stateIds) :
    Consistent maxInstances s (l' :: rest) where
  slots := h.slots.move hlive hindex hid
  count := by
    rw [h.count]
    simp only [countP_cons,hlive,hforking]
  bounded := by
    have := h.bounded
    simp only [countP_cons,hlive,hforking] at this ⊢
    exact this
  ids := h.ids.of_subperm (hids.append (List.Sublist.refl _)).subperm
  stateIds := by
    refine h.stateIds.of_subperm ?_
    rw [flatMap_cons,hstate]
    exact List.Subperm.refl _

lemma Consistent.systemFork (hl : l.phase = .forking newProcessId) :
    Consistent maxInstances s ({l with phase := .running} ::
      {l with phase := .child newProcessId, stateIds := []} :: rest) where
  slots := by
    refine .perm (.swap ..) (.cons ?_ rfl)
    exact h.slots.move (by simp [Live,hl]) rfl rfl
  count := by simpa [countP_cons,Live,Forking,hl,Nat.add_right_comm] using h.count
  bounded := by simpa [countP_cons,Live,Forking,hl,Nat.add_right_comm] using h.bounded
  ids := by
    refine h.ids.of_subperm (List.Perm.subperm (.of_eq ?_))
    simp [flatMap_cons,Instance.ids,hl]
  stateIds := h.stateIds.of_subperm (List.Subperm.refl _)

lemma Consistent.outside {child : Option Instance}
    (hl : Outside l l' child) : Consistent maxInstances s (l' :: (child.toList ++ rest)) := by
  cases hl with
  | callFork hp | callFetch hp | close hp | systemForkFails hp =>
    exact h.move (by simp [Live,hp]) (by simp [Forking,hp]) (by simp [Instance.ids,hp])
      rfl rfl rfl
  | systemFork hp => exact h.systemFork hp

end

lemma childCode_eq {i : Nat} (hi : i < maxInstances)
    (hfree : (s.instanceIds.take maxInstances).idxOf noInstance = i) :
    execute (childCode maxInstances newProcessId) s l = some
      ({s with instanceIds := s.instanceIds.set i newProcessId}, { l with
          currentInstanceIndex := i
          currentInstanceId := newProcessId
          phase := .running}) := by
  simp [childCode,execute,hfree,hi]

lemma closeCode_eq (hslot : s.instanceIds[l.currentInstanceIndex]? = some l.currentInstanceId)
    (hpos : 0 < s.currentInstanceCount) : execute closeCode s l = some
      ({ s with
          instanceIds := s.instanceIds.set l.currentInstanceIndex noInstance
          currentInstanceCount := s.currentInstanceCount-1},
        {l with phase := .closed}) := by
  simp [closeCode,execute,require,hslot,hpos]

def Unwrapped (_ : Unit) (s : S2EShared) (l : Instance) : Prop :=
  match l.phase with
  | .fork => s.lastFileId ≠ noInstance
  | .fetchAndIncrementStateId => s.lastStateId ≠ 0xFFFFFFFF
  | .running | .forking _ | .forkFailed | .child _ | .closing | .closed => True

lemma Consistent.count_cons (h : Consistent maxInstances s (l :: rest)) (hl : l.Live) :
    s.currentInstanceCount.toNat =
      rest.countP Live+1+(rest.countP Forking+if l.Forking then 1 else 0) := by
  rw [h.count,countP_cons,countP_cons,if_pos hl]

lemma Consistent.count_le (h : Consistent maxInstances s ps) :
    s.currentInstanceCount.toNat ≤ maxInstances := by
  rw [h.count]
  exact h.bounded

lemma Consistent.reserve (h : Consistent maxInstances s (l :: rest))
    (hmax : maxInstances ≤ S2E_MAX_PROCESSES) (hl : l.phase = .fork)
    (hid : s.lastFileId ≠ noInstance) (hfull : s.currentInstanceCount.toNat ≠ maxInstances) :
    Consistent maxInstances
      { s with
        lastFileId := s.lastFileId+1
        currentInstanceCount := s.currentInstanceCount+1}
      ({l with phase := .forking s.lastFileId} :: rest) := by
  have hlive : l.Live := by simp [Live,hl]
  have hforking : l.Forking = false := by simp [Forking,hl]
  have hcount := h.count_cons hlive
  have hlt := Nat.lt_of_le_of_ne h.count_le hfull
  have hids : l.ids = [l.currentInstanceId] := by simp [Instance.ids,hl]
  simp only [hforking,false_eq_true,if_false] at hcount
  constructor
  case slots => exact h.slots.move hlive.symm rfl rfl
  case count =>
    have hwrap : s.currentInstanceCount ≠ noInstance := by
      intro e
      have : noInstance.toNat = 4294967295 := rfl
      rw [e] at hlt
      unfold S2E_MAX_PROCESSES at hmax
      omega
    simp only [toNat_add_one hwrap,hcount,countP_cons,Live,Forking,if_true]
    omega
  case bounded =>
    simp only [countP_cons,Live,Forking,if_true]
    omega
  case ids =>
    refine h.ids.give hid ?_
    simp only [flatMap_cons,hids]
    exact .swap ..
  case stateIds => exact h.stateIds.of_subperm (List.Subperm.refl _)

lemma Consistent.giveBack (h : Consistent maxInstances s (l :: rest))
    (hl : l.phase = .forkFailed) : 1 < s.currentInstanceCount ∧ Consistent maxInstances
      {s with currentInstanceCount := s.currentInstanceCount-1}
      ({l with phase := .running} :: rest) := by
  have hlive : l.Live := by simp [Live,hl]
  have hforking : l.Forking := by simp [Forking,hl]
  have hcount := h.count_cons hlive
  have hle := h.count_le
  rw [hforking,if_pos rfl] at hcount
  have hpos : 1 < s.currentInstanceCount := by
    rw [lt_iff_toNat_lt,hcount]
    change 1 < _
    omega
  refine ⟨hpos,?_⟩
  have hpos : 0 < s.currentInstanceCount := UInt32.lt_trans (by decide) hpos
  constructor
  case slots => exact h.slots.move hlive.symm rfl rfl
  case count =>
    simp only [toNat_sub_one hpos,hcount,countP_cons,Live,Forking,if_true,
      false_eq_true,if_false]
    omega
  case bounded =>
    simp only [countP_cons,Live,Forking,if_true,false_eq_true,if_false]
    omega
  case ids =>
    refine h.ids.of_subperm (List.Perm.subperm (.of_eq ?_))
    simp [flatMap_cons,Instance.ids,hl]
  case stateIds => exact h.stateIds.of_subperm (List.Subperm.refl _)

lemma Slots.exists_free (h : Slots maxInstances table ps)
    (hmax : maxInstances ≤ S2E_MAX_PROCESSES) (hlt : ps.countP Live < maxInstances) :
    noInstance ∈ table.take maxInstances := by
  by_contra hnone
  have hsub : range maxInstances ⊆ (ps.filter Live).map (·.currentInstanceIndex) := by
    intro i hi
    have hi := mem_range.mp hi
    have hlen : i < table.length := by
      rw [h.length]
      omega
    obtain ⟨l,hl,hlive,hindex⟩ := h.owner (getElem?_eq_getElem hlen) fun e => hnone (by
      rw [← e]
      exact mem_take_iff_getElem.mpr ⟨i,by omega,rfl⟩)
    exact mem_map.mpr ⟨l,mem_filter.mpr ⟨hl,hlive⟩,hindex⟩
  have hle := nodup_range.length_le_of_subset hsub
  rw [length_range,length_map,← countP_eq_length_filter] at hle
  omega

lemma Slots.take {i : Nat} (h : Slots maxInstances table (l :: rest))
    (hl : l.Live = false) (hi : i < maxInstances) (hfree : table[i]? = some noInstance)
    (hids : ∀ a ∈ rest, a.Live → a.currentInstanceId ≠ noInstance) (hlive : l'.Live)
    (hindex : l'.currentInstanceIndex = i) (hid : l'.currentInstanceId = newProcessId) :
    Slots maxInstances (table.set i newProcessId) (l' :: rest) where
  length := by rw [length_set,h.length]
  slot := by
    intro a ha halive
    obtain rfl | ha := mem_cons.mp ha
    · rw [hindex,hid]
      exact ⟨hi,getElem?_set_self (List.getElem?_eq_some_iff.mp hfree).1⟩
    · obtain ⟨hlt,hslot⟩ := h.slot a (mem_cons_of_mem l ha) halive
      refine ⟨hlt,?_⟩
      rw [getElem?_set_ne,hslot]
      rintro rfl
      rw [hfree,some_inj] at hslot
      exact hids a ha halive hslot.symm
  owner := by
    intro j id hj hne
    obtain ⟨rfl,-⟩ | ⟨-,hj⟩ := Machine.getElem?_set_cases hj
    · exact ⟨l',mem_cons_self,hlive,hindex⟩
    obtain ⟨a,ha,halive,hindex'⟩ := h.owner hj hne
    obtain rfl | ha := mem_cons.mp ha
    · rw [hl] at halive
      exact absurd halive false_ne_true
    · exact ⟨a,mem_cons_of_mem l' ha,halive,hindex'⟩

lemma Slots.leave (h : Slots maxInstances table (l :: rest))
    (hothers : ∀ a ∈ rest, a.Live → a.currentInstanceIndex ≠ l.currentInstanceIndex)
    (hl : l'.Live = false) :
    Slots maxInstances (table.set l.currentInstanceIndex noInstance) (l' :: rest) := by
  refine .cons ⟨by rw [length_set,h.length],fun a ha halive => ?_,?_⟩ hl
  · rw [getElem?_set_ne (hothers a ha halive).symm]
    exact h.slot a (mem_cons_of_mem l ha) halive
  · intro j id hj hne
    obtain ⟨-,rfl⟩ | ⟨hj',hj⟩ := Machine.getElem?_set_cases hj
    · exact absurd rfl hne
    obtain ⟨a,ha,halive,hindex⟩ := h.owner hj hne
    obtain rfl | ha := mem_cons.mp ha
    · exact absurd hindex hj'
    · exact ⟨a,ha,halive,hindex⟩

lemma mem_ids (hl : l.Live) : l.currentInstanceId ∈ l.ids := by
  unfold Live at hl
  unfold Instance.ids
  split at hl <;> simp_all

lemma GivenOut.ne_noInstance (h : GivenOut ids next ps) {a : Instance} (ha : a ∈ ps)
    {id : UInt32} (hid : id ∈ a.ids) : id ≠ noInstance := by
  rintro rfl
  have hlt := h.lt _ (mem_flatMap.mpr ⟨a,ha,hid⟩)
  rw [lt_iff_toNat_lt] at hlt
  have hmax : next.toNat < 2^32 := next.toNat_lt
  have : noInstance.toNat = 4294967295 := rfl
  omega

section
variable (h : Consistent maxInstances s (l :: rest))
include h

lemma Consistent.takeSlot
    (hmax : maxInstances ≤ S2E_MAX_PROCESSES) (hl : l.phase = .child newProcessId) :
    ∃ s' l', execute (childCode maxInstances newProcessId) s l = some (s',l') ∧
      Consistent maxInstances s' (l' :: rest) := by
  have hlive : l.Live = false := by simp [Live,hl]
  have hforking : l.Forking := by simp [Forking,hl]
  have hids : l.ids = [newProcessId] := by simp [Instance.ids,hl]
  have hcount := h.count
  have hbounded := h.bounded
  simp only [countP_cons,hlive,hforking,false_eq_true,if_true,if_false]
    at hcount hbounded
  have hfree := h.slots.exists_free hmax (by
    simp only [countP_cons,hlive,false_eq_true,if_false]
    omega)
  have hi := getElem?_idxOf hfree
  have hlt := (List.getElem?_eq_some_iff.mp hi).1
  rw [length_take,h.slots.length] at hlt
  have hltmax : (s.instanceIds.take maxInstances).idxOf noInstance < maxInstances := by omega
  rw [getElem?_take_of_lt hltmax] at hi
  refine ⟨_,_,childCode_eq hltmax rfl,?_⟩
  constructor
  case slots =>
    refine h.slots.take hlive hltmax hi (fun a ha halive => ?_) rfl rfl rfl
    exact h.ids.ne_noInstance (mem_cons_of_mem l ha) (mem_ids halive)
  case count =>
    simp only [hcount,countP_cons,Live,Forking,if_true,false_eq_true,if_false]
    omega
  case bounded =>
    simp only [countP_cons,Live,Forking,if_true,false_eq_true,if_false]
    omega
  case ids =>
    refine h.ids.of_subperm (List.Perm.subperm (.of_eq ?_))
    simp only [flatMap_cons,hids]
    rfl
  case stateIds => exact h.stateIds.of_subperm (List.Subperm.refl _)

lemma Consistent.fetch
    (hl : l.phase = .fetchAndIncrementStateId) (hid : s.lastStateId ≠ 0xFFFFFFFF) :
    Consistent maxInstances {s with lastStateId := s.lastStateId+1}
      ({l with stateIds := s.lastStateId :: l.stateIds, phase := .running} :: rest) where
  slots := h.slots.move (by simp [Live,hl]) rfl rfl
  count := by simpa [countP_cons,Live,Forking,hl] using h.count
  bounded := by simpa [countP_cons,Live,Forking,hl] using h.bounded
  ids := by
    refine h.ids.of_subperm (List.Perm.subperm (.of_eq ?_))
    simp [flatMap_cons,Instance.ids,hl]
  stateIds := h.stateIds.give hid (.refl _)

lemma Consistent.leave (hl : l.phase = .closing) :
    0 < s.currentInstanceCount ∧ Consistent maxInstances
      { s with
        instanceIds := s.instanceIds.set l.currentInstanceIndex noInstance
        currentInstanceCount := s.currentInstanceCount-1}
      ({l with phase := .closed} :: rest) := by
  have hlive : l.Live := by simp [Live,hl]
  have hforking : l.Forking = false := by simp [Forking,hl]
  have hcount := h.count_cons hlive
  have hle := h.count_le
  simp only [hforking,false_eq_true,if_false] at hcount
  have hpos : 0 < s.currentInstanceCount := by
    rw [lt_iff_toNat_lt,hcount]
    change 0 < _
    omega
  refine ⟨hpos,?_⟩
  constructor
  case slots =>
    refine h.slots.leave (fun a ha halive hindex => ?_) rfl
    -- two instances in one slot would have one id
    have hslot := (h.slots.slot a (mem_cons_of_mem l ha) halive).2
    rw [hindex,(h.slots.slot l mem_cons_self hlive).2,some_inj] at hslot
    have hdisjoint := (nodup_append.mp h.ids.nodup).2.2
    refine hdisjoint _ (mem_ids hlive) _ (mem_flatMap.mpr ⟨a,ha,mem_ids halive⟩) hslot
  case count =>
    simp only [toNat_sub_one hpos,hcount,countP_cons,Live,Forking,false_eq_true,if_false]
    omega
  case bounded =>
    simp only [countP_cons,Live,Forking,false_eq_true,if_false]
    omega
  case ids =>
    refine h.ids.of_subperm ?_
    exact ((nil_sublist l.ids).append (List.Sublist.refl _)).subperm
  case stateIds => exact h.stateIds.of_subperm (List.Subperm.refl _)

lemma Consistent.critical {body : Code}
    (hmax : maxInstances ≤ S2E_MAX_PROCESSES) (hbody : critical maxInstances l = some body)
    (ha : Unwrapped () s l) : ∃ s' l', execute body s l = some (s',l') ∧
      Consistent maxInstances s' (l' :: rest) := by
  unfold Instance.critical at hbody
  unfold Unwrapped at ha
  cases hl : l.phase with
  | running | forking | closed => simp [hl] at hbody
  | fork =>
    simp only [hl,some_inj] at hbody ha
    subst hbody
    have hpos : 0 < s.currentInstanceCount := by
      rw [lt_iff_toNat_lt,h.count_cons (by simp [Live,hl])]
      change 0 < _
      omega
    by_cases hfull : s.currentInstanceCount.toNat = maxInstances
    · refine ⟨s, {l with phase := .running},by simp [forkCode,execute,require,hpos,hfull],?_⟩
      exact h.move (by simp [Live,hl]) (by simp [Forking,hl]) (by simp [Instance.ids,hl])
        rfl rfl rfl
    · exact ⟨_,_,by simp [forkCode,execute,require,hpos,hfull],h.reserve hmax hl ha hfull⟩
  | forkFailed =>
    simp only [hl,some_inj] at hbody
    subst hbody
    obtain ⟨hpos,h'⟩ := h.giveBack hl
    exact ⟨_,_,by simp [forkFailedCode,execute,require,hpos],h'⟩
  | child newProcessId =>
    simp only [hl,some_inj] at hbody
    subst hbody
    exact h.takeSlot hmax hl
  | fetchAndIncrementStateId =>
    simp only [hl,some_inj] at hbody ha
    subst hbody
    exact ⟨_,_,rfl,h.fetch hl ha⟩
  | closing =>
    simp only [hl,some_inj] at hbody
    subst hbody
    obtain ⟨hpos,h'⟩ := h.leave hl
    have hslot := (h.slots.slot l mem_cons_self (by simp [Live,hl])).2
    exact ⟨_,_,closeCode_eq hslot hpos,h'⟩

end

section
variable (maxInstances)

abbrev State : Type := Config Shared Instance

lemma critical_eq {body : (k : Unit) × List (Instruction Shared Instance k)}
    (h : (program maxInstances).critical l = some body) :
    critical maxInstances l = some body.2 := by
  obtain ⟨code,hcode,rfl⟩ := map_eq_some_iff.mp h
  exact hcode

lemma reached_consistent (hpos : 1 ≤ maxInstances) (hmax : maxInstances ≤ S2E_MAX_PROCESSES)
    {c : State} (h : Reached (program maxInstances) Unwrapped start c) :
    Consistent maxInstances (c.shared ()) c.processes := by
  refine h.invariant (I := fun shared ps => Consistent maxInstances (shared ()) ps) ?_
    (consistent_start hpos) ?_ ?_
  · intro shared ps qs hperm h
    exact h.perm hperm
  · intro shared l rest k body s' l' h hbody ha hrun
    obtain ⟨s₁,l₁,hrun',h'⟩ := h.critical hmax (critical_eq maxInstances hbody) ha
    cases hrun.symm.trans hrun'
    rwa [Function.update_self]
  · intro shared l rest l' child h hl
    exact h.outside hl

end

structure TableHolds (maxInstances : Nat) (s : S2EShared) (ps : List Instance) : Prop where
  count : s.currentInstanceCount.toNat = ps.countP Live+ps.countP Forking
  bounded : s.currentInstanceCount.toNat ≤ maxInstances
  slot : ∀ l ∈ ps, l.Live → ∀ i : Nat,
    s.instanceIds[i]? = some l.currentInstanceId ↔ i = l.currentInstanceIndex
  unique : ((ps.filter Live).map (·.currentInstanceId)).Nodup
  stateIds : (ps.flatMap stateIds).Nodup

lemma map_currentInstanceId_sublist :
    ((ps.filter Live).map (·.currentInstanceId)).Sublist (ps.flatMap ids) := by
  induction ps with
  | nil => exact List.Sublist.refl _
  | cons l ps ih =>
    rw [flatMap_cons]
    cases hl : l.Live with
    | false =>
      rw [filter_cons_of_neg (by simp [hl])]
      exact ih.trans (sublist_append_right ..)
    | true =>
      rw [filter_cons_of_pos hl,map_cons]
      exact (singleton_sublist.mpr (mem_ids hl)).append ih

lemma Consistent.tableHolds (h : Consistent maxInstances s ps) :
    TableHolds maxInstances s ps := by
  have hunique := h.ids.nodup.sublist map_currentInstanceId_sublist
  refine ⟨h.count,h.count_le,fun l hl hlive i => ⟨fun hi => ?_,?_⟩,hunique,h.stateIds.nodup⟩
  · obtain ⟨l',hl',hlive',rfl⟩ := h.slots.owner hi (h.ids.ne_noInstance hl (mem_ids hlive))
    have hid := (h.slots.slot l' hl' hlive').2
    rw [hi,some_inj] at hid
    rw [inj_on_of_nodup_map hunique (mem_filter.mpr ⟨hl,hlive⟩) (mem_filter.mpr ⟨hl',hlive'⟩) hid]
  · rintro rfl
    exact (h.slots.slot l hl hlive).2

/-- Whatever the instances do and however their instructions are interleaved, no assertion fails,
and the shared data are right whenever the lock is free, as long as the ids last. -/
theorem instances_consistent (maxInstances : Nat) (hpos : 1 ≤ maxInstances)
    (hmax : maxInstances ≤ S2E_MAX_PROCESSES) (m : Machine Shared Instance)
    (h : Machine.Reached (program maxInstances) Unwrapped start m) :
    ¬ m.Fails ∧ (m.locked () = false → ∃ ps : List Instance, m.threads = ps.map .out ∧
      TableHolds maxInstances (m.shared ()) ps) := by
  obtain ⟨c,hc,hf⟩ := h.follows
  have hcons := reached_consistent maxInstances hpos hmax hc
  refine ⟨fun hfails => ?_,fun hfree => ?_⟩
  · obtain ⟨l,⟨⟩,body,hl,hbody,ha,hnone⟩ := hf.fails hfails
    obtain ⟨p,hp⟩ := getElem?_of_mem hl
    obtain ⟨hlt,rfl⟩ := List.getElem?_eq_some_iff.mp hp
    have hcons := hcons.perm (getElem_cons_eraseIdx_perm hlt).symm
    obtain ⟨s',l',hrun,-⟩ := hcons.critical hmax (critical_eq maxInstances hbody) ha
    rw [hnone] at hrun
    cases hrun
  · rw [hf.eq_start fun _ => hfree]
    exact ⟨c.processes,rfl,hcons.tableHolds⟩

/-- The first instance forks, the child takes its slot, and both fetch a state id. -/
theorem instances_consistent_fork : ∃ m : Machine Shared Instance,
    m.threads = [.out {stateIds := [1]},
      .out {currentInstanceIndex := 1, currentInstanceId := 1, stateIds := [0]}] ∧
    (m.shared ()).currentInstanceCount = 2 ∧ ¬ m.Fails ∧
      ∃ ps : List Instance, m.threads = ps.map .out ∧ TableHolds 2 (m.shared ()) ps := by
  have hstart : SpinLock.Reached (program 2) Unwrapped start start := .start
  have hreserve := (hstart.step (.outside (p := 0) rfl (Outside.callFork rfl))).step
      (.critical (p := 0) rfl rfl (show (1 : UInt32) ≠ noInstance by decide) rfl)
  have hslot := (hreserve.step (.outside (p := 0) rfl (Outside.systemFork rfl))).step
    (.critical (p := 1) rfl rfl trivial rfl)
  have hchild := (hslot.step (.outside (p := 1) rfl (Outside.callFetch rfl))).step
    (.critical (p := 1) rfl rfl (show (0 : UInt32) ≠ 0xFFFFFFFF by decide) rfl)
  have hboth := (hchild.step (.outside (p := 0) rfl (Outside.callFetch rfl))).step
    (.critical (p := 0) rfl rfl (show (1 : UInt32) ≠ 0xFFFFFFFF by decide) rfl)
  have h := instances_consistent 2 (by decide) (by decide) _ hboth.machine
  exact ⟨_,rfl,rfl,h.1,h.2 rfl⟩

def firstIds : Nat → List UInt32
  | 0 => []
  | n+1 => UInt32.ofNat n :: firstIds n

lemma zero_mem_firstIds (n : Nat) : 0 ∈ firstIds (n+1) := by
  induction n with
  | zero => exact mem_cons_self
  | succ n ih => exact mem_cons_of_mem _ ih

lemma reached_fetches (maxInstances n : Nat) :
    Reached (program maxInstances) (fun _ _ _ => True) start
      ⟨fun _ => {start.shared () with lastStateId := ofNat n},[{stateIds := firstIds n}]⟩ := by
  induction n with
  | zero => exact .start
  | succ n ih =>
    have h := (ih.step (.outside (p := 0) rfl (Outside.callFetch rfl))).step
      (.critical (p := 0) rfl rfl trivial rfl)
    have hshared : ∀ s : S2EShared, Function.update (fun _ : Unit =>
        {start.shared () with lastStateId := ofNat n}) () s = fun _ => s :=
      fun s => funext fun _ => rfl
    rw [hshared] at h
    rw [ofNat_add]
    exact h

/-- After 2³² fetches the first id is given out again. -/
theorem state_ids_repeat : ∃ m : Machine Shared Instance,
    Machine.Reached (program 1) (fun _ _ _ => True) start m ∧ m.locked () = false ∧
      ∃ ps : List Instance, m.threads = ps.map .out ∧ ¬ TableHolds 1 (m.shared ()) ps := by
  refine ⟨_,(reached_fetches 1 (4294967295+1+1)).machine,rfl,_,rfl,fun h => ?_⟩
  have hnodup := h.stateIds
  simp only [flatMap_cons,flatMap_nil,append_nil] at hnodup
  exact (nodup_cons.mp hnodup).1 (zero_mem_firstIds _)

end Instance
end S2E
