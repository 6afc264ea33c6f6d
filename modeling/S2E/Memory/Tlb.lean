import S2E.Lib.ReverseIndex

/-!
The TLB of the symbolic memory and the map from the object states in it to their coordinates.
-/

namespace S2E
open Std Function

abbrev NB_MMU_MODES : Nat := 2
abbrev CPU_TLB_SIZE : Nat := 1024
def TARGET_PAGE_MASK : UInt64 := ~~~4095
def TLB_SYMB : UInt64 := 0x80
def TLB_NOT_OURS : UInt64 := 0x40

abbrev TlbCoordinates := Fin NB_MMU_MODES × Fin CPU_TLB_SIZE

/-- An object state is known by a number that no other one has. -/
structure CPUTLBEntry where
  addrRead : UInt64
  addrWrite : UInt64
  addrCode : UInt64
  seAddend : UInt64
  objectState : Option Nat
  deriving DecidableEq

structure TlbObject where
  isSharedConcrete : Bool
  concreteBuffer : UInt64

structure TlbStatus where
  isAllConcrete : Bool
  isOwnedByUs : Bool

structure Tlb where
  tlbTable : TlbCoordinates → CPUTLBEntry
  tlbMap : TreeMap Nat (List TlbCoordinates)

def CPUTLBEntry.empty : CPUTLBEntry where
  addrRead := -1
  addrWrite := -1
  addrCode := -1
  seAddend := 0
  objectState := none

namespace CPUTLBEntry

def updateConcreteStatus (e : CPUTLBEntry) (isAllConcrete : Bool) : CPUTLBEntry :=
  if isAllConcrete then
    { e with
      addrRead := e.addrRead &&& ~~~TLB_SYMB
      addrWrite := e.addrWrite &&& ~~~TLB_SYMB
      addrCode := e.addrCode &&& ~~~TLB_SYMB}
  else
    { e with
      addrRead := e.addrRead ||| TLB_SYMB
      addrWrite := e.addrWrite ||| TLB_SYMB
      addrCode := e.addrCode ||| TLB_SYMB}

def replaceObject (objects : Nat → TlbObject) (status : TlbStatus) (oldState newState : Nat)
    (e : CPUTLBEntry) : CPUTLBEntry :=
  let e := {e with objectState := some newState}
  let e := if (objects newState).isSharedConcrete then e else
    { e with
      seAddend := e.seAddend-(objects oldState).concreteBuffer+(objects newState).concreteBuffer
      addrWrite := if status.isOwnedByUs then e.addrWrite &&& ~~~TLB_NOT_OURS else e.addrWrite}
  e.updateConcreteStatus status.isAllConcrete

def setObject (objects : Nat → TlbObject) (status : TlbStatus) (newObjectState : Nat)
    (virtAddr hostAddr : UInt64) (e : CPUTLBEntry) : CPUTLBEntry :=
  let e := {e with objectState := some newObjectState}
  let e := if (objects newObjectState).isSharedConcrete then
    {e with seAddend := hostAddr-virtAddr}
  else
    { e with
      seAddend := (objects newObjectState).concreteBuffer-virtAddr
      addrWrite := if status.isOwnedByUs then e.addrWrite &&& ~~~TLB_NOT_OURS
        else e.addrWrite ||| TLB_NOT_OURS}
  e.updateConcreteStatus status.isAllConcrete

end CPUTLBEntry

namespace Tlb
section

-- Whether S2E runs in single path mode, and the object states.
variable (singlePathMode : Bool) (objects : Nat → TlbObject)

def setEntry (s : Tlb) (c : TlbCoordinates) (e : CPUTLBEntry) : Tlb :=
  {s with tlbTable := update s.tlbTable c e}

def flushTlbCachePage (s : Tlb) (objectState : Option Nat) (c : TlbCoordinates) : Option Tlb :=
  match objectState with
  | none => some s
  | some o =>
    let s := s.setEntry c {s.tlbTable c with objectState := none, seAddend := 0}
    if singlePathMode then some s else
      match s.tlbMap[o]? with
      | none => none
      | some vec =>
        if c ∈ vec then
          some { s with
            tlbMap := if vec.erase c = [] then s.tlbMap.erase o else
              s.tlbMap.insert o (vec.erase c)}
        else none

def flushTlbCache (_s : Tlb) : Tlb where
  tlbTable := fun _ => .empty
  tlbMap := ∅

def replaceAt (status : TlbStatus) (oldState newState : Nat)
    (table : TlbCoordinates → CPUTLBEntry) (c : TlbCoordinates) :
    Option (TlbCoordinates → CPUTLBEntry) :=
  if (table c).objectState = some oldState then
    some (update table c ((table c).replaceObject objects status oldState newState))
  else none

def updateTlb (s : Tlb) (oldState newState : Nat) (status : TlbStatus) : Option Tlb :=
  if singlePathMode then none
  else if (objects oldState).isSharedConcrete != (objects newState).isSharedConcrete then none
  else
    match s.tlbMap[oldState]? with
    | none => some s
    | some vec =>
      if vec = [] then none else do
        let table ← vec.foldlM (replaceAt objects status oldState newState) s.tlbTable
        let tlbMap := s.tlbMap.insert newState vec
        some {
          tlbTable := table
          tlbMap := if newState ≠ oldState then tlbMap.erase oldState else tlbMap}

end

def tlbIndex (virtAddr : UInt64) : Fin CPU_TLB_SIZE :=
  ⟨((virtAddr >>> 12) &&& 1023).toNat,by
    rw [UInt64.toNat_and]
    exact Nat.lt_of_le_of_lt Nat.and_le_right (by decide)⟩

def updateTlbEntry (singlePathMode : Bool) (objects : Nat → TlbObject) (s : Tlb)
    (mmuIdx : Fin NB_MMU_MODES) (virtAddr hostAddr : UInt64) (get : UInt64 → Option Nat)
    (status : TlbStatus) : Option Tlb :=
  if hostAddr &&& ~~~TARGET_PAGE_MASK ≠ 0 ∨ virtAddr &&& ~~~TARGET_PAGE_MASK ≠ 0 then none
  else do
    let c := (mmuIdx,tlbIndex virtAddr)
    let oldObjectState := (s.tlbTable c).objectState
    let newObjectState ← get hostAddr
    let s ← if oldObjectState = some newObjectState then some s else do
      let s ← s.flushTlbCachePage singlePathMode oldObjectState c
      if singlePathMode then some s else
        some { s with
          tlbMap := s.tlbMap.insert newObjectState (s.tlbMap.getD newObjectState [] ++ [c])}
    some (s.setEntry c ((s.tlbTable c).setObject objects status newObjectState virtAddr hostAddr))

def audit (s : Tlb) : Bool :=
  (s.tlbMap.toList.all fun (os,vec) => vec.all fun c => (s.tlbTable c).objectState == some os) &&
  (List.finRange CPU_TLB_SIZE).all fun i => (List.finRange NB_MMU_MODES).all fun mmuIdx =>
    match (s.tlbTable (mmuIdx,i)).objectState with
    | none => true
    | some o =>
      match s.tlbMap[o]? with
      | none => false
      | some vec => vec.count (mmuIdx,i) == 1

end Tlb

inductive TlbOperation where
  | updateTlbEntry (mmuIdx : Fin NB_MMU_MODES) (virtAddr hostAddr : UInt64)
      (get : UInt64 → Option Nat) (status : TlbStatus)
  | updateTlb (oldState newState : Nat) (status : TlbStatus)
  -- For the object of the entry itself.
  | flushTlbCachePage (c : TlbCoordinates)
  | flushTlbCache

structure TlbRun where
  tlb : Tlb
  page : TlbCoordinates → UInt64

namespace TlbRun

def start : TlbRun := ⟨⟨fun _ => .empty,∅⟩,fun _ => 0⟩

def step (singlePathMode : Bool) (objects : Nat → TlbObject) (r : TlbRun) :
    TlbOperation → Option TlbRun
  | .updateTlbEntry mmuIdx virtAddr hostAddr get status => do
    let tlb ← r.tlb.updateTlbEntry singlePathMode objects mmuIdx virtAddr hostAddr get status
    some ⟨tlb,update r.page (mmuIdx,Tlb.tlbIndex virtAddr) virtAddr⟩
  | .updateTlb oldState newState status => do
    let tlb ← r.tlb.updateTlb singlePathMode objects oldState newState status
    some {r with tlb}
  | .flushTlbCachePage c => do
    let tlb ← r.tlb.flushTlbCachePage singlePathMode (r.tlb.tlbTable c).objectState c
    some {r with tlb}
  | .flushTlbCache => some {r with tlb := r.tlb.flushTlbCache}

/-- Addresses are those of pages and the host page is bound; an object state is replaced by
itself, or by one that is not in the TLB yet and is shared if and only if the old one is. -/
def Admits (objects : Nat → TlbObject) (r : TlbRun) : TlbOperation → Prop
  | .updateTlbEntry _ virtAddr hostAddr get _ =>
    virtAddr &&& ~~~TARGET_PAGE_MASK = 0 ∧ hostAddr &&& ~~~TARGET_PAGE_MASK = 0 ∧
      (get hostAddr).isSome
  | .updateTlb oldState newState _ =>
    newState = oldState ∨ (∀ c, (r.tlb.tlbTable c).objectState ≠ some newState) ∧
      (objects newState).isSharedConcrete = (objects oldState).isSharedConcrete
  | .flushTlbCachePage _ | .flushTlbCache => True

inductive Reached (objects : Nat → TlbObject) : TlbRun → Prop where
  | start : Reached objects start
  | step {r r' : TlbRun} {op : TlbOperation} (h : Reached objects r) (hop : r.Admits objects op)
      (hstep : r.step false objects op = some r') : Reached objects r'

end TlbRun

variable {oldState : Nat} {newState o : Nat}

namespace CPUTLBEntry
variable (objects : Nat → TlbObject) (status : TlbStatus) (e : CPUTLBEntry)

@[simp]
lemma objectState_updateConcreteStatus (b : Bool) :
    (e.updateConcreteStatus b).objectState = e.objectState := by
  cases b <;> rfl

@[simp]
lemma seAddend_updateConcreteStatus (b : Bool) :
    (e.updateConcreteStatus b).seAddend = e.seAddend := by
  cases b <;> rfl

@[simp]
lemma objectState_replaceObject (oldState newState : Nat) :
    (e.replaceObject objects status oldState newState).objectState = some newState := by
  unfold replaceObject
  cases (objects newState).isSharedConcrete <;> simp

lemma seAddend_replaceObject (h : (objects newState).isSharedConcrete = false) :
    (e.replaceObject objects status oldState newState).seAddend =
      e.seAddend-(objects oldState).concreteBuffer+(objects newState).concreteBuffer := by
  simp [replaceObject,h]

@[simp]
lemma objectState_setObject (o : Nat) (virtAddr hostAddr : UInt64) :
    (e.setObject objects status o virtAddr hostAddr).objectState = some o := by
  unfold setObject
  cases (objects o).isSharedConcrete <;> simp

lemma seAddend_setObject (h : (objects o).isSharedConcrete = false)
    (virtAddr hostAddr : UInt64) : (e.setObject objects status o virtAddr hostAddr).seAddend =
      (objects o).concreteBuffer-virtAddr := by
  simp [setObject,h]

end CPUTLBEntry

variable {s : Tlb}

namespace Tlb

def held (s : Tlb) (c : TlbCoordinates) : Option Nat :=
  (s.tlbTable c).objectState

lemma held_setEntry (s : Tlb) (c : TlbCoordinates) (e : CPUTLBEntry) :
    (s.setEntry c e).held = update s.held c e.objectState :=
  comp_update CPUTLBEntry.objectState s.tlbTable c e

lemma audit_of_indexes (h : Indexes s.tlbMap s.held) : s.audit := by
  simp only [audit,Bool.and_eq_true,List.all_eq_true]
  refine ⟨fun ⟨o,vec⟩ hvec c hc => ?_,fun i _ mmuIdx _ => ?_⟩
  · rw [beq_iff_eq]
    exact h.key_of_mem (Maps.mem_toList.mp hvec) hc
  · cases hheld : (s.tlbTable (mmuIdx,i)).objectState with
    | none => rfl
    | some o =>
      obtain ⟨vec,hvec,hmem⟩ := h.mem.mp hheld
      simp only [hvec,beq_iff_eq]
      exact List.count_eq_one_of_mem (h.nodup hvec) hmem

lemma flushTlbCachePage_spec (h : Indexes s.tlbMap s.held) (c : TlbCoordinates) :
    ∃ s', s.flushTlbCachePage false (s.held c) c = some s' ∧ Indexes s'.tlbMap s'.held ∧
      s'.held c = none ∧ ∀ c', c' ≠ c → s'.tlbTable c' = s.tlbTable c' := by
  cases hheld : s.held c with
  | none => exact ⟨s,rfl,h,hheld,fun _ _ => rfl⟩
  | some o =>
    obtain ⟨vec,hvec,hmem⟩ := h.mem.mp hheld
    have hindexes := h.remove hvec hheld
    refine ⟨{ s.setEntry c {s.tlbTable c with objectState := none, seAddend := 0} with
      tlbMap := if vec.erase c = [] then s.tlbMap.erase o else s.tlbMap.insert o (vec.erase c)},
      ?_,?_,?_,?_⟩
    · simp [flushTlbCachePage,setEntry,hvec,hmem]
    · change Indexes _ (s.setEntry c _).held
      rw [held_setEntry]
      exact hindexes
    · change (s.setEntry c _).held c = none
      rw [held_setEntry,update_self]
    · intro c' hc'
      exact update_of_ne hc' _ _

lemma foldlM_replaceAt (objects : Nat → TlbObject) (status : TlbStatus) (newState : Nat)
    {vec : List TlbCoordinates} (hnodup : vec.Nodup)
    (table : TlbCoordinates → CPUTLBEntry)
    (hold : ∀ c ∈ vec, (table c).objectState = some oldState) :
    ∃ table', vec.foldlM (replaceAt objects status oldState newState) table = some table' ∧
      (∀ c ∈ vec, table' c = (table c).replaceObject objects status oldState newState) ∧
      ∀ c, c ∉ vec → table' c = table c := by
  induction vec generalizing table with
  | nil => exact ⟨table,rfl,fun _ hc => absurd hc List.not_mem_nil,fun _ _ => rfl⟩
  | cons c vec ih =>
    obtain ⟨hc,hnodup⟩ := List.nodup_cons.mp hnodup
    have hne : ∀ c' ∈ vec, c' ≠ c := fun c' hc' heq => hc (heq ▸ hc')
    obtain ⟨table',htable',hin,hout⟩ := ih hnodup (update table c
        ((table c).replaceObject objects status oldState newState)) fun c' hc' => by
      rw [update_of_ne (hne c' hc')]
      exact hold c' (List.mem_cons_of_mem _ hc')
    refine ⟨table',?_,fun c' hc' => ?_,fun c' hc' => ?_⟩
    · rw [List.foldlM_cons,replaceAt,if_pos (hold c List.mem_cons_self)]
      exact htable'
    · rcases List.mem_cons.mp hc' with rfl | hc'
      · rw [hout c' hc,update_self]
      · rw [hin c' hc',update_of_ne (hne c' hc')]
    · obtain ⟨hcc,hc'⟩ := not_or.mp (mt List.mem_cons.mpr hc')
      rw [hout c' hc',update_of_ne hcc]

lemma updateTlb_spec (h : Indexes s.tlbMap s.held) {objects : Nat → TlbObject}
    (hnew : newState = oldState ∨ (∀ c, s.held c ≠ some newState) ∧
      (objects newState).isSharedConcrete = (objects oldState).isSharedConcrete)
    (status : TlbStatus) : ∃ s', s.updateTlb false objects oldState newState status = some s' ∧
      Indexes s'.tlbMap s'.held ∧ ∀ c, s'.tlbTable c = if s.held c = some oldState then
        (s.tlbTable c).replaceObject objects status oldState newState else s.tlbTable c := by
  have hshared : ((objects oldState).isSharedConcrete !=
      (objects newState).isSharedConcrete) = false := by
    rcases hnew with rfl | ⟨-,hshared⟩
    · exact bne_self_eq_false _
    · rw [hshared,bne_self_eq_false]
  cases hvec : s.tlbMap[oldState]? with
  | none =>
    refine ⟨s,by simp [updateTlb,hshared,hvec],h,fun c => ?_⟩
    split
    next hheld =>
      obtain ⟨vec,hsome,-⟩ := h.mem.mp hheld
      rw [hvec] at hsome
      cases hsome
    · rfl
  | some vec =>
    obtain ⟨table,hloop,hin,hout⟩ := foldlM_replaceAt objects status newState (h.nodup hvec)
      s.tlbTable fun c hc => h.key_of_mem hvec hc
    have htable : ∀ c, table c = if s.held c = some oldState then
        (s.tlbTable c).replaceObject objects status oldState newState else s.tlbTable c := by
      intro c
      split
      next hheld =>
        exact hin c (h.mem_of_key hvec hheld)
      next hheld =>
        exact hout c (mt (h.key_of_mem hvec) hheld)
    refine ⟨⟨table,if newState ≠ oldState then (s.tlbMap.insert newState vec).erase oldState
      else s.tlbMap.insert newState vec⟩,?_,?_,htable⟩
    · simp [updateTlb,hshared,hvec,h.ne_nil hvec,hloop]
    · refine h.replace hvec (hnew.imp id fun hnew => h.getElem?_eq_none hnew.1)
        (fun c hc => ?_) fun c hc => ?_
      · change (table c).objectState = some newState
        rw [htable,if_pos hc,CPUTLBEntry.objectState_replaceObject]
      · change (table c).objectState = s.held c
        rw [htable,if_neg hc,held]

lemma updateTlbEntry_spec (h : Indexes s.tlbMap s.held) (objects : Nat → TlbObject)
    (mmuIdx : Fin NB_MMU_MODES) {virtAddr hostAddr : UInt64} {get : UInt64 → Option Nat}
    (hvirt : virtAddr &&& ~~~TARGET_PAGE_MASK = 0) (hhost : hostAddr &&& ~~~TARGET_PAGE_MASK = 0)
    (hget : get hostAddr = some o) (status : TlbStatus) :
    ∃ s', s.updateTlbEntry false objects mmuIdx virtAddr hostAddr get status = some s' ∧
      Indexes s'.tlbMap s'.held ∧ (∃ e : CPUTLBEntry, s'.tlbTable (mmuIdx,tlbIndex virtAddr) =
        e.setObject objects status o virtAddr hostAddr) ∧
      ∀ c, c ≠ (mmuIdx,tlbIndex virtAddr) → s'.tlbTable c = s.tlbTable c := by
  generalize hc0 : (mmuIdx,tlbIndex virtAddr) = c0
  have hset : ∀ (s : Tlb) (e : CPUTLBEntry),
      (s.setEntry c0 (e.setObject objects status o virtAddr hostAddr)).held =
        update s.held c0 (some o) := by
    intro s e
    rw [held_setEntry,CPUTLBEntry.objectState_setObject]
  by_cases hsame : s.held c0 = some o
  · refine ⟨s.setEntry c0 ((s.tlbTable c0).setObject objects status o virtAddr hostAddr),
      ?_,?_,⟨_,update_self ..⟩,fun c hc => update_of_ne hc _ _⟩
    · have hsame' : (s.tlbTable c0).objectState = some o := hsame
      simp [updateTlbEntry,hc0,hvirt,hhost,hget,hsame']
    · rw [hset,← hsame,update_eq_self]
      exact h
  · obtain ⟨s1,hflush,hindexes,hnone,hother⟩ := flushTlbCachePage_spec h c0
    refine ⟨{ s1.setEntry c0 ((s1.tlbTable c0).setObject objects status o virtAddr hostAddr) with
      tlbMap := s1.tlbMap.insert o (s1.tlbMap.getD o [] ++ [c0])},?_,?_,
      ⟨_,update_self ..⟩,fun c hc => ?_⟩
    · have hsame' : (s.tlbTable c0).objectState ≠ some o := hsame
      have hflush' : s.flushTlbCachePage false (s.tlbTable c0).objectState c0 = some s1 := hflush
      simp [updateTlbEntry,hc0,hvirt,hhost,hget,hsame',hflush',setEntry]
    · change Indexes _ (s1.setEntry c0 _).held
      rw [hset]
      exact hindexes.add hnone
    · exact (update_of_ne hc _ _).trans (hother c hc)

end Tlb

namespace TlbRun

structure Sound (objects : Nat → TlbObject) (r : TlbRun) : Prop where
  indexes : Indexes r.tlb.tlbMap r.tlb.held
  addend : ∀ {c o}, r.tlb.held c = some o → (objects o).isSharedConcrete = false →
    (r.tlb.tlbTable c).seAddend+r.page c = (objects o).concreteBuffer

namespace Sound
variable {objects : Nat → TlbObject} {r : TlbRun}

lemma start : Sound objects start where
  indexes := .empty fun _ => rfl
  addend h := by cases h

lemma of_others (h : Sound objects r) {r' : TlbRun} {c : TlbCoordinates}
    (hindexes : Indexes r'.tlb.tlbMap r'.tlb.held)
    (hothers : ∀ c', c' ≠ c → r'.tlb.tlbTable c' = r.tlb.tlbTable c' ∧ r'.page c' = r.page c')
    (haddend : ∀ o, r'.tlb.held c = some o → (objects o).isSharedConcrete = false →
      (r'.tlb.tlbTable c).seAddend+r'.page c = (objects o).concreteBuffer) : Sound objects r' := by
  refine ⟨hindexes,fun {c' o} hheld hshared => ?_⟩
  by_cases hc : c' = c
  · subst hc
    exact haddend o hheld hshared
  obtain ⟨htable,hpage⟩ := hothers c' hc
  rw [Tlb.held,htable] at hheld
  rw [htable,hpage]
  exact h.addend hheld hshared

lemma step (h : Sound objects r) {op : TlbOperation} (hop : r.Admits objects op) :
    ∃ r', r.step false objects op = some r' ∧ Sound objects r' := by
  cases op with
  | updateTlbEntry mmuIdx virtAddr hostAddr get status =>
    obtain ⟨hvirt,hhost,hsome⟩ := hop
    obtain ⟨o,hget⟩ := Option.isSome_iff_exists.mp hsome
    obtain ⟨tlb,htlb,hindexes,⟨e,hentry⟩,hother⟩ :=
      Tlb.updateTlbEntry_spec h.indexes objects mmuIdx hvirt hhost hget status
    refine ⟨⟨tlb,update r.page (mmuIdx,Tlb.tlbIndex virtAddr) virtAddr⟩,
      by simp [TlbRun.step,htlb],h.of_others hindexes
        (fun c hc => ⟨hother c hc,update_of_ne hc _ _⟩) fun o' hheld hshared => ?_⟩
    obtain rfl : o = o' := by
      rw [Tlb.held,hentry,CPUTLBEntry.objectState_setObject] at hheld
      exact Option.some.inj hheld
    simp only [hentry,CPUTLBEntry.seAddend_setObject _ _ _ hshared,update_self]
    exact UInt64.sub_add_cancel _ _
  | updateTlb oldState newState status =>
    obtain ⟨tlb,htlb,hindexes,htable⟩ := Tlb.updateTlb_spec h.indexes hop status
    refine ⟨{r with tlb},by simp [TlbRun.step,htlb],hindexes,fun {c o} hheld hshared => ?_⟩
    change (tlb.tlbTable c).objectState = some o at hheld
    rw [htable] at hheld ⊢
    split at hheld
    next hold =>
      rw [CPUTLBEntry.objectState_replaceObject] at hheld
      cases hheld
      have hshared' : (objects oldState).isSharedConcrete = false := by
        rcases hop with rfl | ⟨-,heq⟩
        · exact hshared
        · exact heq.symm.trans hshared
      rw [if_pos hold,CPUTLBEntry.seAddend_replaceObject _ _ _ hshared,← h.addend hold hshared']
      grind
    next hold =>
      rw [if_neg hold]
      exact h.addend hheld hshared
  | flushTlbCachePage c =>
    obtain ⟨tlb,htlb,hindexes,hnone,hother⟩ := Tlb.flushTlbCachePage_spec h.indexes c
    refine ⟨{r with tlb},?_,h.of_others hindexes (fun c' hc => ⟨hother c' hc,rfl⟩)
      fun o hheld => ?_⟩
    · have htlb' : r.tlb.flushTlbCachePage false (r.tlb.tlbTable c).objectState c = some tlb := htlb
      simp [TlbRun.step,htlb']
    · rw [hnone] at hheld
      cases hheld
  | flushTlbCache => exact ⟨_,rfl,.empty fun _ => rfl,nofun⟩

lemma of_reached (h : Reached objects r) : Sound objects r := by
  induction h with
  | start => exact .start
  | step _ hop hstep ih =>
    obtain ⟨r'',hr'',hsound⟩ := ih.step hop
    rw [hstep] at hr''
    cases hr''
    exact hsound

end Sound

/-- The audit passes in every state, the addend of an entry leads from its virtual page to the
buffer of its object, and no admitted operation fails. -/
theorem tlb_audited {objects : Nat → TlbObject} {r : TlbRun} (h : Reached objects r) :
    r.tlb.audit = true ∧
    (∀ c o, (r.tlb.tlbTable c).objectState = some o → (objects o).isSharedConcrete = false →
      (r.tlb.tlbTable c).seAddend+r.page c = (objects o).concreteBuffer) ∧
    ∀ op, r.Admits objects op → (r.step false objects op).isSome := by
  have hsound := Sound.of_reached h
  refine ⟨Tlb.audit_of_indexes hsound.indexes,fun c o => hsound.addend,fun op hop => ?_⟩
  obtain ⟨r',hr',-⟩ := hsound.step hop
  rw [hr']
  rfl

def twoObjects (o : Nat) : TlbObject := ⟨o == 1,0x5000⟩

def concreteOurs : TlbStatus := ⟨true,true⟩

def setFirst : TlbOperation := .updateTlbEntry 0 0x1000 0x5000 (fun _ => some 0) concreteOurs

theorem tlb_audited_setFirst : ∃ r, start.step false twoObjects setFirst = some r ∧
    r.tlb.held (0,1) = some 0 ∧ r.tlb.audit = true := by
  have hadmits : start.Admits twoObjects setFirst := ⟨by decide,by decide,rfl⟩
  obtain ⟨r,hr⟩ := Option.isSome_iff_exists.mp ((tlb_audited .start).2.2 setFirst hadmits)
  have hheld : (start.step false twoObjects setFirst).all fun r => r.tlb.held (0,1) == some 0 := by
    decide +kernel
  rw [hr] at hheld
  exact ⟨r,hr,beq_iff_eq.mp hheld,(tlb_audited (.step .start hadmits hr)).1⟩

/-- In single path mode the map is not kept; the sharing of the two object states must agree,
and addresses must be those of bound pages. -/
theorem tlb_fails : ((start.step true twoObjects setFirst).any fun r => !r.tlb.audit) = true ∧
    ((start.step false twoObjects setFirst).any fun r =>
      (r.step false twoObjects (.updateTlb 0 1 concreteOurs)).isNone) = true ∧
    (start.step false twoObjects
      (.updateTlbEntry 0 0x1001 0x5000 (fun _ => some 0) concreteOurs)).isNone = true ∧
    (start.step false twoObjects
      (.updateTlbEntry 0 0x1000 0x5000 (fun _ => none) concreteOurs)).isNone = true := by
  decide +kernel

end TlbRun
end S2E
