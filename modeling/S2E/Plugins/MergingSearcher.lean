import S2E.Lib.Maps
import S2E.Lib.Runs
import S2E.Plugins.MergeGroups

/-!
`MergingSearcher.cpp`: states that start a merge point together with what they fork, and wait for
each other at its end. The states that the executor forks and deletes are told apart by a number
that is not used again.
-/

namespace S2E
open Std Option

structure MergePool where
  firstState : Option Nat := none
  states : TreeSet Nat := ∅

/-- The plugin, without a custom selector. Group ids start at 1. -/
structure MergingSearcher where
  mergePools : TreeMap Nat MergePool := ∅
  activeStates : TreeSet Nat := ∅
  currentState : Option Nat := none
  nextMergeGroupId : Nat := 1

namespace MergingSearcher
variable (m : MergingSearcher)

def pool (id : Nat) : MergePool := m.mergePools[id]?.getD {}

def setPool (id : Nat) (p : MergePool) : MergingSearcher :=
  {m with mergePools := m.mergePools.insert id p}

def erasePool (id : Nat) : MergingSearcher :=
  {m with mergePools := m.mergePools.erase id}

def selectState (begin : Nat) : Option (Nat × MergingSearcher) :=
  match m.currentState with
  | some state => some (state,m)
  | none =>
    if begin ∈ m.activeStates then some (begin, {m with currentState := some begin}) else none

def removeState (groupId : Nat → Nat) (m : MergingSearcher) (state : Nat) : MergingSearcher :=
  let m := { m with
    activeStates := m.activeStates.erase state
    currentState := if some state = m.currentState then none else m.currentState}
  let id := groupId state
  if id = 0 then m
  else m.setPool id {m.pool id with states := (m.pool id).states.erase state}

def addState (groupId : Nat → Nat) (m : MergingSearcher) (state : Nat) : MergingSearcher :=
  let m := {m with activeStates := m.activeStates.insert state}
  let id := groupId state
  if id = 0 then m
  else m.setPool id {m.pool id with states := (m.pool id).states.insert state}

def update (groupId : Nat → Nat) (m : MergingSearcher) (added removed : List Nat) :
    MergingSearcher :=
  let states := added.filter (· ∉ removed)
  states.foldl (addState groupId) (removed.foldl (removeState groupId) m)

def suspend (state : Nat) : MergingSearcher :=
  { m with
    currentState := if m.currentState = some state then none else m.currentState
    activeStates := m.activeStates.erase state}

def resume (state : Nat) : MergingSearcher :=
  {m with activeStates := m.activeStates.insert state}

end MergingSearcher

structure Merging where
  searcher : MergingSearcher
  groupIds : TreeMap Nat Nat
  /-- The forked states that the searcher was not told about. -/
  forked : TreeSet Nat := ∅
  /-- The states that were merged into another one and wait to be deleted. -/
  merged : TreeSet Nat := ∅
  nextState : Nat

namespace Merging
variable (s : Merging)

def groupId (state : Nat) : Nat := s.groupIds[state]?.getD 0

def setGroupId (state id : Nat) : Merging :=
  {s with groupIds := s.groupIds.insert state id}

def mergeStart (state : Nat) : Merging :=
  if s.groupId state ≠ 0 then s
  else
    let id := s.searcher.nextMergeGroupId
    let p := s.searcher.pool id
    let m := s.searcher.setPool id {p with states := p.states.insert state}
    {s.setGroupId state id with searcher := {m with nextMergeGroupId := id+1}}

def release (id firstState : Nat) : Merging :=
  {s.setGroupId firstState 0 with searcher := (s.searcher.resume firstState).erasePool id}

def mergeInto (state id firstState : Nat) (p : MergePool) (success : Bool) : Option Merging :=
  if firstState ∈ s.groupIds then
    let s := if p.states.isEmpty then s.release id firstState
      else {s with searcher := s.searcher.setPool id p}
    some (if success then {s with merged := s.merged.insert state} else s.setGroupId state 0)
  else none

def mergeEnd (state : Nat) (success : Bool) : Option Merging :=
  let id := s.groupId state
  match s.searcher.mergePools[id]? with
  | none => some s
  | some p =>
    let p := {p with states := p.states.erase state}
    match p.firstState with
    | none =>
      if p.states.isEmpty then
        some {s.setGroupId state 0 with searcher := s.searcher.erasePool id}
      else
        some { s with
          searcher := (s.searcher.setPool id {p with firstState := some state}).suspend state}
    | some firstState => s.mergeInto state id firstState p success

inductive Event where
  | selectState (begin : Nat)
  | fork (state : Nat)
  /-- A forked state dies before the searcher is told about it. -/
  | discard (state : Nat)
  | mergeStart (state : Nat)
  | mergeEnd (state : Nat) (success : Bool)
  /-- The executor tells the searcher, and then deletes the removed states. -/
  | update (removed : List Nat)

def step : Event → Option Merging
  | .selectState begin => (s.searcher.selectState begin).map fun r => {s with searcher := r.2}
  | .fork state => some { s with
      groupIds := s.groupIds.insert s.nextState (s.groupId state)
      forked := s.forked.insert s.nextState
      nextState := s.nextState+1}
  | .discard state => some { s with
      groupIds := s.groupIds.erase state
      forked := s.forked.erase state}
  | .mergeStart state => some (s.mergeStart state)
  | .mergeEnd state success => s.mergeEnd state success
  | .update removed => some { s with
      searcher := s.searcher.update s.groupId s.forked.toList removed
      groupIds := removed.foldl .erase s.groupIds
      forked := ∅
      merged := ∅}

def Applies : Event → Prop
  | .selectState begin => begin ∈ s.searcher.activeStates
  | .fork state | .mergeStart state | .mergeEnd state _ =>
    state ∈ s.searcher.activeStates ∧ state ∉ s.merged
  | .discard state => state ∈ s.forked
  | .update removed => ∀ a ∈ s.merged.toList, a ∈ removed

def Suspended (a : Nat) : Prop :=
  a ∈ s.groupIds ∧ a ∉ s.forked ∧ a ∉ s.searcher.activeStates

def OnItsWay (id b : Nat) : Prop :=
  b ∈ s.groupIds ∧ s.groupId b = id ∧ ¬s.Suspended b ∧ b ∉ s.merged

instance (a : Nat) : Decidable (s.Suspended a) :=
  inferInstanceAs (Decidable (_ ∧ _ ∧ _))

instance (id b : Nat) : Decidable (s.OnItsWay id b) :=
  inferInstanceAs (Decidable (_ ∧ _ ∧ _ ∧ _))

instance : (e : Event) → Decidable (s.Applies e)
  | .selectState _ => inferInstanceAs (Decidable (_ ∈ _))
  | .fork _ | .mergeStart _ | .mergeEnd _ _ => inferInstanceAs (Decidable (_ ∧ _))
  | .discard _ => inferInstanceAs (Decidable (_ ∈ _))
  | .update removed => inferInstanceAs (Decidable (∀ a ∈ s.merged.toList, a ∈ removed))

/-- An update does not remove the last state that is on its way to a merge point where another
one waits. -/
def Admits : Event → Prop
  | .update removed => ∀ a ∈ s.groupIds.keys, s.Suspended a → a ∉ removed →
      ∃ b ∈ s.groupIds.keys, s.OnItsWay (s.groupId a) b ∧ b ∉ removed
  | .selectState _ | .fork _ | .discard _ | .mergeStart _ | .mergeEnd _ _ => True

instance : (e : Event) → Decidable (s.Admits e)
  | .update removed => inferInstanceAs (Decidable (∀ a ∈ s.groupIds.keys, s.Suspended a →
      a ∉ removed → ∃ b ∈ s.groupIds.keys, s.OnItsWay (s.groupId a) b ∧ b ∉ removed))
  | .selectState _ | .fork _ | .discard _ | .mergeStart _ | .mergeEnd _ _ =>
    inferInstanceAs (Decidable True)

def start : Merging where
  searcher := {activeStates := TreeSet.insert ∅ 0}
  groupIds := TreeMap.insert ∅ 0 0
  nextState := 1

def Reached (admits : Merging → Event → Prop) : Merging → Prop :=
  Runs.Reached step (fun s e => s.Applies e ∧ admits s e) (· = start)

end Merging

namespace MergingSearcher
variable {m : MergingSearcher} {id : Nat} {p : MergePool}

lemma pool_of_getElem? (h : m.mergePools[id]? = some p) : m.pool id = p := by
  rw [pool,h,getD_some]

lemma pool_setPool (id' : Nat) :
    (m.setPool id p).pool id' = if id' = id then p else m.pool id' := Maps.getD_insert _

lemma pool_erasePool (id' : Nat) :
    (m.erasePool id).pool id' = if id' = id then {} else m.pool id' := Maps.getD_erase _

structure Marks (groupId : Nat → Nat) (there : Bool) (m : MergingSearcher) (states : List Nat)
    (m' : MergingSearcher) : Prop where
  next : m'.nextMergeGroupId = m.nextMergeGroupId
  active : ∀ b, b ∈ m'.activeStates ↔ if b ∈ states then there = true else b ∈ m.activeStates
  first : ∀ id, (m'.pool id).firstState = (m.pool id).firstState
  member : ∀ id b, b ∈ (m'.pool id).states ↔
    if b ∈ states ∧ groupId b = id ∧ id ≠ 0 then there = true else b ∈ (m.pool id).states

lemma removeState_marks (groupId : Nat → Nat) (m : MergingSearcher) (a : Nat) :
    Marks groupId false m [a] (m.removeState groupId a) := by
  unfold removeState
  dsimp only
  split
  · refine ⟨rfl,fun b => Sets.mem_erase.trans ?_,fun id => rfl,fun id b => ?_⟩ <;>
      grind [pool]
  · refine ⟨rfl,fun b => Sets.mem_erase.trans ?_,fun id => ?_,fun id b => ?_⟩ <;>
      grind [pool,setPool,pool_setPool,Sets.mem_erase]

lemma addState_marks (groupId : Nat → Nat) (m : MergingSearcher) (a : Nat) :
    Marks groupId true m [a] (m.addState groupId a) := by
  unfold addState
  dsimp only
  split
  · refine ⟨rfl,fun b => Sets.mem_insert.trans ?_,fun id => rfl,fun id b => ?_⟩ <;>
      grind [pool]
  · refine ⟨rfl,fun b => Sets.mem_insert.trans ?_,fun id => ?_,fun id b => ?_⟩ <;>
      grind [pool,setPool,pool_setPool,Sets.mem_insert]

lemma foldl_marks {groupId : Nat → Nat} {there : Bool}
    {f : MergingSearcher → Nat → MergingSearcher} (hf : ∀ m a, Marks groupId there m [a] (f m a))
    (m : MergingSearcher) (states : List Nat) :
    Marks groupId there m states (states.foldl f m) := by
  induction states generalizing m with
  | nil => constructor <;> simp
  | cons a states ih =>
    obtain ⟨hnext,hactive,hfirst,hmember⟩ := hf m a
    obtain ⟨hnext',hactive',hfirst',hmember'⟩ := ih (f m a)
    constructor <;> grind

lemma update_spec (groupId : Nat → Nat) (m : MergingSearcher) (added removed : List Nat) :
    let m' := m.update groupId added removed
    m'.nextMergeGroupId = m.nextMergeGroupId ∧
      (∀ b, b ∈ m'.activeStates ↔ b ∉ removed ∧ (b ∈ added ∨ b ∈ m.activeStates)) ∧
        ∀ id, (m'.pool id).firstState = (m.pool id).firstState ∧ ∀ b, b ∈ (m'.pool id).states ↔
          b ∉ removed ∧ b ∈ added ∧ groupId b = id ∧ id ≠ 0 ∨
            ¬(b ∈ removed ∧ groupId b = id ∧ id ≠ 0) ∧ b ∈ (m.pool id).states := by
  obtain ⟨hnext,hactive,hfirst,hmember⟩ := foldl_marks (removeState_marks groupId) m removed
  obtain ⟨hnext',hactive',hfirst',hmember'⟩ := foldl_marks (addState_marks groupId)
    (removed.foldl (removeState groupId) m) (added.filter (· ∉ removed))
  refine ⟨hnext'.trans hnext,fun b => ?_,fun id => ⟨(hfirst' id).trans (hfirst id),fun b => ?_⟩⟩
  · rw [update,hactive',hactive]
    grind
  · rw [update,hmember',hmember]
    grind

end MergingSearcher

variable {f : Nat} {success : Bool}

namespace Merging
variable {s s' : Merging} {a b id : Nat}

def view (s : Merging) : MergeGroups where
  group := s.groupId
  first id := (s.searcher.pool id).firstState
  member id b := b ∈ (s.searcher.pool id).states
  active b := b ∈ s.searcher.activeStates
  forked b := b ∈ s.forked
  merged b := b ∈ s.merged
  alive b := b ∈ s.groupIds
  nextGroup := s.searcher.nextMergeGroupId
  nextState := s.nextState

lemma groupId_setGroupId : (s.setGroupId a id).groupId b = if b = a then id else s.groupId b :=
  Maps.getD_insert _

lemma view_fork : view { s with
    groupIds := s.groupIds.insert s.nextState (s.groupId a)
    forked := s.forked.insert s.nextState
    nextState := s.nextState+1} = s.view.fork a := by
  refine MergeGroups.ext (funext fun b => groupId_setGroupId) rfl rfl rfl ?_ rfl ?_ rfl rfl
  · exact funext fun b => propext Sets.mem_insert
  · exact funext fun b => propext Maps.mem_insert

lemma view_discard : view { s with
    groupIds := s.groupIds.erase a
    forked := s.forked.erase a} = s.view.discard a := by
  refine MergeGroups.ext (funext fun b => Maps.getD_erase _) rfl rfl rfl ?_ rfl ?_ rfl rfl
  · exact funext fun b => propext Sets.mem_erase
  · exact funext fun b => propext Maps.mem_erase

lemma mem_setGroupId (ha : a ∈ s.groupIds) : b ∈ (s.setGroupId a id).groupIds ↔ b ∈ s.groupIds :=
  Maps.mem_insert_of_mem ha

variable {p : MergePool}

section
variable (h : s.view.Inv)
include h

lemma view_mergeStart (ha : a ∈ s.searcher.activeStates)
    (h0 : s.groupId a = 0) : (s.mergeStart a).view = s.view.begin a := by
  have halive := (h.known a ha).1
  rw [mergeStart,if_neg (not_not_intro h0)]
  refine MergeGroups.ext (funext fun b => groupId_setGroupId) (funext fun id => ?_)
    (funext₂ fun id b => propext ?_) rfl rfl rfl
      (funext fun b => propext (mem_setGroupId halive)) rfl rfl
  · change ((s.searcher.setPool _ _).pool id).firstState = (s.searcher.pool id).firstState
    rw [MergingSearcher.pool_setPool]
    split
    next hid =>
      rw [hid]
    · rfl
  · change b ∈ ((s.searcher.setPool _ _).pool id).states ↔ _
    rw [MergingSearcher.pool_setPool]
    simp only [MergeGroups.begin,view]
    split
    next hid =>
      simp only [hid,true_and]
      exact Sets.mem_insert
    next hid =>
      simp [hid]

lemma mem_other_pool (hid : id ≠ s.groupId a) :
    b ∈ (s.searcher.pool id).states ↔ b ≠ a ∧ b ∈ (s.searcher.pool id).states := by
  refine (and_iff_right_of_imp fun hb => ?_).symm
  rintro rfl
  exact hid ((h.member id b).mp hb).2.1.symm

lemma mem_setPool (hp : p.states = (s.searcher.pool (s.groupId a)).states.erase a) :
    b ∈ ((s.searcher.setPool (s.groupId a) p).pool id).states ↔
      b ≠ a ∧ b ∈ (s.searcher.pool id).states := by
  rw [MergingSearcher.pool_setPool]
  split
  next hid =>
    rw [hp,hid,Sets.mem_erase]
  next hid => exact mem_other_pool h hid

lemma mem_erasePool (halone : ∀ b ∈ (s.searcher.pool (s.groupId a)).states, b = a) :
    b ∈ ((s.searcher.erasePool (s.groupId a)).pool id).states ↔
      b ≠ a ∧ b ∈ (s.searcher.pool id).states := by
  rw [MergingSearcher.pool_erasePool]
  split
  next hid =>
    rw [hid]
    exact iff_of_false TreeSet.not_mem_emptyc fun hb => hb.1 (halone b hb.2)
  next hid => exact mem_other_pool h hid

lemma view_close (ha : a ∈ s.searcher.activeStates)
    (hfirst : (s.searcher.pool (s.groupId a)).firstState = none)
    (halone : ∀ b ∈ (s.searcher.pool (s.groupId a)).states, b = a) :
    view {s.setGroupId a 0 with searcher := s.searcher.erasePool (s.groupId a)} =
      s.view.close a := by
  have halive := (h.known a ha).1
  refine MergeGroups.ext (funext fun b => groupId_setGroupId) (funext fun id => ?_)
    (funext₂ fun id b => propext (mem_erasePool h halone)) rfl rfl rfl
      (funext fun b => propext (mem_setGroupId halive)) rfl rfl
  change ((s.searcher.erasePool (s.groupId a)).pool id).firstState = (s.searcher.pool id).firstState
  rw [MergingSearcher.pool_erasePool]
  split
  next hid =>
    rw [hid,hfirst]
  · rfl

lemma view_wait : view { s with
    searcher := (s.searcher.setPool (s.groupId a)
      ⟨some a,(s.searcher.pool (s.groupId a)).states.erase a⟩).suspend a} = s.view.wait a := by
  refine MergeGroups.ext rfl (funext fun id => ?_) (funext₂ fun id b => propext (mem_setPool h rfl))
    (funext fun b => propext Sets.mem_erase) rfl rfl rfl rfl rfl
  change ((s.searcher.setPool (s.groupId a) _).pool id).firstState = _
  rw [MergingSearcher.pool_setPool,apply_ite MergePool.firstState]
  rfl

lemma view_release (hf : f ∈ s.groupIds)
    (halone : ∀ b ∈ (s.searcher.pool (s.groupId a)).states, b = a) :
    (s.release (s.groupId a) f).view = s.view.arrive a f true := by
  refine MergeGroups.ext (funext fun b => ?_) (funext fun id => ?_)
    (funext₂ fun id b => propext (mem_erasePool h halone)) (funext fun b => propext ?_) rfl rfl
      (funext fun b => propext (mem_setGroupId hf)) rfl rfl
  all_goals simp only [MergeGroups.arrive,true_and]
  · exact groupId_setGroupId
  · change ((s.searcher.erasePool (s.groupId a)).pool id).firstState = _
    rw [MergingSearcher.pool_erasePool,apply_ite MergePool.firstState]
    rfl
  · exact Sets.mem_insert

lemma view_arrive (hp : p.states = (s.searcher.pool (s.groupId a)).states.erase a)
    (hfirst : p.firstState = (s.searcher.pool (s.groupId a)).firstState) :
    view {s with searcher := s.searcher.setPool (s.groupId a) p} = s.view.arrive a f false := by
  refine MergeGroups.ext (funext fun b => ?_) (funext fun id => ?_)
    (funext₂ fun id b => propext (mem_setPool h hp)) (funext fun b => ?_) rfl rfl rfl rfl rfl
  all_goals simp only [MergeGroups.arrive,Bool.false_eq_true,false_and,if_false,false_or]
  · rfl
  · change ((s.searcher.setPool (s.groupId a) p).pool id).firstState = _
    rw [MergingSearcher.pool_setPool]
    split
    next hid =>
      rw [hfirst,hid]
      rfl
    · rfl
  · rfl

end

lemma view_settle (ha : a ∈ s.groupIds) (success : Bool) :
    view (if success then {s with merged := s.merged.insert a} else s.setGroupId a 0) =
      s.view.settle a success := by
  cases success with
  | true =>
    exact MergeGroups.ext rfl rfl rfl rfl rfl (funext fun b => propext Sets.mem_insert) rfl rfl rfl
  | false =>
    exact MergeGroups.ext (funext fun b => groupId_setGroupId) rfl rfl rfl rfl rfl
      (funext fun b => propext (mem_setGroupId ha)) rfl rfl

lemma isEmpty_erase {t : TreeSet Nat} : (t.erase a).isEmpty ↔ ∀ b ∈ t, b = a := by
  rw [TreeSet.isEmpty_iff_forall_not_mem]
  refine forall_congr' fun b => ?_
  rw [Sets.mem_erase,not_and',Ne,not_not]

lemma inv_mergeInto (h : s.view.Inv) (ha : a ∈ s.searcher.activeStates)
    (hp : p.states = (s.searcher.pool (s.groupId a)).states.erase a)
    (hfirst : p.firstState = (s.searcher.pool (s.groupId a)).firstState)
    (hf : p.firstState = some f)
    (hstep : s.mergeInto a (s.groupId a) f p success = some s') : s'.view.Inv := by
  obtain ⟨halive,hstep⟩ := ite_none_right_eq_some.mp hstep
  cases hstep
  have hlast : p.states.isEmpty ↔ _ := hp ▸ isEmpty_erase
  have hview : view (if p.states.isEmpty then s.release (s.groupId a) f
      else {s with searcher := s.searcher.setPool (s.groupId a) p}) =
        s.view.arrive a f p.states.isEmpty := by
    split
    next hempty =>
      rw [hempty]
      exact view_release h halive (hlast.mp hempty)
    next hempty =>
      rw [Bool.eq_false_of_not_eq_true hempty]
      exact view_arrive h hp hfirst
  have hmem : (s.view.arrive a f p.states.isEmpty).alive a := (h.known a ha).1
  rw [← hview] at hmem
  rw [view_settle hmem,hview]
  exact h.arrive ha (hfirst.symm.trans hf) halive hlast

lemma inv_mergeEnd (h : s.view.Inv) (ha : a ∈ s.searcher.activeStates)
    (hstep : s.mergeEnd a success = some s') : s'.view.Inv := by
  unfold mergeEnd at hstep
  dsimp only at hstep
  split at hstep
  · cases hstep
    exact h
  rename_i p hp
  obtain rfl := MergingSearcher.pool_of_getElem? hp
  split at hstep
  next hfirst =>
    split at hstep
    next hempty =>
      cases hstep
      rw [view_close h ha hfirst (isEmpty_erase.mp hempty)]
      exact h.close ha hfirst
    next hempty =>
      cases hstep
      obtain ⟨b,hb,hne⟩ : ∃ b ∈ (s.searcher.pool (s.groupId a)).states, b ≠ a := by
        simpa using mt isEmpty_erase.mpr hempty
      rw [view_wait h]
      exact h.wait ha hfirst hb hne
  next f hfirst =>
    exact inv_mergeInto (p := ⟨(s.searcher.pool (s.groupId a)).firstState,_⟩) h ha rfl rfl hfirst
      hstep

lemma getD_foldl_erase (m : TreeMap Nat Nat) (removed : List Nat) :
    (removed.foldl .erase m)[b]?.getD 0 = if b ∈ removed then 0 else m[b]?.getD 0 := by
  induction removed generalizing m with
  | nil => simp
  | cons a removed ih =>
    rw [List.foldl_cons,ih,Maps.getD_erase]
    grind

lemma mem_foldl_eraseMap (m : TreeMap Nat Nat) (removed : List Nat) :
    b ∈ removed.foldl .erase m ↔ b ∉ removed ∧ b ∈ m := by
  induction removed generalizing m with
  | nil => simp
  | cons a removed ih =>
    rw [List.foldl_cons,ih,Maps.mem_erase]
    grind

lemma view_update (h : s.view.Inv) (removed : List Nat) : view { s with
    searcher := s.searcher.update s.groupId s.forked.toList removed
    groupIds := removed.foldl .erase s.groupIds
    forked := ∅
    merged := ∅} = s.view.update (· ∈ removed) := by
  obtain ⟨hnext,hactive,hpool⟩ :=
    MergingSearcher.update_spec s.groupId s.searcher s.forked.toList removed
  refine MergeGroups.ext (funext fun b => getD_foldl_erase _ _) (funext fun id => (hpool id).1)
    (funext₂ fun id b => propext (((hpool id).2 b).trans ?_))
      (funext fun b => propext ((hactive b).trans ?_))
        (funext fun b => propext (iff_of_false TreeSet.not_mem_emptyc id))
          (funext fun b => propext (iff_of_false TreeSet.not_mem_emptyc id))
            (funext fun b => propext (mem_foldl_eraseMap _ _)) hnext rfl
  · rw [TreeSet.mem_toList]
    have := h.member id b
    simp only [view,MergeGroups.update] at this ⊢
    grind
  · rw [TreeSet.mem_toList]
    rfl

lemma view_selectState {begin : Nat} {r : Nat × MergingSearcher}
    (hr : s.searcher.selectState begin = some r) : view {s with searcher := r.2} = s.view := by
  unfold MergingSearcher.selectState at hr
  split at hr
  · cases hr
    rfl
  · obtain ⟨-,hr⟩ := ite_none_right_eq_some.mp hr
    cases hr
    rfl

lemma inv_start : start.view.Inv := by
  have hpool : ∀ id, start.searcher.pool id = {} := fun id => by
    simp [MergingSearcher.pool,start]
  have hgroup : ∀ a, start.groupId a = 0 := fun a => by
    simp [groupId,start,Maps.getD_insert]
  have hactive : ∀ a, a ∈ start.searcher.activeStates ↔ a = 0 := fun a => by
    simp [start,eq_comm (a := a)]
  have halive : ∀ a, a ∈ start.groupIds ↔ a = 0 := fun a => by
    simp [start,eq_comm (a := a)]
  have hforked : ∀ a, a ∉ start.forked := fun a => TreeSet.not_mem_emptyc
  constructor <;> simp only [view,MergeGroups.Waits,hpool,hgroup,hactive,halive,hforked]
  case member =>
    intro id b
    exact iff_of_false TreeSet.not_mem_emptyc fun h => h.1 h.2.1.symm
  all_goals simp [start]

lemma inv_step {e : Event} (h : s.view.Inv) (he : s.Applies e) (ha : s.Admits e)
    (hstep : s.step e = some s') : s'.view.Inv := by
  cases e with
  | selectState begin =>
    obtain ⟨r,hr,rfl⟩ := map_eq_some_iff.mp hstep
    rw [view_selectState hr]
    exact h
  | fork state =>
    cases hstep
    rw [view_fork]
    exact h.fork
  | discard state =>
    cases hstep
    rw [view_discard]
    exact h.discard he
  | mergeStart state =>
    cases hstep
    by_cases h0 : s.groupId state = 0
    · rw [view_mergeStart h he.1 h0]
      exact h.begin he.1 he.2 h0
    · rw [mergeStart,if_pos h0]
      exact h
  | mergeEnd state success => exact inv_mergeEnd h he.1 hstep
  | update removed =>
    cases hstep
    rw [view_update h removed]
    refine h.update (fun a hm => he a (TreeSet.mem_toList.mpr hm)) fun a hw hr => ?_
    obtain ⟨b,-,⟨hb,hgroup,hnot,-⟩,hbr⟩ := ha a (TreeMap.mem_keys.mpr hw.1) hw hr
    exact ⟨b,hb,hgroup,hnot,hbr⟩

/-- In every run in which no update removes the last state on its way to a merge point where
another one waits, wherever a state waits, another one of its group is on its way. -/
theorem waits_for_another (s : Merging) (h : Reached Admits s) (a : Nat) (ha : s.Suspended a) :
    ∃ b, b ≠ a ∧ s.OnItsWay (s.groupId a) b := by
  have hinv : s.view.Inv := by
    refine Runs.Reached.invariant (I := fun s => s.view.Inv) ?_ ?_ h
    · rintro _ rfl
      exact inv_start
    · intro s e s' hs he hstep
      exact inv_step hs he.1 he.2 hstep
  obtain ⟨b,hb,hgroup,hnot,hmerged⟩ := hinv.on_its_way ha
  refine ⟨b,?_,hb,hgroup,hnot,hmerged⟩
  rintro rfl
  exact hnot ha

theorem waits_for_another_fork : ∃ s, Reached Admits s ∧ s.Suspended 0 ∧
    ∃ b, b ≠ 0 ∧ s.OnItsWay (s.groupId 0) b := by
  have hrun : (Runs.run step (fun s e => decide (s.Applies e ∧ s.Admits e)) start
      [.selectState 0,.mergeStart 0,.fork 0,.update [],.mergeEnd 0 true]).map
        (fun s => decide (s.Suspended 0)) = some true := by
    decide +kernel
  obtain ⟨s,hs,hsuspended⟩ := map_eq_some_iff.mp hrun
  have hreach : Reached Admits s := .run (fun _ _ => of_decide_eq_true) (.start rfl) hs
  have hsuspended := of_decide_eq_true hsuspended
  exact ⟨s,hreach,hsuspended,waits_for_another s hreach 0 hsuspended⟩

/-- The other state dies on its way, and the first one waits forever. -/
theorem waits_for_nobody : ∃ s, Reached (fun _ _ => True) s ∧ s.Suspended 0 ∧
    ¬∃ b, b ≠ 0 ∧ s.OnItsWay (s.groupId 0) b := by
  have hrun : (Runs.run step (fun s e => decide (s.Applies e)) start
      [.selectState 0,.mergeStart 0,.fork 0,.update [],.mergeEnd 0 true,.update [1]]).map
        (fun s => decide (s.Suspended 0 ∧ ∀ b ∈ s.groupIds.keys, b = 0)) = some true := by
    decide +kernel
  obtain ⟨s,hs,hnobody⟩ := map_eq_some_iff.mp hrun
  obtain ⟨hsuspended,halone⟩ := of_decide_eq_true hnobody
  refine ⟨s,.run (fun _ _ h => ⟨of_decide_eq_true h,trivial⟩) (.start rfl) hs,hsuspended,?_⟩
  rintro ⟨b,hne,hb,-⟩
  exact hne (halone b (TreeMap.mem_keys.mpr hb))

end Merging
end S2E
