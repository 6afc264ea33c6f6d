import S2E.Core.StateSets
import S2E.Plugins.BehaviorPreemption

/-!
`BehaviorSearcher` next to the executor whose states it schedules: to which state the metadata
at an address belongs when states die and their memory is used again.
-/

namespace S2E
open Std List Option BehaviorSearcher Maps

/-- The executor and the searcher. The births tell apart the states that an address had, and
the owners say for which of them pending metadata was computed. -/
structure Scheduled where
  executor : ExecutorStates
  searcher : BehaviorSearcher
  births : Nat
  birth : TreeMap UInt64 Nat
  owner : TreeMap UInt64 Nat

inductive ScheduleEvent where
  /-- The order of the successors depends on the side the parent stays on. -/
  | fork (traits : StateTraits) (parent child : UInt64) (parentFirst : Bool)
      (branch : Option ForkTargets)
  | terminate (state : UInt64)
  | update (current : Option UInt64)
  | select (traits : StateTraits) (draw : Draw)
  | block (state nativePc : UInt64)
  | covered (state : UInt64)
  | timer (yielded : UInt64 → Bool)

namespace Scheduled
variable (cfg : BehaviorConfig)

def scored (newStates : List UInt64) : Option ForkTargets → List UInt64
  | none => []
  | some b => (newStates.zip [b.whenTrue,b.whenFalse]).filterMap fun c => c.2.map fun _ => c.1

def start (a : UInt64) : Scheduled where
  executor := {states := .ofList [a]}
  searcher := ({} : BehaviorSearcher).update (some a) [a] []
  births := 1
  birth := .ofList [(a,0)]
  owner := ∅

def fork (m : Scheduled) (traits : StateTraits) (parent child : UInt64) (parentFirst : Bool)
    (branch : Option ForkTargets) : Scheduled :=
  let newStates := if parentFirst then [parent,child] else [child,parent]
  let birth := m.birth.insert child m.births
  { executor := m.executor.branch child
    searcher := (m.searcher.onStateFork cfg traits parent newStates branch).1
    births := m.births+1
    birth := birth
    owner := (scored newStates branch).foldl (fun owner a => owner.insert a (birth.getD a 0))
      m.owner}

/-- Only states that are alive fork and terminate, a new state gets a free address, and a
selection follows an update. -/
def step (m : Scheduled) : ScheduleEvent → Option Scheduled
  | .fork traits parent child parentFirst branch =>
    if m.executor.Alive parent ∧ m.executor.Free child then
      some (m.fork cfg traits parent child parentFirst branch)
    else none
  | .terminate state =>
    if m.executor.Alive state then
      some {m with executor := m.executor.terminateState state}
    else none
  | .update current => do
    let executor ← m.executor.updateStates
    some { m with
      executor := executor
      searcher := m.searcher.update current m.executor.addedStates.toList
        m.executor.removedStates.toList}
  | .select traits draw =>
    if m.executor.addedStates.isEmpty ∧ m.executor.removedStates.isEmpty then do
      let (next,searcher) ← m.searcher.selectState cfg traits draw
      some { m with
        executor := m.executor.freeDeleted
        searcher := searcher.onStateSwitch next}
    else none
  | .block state nativePc =>
    some {m with searcher := m.searcher.onBlockExecute cfg state nativePc}
  | .covered state => some {m with searcher := m.searcher.onNewBlockCovered state}
  | .timer yielded => some {m with searcher := (m.searcher.onTimer cfg yielded).1}

end Scheduled

variable {inherited : StateInfo} {added removed : List UInt64} {current : Option UInt64}

variable {state : UInt64}

namespace BehaviorSearcher
variable {s : BehaviorSearcher} {a : UInt64}

lemma mem_attachCurrent (s : BehaviorSearcher) (current : Option UInt64) (a : UInt64) :
    (a ∈ (s.attachCurrent current).states ↔ a ∈ s.states) ∧
      (a ∈ (s.attachCurrent current).pendingForkStates → a ∈ s.pendingForkStates) := by
  unfold attachCurrent
  split
  · exact ⟨.rfl,id⟩
  split
  next info _ hinfo _ =>
    exact ⟨mem_insert_of_mem (mem_iff.mpr ⟨_,hinfo⟩),fun h => (mem_erase.mp h).2⟩
  · exact ⟨.rfl,id⟩

lemma mem_addState : (a ∈ (s.addState inherited state).states ↔ a = state ∨ a ∈ s.states) ∧
      (a ∈ (s.addState inherited state).pendingForkStates ↔
        a ≠ state ∧ a ∈ s.pendingForkStates) := by
  unfold addState
  split
  · exact ⟨mem_insert,mem_erase⟩
  rename_i hnone
  refine ⟨mem_insertIfNew,iff_and_self.mpr fun ha heq => ?_⟩
  obtain ⟨info,hinfo⟩ := mem_iff.mp (heq ▸ ha)
  rw [hnone] at hinfo
  cases hinfo

lemma mem_foldl_addState :
    (a ∈ (added.foldl (addState inherited) s).states ↔ a ∈ added ∨ a ∈ s.states) ∧
      (a ∈ (added.foldl (addState inherited) s).pendingForkStates ↔
        a ∉ added ∧ a ∈ s.pendingForkStates) := by
  induction added generalizing s with
  | nil => simp
  | cons b added ih =>
    rw [foldl_cons,ih.1,ih.2,mem_addState.1,mem_addState.2,mem_cons]
    tauto

lemma mem_foldl_removeState :
    (a ∈ (removed.foldl removeState s).states ↔ a ∉ removed ∧ a ∈ s.states) ∧
      (a ∈ (removed.foldl removeState s).pendingForkStates ↔
        a ∉ removed ∧ a ∈ s.pendingForkStates) := by
  induction removed generalizing s with
  | nil => simp
  | cons b removed ih =>
    rw [foldl_cons,ih.1,ih.2,removeState,mem_erase,mem_erase,mem_cons]
    tauto

lemma mem_update :
    (a ∈ (s.update current added removed).states ↔ (a ∈ s.states ∨ a ∈ added) ∧ a ∉ removed) ∧
      (a ∈ (s.update current added removed).pendingForkStates →
        a ∈ s.pendingForkStates ∧ a ∉ added ∧ a ∉ removed) := by
  obtain ⟨hstates,hpending⟩ := mem_attachCurrent s current a
  rw [update,mem_foldl_removeState.1,mem_foldl_removeState.2,mem_foldl_addState.1,
    mem_foldl_addState.2,hstates]
  tauto

lemma foldl_addState_pointers (s : BehaviorSearcher) (inherited : StateInfo)
    (added : List UInt64) : (added.foldl (addState inherited) s).currentState = s.currentState ∧
      (added.foldl (addState inherited) s).lastSelected = s.lastSelected := by
  refine foldlRecOn (motive := fun s' : BehaviorSearcher => s'.currentState = s.currentState ∧
    s'.lastSelected = s.lastSelected) added _ ⟨rfl,rfl⟩ fun s' h b _ => ?_
  unfold addState
  split <;> exact h

lemma foldl_removeState_pointers (s : BehaviorSearcher) (removed : List UInt64) (a : UInt64) :
    ((removed.foldl removeState s).currentState = some a → s.currentState = some a ∧ a ∉ removed) ∧
      ((removed.foldl removeState s).lastSelected = some a →
        s.lastSelected = some a ∧ a ∉ removed) := by
  induction removed generalizing s with
  | nil => simp
  | cons b removed ih =>
    obtain ⟨hcur,hlast⟩ := ih (s.removeState b)
    rw [foldl_cons]
    refine ⟨fun h => ?_,fun h => ?_⟩
    · obtain ⟨h,hmem⟩ := hcur h
      obtain ⟨hne,h⟩ := ite_none_left_eq_some.mp h
      exact ⟨h,not_mem_cons_of_ne_of_not_mem (fun heq => hne (heq ▸ h)) hmem⟩
    · obtain ⟨h,hmem⟩ := hlast h
      obtain ⟨hne,h⟩ := ite_none_left_eq_some.mp h
      exact ⟨h,not_mem_cons_of_ne_of_not_mem (fun heq => hne (heq ▸ h)) hmem⟩

lemma update_pointers : ((s.update current added removed).currentState = some a →
        s.currentState = some a ∧ a ∉ removed) ∧
      ((s.update current added removed).lastSelected = some a →
        s.lastSelected = some a ∧ a ∉ removed) := by
  have hattach : (s.attachCurrent current).currentState = s.currentState ∧
      (s.attachCurrent current).lastSelected = s.lastSelected := by
    unfold attachCurrent
    split
    · exact ⟨rfl,rfl⟩
    · split <;> exact ⟨rfl,rfl⟩
  have hadd := foldl_addState_pointers (s.attachCurrent current) (s.inheritedAtUpdate current) added
  rw [hattach.1,hattach.2] at hadd
  have hrem := foldl_removeState_pointers
    (added.foldl (addState (s.inheritedAtUpdate current)) (s.attachCurrent current)) removed a
  rwa [hadd.1,hadd.2] at hrem

lemma foldl_addState_of_done {info : StateInfo}
    (hstates : s.states[a]? = some info) (hpending : s.pendingForkStates[a]? = none) :
    (added.foldl (addState inherited) s).states[a]? = some info := by
  induction added generalizing s with
  | nil => exact hstates
  | cons b added ih =>
    by_cases hab : a = b
    · subst hab
      have hadd : s.addState inherited a =
          {s with states := s.states.insertIfNew a inherited} := by
        simp only [addState,hpending]
      rw [foldl_cons,hadd]
      refine ih ?_ hpending
      rw [TreeMap.getElem?_insertIfNew,if_neg,hstates]
      exact fun h => h.2 (mem_iff.mpr ⟨info,hstates⟩)
    · refine ih ?_ ?_
      all_goals
        unfold addState
        split
      · exact (insert_of_ne hab).trans hstates
      · exact (insertIfNew_of_ne hab).trans hstates
      · exact (erase_of_ne hab).trans hpending
      · exact hpending

lemma foldl_addState_of_new (hstates : s.states[a]? = none) (ha : a ∈ added) :
    (added.foldl (addState inherited) s).states[a]? =
      some ((s.pendingForkStates[a]?).getD inherited) := by
  induction added generalizing s with
  | nil => cases ha
  | cons b added ih =>
    rw [foldl_cons]
    by_cases hab : a = b
    · subst hab
      cases hpending : s.pendingForkStates[a]? with
      | some info =>
        have hadd : s.addState inherited a = { s with
            states := s.states.insert a info
            pendingForkStates := s.pendingForkStates.erase a} := by
          simp only [addState,hpending]
        rw [hadd]
        exact foldl_addState_of_done (by simp) (by simp)
      | none =>
        have hadd : s.addState inherited a =
            {s with states := s.states.insertIfNew a inherited} := by
          simp only [addState,hpending]
        rw [hadd]
        refine foldl_addState_of_done ?_ hpending
        rw [TreeMap.getElem?_insertIfNew,if_pos]
        · rfl
        · refine ⟨compare_eq_iff_eq.mpr rfl,fun hmem => ?_⟩
          obtain ⟨info,hinfo⟩ := mem_iff.mp hmem
          rw [hstates] at hinfo
          cases hinfo
    · have hkeep : (s.addState inherited b).states[a]? = s.states[a]? ∧
          (s.addState inherited b).pendingForkStates[a]? = s.pendingForkStates[a]? := by
        unfold addState
        split
        · exact ⟨insert_of_ne hab,erase_of_ne hab⟩
        · exact ⟨insertIfNew_of_ne hab,rfl⟩
      rw [← hkeep.2]
      exact ih (hkeep.1.trans hstates) ((mem_cons.mp ha).resolve_left hab)

lemma foldl_removeState_of_not_mem (ha : a ∉ removed) :
    (removed.foldl removeState s).states[a]? = s.states[a]? := by
  induction removed generalizing s with
  | nil => rfl
  | cons b removed ih =>
    rw [foldl_cons,ih (not_mem_of_not_mem_cons ha)]
    exact erase_of_ne (ne_of_not_mem_cons ha)

lemma update_added (hstates : s.states[a]? = none) (ha : a ∈ added) (hr : a ∉ removed) :
    (s.update current added removed).states[a]? =
      some ((s.pendingForkStates[a]?).getD (s.inheritedAtUpdate current)) := by
  have hattach : (s.attachCurrent current).states[a]? = none ∧
      (s.attachCurrent current).pendingForkStates[a]? = s.pendingForkStates[a]? := by
    unfold attachCurrent
    split
    · exact ⟨hstates,rfl⟩
    split
    next hcur _ =>
      have hne : a ≠ _ := fun heq => by
        rw [heq,hcur] at hstates
        cases hstates
      exact ⟨(insert_of_ne hne).trans hstates,erase_of_ne hne⟩
    · exact ⟨hstates,rfl⟩
  rw [update,foldl_removeState_of_not_mem hr,foldl_addState_of_new hattach.1 ha,hattach.2]

end BehaviorSearcher

variable {newStates : List UInt64} {branch : Option ForkTargets} {traits : StateTraits}

namespace Scheduled
variable {cfg : BehaviorConfig} {m m' : Scheduled}

structure Kept (m : Scheduled) : Prop where
  states : ∀ a, a ∈ m.searcher.states ↔ a ∈ m.executor.states
  removed : ∀ a ∈ m.executor.removedStates, a ∈ m.executor.states
  added : ∀ a ∈ m.executor.addedStates, a ∉ m.executor.states
  born : ∀ a, a ∈ m.executor.states ∨ a ∈ m.executor.addedStates → a ∈ m.birth
  pending : ∀ a ∈ m.searcher.pendingForkStates,
    (a ∈ m.executor.states ∨ a ∈ m.executor.addedStates) ∧
      ∃ n, m.birth[a]? = some n ∧ m.owner[a]? = some n
  currentState : ∀ a, m.searcher.currentState = some a → a ∈ m.executor.states
  lastSelected : ∀ a, m.searcher.lastSelected = some a → a ∈ m.executor.states

/-- The event does not terminate a state that waits for its first update with metadata of its
fork. -/
def Calm (m : Scheduled) : ScheduleEvent → Prop
  | .terminate state =>
    ¬(state ∈ m.executor.addedStates ∧ state ∈ m.searcher.pendingForkStates)
  | _ => True

variable {s : BehaviorSearcher} {a : UInt64}

lemma mem_forkPending {b : ForkTargets} (h : a ∈ forkPending cfg s state newStates b) :
    a ∈ s.pendingForkStates ∨ a ∈ scored newStates (some b) := by
  unfold forkPending at h
  refine foldlRecOn (motive := fun pending : TreeMap UInt64 StateInfo => a ∈ pending →
    a ∈ s.pendingForkStates ∨ a ∈ scored newStates (some b)) _ _ .inl
    (fun pending ih c hc hmem => ?_) h
  obtain ⟨x,target⟩ := c
  cases target with
  | none => exact ih hmem
  | some target =>
    rcases mem_insert.mp hmem with rfl | hmem
    · exact .inr (mem_filterMap.mpr ⟨_,hc,rfl⟩)
    · exact ih hmem

lemma mem_of_scored (h : a ∈ scored newStates branch) : a ∈ newStates := by
  cases branch with
  | none => cases h
  | some b =>
    obtain ⟨c,hc,heq⟩ := mem_filterMap.mp h
    obtain ⟨t,-,rfl⟩ := map_eq_some_iff.mp heq
    exact of_mem_zip hc |>.1

lemma mem_onStateFork
    (h : a ∈ (s.onStateFork cfg traits state newStates branch).1.pendingForkStates) :
    a ∈ s.pendingForkStates ∨ a ∈ scored newStates branch := by
  unfold onStateFork at h
  cases branch with
  | none => exact .inl h
  | some b =>
    dsimp only at h
    split at h
    · exact .inl h
    · exact mem_forkPending h

lemma onStateFork_rest (cfg : BehaviorConfig) (s : BehaviorSearcher) (traits : StateTraits)
    (state : UInt64)
    (newStates : List UInt64) (branch : Option ForkTargets) :
    let s' := (s.onStateFork cfg traits state newStates branch).1
    s'.states = s.states ∧ s'.currentState = s.currentState ∧ s'.lastSelected = s.lastSelected := by
  unfold onStateFork
  cases branch with
  | none => exact ⟨rfl,rfl,rfl⟩
  | some b =>
    dsimp only
    split <;> exact ⟨rfl,rfl,rfl⟩

namespace Kept

lemma fork (h : Kept m) {parent child : UInt64} {parentFirst : Bool}
    (hparent : m.executor.Alive parent)
    (hchild : m.executor.Free child) :
    Kept (m.fork cfg traits parent child parentFirst branch) := by
  obtain ⟨hcs,hca,-⟩ := hchild
  obtain ⟨hstates,hcur,hlast⟩ := onStateFork_rest cfg m.searcher traits parent
    (if parentFirst then [parent,child] else [child,parent]) branch
  have hadded : ∀ a, a ∈ (m.executor.branch child).addedStates ↔
      a = child ∨ a ∈ m.executor.addedStates := by
    intro a
    simp only [ExecutorStates.branch,TreeSet.mem_insert,Std.compare_eq_iff_eq]
    tauto
  refine ⟨fun a => ?_,h.removed,fun a ha => ?_,fun a ha => ?_,fun a ha => ?_,
    fun a ha => ?_,fun a ha => ?_⟩
  · simp only [Scheduled.fork,hstates]
    exact h.states a
  · rcases (hadded a).mp ha with rfl | ha
    · exact hcs
    · exact h.added a ha
  · refine mem_insert.mpr ?_
    rcases ha with ha | ha
    · exact .inr (h.born a (.inl ha))
    · exact ((hadded a).mp ha).imp_right fun ha => h.born a (.inr ha)
  · set newStates := if parentFirst then [parent,child] else [child,parent] with hnew
    by_cases hscored : a ∈ scored newStates branch
    -- The metadata was computed just now, for the states that are at the two addresses.
    · have halive : a = child ∨ a ∈ m.executor.states ∨ a ∈ m.executor.addedStates := by
        have hmem := mem_of_scored hscored
        rw [hnew] at hmem
        have hor : a = parent ∨ a = child := by
          split at hmem <;> simpa [or_comm] using hmem
        rcases hor with rfl | rfl
        · exact .inr hparent.1
        · exact .inl rfl
      have hborn : a ∈ m.birth.insert child m.births := mem_insert.mpr (halive.imp_right (h.born a))
      obtain ⟨n,hn⟩ := mem_iff.mp hborn
      refine ⟨?_,n,hn,?_⟩
      · rcases halive with rfl | ha | ha
        · exact .inr ((hadded a).mpr (.inl rfl))
        · exact .inl ha
        · exact .inr ((hadded a).mpr (.inr ha))
      · refine (foldl_insert_of_mem hscored).trans ?_
        rw [TreeMap.getD_eq_getD_getElem?,hn]
        rfl
    · have hold := (mem_onStateFork ha).resolve_right hscored
      obtain ⟨halive,n,hn,howner⟩ := h.pending a hold
      have hne : a ≠ child := by
        rintro rfl
        exact halive.elim hcs hca
      refine ⟨halive.imp_right fun ha => (hadded a).mpr (.inr ha),n,?_,?_⟩
      · exact (insert_of_ne hne).trans hn
      · exact (foldl_insert_of_not_mem hscored).trans howner
  · exact h.currentState a (hcur ▸ ha)
  · exact h.lastSelected a (hlast ▸ ha)

lemma terminate (h : Kept m) (halive : m.executor.Alive a)
    (hcalm : Calm m (.terminate a)) : Kept {m with executor := m.executor.terminateState a} := by
  unfold ExecutorStates.terminateState
  by_cases ha : a ∈ m.executor.addedStates
  · rw [if_pos ha]
    have hsub : ∀ x, x ∈ m.executor.addedStates.erase a → x ∈ m.executor.addedStates :=
      fun x hx => (TreeSet.mem_erase.mp hx).2
    refine ⟨h.states,h.removed,fun x hx => h.added x (hsub x hx),
      fun x hx => h.born x (hx.imp_right (hsub x)),fun x hx => ?_,h.currentState,
      h.lastSelected⟩
    obtain ⟨hx',hown⟩ := h.pending x hx
    refine ⟨hx'.imp_right fun hadd => TreeSet.mem_erase.mpr ⟨fun heq => ?_,hadd⟩,hown⟩
    obtain rfl := Std.compare_eq_iff_eq.mp heq
    exact hcalm ⟨ha,hx⟩
  · rw [if_neg ha]
    refine ⟨h.states,fun x hx => ?_,h.added,h.born,h.pending,h.currentState,h.lastSelected⟩
    simp only [TreeSet.mem_insert,Std.compare_eq_iff_eq] at hx
    rcases hx with rfl | hx
    · exact halive.1.resolve_right ha
    · exact h.removed x hx

lemma update (h : Kept m) (hstep : m.step cfg (.update current) = some m') : Kept m' := by
  obtain ⟨x,hx,hm'⟩ := bind_eq_some_iff.mp hstep
  cases hm'
  obtain ⟨hstates,hadd,hrem⟩ := ExecutorStates.updateStates_spec hx
  have hempty : ∀ a, a ∉ x.addedStates ∧ a ∉ x.removedStates := by
    intro a
    rw [hadd,hrem]
    simp
  refine ⟨fun a => ?_,fun a ha => absurd ha (hempty a).2,fun a ha => absurd ha (hempty a).1,
    fun a ha => ?_,fun a ha => ?_,fun a ha => ?_,fun a ha => ?_⟩
  · rw [mem_update.1,hstates,h.states,TreeSet.mem_toList,TreeSet.mem_toList]
  · exact h.born a ((hstates a).mp (ha.resolve_right (hempty a).1)).1
  · obtain ⟨hold,hnew,hgone⟩ := mem_update.2 ha
    rw [TreeSet.mem_toList] at hnew hgone
    obtain ⟨halive,hown⟩ := h.pending a hold
    exact ⟨.inl ((hstates a).mpr ⟨halive,hgone⟩),hown⟩
  · obtain ⟨hold,hgone⟩ := update_pointers.1 ha
    rw [TreeSet.mem_toList] at hgone
    exact (hstates a).mpr ⟨.inl (h.currentState a hold),hgone⟩
  · obtain ⟨hold,hgone⟩ := update_pointers.2 ha
    rw [TreeSet.mem_toList] at hgone
    exact (hstates a).mpr ⟨.inl (h.lastSelected a hold),hgone⟩

lemma of_searcher (h : Kept m) (hstates : ∀ a, a ∈ s.states ↔ a ∈ m.searcher.states)
    (hpending : ∀ a, a ∈ s.pendingForkStates → a ∈ m.searcher.pendingForkStates)
    (hcur : ∀ a, s.currentState = some a → a ∈ m.executor.states)
    (hlast : ∀ a, s.lastSelected = some a → a ∈ m.executor.states) : Kept {m with searcher := s} :=
  ⟨fun a => (hstates a).trans (h.states a),h.removed,h.added,h.born,
    fun a ha => h.pending a (hpending a ha),hcur,hlast⟩

lemma step (h : Kept m) {e : ScheduleEvent} (hcalm : Calm m e) (hstep : m.step cfg e = some m') :
    Kept m' := by
  cases e with
  | fork traits parent child parentFirst branch =>
    obtain ⟨⟨hparent,hchild⟩,hm'⟩ := ite_none_right_eq_some.mp hstep
    cases hm'
    exact h.fork hparent hchild
  | terminate a =>
    obtain ⟨halive,hm'⟩ := ite_none_right_eq_some.mp hstep
    cases hm'
    exact h.terminate halive hcalm
  | update current => exact h.update hstep
  | select traits draw =>
    obtain ⟨-,hm'⟩ := ite_none_right_eq_some.mp hstep
    obtain ⟨⟨q,s⟩,hsel,hm'⟩ := bind_eq_some_iff.mp hm'
    cases hm'
    obtain ⟨info,hq,hstates,hpending,hcur,hlast⟩ := selectState_mem hsel
    have hlive : q ∈ m.searcher.states := mem_iff.mpr ⟨info,hq⟩
    have hkeep := h.of_searcher (s := s.onStateSwitch q) (fun a => ?_) (fun a ha => ?_)
      (fun a ha => ?_) (fun a ha => ?_)
    · exact ⟨hkeep.states,hkeep.removed,hkeep.added,hkeep.born,hkeep.pending,
        hkeep.currentState,hkeep.lastSelected⟩
    · rw [onStateSwitch,hstates]
      exact mem_insert_of_mem hlive
    · exact hpending ▸ ha
    · obtain rfl := some.inj ha
      exact (h.states _).mp hlive
    · rw [onStateSwitch,hlast] at ha
      obtain rfl := some.inj ha
      exact (h.states _).mp hlive
  | block state nativePc =>
    cases hstep
    unfold onBlockExecute
    split
    · exact h
    next hinfo =>
      exact h.of_searcher (fun a => mem_insert_of_mem (mem_iff.mpr ⟨_,hinfo⟩))
        (fun _ => id) h.currentState h.lastSelected
  | covered state =>
    cases hstep
    exact h.of_searcher (fun a => TreeMap.mem_modify) (fun a => TreeMap.mem_modify.mp)
      h.currentState h.lastSelected
  | timer yielded =>
    cases hstep
    obtain ⟨-,hstates,hpending,hcur,hlast,-⟩ := onTimer_spec cfg m.searcher yielded
    refine h.of_searcher (fun a => ?_) (fun a ha => hpending ▸ ha)
      (fun a ha => h.currentState a (hcur ▸ ha)) fun a ha => h.lastSelected a (hlast ▸ ha)
    rcases hstates with ⟨-,hsame⟩ | ⟨p,old,info,-,hold,hinsert,-⟩
    · rw [hsame]
    · rw [hinsert]
      exact mem_insert_of_mem (mem_iff.mpr ⟨old,hold⟩)

end Kept

lemma Kept.start (a : UInt64) : Kept (start a) := by
  have hempty : ∀ x, x ∉ ({} : BehaviorSearcher).states ∧
      x ∉ ({} : BehaviorSearcher).pendingForkStates := fun x => ⟨by simp,by simp⟩
  refine ⟨fun x => ?_,fun x hx => absurd hx (by simp [Scheduled.start]),
    fun x hx => absurd hx (by simp [Scheduled.start]),fun x hx => ?_,fun x hx => ?_,
    fun x hx => ?_,fun x hx => ?_⟩
  · rw [Scheduled.start,mem_update.1]
    simpa [(hempty x).1] using eq_comm
  · simpa [Scheduled.start,TreeSet.mem_ofList,TreeMap.mem_ofList,eq_comm] using hx
  · exact absurd (mem_update.2 hx).1 (hempty x).2
  · cases (update_pointers.1 hx).1
  · cases (update_pointers.2 hx).1

inductive CalmSchedule (cfg : BehaviorConfig) : Scheduled → Prop
  | start (a : UInt64) : CalmSchedule cfg (start a)
  | step {m m' : Scheduled} {e : ScheduleEvent} : CalmSchedule cfg m → Calm m e →
      m.step cfg e = some m' → CalmSchedule cfg m'

lemma CalmSchedule.kept (h : CalmSchedule cfg m) : Kept m := by
  induction h with
  | start a => exact .start a
  | step _ hcalm hstep ih => exact ih.step hcalm hstep

structure Belongs (m : Scheduled) (current : Option UInt64) (m' : Scheduled) : Prop where
  states : ∀ a, a ∈ m'.searcher.states ↔ a ∈ m'.executor.states
  pending : ∀ a ∈ m'.searcher.pendingForkStates, a ∈ m'.executor.states
  currentState : ∀ a, m'.searcher.currentState = some a → a ∈ m'.executor.states
  lastSelected : ∀ a, m'.searcher.lastSelected = some a → a ∈ m'.executor.states
  /-- What a new state gets was computed at a fork of this very state. -/
  own : ∀ a ∈ m.executor.addedStates, ∀ info, m.searcher.pendingForkStates[a]? = some info →
    m'.searcher.states[a]? = some info ∧ ∃ n, m.birth[a]? = some n ∧ m.owner[a]? = some n
  inherited : ∀ a ∈ m.executor.addedStates, a ∉ m.searcher.pendingForkStates →
    m'.searcher.states[a]? = some (m.searcher.inheritedAtUpdate current)

/-- In every run in which no state is terminated while its fork metadata waits for its first
update, an update succeeds and leaves every entry with its own state. -/
theorem metadata_belongs (h : CalmSchedule cfg m) (current : Option UInt64) :
    ∃ m', m.step cfg (.update current) = some m' ∧ Belongs m current m' := by
  have hkept := h.kept
  obtain ⟨x,hx⟩ := isSome_iff_exists.mp (ExecutorStates.updateStates_isSome hkept.removed)
  have hstep : m.step cfg (.update current) = some { m with
      executor := x
      searcher := m.searcher.update current m.executor.addedStates.toList
        m.executor.removedStates.toList} := by
    simp only [step,hx]
    rfl
  have hkept' := hkept.update hstep
  have hempty : ∀ a, a ∉ x.addedStates := by
    rw [(ExecutorStates.updateStates_spec hx).2.1]
    simp
  have hnew : ∀ a ∈ m.executor.addedStates, m.searcher.states[a]? = none ∧
      a ∉ m.executor.removedStates.toList := by
    intro a ha
    have hfresh := hkept.added a ha
    refine ⟨?_,fun hr => hfresh (hkept.removed a (TreeSet.mem_toList.mp hr))⟩
    exact TreeMap.getElem?_eq_none fun hmem => hfresh ((hkept.states a).mp hmem)
  refine ⟨_,hstep,hkept'.states,fun a ha => ?_,hkept'.currentState,hkept'.lastSelected,
    fun a ha info hinfo => ?_,fun a ha hnone => ?_⟩
  · exact (hkept'.pending a ha).1.resolve_right (hempty a)
  · refine ⟨?_,(hkept.pending a (mem_iff.mpr ⟨info,hinfo⟩)).2⟩
    rw [update_added (hnew a ha).1 (TreeSet.mem_toList.mpr ha) (hnew a ha).2,hinfo]
    rfl
  · rw [update_added (hnew a ha).1 (TreeSet.mem_toList.mpr ha) (hnew a ha).2,
      TreeMap.getElem?_eq_none hnone]
    rfl

def forkTwo (child : UInt64) : ScheduleEvent :=
  .fork sameTraits 1 child true (some ⟨0x40,some 0x20,some 0x30⟩)

theorem metadata_belongs_forkTwo : ∃ m m', (start 1).step oneTarget (forkTwo 2) = some m ∧
      m.step oneTarget (.update (some 1)) = some m' ∧ Belongs m (some 1) m' := by
  obtain ⟨m,hm⟩ := isSome_iff_exists.mp
    (show ((start 1).step oneTarget (forkTwo 2)).isSome by decide +kernel)
  have hcalm : Calm (start 1) (forkTwo 2) := trivial
  obtain ⟨m',hm',hbelongs⟩ := metadata_belongs (.step (.start 1) hcalm hm) (some 1)
  exact ⟨m,m',hm,hm',hbelongs⟩

/-- The new state is terminated at once, and its metadata stays. When a state that is forked
elsewhere gets its address, the update gives it that metadata. -/
theorem metadata_stale :
    let stepAll := fun (m : Option Scheduled) (e : ScheduleEvent) =>
      m.bind (·.step oneTarget e)
    let killed := [forkTwo 2,.terminate 2,.update (some 1)].foldl stepAll (some (start 1))
    let reused := [.select sameTraits ⟨0,0⟩,.fork sameTraits 1 2 true none].foldl stepAll killed
    let updated := stepAll reused (.update (some 1))
    killed.any (fun m => 2 ∈ m.searcher.pendingForkStates ∧ 2 ∉ m.executor.states) = true ∧
      reused.any (fun m => 2 ∈ m.executor.addedStates ∧ m.birth[(2 : UInt64)]? = some 2 ∧
        m.owner[(2 : UInt64)]? = some 1) = true ∧
      updated.map (·.searcher.states[(2 : UInt64)]?) =
        reused.map (·.searcher.pendingForkStates[(2 : UInt64)]?) ∧
      updated.any (fun m => (m.searcher.states[(2 : UInt64)]?).isSome) = true := by
  decide +kernel

end Scheduled
end S2E
