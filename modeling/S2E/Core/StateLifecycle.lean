import S2E.Core.StateSets
import S2E.Lib.Runs

/-!
How a state passes through the sets of the executor, from the fork that makes it to its deletion,
when states are also suspended and resumed. States are told apart by a number that is not used
again.
-/

namespace S2E
open Std Option

structure Lifecycle where
  sets : ExecutorStates
  suspended : TreeSet UInt64 := ∅
  live : TreeSet UInt64
  terminated : TreeSet UInt64 := ∅

inductive StateCall where
  | fork (current child : UInt64)
  | terminate (state : UInt64)
  | suspend (state : UInt64)
  | resume (state : UInt64)
  | updateStates

namespace Lifecycle

def start (a : UInt64) : Lifecycle where
  sets := {states := .ofList [a]}
  live := .ofList [a]

variable (w : Lifecycle)

def terminateState (a : UInt64) : Lifecycle :=
  { w with
    sets := w.sets.terminateState a
    live := w.live.erase a
    terminated := w.terminated.insert a}

def suspendState (a : UInt64) : Option Lifecycle :=
  if a ∈ w.sets.states then
    some { w with
      sets := {w.sets with states := w.sets.states.erase a}
      suspended := w.suspended.insert a}
  else none

def resumeState (a : UInt64) : Lifecycle :=
  if a ∈ w.sets.states then w
  else { w with
    sets := {w.sets with states := w.sets.states.insert a}
    suspended := w.suspended.erase a}

def step : StateCall → Option Lifecycle
  | .fork _ child => some {w with sets := w.sets.branch child, live := w.live.insert child}
  | .terminate a => some (w.terminateState a)
  | .suspend a => w.suspendState a
  | .resume a => some (w.resumeState a)
  | .updateStates => w.sets.updateStates.map fun sets => {w with sets}

def Applies : StateCall → Prop
  | .fork current child => current ∈ w.live ∧ child ∉ w.live ∧ child ∉ w.terminated
  | .terminate a | .suspend a | .resume a => a ∈ w.live
  | .updateStates => True

/-- No suspended state is terminated, only an active state is suspended, and no state is resumed
before it was announced. -/
def Orderly : StateCall → Prop
  | .terminate a => a ∉ w.suspended
  | .suspend a => a ∈ w.sets.states
  | .resume a => a ∉ w.sets.addedStates
  | .fork _ _ | .updateStates => True

instance (w : Lifecycle) (call : StateCall) : Decidable (w.Applies call) :=
  match call with
  | .fork _ _ => inferInstanceAs (Decidable (_ ∧ _ ∧ _))
  | .terminate _ | .suspend _ | .resume _ => inferInstanceAs (Decidable (_ ∈ _))
  | .updateStates => inferInstanceAs (Decidable True)

instance (w : Lifecycle) (call : StateCall) : Decidable (w.Orderly call) :=
  match call with
  | .terminate _ => inferInstanceAs (Decidable (¬ _))
  | .suspend _ => inferInstanceAs (Decidable (_ ∈ _))
  | .resume _ => inferInstanceAs (Decidable (¬ _))
  | .fork _ _ | .updateStates => inferInstanceAs (Decidable True)

def Reached (admits : Lifecycle → StateCall → Prop) : Lifecycle → Prop :=
  Runs.Reached step (fun w call => w.Applies call ∧ admits w call) fun w => ∃ a, w = start a

/-- Each live state is in exactly one set, what is to be removed is active, and each terminated
state is deleted once or will be by the next update. -/
structure Sorted : Prop where
  one_set : ∀ a ∈ w.live, (a ∈ w.sets.states ∧ a ∉ w.sets.addedStates ∧ a ∉ w.suspended) ∨
      (a ∉ w.sets.states ∧ a ∈ w.sets.addedStates ∧ a ∉ w.suspended) ∨
        (a ∉ w.sets.states ∧ a ∉ w.sets.addedStates ∧ a ∈ w.suspended)
  removed : ∀ a ∈ w.sets.removedStates, a ∈ w.sets.states
  deleted : ∀ a, w.sets.deletedStates.count a+(if a ∈ w.sets.removedStates then 1 else 0) =
    if a ∈ w.terminated then 1 else 0

structure Marks where
  states : Bool
  added : Bool
  removed : Bool
  suspended : Bool
  live : Bool
  terminated : Bool
  deleted : Nat

def marks (a : UInt64) : Marks where
  states := a ∈ w.sets.states
  added := a ∈ w.sets.addedStates
  removed := a ∈ w.sets.removedStates
  suspended := a ∈ w.suspended
  live := a ∈ w.live
  terminated := a ∈ w.terminated
  deleted := w.sets.deletedStates.count a

inductive Fate where
  | unborn
  | added
  | active
  | suspended
  | dying
  | deleted

def Fate.marks : Fate → Marks
  | .unborn => ⟨false,false,false,false,false,false,0⟩
  | .added => ⟨false,true,false,false,true,false,0⟩
  | .active => ⟨true,false,false,false,true,false,0⟩
  | .suspended => ⟨false,false,false,true,true,false,0⟩
  | .dying => ⟨true,false,true,false,false,true,0⟩
  | .deleted => ⟨false,false,false,false,false,true,1⟩

variable {w w' : Lifecycle} {a b : UInt64} {call : StateCall}

lemma fork_marks (w : Lifecycle) (a b : UInt64) :
    marks {w with sets := w.sets.branch b, live := w.live.insert b} a =
      if a = b then {w.marks a with added := true, live := true} else w.marks a := by
  by_cases h : a = b
  · simp only [marks,ExecutorStates.branch,Sets.mem_insert,h,true_or,decide_true,if_true]
  · simp only [marks,ExecutorStates.branch,Sets.mem_insert,h,false_or,if_false]
    rfl

lemma terminateState_marks (w : Lifecycle) (a b : UInt64) : (w.terminateState b).marks a =
      if a = b then
        if (w.marks a).added then
          { w.marks a with
            added := false
            live := false
            terminated := true
            deleted := (w.marks a).deleted+1}
        else {w.marks a with removed := true, live := false, terminated := true}
      else w.marks a := by
  unfold terminateState ExecutorStates.terminateState
  by_cases h : a = b
  · subst h
    by_cases hadd : a ∈ w.sets.addedStates <;> simp [marks,hadd]
  · by_cases hadd : b ∈ w.sets.addedStates <;> simp [marks,hadd,h,Ne.symm h]

lemma suspendState_marks (h : w.suspendState b = some w') (a : UInt64) : w'.marks a =
      if a = b then {w.marks a with states := false, suspended := true} else w.marks a := by
  obtain ⟨-,h⟩ := ite_none_right_eq_some.mp h
  cases h
  by_cases h : a = b
  · subst h
    simp [marks]
  · simp [marks,h,Ne.symm h]

lemma resumeState_marks (w : Lifecycle) (a b : UInt64) : (w.resumeState b).marks a =
      if a = b ∧ (w.marks a).states = false then {w.marks a with states := true, suspended := false}
      else w.marks a := by
  unfold resumeState
  by_cases h : a = b
  · subst h
    by_cases hs : a ∈ w.sets.states <;> simp [marks,hs]
  · by_cases hs : b ∈ w.sets.states <;> simp [marks,hs,h,Ne.symm h]

lemma updateStates_marks {sets : ExecutorStates} (h : w.sets.updateStates = some sets)
    (a : UInt64) : marks {w with sets} a = { w.marks a with
        states := ((w.marks a).states || (w.marks a).added) && !(w.marks a).removed
        added := false
        removed := false
        deleted := (if (w.marks a).removed then 1 else 0)+(w.marks a).deleted} := by
  obtain ⟨hstates,hadded,hremoved⟩ := ExecutorStates.updateStates_spec h
  have hcount : w.sets.removedStates.toList.count a =
      if a ∈ w.sets.removedStates then 1 else 0 := by
    split
    · exact List.count_eq_one_of_mem (Sets.nodup_toList _) (TreeSet.mem_toList.mpr ‹_›)
    · exact List.count_eq_zero_of_not_mem fun hmem => ‹a ∉ _› (TreeSet.mem_toList.mp hmem)
  simp [marks,hstates,hadded,hremoved,ExecutorStates.updateStates_deletedStates h,hcount]

def Inv (w : Lifecycle) : Prop := ∀ a, ∃ fate : Fate, w.marks a = fate.marks

lemma inv_start (a : UInt64) : Inv (start a) := by
  intro b
  by_cases h : b = a
  · subst h
    exact ⟨.active,by simp [marks,start,Fate.marks]⟩
  · exact ⟨.unborn,by simp [marks,start,Fate.marks,Ne.symm h]⟩

lemma Inv.step (hi : Inv w) (happ : w.Applies call) (ho : w.Orderly call)
    (h : w.step call = some w') : Inv w' := by
  intro a
  obtain ⟨fate,hfate⟩ := hi a
  cases call with
  | fork current child =>
    cases h
    rw [fork_marks]
    split
    · subst ‹a = child›
      obtain ⟨-,hlive,hterm⟩ := happ
      refine ⟨.added,?_⟩
      have hlive : (w.marks a).live = false := decide_eq_false hlive
      have hterm : (w.marks a).terminated = false := decide_eq_false hterm
      cases fate <;> simp_all [Fate.marks]
    · exact ⟨fate,hfate⟩
  | terminate b =>
    cases h
    rw [terminateState_marks]
    split
    · subst ‹a = b›
      have hlive : (w.marks a).live := decide_eq_true happ
      have hsusp : (w.marks a).suspended = false := decide_eq_false ho
      cases fate with
      | unborn | suspended | dying | deleted => simp_all [Fate.marks]
      | added => exact ⟨.deleted,by simp [hfate,Fate.marks]⟩
      | active => exact ⟨.dying,by simp [hfate,Fate.marks]⟩
    · exact ⟨fate,hfate⟩
  | suspend b =>
    rw [suspendState_marks h]
    split
    · subst ‹a = b›
      have hlive : (w.marks a).live := decide_eq_true happ
      have hstates : (w.marks a).states := decide_eq_true ho
      refine ⟨.suspended,?_⟩
      cases fate <;> simp_all [Fate.marks]
    · exact ⟨fate,hfate⟩
  | resume b =>
    cases h
    rw [resumeState_marks]
    split
    · obtain ⟨rfl,hstates⟩ := ‹a = b ∧ _›
      have hlive : (w.marks a).live := decide_eq_true happ
      have hadd : (w.marks a).added = false := decide_eq_false ho
      refine ⟨.active,?_⟩
      cases fate <;> simp_all [Fate.marks]
    · exact ⟨fate,hfate⟩
  | updateStates =>
    obtain ⟨sets,hsets,rfl⟩ := map_eq_some_iff.mp h
    rw [updateStates_marks hsets,hfate]
    cases fate with
    | unborn => exact ⟨.unborn,rfl⟩
    | added => exact ⟨.active,rfl⟩
    | active => exact ⟨.active,rfl⟩
    | suspended => exact ⟨.suspended,rfl⟩
    | dying => exact ⟨.deleted,rfl⟩
    | deleted => exact ⟨.deleted,rfl⟩

lemma Reached.inv (h : Reached Orderly w) : Inv w := by
  refine Runs.Reached.invariant ?_ ?_ h
  · rintro _ ⟨a,rfl⟩
    exact inv_start a
  · intro w call w' hi ha hstep
    exact hi.step ha.1 ha.2 hstep

lemma Inv.sorted (hi : Inv w) : Sorted w where
  one_set a ha := by
    obtain ⟨fate,hfate⟩ := hi a
    cases fate <;> simp_all [marks,Fate.marks]
  removed a ha := by
    obtain ⟨fate,hfate⟩ := hi a
    cases fate <;> simp_all [marks,Fate.marks]
  deleted a := by
    obtain ⟨fate,hfate⟩ := hi a
    cases fate <;> simp_all [marks,Fate.marks]

lemma Inv.step_isSome (hi : Inv w) (ho : w.Orderly call) : (w.step call).isSome := by
  cases call with
  | fork | terminate | resume => rfl
  | suspend a =>
    have ha : a ∈ w.sets.states := ho
    simp [Lifecycle.step,suspendState,ha]
  | updateStates =>
    change (w.sets.updateStates.map _).isSome
    rw [isSome_map]
    exact ExecutorStates.updateStates_isSome hi.sorted.removed

/-- In every run of orderly calls no assertion fails, each live state is in one set, and each
terminated state is deleted once. -/
theorem states_sorted (w : Lifecycle) (h : Reached Orderly w) :
    Sorted w ∧ ∀ call, w.Applies call → w.Orderly call → (w.step call).isSome = true :=
  ⟨h.inv.sorted,fun _ _ ho => h.inv.step_isSome ho⟩

theorem states_sorted_resumed : ∃ w,
    Runs.run step (fun w call => decide (w.Applies call ∧ w.Orderly call)) (start 1)
      [.fork 1 2,.updateStates,.suspend 2,.resume 2,.terminate 2] = some w ∧ Sorted w := by
  have hsome : (Runs.run step (fun w call => decide (w.Applies call ∧ w.Orderly call)) (start 1)
      [.fork 1 2,.updateStates,.suspend 2,.resume 2,.terminate 2]).isSome := by
    decide +kernel
  obtain ⟨w,hw⟩ := isSome_iff_exists.mp hsome
  have hreach : Reached Orderly w := .run (fun _ _ => of_decide_eq_true) (.start ⟨1,rfl⟩) hw
  exact ⟨w,hw,(states_sorted w hreach).1⟩

/-- A state that dies while it is suspended: the next update fails its assertion. -/
theorem suspended_terminated_fails : ∃ w, Reached (fun _ _ => True) w ∧
    w.Applies .updateStates ∧ w.step .updateStates = none := by
  have hfail : (Runs.run step (fun w call => decide (w.Applies call)) (start 1)
      [.fork 1 2,.updateStates,.suspend 2,.terminate 2]).map
        (fun w => (w.step .updateStates).isNone) = some true := by
    decide +kernel
  obtain ⟨w,hw,hnone⟩ := map_eq_some_iff.mp hfail
  refine ⟨w,.run (fun _ _ h => ⟨of_decide_eq_true h,trivial⟩) (.start ⟨1,rfl⟩) hw,trivial,?_⟩
  exact isNone_iff_eq_none.mp hnone

end Lifecycle
end S2E
