import S2E.Lib.Maps

/-!
The sets of states in `Executor.cpp` and `S2EExecutor.cpp`: which states there are, which were
added or terminated since the last `updateStates`, and which still wait to be freed. A state is
known by its address.
-/

namespace S2E
open Std

structure ExecutorStates where
  states : TreeSet UInt64 := ∅
  addedStates : TreeSet UInt64 := ∅
  removedStates : TreeSet UInt64 := ∅
  /-- Dead states whose memory is not free yet. -/
  deletedStates : List UInt64 := []

namespace ExecutorStates
variable (x : ExecutorStates)

def Alive (a : UInt64) : Prop :=
  (a ∈ x.states ∨ a ∈ x.addedStates) ∧ a ∉ x.removedStates

instance (a : UInt64) : Decidable (x.Alive a) :=
  inferInstanceAs (Decidable (_ ∧ _))

def Free (a : UInt64) : Prop :=
  a ∉ x.states ∧ a ∉ x.addedStates ∧ a ∉ x.deletedStates

instance (a : UInt64) : Decidable (x.Free a) :=
  inferInstanceAs (Decidable (_ ∧ _ ∧ _))

def branch (child : UInt64) : ExecutorStates :=
  {x with addedStates := x.addedStates.insert child}

def terminateState (a : UInt64) : ExecutorStates :=
  if a ∈ x.addedStates then
    {x with addedStates := x.addedStates.erase a, deletedStates := a :: x.deletedStates}
  else {x with removedStates := x.removedStates.insert a}

def updateStates : Option ExecutorStates :=
  let states := x.states.insertMany x.addedStates.toList
  if x.removedStates.toList.all (states.contains ·) then
    some {
      states := states.filter fun a => a ∉ x.removedStates
      addedStates := ∅
      removedStates := ∅
      deletedStates := x.removedStates.toList ++ x.deletedStates}
  else none

def freeDeleted : ExecutorStates := {x with deletedStates := []}

lemma updateStates_spec {x x' : ExecutorStates} (h : x.updateStates = some x') :
    (∀ a, a ∈ x'.states ↔ (a ∈ x.states ∨ a ∈ x.addedStates) ∧ a ∉ x.removedStates) ∧
      x'.addedStates = ∅ ∧ x'.removedStates = ∅ := by
  unfold updateStates at h
  obtain ⟨-,h⟩ := Option.ite_none_right_eq_some.mp h
  cases h
  refine ⟨fun a => ?_,rfl,rfl⟩
  simp [TreeSet.mem_filter,TreeSet.mem_insertMany_list]

lemma updateStates_deletedStates {x x' : ExecutorStates} (h : x.updateStates = some x') :
    x'.deletedStates = x.removedStates.toList ++ x.deletedStates := by
  obtain ⟨-,h⟩ := Option.ite_none_right_eq_some.mp h
  cases h
  rfl

lemma updateStates_isSome {x : ExecutorStates} (h : ∀ a ∈ x.removedStates, a ∈ x.states) :
    x.updateStates.isSome := by
  have hall : x.removedStates.toList.all
      ((x.states.insertMany x.addedStates.toList).contains ·) := by
    refine List.all_eq_true.mpr fun a ha => ?_
    rw [TreeSet.contains_iff_mem,TreeSet.mem_insertMany_list]
    exact .inl (h a (TreeSet.mem_toList.mp ha))
  rw [updateStates,if_pos hall]
  rfl

end ExecutorStates
end S2E
