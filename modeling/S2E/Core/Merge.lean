import S2E.Core.ExecutionState
import S2E.Memory.CopyOnWrite

/-!
`ExecutionState::merge`: the stacks, the constraints and the memory of two states are joined
under the condition that tells them apart.
-/

namespace S2E

abbrev KFunction := Nat

structure StackFrame (getNumRegisters : KFunction → Nat) where
  caller : Nat
  kf : KFunction
  locals : Vector (Option Expr) (getNumRegisters kf)

abbrev Stack (getNumRegisters : KFunction → Nat) := List (StackFrame getNumRegisters)

structure MergeState (getNumRegisters : KFunction → Nat) where
  pc : Nat
  symbolics : List ArrayObj
  stack : Stack getNumRegisters
  constraints : List Expr
  addressSpace : AddressSpace

namespace MergeState
variable {getNumRegisters : KFunction → Nat}

def stacksEnd : Stack getNumRegisters → Stack getNumRegisters → Bool
  | [], [] => true
  | _ :: a, _ :: b => stacksEnd a b
  | _, _ => false

def findMutated (ignored : ObjectKey → Bool) (h : Heap) :
    List (ObjectKey × ObjectRef) → List (ObjectKey × ObjectRef) → Option (List ObjectKey)
  | [], [] => some []
  | (mo,os) :: a, (mo',os') :: b =>
    if mo ≠ mo' then none
    else if os ≠ os' ∧ ignored mo = false then
      if (h.objects os).isSharedConcrete then none else (findMutated ignored h a b).map (mo :: ·)
    else findMutated ignored h a b
  | _, _ => none

def mergeLocal (inA : Expr) (bf af : StackFrame getNumRegisters) (i : Nat) :
    Option (StackFrame getNumRegisters) := do
  let av ← af.locals[i]?
  let bv ← bf.locals[i]?
  match av, bv with
  | some av, some bv => do
    let e ← SelectExpr.create inA av bv
    some {af with locals := af.locals.setIfInBounds i (some e)}
  | _, _ => some af

def mergeStack (inA : Expr) :
    Stack getNumRegisters → Stack getNumRegisters → Option (Stack getNumRegisters)
  | [], _ => some []
  | _ :: _, [] => none
  | af :: a, bf :: b => do
    let af ← (List.range (getNumRegisters af.kf)).foldlM (mergeLocal inA bf) af
    let stack ← mergeStack inA a b
    some (af :: stack)

def mergeByte (littleEndian : Bool) (inA : Expr) (wos otherOS : ObjectRef) (h : Heap) (i : Nat) :
    Option Heap := do
  let av ← h.read8 wos i
  let bv ← h.read8 otherOS i
  if av = bv then some h
  else do
    let e ← SelectExpr.create inA av bv
    h.write littleEndian wos (.expr i e)

def mergeObject (littleEndian : Bool) (inA : Expr) :
    Heap × AddressSpace × AddressSpace → ObjectKey → Option (Heap × AddressSpace × AddressSpace)
  | (h,a,b), mo => do
    let (os,a) := a.findObject h mo.address
    let (otherOS,b) := b.findObject h mo.address
    let os ← os
    let otherOS ← otherOS
    if (h.objects os).readOnly then none
    else do
      let (wos,h,a) ← a.getWriteable h os
      let h ← (List.range mo.size).foldlM (mergeByte littleEndian inA wos otherOS) h
      some (h,a,b)

def getConstraintSet (less : Expr → Expr → Bool) (C : List Expr) : List Expr :=
  C.dedup.mergeSort fun x y => !less y x

def merge (less : Expr → Expr → Bool) (ignored : ObjectKey → Bool) (littleEndian : Bool)
    (h : Heap) (a b : MergeState getNumRegisters) :
    Option (Bool × Heap × MergeState getNumRegisters) :=
  if a.pc ≠ b.pc then some (false,h,a)
  else if a.symbolics ≠ b.symbolics then some (false,h,a)
  else if stacksEnd a.stack b.stack = false then some (false,h,a)
  else
    let aConstraints := getConstraintSet less a.constraints
    let bConstraints := getConstraintSet less b.constraints
    let common := aConstraints.filter (· ∈ bConstraints)
    let join := fun C : List Expr =>
      (C.filter (· ∉ common)).foldl AndExpr.create (ConstantExpr.alloc 1 1)
    match findMutated ignored h a.addressSpace.objects.toList b.addressSpace.objects.toList with
    | none => some (false,h,a)
    | some mutated => do
      let inA := join aConstraints
      let inB := join bConstraints
      let stack ← mergeStack inA a.stack b.stack
      let (h,as,_) ← mutated.foldlM (mergeObject littleEndian inA)
        (h,a.addressSpace,b.addressSpace)
      let constraints ← common.foldlM ConstraintManager.addConstraint []
      let either ← OrExpr.create inA inB
      let constraints ← ConstraintManager.addConstraint constraints either
      some (true,h, {a with stack, constraints, addressSpace := as})

def SameCall (af bf : StackFrame getNumRegisters) : Prop :=
  af.caller = bf.caller ∧ af.kf = bf.kf

def StacksMatch : Stack getNumRegisters → Stack getNumRegisters → Prop :=
  List.Forall₂ fun af bf =>
    SameCall af bf ∧ ∀ i < getNumRegisters af.kf, bf.locals[i]?.isSome = true

variable {sa sb : Stack getNumRegisters}

lemma stacksEnd_iff : stacksEnd sa sb ↔ sa.length = sb.length := by
  induction sa generalizing sb with
  | nil => cases sb <;> simp [stacksEnd]
  | cons af sa ih => cases sb <;> simp [stacksEnd,ih]

lemma stacksMatch_iff :
    StacksMatch sa sb ↔ sa.length = sb.length ∧ ∀ p ∈ sa.zip sb, SameCall p.1 p.2 := by
  rw [StacksMatch,List.forall₂_iff_zip]
  refine and_congr_right fun _ => ⟨fun h p hp => (h hp).1,fun h af bf hp => ⟨h _ hp,?_⟩⟩
  intro i hi
  rw [(h _ hp).2] at hi
  simp [hi]

/-- The states differ in nothing that is a reason to return false. -/
structure Alike (ignored : ObjectKey → Bool) (h : Heap) (a b : MergeState getNumRegisters) : Prop
    where
  pc : a.pc = b.pc
  symbolics : a.symbolics = b.symbolics
  depth : a.stack.length = b.stack.length
  objects : (findMutated ignored h a.addressSpace.objects.toList
    b.addressSpace.objects.toList).isSome

variable {less : Expr → Expr → Bool} {ignored : ObjectKey → Bool} {littleEndian : Bool} {h : Heap}
  {a b : MergeState getNumRegisters}

lemma merge_not_rejected_iff :
    (∀ h' a', merge less ignored littleEndian h a b ≠ some (false,h',a')) ↔
      Alike ignored h a b := by
  constructor
  · intro hnot
    have hsome {r} (hr : merge less ignored littleEndian h a b = some (false,h,a)) : r :=
      absurd hr (hnot h a)
    refine ⟨?_,?_,?_,?_⟩ <;> by_contra hne <;> refine hsome ?_
    · simp [merge,hne]
    · simp [merge,hne]
    · have hend : stacksEnd a.stack b.stack = false :=
        Bool.eq_false_iff.mpr (stacksEnd_iff.not.mpr hne)
      simp [merge,hend]
    · rw [Bool.not_eq_true,Option.isSome_eq_false_iff,Option.isNone_iff_eq_none] at hne
      simp [merge,hne]
  · rintro ⟨hpc,hsym,hlen,hobj⟩ h' a' hfalse
    obtain ⟨mutated,hmut⟩ := Option.isSome_iff_exists.mp hobj
    simp [merge,hpc,hsym,stacksEnd_iff.mpr hlen,hmut,Option.bind_eq_some_iff] at hfalse

/-- States whose stacks do not match are rejected exactly if they differ in something else, or
else in no frame. A merge that is not rejected may also read a local that does not exist. -/
theorem merge_rejects_iff (less : Expr → Expr → Bool) (ignored : ObjectKey → Bool)
    (littleEndian : Bool) (h : Heap) (a b : MergeState getNumRegisters) :
    ((∀ h' a', merge less ignored littleEndian h a b ≠ some (false,h',a')) →
      StacksMatch a.stack b.stack) ↔
        (Alike ignored h a b → ∀ p ∈ a.stack.zip b.stack, SameCall p.1 p.2) := by
  rw [merge_not_rejected_iff]
  refine forall_congr' fun halike => ?_
  rw [stacksMatch_iff,and_iff_right halike.depth]

/-- The program counter is in the function of the top frame, and each call in the function of the
frame below. -/
structure Running (functionOf : Nat → KFunction) (s : MergeState getNumRegisters) : Prop where
  pc : ∀ f ∈ s.stack.getLast?, functionOf s.pc = f.kf
  callers : s.stack.IsChain fun below f => functionOf f.caller = below.kf

def inHelper (kf : KFunction) : MergeState id where
  pc := 45
  symbolics := []
  stack := [(0,kf),(10*kf+1,3),(31,4)].map fun (caller,kf) =>
    ⟨caller,kf,.replicate kf (some (ConstantExpr.alloc 0 8))⟩
  constraints := []
  addressSpace := .empty

/-- States in the same helper, with the same top frame, are merged though it was reached from
different functions. If the other function has fewer registers, a local is read that does not
exist. -/
theorem merge_of_different_functions :
    let merged := merge (fun _ _ => false) (fun _ => false) true World.noHeap
    (∀ kf ∈ [1,2], (inHelper kf).Running (·/10)) ∧
      (inHelper 1).stack.getLast? = (inHelper 2).stack.getLast? ∧
      (merged (inHelper 1) (inHelper 2)).map Prod.fst = some true ∧
      ¬StacksMatch (inHelper 1).stack (inHelper 2).stack ∧
      (merged (inHelper 2) (inHelper 1)).isNone = true := by
  refine ⟨?_,rfl,by decide +kernel,?_,by decide +kernel⟩
  · intro kf hkf
    rcases List.mem_pair.mp hkf with rfl | rfl <;>
      exact ⟨fun f hf => by cases hf; rfl,by simp [inHelper]⟩
  · rw [stacksMatch_iff]
    rintro ⟨-,h⟩
    have hkf := (h _ List.mem_cons_self).2
    cases hkf

end MergeState
end S2E
