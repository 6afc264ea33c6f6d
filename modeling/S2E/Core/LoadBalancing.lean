import S2E.Core.StateSets
import S2E.Core.Instances

/-!
Load balancing in `S2EExecutor.cpp`: the process forks, and each of the two copies terminates the
states that it leaves to the other one.
-/

namespace S2E
open Std List Option

structure StateFlags where
  guid : UInt32
  zombie : Bool := false
  pinned : Bool := false

structure ProcessStates where
  executor : ExecutorStates
  flags : UInt64 → StateFlags

structure SplitHandler where
  split : TreeSet UInt64 → TreeSet UInt64 → TreeSet UInt64 × TreeSet UInt64
  parent_mem : ∀ {parent child : TreeSet UInt64} {a : UInt64}, a ∈ parent →
    a ∈ (split parent child).1
  child_mem : ∀ {parent child : TreeSet UInt64} {a : UInt64}, a ∈ child → a ∈ (split parent child).2

/-- The order in which an unordered set is iterated over. -/
structure Iteration where
  order : TreeSet UInt64 → List UInt64
  mem_order : ∀ {s : TreeSet UInt64} {a : UInt64}, a ∈ order s ↔ a ∈ s
  nodup : ∀ s, (order s).Nodup

/-- The loop of `std::set_intersection`, which takes both ranges to be sorted. -/
def setIntersection : List UInt64 → List UInt64 → List UInt64
  | [], _ => []
  | a :: as, bs =>
    match bs.dropWhile (· < a) with
    | [] => []
    | b :: bs => if a < b then setIntersection as (b :: bs) else a :: setIntersection as bs

variable {newIds : List (UInt64 × UInt32)}

namespace ProcessStates
variable (e : ProcessStates)

def allStates : List UInt64 :=
  e.executor.states.toList.filter fun a => !(e.flags a).zombie && !(e.flags a).pinned

def splitStates (allStates : List UInt64) : TreeSet UInt64 × TreeSet UInt64 :=
  let n := allStates.length/2
  (.ofList (allStates.take n),.ofList (allStates.drop n))

/-- New guids for the states that are found in both sets; the ids are those that the calls of
`fetchAndIncrementStateId` return. -/
def computeNewStateGuids (ids : UInt64 → UInt32) (parentSet childSet : List UInt64) :
    List (UInt64 × UInt32) :=
  (setIntersection parentSet childSet).map fun a => (a,ids a)

def terminateState (a : UInt64) : ProcessStates where
  executor := e.executor.terminateState a
  flags := Function.update e.flags a {e.flags a with zombie := true}

def terminateUnlessIn (currentSet : TreeSet UInt64) (e : ProcessStates) (a : UInt64) :
    ProcessStates :=
  if a ∈ currentSet then e else e.terminateState a

def terminateOthers (currentSet : TreeSet UInt64) (allStates : List UInt64)
    (e : ProcessStates) : ProcessStates :=
  allStates.foldl (terminateUnlessIn currentSet) e

def assignGuid (a : UInt64) (guid : UInt32) : ProcessStates :=
  {e with flags := Function.update e.flags a {e.flags a with guid := guid}}

def assignGuids (newIds : List (UInt64 × UInt32)) (e : ProcessStates) : ProcessStates :=
  newIds.foldl (fun e c => e.assignGuid c.1 c.2) e

structure ForkInputs where
  currentInstanceCount : Nat
  maxInstances : Nat
  /-- What the handlers of `onProcessForkDecide` leave. -/
  proceed : Bool
  handler : SplitHandler
  parentOrder : Iteration
  childOrder : Iteration
  ids : UInt64 → UInt32
  forked : Bool

def partition (handler : SplitHandler) : TreeSet UInt64 × TreeSet UInt64 :=
  let sets := splitStates e.allStates
  handler.split sets.1 sets.2

def doLoadBalancing (i : ForkInputs) : Option (ProcessStates × ProcessStates) :=
  if e.executor.states.size < 2 then none
  else if i.currentInstanceCount = i.maxInstances then none
  else if e.allStates.length < 2 then none
  else if !i.proceed then none
  else
    let sets := e.partition i.handler
    let newIds := computeNewStateGuids i.ids (i.parentOrder.order sets.1)
      (i.childOrder.order sets.2)
    if !i.forked then none
    else some (terminateOthers sets.1 e.allStates e,
      assignGuids newIds (terminateOthers sets.2 e.allStates e))

def Live (a : UInt64) : Prop :=
  a ∈ e.executor.states ∧ (e.flags a).zombie = false

variable {e parent child : ProcessStates} {i : ForkInputs} {a b : UInt64}

lemma mem_allStates : a ∈ e.allStates ↔ e.Live a ∧ (e.flags a).pinned = false := by
  simp [allStates,Live,and_assoc]

section
variable (currentSet : TreeSet UInt64)
include currentSet

lemma terminateUnlessIn_states (e : ProcessStates) (a : UInt64) :
    (e.terminateUnlessIn currentSet a).executor.states = e.executor.states := by
  unfold terminateUnlessIn terminateState ExecutorStates.terminateState
  split
  · rfl
  · dsimp only
    split <;> rfl

lemma terminateUnlessIn_flags (e : ProcessStates)
    (a b : UInt64) : (e.terminateUnlessIn currentSet b).flags a =
      ⟨(e.flags a).guid,(e.flags a).zombie || decide (a = b ∧ a ∉ currentSet),
        (e.flags a).pinned⟩ := by
  unfold terminateUnlessIn terminateState
  by_cases hab : a = b
  · subst hab
    split <;> simp_all
  · split <;> simp [hab]

lemma terminateOthers_states (l : List UInt64) (e : ProcessStates) :
    (terminateOthers currentSet l e).executor.states = e.executor.states := by
  induction l generalizing e with
  | nil => rfl
  | cons a l ih => exact (ih _).trans (terminateUnlessIn_states currentSet e a)

lemma terminateOthers_flags (l : List UInt64)
    (e : ProcessStates) (a : UInt64) : (terminateOthers currentSet l e).flags a =
      ⟨(e.flags a).guid,(e.flags a).zombie || decide (a ∈ l ∧ a ∉ currentSet),
        (e.flags a).pinned⟩ := by
  induction l generalizing e with
  | nil => simp [terminateOthers]
  | cons b l ih =>
    refine (ih _).trans ?_
    simp [terminateUnlessIn_flags,or_and_right,Bool.or_assoc]

lemma terminateOthers_live (e : ProcessStates) (a : UInt64) :
    (terminateOthers currentSet e.allStates e).Live a ↔
      e.Live a ∧ (a ∈ currentSet ∨ (e.flags a).pinned) := by
  unfold Live
  rw [terminateOthers_states,terminateOthers_flags]
  simp only [Bool.or_eq_false_iff,decide_eq_false_iff_not,mem_allStates,Live]
  grind

end

lemma assignGuids_states (newIds : List (UInt64 × UInt32)) (e : ProcessStates) :
    (assignGuids newIds e).executor = e.executor := by
  induction newIds generalizing e with
  | nil => rfl
  | cons c l ih => exact ih _

lemma assignGuids_zombie (newIds : List (UInt64 × UInt32)) (e : ProcessStates) (a : UInt64) :
    ((assignGuids newIds e).flags a).zombie = (e.flags a).zombie := by
  induction newIds generalizing e with
  | nil => rfl
  | cons c l ih =>
    refine (ih _).trans ?_
    by_cases h : a = c.1
    · subst h
      simp [assignGuid]
    · simp [assignGuid,h]

lemma assignGuids_of_notMem (e : ProcessStates)
    (ha : a ∉ newIds.map Prod.fst) : ((assignGuids newIds e).flags a).guid = (e.flags a).guid := by
  induction newIds generalizing e with
  | nil => rfl
  | cons c l ih =>
    obtain ⟨hne,ha⟩ := not_or.mp (fun h => ha (mem_cons.mpr h))
    refine (ih _ ha).trans ?_
    simp [assignGuid,hne]

lemma assignGuids_of_mem (e : ProcessStates) {id : UInt32}
    (hnodup : (newIds.map Prod.fst).Nodup) (ha : (a,id) ∈ newIds) :
    ((assignGuids newIds e).flags a).guid = id := by
  induction newIds generalizing e with
  | nil => cases ha
  | cons c l ih =>
    obtain ⟨hc,hnodup⟩ := nodup_cons.mp hnodup
    obtain rfl | ha := mem_cons.mp ha
    · refine (assignGuids_of_notMem _ hc).trans ?_
      simp [assignGuid]
    · exact ih _ hnodup ha

lemma setIntersection_sublist (as bs : List UInt64) : setIntersection as bs <+ as := by
  induction as generalizing bs with
  | nil => exact .refl _
  | cons a as ih =>
    rw [setIntersection]
    split
    · exact nil_sublist _
    · split
      · exact (ih _).cons a
      · exact (ih _).cons_cons a

lemma mem_of_mem_setIntersection {as bs : List UInt64} (h : a ∈ setIntersection as bs) :
    a ∈ bs := by
  induction as generalizing bs with
  | nil => cases h
  | cons c as ih =>
    rw [setIntersection] at h
    split at h
    · cases h
    · next b rest hdrop =>
      have hmem : ∀ x ∈ b :: rest, x ∈ bs := fun x hx =>
        (dropWhile_sublist _).subset (hdrop ▸ hx)
      split at h
      · exact hmem a (ih h)
      · next hab =>
        have hle : ¬ b < c := by simpa [hdrop] using head?_dropWhile_not (· < c) bs
        obtain rfl | h := mem_cons.mp h
        · exact hmem a (by simp [UInt64.le_antisymm (UInt64.not_lt.mp hle) (UInt64.not_lt.mp hab)])
        · exact hmem a (mem_cons_of_mem _ (ih h))

/-- What `computeNewStateGuids` takes for the states that both processes keep. -/
def commonStates (e : ProcessStates) (i : ForkInputs) : List UInt64 :=
  setIntersection (i.parentOrder.order (e.partition i.handler).1)
    (i.childOrder.order (e.partition i.handler).2)

lemma nodup_commonStates (e : ProcessStates) (i : ForkInputs) : (e.commonStates i).Nodup :=
  (i.parentOrder.nodup _).sublist (setIntersection_sublist _ _)

lemma mem_of_mem_commonStates (h : a ∈ e.commonStates i) :
    a ∈ (e.partition i.handler).1 ∧ a ∈ (e.partition i.handler).2 :=
  ⟨i.parentOrder.mem_order.mp ((setIntersection_sublist _ _).subset h),
    i.childOrder.mem_order.mp (mem_of_mem_setIntersection h)⟩

lemma doLoadBalancing_eq (h : e.doLoadBalancing i = some (parent,child)) :
    parent = terminateOthers (e.partition i.handler).1 e.allStates e ∧ child = assignGuids
        ((e.commonStates i).map fun a => (a,i.ids a))
        (terminateOthers (e.partition i.handler).2 e.allStates e) := by
  obtain ⟨-,h⟩ := ite_none_left_eq_some.mp h
  obtain ⟨-,h⟩ := ite_none_left_eq_some.mp h
  obtain ⟨-,h⟩ := ite_none_left_eq_some.mp h
  obtain ⟨-,h⟩ := ite_none_left_eq_some.mp h
  obtain ⟨-,h⟩ := ite_none_left_eq_some.mp h
  cases h
  exact ⟨rfl,rfl⟩

lemma child_guid (e e' : ProcessStates) (i : ForkInputs) (a : UInt64) :
    ((assignGuids ((e.commonStates i).map fun a => (a,i.ids a)) e').flags a).guid =
      if a ∈ e.commonStates i then i.ids a else (e'.flags a).guid := by
  have hkeys : ((e.commonStates i).map fun a => (a,i.ids a)).map Prod.fst = e.commonStates i := by
    simp [Function.comp_def]
  split
  next ha =>
    exact assignGuids_of_mem e' (hkeys.symm ▸ nodup_commonStates e i) (mem_map.mpr ⟨a,ha,rfl⟩)
  next ha => exact assignGuids_of_notMem e' (hkeys.symm ▸ ha)

/-- The guids of the states and the new ones were all handed out as state ids, and no id is
handed out twice. -/
def HandedOut (e : ProcessStates) (i : ForkInputs) : Prop :=
  (e.executor.states.toList.map (fun a => (e.flags a).guid) ++ (e.commonStates i).map i.ids).Nodup

structure Divides (e : ProcessStates) (i : ForkInputs) (parent child : ProcessStates) :
    Prop where
  survives : ∀ a, e.Live a → parent.Live a ∨ child.Live a
  parent_keeps : ∀ a, parent.Live a ↔
    e.Live a ∧ (a ∈ (e.partition i.handler).1 ∨ (e.flags a).pinned)
  child_keeps : ∀ a, child.Live a ↔ e.Live a ∧ (a ∈ (e.partition i.handler).2 ∨ (e.flags a).pinned)
  parent_guids : ∀ a b, parent.Live a → parent.Live b →
    (parent.flags a).guid = (parent.flags b).guid → a = b
  child_guids : ∀ a b, child.Live a → child.Live b →
    (child.flags a).guid = (child.flags b).guid → a = b
  guids : ∀ a b, parent.Live a → child.Live b → (parent.flags a).guid ≠ (child.flags b).guid

lemma mem_partition (handler : SplitHandler) (ha : a ∈ e.allStates) :
    a ∈ (e.partition handler).1 ∨ a ∈ (e.partition handler).2 := by
  rw [← take_append_drop (e.allStates.length/2) e.allStates,mem_append] at ha
  refine ha.imp (fun h => handler.parent_mem ?_) (fun h => handler.child_mem ?_)
  · simpa [splitStates] using h
  · simpa [splitStates] using h

section
variable (hids : e.HandedOut i)
include hids

lemma HandedOut.guid_inj (ha : e.Live a) (hb : e.Live b)
    (h : (e.flags a).guid = (e.flags b).guid) : a = b :=
  inj_on_of_nodup_map (nodup_append.mp hids).1 (TreeSet.mem_toList.mpr ha.1)
    (TreeSet.mem_toList.mpr hb.1) h

lemma HandedOut.id_inj (ha : a ∈ e.commonStates i) (hb : b ∈ e.commonStates i)
    (h : i.ids a = i.ids b) : a = b :=
  inj_on_of_nodup_map (nodup_append.mp hids).2.1 ha hb h

lemma HandedOut.fresh (ha : e.Live a) (hb : b ∈ e.commonStates i) :
    (e.flags a).guid ≠ i.ids b :=
  (nodup_append.mp hids).2.2 _ (mem_map_of_mem (TreeSet.mem_toList.mpr ha.1)) _ (mem_map_of_mem hb)

end

def threeStates (pinned : Bool) : ProcessStates where
  executor := {states := .ofList ([1,2,3] : List UInt64)}
  flags a := {guid := a.toUInt32, pinned := pinned && a == 1}

def inOrder : Iteration where
  order s := s.toList
  mem_order := TreeSet.mem_toList
  nodup s := TreeSet.distinct_toList.imp fun h => by simpa using h

def reversed : Iteration where
  order s := s.toList.reverse
  mem_order := by simp
  nodup s := nodup_reverse.mpr (inOrder.nodup s)

/-- A handler can keep a state in both processes, as `SeedSearcher::onStateSplit` does. -/
def forkKeeping (kept : Bool) (childOrder : Iteration) : ForkInputs where
  currentInstanceCount := 1
  maxInstances := 2
  proceed := true
  handler := if kept then
      ⟨fun parent child => (parent.insert 1,child.insert 1),by simp +contextual,by simp +contextual⟩
    else ⟨Prod.mk,id,id⟩
  parentOrder := inOrder
  childOrder := childOrder
  ids a := a.toUInt32+3
  forked := true

def Confuses (s : ProcessStates) (i : ForkInputs) : Prop :=
  s.HandedOut i ∧ ∃ parent child, s.doLoadBalancing i = some (parent,child) ∧
    ¬ Divides s i parent child

lemma confuses_of_kept {s : ProcessStates} {i : ForkInputs} {a : UInt64} (hlive : s.Live a)
    (hsome : (s.doLoadBalancing i).isSome) (hcommon : s.commonStates i = [])
    (hguids : (s.executor.states.toList.map fun a => (s.flags a).guid).Nodup)
    (hkept : a ∈ (s.partition i.handler).1 ∧ a ∈ (s.partition i.handler).2 ∨ (s.flags a).pinned) :
    Confuses s i := by
  obtain ⟨⟨parent,child⟩,h⟩ := isSome_iff_exists.mp hsome
  refine ⟨by simpa [HandedOut,hcommon] using hguids,parent,child,h,fun hd => ?_⟩
  obtain ⟨rfl,rfl⟩ := doLoadBalancing_eq h
  refine hd.guids a a ((hd.parent_keeps a).mpr ⟨hlive,hkept.imp_left And.left⟩)
    ((hd.child_keeps a).mpr ⟨hlive,hkept.imp_left And.right⟩) ?_
  rw [child_guid,hcommon]
  simp only [not_mem_nil,if_false,terminateOthers_flags]

end ProcessStates
end S2E
