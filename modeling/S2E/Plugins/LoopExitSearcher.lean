import S2E.Lib.Maps
import S2E.Lib.Runs

/-!
`LoopExitSearcher.cpp`: states by priority, and a second queue for those that were forked at a
location that forks too often.
-/

namespace S2E
open Std List Option

structure StatePriority where
  state : UInt64
  priority : Int

/-- The container of `Searchers/Common.h`, in the order of the priorities. Among states with the
same priority the latest is the last. -/
abbrev MultiStates : Type := List StatePriority

namespace MultiStates
variable (ms : MultiStates)

def Has (a : UInt64) : Prop := a ∈ ms.map StatePriority.state

instance (a : UInt64) : Decidable (ms.Has a) :=
  inferInstanceAs (Decidable (_ ∈ _))

def find (a : UInt64) : Option StatePriority := ms.find? (·.state = a)

def insertSorted (p : StatePriority) : MultiStates → MultiStates
  | [] => [p]
  | q :: ms => if p.priority < q.priority then p :: q :: ms else q :: insertSorted p ms

def insert (p : StatePriority) : MultiStates :=
  if ms.Has p.state then ms else insertSorted p ms

def erase (a : UInt64) : MultiStates := ms.filter (·.state ≠ a)

def lastByPointer : Option StatePriority :=
  ms.foldl (fun best p =>
    if best.any (p.state < ·.state) then best else some p) none

end MultiStates

/-- `getNonCoveredState` of both coverage plugins, over the states that have something left to
cover: it gives only states that are in the filter. -/
def getNonCoveredState (nonCovered filter : List UInt64) : Option UInt64 :=
  nonCovered.find? (· ∈ filter)

structure LoopExitSearcher where
  forkCount : String → UInt64 → UInt64 := fun _ _ => 0
  states : MultiStates := []
  waitingStates : MultiStates := []
  currentState : Option UInt64 := none
  timerTicks : Nat := 0

/-- What `onFork` finds out about the location. In a module it looks, as far as it gets, which of
the targets leave the loop. -/
inductive ForkLocation where
  | noModule (pc : UInt64)
  /-- The program counter has no address in the module. -/
  | unmapped
  | module (name : String) (pc : UInt64) (exits : List Bool)

namespace LoopExitSearcher
variable (m : LoopExitSearcher)

def onTimer : LoopExitSearcher :=
  let ticks := m.timerTicks+1
  {m with timerTicks := if ticks < 10 then ticks else 0}

def increasePriority (state : UInt64) (priority : Int) : Option LoopExitSearcher :=
  match m.states.find state, m.waitingStates.find state with
  | some p, _ => some { m with
      states := (m.states.erase state).insert {p with priority := p.priority+priority}}
  | none, some p => some { m with
      waitingStates :=
        (m.waitingStates.erase state).insert {p with priority := p.priority+priority}}
  | none, none => none

def addForked (count : UInt64) (p : StatePriority) (m : LoopExitSearcher) (child : UInt64) :
    LoopExitSearcher :=
  if child = p.state then m
  else if 10 < count then
    {m with waitingStates := m.waitingStates.insert {p with state := child}}
  else {m with states := m.states.insert {p with state := child}}

def boost (target : UInt64 × Bool) : Option LoopExitSearcher :=
  if target.2 then m.increasePriority target.1 1 else some m

def forkAt (state : UInt64) (newStates : List UInt64) (name : String)
    (pc : UInt64) (exits : List Bool) : Option LoopExitSearcher :=
  let count := m.forkCount name pc+1
  let m := { m with
    forkCount := fun n p => if n = name ∧ p = pc then count else m.forkCount n p}
  (m.states.find state).bind fun p =>
    (newStates.zip exits).foldlM boost (newStates.foldl (addForked count p) m)

def onFork (state : UInt64) (newStates : List UInt64) : ForkLocation → Option LoopExitSearcher
  | .noModule pc => m.forkAt state newStates "unknown" pc []
  | .unmapped => some m
  | .module name pc exits => m.forkAt state newStates name pc exits

def selectByPriority : Option (UInt64 × LoopExitSearcher) :=
  m.states.getLast?.bind fun p =>
    match m.currentState with
    | none => some (p.state, {m with currentState := some p.state})
    | some current => (m.states.find current).map fun q =>
      let next := if q.priority < p.priority then p.state else current
      (next, {m with currentState := some next})

def refill : LoopExitSearcher :=
  if m.states.isEmpty then
    match m.waitingStates.lastByPointer with
    | some p => { m with
        waitingStates := m.waitingStates.erase p.state
        states := m.states.insert p}
    | none => m
  else m

def selectState (blocks edges : List UInt64) : Option (UInt64 × LoopExitSearcher) :=
  if m.states.isEmpty then none
  else
    match getNonCoveredState blocks [] with
    | some nc => some (nc, {m with currentState := some nc})
    | none =>
      match getNonCoveredState edges [] with
      | some nc => some (nc, {m with currentState := some nc})
      | none => m.refill.selectByPriority

def addState (state : UInt64) : LoopExitSearcher :=
  if m.states.Has state then m else {m with states := m.states.insert ⟨state,0⟩}

def removeState (state : UInt64) : LoopExitSearcher :=
  { m with
    states := m.states.erase state
    currentState := if some state = m.currentState then none else m.currentState}

def update (added removed : List UInt64) : LoopExitSearcher :=
  removed.foldl removeState (added.foldl addState m)

end LoopExitSearcher

structure LoopExit where
  searcher : LoopExitSearcher
  states : TreeSet UInt64
  forked : TreeSet UInt64 := ∅

namespace LoopExit

inductive Event where
  | fork (state : UInt64) (newStates : List UInt64) (l : ForkLocation)
  /-- A forked state dies before the searcher is told about it; the executor just deletes it. -/
  | discard (state : UInt64)
  | update (removed : List UInt64)
  | timer
  | selectState (blocks edges : List UInt64)

variable (s : LoopExit)

def step : Event → Option LoopExit
  | .fork state newStates l => (s.searcher.onFork state newStates l).map fun m => { s with
      searcher := m
      forked := s.forked.insertMany (newStates.filter (· ≠ state))}
  | .discard state => some {s with forked := s.forked.erase state}
  | .update removed => some {
      searcher := s.searcher.update s.forked.toList removed
      states := (s.states.insertMany s.forked.toList).filter (· ∉ removed)}
  | .timer => some {s with searcher := s.searcher.onTimer}
  | .selectState blocks edges =>
    (s.searcher.selectState blocks edges).map fun r => {s with searcher := r.2}

def Live (a : UInt64) : Prop := a ∈ s.states ∨ a ∈ s.forked

def Applies : Event → Prop
  | .fork state newStates _ =>
    state ∈ s.states ∧ ∀ a ∈ newStates, a = state ∨ a ∉ s.states ∧ a ∉ s.forked
  | .discard state => state ∈ s.forked
  | .update _ | .timer => True
  | .selectState _ _ => s.states.isEmpty = false

instance : (e : Event) → Decidable (s.Applies e)
  | .fork .. => @instDecidableAnd _ _ inferInstance (decidableBAll _ _)
  | .discard _ => inferInstanceAs (Decidable (_ ∈ _))
  | .update _ | .timer => inferInstanceAs (Decidable True)
  | .selectState _ _ => inferInstanceAs (Decidable (_ = false))

/-- No update announces a state that is in the wait queue, and no forked state dies while it is in
a queue. -/
def Admits : Event → Prop
  | .update _ => ∀ a ∈ s.forked.toList, ¬s.searcher.waitingStates.Has a
  | .discard a => ¬s.searcher.states.Has a ∧ ¬s.searcher.waitingStates.Has a
  | .fork .. | .timer | .selectState .. => True

instance : (e : Event) → Decidable (s.Admits e)
  | .update _ => decidableBAll _ _
  | .discard _ => inferInstanceAs (Decidable (_ ∧ _))
  | .fork .. | .timer | .selectState .. => inferInstanceAs (Decidable True)

def start : LoopExit where
  searcher := {states := [⟨0,0⟩]}
  states := TreeSet.insert ∅ 0

def Reached (admits : LoopExit → Event → Prop) : LoopExit → Prop :=
  Runs.Reached step (fun s e => s.Applies e ∧ admits s e) (· = start)

/-- Each live state that the searcher was told about or has in a queue is in exactly one queue,
and no dead state is in a queue. -/
structure Partitions : Prop where
  one_queue : ∀ a, a ∈ s.states ∨
      s.Live a ∧ (s.searcher.states.Has a ∨ s.searcher.waitingStates.Has a) →
    s.searcher.states.Has a ∧ ¬s.searcher.waitingStates.Has a ∨
      ¬s.searcher.states.Has a ∧ s.searcher.waitingStates.Has a
  live : ∀ a, s.searcher.states.Has a ∨ s.searcher.waitingStates.Has a → s.Live a

end LoopExit

namespace MultiStates
variable {ms : MultiStates} {p : StatePriority} {a b : UInt64}

lemma has_insertSorted : (insertSorted p ms).Has a ↔ a = p.state ∨ ms.Has a := by
  induction ms with
  | nil => simp [insertSorted,Has]
  | cons q ms ih =>
    simp only [Has] at ih
    unfold insertSorted
    split
    · simp [Has]
    · simp [Has,ih,or_left_comm]

lemma has_insert : (ms.insert p).Has a ↔ a = p.state ∨ ms.Has a := by
  unfold insert
  split
  next h =>
    refine (or_iff_right_of_imp ?_).symm
    rintro rfl
    exact h
  · exact has_insertSorted

lemma has_erase : (ms.erase b).Has a ↔ a ≠ b ∧ ms.Has a := by
  simp only [Has,erase,List.mem_map,List.mem_filter,decide_eq_true_eq]
  constructor
  · rintro ⟨p,⟨hp,hne⟩,rfl⟩
    exact ⟨hne,p,hp,rfl⟩
  · rintro ⟨hne,p,hp,rfl⟩
    exact ⟨p,⟨hp,hne⟩,rfl⟩

lemma find_of_has (h : ms.Has a) : ∃ p, ms.find a = some p ∧ p.state = a := by
  obtain ⟨q,hq,rfl⟩ := mem_map.mp h
  have hsome : (ms.find q.state).isSome := by
    rw [find,find?_isSome]
    exact ⟨q,hq,decide_eq_true rfl⟩
  obtain ⟨p,hp⟩ := isSome_iff_exists.mp hsome
  exact ⟨p,hp,of_decide_eq_true (find?_some hp :)⟩

lemma has_of_find (h : ms.find a = some p) : p.state = a ∧ ms.Has a := by
  have heq : p.state = a := of_decide_eq_true (find?_some h :)
  exact ⟨heq,mem_map.mpr ⟨p,mem_of_find?_eq_some h,heq⟩⟩

end MultiStates

namespace LoopExitSearcher
variable {m m' m'' : LoopExitSearcher} {a : UInt64}

structure Same (m m' : LoopExitSearcher) : Prop where
  states : ∀ b, m'.states.Has b ↔ m.states.Has b
  waiting : ∀ b, m'.waitingStates.Has b ↔ m.waitingStates.Has b
  current : m'.currentState = m.currentState

lemma Same.refl (m : LoopExitSearcher) : Same m m := ⟨fun _ => .rfl,fun _ => .rfl,rfl⟩

lemma Same.trans (h : Same m m') (h' : Same m' m'') : Same m m'' :=
  ⟨fun b => (h'.states b).trans (h.states b),fun b => (h'.waiting b).trans (h.waiting b),
    h'.current.trans h.current⟩

lemma has_erase_insert {ms : MultiStates} {p q : StatePriority} (hq : ms.find a = some q)
    (hp : p.state = q.state) (b : UInt64) : ((ms.erase a).insert p).Has b ↔ ms.Has b := by
  obtain ⟨hstate,hhas⟩ := MultiStates.has_of_find hq
  rw [MultiStates.has_insert,MultiStates.has_erase,hp,hstate]
  by_cases hb : b = a <;> simp [hb,hhas]

lemma increasePriority_spec (h : m.states.Has a ∨ m.waitingStates.Has a) (priority : Int) :
    ∃ m', m.increasePriority a priority = some m' ∧ Same m m' := by
  unfold increasePriority
  split
  next p hp =>
    exact ⟨_,rfl,has_erase_insert hp rfl,fun _ => .rfl,rfl⟩
  next p hnone hp =>
    exact ⟨_,rfl,fun _ => .rfl,has_erase_insert hp rfl,rfl⟩
  rename_i hnone hnone'
  rcases h with h | h
  · obtain ⟨p,hp,-⟩ := MultiStates.find_of_has h
    cases hnone.symm.trans hp
  · obtain ⟨p,hp,-⟩ := MultiStates.find_of_has h
    cases hnone'.symm.trans hp

lemma boostAll_spec (targets : List (UInt64 × Bool))
    (h : ∀ t ∈ targets, m.states.Has t.1 ∨ m.waitingStates.Has t.1) :
    ∃ m', targets.foldlM boost m = some m' ∧ Same m m' := by
  induction targets generalizing m with
  | nil => exact ⟨m,rfl,.refl m⟩
  | cons t targets ih =>
    obtain ⟨m1,hm1,hsame1⟩ : ∃ m1, m.boost t = some m1 ∧ Same m m1 := by
      unfold boost
      split
      · exact increasePriority_spec (h t mem_cons_self) 1
      · exact ⟨m,rfl,.refl m⟩
    obtain ⟨m2,hm2,hsame2⟩ := ih fun t ht => by
      rw [hsame1.states,hsame1.waiting]
      exact h t (mem_cons_of_mem _ ht)
    refine ⟨m2,?_,hsame1.trans hsame2⟩
    rw [foldlM_cons,hm1]
    exact hm2

lemma addForkedAll_spec (count : UInt64) (p : StatePriority) (m : LoopExitSearcher)
    (newStates : List UInt64) : let m' := newStates.foldl (addForked count p) m
    (∀ b, m'.states.Has b ↔ m.states.Has b ∨ ¬10 < count ∧ b ∈ newStates ∧ b ≠ p.state) ∧
      (∀ b, m'.waitingStates.Has b ↔
        m.waitingStates.Has b ∨ 10 < count ∧ b ∈ newStates ∧ b ≠ p.state) ∧
          m'.currentState = m.currentState := by
  induction newStates generalizing m with
  | nil => simp
  | cons a newStates ih =>
    obtain ⟨hstates,hwaiting,hcurrent⟩ := ih (m.addForked count p a)
    rw [foldl_cons]
    refine ⟨fun b => (hstates b).trans ?_,fun b => (hwaiting b).trans ?_,hcurrent.trans ?_⟩
    all_goals unfold addForked
    · split
      · grind
      · split <;> simp only [MultiStates.has_insert] <;> grind
    · split
      · grind
      · split <;> simp only [MultiStates.has_insert] <;> grind
    · split
      · rfl
      · split <;> rfl

def Forks (m m' : LoopExitSearcher) (a : UInt64) (newStates : List UInt64) : Prop :=
  m'.currentState = m.currentState ∧ ∃ toStates toWaiting : Prop, ¬(toStates ∧ toWaiting) ∧
    (∀ b, m'.states.Has b ↔ m.states.Has b ∨ toStates ∧ b ∈ newStates ∧ b ≠ a) ∧
      ∀ b, m'.waitingStates.Has b ↔ m.waitingStates.Has b ∨ toWaiting ∧ b ∈ newStates ∧ b ≠ a

lemma forkAt_spec {newStates : List UInt64} {name : String} {pc : UInt64} {exits : List Bool}
    (h : m.states.Has a) :
    ∃ m', m.forkAt a newStates name pc exits = some m' ∧ Forks m m' a newStates := by
  obtain ⟨p,hp,rfl⟩ := MultiStates.find_of_has h
  obtain ⟨hstates,hwaiting,hcurrent⟩ := addForkedAll_spec (m.forkCount name pc+1) p
    { m with forkCount := fun n q => if n = name ∧ q = pc then m.forkCount name pc+1
      else m.forkCount n q} newStates
  obtain ⟨m',hm',hsame⟩ := boostAll_spec (newStates.zip exits)
    (m := newStates.foldl (addForked (m.forkCount name pc+1) p) _) fun t ht => by
      have hmem := (of_mem_zip ht).1
      rw [hstates,hwaiting]
      by_cases heq : t.1 = p.state
      · exact .inl (.inl (heq ▸ h))
      · by_cases hcount : 10 < m.forkCount name pc+1
        · exact .inr (.inr ⟨hcount,hmem,heq⟩)
        · exact .inl (.inr ⟨hcount,hmem,heq⟩)
  refine ⟨m',?_,hsame.current.trans hcurrent,¬10 < m.forkCount name pc+1,_,not_and_self,
    fun b => (hsame.states b).trans (hstates b),fun b => (hsame.waiting b).trans (hwaiting b)⟩
  simp only [forkAt,hp,bind_some]
  exact hm'

lemma onFork_spec (h : m.states.Has a) (newStates : List UInt64) (l : ForkLocation) :
    ∃ m', m.onFork a newStates l = some m' ∧ Forks m m' a newStates := by
  cases l with
  | noModule pc => exact forkAt_spec h
  | unmapped => exact ⟨m,rfl,rfl,False,False,by simp,by simp,by simp⟩
  | module name pc exits => exact forkAt_spec h

lemma addAll_spec (m : LoopExitSearcher) (added : List UInt64) :
    let m' := added.foldl addState m
    (∀ b, m'.states.Has b ↔ b ∈ added ∨ m.states.Has b) ∧ m'.waitingStates = m.waitingStates ∧
      m'.currentState = m.currentState := by
  induction added generalizing m with
  | nil => simp
  | cons a added ih =>
    obtain ⟨hstates,hwaiting,hcurrent⟩ := ih (m.addState a)
    rw [foldl_cons]
    refine ⟨fun b => (hstates b).trans ?_,hwaiting.trans ?_,hcurrent.trans ?_⟩
    all_goals unfold addState
    · split
      · grind
      · rw [MultiStates.has_insert]
        grind
    · split <;> rfl
    · split <;> rfl

lemma removeAll_spec (m : LoopExitSearcher) (removed : List UInt64) :
    let m' := removed.foldl removeState m
    (∀ b, m'.states.Has b ↔ b ∉ removed ∧ m.states.Has b) ∧ m'.waitingStates = m.waitingStates ∧
        ∀ b, m'.currentState = some b → b ∉ removed ∧ m.currentState = some b := by
  induction removed generalizing m with
  | nil => simp
  | cons a removed ih =>
    obtain ⟨hstates,hwaiting,hcurrent⟩ := ih (m.removeState a)
    rw [foldl_cons]
    refine ⟨fun b => (hstates b).trans ?_,hwaiting,fun b hb => ?_⟩
    · rw [removeState,MultiStates.has_erase]
      grind
    · obtain ⟨hnot,hb⟩ := hcurrent b hb
      unfold removeState at hb
      grind

lemma update_spec (m : LoopExitSearcher) (added removed : List UInt64) :
    let m' := m.update added removed
    (∀ b, m'.states.Has b ↔ b ∉ removed ∧ (b ∈ added ∨ m.states.Has b)) ∧
      m'.waitingStates = m.waitingStates ∧
        ∀ b, m'.currentState = some b → b ∉ removed ∧ m.currentState = some b := by
  obtain ⟨hstates,hwaiting,hcurrent⟩ := addAll_spec m added
  obtain ⟨hstates',hwaiting',hcurrent'⟩ := removeAll_spec (added.foldl addState m) removed
  refine ⟨fun b => ?_,hwaiting'.trans hwaiting,fun b hb => ?_⟩
  · rw [update,hstates',hstates]
  · rw [← hcurrent]
    exact hcurrent' b hb

lemma selectState_eq (blocks edges : List UInt64) (h : m.states ≠ []) :
    m.selectState blocks edges = m.selectByPriority := by
  have hempty : m.states.isEmpty = false := isEmpty_eq_false_iff.mpr h
  have hnone : ∀ nonCovered, getNonCoveredState nonCovered [] = none := fun nonCovered => by
    simp [getNonCoveredState]
  simp [selectState,hempty,hnone,refill]

lemma selectState_spec (blocks edges : List UInt64) (h : m.states.Has a)
    (hcurrent : ∀ b, m.currentState = some b → m.states.Has b) :
    ∃ b m', m.selectState blocks edges = some (b,m') ∧ m.states.Has b ∧
      m' = {m with currentState := some b} := by
  have hne : m.states ≠ [] := by
    rintro hnil
    rw [hnil] at h
    cases h
  have hlast := getLast?_eq_some_getLast hne
  have hmem : m.states.Has (m.states.getLast hne).state := mem_map_of_mem (getLast_mem hne)
  rw [selectState_eq blocks edges hne,selectByPriority,hlast,bind_some]
  split
  · exact ⟨_,_,rfl,hmem,rfl⟩
  rename_i current hc
  have hhas := hcurrent current hc
  obtain ⟨q,hq,-⟩ := MultiStates.find_of_has hhas
  rw [hq,map_some]
  refine ⟨_,_,rfl,?_,rfl⟩
  split
  · exact hmem
  · exact hhas

end LoopExitSearcher

namespace LoopExit
variable {s s' : LoopExit} {a : UInt64}

structure Inv (s : LoopExit) : Prop where
  told : ∀ a ∈ s.states, s.searcher.states.Has a
  active : ∀ a, s.searcher.states.Has a → s.Live a
  waiting : ∀ a, s.searcher.waitingStates.Has a → a ∈ s.forked ∧ ¬s.searcher.states.Has a
  current : ∀ a, s.searcher.currentState = some a → s.searcher.states.Has a
  apart : ∀ a ∈ s.forked, a ∉ s.states
  /-- Whoever forked is there until the next update. -/
  parent : ∀ a ∈ s.forked, ∃ b, b ∈ s.states

lemma inv_start : start.Inv := by
  have hstates : ∀ a, a ∈ start.states ↔ a = 0 := fun a => by
    simp [start,eq_comm (a := a)]
  have hhas : ∀ a, start.searcher.states.Has a ↔ a = 0 := fun a => by
    simp [start,MultiStates.Has]
  have hforked : ∀ a, a ∉ start.forked := fun a => TreeSet.not_mem_emptyc
  constructor
  case told => exact fun a ha => (hhas a).mpr ((hstates a).mp ha)
  case active => exact fun a ha => .inl ((hstates a).mpr ((hhas a).mp ha))
  case waiting => exact nofun
  case current => exact nofun
  case apart => exact fun a ha => absurd ha (hforked a)
  case parent => exact fun a ha => absurd ha (hforked a)

lemma Inv.fork {newStates : List UInt64} {l : ForkLocation} (h : s.Inv) (ha : a ∈ s.states)
    (hnew : ∀ b ∈ newStates, b = a ∨ b ∉ s.states ∧ b ∉ s.forked) :
    ∃ s', s.step (.fork a newStates l) = some s' ∧ s'.Inv := by
  obtain ⟨m',hm',hcurrent,toStates,toWaiting,hone,hstates,hwaiting⟩ :=
    s.searcher.onFork_spec (h.told a ha) newStates l
  have hforked : ∀ b, b ∈ s.forked.insertMany (newStates.filter (· ≠ a)) ↔
      b ∈ s.forked ∨ b ∈ newStates ∧ b ≠ a := fun b => by
    simp [TreeSet.mem_insertMany_list]
  refine ⟨⟨m',s.states,_⟩,map_eq_some_iff.mpr ⟨m',hm',rfl⟩,?_⟩
  obtain ⟨htold,hactive,hwait,hcur,hapart,hparent⟩ := h
  constructor <;> simp only [Live,hforked,hstates,hwaiting,hcurrent] at *
  all_goals grind

lemma Inv.discard (h : s.Inv) (hs : ¬s.searcher.states.Has a)
    (hw : ¬s.searcher.waitingStates.Has a) : Inv {s with forked := s.forked.erase a} := by
  obtain ⟨htold,hactive,hwait,hcur,hapart,hparent⟩ := h
  constructor <;> simp only [Live,Sets.mem_erase] at *
  all_goals grind

lemma Inv.update (h : s.Inv) (hw : ∀ a ∈ s.forked.toList, ¬s.searcher.waitingStates.Has a)
    (removed : List UInt64) : Inv {
      searcher := s.searcher.update s.forked.toList removed
      states := (s.states.insertMany s.forked.toList).filter (· ∉ removed)} := by
  obtain ⟨hstates,hwaiting,hcurrent⟩ := s.searcher.update_spec s.forked.toList removed
  have hmem : ∀ b, b ∈ (s.states.insertMany s.forked.toList).filter (· ∉ removed) ↔
      b ∉ removed ∧ (b ∈ s.forked ∨ b ∈ s.states) := fun b => by
    simp [TreeSet.mem_filter,TreeSet.mem_insertMany_list,and_comm,or_comm]
  have hnone : ∀ b, b ∉ (∅ : TreeSet UInt64) := fun b => TreeSet.not_mem_emptyc
  simp only [TreeSet.mem_toList] at hstates hw
  obtain ⟨htold,hactive,hwait,hcur,hapart,hparent⟩ := h
  constructor <;> simp only [Live,hmem,hstates,hwaiting,hnone] at *
  all_goals grind

lemma Inv.step {e : Event} (h : s.Inv) (he : s.Applies e) (ha : s.Admits e) :
    ∃ s', s.step e = some s' ∧ s'.Inv := by
  cases e with
  | fork state newStates l => exact h.fork he.1 he.2
  | discard state => exact ⟨_,rfl,h.discard ha.1 ha.2⟩
  | update removed => exact ⟨_,rfl,h.update ha removed⟩
  | timer => exact ⟨_,rfl,h.told,h.active,h.waiting,h.current,h.apart,h.parent⟩
  | selectState blocks edges =>
    obtain ⟨a,hmem⟩ := TreeSet.isEmpty_eq_false_iff_exists_mem.mp he
    obtain ⟨b,m',hm',hb,rfl⟩ :=
      s.searcher.selectState_spec blocks edges (h.told a hmem) h.current
    refine ⟨_,map_eq_some_iff.mpr ⟨_,hm',rfl⟩,h.told,h.active,h.waiting,?_,h.apart,h.parent⟩
    rintro _ ⟨⟩
    exact hb

lemma Inv.partitions (h : s.Inv) : s.Partitions where
  one_queue a ha := by
    obtain ⟨htold,hactive,hwait,hcur,hapart,hparent⟩ := h
    grind
  live a ha := ha.elim (h.active a) fun hw => .inr (h.waiting a hw).1

lemma Reached.inv (h : Reached Admits s) : s.Inv := by
  refine Runs.Reached.invariant (I := Inv) ?_ ?_ h
  · rintro _ rfl
    exact inv_start
  · intro s e s' hs he hstep
    obtain ⟨s1,hs1,h1⟩ := hs.step he.1 he.2
    cases hstep.symm.trans hs1
    exact h1

/-- In every run in which no state is announced while it is in the wait queue, and no forked state
dies while it is in a queue, the queues divide the live states, no assertion fails, and a
selection gives a live active state. -/
theorem loop_exit_partitions (s : LoopExit) (h : Reached Admits s) : s.Partitions ∧
    (∀ e, s.Applies e → s.Admits e → (s.step e).isSome = true) ∧
      ∀ a blocks edges, s.Live a → ∃ b m, s.searcher.selectState blocks edges = some (b,m) ∧
        s.Live b ∧ m.states.Has b := by
  refine ⟨h.inv.partitions,fun e he ha => ?_,fun a blocks edges ha => ?_⟩
  · obtain ⟨s',hs',-⟩ := h.inv.step he ha
    exact isSome_of_eq_some hs'
  · obtain ⟨c,hc⟩ : ∃ c, c ∈ s.states := ha.elim (fun hs => ⟨a,hs⟩) (h.inv.parent a)
    obtain ⟨b,m,hm,hb,rfl⟩ :=
      s.searcher.selectState_spec blocks edges (h.inv.told c hc) h.inv.current
    exact ⟨b,_,hm,h.inv.active b hb,hb⟩

theorem loop_exit_partitions_exit : ∃ s,
    Runs.run step (fun s e => decide (s.Applies e ∧ s.Admits e)) start
      [.fork 0 [0,1] (.module "driver" 16 [false,true]),.update [],.selectState [] [],.timer,
        .update [0]] = some s ∧ s.Partitions := by
  have hsome : (Runs.run step (fun s e => decide (s.Applies e ∧ s.Admits e)) start
      [.fork 0 [0,1] (.module "driver" 16 [false,true]),.update [],.selectState [] [],.timer,
        .update [0]]).isSome := by
    decide +kernel
  obtain ⟨s,hs⟩ := isSome_iff_exists.mp hsome
  have hreach : Reached Admits s := .run (fun _ _ => of_decide_eq_true) (.start rfl) hs
  exact ⟨s,hs,(loop_exit_partitions s hreach).1⟩

/-- The child of the eleventh fork at one location waits, and the next update makes it active
too. -/
theorem forked_often_in_both_queues : ∃ s, Reached (fun _ _ => True) s ∧ ¬s.Partitions := by
  let events : List Event := ([1,2,3,4,5,6,7,8,9,10,11].map fun a =>
    .fork 0 [0,a] (.noModule 16)) ++ [.update []]
  have hrun : (Runs.run step (fun s e => decide (s.Applies e)) start events).map
      (fun s => decide ((11 : UInt64) ∈ s.states ∧ s.searcher.states.Has 11 ∧
        s.searcher.waitingStates.Has 11)) = some true := by
    decide +kernel
  obtain ⟨s,hs,hboth⟩ := map_eq_some_iff.mp hrun
  obtain ⟨hlive,hactive,hwaiting⟩ := of_decide_eq_true hboth
  refine ⟨s,.run (fun _ _ h => ⟨of_decide_eq_true h,trivial⟩) (.start rfl) hs,fun hp => ?_⟩
  obtain ⟨-,hnot⟩ | ⟨hnot,-⟩ := hp.one_queue 11 (.inl hlive)
  · exact hnot hwaiting
  · exact hnot hactive

end LoopExit
end S2E
