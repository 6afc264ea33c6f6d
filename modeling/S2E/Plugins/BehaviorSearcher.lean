import S2E.Lib.Maps

/-!
`BehaviorSearcher.cpp`: the states of the executor ranked by their distance to the targets of
an objective, with time sharing between them. A state is known by its address.
-/

namespace S2E
open Std

def UNREACHABLE : UInt64 := 0xffffffffffffffff

structure DistanceRange where
  start : UInt64
  stop : UInt64
  hops : UInt64

/-- The configurations that `parseConfig` accepts, as far as they matter for scheduling. -/
structure BehaviorConfig where
  distances : List DistanceRange
  avoidEdges : List (UInt64 × UInt64)
  epsilon : Rat
  plateauEpsilon : Rat
  distanceSlack : UInt64
  plateauSeconds : UInt64
  quantumSeconds : UInt64
  maxStallSeconds : UInt64
  hardStallSeconds : UInt64
  cooldownSeconds : UInt64
  targetGraceSeconds : UInt64
  distances_ne : distances ≠ []
  ordered : ∀ r ∈ distances, r.start ≤ r.stop
  sorted : distances.Pairwise fun a b => a.stop < b.start
  epsilon_nonneg : 0 ≤ epsilon
  epsilon_le : epsilon ≤ plateauEpsilon
  plateauEpsilon_le : plateauEpsilon ≤ 1
  /-- The numbers of seconds are read as 64-bit integers that are not negative. -/
  seconds_lt : ∀ n ∈ [distanceSlack,plateauSeconds,quantumSeconds,maxStallSeconds,
    hardStallSeconds,cooldownSeconds,targetGraceSeconds], n < 0x8000000000000000
  cooldown_pos : quantumSeconds ≠ 0 ∨ maxStallSeconds ≠ 0 ∨ hardStallSeconds ≠ 0 ∨
    targetGraceSeconds ≠ 0 → cooldownSeconds ≠ 0
  hardStall_le : hardStallSeconds ≠ 0 → maxStallSeconds ≠ 0 → maxStallSeconds ≤ hardStallSeconds

structure StateInfo where
  distance : UInt64 := UNREACHABLE
  bestDistance : UInt64 := UNREACHABLE
  newBlocks : UInt64 := 0
  selections : UInt64 := 0
  lastProgressTick : UInt64 := 0
  targetReachedTick : UInt64 := 0
  cooldownUntilTick : UInt64 := 0
  frontierTargetKey : UInt64 := 0
  locationKnown : Bool := false
  targetReached : Bool := false
  deriving DecidableEq

structure BehaviorSearcher where
  states : TreeMap UInt64 StateInfo := ∅
  pendingForkStates : TreeMap UInt64 StateInfo := ∅
  reachedTargets : TreeSet UInt64 := ∅
  lastSelected : Option UInt64 := none
  currentState : Option UInt64 := none
  timerTicks : UInt64 := 0
  lastGlobalProgressTick : UInt64 := 0
  selectedAtTick : UInt64 := 0
  selectionCalls : UInt64 := 0

namespace BehaviorConfig
variable (cfg : BehaviorConfig)

def rangeBefore (nativePc : UInt64) : Option DistanceRange :=
  (cfg.distances.takeWhile fun r => ¬nativePc < r.start).getLast?

def getDistance (nativePc : UInt64) : UInt64 :=
  match cfg.rangeBefore nativePc with
  | none => UNREACHABLE
  | some r => if nativePc ≤ r.stop then r.hops else UNREACHABLE

def getTargetKey (nativePc : UInt64) : UInt64 :=
  match cfg.rangeBefore nativePc with
  | none => 0
  | some r => if nativePc ≤ r.stop ∧ r.hops = 0 then r.start else 0

def isAvoided (source destination : UInt64) : Bool := cfg.avoidEdges.contains (source,destination)

end BehaviorConfig

def tupleLt : List Int → List Int → Bool
  | a :: as, b :: bs => a < b || (a == b && tupleLt as bs)
  | _, _ => false

def effectiveDistance (info : StateInfo) : UInt64 :=
  if info.locationKnown then info.distance else info.bestDistance

structure StateTraits where
  constraints : UInt64 → Nat
  id : UInt64 → Int

structure ForkTargets where
  source : UInt64
  whenTrue : Option UInt64
  whenFalse : Option UInt64

structure Draw where
  probability : Rat
  choice : Nat

namespace BehaviorSearcher
variable (cfg : BehaviorConfig) (s : BehaviorSearcher)

def isCoolingDown (info : StateInfo) : Bool :=
  info.cooldownUntilTick > s.timerTicks

def isTargetSaturated (info : StateInfo) : Bool :=
  if info.frontierTargetKey ≠ 0 then s.reachedTargets.contains info.frontierTargetKey
  else info.targetReached

def hasUnsaturatedAlternative (current : UInt64) : Bool :=
  s.states.toList.any fun e =>
    e.1 != current && !s.isCoolingDown e.2 && !s.isTargetSaturated e.2 &&
      effectiveDistance e.2 != UNREACHABLE

def getCurrentEpsilon : Rat :=
  if cfg.plateauSeconds ≠ 0 ∧ s.timerTicks-s.lastGlobalProgressTick ≥ cfg.plateauSeconds then
    cfg.plateauEpsilon
  else cfg.epsilon

def hasRunnableAlternative (current : UInt64) (allowedRegression : UInt64)
    (allowAnyDistance : Bool) : Bool :=
  match s.states[current]? with
  | none => false
  | some info =>
    let currentDistance := effectiveDistance info
    let distanceLimit :=
      if !allowAnyDistance && currentDistance != UNREACHABLE &&
          allowedRegression < UNREACHABLE-currentDistance then
        currentDistance+allowedRegression
      else UNREACHABLE
    s.states.toList.any fun e =>
      e.1 != current && !s.isCoolingDown e.2 && effectiveDistance e.2 != UNREACHABLE &&
        (allowAnyDistance || currentDistance == UNREACHABLE ||
          effectiveDistance e.2 ≤ distanceLimit)

variable (traits : StateTraits)

def rank (state : UInt64) (info : StateInfo) : List Int :=
  [(!(effectiveDistance info != UNREACHABLE)).toInt,(s.isCoolingDown info).toInt,
    (s.isTargetSaturated info).toInt,(effectiveDistance info).toNat,
    -info.newBlocks.toInt64.toInt,traits.constraints state,info.selections.toNat,
    traits.id state]

def isBetter (candidate current : UInt64 × StateInfo) : Bool :=
  tupleLt (s.rank traits candidate.1 candidate.2) (s.rank traits current.1 current.2)

def onBlockExecute (state nativePc : UInt64) : BehaviorSearcher :=
  match s.states[state]? with
  | none => s
  | some info =>
    let distance := cfg.getDistance nativePc
    let progress := distance < info.bestDistance
    let reached := distance = 0 ∧ info.targetReached = false
    let targetKey := cfg.getTargetKey nativePc
    let newTarget := distance = 0 ∧ targetKey ≠ 0 ∧ targetKey ∉ s.reachedTargets
    { s with
      states := s.states.insert state { info with
        distance := distance
        locationKnown := true
        frontierTargetKey := 0
        bestDistance := if progress then distance else info.bestDistance
        lastProgressTick := if progress then s.timerTicks else info.lastProgressTick
        targetReached := info.targetReached || distance == 0
        targetReachedTick := if reached then s.timerTicks else info.targetReachedTick}
      reachedTargets := if newTarget then s.reachedTargets.insert targetKey else s.reachedTargets
      lastGlobalProgressTick :=
        if progress ∨ newTarget then s.timerTicks else s.lastGlobalProgressTick}

def forkChild (inherited : StateInfo) (source target : UInt64) : StateInfo :=
  let avoided := cfg.isAvoided source target
  let distance := if avoided then UNREACHABLE else cfg.getDistance target
  { inherited with
    distance := distance
    locationKnown := true
    bestDistance := if distance < inherited.bestDistance then distance else inherited.bestDistance
    selections := 0
    frontierTargetKey := if avoided then 0 else cfg.getTargetKey target
    lastProgressTick := s.timerTicks
    cooldownUntilTick := 0}

def inheritedAtFork (state : UInt64) : StateInfo :=
  match s.pendingForkStates[state]? with
  | some info => info
  | none => s.states.getD state {}

def forkPending (state : UInt64) (newStates : List UInt64)
    (b : ForkTargets) : TreeMap UInt64 StateInfo :=
  (newStates.zip [b.whenTrue,b.whenFalse]).foldl
    (fun pending child => match child.2 with
      | none => pending
      | some target =>
        pending.insert child.1 (forkChild cfg s (s.inheritedAtFork state) b.source target))
    s.pendingForkStates

def preferredSuccessor (state : UInt64) (newStates : List UInt64) : UInt64 :=
  newStates.foldl
    (fun preferred candidate =>
      match s.pendingForkStates[candidate]?,s.pendingForkStates[preferred]? with
      | some candidateInfo,some preferredInfo =>
        if s.isBetter traits (candidate,candidateInfo) (preferred,preferredInfo) then candidate
        else preferred
      | _,_ => preferred)
    state

/-- The successors get their metadata, outside the states the scheduler knows. The second
component tells whether the state yields to a better successor. -/
def onStateFork (state : UInt64)
    (newStates : List UInt64) (branch : Option ForkTargets) : BehaviorSearcher × Bool :=
  match branch with
  | none => (s,false)
  | some b =>
    if newStates.length ≠ 2 then (s,false)
    else
      let s := {s with pendingForkStates := forkPending cfg s state newStates b}
      (s,s.preferredSuccessor traits state newStates != state)

def onNewBlockCovered (state : UInt64) : BehaviorSearcher :=
  let covered := fun info : StateInfo =>
    {info with newBlocks := info.newBlocks+1, lastProgressTick := s.timerTicks}
  { s with
    lastGlobalProgressTick := s.timerTicks
    states := s.states.modify state covered
    pendingForkStates := s.pendingForkStates.modify state covered}

def onStateSwitch (next : UInt64) : BehaviorSearcher :=
  { s with
    selectedAtTick := if some next ≠ s.currentState then s.timerTicks else s.selectedAtTick
    currentState := some next}

inductive Yield where
  | target | hardStall | stall | quantum
  deriving DecidableEq, Repr

def yieldReason (current : UInt64) (info : StateInfo) : Option Yield :=
  let noProgressSeconds := s.timerTicks-info.lastProgressTick
  if cfg.targetGraceSeconds ≠ 0 ∧ info.targetReached ∧
      s.timerTicks-info.targetReachedTick ≥ cfg.targetGraceSeconds ∧
      s.hasUnsaturatedAlternative current then some .target
  else if cfg.hardStallSeconds ≠ 0 ∧ noProgressSeconds ≥ cfg.hardStallSeconds ∧
      s.hasRunnableAlternative current 0 true then some .hardStall
  else if cfg.maxStallSeconds ≠ 0 ∧ noProgressSeconds ≥ cfg.maxStallSeconds ∧
      s.hasRunnableAlternative current cfg.distanceSlack false then some .stall
  else if cfg.quantumSeconds ≠ 0 ∧ s.timerTicks-s.selectedAtTick ≥ cfg.quantumSeconds ∧
      s.hasRunnableAlternative current 0 false then some .quantum
  else none

def onTimer (yielded : UInt64 → Bool) : BehaviorSearcher × Option UInt64 :=
  let s := {s with timerTicks := s.timerTicks+1}
  match s.currentState with
  | none => (s,none)
  | some current =>
    if yielded current || s.states.size < 2 then (s,none)
    else match s.states[current]? with
      | none => (s,none)
      | some info =>
        match yieldReason cfg s current info with
        | none => (s,none)
        | some reason =>
          let stall := reason = .hardStall ∨ reason = .stall
          ({ s with states := s.states.insert current { info with
              cooldownUntilTick := s.timerTicks+cfg.cooldownSeconds
              lastProgressTick := if stall then s.timerTicks else info.lastProgressTick}},
            some current)

def best (s : BehaviorSearcher) (traits : StateTraits) (first : UInt64 × StateInfo)
    (rest : List (UInt64 × StateInfo)) : UInt64 × StateInfo :=
  rest.foldl (fun best it => if s.isBetter traits it best then it else best) first

def candidates (best : StateInfo) : List (UInt64 × StateInfo) :=
  let bestDistance := effectiveDistance best
  let distanceLimit :=
    if bestDistance ≠ UNREACHABLE ∧ cfg.distanceSlack < UNREACHABLE-bestDistance then
      bestDistance+cfg.distanceSlack
    else UNREACHABLE
  s.states.toList.filter fun it =>
    !(effectiveDistance it.2 == UNREACHABLE || (s.isCoolingDown it.2 && !s.isCoolingDown best)) &&
      !(s.isTargetSaturated it.2 && !s.isTargetSaturated best) &&
      (bestDistance == UNREACHABLE || effectiveDistance it.2 ≤ distanceLimit)

def chosen (best : UInt64 × StateInfo) (draw : Draw) : UInt64 × StateInfo :=
  if s.getCurrentEpsilon cfg > 0 ∧ s.states.size > 1 ∧
      draw.probability < s.getCurrentEpsilon cfg then
    let cs := s.candidates cfg best.2
    if cs.length > 1 then cs.getD (draw.choice%cs.length) best else best
  else best

def selectState (draw : Draw) : Option (UInt64 × BehaviorSearcher) :=
  match s.states.toList with
  | [] => none
  | first :: rest =>
    let (state,info) := s.chosen cfg (s.best traits first rest) draw
    some (state, { s with
      states := s.states.insert state {info with selections := info.selections+1}
      selectionCalls := s.selectionCalls+1
      selectedAtTick := if s.currentState ≠ some state then s.timerTicks else s.selectedAtTick
      currentState := some state
      lastSelected := some state})

def inheritedAtUpdate (current : Option UInt64) : StateInfo :=
  match current.bind (s.states[·]?) with
  | some info => {info with selections := 0, lastProgressTick := s.timerTicks}
  | none => {lastProgressTick := s.timerTicks}

def attachCurrent : Option UInt64 → BehaviorSearcher
  | none => s
  | some current =>
    match s.states[current]?, s.pendingForkStates[current]? with
    | some _, some info =>
      { s with
        states := s.states.insert current info
        pendingForkStates := s.pendingForkStates.erase current}
    | _, _ => s

def addState (inherited : StateInfo) (s : BehaviorSearcher) (state : UInt64) : BehaviorSearcher :=
  match s.pendingForkStates[state]? with
  | some info =>
    { s with
      states := s.states.insert state info
      pendingForkStates := s.pendingForkStates.erase state}
  | none => {s with states := s.states.insertIfNew state inherited}

def removeState (state : UInt64) : BehaviorSearcher :=
  { s with
    states := s.states.erase state
    pendingForkStates := s.pendingForkStates.erase state
    lastSelected := if s.lastSelected = some state then none else s.lastSelected
    currentState := if s.currentState = some state then none else s.currentState}

def update (current : Option UInt64) (addedStates removedStates : List UInt64) : BehaviorSearcher :=
  removedStates.foldl removeState
    (addedStates.foldl (addState (s.inheritedAtUpdate current)) (s.attachCurrent current))

end BehaviorSearcher

inductive BehaviorEvent where
  | fork (traits : StateTraits) (state : UInt64) (newStates : List UInt64)
      (branch : Option ForkTargets)
  | block (state nativePc : UInt64)
  | covered (state : UInt64)
  | update (current : Option UInt64) (addedStates removedStates : List UInt64)
  | timer (yielded : UInt64 → Bool)

def BehaviorSearcher.step (cfg : BehaviorConfig) (s : BehaviorSearcher) :
    BehaviorEvent → BehaviorSearcher
  | .fork traits state newStates branch => (s.onStateFork cfg traits state newStates branch).1
  | .block state nativePc => s.onBlockExecute cfg state nativePc
  | .covered state => s.onNewBlockCovered state
  | .update current addedStates removedStates => s.update current addedStates removedStates
  | .timer yielded => (s.onTimer cfg yielded).1

def BehaviorSearcher.run (cfg : BehaviorConfig) (s : BehaviorSearcher)
    (events : List BehaviorEvent) : BehaviorSearcher := events.foldl (step cfg) s

end S2E
