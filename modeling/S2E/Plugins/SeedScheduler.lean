import S2E.Lib.Runs
import S2E.Plugins.SeedSearcher

/-!
`SeedScheduler.cpp`: the state machine that tells the searcher when to use seeds, run together
with the searcher whose events move it.
-/

namespace S2E
open Seeds

inductive ExplorationState where
  | warmUp
  | waitForNewSeeds
  | waitSeedScheduling
  | waitSeedExecution
  deriving DecidableEq

/-- Times and durations are nanoseconds of the steady clock. -/
structure SeedScheduler where
  stateMachineTimeout : Int
  lowPrioritySeedThreshold : UInt32
  stateKilled : Bool := false
  explorationState : ExplorationState := .warmUp
  timeOfLastCoveredBlock : Int
  timeOfLastCrash : Int
  timeOfLastHighPrioritySeed : Int
  timeOfLastFetchedSeed : Int
  previousAvailableSeedCount : Nat := 0
  lastSeedFetchTime : Int := 0

def SeedScheduler.init (stateMachineTimeout : Int) (lowPrioritySeedThreshold : UInt32)
    (now : Int) : SeedScheduler where
  stateMachineTimeout
  lowPrioritySeedThreshold
  timeOfLastCoveredBlock := now
  timeOfLastCrash := now
  timeOfLastHighPrioritySeed := now
  timeOfLastFetchedSeed := now

structure Seeding where
  searcher : SeedSearcher
  scheduler : SeedScheduler

namespace Seeding
variable (s : Seeding)

def explore (e : ExplorationState) : Seeding :=
  {s with scheduler.explorationState := e}

def enableSeeds (enable : Bool) : Seeding :=
  {s with searcher.enableSeeds := enable}

def onSeed (now : Int) : SeedEvent → Option Seeding
  | .scheduled _ => some s
  | .schedulingFailed =>
    if s.scheduler.explorationState = .waitSeedScheduling then some (s.explore .waitForNewSeeds)
    else none
  | .fetched seed =>
    if s.scheduler.explorationState = .waitSeedScheduling then
      let s := (s.explore .waitSeedExecution).enableSeeds false
      let s := {s with scheduler.timeOfLastFetchedSeed := now}
      some (if 0 < seed.priority then {s with scheduler.timeOfLastHighPrioritySeed := now} else s)
    else none

def emit (now : Int) : Option SeedEvent → Option Seeding
  | none => some s
  | some e => s.onSeed now e

/-- What a tick of the timer finds outside the two plugins. Other instances can take seeds between
any two looks at the bitmap. -/
structure Tick where
  now : Int
  found : List Seed
  idleBitmap : SeedBitmap
  bitmap : SeedBitmap
  topBitmap : SeedBitmap
  statesCount : Nat
  instanceCount : Nat

def searcherTimer (t : Tick) : Option Seeding :=
  let r := s.searcher.onTimer t.idleBitmap t.bitmap t.found
  {s with searcher := r.1}.emit t.now r.2.2

def useSeeds : Seeding := (s.enableSeeds true).explore .waitSeedScheduling

def processSeedStateMachine (t : Tick) : Seeding :=
  if s.searcher.isAvailable then
    let timeout := s.scheduler.stateMachineTimeout
    let foundBlocks : Bool := t.now-s.scheduler.timeOfLastCoveredBlock < timeout
    let foundCrashes : Bool := t.now-s.scheduler.timeOfLastCrash < timeout
    let recentHighPrioritySeed : Bool := t.now-s.scheduler.timeOfLastHighPrioritySeed < timeout
    let recentSeedFetch : Bool := t.now-s.scheduler.timeOfLastFetchedSeed < timeout
    match s.scheduler.explorationState with
    | .warmUp =>
      if !foundBlocks && !foundCrashes then s.explore .waitForNewSeeds
      else if (s.scheduler.stateKilled || 1 < t.instanceCount) && t.statesCount == 1 then
        s.explore .waitForNewSeeds
      else s.enableSeeds false
    | .waitForNewSeeds =>
      let r := s.searcher.getTopPrioritySeed t.topBitmap
      let s := {s with searcher := r.1}
      if r.2.any (s.scheduler.lowPrioritySeedThreshold < ·.priority) && !recentHighPrioritySeed then
        s.useSeeds
      else if !foundBlocks && !foundCrashes && !s.searcher.availableSeeds.isEmpty then s.useSeeds
      else if t.statesCount = 1 then s.useSeeds
      else s.enableSeeds false
    | .waitSeedScheduling => s
    | .waitSeedExecution =>
      if !recentSeedFetch || t.statesCount == 1 then s.explore .waitForNewSeeds else s
  else s

/-- The handlers of both plugins. The scheduler connects its handler with a high priority, so it
goes first there. `terminateIdleInstance` can only end the process. -/
def onTimer (searcherFirst : Bool) (s : Seeding) (t : Tick) : Option Seeding :=
  if searcherFirst then (s.searcherTimer t).map (·.processSeedStateMachine t)
  else (s.processSeedStateMachine t).searcherTimer t

def handleGetSeedFile (state : UInt64) (now : Int) : Option Seeding :=
  let r := s.searcher.handleGetSeedFile state
  {s with searcher := r.1}.emit now r.2.2

def onProcessForkDecide (statesCount : Nat) (isLeader idle : Bool)
    (instanceCount : Nat) (bitmap : SeedBitmap) (now : Int) : Seeding × Bool :=
  if 3 ≤ statesCount then (s,true)
  else if !isLeader then (s,false)
  else if idle then (s,false)
  else
    let r := s.searcher.getTopPrioritySeed bitmap
    let s := {s with searcher := r.1}
    if r.2.isNone then (s,false)
    else
      let count := s.searcher.availableSeeds.length
      let s := if count < s.scheduler.previousAvailableSeedCount then
          {s with scheduler.lastSeedFetchTime := now}
        else s
      let s := {s with scheduler.previousAvailableSeedCount := count}
      (s, !(now-s.scheduler.lastSeedFetchTime < 10*1000000000 && count < instanceCount))

inductive Event where
  | timer (t : Tick)
  | getSeedFile (state : UInt64) (now : Int)
  | update (current : UInt64) (currentId : UInt32) (added removed : List UInt64)
  | stateFork (old : UInt64) (newStates : List UInt64)
  | stateKill
  | newBlockCovered (now : Int)
  | crash (now : Int)
  | processForkDecide (statesCount : Nat) (isLeader idle : Bool) (instanceCount : Nat)
      (bitmap : SeedBitmap) (now : Int)
  | processForkComplete

def step (searcherFirst : Bool) (s : Seeding) : Event → Option Seeding
  | .timer t => s.onTimer searcherFirst t
  | .getSeedFile state now => s.handleGetSeedFile state now
  | .update current currentId added removed =>
    some {s with searcher := s.searcher.update current currentId added removed}
  | .stateFork old newStates => some {s with searcher := s.searcher.onStateFork old newStates}
  | .stateKill => some {s with scheduler.stateKilled := true}
  | .newBlockCovered now => some {s with scheduler.timeOfLastCoveredBlock := now}
  | .crash now => some {s with scheduler.timeOfLastCrash := now}
  | .processForkDecide statesCount isLeader idle instanceCount bitmap now =>
    some (s.onProcessForkDecide statesCount isLeader idle instanceCount bitmap now).1
  | .processForkComplete => some {s with searcher := s.searcher.onProcessForkComplete}

def Starts : Prop :=
  s.searcher.enableSeeds = false ∧ s.searcher.selectSeedState = false ∧
    ∃ timeout threshold now, s.scheduler = .init timeout threshold now

def Reached (searcherFirst : Bool) : Seeding → Prop :=
  Runs.Reached (step searcherFirst) (fun _ _ => True) Starts

/-- Seeds are enabled, or one is scheduled, only while the scheduler waits for that. Between a
failed scheduling and the next look of the scheduler, seeds are still enabled. -/
structure InStep (afterFailure : Bool) (s : Seeding) : Prop where
  enabled : s.searcher.enableSeeds = true → s.scheduler.explorationState = .waitSeedScheduling ∨
      afterFailure = true ∧ s.scheduler.explorationState = .waitForNewSeeds
  selected : s.searcher.selectSeedState = true → s.scheduler.explorationState = .waitSeedScheduling

variable {s : Seeding} {b : Bool} {t : Tick}

lemma InStep.congr (h : InStep b s) {m : SeedSearcher} {k : SeedScheduler}
    (henable : m.enableSeeds = s.searcher.enableSeeds)
    (hselect : m.selectSeedState → s.searcher.selectSeedState)
    (hexplore : k.explorationState = s.scheduler.explorationState) : InStep b ⟨m,k⟩ where
  enabled he := hexplore ▸ h.enabled (henable ▸ he)
  selected hs := hexplore ▸ h.selected (hselect hs)

lemma searcherTimer_of_not_available (h : ¬s.searcher.isAvailable) :
    s.searcherTimer t = some s := by
  simp only [searcherTimer,SeedSearcher.onTimer,if_neg h,emit]

lemma processSeedStateMachine_of_not_available (h : ¬s.searcher.isAvailable) :
    s.processSeedStateMachine t = s := if_neg h

lemma InStep.searcherTimer (h : InStep false s) :
    ∃ s', s.searcherTimer t = some s' ∧ InStep true s' ∧
      s'.searcher.initialState = s.searcher.initialState := by
  obtain ⟨henable,hinitial,⟨hevent,hselect⟩ | ⟨hon,⟨seed,hevent⟩ | ⟨hevent,hselect⟩⟩⟩ :=
    s.searcher.onTimer_spec t.idleBitmap t.bitmap t.found
  all_goals simp only [Seeding.searcherTimer,hevent,emit,onSeed]
  · refine ⟨_,rfl,⟨fun he => ?_,fun hs => ?_⟩,hinitial⟩
    · exact (h.enabled (henable ▸ he)).imp_right fun hf => absurd hf.1 Bool.false_ne_true
    · exact h.selected (hselect ▸ hs)
  all_goals
    have hwait := (h.enabled hon).resolve_right fun hf => Bool.false_ne_true hf.1
  · exact ⟨_,rfl,⟨fun _ => .inl hwait,fun _ => hwait⟩,hinitial⟩
  · rw [if_pos hwait]
    exact ⟨_,rfl,⟨fun _ => .inr ⟨rfl,rfl⟩,fun hs => by simp [explore,hselect] at hs⟩,hinitial⟩

lemma InStep.of_off (henable : s.searcher.enableSeeds = false)
    (hselect : s.searcher.selectSeedState = false) : InStep b s :=
  ⟨fun he => by simp [henable] at he,fun hs => by simp [hselect] at hs⟩

lemma InStep.of_wait (h : s.scheduler.explorationState = .waitSeedScheduling) : InStep b s :=
  ⟨fun _ => .inl h,fun _ => h⟩

lemma InStep.off (h : InStep b s) (hs : s.scheduler.explorationState ≠ .waitSeedScheduling)
    (hw : s.scheduler.explorationState ≠ .waitForNewSeeds) :
    s.searcher.enableSeeds = false ∧ s.searcher.selectSeedState = false :=
  ⟨Bool.eq_false_of_not_eq_true fun he => (h.enabled he).elim hs fun hf => hw hf.2,
    Bool.eq_false_of_not_eq_true fun he => hs (h.selected he)⟩

lemma InStep.processSeedStateMachine (h : InStep true s) (ha : s.searcher.isAvailable) :
    InStep false (s.processSeedStateMachine t) ∧
      (s.processSeedStateMachine t).searcher.initialState = s.searcher.initialState := by
  rw [Seeding.processSeedStateMachine,if_pos ha]
  dsimp only
  split
  next hexplore =>
    obtain ⟨henable,hselect⟩ := h.off (by simp [hexplore]) (by simp [hexplore])
    split
    · exact ⟨.of_off henable hselect,rfl⟩
    · split
      · exact ⟨.of_off henable hselect,rfl⟩
      · exact ⟨.of_off rfl hselect,rfl⟩
  next hexplore =>
    have hselect : s.searcher.selectSeedState = false :=
      Bool.eq_false_of_not_eq_true fun hs => nomatch hexplore.symm.trans (h.selected hs)
    split
    · exact ⟨.of_wait rfl,rfl⟩
    split
    · exact ⟨.of_wait rfl,rfl⟩
    · split
      · exact ⟨.of_wait rfl,rfl⟩
      · exact ⟨.of_off rfl hselect,rfl⟩
  next hexplore =>
    exact ⟨.of_wait hexplore,rfl⟩
  next hexplore =>
    obtain ⟨henable,hselect⟩ := h.off (by simp [hexplore]) (by simp [hexplore])
    split <;> exact ⟨.of_off henable hselect,rfl⟩

variable {first : Bool}

lemma InStep.onTimer (h : InStep (!first) s) :
    ∃ s', s.onTimer first t = some s' ∧ InStep (!first) s' := by
  by_cases ha : s.searcher.isAvailable
  · cases first with
    | true =>
      obtain ⟨s',hs',h',hinitial⟩ := h.searcherTimer (t := t)
      have ha' : s'.searcher.isAvailable := by
        rw [SeedSearcher.isAvailable,hinitial]
        exact ha
      exact ⟨s'.processSeedStateMachine t,by simp [Seeding.onTimer,hs'],
        (h'.processSeedStateMachine ha').1⟩
    | false =>
      obtain ⟨s',hs',h',-⟩ := (h.processSeedStateMachine ha (t := t)).1.searcherTimer (t := t)
      exact ⟨s',hs',h'⟩
  · refine ⟨s,?_,h⟩
    cases first with
    | true =>
      simp [Seeding.onTimer,searcherTimer_of_not_available ha,
        processSeedStateMachine_of_not_available ha]
    | false =>
      simp [Seeding.onTimer,searcherTimer_of_not_available ha,
        processSeedStateMachine_of_not_available ha]

lemma InStep.handleGetSeedFile (h : InStep b s) (state : UInt64) (now : Int) :
    ∃ s', s.handleGetSeedFile state now = some s' ∧ InStep b s' := by
  obtain ⟨henable,hselect,hevent | ⟨hold,seed,hevent⟩⟩ :=
    s.searcher.handleGetSeedFile_spec state
  all_goals simp only [Seeding.handleGetSeedFile,hevent,emit,onSeed]
  · exact ⟨_,rfl,h.congr henable (fun hs => by simp [hselect] at hs) rfl⟩
  · rw [if_pos (h.selected hold)]
    refine ⟨_,rfl,?_⟩
    split <;> exact .of_off rfl hselect

lemma InStep.onProcessForkDecide (h : InStep b s) (statesCount : Nat) (isLeader idle : Bool)
    (instanceCount : Nat) (bitmap : SeedBitmap) (now : Int) :
    InStep b (s.onProcessForkDecide statesCount isLeader idle instanceCount bitmap now).1 := by
  unfold Seeding.onProcessForkDecide
  iterate 3
    split
    · exact h
  dsimp only
  split
  · exact h.congr rfl id rfl
  · split <;> exact h.congr rfl id rfl

lemma InStep.onStateFork (h : InStep b s) (old : UInt64) (newStates : List UInt64) :
    InStep b {s with searcher := s.searcher.onStateFork old newStates} := by
  unfold SeedSearcher.onStateFork
  split
  · exact h.congr rfl id rfl
  · exact h

lemma InStep.step (h : InStep (!first) s) (e : Event) :
    ∃ s', s.step first e = some s' ∧ InStep (!first) s' := by
  cases e with
  | timer t => exact h.onTimer
  | getSeedFile state now => exact h.handleGetSeedFile state now
  | update current currentId added removed =>
    obtain ⟨hselect,-,henable⟩ := s.searcher.update_spec current currentId added removed
    exact ⟨_,rfl,h.congr henable hselect rfl⟩
  | stateFork old newStates => exact ⟨_,rfl,h.onStateFork old newStates⟩
  | stateKill => exact ⟨_,rfl,h.congr rfl id rfl⟩
  | newBlockCovered now => exact ⟨_,rfl,h.congr rfl id rfl⟩
  | crash now => exact ⟨_,rfl,h.congr rfl id rfl⟩
  | processForkDecide statesCount isLeader idle instanceCount bitmap now =>
    exact ⟨_,rfl,h.onProcessForkDecide statesCount isLeader idle instanceCount bitmap now⟩
  | processForkComplete => exact ⟨_,rfl,h.congr rfl id rfl⟩

lemma Reached.inStep (h : Reached first s) : InStep (!first) s :=
  h.invariant (fun h => .of_off h.1 h.2.1) fun hi _ hs => by
    obtain ⟨s',hs',h'⟩ := hi.step _
    cases hs.symm.trans hs'
    exact h'

/-- With the searcher's handler first, no assertion fails in any run, seeds are enabled only while
the scheduler waits for a seed to be scheduled, and a seed is fetched only then. -/
theorem seeds_stay_in_step (h : Reached true s) : (∀ e, (s.step true e).isSome = true) ∧
      (s.searcher.enableSeeds = true → s.scheduler.explorationState = .waitSeedScheduling) ∧
        ∀ state seed, (s.searcher.handleGetSeedFile state).2.2 = some (.fetched seed) →
          s.scheduler.explorationState = .waitSeedScheduling := by
  refine ⟨fun e => ?_,fun he => ?_,fun state seed hf => ?_⟩
  · obtain ⟨s',hs',-⟩ := h.inStep.step e
    exact Option.isSome_of_eq_some hs'
  · exact (h.inStep.enabled he).resolve_right fun hf => nomatch hf.1
  · obtain ⟨-,-,hevent | ⟨hselect,-⟩⟩ := s.searcher.handleGetSeedFile_spec state
    · cases hevent.symm.trans hf
    · exact h.inStep.selected hselect

theorem seeds_stay_in_step_fetched : ∃ s : Seeding, Reached true s ∧
    (s.searcher.handleGetSeedFile 0).2.2 = some (.fetched {priority := 7, index := 1}) ∧
      s.scheduler.explorationState = .waitSeedScheduling := by
  let start : Seeding :=
    { searcher := {initialState := some 0, enableSeeds := false, maxSeedStates := 0},
      scheduler := .init 60 6 0}
  let tick : Event := .timer
    { now := 100, found := [{priority := 7, index := 1}], idleBitmap := fun _ => false,
      bitmap := fun _ => false, topBitmap := fun _ => false, statesCount := 2, instanceCount := 1}
  have hrun : (Runs.run (step true) (fun _ _ => true) start [tick,tick,tick]).map
      (fun s => decide ((s.searcher.handleGetSeedFile 0).2.2 =
        some (.fetched {priority := 7, index := 1}))) = some true := by
    decide +kernel
  obtain ⟨s,hs,hfetch⟩ := Option.map_eq_some_iff.mp hrun
  have hstart : Reached true start := .start ⟨rfl,rfl,60,6,0,rfl⟩
  have hreach : Reached true s := hstart.run (fun _ _ _ => trivial) hs
  have hfetch := of_decide_eq_true hfetch
  exact ⟨s,hreach,hfetch,(seeds_stay_in_step hreach).2.2 0 _ hfetch⟩

end Seeding
end S2E
