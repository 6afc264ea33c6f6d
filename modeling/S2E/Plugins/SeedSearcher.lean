import S2E.Lib.Maps

/-!
`SeedSearcher.cpp`: the queue of seeds, the bitmap that tells all instances which seeds are used,
and how a seed is scheduled and handed to the guest.
-/

namespace S2E
open Std Bool

structure Seed where
  filename : String := ""
  priority : UInt32 := 0
  index : UInt32 := 0
  deriving DecidableEq

namespace Seeds

def MAX_SEEDS : Nat := 4096*8

def before (a b : Seed) : Bool :=
  if a.priority = b.priority then a.index > b.index else a.priority < b.priority

def queue (s : Seed) : List Seed → List Seed
  | [] => [s]
  | t :: ts => if before t s then s :: t :: ts else t :: queue s ts

abbrev SeedBitmap : Type := UInt32 → Bool

structure Picked where
  bitmap : SeedBitmap
  seeds : List Seed
  seed : Seed
  found : Bool

/-- Look for the first seed that no instance has taken, and drop those before it. It stops at a
seed whose index the bitmap cannot hold. -/
def pick (dequeue : Bool) (bitmap : SeedBitmap) (seed : Seed) : List Seed → Picked
  | [] => {bitmap, seeds := [], seed, found := false}
  | s :: rest =>
    if MAX_SEEDS ≤ s.index.toNat then
      {bitmap, seeds := if dequeue then rest else s :: rest, seed := s, found := false}
    else if bitmap s.index then pick dequeue bitmap s rest
    else if dequeue then
      {bitmap := Function.update bitmap s.index true, seeds := rest, seed := s, found := true}
    else {bitmap, seeds := s :: rest, seed := s, found := true}

end Seeds

inductive SeedEvent where
  | scheduled (seed : Seed)
  | schedulingFailed
  | fetched (seed : Seed)
  deriving DecidableEq

structure SeedSearcher where
  states : TreeSet UInt64 := ∅
  availableSeeds : List Seed := []
  processedSeeds : TreeSet UInt32 := ∅
  currentSeed : Seed := {}
  selectSeedState : Bool := false
  initialState : Option UInt64 := none
  initialStateHasSeedFile : Bool := false
  seedStates : TreeSet UInt64 := ∅
  enableSeeds : Bool
  maxSeedStates : Nat
  usedSeedsCount : Nat := 0
  /-- The guest was already sent to explore without a seed. -/
  alreadyExplored : Bool := false

namespace SeedSearcher
open Seeds

variable (m : SeedSearcher)

def isAvailable : Bool := m.initialState.isSome

def getTopPrioritySeed (bitmap : SeedBitmap) : SeedSearcher × Option Seed :=
  let p := pick false bitmap {} m.availableSeeds
  ({m with availableSeeds := p.seeds},if p.found then some p.seed else none)

def fetchSeed (seed : Seed) : SeedSearcher :=
  if seed.index ∈ m.processedSeeds then m
  else { m with
    availableSeeds := queue seed m.availableSeeds
    processedSeeds := m.processedSeeds.insert seed.index}

def fetchNewSeeds (found : List Seed) : SeedSearcher :=
  found.foldl fetchSeed m

def canSchedule : Bool :=
  !m.availableSeeds.isEmpty && !m.selectSeedState &&
    !(0 < m.maxSeedStates && m.maxSeedStates ≤ m.seedStates.size)

def scheduled (p : Picked) : SeedSearcher × SeedEvent :=
  let m := {m with availableSeeds := p.seeds, currentSeed := p.seed}
  if p.found then ({m with selectSeedState := true},.scheduled p.seed)
  else (m,.schedulingFailed)

def scheduleNextSeed (bitmap : SeedBitmap) : SeedSearcher × SeedBitmap × Option SeedEvent :=
  if m.canSchedule then
    let p := pick true bitmap m.currentSeed m.availableSeeds
    let r := m.scheduled p
    (r.1,p.bitmap,some r.2)
  else (m,bitmap,none)

def beginTimer (found : List Seed) : SeedSearcher × Bool :=
  if m.selectSeedState then (m,false)
  else
    let m := m.fetchNewSeeds found
    (m,m.enableSeeds)

/-- It begins with `updateIdleStatus`, which looks at the top of the queue; other instances can
take seeds before the scheduling. -/
def onTimer (idleBitmap bitmap : SeedBitmap) (found : List Seed) :
    SeedSearcher × SeedBitmap × Option SeedEvent :=
  if m.isAvailable then
    let r := (m.getTopPrioritySeed idleBitmap).1.beginTimer found
    if r.2 then r.1.scheduleNextSeed bitmap else (r.1,bitmap,none)
  else (m,bitmap,none)

/-- The answer to the guest, and whether the seed was fetched. A file name that cannot be written
ends the process. -/
def handleGetSeedFile (state : UInt64) : SeedSearcher × Nat × Option SeedEvent :=
  if !m.selectSeedState then
    if 1 < m.states.size || m.alreadyExplored then (m,0,none)
    else ({m with alreadyExplored := true},1,none)
  else
    let m := {m with selectSeedState := false}
    if some state = m.initialState then
      ({m with initialStateHasSeedFile := true, usedSeedsCount := m.usedSeedsCount+1},2,
        some (.fetched m.currentSeed))
    else (m,2,none)

def findInitial (current : UInt64) (currentId : UInt32) : SeedSearcher :=
  if m.initialState = none ∧ currentId = 0 then {m with initialState := some current} else m

def removeState (a : UInt64) : SeedSearcher :=
  let m := if some a = m.initialState then
      {m with initialState := none, selectSeedState := false}
    else m
  {m with seedStates := m.seedStates.erase a, states := m.states.erase a}

def update (current : UInt64) (currentId : UInt32) (added removed : List UInt64) : SeedSearcher :=
  let m := m.findInitial current currentId
  let m := {m with states := m.states.insertMany added}
  removed.foldl removeState m

def onStateFork (old : UInt64) (newStates : List UInt64) : SeedSearcher :=
  if some old = m.initialState ∧ m.initialStateHasSeedFile then
    { m with
      initialStateHasSeedFile := false
      seedStates := m.seedStates.insertMany (newStates.filter (· ≠ old))}
  else m

def onProcessForkComplete : SeedSearcher := {m with usedSeedsCount := 0}

lemma fetchNewSeeds_spec (found : List Seed) :
    (m.fetchNewSeeds found).selectSeedState = m.selectSeedState ∧
      (m.fetchNewSeeds found).currentSeed = m.currentSeed ∧
        (m.fetchNewSeeds found).enableSeeds = m.enableSeeds ∧
          (m.fetchNewSeeds found).initialState = m.initialState := by
  refine List.foldlRecOn (motive := fun m' : SeedSearcher =>
    m'.selectSeedState = m.selectSeedState ∧ m'.currentSeed = m.currentSeed ∧
      m'.enableSeeds = m.enableSeeds ∧ m'.initialState = m.initialState) found fetchSeed
        ⟨rfl,rfl,rfl,rfl⟩ fun m' hm seed _ => ?_
  unfold fetchSeed
  split <;> exact hm

lemma update_spec (current : UInt64) (currentId : UInt32)
    (added removed : List UInt64) : let m' := m.update current currentId added removed
    (m'.selectSeedState → m.selectSeedState) ∧ m'.currentSeed = m.currentSeed ∧
      m'.enableSeeds = m.enableSeeds := by
  refine List.foldlRecOn (motive := fun m' : SeedSearcher =>
    (m'.selectSeedState → m.selectSeedState) ∧ m'.currentSeed = m.currentSeed ∧
      m'.enableSeeds = m.enableSeeds) removed removeState ?_ fun m' hm a _ => ?_
  · unfold findInitial
    split <;> exact ⟨id,rfl,rfl⟩
  · unfold removeState
    split
    · exact ⟨nofun,hm.2⟩
    · exact hm

lemma onTimer_spec (idleBitmap bitmap : SeedBitmap) (found : List Seed) :
    let r := m.onTimer idleBitmap bitmap found
    r.1.enableSeeds = m.enableSeeds ∧ r.1.initialState = m.initialState ∧
      (r.2.2 = none ∧ r.1.selectSeedState = m.selectSeedState ∨
        m.enableSeeds ∧ ((∃ seed, r.2.2 = some (.scheduled seed)) ∨
          r.2.2 = some .schedulingFailed ∧ r.1.selectSeedState = false)) := by
  unfold onTimer
  split
  · unfold beginTimer
    split
    · exact ⟨rfl,rfl,.inl ⟨rfl,rfl⟩⟩
    obtain ⟨hselect,-,henable,hinitial⟩ :=
      (m.getTopPrioritySeed idleBitmap).1.fetchNewSeeds_spec found
    dsimp only
    split
    next hon =>
      unfold scheduleNextSeed
      split
      next hcan =>
        unfold scheduled
        dsimp only
        split
        · exact ⟨henable,hinitial,.inr ⟨henable ▸ hon,.inl ⟨_,rfl⟩⟩⟩
        · simp only [canSchedule,and_eq_true,not_eq_true'] at hcan
          exact ⟨henable,hinitial,.inr ⟨henable ▸ hon,.inr ⟨rfl,hcan.1.2⟩⟩⟩
      · exact ⟨henable,hinitial,.inl ⟨rfl,hselect⟩⟩
    · exact ⟨henable,hinitial,.inl ⟨rfl,hselect⟩⟩
  · exact ⟨rfl,rfl,.inl ⟨rfl,rfl⟩⟩

lemma handleGetSeedFile_spec (state : UInt64) :
    let r := m.handleGetSeedFile state
    r.1.enableSeeds = m.enableSeeds ∧ r.1.selectSeedState = false ∧
      (r.2.2 = none ∨ m.selectSeedState ∧ ∃ seed, r.2.2 = some (.fetched seed)) := by
  unfold handleGetSeedFile
  split
  next hselect =>
    simp only [not_eq_true'] at hselect
    split <;> exact ⟨rfl,hselect,.inl rfl⟩
  rename_i hselect
  simp only [not_eq_true',not_eq_false] at hselect
  dsimp only
  split
  · exact ⟨rfl,rfl,.inr ⟨hselect,_,rfl⟩⟩
  · exact ⟨rfl,rfl,.inl rfl⟩

end SeedSearcher

lemma Seeds.pick_dequeue (bitmap : SeedBitmap) (seed : Seed) (seeds : List Seed) :
    let p := pick true bitmap seed seeds
    (p.found → bitmap p.seed.index = false ∧ p.bitmap = Function.update bitmap p.seed.index true) ∧
        (p.found = false → p.bitmap = bitmap) := by
  induction seeds generalizing seed with
  | nil => exact ⟨nofun,fun _ => rfl⟩
  | cons s rest ih =>
    unfold pick
    split
    · exact ⟨nofun,fun _ => rfl⟩
    · split
      · exact ih s
      · exact ⟨fun _ => ⟨eq_false_of_not_eq_true ‹_›,rfl⟩,nofun⟩

end S2E
