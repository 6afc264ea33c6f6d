import S2E.Lib.SpinLock
import S2E.Plugins.SeedSearcher

/-!
The seed searchers of several instances that share the bitmap of used seeds.
-/

namespace S2E
open SpinLock List Function

inductive SeedPhase where
  | idle
  | top
  | dequeue
  deriving DecidableEq

structure SeedInstance where
  searcher : SeedSearcher
  phase : SeedPhase := .idle
  fetched : List UInt32 := []

namespace SeedInstance
open Seeds

abbrev Shared (_ : Unit) : Type := SeedBitmap

def topCode : Instruction Shared SeedInstance () := fun bitmap l =>
  some (bitmap, {l with searcher := (l.searcher.getTopPrioritySeed bitmap).1, phase := .idle})

def dequeueCode : Instruction Shared SeedInstance () := fun bitmap l =>
  let p := pick true bitmap l.searcher.currentSeed l.searcher.availableSeeds
  some (p.bitmap, {l with searcher := (l.searcher.scheduled p).1, phase := .idle})

variable (l : SeedInstance)

def critical : Option (List (Instruction Shared SeedInstance ())) :=
  match l.phase with
  | .idle => none
  | .top => some [topCode]
  | .dequeue => some [dequeueCode]

def getSeedFile (state : UInt64) : SeedInstance :=
  let r := l.searcher.handleGetSeedFile state
  { l with
    searcher := r.1
    fetched := match r.2.2 with
      | some (.fetched seed) => seed.index :: l.fetched
      | some (.scheduled _) | some .schedulingFailed | none => l.fetched}

/-- The timer up to the scheduling; the look at the top of the queue with which it begins is a
step of its own. -/
def timer (found : List Seed) : SeedInstance :=
  let r := l.searcher.beginTimer found
  {l with searcher := r.1, phase := if r.2 && r.1.canSchedule then .dequeue else .idle}

/-- What an instance does without the lock. It forks when `forks` allows it, and both processes
keep state 0. -/
inductive Outside (forks : SeedInstance → Prop) (l : SeedInstance) :
    SeedInstance → Option SeedInstance → Prop where
  | top (h : l.phase = .idle) : Outside forks l {l with phase := .top} none
  | timer (found : List Seed) (h : l.phase = .idle) (ha : l.searcher.isAvailable) :
      Outside forks l (l.timer found) none
  | getSeedFile (state : UInt64) (h : l.phase = .idle) : Outside forks l (l.getSeedFile state) none
  | update (current : UInt64) (currentId : UInt32) (added removed : List UInt64)
      (h : l.phase = .idle) :
      Outside forks l {l with searcher := l.searcher.update current currentId added removed}
        none
  | stateFork (old : UInt64) (newStates : List UInt64) (h : l.phase = .idle) :
      Outside forks l {l with searcher := l.searcher.onStateFork old newStates} none
  | enableSeeds (enable : Bool) (h : l.phase = .idle) :
      Outside forks l {l with searcher := {l.searcher with enableSeeds := enable}} none
  | processFork (h : l.phase = .idle) (hf : forks l) :
      Outside forks l l (some {searcher := l.searcher.onProcessForkComplete})

def program (forks : SeedInstance → Prop) : Program Unit Shared SeedInstance where
  critical l := (critical l).map (⟨(),·⟩)
  outside := Outside forks

def start (enableSeeds : Bool) (maxSeedStates : Nat) : Config Shared SeedInstance where
  shared _ _ := false
  processes := [{searcher := {enableSeeds, maxSeedStates}}]

def Settled : Prop := l.searcher.selectSeedState = false

def claimed : List UInt32 :=
  (if l.searcher.selectSeedState then [l.searcher.currentSeed.index] else []) ++ l.fetched

/-- The claimed seeds are all different and used in the bitmap, and no seed is waiting when
another one is scheduled. -/
structure Exclusive (bitmap : SeedBitmap) (ps : List SeedInstance) : Prop where
  nodup : (ps.flatMap claimed).Nodup
  used : ∀ i ∈ ps.flatMap claimed, bitmap i = true
  settled : ∀ l ∈ ps, l.phase = .dequeue → l.Settled

variable {bitmap bitmap' : SeedBitmap} {l l' : SeedInstance} {ps qs rest : List SeedInstance}

lemma exclusive_start (enableSeeds : Bool) (maxSeedStates : Nat) :
    Exclusive ((start enableSeeds maxSeedStates).shared ())
      (start enableSeeds maxSeedStates).processes := by
  constructor <;> simp [start,claimed]

lemma Exclusive.perm (hp : ps.Perm qs) (h : Exclusive bitmap ps) : Exclusive bitmap qs where
  nodup := (hp.flatMap_right claimed).nodup_iff.mp h.nodup
  used i hi := h.used i ((hp.flatMap_right claimed).mem_iff.mpr hi)
  settled l hl := h.settled l (hp.mem_iff.mpr hl)

lemma Exclusive.move (h : Exclusive bitmap (l :: rest))
    (hsub : (claimed l').Sublist (claimed l)) (hphase : l'.phase = .dequeue → l'.Settled) :
    Exclusive bitmap (l' :: rest) := by
  have hsub : ((l' :: rest).flatMap claimed).Sublist ((l :: rest).flatMap claimed) := by
    simp only [flatMap_cons]
    exact hsub.append (List.Sublist.refl _)
  refine ⟨h.nodup.sublist hsub,fun i hi => h.used i (hsub.subset hi),fun a ha => ?_⟩
  obtain rfl | ha := mem_cons.mp ha
  · exact hphase
  · exact h.settled a (mem_cons_of_mem l ha)

lemma claimed_eq (hsel : l'.searcher.selectSeedState = l.searcher.selectSeedState)
    (hcur : l'.searcher.currentSeed = l.searcher.currentSeed) (hf : l'.fetched = l.fetched) :
    claimed l' = claimed l := by
  unfold claimed
  rw [hsel,hcur,hf]

lemma claimed_getSeedFile (l : SeedInstance) (state : UInt64) :
    (claimed (l.getSeedFile state)).Sublist (claimed l) := by
  unfold getSeedFile SeedSearcher.handleGetSeedFile
  cases hsel : l.searcher.selectSeedState with
  | false =>
    simp only [Bool.not_false,if_true]
    split <;> simp [claimed,hsel]
  | true =>
    simp only [Bool.not_true,Bool.false_eq_true,if_false]
    split <;> simp [claimed,hsel]

lemma claimed_timer (l : SeedInstance) (found : List Seed) :
    claimed (l.timer found) = claimed l := by
  unfold timer SeedSearcher.beginTimer
  split
  · exact claimed_eq rfl rfl rfl
  · obtain ⟨hsel,hcur,-⟩ := l.searcher.fetchNewSeeds_spec found
    exact claimed_eq hsel hcur rfl

lemma claimed_update (l : SeedInstance) (current : UInt64) (currentId : UInt32)
    (added removed : List UInt64) :
    (claimed {l with searcher := l.searcher.update current currentId added removed}).Sublist
      (claimed l) := by
  obtain ⟨hsel,hcur,-⟩ := l.searcher.update_spec current currentId added removed
  unfold claimed
  simp only [hcur]
  split
  · rw [if_pos (hsel ‹_›)]
  · exact (nil_sublist _).append (List.Sublist.refl _)

lemma settled_timer {found : List Seed} (h : (l.timer found).phase = .dequeue) :
    (l.timer found).Settled := by
  unfold timer at h ⊢
  dsimp only at h
  split at h
  · have hcan := (Bool.and_eq_true_iff.mp ‹_›).2
    simp only [SeedSearcher.canSchedule,Bool.and_eq_true,Bool.not_eq_true'] at hcan
    exact hcan.1.2
  · cases h

section
variable (h : Exclusive bitmap (l :: rest))
include h

lemma Exclusive.outside {child : Option SeedInstance}
    (hl : Outside Settled l l' child) : Exclusive bitmap (l' :: (child.toList ++ rest)) := by
  have hidle : l.phase = .idle → ∀ {searcher fetched},
      ({searcher, phase := l.phase, fetched} : SeedInstance).phase = .dequeue →
        ({searcher, phase := l.phase, fetched} : SeedInstance).Settled := by
    intro hp searcher fetched hd
    exact absurd (hp.symm.trans hd) nofun
  cases hl with
  | top hp => exact h.move (List.Sublist.refl _) nofun
  | timer found hp ha =>
    refine h.move ?_ settled_timer
    rw [claimed_timer]
  | getSeedFile state hp => exact h.move (claimed_getSeedFile l state) (hidle hp)
  | update current currentId added removed hp => exact h.move (claimed_update ..) (hidle hp)
  | stateFork old newStates hp =>
    refine h.move ?_ (hidle hp)
    unfold SeedSearcher.onStateFork
    split <;> exact List.Sublist.refl _
  | enableSeeds enable hp => exact h.move (List.Sublist.refl _) (hidle hp)
  | processFork hp hf =>
    -- the child has no seed to fetch
    have hchild : claimed {searcher := l.searcher.onProcessForkComplete} = [] := by
      have hf : l.searcher.selectSeedState = false := hf
      simp [claimed,SeedSearcher.onProcessForkComplete,hf]
    have hsame : (l :: ((some {searcher := l.searcher.onProcessForkComplete}).toList ++
        rest)).flatMap claimed = (l :: rest).flatMap claimed := by
      simp [flatMap_cons,hchild]
    refine ⟨hsame ▸ h.nodup,hsame ▸ h.used,fun a ha => ?_⟩
    obtain rfl | ha := mem_cons.mp ha
    · exact h.settled a mem_cons_self
    obtain rfl | ha := mem_cons.mp ha
    · exact nofun
    · exact h.settled a (mem_cons_of_mem l ha)

lemma Exclusive.take {i : UInt32} (hfree : bitmap i = false)
    (hclaimed : claimed l' = i :: claimed l) (hphase : l'.phase ≠ .dequeue) :
    Exclusive (update bitmap i true) (l' :: rest) := by
  have hcons : (l' :: rest).flatMap claimed = i :: (l :: rest).flatMap claimed := by
    simp [flatMap_cons,hclaimed]
  have hnew : i ∉ (l :: rest).flatMap claimed := by
    intro hi
    rw [h.used i hi] at hfree
    cases hfree
  refine ⟨?_,?_,fun a ha => ?_⟩
  · rw [hcons]
    exact nodup_cons.mpr ⟨hnew,h.nodup⟩
  · rw [hcons]
    intro j hj
    obtain rfl | hold := mem_cons.mp hj
    · exact update_self ..
    · have hne : j ≠ i := by
        rintro rfl
        exact hnew hold
      rw [update_of_ne hne]
      exact h.used j hold
  · obtain rfl | ha := mem_cons.mp ha
    · exact fun hd => absurd hd hphase
    · exact h.settled a (mem_cons_of_mem l ha)

lemma Exclusive.dequeue (hl : l.Settled)
    (hrun : dequeueCode bitmap l = some (bitmap',l')) : Exclusive bitmap' (l' :: rest) := by
  cases hrun
  have hl : l.searcher.selectSeedState = false := hl
  obtain ⟨hfound,hnot⟩ := pick_dequeue bitmap l.searcher.currentSeed l.searcher.availableSeeds
  cases hf : (pick true bitmap l.searcher.currentSeed l.searcher.availableSeeds).found with
  | false =>
    rw [hnot hf]
    refine h.move ?_ nofun
    simp [claimed,SeedSearcher.scheduled,hf,hl]
  | true =>
    obtain ⟨hfree,hbitmap⟩ := hfound hf
    rw [hbitmap]
    refine h.take hfree ?_ nofun
    simp [claimed,SeedSearcher.scheduled,hf,hl]

lemma Exclusive.critical {body : List (Instruction Shared SeedInstance ())}
    (hbody : critical l = some body)
    (hrun : execute body bitmap l = some (bitmap',l')) : Exclusive bitmap' (l' :: rest) := by
  unfold SeedInstance.critical at hbody
  split at hbody
  · cases hbody
  · cases hbody
    cases hrun
    exact h.move (List.Sublist.refl _) nofun
  · cases hbody
    refine h.dequeue (h.settled l mem_cons_self ‹_›) ?_
    simpa [execute] using hrun

end

lemma reached_exclusive {enableSeeds : Bool} {maxSeedStates : Nat}
    {c : Config Shared SeedInstance}
    (h : Reached (program Settled) (fun _ _ _ => True) (start enableSeeds maxSeedStates) c) :
    Exclusive (c.shared ()) c.processes := by
  refine h.invariant (I := fun shared ps => Exclusive (shared ()) ps) ?_
    (exclusive_start enableSeeds maxSeedStates) ?_ ?_
  · intro shared ps qs hperm h
    exact h.perm hperm
  · intro shared l rest k body bitmap' l' h hbody _ hrun
    obtain ⟨code,hcode,hbody⟩ := Option.map_eq_some_iff.mp hbody
    cases hbody
    rw [update_self]
    exact h.critical hcode hrun
  · intro shared l rest l' child h hl
    exact h.outside hl

lemma fetched_keeps {k : Unit} {body : List (Instruction Shared SeedInstance k)}
    (hbody : (program Settled).critical l = some ⟨k,body⟩) :
    ∀ i ∈ body, ∀ s l s' l', i s l = some (s',l') → fetched l' = fetched l := by
  obtain ⟨code,hcode,hbody⟩ := Option.map_eq_some_iff.mp hbody
  cases hbody
  unfold critical at hcode
  split at hcode <;> cases hcode
  all_goals
    intro i hi s l s' l' h
    obtain rfl := mem_singleton.mp hi
    cases h
    rfl

/-- In every interleaving in which no process forks while a seed waits for the guest, each seed
is fetched once. -/
theorem seeds_used_once (enableSeeds : Bool) (maxSeedStates : Nat) (m : Machine Shared SeedInstance)
    (h : Machine.Reached (program Settled) (fun _ _ _ => True)
      (start enableSeeds maxSeedStates) m) : (m.threads.flatMap (·.vars.fetched)).Nodup := by
  obtain ⟨c,hc,hf⟩ := h.follows
  have hmap := hf.map_vars (f := fetched) fetched_keeps
  have hnodup := (reached_exclusive hc).nodup
  have hsub : (c.processes.flatMap fetched).Sublist (c.processes.flatMap claimed) := by
    induction c.processes with
    | nil => exact List.Sublist.refl _
    | cons l ps ih =>
      simp only [flatMap_cons]
      exact (sublist_append_right ..).append ih
  rw [flatMap_def,hmap,← flatMap_def]
  exact hnodup.sublist hsub

lemma reached_scheduled (forks : SeedInstance → Prop) : ∃ c : Config Shared SeedInstance,
    Reached (program forks) (fun _ _ _ => True) (start true 0) c ∧
      ∃ l, c.processes = [l] ∧ l.phase = .idle ∧ l.fetched = [] ∧
        l.searcher.selectSeedState ∧ l.searcher.initialState = some 7 ∧
          l.searcher.currentSeed.index = 5 := by
  have h1 : Reached (program forks) (fun _ _ _ => True) (start true 0) _ :=
    Reached.start.step (.outside (p := 0) rfl (Outside.update 7 0 [7] [] rfl))
  have h2 := h1.step (.outside (p := 0) rfl (Outside.timer [{index := 5}] rfl rfl))
  have h3 := h2.step (.critical (p := 0) rfl rfl trivial rfl)
  exact ⟨_,h3,_,rfl,by decide +kernel⟩

lemma getSeedFile_eq (hsel : l.searcher.selectSeedState)
    (hinit : l.searcher.initialState = some 7) :
    (l.getSeedFile 7).fetched = l.searcher.currentSeed.index :: l.fetched := by
  simp [getSeedFile,SeedSearcher.handleGetSeedFile,hsel,hinit]

theorem seeds_used_once_fetched : ∃ m : Machine Shared SeedInstance,
    m.threads.map (·.vars.fetched) = [[5]] ∧ (m.threads.flatMap (·.vars.fetched)).Nodup := by
  obtain ⟨c,hc,l,hl,hphase,hfetched,hsel,hinit,hindex⟩ := reached_scheduled Settled
  have h := hc.step (.outside (p := 0) (by rw [hl]; rfl) (Outside.getSeedFile 7 hphase))
  refine ⟨_,?_,seeds_used_once true 0 _ h.machine⟩
  simp [Machine.start,Thread.vars,hl,getSeedFile_eq hsel hinit,hfetched,hindex]

/-- The process forks while a seed waits for the guest, and both guests fetch it. -/
theorem forked_seed_used_twice : ∃ m : Machine Shared SeedInstance,
    Machine.Reached (program fun _ => True) (fun _ _ _ => True) (start true 0) m ∧
      ¬ (m.threads.flatMap (·.vars.fetched)).Nodup := by
  obtain ⟨c,hc,l,hl,hphase,hfetched,hsel,hinit,hindex⟩ := reached_scheduled fun _ => True
  have h1 := hc.step (.outside (p := 0) (by rw [hl]; rfl) (Outside.processFork hphase trivial))
  have h2 := h1.step (.outside (p := 0) (by rw [hl]; rfl) (Outside.getSeedFile 7 hphase))
  have h3 := h2.step (.outside (p := 1) (by rw [hl]; rfl) (Outside.getSeedFile 7 rfl))
  refine ⟨_,h3.machine,?_⟩
  have hchild : (getSeedFile {searcher := l.searcher.onProcessForkComplete} 7).fetched = [5] := by
    refine (getSeedFile_eq (l := {searcher := l.searcher.onProcessForkComplete}) hsel
      hinit).trans ?_
    exact congrArg ([·]) hindex
  simp [Machine.start,Thread.vars,hl,getSeedFile_eq hsel hinit,hfetched,hindex,hchild]

end SeedInstance
end S2E
