import S2E.Core.Instances
import S2E.Lib.Runs

/-!
How `SeedScheduler.cpp` ends idle instances. Each instance tells the others in `SeedStats` whether
it is idle, and decides on its own timer whether to exit; every critical section is one step.
-/

namespace S2E
open SpinLock List Option Instance

inductive IdlePhase where
  | outside
  | counted
  /-- It has copied the statistics and is in the loop of `getLowestIdleInstanceIndex`. -/
  | scanning (idle : List Bool) (i : Nat)
  deriving DecidableEq

structure IdleInstance extends Instance where
  timer : IdlePhase := .outside

structure IdleInstances where
  shared : S2EShared
  idle : List Bool
  instances : List IdleInstance

inductive IdleAction where
  | updateIdleStatus (hasSeed : Bool) (statesCount : Nat)
  /-- `terminateIdleInstance` up to the instance count. -/
  | terminateIdleInstance (statesCount : Nat)
  | getSeedStats
  | getInstanceId
  | close

namespace IdleInstance
variable (l : IdleInstance)

def scanned (id : UInt32) (idle : List Bool) (i : Nat) : IdleInstance :=
  if id = noInstance then {l with timer := .scanning idle (i+1)}
  else if idle[i]? = some true then
    if i = l.currentInstanceIndex then {l with timer := .outside, phase := .closing}
    else {l with timer := .outside}
  else {l with timer := .scanning idle (i+1)}

def act (maxInstances : Nat) (shared : S2EShared) (idle : List Bool) (l : IdleInstance) :
    IdleAction → Option (S2EShared × List Bool × IdleInstance)
  | .updateIdleStatus hasSeed statesCount =>
    if l.phase = .running ∧ l.timer = .outside then
      some (shared,idle.set l.currentInstanceIndex (!hasSeed && statesCount == 1),l)
    else none
  | .terminateIdleInstance statesCount =>
    if l.phase = .running ∧ l.timer = .outside then
      if 1 < statesCount then some (shared,idle,l)
      else if shared.currentInstanceCount = 1 then some (shared,idle,l)
      else some (shared,idle, {l with timer := .counted})
    else none
  | .getSeedStats =>
    if l.timer = .counted then some (shared,idle, {l with timer := .scanning idle 0}) else none
  | .getInstanceId =>
    match l.timer with
    | .scanning copy i =>
      if i < min S2E_MAX_PROCESSES maxInstances then
        shared.instanceIds[i]?.map fun id => (shared,idle,l.scanned id copy i)
      else some (shared,idle, {l with timer := .outside})
    | .outside | .counted => none
  | .close =>
    if l.phase = .closing then
      (execute closeCode shared l.toInstance).map fun r =>
        (r.1,idle, {l with toInstance := r.2})
    else none

def Deciding : Bool := l.phase = .closing ∨ l.timer ≠ .outside

def Settled : Bool := l.phase = .running ∧ l.timer = .outside

def Placed : Prop :=
  l.phase = .running ∨ l.timer = .outside ∧ (l.phase = .closing ∨ l.phase = .closed)

end IdleInstance

namespace IdleInstances
variable (maxInstances : Nat)

def step (s : IdleInstances) (a : Nat × IdleAction) : Option IdleInstances :=
  s.instances[a.1]?.bind fun l => (l.act maxInstances s.shared s.idle a.2).map fun r =>
    ⟨r.1,r.2.1,s.instances.set a.1 r.2.2⟩

def Starts (s : IdleInstances) : Prop :=
  Instance.Consistent maxInstances s.shared (s.instances.map (·.toInstance)) ∧
    s.instances ≠ [] ∧ ∀ l ∈ s.instances, l.Settled = true

def Admits (s : IdleInstances) : Nat × IdleAction → Prop
  | (_,.terminateIdleInstance _) => ∀ l ∈ s.instances, l.Deciding = false
  | _ => True

instance (s : IdleInstances) : (a : Nat × IdleAction) → Decidable (s.Admits a)
  | (_,.terminateIdleInstance _) =>
    inferInstanceAs (Decidable (∀ l ∈ s.instances, l.Deciding = false))
  | (_,.updateIdleStatus ..) | (_,.getSeedStats) | (_,.getInstanceId) | (_,.close) =>
    inferInstanceAs (Decidable True)

def Reached (admits : IdleInstances → Nat × IdleAction → Prop) : IdleInstances → Prop :=
  Runs.Reached (step maxInstances) admits (Starts maxInstances)

structure Inv (shared : S2EShared) (ps : List IdleInstance) : Prop where
  consistent : Instance.Consistent maxInstances shared (ps.map (·.toInstance))
  placed : ∀ l ∈ ps, l.Placed
  settled : 0 < ps.countP IdleInstance.Settled

variable {maxInstances : Nat} {shared shared' : S2EShared} {ps qs rest : List IdleInstance}
variable {l l' : IdleInstance}

lemma Inv.perm (hp : ps.Perm qs) (h : Inv maxInstances shared ps) :
    Inv maxInstances shared qs where
  consistent := h.consistent.perm (hp.map _)
  placed l hl := h.placed l (hp.mem_iff.mpr hl)
  settled := hp.countP_eq _ ▸ h.settled

lemma Inv.of_rest (h : Inv maxInstances shared (l :: rest))
    (hrest : 0 < rest.countP IdleInstance.Settled)
    (hc : Consistent maxInstances shared' (l'.toInstance :: rest.map (·.toInstance)))
    (hplaced : l'.Placed) : Inv maxInstances shared' (l' :: rest) where
  consistent := hc
  placed := forall_mem_cons.mpr ⟨hplaced,(forall_mem_cons.mp h.placed).2⟩
  settled := Nat.lt_of_lt_of_le hrest ((sublist_cons_self l' rest).countP_le)

lemma Inv.others (h : Inv maxInstances shared (l :: rest)) (hl : l.Settled = false) :
    0 < rest.countP IdleInstance.Settled := by
  have hpos := h.settled
  rwa [countP_cons_of_neg (by simp [hl])] at hpos

lemma Inv.count (h : Inv maxInstances shared ps) (hd : ∀ l ∈ ps, l.Deciding = false) :
    shared.currentInstanceCount.toNat = ps.countP IdleInstance.Settled := by
  have hforking : (ps.map (·.toInstance)).countP Forking = 0 := by
    simp only [countP_map,countP_eq_zero,Function.comp_apply]
    intro l hl
    obtain hp | ⟨-,hp | hp⟩ := h.placed l hl <;> simp [Forking,hp]
  rw [h.consistent.count,hforking,Nat.add_zero,countP_map]
  refine countP_congr fun l hl => ?_
  obtain ⟨hclosing,htimer⟩ : l.phase ≠ .closing ∧ l.timer = .outside := by
    simpa [IdleInstance.Deciding] using hd l hl
  obtain hp | ⟨-,hp | hp⟩ := h.placed l hl
  · simp [Live,IdleInstance.Settled,hp,htimer]
  · exact absurd hp hclosing
  · simp [Live,IdleInstance.Settled,hp]

lemma Inv.counted (h : Inv maxInstances shared (l :: rest)) (hl : l.Settled)
    (hd : ∀ l' ∈ l :: rest, l'.Deciding = false) (hcount : shared.currentInstanceCount ≠ 1) :
    0 < rest.countP IdleInstance.Settled := by
  have hne : shared.currentInstanceCount.toNat ≠ 1 := fun e => hcount (UInt32.toNat_inj.mp e)
  rw [h.count hd,countP_cons_of_pos hl] at hne
  omega

lemma settled_iff : l.Settled ↔ l.phase = .running ∧ l.timer = .outside := by
  simp [IdleInstance.Settled]

lemma scanned_cases (id : UInt32) (idle : List Bool) (i : Nat) :
    (∃ timer, l.scanned id idle i = {l with timer}) ∨
      l.scanned id idle i = {l with timer := .outside, phase := .closing} := by
  unfold IdleInstance.scanned
  repeat' split
  · exact .inl ⟨_,rfl⟩
  · exact .inr rfl
  · exact .inl ⟨_,rfl⟩
  · exact .inl ⟨_,rfl⟩

lemma Inv.act {idle idle' : List Bool} {a : IdleAction} (h : Inv maxInstances shared (l :: rest))
    (hallowed : ∀ n, a = .terminateIdleInstance n → ∀ l' ∈ l :: rest, l'.Deciding = false)
    (hact : l.act maxInstances shared idle a = some (shared',idle',l')) :
    Inv maxInstances shared' (l' :: rest) := by
  have hrunning : l.timer ≠ .outside → l.phase = .running := fun hne =>
    (h.placed l mem_cons_self).resolve_right fun hout => hne hout.1
  cases a with
  | updateIdleStatus hasSeed statesCount =>
    obtain ⟨-,hact⟩ := ite_none_right_eq_some.mp hact
    cases hact
    exact h
  | terminateIdleInstance statesCount =>
    obtain ⟨hl,hact⟩ := ite_none_right_eq_some.mp hact
    split at hact
    · cases hact
      exact h
    split at hact
    · cases hact
      exact h
    cases hact
    exact h.of_rest (h.counted (settled_iff.mpr hl) (hallowed _ rfl) ‹_›) h.consistent (.inl hl.1)
  | getSeedStats =>
    obtain ⟨hl,hact⟩ := ite_none_right_eq_some.mp hact
    cases hact
    refine h.of_rest (h.others (by simp [IdleInstance.Settled,hl])) h.consistent (.inl ?_)
    exact hrunning (by simp [hl])
  | getInstanceId =>
    unfold IdleInstance.act at hact
    dsimp only at hact
    split at hact
    next copy i hl =>
      have hothers := h.others (by simp [IdleInstance.Settled,hl])
      have hrun := hrunning (by simp [hl])
      split at hact
      · obtain ⟨id,-,hact⟩ := map_eq_some_iff.mp hact
        cases hact
        obtain ⟨timer,heq⟩ | heq := scanned_cases (l := l) id copy i
        · rw [heq]
          exact h.of_rest hothers h.consistent (.inl hrun)
        · rw [heq]
          refine h.of_rest hothers ?_ (.inr ⟨rfl,.inl rfl⟩)
          exact h.consistent.move (by simp [Live,hrun])
            (by simp [Forking,hrun]) (by simp [ids,hrun]) rfl rfl rfl
      · cases hact
        exact h.of_rest hothers h.consistent (.inl hrun)
    · cases hact
    · cases hact
  | close =>
    obtain ⟨hl,hact⟩ := ite_none_right_eq_some.mp hact
    obtain ⟨hpos,hc⟩ := h.consistent.leave hl
    have hslot := (h.consistent.slots.slot _ mem_cons_self (by simp [Live,hl])).2
    rw [closeCode_eq hslot hpos] at hact
    cases hact
    refine h.of_rest (h.others (by simp [IdleInstance.Settled,hl])) hc (.inr ⟨?_,.inr rfl⟩)
    by_contra hne
    cases hl.symm.trans (hrunning hne)

variable {s s' : IdleInstances}

lemma Inv.start (h : Starts maxInstances s) : Inv maxInstances s.shared s.instances where
  consistent := h.1
  placed l hl := .inl (settled_iff.mp (h.2.2 l hl)).1
  settled := by
    obtain ⟨l,hl⟩ := exists_mem_of_ne_nil _ h.2.1
    exact countP_pos_iff.mpr ⟨l,hl,h.2.2 l hl⟩

lemma Inv.step {a : Nat × IdleAction} (h : Inv maxInstances s.shared s.instances)
    (ha : s.Admits a) (hstep : s.step maxInstances a = some s') :
    Inv maxInstances s'.shared s'.instances := by
  obtain ⟨l,hl,hstep⟩ := bind_eq_some_iff.mp hstep
  obtain ⟨⟨shared',idle',l'⟩,hact,rfl⟩ := map_eq_some_iff.mp hstep
  obtain ⟨hlt,rfl⟩ := List.getElem?_eq_some_iff.mp hl
  -- the instance that steps is moved to the front and back
  have hfront := getElem_cons_eraseIdx_perm hlt
  refine .perm (set_perm_cons_eraseIdx hlt l').symm (.act (h.perm hfront.symm) ?_ hact)
  rintro n hn l hl
  obtain ⟨p,a⟩ := a
  cases hn
  exact ha l (hfront.mem_iff.mp hl)

/-- In every interleaving in which an instance looks at the count only while no instance is past
that or shuts down, some instance stays. -/
theorem idle_instance_stays (s : IdleInstances) (h : Reached maxInstances Admits s) :
    ∃ l ∈ s.instances, l.phase = .running := by
  have hinv : Inv maxInstances s.shared s.instances :=
    Runs.Reached.invariant (I := fun s => Inv maxInstances s.shared s.instances)
      (fun hs => .start hs) (fun hi ha hstep => hi.step ha hstep) h
  obtain ⟨l,hl,hsettled⟩ := countP_pos_iff.mp hinv.settled
  exact ⟨l,hl,(settled_iff.mp hsettled).1⟩

def two : IdleInstances where
  shared :=
    { currentInstanceCount := 2, lastFileId := 2, lastStateId := 0
      instanceIds := 0 :: 1 :: replicate 46 noInstance}
  idle := replicate S2E_MAX_PROCESSES false
  instances := [{}, {currentInstanceIndex := 1, currentInstanceId := 1}]

lemma starts_two : Starts 2 two := by
  refine ⟨?_,by simp [two],by decide⟩
  constructor
  case slots =>
    refine ⟨rfl,by decide,fun {i id} hi hne => ?_⟩
    obtain _ | _ | i := i
    · exact ⟨_,mem_cons_self,rfl,rfl⟩
    · exact ⟨_,mem_cons_of_mem _ mem_cons_self,rfl,rfl⟩
    · exact absurd (eq_of_mem_replicate (mem_of_getElem? hi)) hne
  case count => rfl
  case bounded => exact Nat.le_refl 2
  case ids => exact ⟨by decide,by simp [two,ids]⟩
  case stateIds => exact ⟨by decide,by simp [two]⟩

theorem idle_instance_stays_two : ∃ s,
    Runs.run (step 2) (fun s a => decide (s.Admits a)) two [(0,.updateIdleStatus false 1),
      (0,.terminateIdleInstance 1),(0,.getSeedStats),(0,.getInstanceId),(0,.close),
      (1,.updateIdleStatus false 1),(1,.terminateIdleInstance 1)] = some s ∧
        ∃ l ∈ s.instances, l.phase = .running := by
  have hsome : (Runs.run (step 2) (fun s a => decide (s.Admits a)) two
      [(0,.updateIdleStatus false 1),(0,.terminateIdleInstance 1),(0,.getSeedStats),
        (0,.getInstanceId),(0,.close),(1,.updateIdleStatus false 1),
          (1,.terminateIdleInstance 1)]).isSome := by
    decide +kernel
  obtain ⟨s,hs⟩ := isSome_iff_exists.mp hsome
  have hreach : Reached 2 Admits s := .run (fun _ _ => of_decide_eq_true) (.start starts_two) hs
  exact ⟨s,hs,idle_instance_stays s hreach⟩

/-- Both instances see the count 2. The first exits and gives its slot back before the second
looks at it. -/
theorem idle_instances_all_exit : ∃ s, Reached 2 (fun _ _ => True) s ∧
    ∀ l ∈ s.instances, l.phase ≠ .running := by
  have hexit : (Runs.run (step 2) (fun _ _ => true) two [(0,.updateIdleStatus false 1),
      (1,.updateIdleStatus false 1),(0,.terminateIdleInstance 1),(1,.terminateIdleInstance 1),
      (0,.getSeedStats),(1,.getSeedStats),(0,.getInstanceId),(0,.close),
      (1,.getInstanceId),(1,.getInstanceId)]).map
        (fun s => decide (∀ l ∈ s.instances, l.phase ≠ .running)) = some true := by
    decide +kernel
  obtain ⟨s,hs,hnone⟩ := map_eq_some_iff.mp hexit
  exact ⟨s,.run (fun _ _ _ => trivial) (.start starts_two) hs,of_decide_eq_true hnone⟩

end IdleInstances
end S2E
