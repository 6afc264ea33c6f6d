import S2E.Lib.Runs

/-!
The mutex of the virtual CPU in `s2e-kvm-vcpu.cpp` and `s2e-kvm-vm.cpp`: one thread runs the
guest, others change its memory map, write its memory and read its dirty log.
-/

namespace S2E
open Option

inductive VmOperation where
  | setUserMemoryRegion
  | memoryReadWrite
  | getDirtyLog
  deriving DecidableEq

inductive KvmThread where
  | cpu
  | other (n : Nat)
  deriving DecidableEq

inductive RunPhase where
  | outside
  | entering
  /-- In the coroutine that executes the guest. -/
  | guest
  | leaving
  deriving DecidableEq

inductive VmPhase where
  | idle
  | called (op : VmOperation)
  | inside (op : VmOperation)
  deriving DecidableEq

structure CpuLock where
  mutex : Option KvmThread := none
  inKvmRun : Bool := false
  exiting : Bool := false
  cpu : RunPhase := .outside
  others : Nat → VmPhase := fun _ => .idle

inductive CpuLockStep where
  /-- `KVM_RUN` up to `lock`; interrupts can be injected or not. -/
  | run (readyForInterrupt : Bool)
  /-- Only threads that hold the lock read `m_inKvmRun`, so it is set in the same step. -/
  | cpuLock
  | guestReturns
  | cpuUnlock
  | call (n : Nat) (op : VmOperation)
  | lock (n : Nat)
  | tryLock (n : Nat)
  | unlock (n : Nat)
  | exit

variable {n : Nat} {op : VmOperation}

namespace CpuLock
variable (s : CpuLock)

def release : CpuLock := {s with mutex := none}

def setOther (n : Nat) (phase : VmPhase) : CpuLock :=
  {s with others := Function.update s.others n phase}

/-- The test of `exiting` and the operation on the lock that it guards are one step. -/
def step : CpuLockStep → Option CpuLock
  | .run readyForInterrupt =>
    if s.cpu = .outside then
      if s.exiting || readyForInterrupt then some s
      else some {s with cpu := .entering}
    else none
  | .cpuLock =>
    if s.cpu = .entering ∧ s.mutex = none then
      some {s with mutex := some .cpu, inKvmRun := true, cpu := .guest}
    else none
  | .guestReturns => if s.cpu = .guest then some {s with cpu := .leaving} else none
  | .cpuUnlock =>
    if s.cpu = .leaving then
      if s.exiting then some {s.release with cpu := .outside}
      else some {s.release with inKvmRun := false, cpu := .outside}
    else none
  | .call n op => if s.others n = .idle then some (s.setOther n (.called op)) else none
  | .lock n =>
    match s.others n with
    | .called .setUserMemoryRegion =>
      if s.mutex = none then
        some {s.setOther n (.inside .setUserMemoryRegion) with mutex := some (.other n)}
      else none
    | .called .memoryReadWrite =>
      if s.mutex = none then
        some {s.setOther n (.inside .memoryReadWrite) with mutex := some (.other n)}
      else none
    | .idle | .called .getDirtyLog | .inside _ => none
  | .tryLock n =>
    if s.others n = .called .getDirtyLog then
      if s.exiting then some (s.setOther n .idle)
      else
        -- whether the lock was free is not looked at
        some { s.setOther n (.inside .getDirtyLog) with
          mutex := s.mutex <|> some (.other n)}
    else none
  | .unlock n =>
    match s.others n with
    | .inside _ => some (s.release.setOther n .idle)
    | .idle | .called _ => none
  | .exit => some {s with exiting := true}

def Admits : CpuLockStep → Prop
  | .tryLock _ => s.exiting = false → s.mutex = none
  | .cpuUnlock => s.exiting = false
  | .run _ | .cpuLock | .guestReturns | .call _ _ | .lock _ | .unlock _ | .exit => True

instance (s : CpuLock) (a : CpuLockStep) : Decidable (s.Admits a) :=
  match a with
  | .tryLock _ => inferInstanceAs (Decidable (_ → _))
  | .cpuUnlock => inferInstanceAs (Decidable (_ = _))
  | .run _ | .cpuLock | .guestReturns | .call _ _ | .lock _ | .unlock _ | .exit =>
    inferInstanceAs (Decidable True)

def Reached (admits : CpuLock → CpuLockStep → Prop) : CpuLock → Prop :=
  Runs.Reached step admits (· = {})

def Running : Prop := s.cpu = .guest ∨ s.cpu = .leaving

/-- Who is about to unlock the mutex holds it, no operation is under way while the guest
executes, and the flag and the assertion about it are right. -/
structure Excludes : Prop where
  cpu_unlocks : s.cpu = .leaving → s.mutex = some .cpu
  other_unlocks : ∀ n op, s.others n = .inside op → s.mutex = some (.other n)
  no_overlap : s.cpu = .guest → ∀ n op, s.others n ≠ .inside op
  inKvmRun : s.inKvmRun = true ↔ s.Running
  assertion : ∀ n, s.others n = .inside .setUserMemoryRegion → s.inKvmRun = false

structure Owned : Prop where
  cpu : s.mutex = some .cpu ↔ s.Running
  other : ∀ n, s.mutex = some (.other n) ↔ ∃ op, s.others n = .inside op
  inKvmRun : s.inKvmRun = true ↔ s.Running

variable {s s' : CpuLock} {a : CpuLockStep}

lemma owned_start : Owned {} := by
  constructor <;> simp [Running]

section
variable (h : Owned s)
include h

lemma Owned.excludes : Excludes s where
  cpu_unlocks hs := h.cpu.mpr (.inr hs)
  other_unlocks n op hn := (h.other n).mpr ⟨op,hn⟩
  no_overlap hs n op hn := by
    have := h.cpu.mpr (.inl hs)
    rw [(h.other n).mpr ⟨op,hn⟩] at this
    cases this
  inKvmRun := h.inKvmRun
  assertion n hn := by
    rw [← Bool.not_eq_true,h.inKvmRun,← h.cpu,(h.other n).mpr ⟨_,hn⟩]
    exact nofun

lemma Owned.setOther {phase : VmPhase}
    (hn : ∀ op, s.others n ≠ .inside op) (hphase : ∀ op, phase ≠ .inside op) :
    Owned (s.setOther n phase) where
  cpu := h.cpu
  other m := by
    refine (h.other m).trans ?_
    by_cases hm : m = n
    · subst hm
      simp [setOther,hn,hphase]
    · simp [CpuLock.setOther,hm]
  inKvmRun := h.inKvmRun

lemma Owned.take (hfree : s.mutex = none) :
    Owned {s.setOther n (.inside op) with mutex := some (.other n)} where
  cpu := by
    have := h.cpu
    rw [hfree] at this
    refine ⟨nofun,fun hr => ?_⟩
    exact absurd (this.mpr hr) nofun
  other m := by
    have := h.other m
    rw [hfree] at this
    by_cases hm : m = n
    · subst hm
      simp [CpuLock.setOther]
    · simpa [CpuLock.setOther,hm,Ne.symm hm] using this
  inKvmRun := h.inKvmRun

lemma Owned.give (hn : s.others n = .inside op) : Owned (s.release.setOther n .idle) where
  cpu := by
    have := h.cpu
    rw [(h.other n).mpr ⟨op,hn⟩] at this
    refine ⟨nofun,fun hr => ?_⟩
    exact absurd (this.mpr hr) nofun
  other m := by
    have := h.other m
    rw [(h.other n).mpr ⟨op,hn⟩] at this
    by_cases hm : m = n
    · subst hm
      simp [CpuLock.setOther,release]
    · simpa [CpuLock.setOther,release,hm,Ne.symm hm] using this
  inKvmRun := h.inKvmRun

lemma Owned.guestReturns (hs : s.cpu = .guest) : Owned {s with cpu := .leaving} where
  cpu := by simpa [Running] using h.cpu.mpr (.inl hs)
  other := h.other
  inKvmRun := by simpa [Running] using h.inKvmRun.mpr (.inl hs)

lemma Owned.cpuLock (hfree : s.mutex = none) :
    Owned {s with mutex := some .cpu, inKvmRun := true, cpu := .guest} where
  cpu := by simp [Running]
  other n := by
    have := h.other n
    rw [hfree] at this
    simpa using this
  inKvmRun := by simp [Running]

lemma Owned.cpuUnlock (hs : s.cpu = .leaving) :
    Owned {s.release with inKvmRun := false, cpu := .outside} where
  cpu := by simp [Running,release]
  other n := by
    have := h.other n
    rw [h.cpu.mpr (.inr hs)] at this
    simpa [release] using this
  inKvmRun := by simp [Running]

lemma Owned.setCpu (hs : s.cpu = .outside) : Owned {s with cpu := .entering} where
  cpu := by simpa [Running,hs] using h.cpu
  other := h.other
  inKvmRun := by simpa [Running,hs] using h.inKvmRun

lemma Owned.step (ha : s.Admits a) (hstep : s.step a = some s') : Owned s' := by
  cases a with
  | run readyForInterrupt =>
    obtain ⟨hs,hstep⟩ := ite_none_right_eq_some.mp hstep
    split at hstep
    · cases hstep
      exact h
    · cases hstep
      exact h.setCpu hs
  | cpuLock =>
    obtain ⟨⟨-,hfree⟩,hstep⟩ := ite_none_right_eq_some.mp hstep
    cases hstep
    exact h.cpuLock hfree
  | guestReturns =>
    obtain ⟨hs,hstep⟩ := ite_none_right_eq_some.mp hstep
    cases hstep
    exact h.guestReturns hs
  | cpuUnlock =>
    obtain ⟨hs,hstep⟩ := ite_none_right_eq_some.mp hstep
    have ha : s.exiting = false := ha
    rw [ha] at hstep
    cases hstep
    exact h.cpuUnlock hs
  | call n op =>
    obtain ⟨hs,hstep⟩ := ite_none_right_eq_some.mp hstep
    cases hstep
    exact h.setOther (by simp [hs]) nofun
  | lock n =>
    unfold CpuLock.step at hstep
    dsimp only at hstep
    split at hstep
    · obtain ⟨hfree,hstep⟩ := ite_none_right_eq_some.mp hstep
      cases hstep
      exact h.take hfree
    · obtain ⟨hfree,hstep⟩ := ite_none_right_eq_some.mp hstep
      cases hstep
      exact h.take hfree
    · cases hstep
    · cases hstep
    · cases hstep
  | tryLock n =>
    obtain ⟨hs,hstep⟩ := ite_none_right_eq_some.mp hstep
    split at hstep
    · cases hstep
      exact h.setOther (by simp [hs]) nofun
    rename_i hexit
    have hfree : s.mutex = none := ha (by simpa using hexit)
    rw [hfree] at hstep
    cases hstep
    exact h.take hfree
  | unlock n =>
    unfold CpuLock.step at hstep
    dsimp only at hstep
    split at hstep
    · cases hstep
      exact h.give ‹_›
    · cases hstep
    · cases hstep
  | exit =>
    cases hstep
    exact ⟨h.cpu,h.other,h.inKvmRun⟩

end

/-- In every interleaving in which the dirty log is asked for only while the lock is free, and
the guest does not return while the process exits, the lock excludes. -/
theorem cpu_lock_excludes (s : CpuLock) (h : Reached Admits s) : Excludes s := by
  have howned : Owned s := by
    refine Runs.Reached.invariant ?_ ?_ h
    · rintro _ rfl
      exact owned_start
    · intro s a s' hs ha hstep
      exact hs.step ha hstep
  exact howned.excludes

theorem cpu_lock_excludes_log : ∃ s,
    Runs.run step (fun s a => decide (s.Admits a)) {} [.run false,.cpuLock,.call 0 .getDirtyLog,
      .guestReturns,.cpuUnlock,.tryLock 0] = some s ∧ Excludes s := by
  have hsome : (Runs.run step (fun s a => decide (s.Admits a)) {} [.run false,.cpuLock,
      .call 0 .getDirtyLog,.guestReturns,.cpuUnlock,.tryLock 0]).isSome := by
    decide +kernel
  obtain ⟨s,hs⟩ := isSome_iff_exists.mp hsome
  have hreach : Reached Admits s := .run (fun _ _ => of_decide_eq_true) (.start rfl) hs
  exact ⟨s,hs,cpu_lock_excludes s hreach⟩

/-- The dirty log is read while the guest executes. -/
theorem dirty_log_overlaps : ∃ s, Reached (fun _ _ => True) s ∧ ¬ Excludes s := by
  have hfail : (Runs.run step (fun _ _ => true) {} [.run false,.cpuLock,.call 0 .getDirtyLog,
      .tryLock 0]).map (fun s => decide (s.cpu = .guest ∧ s.others 0 = .inside .getDirtyLog)) =
        some true := by
    decide +kernel
  obtain ⟨s,hs,hboth⟩ := map_eq_some_iff.mp hfail
  obtain ⟨hguest,hinside⟩ := of_decide_eq_true hboth
  have hreach : Reached (fun _ _ => True) s := .run (fun _ _ _ => trivial) (.start rfl) hs
  exact ⟨s,hreach,fun he => he.no_overlap hguest 0 _ hinside⟩

end CpuLock
end S2E
