import Mathlib

/-!
`FunctionMonitor.cpp`: the return signals of the functions that were called, by process and by the
stack slot of the return address.
-/

namespace S2E
open Function

/-- What the plugin is told. A signal that no handler connected to is missing, and so is that of
a call whose addresses cannot be related to its module. -/
inductive FunctionEvent (σ : Type) where
  | call (tracked : Bool) (pid sp : UInt64) (signal : Option σ)
  | ret (tracked : Bool) (pid sp : UInt64)
  | processUnload (pid : UInt64)
  | threadExit (pid stackBottom stackSize : UInt64)

structure FunctionMonitorState (σ : Type) where
  signals : UInt64 → Option (UInt64 → Option σ) := fun _ => none

variable {σ : Type}

namespace FunctionMonitorState
variable (s : FunctionMonitorState σ) (pid sp : UInt64)

def setReturnSignal (signal : σ) : FunctionMonitorState σ where
  signals := update s.signals pid
    (some (update ((s.signals pid).getD fun _ => none) sp (some signal)))

def getReturnSignal : Option σ := (s.signals pid).bind (· sp)

def eraseReturnSignal : FunctionMonitorState σ where
  signals := update s.signals pid ((s.signals pid).map (update · sp none))

def eraseReturnSignals (stackBottom stackSize : UInt64) : FunctionMonitorState σ where
  signals := update s.signals pid ((s.signals pid).map fun signals sp =>
    if (s.signals sp).isSome ∧ sp ≥ stackBottom ∧ sp < stackBottom+stackSize then none
    else signals sp)

def erasePid : FunctionMonitorState σ where
  signals := update s.signals pid none

def step : FunctionEvent σ → Option σ × FunctionMonitorState σ
  | .call true pid sp (some signal) => (none,s.setReturnSignal pid sp signal)
  | .ret true pid sp =>
    match s.getReturnSignal pid sp with
    | none => (none,s)
    | some signal => (some signal,s.eraseReturnSignal pid sp)
  | .processUnload pid => (none,s.erasePid pid)
  | .threadExit pid bottom size => (none,s.eraseReturnSignals pid bottom size)
  | _ => (none,s)

def run : List (FunctionEvent σ) → FunctionMonitorState σ
  | [] => {}
  | e :: events => ((run events).step e).2

end FunctionMonitorState

namespace FunctionEvent

def Ends (pid sp : UInt64) : FunctionEvent σ → Prop
  | .call tracked p q signal => tracked ∧ signal.isSome ∧ p = pid ∧ q = sp
  | .ret tracked p q => tracked ∧ p = pid ∧ q = sp
  | .processUnload p => p = pid
  | .threadExit p bottom size => p = pid ∧ bottom ≤ sp ∧ sp < bottom+size

/-- A thread exits, and the slots of its process in the reported range that have a signal are
also numbers of processes that have signals. -/
def Numbered (s : FunctionMonitorState σ) : FunctionEvent σ → Prop
  | .threadExit pid bottom size => ∀ sp, (s.getReturnSignal pid sp).isSome → bottom ≤ sp →
      sp < bottom+size → (s.signals sp).isSome
  | _ => True

end FunctionEvent

open FunctionMonitorState

def Due (pid sp : UInt64) (signal : σ) (events : List (FunctionEvent σ)) : Prop :=
  ∃ later earlier, events = later ++ .call true pid sp (some signal) :: earlier ∧
    ∀ e ∈ later, ¬e.Ends pid sp

def NumberedRun : List (FunctionEvent σ) → Prop
  | [] => True
  | e :: events => e.Numbered (run events) ∧ NumberedRun events

variable {pid sp : UInt64} {signal : σ} {e : FunctionEvent σ} {events : List (FunctionEvent σ)}

lemma due_cons : Due pid sp signal (e :: events) ↔
    e = .call true pid sp (some signal) ∨ ¬e.Ends pid sp ∧ Due pid sp signal events := by
  constructor
  · rintro ⟨later,earlier,heq,hlater⟩
    cases later with
    | nil => exact .inl (List.cons.inj heq).1
    | cons e' later =>
      obtain ⟨rfl,rfl⟩ := List.cons.inj heq
      exact .inr ⟨hlater e List.mem_cons_self,later,earlier,rfl,
        fun x hx => hlater x (List.mem_cons_of_mem _ hx)⟩
  · rintro (rfl | ⟨he,later,earlier,rfl,hlater⟩)
    · exact ⟨[],events,rfl,nofun⟩
    · exact ⟨e :: later,earlier,rfl,List.forall_mem_cons.mpr ⟨he,hlater⟩⟩

section
variable (s : FunctionMonitorState σ) (p q : UInt64)

lemma getReturnSignal_set (new : σ) : (s.setReturnSignal p q new).getReturnSignal pid sp =
    if pid = p ∧ sp = q then some new else s.getReturnSignal pid sp := by
  unfold setReturnSignal getReturnSignal
  by_cases hp : pid = p
  · subst hp
    cases s.signals pid <;> simp [update_apply]
  · simp [hp]

lemma getReturnSignal_erase : (s.eraseReturnSignal p q).getReturnSignal pid sp =
    if pid = p ∧ sp = q then none else s.getReturnSignal pid sp := by
  unfold eraseReturnSignal getReturnSignal
  by_cases hp : pid = p
  · subst hp
    cases s.signals pid <;> simp [update_apply]
  · simp [hp]

lemma getReturnSignal_eraseRange (bottom size : UInt64) :
    (s.eraseReturnSignals p bottom size).getReturnSignal pid sp =
      if pid = p ∧ (s.signals sp).isSome ∧ bottom ≤ sp ∧ sp < bottom+size then none
      else s.getReturnSignal pid sp := by
  unfold eraseReturnSignals getReturnSignal
  by_cases hp : pid = p
  · subst hp
    cases s.signals pid <;> simp
  · simp [hp]

end

lemma getReturnSignal_step {s : FunctionMonitorState σ} (he : e.Numbered s) :
    (s.step e).2.getReturnSignal pid sp = some signal ↔ e = .call true pid sp (some signal) ∨
        ¬e.Ends pid sp ∧ s.getReturnSignal pid sp = some signal := by
  cases e with
  | call tracked p q new =>
    cases tracked <;> cases new <;> simp [step,FunctionEvent.Ends,getReturnSignal_set]
    grind
  | ret tracked p q =>
    cases tracked
    · simp [step,FunctionEvent.Ends]
    · cases hget : s.getReturnSignal p q <;>
        simp [step,hget,FunctionEvent.Ends,getReturnSignal_erase] <;> grind
  | processUnload p =>
    simp only [step,FunctionEvent.Ends,erasePid,getReturnSignal,update_apply]
    grind
  | threadExit p bottom size =>
    have hnumber := he sp
    simp only [step,FunctionEvent.Ends,getReturnSignal_eraseRange]
    grind

lemma getReturnSignal_run (h : NumberedRun events) :
    (run events).getReturnSignal pid sp = some signal ↔ Due pid sp signal events := by
  induction events with
  | nil => simp [run,getReturnSignal,Due]
  | cons e events ih =>
    rw [run,getReturnSignal_step h.1,due_cons,ih h.2]

/-- A return emits the signal that is due, and no other event emits one. -/
theorem emitted_iff_due (h : NumberedRun events) (e : FunctionEvent σ) (signal : σ) :
    ((run events).step e).1 = some signal ↔
      ∃ pid sp, e = .ret true pid sp ∧ Due pid sp signal events := by
  simp only [← getReturnSignal_run h]
  cases e with
  | ret tracked p q =>
    cases tracked
    · simp [step]
    · cases hget : (run events).getReturnSignal p q <;> simp [step,hget]
  | call tracked p q new => cases tracked <;> cases new <;> simp [step]
  | processUnload | threadExit => simp [step]

theorem emitted_after_thread_exit :
    let events : List (FunctionEvent Unit) :=
      [.threadExit 4 0x9000 0x1000,.call true 4 0x8000 (some ())]
    ((run events).step (.ret true 4 0x8000)).1 = some () := by
  intro events
  have hrun : NumberedRun events := by
    refine ⟨fun sp hsome hlo _ => ?_,trivial,trivial⟩
    simp only [run,step,getReturnSignal_set] at hsome
    split at hsome
    next h => exact absurd (h.2 ▸ hlo) (by decide)
    · cases hsome
  refine (emitted_iff_due hrun _ _).mpr ⟨4,0x8000,rfl,[_],[],rfl,?_⟩
  simp [FunctionEvent.Ends]

/-- The thread of the call exits, and its signal is emitted when another thread returns through
the slot. -/
theorem emitted_for_dead_thread :
    let events : List (FunctionEvent Unit) :=
      [.threadExit 4 0x7000 0x2000,.call true 4 0x8000 (some ())]
    ((run events).step (.ret true 4 0x8000)).1 = some () ∧ ¬Due 4 0x8000 () events := by
  refine ⟨rfl,?_⟩
  rw [due_cons]
  simp [FunctionEvent.Ends]

end S2E
