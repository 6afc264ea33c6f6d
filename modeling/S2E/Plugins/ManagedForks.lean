import S2E.Core.S2EExecutor
import S2E.Plugins.ManagedRuntime

/-!
The part of `ManagedRuntime.cpp` in forks: the veto in `onStateForkDecide`, and how many forks
there are on the way to one state.
-/

namespace S2E
open Option
open ManagedBindings S2EExecutor ManagedRuntimeState
namespace S2EExecutor
variable {σ : Type} {svc : Services σ} {plugins : Plugins} {st : ExecutionState}
  {condition : Option Expr} {keep : Bool} {s s' : σ} {o : ForkOutcome}

lemma doFork_two_states (hsvc : svc.Sound) (hok : st.Ok)
    (hc : ∀ c ∈ condition, Admissible st.symbolics st.constraints c ∧ c.width = 1)
    (h : doFork svc plugins st condition keep s = some (o,s'))
    (hfirst : o.pair.first ≠ none) (hsecond : o.pair.second ≠ none) : plugins.forkOk := by
  by_contra hv
  rw [Bool.not_eq_true] at hv
  have hside : ∀ {side P}, o.Covers side P → side ≠ none → ∃ a, P a := by
    intro side P hcov hne
    cases side with
    | none => exact absurd rfl hne
    | some r => exact hcov.1
  cases condition with
  | none =>
    cases h
    simp [restore,Executor.forkUnconditional,forkOk,asked,hv,ForkOutcome.oneSided] at hsecond
  | some c =>
    obtain ⟨hadm,hw⟩ := hc c rfl
    have hreq : requested plugins st c = none := by
      simp [requested,forkPreference,hv,StateForkPreference.forced]
    rw [doFork_some,hreq] at h
    cases hdis : st.forkDisabled || !(forkOk plugins (some c) &&
        forkPreference plugins st (some c) != .followCurrent) with
    | true =>
      obtain ⟨cur,s1,hcall,-⟩ := callFork_disabled hsvc hok hadm hw hdis keep s
      cases some.inj (hcall.symm.trans h)
      cases htrue : decide (c.eval st.concolics.assignment = 1) <;>
        simp [ForkOutcome.oneSided,htrue] at hfirst hsecond
    | false =>
      rcases callFork_enabled hsvc hok hadm hw hdis keep s with ⟨-,o1,s1,hcall,hf,-⟩ | ⟨-,hn⟩
      · cases some.inj (hcall.symm.trans h)
        obtain ⟨a,-,ha⟩ := hside hf.partition.first hfirst
        obtain ⟨a',-,ha'⟩ := hside hf.partition.second hsecond
        have hconst : c.isConstant := by
          simp only [forkOk,hv,asked,Bool.or_false,Bool.not_not,Bool.or_eq_false_iff,
            Bool.not_eq_false',Bool.and_eq_true] at hdis
          exact hdis.2.1
        cases c with
        | constant v => exact ha' ha
        | _ => cases hconst
      · cases hn.symm.trans h

end S2EExecutor

/-- A call of `doFork` on the way to a state: where it is made, the answers of the plugins asked
before and after this one, none of which turns a veto into consent, and whether `onFork` of this
plugin runs for two states: not if the caller never calls `notifyFork`, or a handler leaves it by
an exception. -/
structure ForkCall (σ : Type) where
  pid : UInt64
  pageDir : UInt64
  pc : UInt64
  before : Bool
  after : Bool → Bool
  veto : after false = false
  counted : Bool
  current : ExecutionState
  ok : current.Ok
  condition : Option Expr
  admissible : ∀ c ∈ condition, Admissible current.symbolics current.constraints c ∧ c.width = 1
  keep : Bool
  preference : StateForkPreference
  store : σ

def ManagedRuntimeState.onForkDecide {σ : Type} (cfg : ManagedConfig) (s : ManagedRuntimeState)
    (q : ForkCall σ) (allow : Bool) : Bool :=
  if !cfg.boundForks then allow
  else allow && s.bindings.active && s.bindings.pid.toUInt64 == q.pid && s.pageDir == q.pageDir &&
    s.bindings.contains q.pc && s.bindings.forks.toNat < cfg.maxForks

inductive PathEvent (σ : Type) where
  | event (e : ManagedEvent)
  | fork (q : ForkCall σ)

structure ForkPath (σ : Type) where
  path : ManagedPath := {}
  forks : List (ForkCall σ × ManagedRuntimeState) := []

section
variable {σ : Type} (svc : Services σ) (cfg : ManagedConfig) (policy : ManagedPolicy)

def ForkCall.twoWay (q : ForkCall σ) (s : ManagedRuntimeState) : Bool :=
  let forkOk := q.after (s.onForkDecide cfg q q.before)
  (doFork svc ⟨forkOk,q.preference⟩ q.current q.condition q.keep q.store).any fun (o,_) =>
    o.pair.first.isSome && o.pair.second.isSome

def ForkPath.step (p : ForkPath σ) : PathEvent σ → ForkPath σ
  | .event e => {p with path := p.path.step policy e}
  | .fork q =>
    if q.twoWay svc cfg p.path.state then
      { path := if q.counted then p.path.forked else p.path
        forks := (q,p.path.state) :: p.forks}
    else p

end

section
variable {σ : Type} {svc : Services σ} {cfg : ManagedConfig} {policy : ManagedPolicy}

def ForkCall.Allowed (q : ForkCall σ) (s : ManagedRuntimeState) : Prop :=
  s.bindings.active = true ∧ s.bindings.pid.toUInt64 = q.pid ∧ s.pageDir = q.pageDir ∧
    ∃ (f : UInt32) (m : ManagedBinding), s.bindings.methods[f]? = some m ∧
      m.start.toNat ≤ q.pc.toNat ∧ q.pc.toNat < m.limit

lemma ForkCall.twoWay_allowed (hsvc : svc.Sound) (hbound : cfg.boundForks)
    {q : ForkCall σ} {s : ManagedRuntimeState} (h : q.twoWay svc cfg s) :
    q.Allowed s ∧ s.bindings.forks.toNat < cfg.maxForks := by
  obtain ⟨⟨o,s'⟩,hfork,hpair⟩ := (any_eq_true _ _).mp h
  obtain ⟨hfirst,hsecond⟩ := Bool.and_eq_true_iff.mp hpair
  have hok := doFork_two_states hsvc q.ok q.admissible hfork (isSome_iff_ne_none.mp hfirst)
    (isSome_iff_ne_none.mp hsecond)
  have hdecide : s.onForkDecide cfg q q.before := by
    by_contra hno
    rw [Bool.not_eq_true] at hno
    rw [hno,q.veto] at hok
    cases hok
  simp only [onForkDecide,hbound,Bool.not_true,Bool.false_eq_true,if_false,
    Bool.and_eq_true,beq_iff_eq,decide_eq_true_eq] at hdecide
  obtain ⟨⟨⟨⟨⟨-,hactive⟩,hpid⟩,hdir⟩,hcontains⟩,hforks⟩ := hdecide
  refine ⟨⟨hactive,hpid,hdir,?_⟩,hforks⟩
  obtain ⟨⟨f,m⟩,hm,hpc⟩ := List.any_eq_true.mp hcontains
  refine ⟨f,m,Maps.mem_toList.mp hm,?_⟩
  simp only [Bool.and_eq_true,decide_eq_true_eq,UInt64.le_iff_toNat_le,UInt64.lt_iff_toNat_lt]
    at hpc
  rw [UInt64.toNat_sub_of_le _ _ hpc.1] at hpc
  simp only [UInt32.toNat_toUInt64] at hpc
  simp only [ManagedBinding.limit]
  omega

lemma ManagedPath.step_forks (policy : ManagedPolicy) (p : ManagedPath) (e : ManagedEvent) :
    (p.step policy e).state.bindings.forks = p.state.bindings.forks := by
  cases e with
  | packet i =>
    simp only [step,handleOpcodeInvocation_snd]
    cases hrec : p.state.receive policy i with
    | mk error s =>
      cases error with
      | some error =>
        rcases receive_rejected hrec with rfl | ⟨f,rfl⟩
        · rfl
        · rfl
      | none =>
        obtain ⟨c,-,-,hacc,-⟩ := receive_accepted hrec
        obtain ⟨-,b',hstep,hb⟩ := accept_step hacc
        rw [hb]
        cases hstep <;> rfl
  | moduleUnload pid tracked =>
    simp only [step,onModuleUnload]
    split <;> rfl
  | processUnload pid =>
    simp only [step,onProcessUnload]
    split <;> rfl

structure ForkPath.Bounded (cfg : ManagedConfig) (p : ForkPath σ) : Prop where
  counted : p.forks.length ≤ p.path.state.bindings.forks.toNat
  bound : p.path.state.bindings.forks.toNat ≤ cfg.maxForks
  allowed : ∀ f ∈ p.forks, f.1.Allowed f.2

lemma ForkPath.Bounded.step (hsvc : svc.Sound) (hbound : cfg.boundForks)
    (hmax : cfg.maxForks ≤ 16) {p : ForkPath σ} (h : p.Bounded cfg) {e : PathEvent σ}
    (hcount : ∀ q, e = .fork q → q.counted) : (p.step svc cfg policy e).Bounded cfg := by
  cases e with
  | event e =>
    have hforks := p.path.step_forks policy e
    exact ⟨by simpa [ForkPath.step,hforks] using h.counted,
      by simpa [ForkPath.step,hforks] using h.bound,h.allowed⟩
  | fork q =>
    simp only [ForkPath.step,hcount q rfl,if_true]
    split
    next htwo =>
      obtain ⟨hallowed,hlt⟩ := ForkCall.twoWay_allowed hsvc hbound htwo
      have hnext : p.path.forked.state.bindings.forks.toNat =
          p.path.state.bindings.forks.toNat+1 := by
        simp only [ManagedPath.forked,onFork,hallowed.1,if_true,UInt32.toNat_add,UInt32.toNat_ofNat]
        omega
      refine ⟨?_,?_,?_⟩
      · rw [hnext]
        exact Nat.succ_le_succ h.counted
      · rw [hnext]
        exact hlt
      · exact List.forall_mem_cons.mpr ⟨hallowed,h.allowed⟩
    · exact h

/-- On the way to every state there are at most `maxForks` forks with two states, all where the
bindings allow them, as long as `onFork` runs for each of them. -/
theorem managed_forks_bounded (hsvc : svc.Sound) (h : initializePolicy cfg = some policy)
    (hbound : cfg.boundForks = true) {events : List (PathEvent σ)}
    (hcount : ∀ q, .fork q ∈ events → q.counted = true) :
    ((events.foldl (ForkPath.step svc cfg policy) {}).forks.length : Int) ≤ cfg.maxForks ∧
      ∀ f ∈ (events.foldl (ForkPath.step svc cfg policy) {}).forks, f.1.Allowed f.2 := by
  have hmax : 0 ≤ cfg.maxForks ∧ cfg.maxForks ≤ 16 := by
    unfold initializePolicy at h
    split at h
    · cases h
    next hcfg =>
      simp only [Bool.or_eq_true,not_or,decide_eq_true_eq,Int.not_lt] at hcfg
      exact ⟨hcfg.1.1.1.1,hcfg.1.1.1.2⟩
  have hrun : (events.foldl (ForkPath.step svc cfg policy) {}).Bounded cfg := by
    refine List.foldlRecOn events _ ⟨Nat.le_refl 0,hmax.1,fun _ h => nomatch h⟩ ?_
    intro p hp e he
    exact hp.step hsvc hbound hmax.2 fun q hq => hcount q (hq ▸ he)
  exact ⟨(Int.ofNat_le.mpr hrun.counted).trans hrun.bound,hrun.allowed⟩

end

def methodFork (counted : Bool) : ForkCall Unit where
  pid := 4
  pageDir := 0x2000
  pc := 0x1008
  before := true
  after := id
  veto := rfl
  counted := counted
  current := Executor.probeState
  ok := Executor.probeState_ok
  condition := none
  admissible := nofun
  keep := false
  preference := .none
  store := ()

def nineForks (counted : Bool) : List (PathEvent Unit) :=
  .event (.packet (onePacket .start 0)) :: .event (.packet (onePacket .register 1)) ::
    .replicate 9 (.fork (methodFork counted))

theorem managed_forks_bounded_nineForks : ∃ policy, initializePolicy oneMethod = some policy ∧
    (((nineForks true).foldl (ForkPath.step idealServices oneMethod policy) {}).forks.length : Int)
      ≤ 8 := by
  obtain ⟨policy,hpolicy⟩ := isSome_iff_exists.mp
    (by decide +kernel : (initializePolicy oneMethod).isSome)
  refine ⟨policy,hpolicy,(managed_forks_bounded idealServices_sound hpolicy rfl ?_).1⟩
  simp [nineForks,methodFork]

/-- The forks of `s2e_fork` are not counted: `forkCount` never calls `notifyFork`. -/
theorem uncounted_forks_unbounded : ∃ policy, initializePolicy oneMethod = some policy ∧
    ((nineForks false).foldl (ForkPath.step idealServices oneMethod policy) {}).forks.length =
      9 := by
  have hrun : (initializePolicy oneMethod).any (fun policy =>
      ((nineForks false).foldl (ForkPath.step idealServices oneMethod policy) {}).forks.length =
        9) = true := by
    decide +kernel
  obtain ⟨policy,hpolicy,hlen⟩ := (any_eq_true _ _).mp hrun
  exact ⟨policy,hpolicy,of_decide_eq_true hlen⟩

namespace ManagedRuntimeState
variable {σ : Type} (svc : Services σ) (cfg : ManagedConfig) (policy : ManagedPolicy)

def after (s : ManagedRuntimeState) (events : List (PathEvent σ)) : ManagedRuntimeState :=
  (events.foldl (ForkPath.step svc cfg policy) {path := {state := s}}).path.state

def Alike (s s' : ManagedRuntimeState) : Prop :=
  s'.pageDir = s.pageDir ∧ s.bindings.Alike s'.bindings

variable {svc cfg policy} {s s' : ManagedRuntimeState}

lemma Alike.receive (h : Alike s s') (i : Invocation) :
    (s'.receive policy i).1 = (s.receive policy i).1 ∧
      Alike (s.receive policy i).2 (s'.receive policy i).2 := by
  obtain ⟨hdir,hb⟩ := h
  have hactive : s'.bindings.active = s.bindings.active := by
    obtain ⟨o,ho,-⟩ := hb
    rw [ho]
  unfold ManagedRuntimeState.receive
  cases i.packet with
  | none => exact ⟨rfl,hdir,hb⟩
  | some c =>
    obtain ⟨herror,hacc⟩ := hb.accept c policy i.pid
    simp only [hdir,hactive,herror]
    split_ifs <;> first | exact ⟨rfl,hdir,hb⟩ | exact ⟨rfl,rfl,hacc⟩

lemma Alike.step {p p' : ManagedPath} (h : Alike p.state p'.state) (e : ManagedEvent) :
    Alike (p.step policy e).state (p'.step policy e).state := by
  cases e with
  | packet i =>
    simp only [ManagedPath.step,handleOpcodeInvocation_snd]
    exact (h.receive i).2
  | moduleUnload pid tracked =>
    obtain ⟨hdir,o,hb,ho⟩ := h
    simp only [ManagedPath.step,onModuleUnload,hb]
    split_ifs
    · exact ⟨hdir,o,rfl,ho⟩
    · exact ⟨hdir,o,hb,ho⟩
  | processUnload pid =>
    obtain ⟨hdir,o,hb,ho⟩ := h
    simp only [ManagedPath.step,onProcessUnload,hb]
    split_ifs
    · exact ⟨hdir,o,hb,ho⟩
    · exact ⟨hdir,o,rfl,ho⟩

lemma Alike.onForkDecide (h : Alike s s') (q : ForkCall σ) (allow : Bool) :
    s'.onForkDecide cfg q allow = s.onForkDecide cfg q allow := by
  obtain ⟨hdir,o,hb,-⟩ := h
  simp only [ManagedRuntimeState.onForkDecide,hdir,hb]
  rfl

lemma Alike.onFork (h : Alike s s') : Alike s.onFork s'.onFork := by
  obtain ⟨hdir,o,hb,ho⟩ := h
  simp only [ManagedRuntimeState.onFork,hb]
  split_ifs
  · exact ⟨hdir,o,rfl,ho⟩
  · exact ⟨hdir,o,hb,ho⟩

lemma Alike.path {p p' : ForkPath σ} (h : Alike p.path.state p'.path.state) (e : PathEvent σ) :
    Alike (p.step svc cfg policy e).path.state (p'.step svc cfg policy e).path.state := by
  cases e with
  | event e => exact h.step e
  | fork q =>
    have htwo : q.twoWay svc cfg p'.path.state = q.twoWay svc cfg p.path.state := by
      simp only [ForkCall.twoWay,h.onForkDecide]
    simp only [ForkPath.step,htwo]
    split_ifs
    · exact h.onFork
    · exact h
    · exact h

/-- A rejected packet changes nothing in what the plugin answers later. -/
theorem rejected_packet_inert {c : ManagedCommand} {pid : UInt64} {e : ManagedError}
    {b : ManagedBindings} (h : s.bindings.accept c pid policy = (some e,b))
    (later : List (PathEvent σ)) : let t := s.after svc cfg policy later
    let t' := {s with bindings := b}.after svc cfg policy later
    (∀ i, (t'.receive policy i).1 = (t.receive policy i).1) ∧
      (∀ c pid, (t'.bindings.accept c pid policy).1 = (t.bindings.accept c pid policy).1) ∧
      (∀ (q : ForkCall σ) allow, t'.onForkDecide cfg q allow = t.onForkDecide cfg q allow) ∧
      (∀ pc, t'.bindings.contains pc = t.bindings.contains pc) ∧
      ∀ f, t'.bindings.observed.getD f ∅ = t.bindings.observed.getD f ∅ := by
  intro t t'
  have hrun : ∀ p p' : ForkPath σ, Alike p.path.state p'.path.state →
      Alike (later.foldl (ForkPath.step svc cfg policy) p).path.state
        (later.foldl (ForkPath.step svc cfg policy) p').path.state := by
    induction later with
    | nil => exact fun _ _ => id
    | cons e later ih => exact fun p p' h => ih _ _ (h.path e)
  have hlike : t.Alike t' := hrun _ _ ⟨rfl,.of_eq (accept_rejected h)⟩
  refine ⟨fun i => (hlike.receive i).1,fun c pid => (hlike.2.accept c policy pid).1,
    hlike.onForkDecide,?_⟩
  obtain ⟨-,o,hb,ho⟩ := hlike
  rw [hb]
  exact ⟨fun _ => rfl,ho⟩

def sourceMethod : ManagedConfig := {oneMethod with booleanSourceToken := 0x06000001}

noncomputable def registered (policy : ManagedPolicy) : ManagedRuntimeState :=
  after idealServices sourceMethod policy {} ((nineForks true).take 2)

/-- A source before its probe is rejected, but not before an entry is made for its function. A
fork, a probe of the function and an unload event come later. -/
theorem rejected_packet_inert_late : ∃ policy c b, initializePolicy sourceMethod = some policy ∧
    (onePacket .booleanSource 2).packet = some c ∧
    (registered policy).bindings.accept c 4 policy = (some .invalidBooleanSource,b) ∧
    7 ∈ b.observed ∧ 7 ∉ (registered policy).bindings.observed ∧
    let later := [.fork (methodFork true),.event (.packet (onePacket .probe 2)),
      .event (.moduleUnload 4 true)]
    ∀ i, (({registered policy with bindings := b}.after idealServices sourceMethod policy
      later).receive policy i).1 =
        (((registered policy).after idealServices sourceMethod policy later).receive policy
          i).1 := by
  obtain ⟨policy,hpolicy,h⟩ := (any_eq_true _ _).mp (by decide +kernel :
    (initializePolicy sourceMethod).any (fun policy =>
      !(registered policy).bindings.observed.contains 7 &&
      (onePacket .booleanSource 2).packet.any fun c =>
        ((registered policy).bindings.accept c 4 policy).1 == some .invalidBooleanSource &&
          ((registered policy).bindings.accept c 4 policy).2.observed.contains 7))
  obtain ⟨hnone,h⟩ := Bool.and_eq_true_iff.mp h
  obtain ⟨c,hc,h⟩ := (any_eq_true _ _).mp h
  obtain ⟨herror,hentry⟩ := Bool.and_eq_true_iff.mp h
  have hacc : (registered policy).bindings.accept c 4 policy = (some .invalidBooleanSource,_) :=
    Prod.ext (eq_of_beq herror) rfl
  refine ⟨policy,c,_,hpolicy,hc,hacc,hentry,?_,?_⟩
  · intro hmem
    rw [Std.TreeMap.contains_iff_mem.mpr hmem] at hnone
    cases hnone
  · intro later
    exact (rejected_packet_inert hacc later).1

end ManagedRuntimeState
end S2E
