import S2E.Core.Executor

/-!
`S2EExecutor::doFork`: forking under the vetoes and preferences of plugins, and
`forkAndConcretize`, which relies on it.
-/

namespace S2E
open Option Executor ExecutionState S2E.Expr

inductive StateForkPreference where
  | none | followCurrent | forceTrue | forceFalse
  deriving DecidableEq

def StateForkPreference.forced : StateForkPreference → Option Bool
  | .forceTrue => some true
  | .forceFalse => some false
  | _ => Option.none

/-- What the handlers of `onStateForkDecide` and `onStateForkSelect` leave in their
arguments, when they are called. -/
structure Plugins where
  forkOk : Bool
  preference : StateForkPreference

namespace S2EExecutor

def asked : Option Expr → Bool
  | some c => !c.isConstant
  | none => true

def forkOk (plugins : Plugins) (condition : Option Expr) : Bool :=
  !asked condition || plugins.forkOk

def forkPreference (plugins : Plugins) (current : ExecutionState) (condition : Option Expr) :
    StateForkPreference :=
  if condition.isSome && asked condition && plugins.forkOk && !current.forkDisabled then
    plugins.preference
  else .none

variable {σ : Type} (svc : Services σ)

def restore (oldForkStatus : Bool) (o : ForkOutcome) : ForkOutcome :=
  {o with current := {o.current with forkDisabled := oldForkStatus}}

/-- The call of `Executor::fork`, with forking disabled for its duration if it is not
allowed. -/
def callFork (current : ExecutionState) (condition : Option Expr) (keep forkOk : Bool) (s : σ) :
    Option (ForkOutcome × σ) :=
  let state := {current with forkDisabled := current.forkDisabled || !forkOk}
  match condition with
  | some c => (fork svc state c keep s).map fun (o,s) =>
      (restore current.forkDisabled o,s)
  | none => some (restore current.forkDisabled (forkUnconditional state),s)

def selected (condition : Expr) (takeTrue : Bool) : Expr :=
  if takeTrue then condition else NotExpr.create condition

def doFork (plugins : Plugins) (current : ExecutionState) (condition : Option Expr) (keep : Bool)
    (s : σ) : Option (ForkOutcome × σ) :=
  let forkOk := forkOk plugins condition
  let preference := forkPreference plugins current condition
  match condition, preference.forced with
  | some c, some takeTrue => do
    match ← current.addConstraint svc (selected c takeTrue) true s with
    | (true,current,s) => some (.oneSided current takeTrue,s)
    | (false,current,s) => callFork svc current condition keep forkOk s
  | _, _ => callFork svc current condition keep (forkOk && preference != .followCurrent) s

/-- `forkAndConcretize`: the concrete value and the states. The current state has to be the
one where the value is the concrete one. -/
def forkAndConcretize (plugins : Plugins) (state : ExecutionState) (value : Expr) (s : σ) :
    Option (Expr × ForkOutcome × σ) := do
  let (concreteValue,state) ← state.toConstantSilent value
  let condition ← EqExpr.create concreteValue value
  let (sp,s) ← doFork svc plugins state (some condition) false s
  if sp.pair.first = some .current then some (concreteValue,sp,s) else none

variable {svc}

lemma covers_restore {o : ForkOutcome} {side : Option StateRef} {P : Assignment → Prop}
    (old : Bool) (h : o.Covers side P) : (restore old o).Covers side P := by
  cases side with
  | none => exact h
  | some r =>
    obtain ⟨hex,st,hst,hm⟩ := h
    cases r with
    | current =>
      cases some.inj hst
      exact ⟨hex,_,rfl,hm⟩
    | branched => exact ⟨hex,st,hst,hm⟩

variable {st : ExecutionState}

lemma forked_restore {c : Expr} {keep : Bool} {o : ForkOutcome}
    (old : Bool) (h : Forked st c keep o) : Forked st c keep (restore old o) :=
  ⟨⟨covers_restore old h.partition.first,covers_restore old h.partition.second,
    h.partition.current⟩,h.keep⟩

lemma ok_forkDisabled (h : st.Ok) (b : Bool) :
    Ok {st with forkDisabled := b} := ⟨h.fits,h.meaningful⟩

section
variable {st : ExecutionState} {c : Expr} (hsvc : svc.Sound) (hok : st.Ok)
  (hc : Admissible st.symbolics st.constraints c) (hw : c.width = 1)

include hsvc hok hc hw

lemma fork_disabled (hdis : st.forkDisabled) (keep : Bool) (s : σ) :
    ∃ cur s', fork svc st c keep s =
        some (.oneSided cur (decide (c.eval st.concolics.assignment = 1)),s') ∧
      Followed st c (decide (c.eval st.concolics.assignment = 1)) cur := by
  cases hconst : (svc.simplify c s).1.isConstant with
  | true =>
    obtain ⟨isTrue,s',hf,hall⟩ := fork_constant hsvc hc hw hconst keep
    have ht := hall _ hok.fits.satisfies
    rw [ht]
    exact ⟨st,s',hf,hok,rfl,rfl,fun a => ⟨fun ha => ⟨ha,fun _ => hall a ha⟩,And.left⟩⟩
  | false =>
    obtain ⟨concolics,hun,hf⟩ := fork_symbolic hsvc hok hc hw hconst keep
    obtain ⟨cur,s',hfo,hfd⟩ := follow_spec hsvc (hun.ok hok) hc hw
      (hsvc.simplify c s hc.wf) (hun.side c) (svc.simplify c s).2
    rw [if_pos hdis] at hf
    exact ⟨cur,s',hf.trans hfo,hfd.ok,hfd.symbolics,hfd.forkDisabled,hfd.models⟩

lemma callFork_disabled {forkOk : Bool} (hdis : (st.forkDisabled || !forkOk))
    (keep : Bool) (s : σ) : ∃ cur s', callFork svc st (some c) keep forkOk s =
        some (.oneSided cur (decide (c.eval st.concolics.assignment = 1)),s') ∧
      Followed st c (decide (c.eval st.concolics.assignment = 1)) cur := by
  obtain ⟨cur,s',hf,hfd⟩ := fork_disabled hsvc
    (ok_forkDisabled hok (st.forkDisabled || !forkOk)) hc hw hdis keep s
  refine ⟨{cur with forkDisabled := st.forkDisabled},s',?_,
    ok_forkDisabled hfd.ok _,hfd.symbolics,rfl,hfd.models⟩
  simp only [callFork,hf]
  rfl

lemma callFork_enabled {forkOk : Bool} (hdis : (st.forkDisabled || !forkOk) = false)
    (keep : Bool) (s : σ) :
    (ForkSafe svc st c keep s ∧ ∃ o s', callFork svc st (some c) keep forkOk s =
      some (o,s') ∧ Forked st c keep o ∧ o.current.forkDisabled = st.forkDisabled ∧
      (c.eval st.concolics.assignment = 1 → o.pair.first = some .current)) ∨
    ¬ForkSafe svc st c keep s ∧ callFork svc st (some c) keep forkOk s = none := by
  rcases fork_spec hsvc (ok_forkDisabled hok (st.forkDisabled || !forkOk)) hc hw hdis keep
    s with ⟨hsafe,o,s',ho,hf,-,hfirst⟩ | ⟨hsafe,hn⟩
  · refine .inl ⟨hsafe,restore st.forkDisabled o,s',?_,?_,rfl,hfirst⟩
    · simp only [callFork,ho]
      rfl
    · exact forked_restore _ ⟨⟨hf.partition.first,hf.partition.second,hf.partition.current⟩,
        hf.keep⟩
  · refine .inr ⟨hsafe,?_⟩
    simp only [callFork,hn]
    rfl

end

def Feasible (st : ExecutionState) (c : Expr) (side : Bool) : Prop :=
  ∃ a : Assignment, a.Satisfies st.constraints ∧ decide (c.eval a = 1) = side

lemma selected_spec {symbolics : List ArrayObj} {C : List Expr} {c : Expr}
    (hc : Admissible symbolics C c) (hw : c.width = 1) (takeTrue : Bool) :
    Admissible symbolics C (selected c takeTrue) ∧ (selected c takeTrue).width = 1 ∧
      ∀ a : Assignment, a.Satisfies C →
        ((selected c takeTrue).eval a = 1 ↔ decide (c.eval a = 1) = takeTrue) := by
  cases takeTrue with
  | true => exact ⟨hc,hw,fun a _ => by simp [selected]⟩
  | false =>
    have hn := NotExpr.create_refines hc.wf
    have hdef : ∀ a : Assignment, a.Satisfies C → (not c).Defined (.over symbolics) a true :=
      hc.defined
    refine ⟨⟨hn.wf,fun a ha => hn.defined a true (hdef a ha)⟩,hn.width.trans hw,fun a ha => ?_⟩
    have hev : (selected c false).eval a = (not c).eval a := hn.eval a (hdef a ha)
    rw [hev,eval,hw]
    rcases c.eval_bool a hc.wf hw with h0 | h0 <;> simp [h0]

variable {takeTrue : Bool}

section
variable {st : ExecutionState} {c : Expr} (hsvc : svc.Sound) (hok : st.Ok)
  (hc : Admissible st.symbolics st.constraints c) (hw : c.width = 1)

include hsvc hok hc hw

lemma force_feasible (hf : Feasible st c takeTrue) (s : σ) :
    ∃ st' s', st.addConstraint svc (selected c takeTrue) true s = some (true,st',s') ∧
      st.Extended st' (selected c takeTrue) := by
  obtain ⟨hsel,hselw,hiff⟩ := selected_spec hc hw takeTrue
  obtain ⟨a,ha,hside⟩ := hf
  have hex : ∃ a : Assignment, a.Satisfies st.constraints ∧ (selected c takeTrue).eval a = 1 :=
    ⟨a,ha,(hiff a ha).mpr hside⟩
  rcases addConstraint_spec hsvc hok hsel hselw true s with
    ⟨added,st',s',h,hout⟩ | ⟨-,-,-,hrej⟩
  · have hadded := hout.added_iff.mpr (.inr ⟨rfl,hex⟩)
    subst hadded
    exact ⟨st',s',h,hout.extended rfl⟩
  -- a constraint with a false conjunct has no model
  have hr := hsvc.simplify (selected c takeTrue) s hsel.wf
  simp only [rejects,Bool.and_eq_true] at hrej
  have h1 := (hiff a ha).mpr hside
  rw [← hr.eval a (hsel.defined a ha),
    Expr.Boolean.eval_iff_conjuncts ⟨hr.wf,hr.width.trans hselw⟩,hrej.2] at h1
  cases h1.1

lemma force_infeasible (hf : ¬Feasible st c takeTrue) (s : σ) :
    (∃ st' s', st.addConstraint svc (selected c takeTrue) true s = some (false,st',s') ∧
      st.Unchanged st') ∨ st.addConstraint svc (selected c takeTrue) true s = none := by
  obtain ⟨hsel,hselw,hiff⟩ := selected_spec hc hw takeTrue
  have hnone : ∀ a : Assignment, a.Satisfies st.constraints →
      ¬(selected c takeTrue).eval a = 1 := fun a ha h1 => hf ⟨a,ha,(hiff a ha).mp h1⟩
  rcases addConstraint_spec hsvc hok hsel hselw true s with
    ⟨added,st',s',h,hout⟩ | ⟨h,-⟩
  · cases added with
    | false => exact .inl ⟨st',s',h,hout.unchanged rfl⟩
    | true =>
      rcases hout.added_iff.mp rfl with h1 | ⟨-,a,ha,h1⟩
      · exact absurd h1 (hnone _ hok.fits.satisfies)
      · exact absurd h1 (hnone a ha)
  · exact .inr h

end

def requested (plugins : Plugins) (st : ExecutionState) (c : Expr) : Option Bool :=
  (forkPreference plugins st (some c)).forced

/-- What holds of every outcome of `doFork`. A request that cannot be met is as good as none,
from a state that differs in what the evaluator remembers. -/
structure Returned (svc : Services σ) (plugins : Plugins) (st : ExecutionState) (c : Expr)
    (keep : Bool) (o : ForkOutcome) (s' : σ) : Prop where
  forkDisabled : o.current.forkDisabled = st.forkDisabled
  veto : forkOk plugins (some c) = false → o.branched = none
  infeasible : ∀ takeTrue, requested plugins st c = some takeTrue → ¬Feasible st c takeTrue →
    ∃ st1 s1, st.Unchanged st1 ∧
      doFork svc {plugins with preference := .none} st1 (some c) keep s1 = some (o,s')

structure Contract (svc : Services σ) (plugins : Plugins) (st : ExecutionState) (c : Expr)
    (keep : Bool) (o : ForkOutcome) (s' : σ) : Prop
    extends Returned svc plugins st c keep o s' where
  keeps : keep = true → Feasible st c true → st.forkDisabled = false →
    forkOk plugins (some c) = true → o.pair.first = some .current

/-- A forced side does not contradict `keep`, nor does following the concrete values, and
where `Executor::fork` is called it is safe. -/
def DoForkSafe (svc : Services σ) (plugins : Plugins) (st : ExecutionState) (c : Expr)
    (keep : Bool) (s : σ) : Prop :=
  match requested plugins st c with
  | some takeTrue =>
    (Feasible st c takeTrue → takeTrue = true ∨ keep = false ∨ ¬Feasible st c true) ∧
    (¬Feasible st c takeTrue → ∃ st' s', st.addConstraint svc (selected c takeTrue) true s =
      some (false,st',s') ∧ Executor.ForkSafe svc st' c keep s')
  | none =>
    if (st.forkDisabled || !forkOk plugins (some c)) = true then True
    else if forkPreference plugins st (some c) = .followCurrent then
      keep = true → Feasible st c true → c.eval st.concolics.assignment = 1
    else Executor.ForkSafe svc st c keep s

lemma allowed_of_preference {plugins : Plugins} {c : Expr}
    (h : forkPreference plugins st (some c) ≠ .none) :
    st.forkDisabled = false ∧ forkOk plugins (some c) := by
  unfold forkPreference at h
  split at h
  next hall =>
    simp only [Bool.and_eq_true,Bool.not_eq_true'] at hall
    exact ⟨hall.2,by simp [forkOk,hall.1.2]⟩
  · exact absurd rfl h

lemma allowed_of_requested {plugins : Plugins} {c : Expr}
    (h : requested plugins st c = some takeTrue) :
    st.forkDisabled = false ∧ forkOk plugins (some c) := by
  refine allowed_of_preference fun hp => ?_
  rw [requested,hp] at h
  cases h

lemma doFork_some (svc : Services σ) (plugins : Plugins) (st : ExecutionState) (c : Expr)
    (keep : Bool) (s : σ) :
    doFork svc plugins st (some c) keep s =
      match requested plugins st c with
      | some takeTrue => do
        match ← st.addConstraint svc (selected c takeTrue) true s with
        | (true,current,s) => some (.oneSided current takeTrue,s)
        | (false,current,s) => callFork svc current (some c) keep (forkOk plugins (some c)) s
      | none => callFork svc st (some c) keep
          (forkOk plugins (some c) && forkPreference plugins st (some c) != .followCurrent) s := by
  cases h : (forkPreference plugins st (some c)).forced with
  | none => simp only [doFork,requested,h]
  | some takeTrue => simp only [doFork,requested,h]

lemma doFork_no_preference (svc : Services σ) (plugins : Plugins) (st : ExecutionState)
    (c : Expr) (keep : Bool) (s : σ) :
    doFork svc {plugins with preference := .none} st (some c) keep s =
      callFork svc st (some c) keep (forkOk plugins (some c)) s := by
  have hp : forkPreference {plugins with preference := .none} st (some c) = .none := by
    simp [forkPreference]
  have hne : (StateForkPreference.none != .followCurrent) := rfl
  rw [doFork_some,requested,hp,hne,Bool.and_true]
  rfl

lemma feasible_true_iff {c : Expr} :
    Feasible st c true ↔ ∃ a : Assignment, a.Satisfies st.constraints ∧ c.eval a = 1 := by
  simp [Feasible]

section
variable {st : ExecutionState} {c : Expr} (hsvc : svc.Sound) (hok : st.Ok)
  (hc : Admissible st.symbolics st.constraints c) (hw : c.width = 1) (plugins : Plugins)
  (keep : Bool) (s : σ)

include hsvc hok hc hw

lemma callFork_returned {forkOk : Bool} {o : ForkOutcome} {s' : σ}
    (h : callFork svc st (some c) keep forkOk s = some (o,s')) :
    o.current.forkDisabled = st.forkDisabled ∧ (forkOk = false → o.branched = none) := by
  cases hdis : st.forkDisabled || !forkOk with
  | true =>
    obtain ⟨cur,s1,hcall,hfd⟩ := callFork_disabled hsvc hok hc hw hdis keep s
    rw [hcall] at h
    cases some.inj h
    exact ⟨hfd.forkDisabled,fun _ => rfl⟩
  | false =>
    rcases callFork_enabled hsvc hok hc hw hdis keep s with ⟨-,o1,s1,hcall,-,hd,-⟩ | ⟨-,hn⟩
    · rw [hcall] at h
      cases some.inj h
      refine ⟨hd,fun hv => ?_⟩
      simp [hv] at hdis
    · rw [hn] at h
      cases h

lemma doFork_returned {o : ForkOutcome} {s' : σ}
    (h : doFork svc plugins st (some c) keep s = some (o,s')) :
    Returned svc plugins st c keep o s' := by
  rw [doFork_some] at h
  cases hreq : requested plugins st c with
  | none =>
    rw [hreq] at h
    obtain ⟨hd,hb⟩ := callFork_returned hsvc hok hc hw keep s h
    exact ⟨hd,fun hv => hb (by simp [hv]),by simp [hreq]⟩
  | some takeTrue =>
    obtain ⟨-,hforkOk⟩ := allowed_of_requested hreq
    simp only [hreq,bind_eq_bind] at h
    by_cases hf : Feasible st c takeTrue
    · obtain ⟨st',s1,hadd,hext⟩ := force_feasible hsvc hok hc hw hf s
      simp only [hadd,bind_some] at h
      cases some.inj h
      refine ⟨hext.forkDisabled,fun _ => rfl,fun side hside hnf => ?_⟩
      rw [hreq] at hside
      cases some.inj hside
      exact absurd hf hnf
    · rcases force_infeasible hsvc hok hc hw hf s with ⟨st',s1,hadd,hun⟩ | hadd
      · simp only [hadd,bind_some] at h
        obtain ⟨hd,hb⟩ := callFork_returned hsvc (hun.ok hok) (hun.admissible hc) hw keep s1 h
        exact ⟨hd.trans hun.forkDisabled,hb,fun _ _ _ =>
          ⟨st',s1,hun,(doFork_no_preference svc plugins st' c keep s1).trans h⟩⟩
      · simp only [hadd,bind_none] at h
        cases h

lemma doFork_requested (hreq : requested plugins st c = some takeTrue) :
    (∃ o s', doFork svc plugins st (some c) keep s = some (o,s') ∧
      Contract svc plugins st c keep o s') ↔ DoForkSafe svc plugins st c keep s := by
  obtain ⟨hdis,hforkOk⟩ := allowed_of_requested hreq
  have hret := @doFork_returned σ svc st c hsvc hok hc hw plugins keep s
  rw [doFork_some] at hret ⊢
  rw [DoForkSafe]
  simp only [hreq,bind_eq_bind] at hret ⊢
  by_cases hf : Feasible st c takeTrue
  · obtain ⟨st',s',hadd,-⟩ := force_feasible hsvc hok hc hw hf s
    simp only [hadd,bind_some] at hret ⊢
    simp only [hf,forall_const,not_true_eq_false,false_implies,and_true]
    constructor
    · rintro ⟨o,s1,ho,hcon⟩
      cases some.inj ho
      by_contra hn
      simp only [not_or,Bool.not_eq_true,Bool.not_eq_false,not_not] at hn
      have := hcon.keeps hn.2.1 hn.2.2 hdis hforkOk
      simp [ForkOutcome.oneSided,hn.1] at this
    · intro hcond
      refine ⟨_,s',rfl,hret rfl,fun hk hft _ _ => ?_⟩
      rcases hcond with ht | hk' | hnf
      · simp [ForkOutcome.oneSided,ht]
      · rw [hk] at hk'
        cases hk'
      · exact absurd hft hnf
  · simp only [hf,false_implies,not_false_eq_true,forall_const,true_and]
    rcases force_infeasible hsvc hok hc hw hf s with ⟨st',s',hadd,hun⟩ | hadd
    · have hdis' : (st'.forkDisabled || !forkOk plugins (some c)) = false := by
        rw [hun.forkDisabled,hdis,hforkOk]
        rfl
      simp only [hadd,bind_some] at hret ⊢
      rcases callFork_enabled hsvc (hun.ok hok) (hun.admissible hc) hw hdis' keep s' with
        ⟨hsafe,o,s1,ho,hforked,-⟩ | ⟨hsafe,hn⟩
      · refine ⟨fun _ => ⟨st',s',rfl,hsafe⟩,fun _ => ⟨o,s1,ho,hret ho,fun hk hft _ _ => ?_⟩⟩
        rw [feasible_true_iff,← hun.constraints] at hft
        exact hforked.keep hk hft
      · constructor
        · rintro ⟨o,s1,ho,-⟩
          rw [hn] at ho
          cases ho
        · rintro ⟨st1,s1,heq,hs⟩
          cases some.inj heq
          exact absurd hs hsafe
    · simp [hadd]

lemma doFork_not_requested (hreq : requested plugins st c = none) :
    (∃ o s', doFork svc plugins st (some c) keep s = some (o,s') ∧
      Contract svc plugins st c keep o s') ↔ DoForkSafe svc plugins st c keep s := by
  have hret := @doFork_returned σ svc st c hsvc hok hc hw plugins keep s
  rw [doFork_some] at hret ⊢
  rw [DoForkSafe]
  simp only [hreq] at hret ⊢
  by_cases hdis : (st.forkDisabled || !forkOk plugins (some c))
  · have hd : (st.forkDisabled || !(forkOk plugins (some c) &&
        forkPreference plugins st (some c) != .followCurrent)) := by
      revert hdis
      cases st.forkDisabled <;> cases forkOk plugins (some c) <;> simp
    obtain ⟨cur,s',hcall,-⟩ := callFork_disabled hsvc hok hc hw hd keep s
    rw [if_pos hdis]
    refine ⟨fun _ => trivial,fun _ => ⟨_,s',hcall,hret hcall,fun _ _ h1 h2 => ?_⟩⟩
    simp [h1,h2] at hdis
  · rw [if_neg hdis]
    rw [Bool.not_eq_true,Bool.or_eq_false_iff,Bool.not_eq_false'] at hdis
    by_cases hfollow : forkPreference plugins st (some c) = .followCurrent
    · rw [if_pos hfollow]
      have hd : (st.forkDisabled || !(forkOk plugins (some c) &&
          forkPreference plugins st (some c) != .followCurrent)) := by simp [hfollow]
      obtain ⟨cur,s',hcall,-⟩ := callFork_disabled hsvc hok hc hw hd keep s
      constructor
      · rintro ⟨o,s1,ho,hcon⟩ hk hft
        rw [hcall] at ho
        cases some.inj ho
        have hfirst := hcon.keeps hk hft hdis.1 hdis.2
        by_contra hne
        simp [ForkOutcome.oneSided,hne] at hfirst
      · intro hcond
        refine ⟨_,s',hcall,hret hcall,fun hk hft _ _ => ?_⟩
        simp [ForkOutcome.oneSided,hcond hk hft]
    · rw [if_neg hfollow]
      have hd : (st.forkDisabled || !(forkOk plugins (some c) &&
          forkPreference plugins st (some c) != .followCurrent)) = false := by
        simp [hdis.1,hdis.2,hfollow]
      rcases callFork_enabled hsvc hok hc hw hd keep s with
        ⟨hsafe,o,s',ho,hforked,-⟩ | ⟨hsafe,hn⟩
      · exact ⟨fun _ => hsafe,fun _ => ⟨o,s',ho,hret ho,
          fun hk hft _ _ => hforked.keep hk (feasible_true_iff.mp hft)⟩⟩
      refine ⟨?_,fun h => absurd h hsafe⟩
      rintro ⟨o,s1,ho,-⟩
      rw [hn] at ho
      cases ho

lemma doFork_contract_iff : (∃ o s', doFork svc plugins st (some c) keep s = some (o,s') ∧
      Contract svc plugins st c keep o s') ↔ DoForkSafe svc plugins st c keep s := by
  cases hreq : requested plugins st c with
  | none => exact doFork_not_requested hsvc hok hc hw plugins keep s hreq
  | some takeTrue => exact doFork_requested hsvc hok hc hw plugins keep s hreq

end

lemma concretize_condition (hok : st.Ok) {value : Expr}
    (hv : Admissible st.symbolics st.constraints value) :
    ∃ v st1 d, st.toConstantSilent value = some (.constant v,st1) ∧ st.Unchanged st1 ∧
      EqExpr.create (.constant v) value = some d ∧ Admissible st.symbolics st.constraints d ∧
      d.width = 1 ∧ d.eval st.concolics.assignment = 1 ∧
      ∀ a : Assignment, a.Satisfies st.constraints → (d.eval a = 1 ↔ value.eval a = v.value) := by
  obtain ⟨concolics,hev,hun⟩ := hok.evaluate hv
  obtain ⟨d,hd,hadm,hw,hiff⟩ := equal_spec
    (admissible_constant hv.wf (value.eval st.concolics.assignment)) hv rfl
  have hval : ∀ b : Assignment, (value.value st.concolics.assignment).eval b =
      value.eval st.concolics.assignment := fun b => eval_value b hv.wf
  refine ⟨APInt.ofNat value.width (value.eval st.concolics.assignment), {st with concolics},d,
    ?_,hun,hd,hadm,hw,(hiff _ hok.fits.satisfies).mpr (hval _),fun a ha => ?_⟩
  · simp [toConstantSilent,hev,Expr.value,ConstantExpr.alloc,Expr.isConstant]
  · rw [hiff a ha,eq_comm]
    rfl

def ConcretizeSafe (svc : Services σ) (plugins : Plugins) (st : ExecutionState) (c : Expr)
    (s : σ) : Prop :=
  (requested plugins st c = some false → ¬Feasible st c false) ∧ DoForkSafe svc plugins st c false s

section
variable {st : ExecutionState} {c : Expr} (hsvc : svc.Sound) (hok : st.Ok)
  (hc : Admissible st.symbolics st.constraints c) (hw : c.width = 1)
  (htrue : c.eval st.concolics.assignment = 1)
  (hadd : st.addConstraintWhenForkingDisabled = true) (plugins : Plugins) (s : σ)

include hsvc hok hc hw htrue hadd

lemma callFork_first {forkOk : Bool} {o : ForkOutcome} {s' : σ}
    (h : callFork svc st (some c) false forkOk s = some (o,s')) : o.pair.first = some .current ∧
      ∀ a : Assignment, a.Satisfies o.current.constraints →
        a.Satisfies st.constraints ∧ c.eval a = 1 := by
  cases hdis : st.forkDisabled || !forkOk with
  | true =>
    obtain ⟨cur,s1,hcall,hfd⟩ := callFork_disabled hsvc hok hc hw hdis false s
    rw [hcall] at h
    cases some.inj h
    refine ⟨by simp [ForkOutcome.oneSided,htrue],fun a ha => ?_⟩
    obtain ⟨hsat,h1⟩ := (hfd.models a).mp ha
    rw [decide_eq_true htrue] at h1
    exact ⟨hsat,of_decide_eq_true (h1 hadd)⟩
  | false =>
    rcases callFork_enabled hsvc hok hc hw hdis false s with
      ⟨-,o1,s1,hcall,hforked,-,hfirst⟩ | ⟨-,hn⟩
    · rw [hcall] at h
      cases some.inj h
      refine ⟨hfirst htrue,fun a ha => ?_⟩
      have hcov := hforked.partition.first
      rw [hfirst htrue] at hcov
      obtain ⟨-,cur,hcur,hm⟩ := hcov
      cases some.inj hcur
      exact (hm a).mp ha
    · rw [hn] at h
      cases h

lemma doFork_first (hside : requested plugins st c = some false → ¬Feasible st c false)
    {o : ForkOutcome} {s' : σ} (h : doFork svc plugins st (some c) false s = some (o,s')) :
    o.pair.first = some .current ∧ ∀ a : Assignment, a.Satisfies o.current.constraints →
        a.Satisfies st.constraints ∧ c.eval a = 1 := by
  rw [doFork_some] at h
  cases hreq : requested plugins st c with
  | none =>
    rw [hreq] at h
    exact callFork_first hsvc hok hc hw htrue hadd s h
  | some takeTrue =>
    simp only [hreq,bind_eq_bind] at h
    by_cases hf : Feasible st c takeTrue
    · obtain ⟨st',s1,hforce,hext⟩ := force_feasible hsvc hok hc hw hf s
      cases takeTrue with
      | false => exact absurd hf (hside hreq)
      | true =>
        simp only [hforce,bind_some] at h
        cases some.inj h
        exact ⟨rfl,fun a ha => (hext.models a).mp ha⟩
    · rcases force_infeasible hsvc hok hc hw hf s with ⟨st',s1,hforce,hun⟩ | hforce
      · simp only [hforce,bind_some] at h
        have := callFork_first hsvc (hun.ok hok) (hun.admissible hc) hw
          (by rw [hun.assignment]; exact htrue)
          (by rw [hun.addConstraintWhenForkingDisabled]; exact hadd) s1 h
        rwa [hun.constraints] at this
      · simp only [hforce,bind_none] at h
        cases h

omit htrue hadd in
lemma doFork_other_side (hreq : requested plugins st c = some false) (hf : Feasible st c false)
    (keep : Bool) :
    ∃ st' s', doFork svc plugins st (some c) keep s = some (.oneSided st' false,s') := by
  obtain ⟨st',s',hforce,-⟩ := force_feasible hsvc hok hc hw hf s
  refine ⟨st',s',?_⟩
  rw [doFork_some,hreq]
  simp [hforce]

lemma doFork_first_iff : (∃ o s', doFork svc plugins st (some c) false s = some (o,s') ∧
      o.pair.first = some .current) ↔ ConcretizeSafe svc plugins st c s := by
  have hsafe : (∃ o s', doFork svc plugins st (some c) false s = some (o,s')) ↔
      DoForkSafe svc plugins st c false s := by
    rw [← doFork_contract_iff hsvc hok hc hw plugins false s]
    exact exists_congr fun o => exists_congr fun s' =>
      (and_iff_left_of_imp fun h => ⟨doFork_returned hsvc hok hc hw plugins false s h,nofun⟩).symm
  rw [ConcretizeSafe,← hsafe]
  constructor
  · rintro ⟨o,s',ho,hfirst⟩
    refine ⟨fun hreq hf => ?_,o,s',ho⟩
    obtain ⟨st',s1,h⟩ := doFork_other_side hsvc hok hc hw plugins s hreq hf false
    rw [h] at ho
    cases some.inj ho
    cases hfirst
  · rintro ⟨hside,o,s',ho⟩
    exact ⟨o,s',ho,(doFork_first hsvc hok hc hw htrue hadd plugins s hside ho).1⟩

end

lemma forkAndConcretize_iff (hsvc : svc.Sound) (hok : st.Ok)
    {value : Expr} (hv : Admissible st.symbolics st.constraints value)
    (hadd : st.addConstraintWhenForkingDisabled) (plugins : Plugins) (s : σ) :
    ∃ v st1 d, st.toConstantSilent value = some (.constant v,st1) ∧ st.Unchanged st1 ∧
      EqExpr.create (.constant v) value = some d ∧
      ((∃ o s', forkAndConcretize svc plugins st value s = some (.constant v,o,s') ∧
          o.pair.first = some .current ∧
          ∀ a : Assignment, a.Satisfies o.current.constraints → value.eval a = v.value) ↔
        ConcretizeSafe svc plugins st1 d s) := by
  obtain ⟨v,st1,d,hst,hun,hd,hdadm,hdw,htrue,hiff⟩ := concretize_condition hok hv
  have htrue1 : d.eval st1.concolics.assignment = 1 := by rw [hun.assignment]; exact htrue
  have hadd1 : st1.addConstraintWhenForkingDisabled := by
    rw [hun.addConstraintWhenForkingDisabled]
    exact hadd
  have hfac : ∀ o s', forkAndConcretize svc plugins st value s = some (.constant v,o,s') ↔
      doFork svc plugins st1 (some d) false s = some (o,s') ∧ o.pair.first = some .current := by
    intro o s'
    simp only [forkAndConcretize,hst,hd,bind_eq_bind,bind_some]
    cases doFork svc plugins st1 (some d) false s with
    | none => simp
    | some p =>
      obtain ⟨sp,s1⟩ := p
      by_cases hfirst : sp.pair.first = some .current
      · simp only [bind_some,hfirst,if_true,some.injEq,Prod.mk.injEq,true_and]
        exact ⟨fun h => ⟨h,h.1 ▸ hfirst⟩,And.left⟩
      simp only [bind_some,hfirst,if_false,false_iff,some.injEq,Prod.mk.injEq,reduceCtorEq]
      rintro ⟨⟨rfl,-⟩,h⟩
      exact hfirst h
  refine ⟨v,st1,d,hst,hun,hd,?_⟩
  have hfirst := doFork_first_iff hsvc (hun.ok hok) (hun.admissible hdadm) hdw htrue1 hadd1
    plugins s
  rw [← hfirst]
  constructor
  · rintro ⟨o,s',ho,-⟩
    exact ⟨o,s',(hfac o s').mp ho⟩
  · rintro ⟨o,s',ho,hof⟩
    refine ⟨o,s',(hfac o s').mpr ⟨ho,hof⟩,hof,fun a ha => ?_⟩
    obtain ⟨hsat,h1⟩ := (doFork_first hsvc (hun.ok hok) (hun.admissible hdadm) hdw htrue1 hadd1
      plugins s (hfirst.mp ⟨o,s',ho,hof⟩).1 ho).2 a ha
    rw [hun.constraints] at hsat
    exact (hiff a hsat).mp h1

/-- When forking under plugins does what the callers rely on: on a condition, without one,
and to concretize a value. -/
theorem doFork_contracts_iff (hsvc : svc.Sound) {st : ExecutionState} (hok : st.Ok)
    (plugins : Plugins) (s : σ) :
    (∀ (c : Expr) (keep : Bool), Admissible st.symbolics st.constraints c → c.width = 1 →
      ((∃ o s', doFork svc plugins st (some c) keep s = some (o,s') ∧
        Contract svc plugins st c keep o s') ↔ DoForkSafe svc plugins st c keep s)) ∧
    (∀ keep : Bool, ∃ o, doFork svc plugins st none keep s = some (o,s) ∧
      o.current.forkDisabled = st.forkDisabled ∧
      (plugins.forkOk = false → o.branched = none)) ∧
    (∀ value : Expr, Admissible st.symbolics st.constraints value →
      st.addConstraintWhenForkingDisabled = true →
      ∃ v st1 d, st.toConstantSilent value = some (.constant v,st1) ∧ st.Unchanged st1 ∧
        EqExpr.create (.constant v) value = some d ∧
        ((∃ o s', forkAndConcretize svc plugins st value s = some (.constant v,o,s') ∧
            o.pair.first = some .current ∧
            ∀ a : Assignment, a.Satisfies o.current.constraints → value.eval a = v.value) ↔
          ConcretizeSafe svc plugins st1 d s)) :=
  ⟨fun _ keep hc hw => doFork_contract_iff hsvc hok hc hw plugins keep s,
    fun keep => ⟨_,rfl,rfl,fun hv => by
      simp [restore,forkUnconditional,forkOk,asked,hv,ForkOutcome.oneSided]⟩,
    fun _ hv hadd => forkAndConcretize_iff hsvc hok hv hadd plugins s⟩

open Executor (probeState probeByte probeIs probeState_ok probeByte_defined probeIs_defined)

lemma probe_satisfies (a : Assignment) : a.Satisfies probeState.constraints :=
  nofun

lemma probe_feasible (side : Bool) : Feasible probeState (probeIs 0) side := by
  cases side with
  | true => exact ⟨fun _ _ => 0,probe_satisfies _,by decide⟩
  | false => exact ⟨fun _ _ => 1,probe_satisfies _,by decide⟩

theorem doFork_forceTrue_probe :
    ∃ o s', doFork idealServices ⟨true,.forceTrue⟩ probeState (some (probeIs 0)) true () =
        some (o,s') ∧
      Contract idealServices ⟨true,.forceTrue⟩ probeState (probeIs 0) true o s' :=
  ((doFork_contracts_iff idealServices_sound probeState_ok ⟨true,.forceTrue⟩ ()).1 (probeIs 0) true
    ⟨by decide,fun a _ => probeIs_defined 0 a⟩ rfl).mpr
    ⟨fun _ => .inl rfl,fun h => absurd (probe_feasible true) h⟩

/-- A plugin asks for the false side: the condition is not kept, and `forkAndConcretize` fails. -/
theorem doFork_forceFalse_fails :
    idealServices.Sound ∧ probeState.Ok ∧ probeState.forkDisabled = false ∧
      probeState.addConstraintWhenForkingDisabled = true ∧
      Admissible probeState.symbolics probeState.constraints (probeIs 0) ∧
      Admissible probeState.symbolics probeState.constraints probeByte ∧
      Feasible probeState (probeIs 0) true ∧
      (∃ o s', doFork idealServices ⟨true,.forceFalse⟩ probeState (some (probeIs 0)) true () =
        some (o,s') ∧ o.pair.first = none) ∧
      forkAndConcretize idealServices ⟨true,.forceFalse⟩ probeState probeByte () = none := by
  have hadm : Admissible probeState.symbolics probeState.constraints (probeIs 0) :=
    ⟨by decide,fun a _ => probeIs_defined 0 a⟩
  have hbyte : Admissible probeState.symbolics probeState.constraints probeByte :=
    ⟨by decide,fun a _ => probeByte_defined a true⟩
  refine ⟨idealServices_sound,probeState_ok,rfl,rfl,hadm,hbyte,probe_feasible true,?_,?_⟩
  · obtain ⟨st',s',h⟩ := doFork_other_side idealServices_sound probeState_ok hadm rfl
      ⟨true,.forceFalse⟩ () rfl (probe_feasible false) true
    exact ⟨_,s',h,rfl⟩
  · obtain ⟨v,st1,d,hst,hun,hd,hdadm,hdw,htrue,hiff⟩ :=
      concretize_condition probeState_ok hbyte
    have hv : 0 = v.value := (hiff _ (probe_satisfies _)).mp htrue
    have hone : ¬d.eval (fun _ _ => 1) = 1 := by
      rw [hiff _ (probe_satisfies _),← hv]
      decide
    have hconst : d.isConstant = false := by
      cases d with
      | constant k => exact absurd htrue hone
      | _ => rfl
    have hreq : requested ⟨true,.forceFalse⟩ st1 d = some false := by
      have hp : probeState.forkDisabled = false := rfl
      simp [requested,forkPreference,asked,hconst,hun.forkDisabled,hp,
        StateForkPreference.forced]
    have hf : Feasible st1 d false := by
      refine ⟨fun _ _ => 1,?_,decide_eq_false hone⟩
      rw [hun.constraints]
      exact probe_satisfies _
    obtain ⟨st',s',h⟩ := doFork_other_side idealServices_sound (hun.ok probeState_ok)
      (hun.admissible hdadm) hdw ⟨true,.forceFalse⟩ () hreq hf false
    simp only [forkAndConcretize,hst,hd,h,bind_eq_bind,bind_some]
    rfl

end S2EExecutor
end S2E
