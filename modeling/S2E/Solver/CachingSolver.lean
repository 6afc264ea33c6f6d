import S2E.Solver.SolverImpl
import S2E.Core.ConstraintTrie

/-!
`CachingSolver`: the validities found so far, kept under the smaller of a query and its
negation.
-/

namespace S2E
open List Option

inductive PartialValidity where
  | mustBeTrue | mustBeFalse | mayBeTrue | mayBeFalse | trueOrFalse | none
  deriving DecidableEq, Repr

def negatePartialValidity : PartialValidity → Option PartialValidity
  | .mustBeTrue => some .mustBeFalse
  | .mustBeFalse => some .mustBeTrue
  | .mayBeTrue => some .mayBeFalse
  | .mayBeFalse => some .mayBeTrue
  | .trueOrFalse => some .trueOrFalse
  | .none => none

structure CachingSolver (M σ : Type) where
  cache : List ((M × Expr) × PartialValidity)
  solver : σ

namespace CachingSolver
section Code
variable {M σ : Type} [DecidableEq M] (less : Expr → Expr → Bool) (impl : SolverImpl M σ)

def canonicalizeQuery (originalQuery : Expr) : Option (Expr × Bool) := do
  let negatedQuery ← originalQuery.createIsZero
  if less originalQuery negatedQuery then some (originalQuery,false) else some (negatedQuery,true)

def orient (negationUsed : Bool) (pv : PartialValidity) : Option PartialValidity :=
  if negationUsed then negatePartialValidity pv else some pv

variable (st : CachingSolver M σ) (query : Query M)

def cacheLookup : Option (Option PartialValidity) := do
  let (canonicalQuery,negationUsed) ← canonicalizeQuery less query.expr
  match st.cache.lookup (query.constraints,canonicalQuery) with
  | some pv => (orient negationUsed pv).map some
  | none => some none

def cacheInsert (result : PartialValidity) : Option (CachingSolver M σ) := do
  let (canonicalQuery,negationUsed) ← canonicalizeQuery less query.expr
  let cachedResult ← orient negationUsed result
  if (st.cache.lookup (query.constraints,canonicalQuery)).isSome then some st
  else some {st with cache := ((query.constraints,canonicalQuery),cachedResult) :: st.cache}

def upgrade (query asked : Query M) (proved : PartialValidity)
    (answer : Validity) : Option (Option Validity × CachingSolver M σ) :=
  match impl.computeTruth asked st.solver with
  | (none,s) => some (none, {st with solver := s})
  | (some tmp,s) => do
    let st ← cacheInsert less {st with solver := s} query (if tmp then proved else .trueOrFalse)
    some (some (if tmp then answer else .unknown),st)

def computeValidity (st : CachingSolver M σ) (query : Query M) :
    Option (Option Validity × CachingSolver M σ) := do
  match ← cacheLookup less st query with
  | some .mustBeTrue => some (some .true,st)
  | some .mustBeFalse => some (some .false,st)
  | some .trueOrFalse => some (some .unknown,st)
  | some .mayBeTrue => upgrade less impl st query query .mustBeTrue .true
  | some .mayBeFalse => do
    let negated ← query.negateExpr
    upgrade less impl st query negated .mustBeFalse .false
  | some .none => none
  | none =>
    match impl.computeValidity query st.solver with
    | (none,s) => some (none, {st with solver := s})
    | (some result,s) => do
      let cachedResult := match result with
        | .true => PartialValidity.mustBeTrue
        | .false => .mustBeFalse
        | .unknown => .trueOrFalse
      let st ← cacheInsert less {st with solver := s} query cachedResult
      some (some result,st)

def askTruth (cacheHit : Bool) : Option (Option Bool × CachingSolver M σ) :=
  match impl.computeTruth query st.solver with
  | (none,s) => some (none, {st with solver := s})
  | (some isValid,s) => do
    let cachedResult : PartialValidity :=
      if isValid then .mustBeTrue else if cacheHit then .trueOrFalse else .mayBeFalse
    let st ← cacheInsert less {st with solver := s} query cachedResult
    some (some isValid,st)

def computeTruth : Option (Option Bool × CachingSolver M σ) := do
  match ← cacheLookup less st query with
  | some .mayBeTrue => askTruth less impl st query true
  | some cachedResult => some (some (cachedResult == .mustBeTrue),st)
  | none => askTruth less impl st query false

def forward {α : Type} (st : CachingSolver M σ) (result : Option α × σ) :
    Option (Option α × CachingSolver M σ) :=
  some (result.1, {st with solver := result.2})

def computeValue : Option (Option Expr × CachingSolver M σ) :=
  st.forward (impl.computeValue query st.solver)

def computeInitialValues (objects : List ArrayObj) :
    Option (Option (Option (List (List (BitVec 8)))) × CachingSolver M σ) :=
  st.forward (impl.computeInitialValues query objects st.solver)

end Code
end CachingSolver

inductive SolverCall (M : Type) where
  | validity (query : Query M)
  | truth (query : Query M)
  | value (query : Query M)
  | initialValues (query : Query M) (objects : List ArrayObj)

inductive SolverAnswer where
  | validity (result : Validity)
  | truth (isValid : Bool)
  | value (result : Expr)
  | initialValues (values : Option (List (List (BitVec 8))))
  | failure

/-- The answer is right, or a failure where the solver below may fail. -/
def SolverCall.Correct {M : Type} (conds : M → List Expr) (fails : Prop) :
    SolverCall M → SolverAnswer → Prop
  | _, .failure => fails
  | .validity q, .validity v => v.Correct (conds q.constraints) q.expr
  | .truth q, .truth b => CorrectTruth (conds q.constraints) q.expr b
  | .value q, .value r => CorrectValue (conds q.constraints) q.expr r
  | .initialValues q objects, .initialValues r =>
    CorrectInitialValues (conds q.constraints) q.expr objects r
  | _, _ => False

structure SolverReply (M σ : Type) where
  call : SolverCall M
  answer : SolverAnswer
  /-- The state in which the solver below is when the call comes. -/
  solver : σ

def SolverCall.Posed {M : Type} (conds : M → List Expr) : SolverCall M → Prop
  | .validity q | .truth q | .initialValues q _ => S2E.Posed (conds q.constraints) q.expr
  | .value q => q.expr.WF ∧
      ∀ a : Assignment, a.Satisfies (conds q.constraints) → q.expr.InBounds a true

/-- What the chain of solvers takes for granted when it asks for a truth: the constraints of
a state have a model. -/
def SolverCall.Feasible {M : Type} (conds : M → List Expr) : SolverCall M → Prop
  | .truth q => Satisfiable (conds q.constraints)
  | _ => True

namespace CachingSolver
variable {M σ : Type} [DecidableEq M] (less : Expr → Expr → Bool) (impl : SolverImpl M σ)

def toAnswer {α : Type} (f : α → SolverAnswer) (o : Option (Option α × CachingSolver M σ)) :
    Option (SolverAnswer × CachingSolver M σ) :=
  o.map fun p => (p.1.elim .failure f,p.2)

def call (st : CachingSolver M σ) : SolverCall M → Option (SolverAnswer × CachingSolver M σ)
  | .validity q => toAnswer .validity (computeValidity less impl st q)
  | .truth q => toAnswer .truth (computeTruth less impl st q)
  | .value q => toAnswer .value (computeValue impl st q)
  | .initialValues q objects => toAnswer .initialValues (computeInitialValues impl st q objects)

def run (st : CachingSolver M σ) : List (SolverCall M) →
    Option (List (SolverReply M σ) × CachingSolver M σ)
  | [] => some ([],st)
  | c :: calls => do
    let (a,st') ← call less impl st c
    let (rest,st') ← run st' calls
    some (⟨c,a,st.solver⟩ :: rest,st')

/-- The solver below fails on the call, or on the truth that completes a partial entry. -/
def Fails (s : σ) : SolverCall M → Prop
  | .validity q => (impl.computeValidity q s).1 = none ∨ (impl.computeTruth q s).1 = none ∨
      ∃ n, q.negateExpr = some n ∧ (impl.computeTruth n s).1 = none
  | .truth q => (impl.computeTruth q s).1 = none
  | .value q => (impl.computeValue q s).1 = none
  | .initialValues q objects => (impl.computeInitialValues q objects s).1 = none

end CachingSolver

def PartialValidity.Claims (C : List Expr) (e : Expr) : PartialValidity → Prop
  | .mustBeTrue => Valid C e
  | .mustBeFalse => Refuted C e
  | .mayBeTrue => Attains C e 1
  | .mayBeFalse => Attains C e 0
  | .trueOrFalse => Attains C e 1 ∧ Attains C e 0
  | .none => False

section Claims
variable {C : List Expr} {e d : Expr} {pv : PartialValidity}

lemma PartialValidity.Claims.negate (h : pv.Claims C e)
    (h1 : ∀ a : Assignment, a.Satisfies C → e.eval a = 1 → d.eval a = 0)
    (h0 : ∀ a : Assignment, a.Satisfies C → e.eval a = 0 → d.eval a = 1) :
    ∃ pv', negatePartialValidity pv = some pv' ∧ pv'.Claims C d := by
  have hat1 : Attains C e 1 → Attains C d 0 := fun ⟨a,ha,hav⟩ => ⟨a,ha,h1 a ha hav⟩
  have hat0 : Attains C e 0 → Attains C d 1 := fun ⟨a,ha,hav⟩ => ⟨a,ha,h0 a ha hav⟩
  cases pv with
  | mustBeTrue => exact ⟨_,rfl,fun a ha => h1 a ha (h a ha)⟩
  | mustBeFalse => exact ⟨_,rfl,fun a ha => h0 a ha (h a ha)⟩
  | mayBeTrue => exact ⟨_,rfl,hat1 h⟩
  | mayBeFalse => exact ⟨_,rfl,hat0 h⟩
  | trueOrFalse => exact ⟨_,rfl,hat0 h.2,hat1 h.1⟩
  | none => exact h.elim

end Claims

namespace CachingSolver
variable {M σ : Type} [DecidableEq M] (less : Expr → Expr → Bool) {impl : SolverImpl M σ}
  {conds : M → List Expr}

def Sound (conds : M → List Expr) (st : CachingSolver M σ) : Prop :=
  ∀ m e pv, st.cache.lookup (m,e) = some pv → pv.Claims (conds m) e

variable {C : List Expr}

lemma canonicalizeQuery_spec {e : Expr} (h : Posed C e) :
    ∃ c neg, canonicalizeQuery less e = some (c,neg) ∧
      (∀ {pv : PartialValidity}, pv.Claims C c → ∃ pv', orient neg pv = some pv' ∧ pv'.Claims C e) ∧
      ∀ {pv : PartialValidity}, pv.Claims C e → ∃ pv', orient neg pv = some pv' ∧
        pv'.Claims C c := by
  obtain ⟨n,hn,hp,hev⟩ := h.createIsZero
  have hz := fun a (ha : Assignment.Satisfies a C) => h.createIsZero_zero hn ha
  unfold canonicalizeQuery
  rw [hn]
  by_cases hl : less e n
  · exact ⟨e,false,by simp [hl],fun hc => ⟨_,rfl,hc⟩,fun hc => ⟨_,rfl,hc⟩⟩
  · refine ⟨n,true,by simp [hl],fun hc => ?_,fun hc => ?_⟩
    · exact hc.negate (fun a ha h1 => (hev a ha).mp h1) fun a ha h0 => (hz a ha).mp h0
    · exact hc.negate (fun a ha h1 => (hz a ha).mpr h1) fun a ha h0 => (hev a ha).mpr h0

variable {st : CachingSolver M σ} {q : Query M}

lemma cacheLookup_spec (hs : st.Sound conds) (h : Posed (conds q.constraints) q.expr) :
    ∃ r, cacheLookup less st q = some r ∧
      ∀ pv, r = some pv → pv.Claims (conds q.constraints) q.expr := by
  obtain ⟨c,neg,hc,hto,-⟩ := canonicalizeQuery_spec less h
  unfold cacheLookup
  rw [hc]
  cases hl : st.cache.lookup (q.constraints,c) with
  | none => exact ⟨none,by simp [hl],by simp⟩
  | some pv =>
    obtain ⟨pv',ho,hcl⟩ := hto (hs _ _ _ hl)
    refine ⟨some pv',by simp [hl,ho],fun pv'' h => ?_⟩
    cases h
    exact hcl

variable {pv : PartialValidity}

lemma cacheInsert_spec (hs : st.Sound conds) (h : Posed (conds q.constraints) q.expr)
    (hpv : pv.Claims (conds q.constraints) q.expr) :
    ∃ st', cacheInsert less st q pv = some st' ∧ st'.Sound conds := by
  obtain ⟨c,neg,hc,-,hfrom⟩ := canonicalizeQuery_spec less h
  obtain ⟨pv',ho,hcl⟩ := hfrom hpv
  unfold cacheInsert
  simp only [hc,ho,bind_eq_bind,bind_some]
  split
  · exact ⟨st,rfl,hs⟩
  refine ⟨_,rfl,fun m e p hl => ?_⟩
  rw [lookup_cons] at hl
  split at hl
  next hk =>
    obtain ⟨hm,he⟩ := Prod.mk.inj (eq_of_beq hk)
    rw [← some.inj hl,hm,he]
    exact hcl
  · exact hs m e p hl

def Answers {α : Type} (conds : M → List Expr) (fails : Prop) (P : α → Prop)
    (o : Option (Option α × CachingSolver M σ)) : Prop :=
  ∃ r st, o = some (r,st) ∧ (∀ v, r = some v → P v) ∧ (r = none → fails) ∧ Sound conds st

variable {α : Type} {P : α → Prop} {fails : Prop}

lemma Answers.failure (h : fails) (hs : st.Sound conds) :
    Answers conds fails P (some (none,st)) :=
  ⟨none,st,rfl,by simp,fun _ => h,hs⟩

lemma Answers.answer {v : α} (hv : P v) (hs : st.Sound conds) :
    Answers conds fails P (some (some v,st)) := by
  refine ⟨some v,st,rfl,fun v' h => ?_,nofun,hs⟩
  cases h
  exact hv

lemma Answers.forward (hs : st.Sound conds) {result : Option α × σ}
    (h : ∀ v, result.1 = some v → P v) :
    Answers conds (result.1 = none) P (st.forward result) :=
  ⟨result.1,_,rfl,h,id,hs⟩

lemma Answers.record {v : α} (hv : P v) (hs : st.Sound conds) (s : σ)
    (hq : Posed (conds q.constraints) q.expr) (hpv : pv.Claims (conds q.constraints) q.expr) :
    Answers conds fails P ((cacheInsert less {st with solver := s} q pv).bind
      fun st => some (some v,st)) := by
  have hs' : Sound conds {st with solver := s} := hs
  obtain ⟨st',hst,hs'⟩ := cacheInsert_spec less hs' hq hpv
  rw [hst]
  exact .answer hv hs'

lemma upgrade_spec (himpl : impl.Correct conds) (hs : st.Sound conds) {asked : Query M}
    {proved : PartialValidity} {answer : Validity} (hq : Posed (conds q.constraints) q.expr)
    (hasked : Posed (conds asked.constraints) asked.expr)
    (hyes : Valid (conds asked.constraints) asked.expr →
      proved.Claims (conds q.constraints) q.expr ∧ answer.Correct (conds q.constraints) q.expr)
    (hno : ¬Valid (conds asked.constraints) asked.expr →
      Attains (conds q.constraints) q.expr 1 ∧ Attains (conds q.constraints) q.expr 0)
    (hfails : (impl.computeTruth asked st.solver).1 = none → fails) :
    Answers conds fails (Validity.Correct (conds q.constraints) q.expr)
      (upgrade less impl st q asked proved answer) := by
  have htruth := himpl.truth asked st.solver
  unfold upgrade
  cases hc : impl.computeTruth asked st.solver with
  | mk r s =>
    rw [hc] at htruth hfails
    cases r with
    | none => exact .failure (hfails rfl) hs
    | some tmp =>
      have hv := htruth tmp hasked rfl
      cases tmp with
      | true =>
        obtain ⟨hp,ha⟩ := hyes (hv.mp rfl)
        exact .record less ha hs s hq hp
      | false =>
        have hboth := hno fun h => Bool.noConfusion (hv.mpr h)
        have hp : PartialValidity.Claims (conds q.constraints) q.expr .trueOrFalse := hboth
        have ha : Validity.Correct (conds q.constraints) q.expr .unknown := hboth
        exact .record less ha hs s hq hp

lemma computeValidity_spec (himpl : impl.Correct conds) (hs : st.Sound conds)
    (hq : Posed (conds q.constraints) q.expr) :
    Answers conds (Fails impl st.solver (.validity q))
      (Validity.Correct (conds q.constraints) q.expr) (computeValidity less impl st q) := by
  obtain ⟨r,hr,hclaim⟩ := cacheLookup_spec less hs hq
  have hvalidity := himpl.validity q st.solver
  unfold computeValidity
  rw [hr]
  cases r with
  | some pv =>
    have hpv := hclaim pv rfl
    cases pv with
    | mustBeTrue => exact .answer hpv hs
    | mustBeFalse => exact .answer hpv hs
    | trueOrFalse => exact .answer hpv hs
    | mayBeTrue =>
      exact upgrade_spec less himpl hs hq hq (fun h => ⟨h,h⟩)
        (fun h => ⟨hpv,hq.not_valid_iff.mp h⟩) fun h => .inr (.inl h)
    | mayBeFalse =>
      obtain ⟨n,hn,hp,hev⟩ := hq.createIsZero
      have hneg : q.negateExpr = some (q.withExpr n) := by rw [Query.negateExpr,hn]; rfl
      have hvalid : Valid (conds q.constraints) n ↔ Refuted (conds q.constraints) q.expr :=
        forall₂_congr hev
      simp only [bind_eq_bind,bind_some,hneg]
      refine upgrade_spec less himpl hs hq hp (fun h => ⟨hvalid.mp h,hvalid.mp h⟩)
        (fun h => ⟨?_,hpv⟩) fun h => .inr (.inr ⟨_,hneg,h⟩)
      exact hq.not_refuted_iff.mp fun hr => h (hvalid.mpr hr)
    | none => exact hpv.elim
  | none =>
    simp only [bind_eq_bind,bind_some]
    cases hc : impl.computeValidity q st.solver with
    | mk r s =>
      rw [hc] at hvalidity
      cases r with
      | none => exact .failure (.inl (congrArg Prod.fst hc)) hs
      | some result =>
        have hv := hvalidity result hq rfl
        cases result with
        | true => exact .record less hv hs s hq hv
        | false => exact .record less hv hs s hq hv
        | unknown => exact .record less hv hs s hq hv

lemma askTruth_spec (himpl : impl.Correct conds) (hs : st.Sound conds)
    (hq : Posed (conds q.constraints) q.expr) {cacheHit : Bool}
    (hhit : cacheHit → Attains (conds q.constraints) q.expr 1) :
    Answers conds (Fails impl st.solver (.truth q)) (CorrectTruth (conds q.constraints) q.expr)
      (askTruth less impl st q cacheHit) := by
  have htruth := himpl.truth q st.solver
  unfold askTruth
  cases hc : impl.computeTruth q st.solver with
  | mk r s =>
    rw [hc] at htruth
    cases r with
    | none => exact .failure (congrArg Prod.fst hc) hs
    | some isValid =>
      have hv := htruth isValid hq rfl
      cases isValid with
      | true =>
        have hp : PartialValidity.Claims (conds q.constraints) q.expr .mustBeTrue := hv.mp rfl
        exact .record less hv hs s hq hp
      | false =>
        have h0 := hq.not_valid_iff.mp fun h => Bool.noConfusion (hv.mpr h)
        cases cacheHit with
        | true =>
          have hp : PartialValidity.Claims (conds q.constraints) q.expr .trueOrFalse :=
            ⟨hhit rfl,h0⟩
          exact .record less hv hs s hq hp
        | false =>
          have hp : PartialValidity.Claims (conds q.constraints) q.expr .mayBeFalse := h0
          exact .record less hv hs s hq hp

lemma claims_truth {e : Expr} (hp : Posed C e) (hsat : Satisfiable C) (h : pv.Claims C e)
    (hne : pv ≠ .mayBeTrue) : CorrectTruth C e (pv == .mustBeTrue) := by
  have hno : ∀ {b : Bool}, b = false → ¬Valid C e → CorrectTruth C e b := by
    rintro b rfl hv
    exact iff_of_false Bool.false_ne_true hv
  cases pv with
  | mustBeTrue => exact ⟨fun _ => h,fun _ => rfl⟩
  | mustBeFalse =>
    obtain ⟨a,ha⟩ := hsat
    exact hno rfl (hp.not_valid_iff.mpr ⟨a,ha,h a ha⟩)
  | mayBeTrue => exact absurd rfl hne
  | mayBeFalse => exact hno rfl (hp.not_valid_iff.mpr h)
  | trueOrFalse => exact hno rfl (hp.not_valid_iff.mpr h.2)
  | none => exact h.elim

lemma computeTruth_spec (himpl : impl.Correct conds) (hs : st.Sound conds)
    (hq : Posed (conds q.constraints) q.expr) (hsat : Satisfiable (conds q.constraints)) :
    Answers conds (Fails impl st.solver (.truth q)) (CorrectTruth (conds q.constraints) q.expr)
      (computeTruth less impl st q) := by
  obtain ⟨r,hr,hclaim⟩ := cacheLookup_spec less hs hq
  unfold computeTruth
  rw [hr]
  cases r with
  | none => exact askTruth_spec less himpl hs hq (by simp)
  | some pv =>
    have hpv := hclaim pv rfl
    by_cases hmay : pv = .mayBeTrue
    · subst hmay
      exact askTruth_spec less himpl hs hq fun _ => hpv
    have ht := claims_truth hq hsat hpv hmay
    cases pv with
    | mayBeTrue => exact absurd rfl hmay
    | mustBeTrue | mustBeFalse | mayBeFalse | trueOrFalse => exact .answer ht hs
    | none => exact hpv.elim

lemma Answers.toAnswer_correct {o : Option (Option α × CachingSolver M σ)}
    (h : Answers conds fails P o) {c : SolverCall M} {f : α → SolverAnswer}
    (hf : ∀ v, P v → c.Correct conds fails (f v)) :
    ∃ a st', toAnswer f o = some (a,st') ∧ c.Correct conds fails a ∧ Sound conds st' := by
  obtain ⟨r,st',rfl,hr,hnone,hs⟩ := h
  refine ⟨_,st',rfl,?_,hs⟩
  cases r with
  | none => cases c <;> exact hnone rfl
  | some v => exact hf v (hr v rfl)

lemma call_spec (himpl : impl.Correct conds) (hs : st.Sound conds) {c : SolverCall M}
    (hp : c.Posed conds) (hf : c.Feasible conds) :
    ∃ a st', call less impl st c = some (a,st') ∧
      c.Correct conds (Fails impl st.solver c) a ∧ Sound conds st' := by
  cases c with
  | validity q => exact (computeValidity_spec less himpl hs hp).toAnswer_correct fun _ hv => hv
  | truth q => exact (computeTruth_spec less himpl hs hp hf).toAnswer_correct fun _ hv => hv
  | value q =>
    exact (Answers.forward hs fun r hr =>
      himpl.value q st.solver r hp.1 hp.2 hr).toAnswer_correct fun _ hv => hv
  | initialValues q objects =>
    exact (Answers.forward hs fun r hr =>
      himpl.initialValues q objects st.solver r hp hr).toAnswer_correct fun _ hv => hv

lemma run_sound (himpl : impl.Correct conds) (hs : st.Sound conds) {calls : List (SolverCall M)}
    (hcalls : ∀ c ∈ calls, c.Posed conds ∧ c.Feasible conds) :
    ∃ trace st', run less impl st calls = some (trace,st') ∧ trace.map (·.call) = calls ∧
      (∀ p ∈ trace, p.call.Correct conds (Fails impl p.solver p.call) p.answer) ∧
      Sound conds st' := by
  induction calls generalizing st with
  | nil => exact ⟨[],st,rfl,rfl,by simp,hs⟩
  | cons c calls ih =>
    have hc := hcalls c mem_cons_self
    obtain ⟨a,st1,h₁,hcorrect,hs1⟩ := call_spec less himpl hs hc.1 hc.2
    obtain ⟨trace,st',h₂,hmap,htrace,hs'⟩ := ih hs1 fun d hd => hcalls d (mem_cons_of_mem _ hd)
    refine ⟨⟨c,a,st.solver⟩ :: trace,st',?_,by rw [map_cons,hmap],?_,hs'⟩
    · simp [run,h₁,h₂]
    · intro p hp
      rcases mem_cons.mp hp with rfl | hp
      · exact hcorrect
      · exact htrace p hp

def askedByte : Expr := Trie.byteIs 1 1

def askedNegation : Expr := .binary .eq (ConstantExpr.alloc 0 1) askedByte

def smaller (e d : Expr) : Bool := decide (e.size < d.size)

lemma posed_byteIs (C : List Expr) (i v : Nat) (h : (Trie.byteIs i v).WF) :
    Posed C (Trie.byteIs i v) :=
  ⟨⟨h,rfl⟩,fun _ _ => ⟨trivial,trivial,trivial,fun _ hc => by cases hc⟩⟩

lemma posed_askedNegation (C : List Expr) : Posed C askedNegation :=
  ⟨⟨by decide,rfl⟩,fun a ha => ⟨trivial,(posed_byteIs C 1 1 (by decide)).inBounds a ha⟩⟩

def mixedCalls : List (SolverCall (List Expr)) :=
  [.truth ⟨[],askedByte⟩,.truth ⟨[],askedNegation⟩,.validity ⟨[],askedNegation⟩,
    .value ⟨[],askedByte⟩,.initialValues ⟨[],askedByte⟩ [.symbolic 0 8 eight_fits],
    .validity ⟨[Trie.byteIs 0 1],askedByte⟩]

def contradiction : List Expr := [Trie.byteIs 0 1,Trie.byteIs 0 2]

lemma contradiction_valid (e : Expr) : Valid contradiction e := by
  intro a ha
  have h1 : (Trie.byteIs 0 1).eval a = 1 := ha _ (by simp [contradiction])
  have h2 : (Trie.byteIs 0 2).eval a = 1 := ha _ (by simp [contradiction])
  unfold Trie.byteIs at h1 h2
  rw [Expr.eval_eq (by decide)] at h1 h2
  rw [ite_eq_left_iff] at h1 h2
  have h1 := of_not_not fun h => Nat.zero_ne_one (h1 h)
  have h2 := of_not_not fun h => Nat.zero_ne_one (h2 h)
  cases h1.trans h2.symm

def contradictedCalls : List (SolverCall (List Expr)) :=
  [.truth ⟨contradiction,askedByte⟩,.truth ⟨contradiction,askedNegation⟩]

end CachingSolver
end S2E
