import S2E.Expr.Evaluate

/-!
The symbolic part of `ExecutionState`: the path constraints, the concolic assignment, and
the operations that add a constraint or concretize a value. `simplify` and
`getInitialValues` stand for the simplifier and the solver, which have a state of their
own that lasts from call to call.
-/

namespace S2E
open List Option S2E.Expr ConstantExpr

/-- `ConstraintManager::addConstraint`, the newest constraint first. A conjunction is taken
apart; a false constant fails the assertion. -/
def ConstraintManager.addConstraint (C : List Expr) : Expr → Option (List Expr)
  | .constant c => if c.isTrue then some C else none
  | .binary .and l r => do
    let C ← addConstraint C l
    addConstraint C r
  | e => some (e :: C)

structure Services (σ : Type) where
  simplify : Expr → σ → Expr × σ
  getInitialValues : List Expr → List ArrayObj → σ → Option (List (List (BitVec 8))) × σ

structure ExecutionState where
  constraints : List Expr
  concolics : Concolics
  symbolics : List ArrayObj
  forkDisabled : Bool
  addConstraintWhenForkingDisabled : Bool

def Concolics.create (allowFreeValues : Bool) : Concolics := ⟨[],allowFreeValues,[]⟩

def Concolics.clear (c : Concolics) : Concolics := {c with bindings := [], expressionCache := []}

def Concolics.add (c : Concolics) (object : ArrayObj) (value : List (BitVec 8)) : Concolics :=
  if (c.bindings.lookup object).isSome then c
  else {c with bindings := c.bindings ++ [(object,value)]}

variable {σ : Type} (svc : Services σ)

namespace ExecutionState
variable (state : ExecutionState)

def solve (mgr : List Expr) (assignment : Concolics) (s : σ) : Option Concolics × σ :=
  match svc.getInitialValues mgr state.symbolics s with
  | (none,s) => (none,s)
  | (some concreteObjects,s) =>
    (some ((state.symbolics.zip concreteObjects).foldl (fun c p => c.add p.1 p.2)
      assignment.clear),s)

def commit (simplified : Expr) (s : σ) : Option (Bool × ExecutionState × σ) := do
  let constraints ← ConstraintManager.addConstraint state.constraints simplified
  pure (true, {state with constraints},s)

def addConstraint (constraint : Expr) (recomputeConcolics : Bool) (s : σ) :
    Option (Bool × ExecutionState × σ) :=
  let (simplified,s) := svc.simplify constraint s
  if simplified.isConstant && !simplified.isTrue then some (false,state,s)
  else do
    let (evaluated,concolics) ← state.concolics.evaluate simplified
    let state := {state with concolics}
    if !evaluated.isConstant then some (false,state,s)
    else if evaluated.isTrue then state.commit simplified s
    else if recomputeConcolics then do
      let newConstraints ← ConstraintManager.addConstraint state.constraints simplified
      match state.solve svc newConstraints state.concolics s with
      | (none,s) => some (false,state,s)
      | (some concolics,s) => commit {state with concolics} simplified s
    else some (false,state,s)

/-- `toConstant`: the constant value, and the state that is constrained to it. An
expression that does not evaluate to a constant fails the assertion, and a constraint that
is not added aborts. -/
def toConstant (e : Expr) (s : σ) : Option (Expr × ExecutionState × σ) :=
  let (e,s) := svc.simplify e s
  if e.isConstant then some (e,state,s)
  else do
    let (value,concolics) ← state.concolics.evaluate e
    let state := {state with concolics}
    if !value.isConstant then none
    else
      let equal ← EqExpr.create e value
      match ← state.addConstraint svc equal false s with
      | (true,state,s) => some (value,state,s)
      | (false,_,_) => none

def toConstantSilent (e : Expr) : Option (Expr × ExecutionState) := do
  let (value,concolics) ← state.concolics.evaluate e
  if value.isConstant then some (value, {state with concolics}) else none

end ExecutionState

def Expr.hasFalseConjunct : Expr → Bool
  | .constant c => !c.isTrue
  | .binary .and l r => l.hasFalseConjunct || r.hasFalseConjunct
  | _ => false

def Expr.conjuncts : Expr → List Expr
  | .constant _ => []
  | .binary .and l r => l.conjuncts ++ r.conjuncts
  | e => [e]

lemma ConstraintManager.addConstraint_eq (C : List Expr) (e : Expr) : addConstraint C e =
      if e.hasFalseConjunct then none else some (e.conjuncts.reverse ++ C) := by
  fun_induction Expr.conjuncts e generalizing C with
  | case1 c => cases hc : c.isTrue <;> simp [addConstraint,hasFalseConjunct,hc]
  | case2 l r ihl ihr =>
    rw [addConstraint,ihl,hasFalseConjunct]
    cases l.hasFalseConjunct with
    | true => simp
    | false => simp [ihr,append_assoc]
  | case3 e h1 h2 =>
    unfold addConstraint hasFalseConjunct
    split <;> simp_all

variable {r : Expr}

lemma Expr.eval_and_eq_one {l : Expr} (h : (binary .and l r).WF)
    (hw : (binary .and l r).width = 1) (a : Assignment) :
    (binary .and l r).eval a = 1 ↔ l.eval a = 1 ∧ r.eval a = 1 := by
  have hlw : l.width = 1 := hw
  have hrw : r.width = 1 := h.2.2.symm.trans hlw
  rcases l.eval_bool a h.1 hlw with hl | hl <;> rcases r.eval_bool a h.2.1 hrw with hr | hr <;>
    simp [eval,hl,hr,hlw,BinaryKind.apply]

def Expr.Boolean (e : Expr) : Prop := e.WF ∧ e.width = 1

lemma Expr.Boolean.and {l : Expr} (h : (binary .and l r).Boolean) : l.Boolean ∧ r.Boolean :=
  ⟨⟨h.1.1,h.2⟩,h.1.2.1,h.1.2.2.symm.trans h.2⟩

variable {e : Expr} {a : Assignment}

lemma Expr.Boolean.eval_ne_one (h : e.Boolean) (hne : e.eval a ≠ 1) : e.eval a = 0 :=
  (e.eval_bool a h.1 h.2).resolve_right hne

lemma Expr.Boolean.eval_iff_conjuncts (h : e.Boolean) (a : Assignment) :
    e.eval a = 1 ↔ e.hasFalseConjunct = false ∧ a.Satisfies e.conjuncts := by
  fun_induction Expr.conjuncts e with
  | case1 c =>
    have hw : c.width = 1 := h.2
    simp [eval,hasFalseConjunct,APInt.isTrue,hw,Assignment.Satisfies]
  | case2 l r ihl ihr =>
    rw [eval_and_eq_one h.1 h.2,ihl h.and.1,ihr h.and.2,hasFalseConjunct,Bool.or_eq_false_iff]
    simp only [Assignment.Satisfies,forall_mem_append]
    tauto
  | case3 e h1 h2 =>
    have hf : e.hasFalseConjunct = false := by
      unfold hasFalseConjunct
      split <;> simp_all
    simp [hf,Assignment.Satisfies]

lemma Expr.Boolean.conjuncts (h : e.Boolean) : ∀ d ∈ e.conjuncts, d.Boolean := by
  fun_induction Expr.conjuncts e with
  | case1 c => simp
  | case2 l r ihl ihr =>
    intro d hd
    exact (mem_append.mp hd).elim (ihl h.and.1 d) (ihr h.and.2 d)
  | case3 e h1 h2 => simpa using h

lemma Expr.defined_conjuncts {S : Scope}
    (h : e.Defined S a true) : ∀ d ∈ e.conjuncts, d.Defined S a true := by
  fun_induction Expr.conjuncts e with
  | case1 c => simp
  | case2 l r ihl ihr =>
    intro d hd
    exact (mem_append.mp hd).elim (ihl h.1 d) (ihr h.2 d)
  | case3 e h1 h2 => simpa using h

structure Preserves (e r : Expr) : Prop where
  wf : r.WF
  width : r.width = e.width
  defined : ∀ {S : Scope} (a : Assignment), e.Defined S a true → r.Defined S a true
  eval : ∀ {S : Scope} (a : Assignment), e.Defined S a true → r.eval a = e.eval a

structure Meaningful (symbolics : List ArrayObj) (C : List Expr) : Prop where
  boolean : ∀ c ∈ C, c.Boolean
  defined : ∀ a : Assignment, a.Satisfies C → ∀ c ∈ C, c.Defined (.over symbolics) a true

/-- The expression is well formed and has a value under every model of the constraints. -/
structure Admissible (symbolics : List ArrayObj) (C : List Expr) (e : Expr) : Prop where
  wf : e.WF
  defined : ∀ a : Assignment, a.Satisfies C → e.Defined (.over symbolics) a true

def SolvedBy (C : List Expr) (objects : List ArrayObj) (values : List (List (BitVec 8))) : Prop :=
  values.map length = objects.map ArrayObj.size ∧ ∃ a : Assignment, a.Satisfies C ∧
      ∀ p ∈ objects.zip values, ∀ i, i < p.1.size → a p.1 i = p.2.getD i 0

structure Services.Sound : Prop where
  simplify : ∀ (e : Expr) (s : σ), e.WF → Preserves e (svc.simplify e s).1
  solution : ∀ (C : List Expr) (objects : List ArrayObj) (s : σ) (values : List (List (BitVec 8))),
    Meaningful objects C → (svc.getInitialValues C objects s).1 = some values →
    SolvedBy C objects values
  complete : ∀ (C : List Expr) (objects : List ArrayObj) (s : σ), Meaningful objects C →
    (svc.getInitialValues C objects s).1 = none → ¬∃ a : Assignment, a.Satisfies C

section
variable {S : Scope} {a b : Assignment}
  (hab : ∀ arr i, S.readable arr i → arr.isSymbolicArray = true → a arr i = b arr i)

include hab

set_option linter.unusedSectionVars false in
mutual
theorem Expr.eval_congr_scope : (e : Expr) → e.Defined S a true → e.eval b = e.eval a
  | .constant _, _ => rfl
  | .read ul i, h => by
    have hi := i.eval_congr_scope h.2.1
    rw [eval,eval,hi]
    exact ul.eval_congr_scope h.1 (h.2.2 rfl)
  | .select c t f, h => by
    obtain ⟨hc,ht,hf⟩ := h
    rw [eval,eval,c.eval_congr_scope hc]
    by_cases h1 : c.eval a = 1
    · rw [if_pos h1,if_pos h1]
      exact t.eval_congr_scope (by simpa [h1] using ht)
    · rw [if_neg h1,if_neg h1]
      exact f.eval_congr_scope (by simpa [h1] using hf)
  | .concat l r, h => by
    rw [eval,eval,l.eval_congr_scope h.1,r.eval_congr_scope h.2]
  | .extract e _ _, h | .not e, h | .zext e _, h | .sext e _, h => by
    rw [eval,eval,e.eval_congr_scope h]
  | .binary k l r, h => by
    rw [eval,eval,l.eval_congr_scope h.1,r.eval_congr_scope (BinaryKind.guard_left h.2)]

theorem UpdateList.eval_congr_scope : (ul : UpdateList) → ul.Defined S a → {i : Nat} →
    S.readable ul.getRoot i →
    ul.eval b i = ul.eval a i
  | .root arr, _, i, hr => ArrayObj.initial_congr fun hsym _ => (hab arr i hr hsym).symm
  | .extend next idx v, h, i, hr => by
    rw [UpdateList.eval,UpdateList.eval,idx.eval_congr_scope h.2.1,
      v.eval_congr_scope h.2.2,next.eval_congr_scope h.1 hr]
end
end

lemma Concolics.lookup_foldl_add (ps : List (ArrayObj × List (BitVec 8))) (c : Concolics)
    (arr : ArrayObj) : (ps.foldl (fun c p => c.add p.1 p.2) c).bindings.lookup arr =
      (c.bindings.lookup arr).or (ps.lookup arr) := by
  induction ps generalizing c with
  | nil => simp
  | cons p ps ih =>
    obtain ⟨object,value⟩ := p
    rw [foldl_cons,ih,lookup_cons]
    by_cases ho : arr = object
    · subst ho
      cases hl : c.bindings.lookup arr with
      | some v => simp [Concolics.add,hl]
      | none => simp [Concolics.add,hl,lookup_append]
    · have hob : (arr == object) = false := by simpa using ho
      unfold Concolics.add
      split
      · simp [hob]
      · simp [hob,lookup_append,lookup]

lemma Concolics.foldl_add_cache (ps : List (ArrayObj × List (BitVec 8))) (c : Concolics) :
    (ps.foldl (fun c p => c.add p.1 p.2) c).expressionCache = c.expressionCache := by
  induction ps generalizing c with
  | nil => rfl
  | cons p ps ih =>
    rw [foldl_cons,ih]
    unfold Concolics.add
    split <;> rfl

lemma lookup_zip {objects : List ArrayObj} {values : List (List (BitVec 8))}
    (hlen : values.map length = objects.map ArrayObj.size) {arr : ArrayObj} (harr : arr ∈ objects) :
    ∃ bytes, (objects.zip values).lookup arr = some bytes ∧ bytes.length = arr.size ∧
      (arr,bytes) ∈ objects.zip values := by
  induction objects generalizing values with
  | nil => simp at harr
  | cons o objects ih =>
    cases values with
    | nil => simp at hlen
    | cons v values =>
      simp only [map_cons,cons.injEq] at hlen
      rw [zip_cons_cons,lookup_cons]
      by_cases ho : arr = o
      · subst ho
        exact ⟨v,by simp,hlen.1,mem_cons_self⟩
      · have hob : (arr == o) = false := by simpa using ho
        obtain ⟨bytes,h1,h2,h3⟩ := ih hlen.2 ((mem_cons.mp harr).resolve_left ho)
        exact ⟨bytes,by simp [hob,h1],h2,mem_cons_of_mem _ h3⟩

structure Concolics.Fits (c : Concolics) (symbolics : List ArrayObj) (C : List Expr) : Prop where
  binds : c.Binds symbolics
  cache : c.CacheOk c.expressionCache
  satisfies : c.assignment.Satisfies C

variable {svc}

lemma ExecutionState.solve_spec (hsvc : svc.Sound) (state : ExecutionState) {mgr : List Expr}
    (hm : Meaningful state.symbolics mgr) (assignment : Concolics) (s : σ) :
    match (state.solve svc mgr assignment s).1 with
    | none => ¬∃ a : Assignment, a.Satisfies mgr
    | some c => c.Fits state.symbolics mgr := by
  have hsol := hsvc.solution mgr state.symbolics s
  have hcompl := hsvc.complete mgr state.symbolics s hm
  unfold solve
  cases hg : svc.getInitialValues mgr state.symbolics s with
  | mk o s' =>
    rw [hg] at hsol hcompl
    cases o with
    | none => exact hcompl rfl
    | some values =>
      obtain ⟨hlen,a,ha,hval⟩ := hsol values hm rfl
      have hlookup : ∀ arr, ((state.symbolics.zip values).foldl (fun c p => c.add p.1 p.2)
          assignment.clear).bindings.lookup arr = (state.symbolics.zip values).lookup arr := by
        intro arr
        rw [Concolics.lookup_foldl_add]
        rfl
      refine ⟨fun arr harr => ?_,fun e r he => ?_,fun c hc => ?_⟩
      · obtain ⟨bytes,h1,h2,-⟩ := lookup_zip hlen harr
        exact ⟨bytes,by rw [hlookup,h1],h2⟩
      · rw [Concolics.foldl_add_cache] at he
        cases he
      · rw [← ha c hc]
        refine eval_congr_scope (fun arr i hr hsym => ?_) c (hm.defined a ha c hc)
        have harr : arr ∈ state.symbolics :=
          hr.2.resolve_left (by simp [ArrayObj.isConstantArray,hsym])
        obtain ⟨bytes,h1,-,h3⟩ := lookup_zip hlen harr
        rw [hval _ h3 i hr.1,Concolics.assignment,hlookup,h1]
        rfl

variable {C : List Expr}

lemma Admissible.preserve {symbolics : List ArrayObj} {e : Expr}
    (h : Admissible symbolics C e) (hr : Preserves e r) : Admissible symbolics C r :=
  ⟨hr.wf,fun a ha => hr.defined a (h.defined a ha)⟩

lemma satisfies_append {D : List Expr} :
    a.Satisfies (C ++ D) ↔ a.Satisfies C ∧ a.Satisfies D := forall_mem_append

lemma Meaningful.add {symbolics : List ArrayObj} {C' : List Expr}
    (hC : Meaningful symbolics C) (he : Admissible symbolics C e) (hw : e.width = 1)
    (h : ConstraintManager.addConstraint C e = some C') : Meaningful symbolics C' ∧
      ∀ a : Assignment, a.Satisfies C' ↔ a.Satisfies C ∧ e.eval a = 1 := by
  have hb : e.Boolean := ⟨he.wf,hw⟩
  rw [ConstraintManager.addConstraint_eq] at h
  split at h
  · cases h
  rename_i hf
  rw [Bool.not_eq_true] at hf
  cases some.inj h
  have hmodels : ∀ a : Assignment, a.Satisfies (e.conjuncts.reverse ++ C) ↔
      a.Satisfies C ∧ e.eval a = 1 := by
    intro a
    rw [satisfies_append,hb.eval_iff_conjuncts,and_comm]
    simp [hf,Assignment.Satisfies]
  refine ⟨⟨fun c hc => ?_,fun a ha c hc => ?_⟩,hmodels⟩
  · rcases mem_append.mp hc with hc | hc
    · exact hb.conjuncts c (mem_reverse.mp hc)
    · exact hC.boolean c hc
  · obtain ⟨haC,-⟩ := (hmodels a).mp ha
    rcases mem_append.mp hc with hc | hc
    · exact defined_conjuncts (he.defined a haC) c (mem_reverse.mp hc)
    · exact hC.defined a haC c hc

lemma ConstraintManager.addConstraint_of_holds (hb : e.Boolean) (ha : e.eval a = 1) :
    ConstraintManager.addConstraint C e = some (e.conjuncts.reverse ++ C) := by
  rw [addConstraint_eq,((hb.eval_iff_conjuncts a).mp ha).1]
  rfl

namespace ExecutionState

/-- The concolic assignment binds the symbolic arrays and satisfies the constraints. -/
structure Ok (st : ExecutionState) : Prop where
  fits : st.concolics.Fits st.symbolics st.constraints
  meaningful : Meaningful st.symbolics st.constraints

structure Unchanged (st st' : ExecutionState) : Prop where
  eq : ∃ cache, st' = {st with concolics := {st.concolics with expressionCache := cache}}
  cache : st'.concolics.CacheOk st'.concolics.expressionCache

structure Extended (st st' : ExecutionState) (e : Expr) : Prop where
  ok : st'.Ok
  symbolics : st'.symbolics = st.symbolics
  forkDisabled : st'.forkDisabled = st.forkDisabled
  addConstraintWhenForkingDisabled :
    st'.addConstraintWhenForkingDisabled = st.addConstraintWhenForkingDisabled
  models : ∀ a : Assignment, a.Satisfies st'.constraints ↔ a.Satisfies st.constraints ∧ e.eval a = 1

variable {st st' : ExecutionState}

section
variable (h : st.Unchanged st')
include h

lemma Unchanged.constraints : st'.constraints = st.constraints := by
  obtain ⟨⟨cache,rfl⟩,-⟩ := h
  rfl

lemma Unchanged.symbolics : st'.symbolics = st.symbolics := by
  obtain ⟨⟨cache,rfl⟩,-⟩ := h
  rfl

lemma Unchanged.forkDisabled : st'.forkDisabled = st.forkDisabled := by
  obtain ⟨⟨cache,rfl⟩,-⟩ := h
  rfl

lemma Unchanged.addConstraintWhenForkingDisabled :
    st'.addConstraintWhenForkingDisabled = st.addConstraintWhenForkingDisabled := by
  obtain ⟨⟨cache,rfl⟩,-⟩ := h
  rfl

lemma Unchanged.admissible (he : Admissible st.symbolics st.constraints e) :
    Admissible st'.symbolics st'.constraints e := by
  rw [h.symbolics,h.constraints]
  exact he

lemma Unchanged.assignment : st'.concolics.assignment = st.concolics.assignment := by
  obtain ⟨⟨cache,rfl⟩,-⟩ := h
  rfl

lemma Unchanged.side (c : Expr) :
    decide (c.eval st'.concolics.assignment = 1) = decide (c.eval st.concolics.assignment = 1) := by
  rw [h.assignment]

lemma Unchanged.ok (hok : st.Ok) : st'.Ok := by
  have hcache := h.cache
  obtain ⟨⟨cache,rfl⟩,-⟩ := h
  exact ⟨⟨hok.fits.binds,hcache,hok.fits.satisfies⟩,hok.meaningful⟩

end

lemma Ok.unchanged {st : ExecutionState} (h : st.Ok) : st.Unchanged st := ⟨⟨_,rfl⟩,h.fits.cache⟩

lemma Ok.evaluate {st : ExecutionState} (h : st.Ok)
    (he : Admissible st.symbolics st.constraints e) :
    ∃ concolics, st.concolics.evaluate e = some (e.value st.concolics.assignment,concolics) ∧
      st.Unchanged {st with concolics} := by
  obtain ⟨cache,hev,hok⟩ := Concolics.evaluate_eq h.fits.binds h.fits.cache he.wf
    (he.defined _ h.fits.satisfies)
  exact ⟨_,hev,⟨cache,rfl⟩,hok⟩

lemma commit_spec (st : ExecutionState) (h : Meaningful st.symbolics st.constraints)
    (hfits : st.concolics.Fits st.symbolics st.constraints) {e : Expr} (hw : e.width = 1)
    (he : Admissible st.symbolics st.constraints e) (hr : Preserves e r)
    (htrue : e.eval st.concolics.assignment = 1) (s : σ) :
    ∃ st', st.commit r s = some (true,st',s) ∧ st.Extended st' e ∧
      st'.concolics = st.concolics := by
  have hrw : r.width = 1 := hr.width.trans hw
  have hr1 : r.eval st.concolics.assignment = 1 := by
    rw [hr.eval _ (he.defined _ hfits.satisfies),htrue]
  have hadd := ConstraintManager.addConstraint_of_holds (C := st.constraints) ⟨hr.wf,hrw⟩ hr1
  obtain ⟨hm,hmodels⟩ := h.add (he.preserve hr) hrw hadd
  refine ⟨{st with constraints := r.conjuncts.reverse ++ st.constraints},
    by rw [commit,hadd]; rfl,⟨⟨⟨hfits.binds,hfits.cache,?_⟩,hm⟩,rfl,rfl,rfl,?_⟩,rfl⟩
  · exact (hmodels _).mpr ⟨hfits.satisfies,hr1⟩
  · intro a
    rw [hmodels a]
    refine and_congr_right fun ha => ?_
    rw [hr.eval a (he.defined a ha)]

lemma Extended.of_concolics {concolics : Concolics}
    (h : {st with concolics}.Extended st' e) : st.Extended st' e :=
  ⟨h.ok,h.symbolics,h.forkDisabled,h.addConstraintWhenForkingDisabled,h.models⟩

structure AddOutcome (st : ExecutionState) (e : Expr) (recompute added : Bool)
    (st' : ExecutionState) : Prop where
  extended : added = true → st.Extended st' e
  unchanged : added = false → st.Unchanged st'
  added_iff : added = true ↔ e.eval st.concolics.assignment = 1 ∨
    recompute = true ∧ ∃ a : Assignment, a.Satisfies st.constraints ∧ e.eval a = 1

/-- The simplified constraint is no constant, but a conjunct of it is a false one: the
constraint manager would not accept it. -/
def rejects (svc : Services σ) (e : Expr) (s : σ) : Bool :=
  !(svc.simplify e s).1.isConstant && (svc.simplify e s).1.hasFalseConjunct

lemma isTrue_eval (h : r.isTrue) (a : Assignment) : r.eval a = 1 := by
  cases r with
  | constant c =>
    have hc : c.width = 1 ∧ c.value = 1 := by simpa [Expr.isTrue,APInt.isTrue] using h
    exact hc.2
  | _ => cases h

lemma isConstant_not_isTrue (hw : r.width = 1)
    (h : (r.isConstant && !r.isTrue)) : r.eval a ≠ 1 := by
  cases r with
  | constant c =>
    have hcw : c.width = 1 := hw
    simpa [isConstant,Expr.isTrue,APInt.isTrue,hcw,eval] using h
  | _ => cases h

lemma addConstraint_holds (hsvc : svc.Sound) {st : ExecutionState} (hok : st.Ok)
    (he : Admissible st.symbolics st.constraints e) (hw : e.width = 1) (recompute : Bool) (s : σ)
    (htrue : e.eval st.concolics.assignment = 1) :
    ∃ st' s', st.addConstraint svc e recompute s = some (true,st',s') ∧ st.Extended st' e := by
  have hr := hsvc.simplify e s he.wf
  have hadm := he.preserve hr
  have hr1 : (svc.simplify e s).1.eval st.concolics.assignment = 1 := by
    rw [hr.eval _ (he.defined _ hok.fits.satisfies),htrue]
  have hnot : ((svc.simplify e s).1.isConstant && !(svc.simplify e s).1.isTrue) = false := by
    by_contra hc
    rw [Bool.not_eq_false] at hc
    exact isConstant_not_isTrue (hr.width.trans hw) hc hr1
  obtain ⟨concolics,hev,hun⟩ := hok.evaluate hadm
  have hok' := hun.ok hok
  have hvalue : ((svc.simplify e s).1.value st.concolics.assignment).isTrue := by
    simp [value,alloc,Expr.isTrue,APInt.isTrue,hr1,hr.width,hw]
  obtain ⟨st',hcommit,hext,-⟩ := commit_spec _ hok'.meaningful hok'.fits hw he hr
    (by rw [hun.assignment]; exact htrue) (svc.simplify e s).2
  refine ⟨st',(svc.simplify e s).2,?_,hext.of_concolics⟩
  unfold addConstraint
  simp only [hnot,Bool.false_eq_true,if_false,hev,bind_eq_bind,bind_some]
  rw [if_neg (by simp [value,alloc,isConstant]),if_pos hvalue]
  exact hcommit

lemma addConstraint_spec (hsvc : svc.Sound) {st : ExecutionState} (hok : st.Ok)
    (he : Admissible st.symbolics st.constraints e) (hw : e.width = 1) (recompute : Bool) (s : σ) :
    (∃ added st' s', st.addConstraint svc e recompute s = some (added,st',s') ∧
      st.AddOutcome e recompute added st') ∨ st.addConstraint svc e recompute s = none ∧ recompute ∧
      e.eval st.concolics.assignment ≠ 1 ∧ rejects svc e s := by
  by_cases htrue : e.eval st.concolics.assignment = 1
  · obtain ⟨st',s',h,hext⟩ := addConstraint_holds hsvc hok he hw recompute s htrue
    exact .inl ⟨true,st',s',h,fun _ => hext,fun h => (by cases h),by simp [htrue]⟩
  have hr := hsvc.simplify e s he.wf
  have hadm := he.preserve hr
  have hrw : (svc.simplify e s).1.width = 1 := hr.width.trans hw
  have hmodel : ∀ a : Assignment, a.Satisfies st.constraints →
      ((svc.simplify e s).1.eval a = 1 ↔ e.eval a = 1) := by
    intro a ha
    rw [hr.eval a (he.defined a ha)]
  obtain ⟨concolics,hev,hun⟩ := hok.evaluate hadm
  have hok' := hun.ok hok
  have hvalue : ((svc.simplify e s).1.value st.concolics.assignment).isTrue = false := by
    have h0 := Expr.Boolean.eval_ne_one ⟨hr.wf,hrw⟩
      (fun h => htrue ((hmodel _ hok.fits.satisfies).mp h))
    simp [value,alloc,Expr.isTrue,APInt.isTrue,h0]
  unfold addConstraint
  simp only []
  split
  next hc =>
    refine .inl ⟨false,st,_,rfl,fun h => (by cases h),fun _ => hok.unchanged,?_⟩
    have hnone : ¬∃ a : Assignment, a.Satisfies st.constraints ∧ e.eval a = 1 := by
      rintro ⟨a,ha,h1⟩
      rw [← hmodel a ha] at h1
      exact isConstant_not_isTrue hrw hc h1
    simp [htrue,hnone]
  next hc =>
    simp only [hev,bind_eq_bind,bind_some]
    rw [if_neg (by simp [value,alloc,isConstant]),if_neg (by simp [hvalue])]
    cases recompute with
    | false =>
      exact .inl ⟨false,_,_,rfl,fun h => (by cases h),fun _ => hun,by simp [htrue]⟩
    | true =>
      cases hadd : ConstraintManager.addConstraint st.constraints (svc.simplify e s).1 with
      | none =>
        refine .inr ⟨by simp,rfl,htrue,?_⟩
        have hfalse : (svc.simplify e s).1.hasFalseConjunct := by
          rw [ConstraintManager.addConstraint_eq] at hadd
          by_contra hn
          simp [hn] at hadd
        have hconst : (svc.simplify e s).1.isConstant = false := by
          by_contra hn
          rw [Bool.not_eq_false] at hn
          simp only [hn,Bool.true_and,Bool.not_eq_true',Bool.not_eq_false] at hc
          refine htrue ((hmodel _ hok.fits.satisfies).mp ?_)
          exact isTrue_eval hc _
        simp [rejects,hfalse,hconst]
      | some C =>
        left
        obtain ⟨hm,hmodels⟩ := hok.meaningful.add hadm hrw hadd
        have hsolve := solve_spec hsvc {st with concolics} hm concolics (svc.simplify e s).2
        simp only [if_true,bind_some]
        cases hs : solve svc {st with concolics} C concolics (svc.simplify e s).2 with
        | mk o s' =>
          rw [hs] at hsolve
          cases o with
          | none =>
            refine ⟨false,_,_,rfl,fun h => (by cases h),fun _ => hun,?_⟩
            have hnone : ¬∃ a : Assignment, a.Satisfies st.constraints ∧ e.eval a = 1 := by
              rintro ⟨a,ha,h1⟩
              exact hsolve ⟨a,(hmodels a).mpr ⟨ha,(hmodel a ha).mpr h1⟩⟩
            simp [htrue,hnone]
          | some c =>
            have hboth := (hmodels _).mp hsolve.satisfies
            have htrue' := (hmodel _ hboth.1).mp hboth.2
            obtain ⟨st',hcommit,hext,-⟩ := commit_spec {st with concolics := c}
              hok.meaningful ⟨hsolve.binds,hsolve.cache,hboth.1⟩ hw he hr htrue' s'
            exact ⟨true,st',s',hcommit,fun _ => hext.of_concolics,fun h => (by cases h),
              ⟨fun _ => .inr ⟨rfl,_,hboth.1,htrue'⟩,fun _ => rfl⟩⟩

structure Concretized (st st' : ExecutionState) (e : Expr) (c : APInt) : Prop where
  ok : st'.Ok
  symbolics : st'.symbolics = st.symbolics
  models : ∀ a : Assignment, a.Satisfies st'.constraints ↔
    a.Satisfies st.constraints ∧ e.eval a = c.value

lemma equal_spec {symbolics : List ArrayObj} {l : Expr}
    (hl : Admissible symbolics C l) (hr : Admissible symbolics C r) (hw : l.width = r.width) :
    ∃ d, EqExpr.create l r = some d ∧ Admissible symbolics C d ∧ d.width = 1 ∧
      ∀ a : Assignment, a.Satisfies C → (d.eval a = 1 ↔ l.eval a = r.eval a) := by
  have hwf : (binary .eq l r).WF := ⟨hl.wf,hr.wf,hw⟩
  obtain ⟨d,hd,href⟩ := EqExpr.create_yields hwf
  have hdef : ∀ a : Assignment, a.Satisfies C → (binary .eq l r).Defined (.over symbolics) a true :=
    fun a ha => ⟨hl.defined a ha,hr.defined a ha⟩
  refine ⟨d,hd,⟨href.wf,fun a ha => href.defined a true (hdef a ha)⟩,href.width,fun a ha => ?_⟩
  rw [href.eval a (hdef a ha),eval_eq hwf]
  by_cases h : l.eval a = r.eval a <;> simp [h]

lemma admissible_constant {symbolics : List ArrayObj} (he : e.WF)
    (v : Nat) : Admissible symbolics C (alloc v e.width) :=
  ⟨⟨e.width_pos he,e.width_lt he⟩,fun _ _ => trivial⟩

lemma toConstant_spec (hsvc : svc.Sound) {st : ExecutionState} (hok : st.Ok)
    (he : Admissible st.symbolics st.constraints e) (s : σ) :
    ∃ c st' s', st.toConstant svc e s = some (.constant c,st',s') ∧ st.Concretized st' e c := by
  have hr := hsvc.simplify e s he.wf
  unfold toConstant
  cases hs : svc.simplify e s with
  | mk r s₁ =>
    rw [hs] at hr
    have hadm := he.preserve hr
    have heval : ∀ a : Assignment, a.Satisfies st.constraints → r.eval a = e.eval a :=
      fun a ha => hr.eval a (he.defined a ha)
    simp only []
    split
    next hc =>
      cases r with
      | constant c =>
        exact ⟨c,st,s₁,rfl,hok,rfl,fun a => ⟨fun ha => ⟨ha,(heval a ha).symm⟩,And.left⟩⟩
      | _ => cases hc
    · obtain ⟨concolics,hev,hun⟩ := hok.evaluate hadm
      have hok' := hun.ok hok
      obtain ⟨d,hd,hdadm,hdw,hdiff⟩ := equal_spec hadm
        (admissible_constant hr.wf (r.eval st.concolics.assignment)) rfl
      have htrue : d.eval st.concolics.assignment = 1 :=
        (hdiff _ hok.fits.satisfies).mpr (eval_value _ hr.wf).symm
      obtain ⟨st',s',hadd,hext⟩ := addConstraint_holds hsvc hok' hdadm hdw false s₁
        (by rw [hun.assignment]; exact htrue)
      refine ⟨APInt.ofNat r.width (r.eval st.concolics.assignment),st',s',?_,hext.ok,
        hext.symbolics,fun a => ?_⟩
      · simp only [hev,value,alloc,isConstant,Bool.not_true,
          Bool.false_eq_true,if_false,bind_eq_bind,bind_some]
        rw [alloc] at hd
        simp [hd,hadd]
      · rw [hext.models a]
        refine and_congr_right fun ha => ?_
        rw [hdiff a ha,heval a ha]
        rfl

lemma evaluate_bindings {c c' : Concolics} {e : Expr} (h : c.evaluate e = some (r,c')) :
    c'.bindings = c.bindings := by
  unfold Concolics.evaluate at h
  cases hv : c.visit e c.expressionCache with
  | none => simp [hv] at h
  | some p =>
    rw [hv] at h
    cases some.inj h
    rfl

lemma commit_added {s s' : σ} {added : Bool}
    (h : st.commit r s = some (added,st',s')) : added := by
  unfold commit at h
  cases hadd : ConstraintManager.addConstraint st.constraints r with
  | none => simp [hadd] at h
  | some C =>
    simp only [hadd,bind_eq_bind,bind_some] at h
    cases some.inj h
    rfl

lemma addConstraint_atomic {recompute : Bool} {s s' : σ}
    (h : st.addConstraint svc e recompute s = some (false,st',s')) :
    st'.constraints = st.constraints ∧ st'.concolics.bindings = st.concolics.bindings := by
  unfold addConstraint at h
  simp only [bind_eq_bind] at h
  split at h
  · cases some.inj h
    exact ⟨rfl,rfl⟩
  cases hev : st.concolics.evaluate (svc.simplify e s).1 with
  | none => simp [hev] at h
  | some p =>
    obtain ⟨evaluated,concolics⟩ := p
    have hb := evaluate_bindings hev
    simp only [hev,bind_some] at h
    split at h
    · cases some.inj h
      exact ⟨rfl,hb⟩
    split at h
    · cases commit_added h
    split at h
    · cases hadd : ConstraintManager.addConstraint st.constraints (svc.simplify e s).1 with
      | none => simp [hadd] at h
      | some C =>
        simp only [hadd,bind_some] at h
        split at h
        · cases some.inj h
          exact ⟨rfl,hb⟩
        · cases commit_added h
    · cases some.inj h
      exact ⟨rfl,hb⟩

end ExecutionState

open Classical in
noncomputable def idealServices : Services Unit where
  simplify e s := (e,s)
  getInitialValues C objects s := (if h : ∃ a : Assignment, a.Satisfies C then
      some (objects.map fun arr => ofFn fun i : Fin arr.size => h.choose arr i)
    else none,s)

lemma idealServices_sound : idealServices.Sound where
  simplify e _ he := ⟨he,rfl,fun _ h => h,fun _ _ => rfl⟩
  solution C objects s values hm h := by
    simp only [idealServices] at h
    split at h
    next hex =>
      cases some.inj h
      refine ⟨by simp [Function.comp_def],hex.choose,hex.choose_spec,fun p hp i hi => ?_⟩
      rw [← map_prod_left_eq_zip,List.mem_map] at hp
      obtain ⟨arr,-,rfl⟩ := hp
      have hi' : i < arr.size := hi
      simp [getD_eq_getElem?_getD,hi']
    · cases h
  complete C objects s hm h := by
    simp only [idealServices] at h
    split at h
    · cases h
    · assumption

end S2E
