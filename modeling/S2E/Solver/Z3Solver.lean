import S2E.Solver.Z3Translation

/-!
The three ways to drive the solver: a stack of scopes that follows the constraints, a fresh
start for every query, and assumptions that guard each assertion. Z3 itself is a function
that answers for the formulas in force, or gives up.
-/

namespace S2E
open Smt Stateful List Returns Term

structure ConditionNode where
  id : Nat
  depth : Nat
  expr : Expr
  deriving DecidableEq

structure Z3Query where
  constraints : List ConditionNode
  expr : Expr
  objects : List ArrayObj

inductive Z3Backend where
  | stack | reset | assumption
  deriving DecidableEq, Repr

/-- The options, the names of the arrays, and Z3: its answer may depend on when it is asked. -/
structure Z3Config where
  backend : Z3Backend
  mode : ArrayConsMode
  names : ArrayNames
  assumptionResetThreshold : Nat
  z3 : Nat → List Z3Expr → Option Bool

structure Z3SolverState where
  builder : Z3BuilderState
  frames : List Z3BuilderCache
  lastConstraints : List ConditionNode
  guards : List (Expr × Z3Expr)
  guardCounter : Nat
  queries : Nat

def Z3SolverState.start : Z3SolverState := ⟨.start,[],[],[],0,0⟩

/-- A query, or update lists are extended in place, and with them the expressions that read them;
`extended` says which one each becomes. -/
inductive Z3Call where
  | query (q : Z3Query)
  | extend (extended : Expr → Expr)

def Z3Call.query? : Z3Call → Option Z3Query
  | .query q => some q
  | .extend _ => none

namespace Z3SolverState
variable (s : Z3SolverState) (extended : Expr → Expr)

def extendKeys (keys : List (Expr × Z3Expr)) : List (Expr × Z3Expr) :=
  keys.map fun p => (extended p.1,p.2)

/-- The expressions in the caches, in the guards and in the constraints of the last query become
those that read the extended lists. -/
def extend : Z3SolverState :=
  let cache (c : Z3BuilderCache) := {c with exprs := extendKeys extended c.exprs}
  { s with
    builder := {s.builder with cache := cache s.builder.cache}
    frames := s.frames.map cache
    lastConstraints := s.lastConstraints.map fun n => {n with expr := extended n.expr}
    guards := extendKeys extended s.guards}

end Z3SolverState

abbrev Z3M := StateT Z3SolverState Option

def commonLength : List ConditionNode → List ConditionNode → Nat
  | n :: ns, m :: ms => if n = m then commonLength ns ms+1 else 0
  | _, _ => 0

def guardName (n : Nat) : Z3Name := (103#8 :: printNat 10 n).take 15

def Z3SolverState.nextGuard (s : Z3SolverState) : Z3Expr := .boolConst (guardName s.guardCounter)

variable {s : Z3SolverState} {q : Z3Query} {e : Expr}

variable {E : Expr → Prop} {arr : ArrayObj} {M : ArrayObj → Prop}

namespace Z3Config
variable (cfg : Z3Config)

def incremental : Bool := cfg.backend == .stack && cfg.mode != .ite

def push : Z3M Unit :=
  modify fun s => { s with
    builder := {s.builder with solver := s.builder.solver.push}
    frames := if cfg.incremental then s.builder.cache :: s.frames else s.frames}

def popOne (s : Z3SolverState) : Option Z3SolverState := do
  let solver ← s.builder.solver.pop
  if cfg.incremental then
    match s.frames with
    | [] => none
    | cache :: frames => some {s with builder := ⟨cache,solver⟩, frames}
  else
    some {s with builder := ⟨.empty,solver⟩}

def popMany : Nat → Z3SolverState → Option Z3SolverState
  | 0, s => some s
  | n+1, s => (cfg.popOne s).bind (popMany n)

def pop (n : Nat) : Z3M Unit := fun s => (cfg.popMany n s).map ((),·)

def reset : Z3M Unit := modify fun s => {s with builder := .start, frames := []}

def build {α : Type} (m : BuilderM α) : Z3M α := fun s =>
  (m s.builder).map fun r => (r.1, {s with builder := r.2})

def construct (e : Expr) : Z3M Z3Expr := build (S2E.construct cfg.names cfg.mode e)

def add (f : Z3Expr) : Z3M Unit :=
  modify fun s => {s with builder := {s.builder with solver := s.builder.solver.add f}}

def checkSat (assumptions : List Z3Expr) : Z3M (Option Bool) := do
  let s ← get
  return cfg.z3 s.queries (assumptions ++ s.builder.solver.formulas)

def pushConstraints : List ConditionNode → Z3M Unit
  | [] => pure ()
  | node :: nodes => do
    cfg.push
    let t ← cfg.construct node.expr
    add t
    pushConstraints nodes

def popConstraints : List ConditionNode → Z3M Unit
  | [] => pure ()
  | node :: nodes => cfg.pop (1+((node :: nodes).getLast (by simp)).depth-node.depth)

def stackCheck (q : Z3Query) : Z3M (Option Bool) := do
  let last := (← get).lastConstraints
  let shared := commonLength q.constraints last
  cfg.popConstraints (last.drop shared)
  cfg.pushConstraints (q.constraints.drop shared)
  modify fun s => {s with lastConstraints := q.constraints}
  cfg.push
  let t ← cfg.construct q.expr
  add (.not t)
  cfg.checkSat []

def addConstraints : List ConditionNode → Z3M Unit
  | [] => pure ()
  | node :: nodes => do
    let t ← cfg.construct node.expr
    add t
    addConstraints nodes

def resetCheck (q : Z3Query) : Z3M (Option Bool) := do
  cfg.addConstraints q.constraints
  let t ← cfg.construct q.expr
  add (.not t)
  cfg.checkSat []

def getAssumption (assertion : Expr) : Z3M Z3Expr := do
  match (← get).guards.lookup assertion with
  | some guard => pure guard
  | none =>
    let guard := (← get).nextGuard
    modify fun s => { s with
      guardCounter := (s.guardCounter+1)%2^64
      guards := (assertion,guard) :: s.guards}
    let t ← cfg.construct assertion
    add (.boolBin .implies guard t)
    pure guard

def getAssumptions : List Expr → Z3M (List Z3Expr)
  | [] => pure []
  | e :: es => do
    let guard ← cfg.getAssumption e
    let guards ← getAssumptions es
    pure (guard :: guards)

def assumptionCheck (q : Z3Query) : Z3M (Option Bool) := do
  let constraints ← cfg.getAssumptions (q.constraints.map (·.expr))
  let negated ← StateT.lift q.expr.createIsZero
  let goal ← cfg.getAssumption negated
  cfg.checkSat (constraints ++ [goal])

def check (q : Z3Query) : Z3M (Option Bool) :=
  match cfg.backend with
  | .stack => cfg.stackCheck q
  | .reset => cfg.resetCheck q
  | .assumption => cfg.assumptionCheck q

def postCheck : Z3M Unit :=
  match cfg.backend with
  | .stack => cfg.pop 1
  | .reset => reset
  | .assumption => do
    if (← get).guards.length > cfg.assumptionResetThreshold then
      reset
      modify fun s => {s with guards := []}

def getInitialReads (arr : ArrayObj) : Z3M Unit :=
  if arr.size ≠ 0 ∧ cfg.mode ≠ .ite then
    discard (build (getInitialArray cfg.names cfg.mode arr))
  else pure ()

def extractModel : List ArrayObj → Z3M Unit
  | [] => pure ()
  | arr :: objects => do
    cfg.getInitialReads arr
    extractModel objects

def extractIfSat (result : Option Bool) (objects : List ArrayObj) : Z3M Unit :=
  if result = some true then cfg.extractModel objects else pure ()

def computeInitialValues (q : Z3Query) : Z3M (Option Bool) := do
  modify fun s => {s with queries := s.queries+1}
  let result ← cfg.check q
  cfg.extractIfSat result q.objects
  cfg.postCheck
  return result

def runQueries : List Z3Query → Z3M (List (Option Bool))
  | [] => pure []
  | q :: qs => do
    let verdict ← cfg.computeInitialValues q
    let verdicts ← runQueries qs
    pure (verdict :: verdicts)

def run : List Z3Call → Z3M (List (Option Bool))
  | [] => pure []
  | .query q :: calls => do
    let verdict ← cfg.computeInitialValues q
    let verdicts ← run calls
    pure (verdict :: verdicts)
  | .extend extended :: calls => do
    modify (·.extend extended)
    run calls

/-- Whenever lists are extended, no expression that the solver keeps reads one of them. -/
def Unextended : List Z3Call → Z3SolverState → Prop
  | [], _ => True
  | .query q :: calls, s =>
    ∀ verdict s', cfg.computeInitialValues q s = some (verdict,s') → Unextended calls s'
  | .extend extended :: calls, s => s.extend extended = s ∧ Unextended calls s

lemma run_eq_runQueries {calls : List Z3Call} {s : Z3SolverState} (h : cfg.Unextended calls s) :
    cfg.run calls s = cfg.runQueries (calls.filterMap Z3Call.query?) s := by
  induction calls generalizing s with
  | nil => rfl
  | cons call calls ih =>
    cases call with
    | extend extended =>
      show cfg.run calls (s.extend extended) = _
      rw [h.1]
      exact ih h.2
    | query q =>
      show (cfg.computeInitialValues q s).bind _ = (cfg.computeInitialValues q s).bind _
      cases hq : cfg.computeInitialValues q s with
      | none => rfl
      | some p =>
        show (cfg.run calls p.2).bind _ = (cfg.runQueries _ p.2).bind _
        rw [ih (h p.1 p.2 hq)]

def formula (e : Expr) : Z3Expr := (e.toZ3 cfg.names cfg.mode).getD (.boolVal false)

def contents (arr : ArrayObj) : Z3Expr := getArrayAssertion cfg.names arr

def asked (e : Expr) : Expr :=
  match cfg.backend with
  | .assumption => e.createIsZero.getD e
  | _ => e

def goal (e : Expr) : Z3Expr :=
  match cfg.backend with
  | .assumption => cfg.formula (cfg.asked e)
  | _ => .not (cfg.formula e)

def Asserted (E : Expr → Prop) (arr : ArrayObj) : Prop :=
  cfg.mode = .asserts ∧ arr.isConstantArray = true ∧ ∃ e, E e ∧ e.mentions arr = true

def Terms (q : Z3Query) (e : Expr) : Prop :=
  e ∈ q.constraints.map (·.expr) ∨ e = cfg.asked q.expr

def Target (q : Z3Query) (ρ : Env Z3Name) : Prop :=
  (∀ node ∈ q.constraints, (cfg.formula node.expr).Holds ρ) ∧ (cfg.goal q.expr).Holds ρ ∧
    ∀ arr, cfg.Asserted (cfg.Terms q) arr → (cfg.contents arr).Holds ρ

def Decides : Prop :=
  ∀ n F b, cfg.z3 n F = some b → (b = true ↔ ∃ ρ : Env Z3Name, ∀ f ∈ F, f.Holds ρ)

variable (S : Expr → Prop)

structure Askable (e : Expr) : Prop where
  boolean : e.Boolean
  conforms : e.Conforms .canonical
  noBoolConcat : e.NoBoolConcat
  reads : ∀ ul i, Expr.read ul i ∈ e.subexprs → S (.read ul i)

variable {cfg} {S}

lemma Askable.toZ3 (h : Askable S e) : e.toZ3 cfg.names cfg.mode = some (cfg.formula e) := by
  obtain ⟨t,ht,-⟩ := e.toZ3_spec cfg.names cfg.mode h.boolean.1 h.conforms h.noBoolConcat
  simp [formula,ht]

structure Describes (cfg : Z3Config) (E : Expr → Prop) (F : List Z3Expr) : Prop where
  formula : ∀ e, E e → cfg.formula e ∈ F
  contents : ∀ arr, cfg.Asserted E arr → cfg.contents arr ∈ F
  only : ∀ f ∈ F, (∃ e, E e ∧ f = cfg.formula e) ∨ ∃ arr, cfg.Asserted E arr ∧ f = cfg.contents arr

lemma Asserted.mono {E' : Expr → Prop} (h : cfg.Asserted E arr)
    (hE : ∀ e, E e → E' e) : cfg.Asserted E' arr := by
  obtain ⟨hmode,hc,e,he,hm⟩ := h
  exact ⟨hmode,hc,e,hE e he,hm⟩

lemma Asserted.cases (h : cfg.Asserted (fun x => x = e ∨ E x) arr) :
    (cfg.mode = .asserts ∧ arr.isConstantArray ∧ e.mentions arr) ∨ cfg.Asserted E arr := by
  obtain ⟨hmode,hc,x,rfl | hx,hm⟩ := h
  · exact .inl ⟨hmode,hc,hm⟩
  · exact .inr ⟨hmode,hc,x,hx,hm⟩

structure Constructed (cfg : Z3Config) (e : Expr) (F F' : List Z3Expr) : Prop where
  mono : ∀ f ∈ F, f ∈ F'
  contents : ∀ arr, cfg.Asserted (· = e) arr → cfg.contents arr ∈ F'
  only : ∀ f ∈ F', f ∈ F ∨ ∃ arr, cfg.Asserted (· = e) arr ∧ f = cfg.contents arr

lemma Describes.add {F F' : List Z3Expr} (h : Describes cfg E F) (hc : Constructed cfg e F F') :
    Describes cfg (fun x => x = e ∨ E x) (cfg.formula e :: F') where
  formula x hx := by
    rcases hx with rfl | hx
    · exact mem_cons_self
    · exact mem_cons_of_mem _ (hc.mono _ (h.formula x hx))
  contents arr ha := by
    refine mem_cons_of_mem _ ?_
    rcases ha.cases with ⟨hmode,hca,hm⟩ | ha
    · exact hc.contents arr ⟨hmode,hca,e,rfl,hm⟩
    · exact hc.mono _ (h.contents arr ha)
  only f hf := by
    rcases mem_cons.mp hf with rfl | hf
    · exact .inl ⟨e,.inl rfl,rfl⟩
    rcases hc.only f hf with hf | ⟨arr,ha,rfl⟩
    · rcases h.only f hf with ⟨x,hx,rfl⟩ | ⟨arr,ha,rfl⟩
      · exact .inl ⟨x,.inr hx,rfl⟩
      · exact .inr ⟨arr,ha.mono fun _ => .inr,rfl⟩
    · exact .inr ⟨arr,ha.mono fun _ => .inl,rfl⟩

lemma asked_eq (hb : cfg.backend ≠ .assumption) (e : Expr) : cfg.asked e = e := by
  unfold asked
  split
  · contradiction
  · rfl

lemma goal_eq (hb : cfg.backend ≠ .assumption) (e : Expr) :
    cfg.goal e = .not (cfg.formula e) := by
  unfold goal
  split
  · contradiction
  · rfl

lemma Describes.target (hb : cfg.backend ≠ .assumption) {F F' : List Z3Expr}
    (h : Describes cfg (· ∈ q.constraints.map (·.expr)) F)
    (hc : Constructed cfg q.expr F F') (ρ : Env Z3Name) :
    (∀ f ∈ .not (cfg.formula q.expr) :: F', f.Holds ρ) ↔ cfg.Target q ρ := by
  unfold Target Terms
  rw [asked_eq hb,goal_eq hb]
  constructor
  · intro hF
    refine ⟨fun node hn => ?_,hF _ mem_cons_self,fun arr ha => ?_⟩
    · exact hF _ (mem_cons_of_mem _ (hc.mono _ (h.formula _ (mem_map_of_mem hn))))
    · refine hF _ (mem_cons_of_mem _ ?_)
      rcases (ha.mono fun _ => Or.symm).cases with ⟨hmode,hca,hm⟩ | ha
      · exact hc.contents arr ⟨hmode,hca,_,rfl,hm⟩
      · exact hc.mono _ (h.contents arr ha)
  · rintro ⟨hE,hg,hcon⟩ f hf
    rcases mem_cons.mp hf with rfl | hf
    · exact hg
    rcases hc.only f hf with hf | ⟨arr,ha,rfl⟩
    · rcases h.only f hf with ⟨e,he,rfl⟩ | ⟨arr,ha,rfl⟩
      · obtain ⟨node,hn,rfl⟩ := mem_map.mp he
        exact hE node hn
      · exact hcon arr (ha.mono fun _ => .inl)
    · exact hcon arr (ha.mono fun _ => .inr)

structure Grows (cfg : Z3Config) (M : ArrayObj → Prop) (b b' : Z3BuilderState) : Prop where
  outer : b'.solver.outer = b.solver.outer
  inner : ∃ new, b'.solver.inner = new ++ b.solver.inner ∧
    ∀ f ∈ new, ∃ arr, cfg.mode = .asserts ∧ M arr ∧ arr.isConstantArray = true ∧
      f = cfg.contents arr

lemma Grows.refl {b : Z3BuilderState} : Grows cfg M b b := ⟨rfl,[],rfl,nofun⟩

lemma Grows.trans {b b' b'' : Z3BuilderState} (h : Grows cfg M b b')
    (h' : Grows cfg M b' b'') : Grows cfg M b b'' := by
  obtain ⟨new,hnew,hmem⟩ := h.inner
  obtain ⟨new',hnew',hmem'⟩ := h'.inner
  refine ⟨h'.outer.trans h.outer,new' ++ new,by rw [hnew',hnew,append_assoc],?_⟩
  intro f hf
  rcases mem_append.mp hf with hf | hf
  · exact hmem' f hf
  · exact hmem f hf

lemma Grows.mono {M' : ArrayObj → Prop} {b b' : Z3BuilderState} (h : Grows cfg M b b')
    (hM : ∀ arr, M arr → M' arr) : Grows cfg M' b b' := by
  obtain ⟨new,hnew,hmem⟩ := h.inner
  refine ⟨h.outer,new,hnew,fun f hf => ?_⟩
  obtain ⟨arr,hmode,ha,hc,rfl⟩ := hmem f hf
  exact ⟨arr,hmode,hM arr ha,hc,rfl⟩

lemma Grows.of_steps {K : Expr → Prop} {b b' : Z3BuilderState}
    (h : Steps cfg.names cfg.mode M K b b') : Grows cfg M b b' := ⟨h.outer,h.inner⟩

lemma Grows.formulas {b b' : Z3BuilderState} (h : Grows cfg M b b') :
    ∃ new, b'.solver.formulas = new ++ b.solver.formulas ∧
      ∀ f ∈ new, ∃ arr, cfg.mode = .asserts ∧ M arr ∧ arr.isConstantArray ∧
        f = cfg.contents arr := by
  obtain ⟨new,hnew,hmem⟩ := h.inner
  exact ⟨new,by simp [Assertions.formulas,h.outer,hnew],hmem⟩

def KnowsAll (cfg : Z3Config) (e : Expr) (b : Z3BuilderState) : Prop :=
  ∀ arr, cfg.Asserted (· = e) arr → cfg.contents arr ∈ b.solver.formulas

lemma Grows.constructed {b b' : Z3BuilderState}
    (h : Grows cfg (e.mentions ·) b b') (hk : KnowsAll cfg e b') :
    Constructed cfg e b.solver.formulas b'.solver.formulas := by
  obtain ⟨new,hnew,hmem⟩ := h.formulas
  refine ⟨fun f hf => by rw [hnew]; exact mem_append_right _ hf,hk,fun f hf => ?_⟩
  rw [hnew] at hf
  rcases mem_append.mp hf with hf | hf
  · obtain ⟨arr,hmode,ha,hc,rfl⟩ := hmem f hf
    exact .inr ⟨arr,⟨hmode,hc,e,rfl,ha⟩,rfl⟩
  · exact .inl hf

section
variable (hap : Separate cfg.names cfg.mode S)
include hap

lemma construct_returns (he : Askable S e) (hs : Coherent cfg.names cfg.mode S s.builder) :
    Returns (cfg.construct e) s fun t s' => t = cfg.formula e ∧ ∃ b, s' = {s with builder := b} ∧
      Coherent cfg.names cfg.mode S b ∧ Grows cfg (e.mentions ·) s.builder b ∧
      KnowsAll cfg e b := by
  obtain ⟨t,b,hrun,rfl,hb,hsteps,hknows⟩ :=
    construct_constructs hap e he.reads he.toZ3 s.builder hs
  refine ⟨_, {s with builder := b},?_,rfl,b,rfl,hb,.of_steps hsteps,?_⟩
  · simp [construct,build,hrun]
  · rintro arr ⟨hmode,hc,e,rfl,hm⟩
    exact hknows arr hm hmode hc

omit hap in
lemma getInitialReads_returns (arr : ArrayObj) (hs : Coherent cfg.names cfg.mode S s.builder) :
    Returns (cfg.getInitialReads arr) s fun _ s' => ∃ b, s' = {s with builder := b} ∧
      Coherent cfg.names cfg.mode S b ∧ Grows cfg (· = arr) s.builder b := by
  unfold getInitialReads
  split
  · obtain ⟨t,b,hrun,-,hb,hsteps,-⟩ := getInitialArray_constructs arr s.builder hs
    refine ⟨(), {s with builder := b},?_,b,rfl,hb,(Grows.of_steps hsteps).mono ?_⟩
    · show (build _ s).bind _ = _
      simp only [build,hrun,Option.map_some]
      rfl
    · exact fun _ => Eq.symm
  · exact .pure ⟨s.builder,rfl,hs,.refl⟩

omit hap in
lemma extractModel_returns : (objects : List ArrayObj) → {s : Z3SolverState} →
    Coherent cfg.names cfg.mode S s.builder →
    Returns (cfg.extractModel objects) s fun _ s' => ∃ b, s' = {s with builder := b} ∧
      Coherent cfg.names cfg.mode S b ∧ Grows cfg (· ∈ objects) s.builder b
  | [], s, hs => .pure ⟨s.builder,rfl,hs,.refl⟩
  | arr :: objects, s, hs => by
    refine bind (getInitialReads_returns arr hs) ?_
    rintro _ _ ⟨b,rfl,hb,hg⟩
    refine (extractModel_returns objects (s := {s with builder := b}) hb).mono ?_
    rintro _ _ ⟨b',rfl,hb',hg'⟩
    refine ⟨b',rfl,hb',.trans (hg.mono ?_) (hg'.mono fun _ => mem_cons_of_mem _)⟩
    rintro x rfl
    exact mem_cons_self

omit hap in
lemma extractIfSat_returns (result : Option Bool) (objects : List ArrayObj)
    (hs : Coherent cfg.names cfg.mode S s.builder) :
    Returns (cfg.extractIfSat result objects) s fun _ s' => ∃ b, s' = {s with builder := b} ∧
      Coherent cfg.names cfg.mode S b ∧ Grows cfg (· ∈ objects) s.builder b := by
  unfold extractIfSat
  split
  · exact extractModel_returns objects hs
  · exact .pure ⟨s.builder,rfl,hs,.refl⟩

omit hap in
lemma coherent_empty (solver : Assertions Z3Name) :
    Coherent cfg.names cfg.mode S ⟨.empty,solver⟩ :=
  ⟨nofun,nofun,nofun,nofun⟩

/-- The innermost scope of `b'`, on top of `b`, is that of a constraint: the formula of the
constraint and the contents of arrays of it. -/
structure ScopeOf (cfg : Z3Config) (node : ConditionNode) (b b' : Z3BuilderState) : Prop where
  outer : b'.solver.outer = b.solver.inner :: b.solver.outer
  inner : ∃ new, b'.solver.inner = cfg.formula node.expr :: new ∧
    (∀ f ∈ new, ∃ arr, cfg.Asserted (· = node.expr) arr ∧ f = cfg.contents arr) ∧
    ∀ arr, cfg.Asserted (· = node.expr) arr → cfg.contents arr ∈ new ++ b.solver.formulas

omit hap in
lemma ScopeOf.constructed {node : ConditionNode} {b b' : Z3BuilderState}
    (h : ScopeOf cfg node b b') : ∃ F, b'.solver.formulas = cfg.formula node.expr :: F ∧
      Constructed cfg node.expr b.solver.formulas F := by
  obtain ⟨new,hinner,honly,hknows⟩ := h.inner
  refine ⟨new ++ b.solver.formulas,?_,fun f hf => mem_append_right _ hf,hknows,fun f hf => ?_⟩
  · simp [Assertions.formulas,hinner,h.outer]
  · rcases mem_append.mp hf with hf | hf
    · exact .inr (honly f hf)
    · exact .inl hf

inductive Stacked (cfg : Z3Config) (S : Expr → Prop) :
    List ConditionNode → Z3BuilderState → List Z3BuilderCache → Prop
  | base {b : Z3BuilderState} : b.solver = .empty → Coherent cfg.names cfg.mode S b →
      Stacked cfg S [] b []
  | node {node : ConditionNode} {nodes : List ConditionNode} {b b' : Z3BuilderState}
      {frames frames' : List Z3BuilderCache} : Stacked cfg S nodes b frames →
      ScopeOf cfg node b b' → Coherent cfg.names cfg.mode S b' →
      frames' = (if cfg.incremental then b.cache :: frames else frames) →
      Stacked cfg S (node :: nodes) b' frames'

namespace Stacked
variable {node : ConditionNode} {nodes : List ConditionNode} {b : Z3BuilderState}
  {frames : List Z3BuilderCache}

omit hap in
section
variable (h : Stacked cfg S nodes b frames)
include h

lemma coherent : Coherent cfg.names cfg.mode S b := by
  cases h with
  | base _ hb => exact hb
  | node _ _ hb _ => exact hb

omit hap in
lemma describes : Describes cfg (· ∈ nodes.map (·.expr)) b.solver.formulas := by
  induction h with
  | base hb =>
    rw [hb]
    refine ⟨fun e he => ?_,?_,nofun⟩
    · simp at he
    · rintro arr ⟨-,-,e,he,-⟩
      simp at he
  | @node node nodes b b' _ _ _ hscope _ _ ih =>
    obtain ⟨F,hF,hc⟩ := hscope.constructed
    rw [hF]
    simpa only [map_cons,mem_cons] using ih.add hc

omit hap in
lemma forget : Stacked cfg S nodes ⟨.empty,b.solver⟩ frames := by
  cases h with
  | base hb => exact .base hb (coherent_empty _)
  | node hlow hscope _ hframes =>
    exact .node hlow ⟨hscope.outer,hscope.inner⟩ (coherent_empty _) hframes

omit hap in
lemma leave (houter : s.builder.solver.outer = b.solver.inner :: b.solver.outer)
    (hframes : s.frames = if cfg.incremental then b.cache :: frames else frames) :
    ∃ b' frames', cfg.popOne s = some {s with builder := b', frames := frames'} ∧
      Stacked cfg S nodes b' frames' := by
  have hpop : s.builder.solver.pop = some b.solver := by simp [Assertions.pop,houter]
  unfold popOne
  rw [hpop]
  by_cases hinc : cfg.incremental
  · rw [if_pos hinc] at hframes
    exact ⟨b,frames,by simp [hinc,hframes],h⟩
  · have hinc' : cfg.incremental = false := by simpa using hinc
    rw [if_neg hinc] at hframes
    exact ⟨⟨.empty,b.solver⟩,frames,by simp [hinc',← hframes],h.forget⟩

end

omit hap in
lemma popMany : (n : Nat) → {nodes : List ConditionNode} → {s : Z3SolverState} →
    n ≤ nodes.length → Stacked cfg S nodes s.builder s.frames →
    ∃ b' frames', cfg.popMany n s = some {s with builder := b', frames := frames'} ∧
      Stacked cfg S (nodes.drop n) b' frames'
  | 0, _, s, _, h => ⟨s.builder,s.frames,rfl,h⟩
  | n+1, nodes, s, hn, h => by
    generalize hb : s.builder = b at h
    generalize hf : s.frames = frames at h
    cases h with
    | base => simp at hn
    | node hlow hscope _ hframes =>
      subst hb
      obtain ⟨b1,frames1,hpop,h1⟩ := hlow.leave hscope.outer (hf.trans hframes)
      obtain ⟨b2,frames2,hpop2,h2⟩ := popMany n (s := {s with builder := b1, frames := frames1})
        (by simpa using hn) h1
      exact ⟨b2,frames2,by rw [Z3Config.popMany,hpop]; exact hpop2,h2⟩

end Stacked

omit hap in
lemma push_returns (hs : Coherent cfg.names cfg.mode S s.builder) :
    Returns cfg.push s fun _ s' => ∃ b frames, s' = {s with builder := b, frames := frames} ∧
      Coherent cfg.names cfg.mode S b ∧ b.solver = s.builder.solver.push ∧
      frames = if cfg.incremental then s.builder.cache :: s.frames else s.frames := by
  refine ⟨(),_,rfl,_,_,rfl,?_,rfl,rfl⟩
  refine hs.of_knows fun arr h hm hc => ?_
  rw [Assertions.formulas_push]
  exact h hm hc

lemma pushNode_returns {node : ConditionNode} {nodes : List ConditionNode}
    (he : Askable S node.expr) (hs : Stacked cfg S nodes s.builder s.frames) :
    Returns (do cfg.push; let t ← cfg.construct node.expr; add t) s fun _ s' =>
      ∃ b frames, s' = {s with builder := b, frames := frames} ∧
        Stacked cfg S (node :: nodes) b frames := by
  refine bind (push_returns hs.coherent) ?_
  rintro _ _ ⟨b,frames,rfl,hb,hsolver,hframes⟩
  refine bind (construct_returns hap he (s := {s with builder := b, frames := frames}) hb) ?_
  rintro _ _ ⟨rfl,b',rfl,hb',hgrows,hknows⟩
  refine ⟨(),_,rfl,_,frames,rfl,.node hs ?_ (hb'.add _) hframes⟩
  obtain ⟨new,hnew,honly⟩ := hgrows.inner
  rw [hsolver] at hnew
  refine ⟨?_,new,?_,fun f hf => ?_,fun arr ha => ?_⟩
  · show b'.solver.outer = _
    rw [hgrows.outer]
    exact congrArg Assertions.outer hsolver
  · show _ :: b'.solver.inner = _
    rw [hnew]
    simp [Assertions.push]
  · obtain ⟨arr,hmode,hm,hc,rfl⟩ := honly f hf
    exact ⟨arr,⟨hmode,hc,_,rfl,hm⟩,rfl⟩
  · have := hknows arr ha
    have houter : b'.solver.outer = s.builder.solver.push.outer := by
      rw [hgrows.outer]
      exact congrArg Assertions.outer hsolver
    simpa [Assertions.formulas,hnew,houter,Assertions.push] using this

lemma pushConstraints_returns : (nodes : List ConditionNode) →
    (∀ node ∈ nodes, Askable S node.expr) → {below : List ConditionNode} → {s : Z3SolverState} →
    Stacked cfg S below s.builder s.frames → Returns (cfg.pushConstraints nodes) s fun _ s' =>
      ∃ b frames, s' = {s with builder := b, frames := frames} ∧
        Stacked cfg S (nodes.reverse ++ below) b frames
  | [], _, below, s, hs => .pure ⟨_,_,rfl,hs⟩
  | node :: nodes, he, below, s, hs => by
    have hbind : cfg.pushConstraints (node :: nodes) =
        (do cfg.push; let t ← cfg.construct node.expr; add t) >>= fun _ =>
          cfg.pushConstraints nodes := by
      simp [pushConstraints]
    rw [hbind]
    refine bind (pushNode_returns hap (he node (by simp)) hs) ?_
    rintro _ _ ⟨b,frames,rfl,h⟩
    refine (pushConstraints_returns nodes (fun n hn => he n (by simp [hn]))
      (s := {s with builder := b, frames := frames}) h).mono ?_
    rintro _ _ ⟨b',frames',rfl,h'⟩
    exact ⟨b',frames',rfl,by simpa using h'⟩

def IsPath (nodes : List ConditionNode) : Prop :=
  nodes.IsChain fun n m => m.depth = n.depth+1

omit hap in
lemma IsPath.depth_getLast : {node : ConditionNode} → {nodes : List ConditionNode} →
    IsPath (node :: nodes) → ((node :: nodes).getLast (by simp)).depth = node.depth+nodes.length
  | _, [], _ => rfl
  | node, m :: nodes, h => by
    obtain ⟨hm,hrest⟩ := isChain_cons_cons.mp h
    have := IsPath.depth_getLast hrest
    rw [getLast_cons (by simp),this,hm,length_cons]
    omega

omit hap in
lemma popConstraints_returns {kept left : List ConditionNode} (hpath : IsPath (kept ++ left))
    (hs : Stacked cfg S (kept ++ left).reverse s.builder s.frames) :
    Returns (cfg.popConstraints left) s fun _ s' =>
      ∃ b frames, s' = {s with builder := b, frames := frames} ∧
        Stacked cfg S kept.reverse b frames := by
  cases left with
  | nil => exact .pure ⟨_,_,rfl,by simpa using hs⟩
  | cons node left =>
    have hdepth := IsPath.depth_getLast (isChain_append.mp hpath).2.1
    have hamount : 1+((node :: left).getLast (by simp)).depth-node.depth =
        (node :: left).length := by
      rw [hdepth,length_cons]
      omega
    obtain ⟨b,frames,hpop,h⟩ := hs.popMany (node :: left).length (by simp)
    refine ⟨(),_,?_,b,frames,rfl,?_⟩
    · simp only [popConstraints,pop,hamount,hpop,Option.map_some]
    · have hlen : (node :: left).length = (node :: left).reverse.length := by simp
      rwa [reverse_append,hlen,drop_left] at h

omit hap in
lemma take_commonLength : (ns ms : List ConditionNode) →
    ns.take (commonLength ns ms) = ms.take (commonLength ns ms)
  | [], ms => by cases ms <;> rfl
  | _ :: _, [] => rfl
  | n :: ns, m :: ms => by
    by_cases h : n = m
    · simp [commonLength,h,take_commonLength ns ms]
    · simp [commonLength,h]

structure Posed (cfg : Z3Config) (S : Expr → Prop) (q : Z3Query) : Prop where
  path : IsPath q.constraints
  constraints : ∀ node ∈ q.constraints, Askable S node.expr
  boolean : q.expr.Boolean
  expr : Askable S (cfg.asked q.expr)

def Right (cfg : Z3Config) (q : Z3Query) (verdict : Option Bool) : Prop :=
  ∀ b, verdict = some b → (b = true ↔ ∃ ρ, cfg.Target q ρ)

lemma refute_returns (hz3 : cfg.Decides) (hb : cfg.backend ≠ .assumption)
    (hq : Posed cfg S q) (hs : Coherent cfg.names cfg.mode S s.builder)
    (hd : Describes cfg (· ∈ q.constraints.map (·.expr)) s.builder.solver.formulas) :
    Returns (do let t ← cfg.construct q.expr; add (.not t); cfg.checkSat []) s fun r s' =>
      Right cfg q r ∧ ∃ b, s' = {s with builder := b} ∧ Coherent cfg.names cfg.mode S b ∧
        b.solver.outer = s.builder.solver.outer := by
  have he := hq.expr
  rw [asked_eq hb] at he
  refine bind (construct_returns hap he hs) ?_
  rintro _ _ ⟨rfl,b,rfl,hco,hgrows,hknows⟩
  refine ⟨_,_,rfl,fun v hv => ?_,_,rfl,hco.add _,hgrows.outer⟩
  rw [hz3 _ _ _ hv]
  exact exists_congr fun ρ => hd.target hb (hgrows.constructed hknows) ρ

lemma stackCheck_returns (hz3 : cfg.Decides) (hb : cfg.backend = .stack)
    (hq : Posed cfg S q) (hpath : IsPath s.lastConstraints)
    (hs : Stacked cfg S s.lastConstraints.reverse s.builder s.frames) :
    Returns (cfg.stackCheck q) s fun r s' => Right cfg q r ∧ s'.lastConstraints = q.constraints ∧
      Coherent cfg.names cfg.mode S s'.builder ∧ ∃ b frames,
        Stacked cfg S q.constraints.reverse b frames ∧
        s'.builder.solver.outer = b.solver.inner :: b.solver.outer ∧
        s'.frames = if cfg.incremental then b.cache :: frames else frames := by
  have hb' : cfg.backend ≠ .assumption := by rw [hb]; decide
  let k := commonLength q.constraints s.lastConstraints
  have hlast : s.lastConstraints.take k ++ s.lastConstraints.drop k = s.lastConstraints :=
    take_append_drop k _
  refine .get_bind ?_
  -- Scopes that the queries do not share are left.
  refine bind (popConstraints_returns (hlast.symm ▸ hpath) (hlast.symm ▸ hs)) ?_
  rintro _ _ ⟨b1,frames1,rfl,h1⟩
  refine bind (pushConstraints_returns hap (q.constraints.drop k)
    (fun n hn => hq.constraints n (mem_of_mem_drop hn))
    (s := {s with builder := b1, frames := frames1}) h1) ?_
  rintro _ _ ⟨b2,frames2,rfl,h2⟩
  rw [← take_commonLength q.constraints,← reverse_append,take_append_drop] at h2
  refine .modify_bind ?_
  refine bind (push_returns h2.coherent) ?_
  rintro _ _ ⟨b3,frames3,rfl,h3,hsolver,hframes⟩
  have hd : Describes cfg (· ∈ q.constraints.map (·.expr)) b3.solver.formulas := by
    have := h2.describes
    rw [hsolver,Assertions.formulas_push]
    simpa only [map_reverse,mem_reverse] using this
  refine (refute_returns hap hz3 hb' hq (s := { s with
    builder := b3, frames := frames3, lastConstraints := q.constraints}) h3 hd).mono ?_
  rintro r _ ⟨hr,b4,rfl,h4,houter⟩
  refine ⟨hr,rfl,h4,b2,frames2,h2,?_,hframes⟩
  show b4.solver.outer = _
  rw [houter]
  exact congrArg Assertions.outer hsolver

lemma stackQuery_returns (hz3 : cfg.Decides) (hb : cfg.backend = .stack)
    (hq : Posed cfg S q) (hpath : IsPath s.lastConstraints)
    (hs : Stacked cfg S s.lastConstraints.reverse s.builder s.frames) :
    Returns (cfg.computeInitialValues q) s fun r s' => Right cfg q r ∧
      s'.lastConstraints = q.constraints ∧
      Stacked cfg S q.constraints.reverse s'.builder s'.frames := by
  refine .modify_bind ?_
  refine bind (P := fun r s' => Right cfg q r ∧ s'.lastConstraints = q.constraints ∧
      Coherent cfg.names cfg.mode S s'.builder ∧ ∃ b frames,
        Stacked cfg S q.constraints.reverse b frames ∧
        s'.builder.solver.outer = b.solver.inner :: b.solver.outer ∧
        s'.frames = if cfg.incremental then b.cache :: frames else frames) ?_ ?_
  · unfold check
    rw [hb]
    exact stackCheck_returns hap hz3 hb hq (s := {s with queries := s.queries+1}) hpath hs
  · rintro r s1 ⟨hr,hlast,hco,b,frames,hst,houter,hframes⟩
    refine bind (extractIfSat_returns r q.objects hco) ?_
    rintro _ _ ⟨b',rfl,-,hgrows⟩
    obtain ⟨b'',frames',hpop,hst'⟩ :=
      hst.leave (s := {s1 with builder := b'}) (hgrows.outer.trans houter) hframes
    refine bind (P := fun _ s' => s' = {s1 with builder := b'', frames := frames'})
      ⟨(),_,?_,rfl⟩ ?_
    · unfold postCheck
      rw [hb]
      simp [pop,popMany,hpop]
    · rintro _ _ rfl
      exact .pure ⟨hr,hlast,hst'⟩

lemma addConstraints_returns : (nodes : List ConditionNode) →
    (∀ node ∈ nodes, Askable S node.expr) → {E : Expr → Prop} → {s : Z3SolverState} →
    Coherent cfg.names cfg.mode S s.builder → Describes cfg E s.builder.solver.formulas →
    Returns (cfg.addConstraints nodes) s fun _ s' => ∃ b, s' = {s with builder := b} ∧
      Coherent cfg.names cfg.mode S b ∧
      Describes cfg (fun e => e ∈ nodes.map (·.expr) ∨ E e) b.solver.formulas
  | [], _, E, s, hs, hd => .pure ⟨_,rfl,hs,by simpa using hd⟩
  | node :: nodes, he, E, s, hs, hd => by
    refine bind (construct_returns hap (he node (by simp)) hs) ?_
    rintro _ _ ⟨rfl,b,rfl,hb,hgrows,hknows⟩
    refine .modify_bind ?_
    have hd' : Describes cfg (fun e => e = node.expr ∨ E e)
        (b.solver.add (cfg.formula node.expr)).formulas :=
      hd.add (hgrows.constructed hknows)
    refine (addConstraints_returns nodes (fun n hn => he n (by simp [hn])) (s := { s with
      builder := {b with solver := b.solver.add (cfg.formula node.expr)}}) (hb.add _) hd').mono ?_
    rintro _ _ ⟨b',rfl,hb',hdes⟩
    refine ⟨b',rfl,hb',?_⟩
    simpa only [map_cons,mem_cons,or_assoc,or_left_comm] using hdes

lemma resetQuery_returns (hz3 : cfg.Decides) (hb : cfg.backend = .reset)
    (hq : Posed cfg S q) (hs : s.builder = .start) :
    Returns (cfg.computeInitialValues q) s fun r s' => Right cfg q r ∧ s'.builder = .start := by
  have hb' : cfg.backend ≠ .assumption := by rw [hb]; decide
  have hnone : Describes cfg (fun _ => False) Z3BuilderState.start.solver.formulas :=
    ⟨fun _ h => h.elim,fun _ ⟨_,_,_,h,_⟩ => h.elim,nofun⟩
  refine .modify_bind ?_
  refine bind (P := fun r (s' : Z3SolverState) => Right cfg q r ∧
    Coherent cfg.names cfg.mode S s'.builder) ?_ ?_
  · unfold check
    rw [hb]
    refine bind (addConstraints_returns hap q.constraints hq.constraints
      (E := fun _ => False) (s := {s with queries := s.queries+1})
      (hs ▸ coherent_empty _) (hs ▸ hnone)) ?_
    rintro _ _ ⟨b,rfl,hco,hd⟩
    simp only [or_false] at hd
    refine (refute_returns hap hz3 hb' hq (s := { s with
      queries := s.queries+1, builder := b}) hco hd).mono ?_
    rintro r _ ⟨hr,b',rfl,hco',-⟩
    exact ⟨hr,hco'⟩
  · rintro r s1 ⟨hr,hco⟩
    refine bind (extractIfSat_returns r q.objects hco) ?_
    rintro _ s2 -
    refine bind (P := fun _ (s' : Z3SolverState) => s'.builder = .start) ?_ ?_
    · unfold postCheck
      rw [hb]
      exact ⟨_,_,rfl,rfl⟩
    · exact fun _ _ h => .pure ⟨hr,h⟩

end
end Z3Config

section
variable {A : ArrayNames} {mode : ArrayConsMode} {ρ ρ' : Env Z3Name}

lemma makeBinary_agree {k : BinaryKind} {l r t : Z3Expr} (hl : l.Agree ρ ρ')
    (hr : r.Agree ρ ρ') (ht : makeBinary k l r = some t) : t.Agree ρ ρ' := by
  have hbit : ∀ bo op, (makeBitwise bo op l r).Agree ρ ρ' := by
    intro bo op
    unfold makeBitwise
    split <;> exact ⟨hl,hr⟩
  cases k <;> cases ht <;> first | exact hbit _ _ | exact ⟨hl,hr⟩

variable {index : Z3Expr}

lemma iteTree_agree (hbyte : ρ.byte = ρ'.byte) (root : ArrayObj)
    (hi : index.Agree ρ ρ') (n : Nat) : (iteTree A root index n).Agree ρ ρ' := by
  induction n with
  | zero => trivial
  | succ n ih =>
    refine ⟨⟨hi,trivial⟩,?_,ih⟩
    unfold arrayValue
    split
    · trivial
    · exact congrFun hbyte _

variable {root : ArrayObj}

lemma initialArray_agree (h : ρ.array (A.arrayName root) = ρ'.array (A.arrayName root)) :
    (initialArray A mode root).Agree ρ ρ' := by
  have hstore : ∀ n, (storeValues root (arrayConstant A root) n).Agree ρ ρ' := by
    intro n
    induction n with
    | zero => exact h
    | succ n ih => exact ⟨ih,trivial,trivial⟩
  unfold initialArray
  split
  · exact hstore _
  · exact h

lemma readTerm_agree (hbyte : ρ.byte = ρ'.byte)
    (h : ρ.array (A.arrayName root) = ρ'.array (A.arrayName root)) {us : List (Z3Expr × Z3Expr)}
    (hi : index.Agree ρ ρ') (hus : ∀ u ∈ us, u.1.Agree ρ ρ' ∧ u.2.Agree ρ ρ') :
    (readTerm A mode root us index).Agree ρ ρ' := by
  have hite : (iteTerm index (getReadForInitialArray A index root) us).Agree ρ ρ' := by
    induction us with
    | nil => exact iteTree_agree hbyte root hi _
    | cons u us ih =>
      obtain ⟨h1,h2⟩ := hus u (by simp)
      exact ⟨⟨hi,h1⟩,h2,ih fun u hu => hus u (by simp [hu])⟩
  have hstore : (storeTerm (initialArray A mode root) us).Agree ρ ρ' := by
    clear hite
    induction us with
    | nil => exact initialArray_agree h
    | cons u us ih =>
      obtain ⟨h1,h2⟩ := hus u (by simp)
      exact ⟨ih fun u hu => hus u (by simp [hu]),h1,h2⟩
  cases mode with
  | ite => exact hite
  | stores | asserts => exact ⟨hstore,hi⟩

section
variable (hbyte : ρ.byte = ρ'.byte)
include hbyte

set_option linter.unusedSectionVars false in
mutual
theorem Expr.toZ3_agree : (e : Expr) →
    (∀ arr, e.mentions arr → ρ.array (A.arrayName arr) = ρ'.array (A.arrayName arr)) →
    {t : Z3Expr} → e.toZ3 A mode = some t → t.Agree ρ ρ'
  | .constant c, _, t, ht => by
    cases ht
    unfold makeConstant
    split <;> trivial
  | .read ul i, h, t, ht => by
    obtain ⟨us,ti,hus,hti,ht⟩ := bind_bind_eq_some ht
    cases ht
    simp only [Expr.mentions,Bool.or_eq_true,or_imp,forall_and] at h
    exact readTerm_agree hbyte (h.1 _ ul.mentions_getRoot) (i.toZ3_agree h.2 hti)
      (ul.toZ3_agree h.1 hus)
  | .select c x y, h, t, ht => by
    obtain ⟨tc,tx,htc,htx,ht⟩ := bind_bind_eq_some ht
    obtain ⟨ty,hty,ht⟩ := Option.bind_eq_some_iff.mp ht
    cases ht
    simp only [Expr.mentions,Bool.or_eq_true,or_imp,forall_and] at h
    exact ⟨c.toZ3_agree h.1.1 htc,x.toZ3_agree h.1.2 htx,y.toZ3_agree h.2 hty⟩
  | .concat l r, h, t, ht => by
    obtain ⟨tr,tl,htr,htl,ht⟩ := bind_bind_eq_some ht
    cases ht
    simp only [Expr.mentions,Bool.or_eq_true,or_imp,forall_and] at h
    exact ⟨l.toZ3_agree h.1 htl,r.toZ3_agree h.2 htr⟩
  | .extract e _ _, h, t, ht | .not e, h, t, ht | .zext e _, h, t, ht | .sext e _, h, t, ht => by
    obtain ⟨te,hte,ht⟩ := Option.bind_eq_some_iff.mp ht
    cases ht
    have he := e.toZ3_agree h hte
    simp only [makeExtract,makeNot,makeZExt,makeSExt]
    split <;> simp [Agree,he]
  | .binary k l r, h, t, ht => by
    obtain ⟨tl,tr,htl,htr,ht⟩ := bind_bind_eq_some ht
    simp only [Expr.mentions,Bool.or_eq_true,or_imp,forall_and] at h
    exact makeBinary_agree (l.toZ3_agree h.1 htl) (r.toZ3_agree h.2 htr) ht

theorem UpdateList.toZ3_agree : (ul : UpdateList) →
    (∀ arr, ul.mentions arr → ρ.array (A.arrayName arr) = ρ'.array (A.arrayName arr)) →
    {us : List (Z3Expr × Z3Expr)} → ul.toZ3 A mode = some us →
    ∀ u ∈ us, u.1.Agree ρ ρ' ∧ u.2.Agree ρ ρ'
  | .root _, _, us, hus => by
    cases hus
    exact nofun
  | .extend next i v, h, us, hus => by
    obtain ⟨rest,ti,hrest,hti,hus⟩ := bind_bind_eq_some hus
    obtain ⟨tv,htv,hus⟩ := Option.bind_eq_some_iff.mp hus
    cases hus
    simp only [UpdateList.mentions,Bool.or_eq_true,or_imp,forall_and] at h
    exact forall_mem_cons.mpr ⟨⟨i.toZ3_agree h.1.2 hti,v.toZ3_agree h.2 htv⟩,
      next.toZ3_agree h.1.1 hrest⟩
end
end

lemma getArrayAssertion_holds_iff {arr : ArrayObj} : (getArrayAssertion A arr).Holds ρ ↔
      ∀ i, i < arr.size → ρ.array (A.arrayName arr) i = arr.constantValues.getD i 0#8 := by
  have hpart : ∀ n, n ≤ arr.size → ((assertValues arr (arrayConstant A arr) n).Holds ρ ↔
      ∀ i, i < n → ρ.array (A.arrayName arr) i = arr.constantValues.getD i 0#8) := by
    intro n hn
    induction n with
    | zero => simp [assertValues,Holds,eval,Value.isTrue]
    | succ n ih =>
      have hn32 : n%2^32 = n := Nat.mod_eq_of_lt (Nat.lt_trans hn arr.size_lt)
      have heq : ((select (arrayConstant A arr) (.bvVal n 32)).eq (constantByte arr n)).eval ρ =
            .bool ((ρ.array (A.arrayName arr) n).toNat ==
              (arr.constantValues.getD n 0#8).toNat) := by
        refine eval_eq_bv (w := 8) ?_ ?_
        · rw [eval,arrayConstant,eval,eval,hn32]
          rfl
        · rw [constantByte,eval,Nat.mod_eq_of_lt (BitVec.isLt _)]
      have hstep : (assertValues arr (arrayConstant A arr) (n+1)).Holds ρ ↔
          (assertValues arr (arrayConstant A arr) n).Holds ρ ∧
            ρ.array (A.arrayName arr) n = arr.constantValues.getD n 0#8 := by
        rw [assertValues,Holds,eval,heq]
        simp only [Value.isTrue,BoolOp.apply,Bool.and_eq_true,beq_iff_eq,BitVec.toNat_inj]
        rfl
      rw [hstep,ih (by omega)]
      constructor
      · rintro ⟨hlt,hlast⟩ i hi
        by_cases hin : i = n
        · rw [hin,hlast]
        · exact hlt i (by omega)
      · exact fun h => ⟨fun i hi => h i (by omega),h n (by omega)⟩
  exact hpart arr.size (Nat.le_refl _)

end

lemma printNat_length {n k : Nat} (h : n < 10^k) (hk : 0 < k) : (printNat 10 n).length ≤ k := by
  unfold printNat
  split
  · exact hk
  · simpa using (Nat.digits_length_le_iff (b := 10) (by decide) n).mpr h

lemma guardName_inj {n m : Nat} (hn : n < 10^14) (hm : m < 10^14)
    (h : guardName n = guardName m) : n = m := by
  have hlen : ∀ k, k < 10^14 → (103#8 :: printNat 10 k).length ≤ 15 := by
    intro k hk
    have := printNat_length hk (by decide)
    simp only [length_cons]
    omega
  unfold guardName at h
  rw [take_of_length_le (hlen n hn),take_of_length_le (hlen m hm),cons.injEq] at h
  exact printNat_inj (by decide) (by decide) h.2

namespace Z3Config

def guarded (cfg : Z3Config) (p : Expr × Z3Expr) : Z3Expr :=
  .boolBin .implies p.2 (cfg.formula p.1)

structure Guarded (cfg : Z3Config) (S : Expr → Prop) (R : ArrayObj → Prop) (s : Z3SolverState) :
    Prop where
  coherent : Coherent cfg.names cfg.mode S s.builder
  askable : ∀ p ∈ s.guards, Askable S p.1
  arrays : ∀ p ∈ s.guards, ∀ arr, p.1.mentions arr = true → R arr
  guard : ∀ p ∈ s.guards, ∃ n, n < s.guardCounter ∧ p.2 = .boolConst (guardName n)
  guard_inj : ∀ p ∈ s.guards, ∀ p' ∈ s.guards, p.2 = p'.2 → p = p'
  implied : ∀ p ∈ s.guards, cfg.guarded p ∈ s.builder.solver.formulas
  contents : ∀ p ∈ s.guards, KnowsAll cfg p.1 s.builder
  only : ∀ f ∈ s.builder.solver.formulas, (∃ p ∈ s.guards, f = cfg.guarded p) ∨
    ∃ arr, cfg.mode = .asserts ∧ R arr ∧ arr.isConstantArray = true ∧ f = cfg.contents arr

def GuardsOf (s : Z3SolverState) (es : List Expr) (gs : List Z3Expr) : Prop :=
  (∀ e ∈ es, ∃ g ∈ gs, (e,g) ∈ s.guards) ∧ ∀ g ∈ gs, ∃ e ∈ es, (e,g) ∈ s.guards

def NamesApart (cfg : Z3Config) (R : ArrayObj → Prop) : Prop :=
  cfg.mode = .asserts → ∀ x y, R x → R y → cfg.names.arrayName x = cfg.names.arrayName y → x = y

variable {b : Z3BuilderState} {g : Z3Expr} {arr : ArrayObj} {gs : List Z3Expr} {a : Assignment}
  {T : Expr → Prop}

section
variable {cfg : Z3Config} {S : Expr → Prop} {R : ArrayObj → Prop}

lemma Guarded.grows (h : Guarded cfg S R s)
    (hb : Coherent cfg.names cfg.mode S b) {M : ArrayObj → Prop} (hg : Grows cfg M s.builder b)
    (hM : ∀ arr, M arr → R arr) : Guarded cfg S R {s with builder := b} := by
  obtain ⟨new,hnew,hmem⟩ := hg.formulas
  have hmono : ∀ f ∈ s.builder.solver.formulas, f ∈ b.solver.formulas := by
    intro f hf
    rw [hnew]
    exact mem_append_right _ hf
  refine ⟨hb,h.askable,h.arrays,h.guard,h.guard_inj,fun p hp => hmono _ (h.implied p hp),
    fun p hp arr ha => hmono _ (h.contents p hp arr ha),fun f hf => ?_⟩
  have hf' : f ∈ new ++ s.builder.solver.formulas := hnew ▸ hf
  rcases mem_append.mp hf' with hf | hf
  · obtain ⟨arr,hmode,ha,hc,rfl⟩ := hmem f hf
    exact .inr ⟨arr,hmode,hM arr ha,hc,rfl⟩
  · exact h.only f hf

lemma Guarded.add (h : Guarded cfg S R s) (hcount : s.guardCounter < 10^14)
    (he : Askable S e) (hR : ∀ arr, e.mentions arr → R arr) (hb : Coherent cfg.names cfg.mode S b)
    (hg : Grows cfg (e.mentions ·) s.builder b) (hk : KnowsAll cfg e b) :
    Guarded cfg S R { s with
      guardCounter := s.guardCounter+1
      guards := (e,s.nextGuard) :: s.guards
      builder := {b with solver := b.solver.add (cfg.guarded (e,s.nextGuard))}} := by
  have hgrown := h.grows hb hg hR
  have hnew : ∀ p ∈ s.guards, p.2 ≠ s.nextGuard := by
    intro p hp heq
    obtain ⟨n,hn,hpn⟩ := h.guard p hp
    rw [hpn,Z3SolverState.nextGuard,boolConst.injEq] at heq
    have := guardName_inj (Nat.lt_trans hn hcount) hcount heq
    omega
  refine ⟨hb.add _,forall_mem_cons.mpr ⟨he,h.askable⟩,forall_mem_cons.mpr ⟨hR,h.arrays⟩,
    forall_mem_cons.mpr ⟨⟨_,Nat.lt_succ_self _,rfl⟩,fun p hp => ?_⟩,?_,
    forall_mem_cons.mpr ⟨mem_cons_self,fun p hp => ?_⟩,
    forall_mem_cons.mpr ⟨fun arr ha => ?_,fun p hp arr ha => ?_⟩,?_⟩
  · obtain ⟨n,hn,hpn⟩ := h.guard p hp
    exact ⟨n,Nat.lt_succ_of_lt hn,hpn⟩
  · intro p hp p' hp' heq
    rcases mem_cons.mp hp with rfl | hp <;> rcases mem_cons.mp hp' with rfl | hp'
    · rfl
    · exact absurd heq.symm (hnew p' hp')
    · exact absurd heq (hnew p hp)
    · exact h.guard_inj p hp p' hp' heq
  · exact mem_cons_of_mem _ (hgrown.implied p hp)
  · exact mem_cons_of_mem _ (hk arr ha)
  · exact mem_cons_of_mem _ (hgrown.contents p hp arr ha)
  · intro f hf
    rcases mem_cons.mp hf with rfl | hf
    · exact .inl ⟨_,mem_cons_self,rfl⟩
    · rcases hgrown.only f hf with ⟨p,hp,rfl⟩ | harr
      · exact .inl ⟨p,mem_cons_of_mem _ hp,rfl⟩
      · exact .inr harr

section
variable (hap : Separate cfg.names cfg.mode S)
include hap

lemma getAssumption_returns (he : Askable S e)
    (hR : ∀ arr, e.mentions arr → R arr) (hs : Guarded cfg S R s)
    (hcount : s.guardCounter < 10^14) :
    Returns (cfg.getAssumption e) s fun g s' => Guarded cfg S R s' ∧ (e,g) ∈ s'.guards ∧
      (∀ p ∈ s.guards, p ∈ s'.guards) ∧ s'.guardCounter ≤ s.guardCounter+1 := by
  refine .get_bind ?_
  cases hl : s.guards.lookup e with
  | some g =>
    obtain ⟨l1,l2,hg,-⟩ := lookup_eq_some_iff.mp hl
    exact .pure ⟨hs,by rw [hg]; simp,fun _ h => h,Nat.le_succ _⟩
  | none =>
    refine .get_bind ?_
    have hmod : (s.guardCounter+1)%2^64 = s.guardCounter+1 := Nat.mod_eq_of_lt (by omega)
    refine .modify_bind ?_
    rw [hmod]
    refine bind (construct_returns hap he (s := { s with
      guardCounter := s.guardCounter+1
      guards := (e,s.nextGuard) :: s.guards}) hs.coherent) ?_
    rintro _ _ ⟨rfl,b,rfl,hb,hg,hk⟩
    exact ⟨_,_,rfl,hs.add hcount he hR hb hg hk,mem_cons_self,
      fun p hp => mem_cons_of_mem _ hp,Nat.le_refl _⟩

lemma getAssumptions_returns : (es : List Expr) → (∀ e ∈ es, Askable S e) →
    (∀ e ∈ es, ∀ arr, e.mentions arr → R arr) → {s : Z3SolverState} → Guarded cfg S R s →
    s.guardCounter+es.length ≤ 10^14 →
    Returns (cfg.getAssumptions es) s fun gs s' => Guarded cfg S R s' ∧
      GuardsOf s' es gs ∧ (∀ p ∈ s.guards, p ∈ s'.guards) ∧
      s'.guardCounter ≤ s.guardCounter+es.length
  | [], _, _, s, hs, _ =>
    .pure ⟨hs,⟨nofun,nofun⟩,fun _ h => h,Nat.le_refl _⟩
  | e :: es, he, hR, s, hs, hcount => by
    simp only [length_cons] at hcount ⊢
    refine bind (getAssumption_returns hap (he e (by simp)) (hR e (by simp)) hs (by omega)) ?_
    rintro g s1 ⟨hs1,hmem,hmono,hc1⟩
    refine bind (getAssumptions_returns es (fun x hx => he x (by simp [hx]))
      (fun x hx => hR x (by simp [hx])) hs1 (by omega)) ?_
    rintro gs s2 ⟨hs2,hall,hmono2,hc2⟩
    refine .pure ⟨hs2,⟨fun x hx => ?_,fun x hx => ?_⟩,fun p hp => hmono2 p (hmono p hp),
      by omega⟩
    · rcases mem_cons.mp hx with rfl | hx
      · exact ⟨g,mem_cons_self,hmono2 _ hmem⟩
      · obtain ⟨g',hg',hp⟩ := hall.1 x hx
        exact ⟨g',mem_cons_of_mem _ hg',hp⟩
    · rcases mem_cons.mp hx with rfl | hx
      · exact ⟨e,mem_cons_self,hmono2 _ hmem⟩
      · obtain ⟨e',he',hp⟩ := hall.2 x hx
        exact ⟨e',mem_cons_of_mem _ he',hp⟩

end

lemma holds_implies {ρ : Env Z3Name} {f : Z3Expr} :
    (boolBin .implies f g).Holds ρ ↔ (f.Holds ρ → g.Holds ρ) := by
  unfold Holds
  rw [eval]
  cases hf : (f.eval ρ).isTrue <;> simp [Value.isTrue,BoolOp.apply]

lemma formula_agree (he : Askable S e) {ρ ρ' : Env Z3Name} (hbyte : ρ.byte = ρ'.byte)
    (h : ∀ arr, e.mentions arr →
      ρ.array (cfg.names.arrayName arr) = ρ'.array (cfg.names.arrayName arr)) :
    (cfg.formula e).Holds ρ ↔ (cfg.formula e).Holds ρ' := by
  unfold Holds
  rw [eval_congr _ (e.toZ3_agree hbyte h he.toZ3)]

open Classical in
/-- Values of the constants for a query whose expressions are `Q`: the guards of `Q` are on,
and the constant arrays that `Q` does not mention have their contents. -/
noncomputable def extend (cfg : Z3Config) (R : ArrayObj → Prop) (Q : Expr → Prop)
    (s : Z3SolverState) (ρ : Env Z3Name) : Env Z3Name where
  bool n := decide (∃ p ∈ s.guards, Q p.1 ∧ p.2 = .boolConst n)
  byte := ρ.byte
  array n :=
    if h : ∃ arr, cfg.mode = .asserts ∧ R arr ∧ (∀ e, Q e → e.mentions arr = false) ∧
        cfg.names.arrayName arr = n then
      fun i => h.choose.constantValues.getD i 0#8
    else ρ.array n

section
variable {Q : Expr → Prop} {s : Z3SolverState} {ρ : Env Z3Name}

lemma extend_bool_iff {n : Z3Name} : (cfg.extend R Q s ρ).bool n ↔
    ∃ p ∈ s.guards, Q p.1 ∧ p.2 = .boolConst n := by
  simp [extend]

lemma extend_array_mentioned (hnames : NamesApart cfg R) (he : Q e)
    (hR : R arr) (hm : e.mentions arr) :
    (cfg.extend R Q s ρ).array (cfg.names.arrayName arr) = ρ.array (cfg.names.arrayName arr) := by
  refine dif_neg ?_
  rintro ⟨x,hmode,hx,hno,hname⟩
  obtain rfl := hnames hmode x arr hx hR hname
  rw [hno e he] at hm
  cases hm

lemma extend_array_other (hnames : NamesApart cfg R) (hmode : cfg.mode = .asserts) (hR : R arr)
    (hno : ∀ e, Q e → e.mentions arr = false) (i : Nat) :
    (cfg.extend R Q s ρ).array (cfg.names.arrayName arr) i = arr.constantValues.getD i 0#8 := by
  have hex : ∃ x, cfg.mode = .asserts ∧ R x ∧ (∀ e, Q e → e.mentions x = false) ∧
      cfg.names.arrayName x = cfg.names.arrayName arr := ⟨arr,hmode,hR,hno,rfl⟩
  have hval : (cfg.extend R Q s ρ).array (cfg.names.arrayName arr) i =
      hex.choose.constantValues.getD i 0#8 := congrFun (dif_pos hex) i
  obtain ⟨-,hx,-,hname⟩ := hex.choose_spec
  rw [hval,hnames hmode _ arr hx hR hname]

lemma extend_formula (hnames : NamesApart cfg R) (he : Askable S e) (hQ : Q e)
    (hR : ∀ arr, e.mentions arr → R arr) :
    (cfg.formula e).Holds (cfg.extend R Q s ρ) ↔ (cfg.formula e).Holds ρ :=
  formula_agree he rfl fun arr hm => extend_array_mentioned hnames hQ (hR arr hm) hm

lemma extend_guarded (hs : Guarded cfg S R s) (hnames : NamesApart cfg R)
    (hQ : ∀ e, Q e → (cfg.formula e).Holds ρ) {p : Expr × Z3Expr} (hp : p ∈ s.guards) :
    (cfg.guarded p).Holds (cfg.extend R Q s ρ) := by
  rw [guarded,holds_implies]
  intro hg
  obtain ⟨n,-,hpn⟩ := hs.guard p hp
  rw [hpn] at hg
  obtain ⟨p',hp',hQ',hpn'⟩ := extend_bool_iff.mp hg
  obtain rfl := hs.guard_inj p' hp' p hp (hpn'.trans hpn.symm)
  exact (extend_formula hnames (hs.askable p' hp) hQ' (hs.arrays p' hp)).mpr (hQ _ hQ')

lemma extend_contents (hnames : NamesApart cfg R)
    (hQ : ∀ arr, cfg.Asserted Q arr → (cfg.contents arr).Holds ρ)
    (hmode : cfg.mode = .asserts) (hR : R arr) (hc : arr.isConstantArray) :
    (cfg.contents arr).Holds (cfg.extend R Q s ρ) := by
  rw [contents,getArrayAssertion_holds_iff]
  intro i hi
  by_cases hm : ∃ e, Q e ∧ e.mentions arr
  · obtain ⟨e,he,hm⟩ := hm
    rw [extend_array_mentioned hnames he hR hm]
    exact getArrayAssertion_holds_iff.mp (hQ arr ⟨hmode,hc,e,he,hm⟩) i hi
  · refine extend_array_other hnames hmode hR (fun e he => ?_) i
    simpa using fun h => hm ⟨e,he,h⟩

end

lemma Guarded.target (hs : Guarded cfg S R s) (hnames : NamesApart cfg R)
    (hb : cfg.backend = .assumption) (hgs : GuardsOf s (q.constraints.map (·.expr)) gs)
    (hg : (cfg.asked q.expr,g) ∈ s.guards) :
    (∃ ρ, ∀ f ∈ gs ++ [g] ++ s.builder.solver.formulas, f.Holds ρ) ↔ ∃ ρ, cfg.Target q ρ := by
  have hgoal : cfg.goal q.expr = cfg.formula (cfg.asked q.expr) := by simp [goal,hb]
  have hguard : ∀ e, cfg.Terms q e → ∃ g', (e,g') ∈ s.guards ∧ g' ∈ gs ++ [g] := by
    rintro e (he | rfl)
    · obtain ⟨g',hg',hmem⟩ := hgs.1 e he
      exact ⟨g',hmem,by simp [hg']⟩
    · exact ⟨g,hg,by simp⟩
  constructor
  · rintro ⟨ρ,hρ⟩
    have hQ : ∀ e, cfg.Terms q e → (cfg.formula e).Holds ρ := by
      intro e he
      obtain ⟨g',hmem,hg'⟩ := hguard e he
      exact holds_implies.mp (hρ _ (mem_append_right _ (hs.implied _ hmem)))
        (hρ _ (mem_append_left _ hg'))
    refine ⟨ρ,fun node hn => hQ _ (.inl (mem_map_of_mem hn)),?_,?_⟩
    · rw [hgoal]
      exact hQ _ (.inr rfl)
    · rintro arr ⟨hmode,hc,e,he,hm⟩
      obtain ⟨g',hmem,-⟩ := hguard e he
      exact hρ _ (mem_append_right _ (hs.contents _ hmem arr ⟨hmode,hc,e,rfl,hm⟩))
  · rintro ⟨ρ,hcon,hask,harr⟩
    rw [hgoal] at hask
    have hQ : ∀ e, cfg.Terms q e → (cfg.formula e).Holds ρ := by
      rintro e (he | rfl)
      · obtain ⟨node,hn,rfl⟩ := mem_map.mp he
        exact hcon node hn
      · exact hask
    refine ⟨cfg.extend R (cfg.Terms q) s ρ,fun f hf => ?_⟩
    have hon : ∀ e g', (e,g') ∈ s.guards → cfg.Terms q e →
        g'.Holds (cfg.extend R (cfg.Terms q) s ρ) := by
      intro e g' hmem he
      obtain ⟨n,-,hn⟩ := hs.guard _ hmem
      simp only at hn
      subst hn
      exact extend_bool_iff.mpr ⟨_,hmem,he,rfl⟩
    simp only [mem_append,mem_singleton] at hf
    rcases hf with (hf | rfl) | hf
    · obtain ⟨e,he,hmem⟩ := hgs.2 f hf
      exact hon e f hmem (.inl he)
    · exact hon _ _ hg (.inr rfl)
    · rcases hs.only f hf with ⟨p,hp,rfl⟩ | ⟨arr,hmode,hR,hc,rfl⟩
      · exact extend_guarded hs hnames hQ hp
      · exact extend_contents hnames harr hmode hR hc

def Mentions (cfg : Z3Config) (q : Z3Query) (arr : ArrayObj) : Prop :=
  ∃ e, cfg.Terms q e ∧ e.mentions arr = true

lemma Guarded.checkSat (hs : Guarded cfg S R s) (hz3 : cfg.Decides)
    (hnames : NamesApart cfg R) (hb : cfg.backend = .assumption)
    (hgs : GuardsOf s (q.constraints.map (·.expr)) gs)
    (hg : (cfg.asked q.expr,g) ∈ s.guards) :
    Returns (cfg.checkSat (gs ++ [g])) s fun r s' => Right cfg q r ∧ s' = s := by
  refine ⟨_,s,rfl,fun v hv => ?_,rfl⟩
  rw [hz3 _ _ _ hv]
  exact hs.target hnames hb hgs hg

lemma asked_of_assumption (hb : cfg.backend = .assumption) (he : e.Boolean) :
    e.createIsZero = some (cfg.asked e) := by
  obtain ⟨n,hn,-⟩ := Expr.createIsZero_yields he.1
  simp [asked,hb,hn]

lemma assumptionQuery_returns (hap : Separate cfg.names cfg.mode S) (hz3 : cfg.Decides)
    (hnames : NamesApart cfg R) (hb : cfg.backend = .assumption)
    (hq : Posed cfg S q) (hR : ∀ arr, Mentions cfg q arr ∨ arr ∈ q.objects → R arr)
    (hs : Guarded cfg S R s) (hcount : s.guardCounter+(q.constraints.length+1) ≤ 10^14) :
    Returns (cfg.computeInitialValues q) s fun r s' => Right cfg q r ∧ Guarded cfg S R s' ∧
      s'.guardCounter ≤ s.guardCounter+(q.constraints.length+1) := by
  refine .modify_bind ?_
  have hs0 : Guarded cfg S R {s with queries := s.queries+1} :=
    ⟨hs.coherent,hs.askable,hs.arrays,hs.guard,hs.guard_inj,hs.implied,hs.contents,hs.only⟩
  refine bind (P := fun r (s' : Z3SolverState) => Right cfg q r ∧ Guarded cfg S R s' ∧
    s'.guardCounter ≤ s.guardCounter+(q.constraints.length+1)) ?_ ?_
  · unfold check
    rw [hb]
    refine bind (getAssumptions_returns hap (q.constraints.map (·.expr))
      (fun e he => ?_) (fun e he arr hm => hR arr (.inl ⟨e,.inl he,hm⟩)) hs0
      (by simp only [length_map]; omega)) ?_
    · obtain ⟨node,hn,rfl⟩ := mem_map.mp he
      exact hq.constraints node hn
    rintro gs s1 ⟨hs1,hgs,-,hc1⟩
    simp only [length_map] at hc1
    refine bind (P := fun n s' => n = cfg.asked q.expr ∧ s1 = s') ?_ ?_
    · rw [asked_of_assumption hb hq.boolean]
      exact ⟨_,_,rfl,rfl,rfl⟩
    rintro _ _ ⟨rfl,rfl⟩
    refine bind (getAssumption_returns hap hq.expr
      (fun arr hm => hR arr (.inl ⟨_,.inr rfl,hm⟩)) hs1 (by omega)) ?_
    rintro g s2 ⟨hs2,hg,hmono,hc2⟩
    have hgs2 : GuardsOf s2 (q.constraints.map (·.expr)) gs := by
      refine ⟨fun e he => ?_,fun x hx => ?_⟩
      · obtain ⟨g',hg',hp⟩ := hgs.1 e he
        exact ⟨g',hg',hmono _ hp⟩
      · obtain ⟨e,he,hp⟩ := hgs.2 x hx
        exact ⟨e,he,hmono _ hp⟩
    refine (hs2.checkSat hz3 hnames hb hgs2 hg).mono ?_
    rintro r _ ⟨hr,rfl⟩
    exact ⟨hr,hs2,by omega⟩
  · rintro r s1 ⟨hr,hs1,hc1⟩
    refine bind (extractIfSat_returns r q.objects hs1.coherent) ?_
    rintro _ _ ⟨b,rfl,hco,hgrows⟩
    have hs2 := hs1.grows hco hgrows fun arr ha => hR arr (.inr ha)
    refine bind (P := fun _ (s' : Z3SolverState) => Guarded cfg S R s' ∧
      s'.guardCounter = s1.guardCounter) ?_ ?_
    · unfold postCheck
      rw [hb]
      refine .get_bind ?_
      split
      · refine ⟨_,_,rfl,⟨coherent_empty _,?_,?_,?_,?_,?_,?_,?_⟩,rfl⟩ <;>
          intro _ h <;> cases h
      · exact .pure ⟨hs2,rfl⟩
    · rintro _ s3 ⟨hs3,hc3⟩
      exact .pure ⟨hr,hs3,by omega⟩

def Refutable (q : Z3Query) : Prop :=
  ∃ a : Assignment, (∀ node ∈ q.constraints, node.expr.eval a = 1) ∧ q.expr.eval a = 0

def AlwaysDefined (q : Z3Query) : Prop :=
  ∀ a : Assignment, (∀ node ∈ q.constraints, node.expr.Defined .exact a true) ∧
    q.expr.Defined .exact a true

def assignmentOf (cfg : Z3Config) (ρ : Env Z3Name) : Assignment :=
  fun arr i => byteValue cfg.mode ρ (cfg.names.byteName cfg.mode arr i)

lemma assignmentOf_matches {ρ : Env Z3Name}
    (h : cfg.mode = .asserts → arr.isConstantArray → (cfg.contents arr).Holds ρ) :
    Matches cfg.names cfg.mode (assignmentOf cfg ρ) ρ arr := by
  intro hsym i hi
  by_cases hs : arr.isSymbolicArray
  · have hnil : arr.constantValues = [] := isEmpty_iff.mp hs
    simp [ArrayObj.initial,hnil,hi,assignmentOf]
  have hmode := hsym.resolve_left hs
  have hc : arr.isConstantArray := by simpa [ArrayObj.isConstantArray] using hs
  have hval := getArrayAssertion_holds_iff.mp (h hmode hc) i hi
  rw [ArrayObj.initial_constant hs,hmode]
  simp only [byteValue,ArrayNames.byteName,hval,BitVec.ofNat_toNat,BitVec.setWidth_eq]
  rfl

lemma formula_holds_iff (he : Askable S e) {ρ : Env Z3Name} (hd : e.Defined .exact a true)
    (hm : ∀ arr, e.mentions arr → Matches cfg.names cfg.mode a ρ arr) :
    (cfg.formula e).Holds ρ ↔ e.eval a = 1 := by
  obtain ⟨t,ht,-,hv⟩ := e.toZ3_spec cfg.names cfg.mode he.boolean.1 he.conforms he.noBoolConcat
  obtain rfl := Option.some.inj (he.toZ3.symm.trans ht)
  have hv := hv hd hm
  rw [he.boolean.2,valueOf_one] at hv
  rw [Holds,hv]
  exact beq_iff_eq

lemma asked_refines (hq : Posed cfg S q) (hb : cfg.backend = .assumption) :
    Refines (.binary .eq q.expr (ConstantExpr.alloc 0 q.expr.width)) (cfg.asked q.expr) := by
  obtain ⟨n,hn,hr⟩ := Expr.createIsZero_yields hq.boolean.1
  rw [asked_of_assumption hb hq.boolean] at hn
  exact Option.some.inj hn ▸ hr

lemma asked_defined (hq : Posed cfg S q)
    (hd : q.expr.Defined .exact a true) : (cfg.asked q.expr).Defined .exact a true := by
  by_cases hb : cfg.backend = .assumption
  · exact (asked_refines hq hb).defined a true ⟨hd,trivial⟩
  · rwa [asked_eq hb]

lemma goal_holds_iff (hq : Posed cfg S q) {ρ : Env Z3Name} (hd : q.expr.Defined .exact a true)
    (hm : ∀ arr, (cfg.asked q.expr).mentions arr → Matches cfg.names cfg.mode a ρ arr) :
    (cfg.goal q.expr).Holds ρ ↔ q.expr.eval a = 0 := by
  have hform := formula_holds_iff hq.expr (asked_defined hq hd) hm
  have hbool := q.expr.eval_bool a hq.boolean.1 hq.boolean.2
  by_cases hb : cfg.backend = .assumption
  · have hgoal : cfg.goal q.expr = cfg.formula (cfg.asked q.expr) := by simp [goal,hb]
    rw [hgoal,hform,(asked_refines hq hb).eval (S := .exact) a ⟨hd,trivial⟩,
      Expr.eval_isZero_iff hq.boolean.1 hq.boolean.2]
    omega
  · rw [asked_eq hb] at hform
    have hnot : (not (cfg.formula q.expr)).Holds ρ ↔ ¬(cfg.formula q.expr).Holds ρ := by
      unfold Holds
      rw [eval]
      simp [Value.isTrue]
    rw [goal_eq hb,hnot,hform]
    omega

lemma target_iff_refutable (hq : Posed cfg S q) (hd : AlwaysDefined q)
    (hnames : cfg.names.Distinct cfg.mode (Mentions cfg q)) :
    (∃ ρ, cfg.Target q ρ) ↔ Refutable q := by
  -- The two readings agree when the constants stand for the bytes.
  have hagree : ∀ a ρ, (∀ arr, Mentions cfg q arr → Matches cfg.names cfg.mode a ρ arr) →
      (((∀ node ∈ q.constraints, (cfg.formula node.expr).Holds ρ) ∧ (cfg.goal q.expr).Holds ρ) ↔
      (∀ node ∈ q.constraints, node.expr.eval a = 1) ∧ q.expr.eval a = 0) := by
    intro a ρ hm
    refine and_congr (forall₂_congr fun node hn => ?_)
      (goal_holds_iff hq (hd a).2 fun arr h => hm arr ⟨_,.inr rfl,h⟩)
    exact formula_holds_iff (hq.constraints node hn) ((hd a).1 node hn)
      fun arr h => hm arr ⟨_,.inl (mem_map_of_mem hn),h⟩
  constructor
  · rintro ⟨ρ,hcon,hgoal,hcontents⟩
    refine ⟨assignmentOf cfg ρ,(hagree _ ρ fun arr hm => ?_).mp ⟨hcon,hgoal⟩⟩
    obtain ⟨e,he,hm⟩ := hm
    exact assignmentOf_matches fun hmode hc => hcontents arr ⟨hmode,hc,e,he,hm⟩
  · rintro ⟨a,ha⟩
    have hval : ∀ arr, Mentions cfg q arr → ∀ i, i < arr.size →
        byteValue cfg.mode (a.toEnv cfg.names cfg.mode (Mentions cfg q))
          (cfg.names.byteName cfg.mode arr i) = BitVec.ofNat 8 (arr.initial a i) :=
      fun arr hm i hi => Assignment.toEnv_byteValue hnames a hm hi
    obtain ⟨hcon,hgoal⟩ := (hagree a _ fun arr hm _ => hval arr hm).mpr ha
    refine ⟨_,hcon,hgoal,?_⟩
    rintro arr ⟨hmode,hc,e,he,hm⟩
    refine getArrayAssertion_holds_iff.mpr fun i hi => ?_
    have hs : arr.isSymbolicArray ≠ true := by simpa [ArrayObj.isConstantArray] using hc
    have := hval arr ⟨e,he,hm⟩ i hi
    rw [ArrayObj.initial_constant hs] at this
    simpa [byteValue,ArrayNames.byteName,hmode] using this

def Occurs (cfg : Z3Config) (qs : List Z3Query) (x : Expr) : Prop :=
  ∃ q ∈ qs, ∃ e, cfg.Terms q e ∧ x ∈ e.subexprs

def Arrays (cfg : Z3Config) (qs : List Z3Query) (arr : ArrayObj) : Prop :=
  ∃ q ∈ qs, Mentions cfg q arr ∨ arr ∈ q.objects

def guardsNeeded (qs : List Z3Query) : Nat :=
  (qs.map fun q => q.constraints.length+1).sum

/-- The runs without a defect: expressions with well-sorted terms, with `ite` no two reads of
one index, with arrays no update node under two roots, and with assumptions one name a guard and one
name an asserted array. -/
structure Admissible (cfg : Z3Config) (qs : List Z3Query) : Prop where
  posed : ∀ q ∈ qs, Posed cfg (fun _ => True) q
  reads : Separate cfg.names cfg.mode (Occurs cfg qs)
  arrays : cfg.backend = .assumption → NamesApart cfg (Arrays cfg qs)
  guards : cfg.backend = .assumption → guardsNeeded qs ≤ 10^14

lemma Askable.occurs (h : Askable T e) (hS : ∀ x ∈ e.subexprs, S x) : Askable S e :=
  ⟨h.boolean,h.conforms,h.noBoolConcat,fun _ _ hx => hS _ hx⟩

lemma Posed.occurs (h : Posed cfg T q) {qs : List Z3Query}
    (hq : q ∈ qs) : Posed cfg (Occurs cfg qs) q where
  path := h.path
  constraints node hn := (h.constraints node hn).occurs fun _ hx =>
    ⟨q,hq,_,.inl (mem_map_of_mem hn),hx⟩
  boolean := h.boolean
  expr := h.expr.occurs fun _ hx => ⟨q,hq,_,.inr rfl,hx⟩

def Inv (cfg : Z3Config) (S : Expr → Prop) (R : ArrayObj → Prop) (n : Nat) (s : Z3SolverState) :
    Prop :=
  match cfg.backend with
  | .stack => IsPath s.lastConstraints ∧ Stacked cfg S s.lastConstraints.reverse s.builder s.frames
  | .reset => s.builder = .start
  | .assumption => Guarded cfg S R s ∧ s.guardCounter+n ≤ 10^14

lemma inv_start {n : Nat} (hn : cfg.backend = .assumption → n ≤ 10^14) :
    Inv cfg S R n .start := by
  unfold Inv
  split
  · exact ⟨List.IsChain.nil,.base rfl (coherent_empty _)⟩
  · rfl
  rename_i hb
  refine ⟨⟨coherent_empty _,?_,?_,?_,?_,?_,?_,?_⟩,by simpa [Z3SolverState.start] using hn hb⟩
  all_goals
    intro _ h
    cases h

lemma query_returns (hap : Separate cfg.names cfg.mode S) (hz3 : cfg.Decides)
    (hnames : cfg.backend = .assumption → NamesApart cfg R) (hq : Posed cfg S q)
    (hR : ∀ arr, Mentions cfg q arr ∨ arr ∈ q.objects → R arr) {n : Nat}
    (hs : Inv cfg S R (q.constraints.length+1+n) s) :
    Returns (cfg.computeInitialValues q) s fun r s' => Right cfg q r ∧ Inv cfg S R n s' ∧
      (cfg.backend = .stack → s'.lastConstraints = q.constraints) := by
  cases hb : cfg.backend with
  | stack =>
    simp only [Inv,hb] at hs ⊢
    refine (stackQuery_returns hap hz3 hb hq hs.1 hs.2).mono ?_
    rintro r s' ⟨hr,hlast,hst⟩
    exact ⟨hr,⟨hlast ▸ hq.path,hlast ▸ hst⟩,fun _ => hlast⟩
  | reset =>
    simp only [Inv,hb] at hs ⊢
    refine (resetQuery_returns hap hz3 hb hq hs).mono ?_
    rintro r s' ⟨hr,hstart⟩
    exact ⟨hr,hstart,nofun⟩
  | assumption =>
    simp only [Inv,hb] at hs ⊢
    refine (assumptionQuery_returns hap hz3 (hnames hb) hb hq hR hs.1 (by omega)).mono ?_
    rintro r s' ⟨hr,hg,hcount⟩
    exact ⟨hr,⟨hg,by omega⟩,nofun⟩

lemma run_returns (hap : Separate cfg.names cfg.mode S) (hz3 : cfg.Decides)
    (hnames : cfg.backend = .assumption → NamesApart cfg R) : (qs : List Z3Query) →
    (∀ q ∈ qs, Posed cfg S q) →
    (∀ q ∈ qs, ∀ arr, Mentions cfg q arr ∨ arr ∈ q.objects → R arr) → {s : Z3SolverState} →
    Inv cfg S R (guardsNeeded qs) s →
    Returns (cfg.runQueries qs) s fun verdicts s' => List.Forall₂ (Right cfg) qs verdicts ∧
      Inv cfg S R 0 s' ∧ (cfg.backend = .stack → s'.lastConstraints =
        (qs.getLast?.map Z3Query.constraints).getD s.lastConstraints)
  | [], _, _, _, hs => .pure ⟨.nil,hs,fun _ => rfl⟩
  | q :: qs, hq, hR, s, hs => by
    have hs' : Inv cfg S R (q.constraints.length+1+guardsNeeded qs) s := by
      simpa [guardsNeeded] using hs
    refine bind (query_returns hap hz3 hnames (hq q (by simp)) (hR q (by simp)) hs') ?_
    rintro r s1 ⟨hr,hs1,hlast1⟩
    refine bind (run_returns hap hz3 hnames qs (fun p hp => hq p (by simp [hp]))
      (fun p hp => hR p (by simp [hp])) hs1) ?_
    rintro rs s2 ⟨hrs,hs2,hlast2⟩
    refine .pure ⟨.cons hr hrs,hs2,fun hb => ?_⟩
    rw [hlast2 hb,hlast1 hb,getLast?_cons]
    cases qs.getLast? <;> rfl

def IsScope (cfg : Z3Config) (node : ConditionNode) (scope : List Z3Expr) : Prop :=
  cfg.formula node.expr ∈ scope ∧ ∀ f ∈ scope, f = cfg.formula node.expr ∨
    ∃ arr, cfg.Asserted (· = node.expr) arr ∧ f = cfg.contents arr

def StackIs (cfg : Z3Config) (nodes : List ConditionNode) (solver : Assertions Z3Name) : Prop :=
  ∃ scopes, solver.inner :: solver.outer = scopes ++ [[]] ∧
    List.Forall₂ (IsScope cfg) nodes.reverse scopes

lemma Stacked.scopes {nodes : List ConditionNode}
    {frames : List Z3BuilderCache} (h : Stacked cfg S nodes b frames) :
    ∃ scopes, b.solver.inner :: b.solver.outer = scopes ++ [[]] ∧
      List.Forall₂ (IsScope cfg) nodes scopes := by
  induction h with
  | base hb =>
    rw [hb]
    exact ⟨[],rfl,.nil⟩
  | @node node nodes b b' _ _ _ hscope _ _ ih =>
    obtain ⟨scopes,hscopes,hall⟩ := ih
    obtain ⟨new,hinner,honly,-⟩ := hscope.inner
    refine ⟨b'.solver.inner :: scopes,by rw [hscope.outer,hscopes]; rfl,.cons ?_ hall⟩
    rw [hinner]
    refine ⟨mem_cons_self,fun f hf => ?_⟩
    rcases mem_cons.mp hf with rfl | hf
    · exact .inl rfl
    · exact .inr (honly f hf)

/-- The verdict is the satisfiability of the query's formulas. Where all reads and divisions
are defined and bytes have different names, this is the satisfiability of its expressions. -/
def Answers (cfg : Z3Config) (q : Z3Query) (verdict : Option Bool) : Prop :=
  Right cfg q verdict ∧ (AlwaysDefined q → cfg.names.Distinct cfg.mode (Mentions cfg q) →
      ∀ b, verdict = some b → (b = true ↔ Refutable q))

lemma Right.answers (hq : Posed cfg S q) {verdict : Option Bool}
    (h : Right cfg q verdict) : Answers cfg q verdict :=
  ⟨h,fun hd hnames b hb => (h b hb).trans (target_iff_refutable hq hd hnames)⟩

/-- Every query of an admissible run is answered as if it were the first, and the stack is
that of the last query's constraints. -/
theorem run_answers (hz3 : cfg.Decides) {calls : List Z3Call}
    (h : Admissible cfg (calls.filterMap Z3Call.query?)) (hlists : cfg.Unextended calls .start) :
    let qs := calls.filterMap Z3Call.query?
    ∃ verdicts s, cfg.run calls .start = some (verdicts,s) ∧
      List.Forall₂ (Answers cfg) qs verdicts ∧
      (cfg.backend = .stack → ∀ q ∈ qs.getLast?, StackIs cfg q.constraints s.builder.solver) := by
  intro qs
  rw [cfg.run_eq_runQueries hlists]
  have hposed : ∀ q ∈ qs, Posed cfg (Occurs cfg qs) q := fun q hq => (h.posed q hq).occurs hq
  obtain ⟨verdicts,s,hrun,hright,hinv,hlast⟩ := run_returns h.reads hz3 h.arrays qs hposed
    (fun q hq arr harr => ⟨q,hq,harr⟩) (inv_start h.guards)
  refine ⟨verdicts,s,hrun,?_,fun hb q hq => ?_⟩
  · refine forall₂_iff_get.mpr ⟨hright.length_eq,fun i hi hi' => ?_⟩
    exact (hright.get hi hi').answers (hposed _ (get_mem qs ⟨i,hi⟩))
  · simp only [Inv,hb] at hinv
    have hcons : s.lastConstraints = q.constraints := by
      rw [hlast hb,Option.mem_def.mp hq]
      rfl
    rw [hcons] at hinv
    exact hinv.2.scopes

end

open Classical in
noncomputable def oracle (backend : Z3Backend) (mode : ArrayConsMode) : Z3Config where
  backend
  mode
  names := .numbered
  assumptionResetThreshold := 0
  z3 _ F := some (decide (∃ ρ : Env Z3Name, ∀ f ∈ F, f.Holds ρ))

open Classical in
lemma oracle_decides (backend : Z3Backend) (mode : ArrayConsMode) :
    (oracle backend mode).Decides := by
  intro n F b hb
  obtain rfl := Option.some.inj hb
  exact decide_eq_true_iff

def askSameFirstByte : Z3Query := ⟨[],sameFirstByte,[]⟩

def askWhereZero : Z3Query := ⟨[⟨0,0,firstByteIsZero⟩],sameFirstByte,[]⟩

lemma askable_of_built (hb : e.Built) (hbool : e.Boolean) (hc : e.NoBoolConcat) :
    Askable (fun _ => True) e :=
  ⟨hbool,hb.conforms,hc,fun _ _ _ => trivial⟩

/-- With `ite` the first query already fails, whatever Z3 does. -/
theorem run_undefined : sameFirstByte.Built ∧ sameFirstByte.Boolean ∧
    ∀ z3 backend, run ⟨backend,.ite,.numbered,0,z3⟩ [.query askSameFirstByte] .start = none := by
  refine ⟨sameFirstByte_built,⟨by decide,rfl⟩,fun z3 backend => ?_⟩
  cases backend with
  | stack => rfl
  | reset => rfl
  | assumption =>
    have hzero : askSameFirstByte.expr.createIsZero =
        some (.binary .eq (ConstantExpr.alloc 0 1) sameFirstByte) := by decide +kernel
    simp only [run,computeInitialValues,check,assumptionCheck,hzero]
    rfl

lemma extractIfSat_nil {cfg : Z3Config} (result : Option Bool) :
    cfg.extractIfSat result [] = Pure.pure () := by
  unfold extractIfSat
  split <;> rfl

/-- The lists of the first expression are extended between the queries. -/
def askTwice : List Z3Call :=
  [.query askSameFirstByte,.extend fun e => if e = sameFirstByte then firstByteIsZero else e,
    .query askWhereZero]

lemma askTwice_unextended : (oracle .stack .stores).Unextended askTwice .start := by
  intro verdict s hs
  have hs' : s = {Z3SolverState.start with queries := 1} := by
    unfold computeInitialValues at hs
    rw [show askSameFirstByte.objects = [] from rfl] at hs
    simp only [extractIfSat_nil] at hs
    exact (Prod.ext_iff.mp (Option.some.inj hs)).2.symm
  subst hs'
  exact ⟨rfl,fun _ _ _ => trivial⟩

theorem run_answers_whereZero : let cfg := oracle .stack .stores
    cfg.Unextended askTwice .start ∧ ∃ verdicts s,
      cfg.run askTwice .start = some (verdicts,s) ∧
      List.Forall₂ (Answers cfg) [askSameFirstByte,askWhereZero] verdicts ∧
      (cfg.backend = .stack → ∀ q ∈ [askSameFirstByte,askWhereZero].getLast?,
        StackIs cfg q.constraints s.builder.solver) := by
  have hsame : Askable (fun _ => True) sameFirstByte :=
    askable_of_built sameFirstByte_built ⟨by decide,rfl⟩ (by unfold Expr.NoBoolConcat; decide)
  have hzero : Askable (fun _ => True) firstByteIsZero :=
    askable_of_built firstByteIsZero_built ⟨by decide,rfl⟩ (by unfold Expr.NoBoolConcat; decide)
  have hadm : Admissible (oracle .stack .stores) [askSameFirstByte,askWhereZero] := by
    refine ⟨fun q hq => ?_,⟨fun h => (by cases h),fun _ _ _ _ _ _ => congrArg UpdateList.getRoot⟩,
      fun h => (by cases h),fun h => by cases h⟩
    simp only [mem_cons,not_mem_nil,or_false] at hq
    rcases hq with rfl | rfl
    · exact ⟨.nil,forall_mem_nil _,hsame.boolean,hsame⟩
    · refine ⟨.singleton _,fun node hn => ?_,hsame.boolean,hsame⟩
      obtain rfl := mem_singleton.mp hn
      exact hzero
  have hlists := askTwice_unextended
  exact ⟨hlists,run_answers (oracle_decides _ _) hadm hlists⟩

end Z3Config
end S2E
