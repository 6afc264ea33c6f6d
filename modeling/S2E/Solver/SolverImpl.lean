import S2E.Core.ExecutionState

/-!
The interface `SolverImpl` that the solvers of the chain implement, and what a right answer
to each of its queries is. A set of constraints is known by its manager `M`; `conds` lists
its conditions.
-/

namespace S2E

structure Query (M : Type) where
  constraints : M
  expr : Expr

namespace Query
variable {M : Type}

def withExpr (q : Query M) (expr : Expr) : Query M := {q with expr}

def withFalse (q : Query M) : Query M := q.withExpr (ConstantExpr.alloc 0 1)

def negateExpr (q : Query M) : Option (Query M) := q.expr.createIsZero.map q.withExpr

end Query

inductive Validity where
  | true | false | unknown
  deriving DecidableEq, Repr

/-- A solver with a state of its own. A method returns nothing when it fails; there are no
initial values when there is no solution. -/
structure SolverImpl (M σ : Type) where
  computeValidity : Query M → σ → Option Validity × σ
  computeTruth : Query M → σ → Option Bool × σ
  computeValue : Query M → σ → Option Expr × σ
  computeInitialValues : Query M → List ArrayObj → σ → Option (Option (List (List (BitVec 8)))) × σ

variable (C : List Expr) (e : Expr)

def Valid : Prop := ∀ a : Assignment, a.Satisfies C → e.eval a = 1

def Refuted : Prop := ∀ a : Assignment, a.Satisfies C → e.eval a = 0

def Attains (v : Nat) : Prop :=
  ∃ a : Assignment, a.Satisfies C ∧ e.eval a = v

def Satisfiable : Prop := ∃ a : Assignment, a.Satisfies C

def Validity.Correct : Validity → Prop
  | .true => Valid C e
  | .false => Refuted C e
  | .unknown => Attains C e 1 ∧ Attains C e 0

def CorrectTruth (isValid : Bool) : Prop := isValid = true ↔ Valid C e

def CorrectValue (e result : Expr) : Prop :=
  ∃ a : Assignment, a.Satisfies C ∧ result = e.value a

/-- The bytes of the objects in a model of the constraints that falsifies the expression, or
no bytes when there is no such model. -/
def CorrectInitialValues (objects : List ArrayObj) : Option (List (List (BitVec 8))) → Prop
  | none => ¬Attains C e 0
  | some values => values.map List.length = objects.map ArrayObj.size ∧
      ∃ a : Assignment, a.Satisfies C ∧ e.eval a = 0 ∧
        ∀ p ∈ objects.zip values, ∀ i, i < p.1.size → a p.1 i = p.2.getD i 0

structure Posed : Prop where
  boolean : e.Boolean
  inBounds : ∀ a : Assignment, a.Satisfies C → e.InBounds a true

structure SolverImpl.Correct {M σ : Type} (impl : SolverImpl M σ) (conds : M → List Expr) :
    Prop where
  validity : ∀ (q : Query M) (s : σ) (v : Validity), Posed (conds q.constraints) q.expr →
    (impl.computeValidity q s).1 = some v → v.Correct (conds q.constraints) q.expr
  truth : ∀ (q : Query M) (s : σ) (b : Bool), Posed (conds q.constraints) q.expr →
    (impl.computeTruth q s).1 = some b → CorrectTruth (conds q.constraints) q.expr b
  value : ∀ (q : Query M) (s : σ) (r : Expr), q.expr.WF →
    (∀ a : Assignment, a.Satisfies (conds q.constraints) → q.expr.InBounds a true) →
    (impl.computeValue q s).1 = some r → CorrectValue (conds q.constraints) q.expr r
  initialValues : ∀ (q : Query M) (objects : List ArrayObj) (s : σ)
    (r : Option (List (List (BitVec 8)))), Posed (conds q.constraints) q.expr →
    (impl.computeInitialValues q objects s).1 = some r →
    CorrectInitialValues (conds q.constraints) q.expr objects r

variable {C : List Expr} {e : Expr}

lemma Posed.not_valid_iff (h : Posed C e) : ¬Valid C e ↔ Attains C e 0 := by
  unfold Valid Attains
  rw [not_forall]
  constructor
  · rintro ⟨a,ha⟩
    rw [Classical.not_imp] at ha
    exact ⟨a,ha.1,h.boolean.eval_ne_one ha.2⟩
  · rintro ⟨a,ha,h0⟩
    refine ⟨a,fun h1 => ?_⟩
    rw [h1 ha] at h0
    cases h0

lemma Posed.valid_of_not_attains (h : Posed C e) (h0 : ¬Attains C e 0) : Valid C e :=
  not_not.mp fun hv => h0 (h.not_valid_iff.mp hv)

lemma Posed.not_refuted_iff (h : Posed C e) : ¬Refuted C e ↔ Attains C e 1 := by
  unfold Refuted Attains
  rw [not_forall]
  constructor
  · rintro ⟨a,ha⟩
    rw [Classical.not_imp] at ha
    exact ⟨a,ha.1,(e.eval_bool a h.boolean.1 h.boolean.2).resolve_left ha.2⟩
  · rintro ⟨a,ha,h1⟩
    refine ⟨a,fun h0 => ?_⟩
    rw [h0 ha] at h1
    cases h1

lemma Posed.createIsZero (h : Posed C e) : ∃ n, e.createIsZero = some n ∧ Posed C n ∧
      ∀ a : Assignment, a.Satisfies C → (n.eval a = 1 ↔ e.eval a = 0) := by
  obtain ⟨n,hn,hr⟩ := Expr.createIsZero_yields h.boolean.1
  have hdef : ∀ a : Assignment, a.Satisfies C →
      (Expr.binary .eq e (ConstantExpr.alloc 0 e.width)).InBounds a true :=
    fun a ha => ⟨h.inBounds a ha,trivial⟩
  refine ⟨n,hn,⟨⟨hr.wf,hr.width⟩,fun a ha => hr.defined a true (hdef a ha)⟩,fun a ha => ?_⟩
  rw [hr.eval a (hdef a ha),Expr.eval_isZero_iff h.boolean.1 h.boolean.2]
  rcases e.eval_bool a h.boolean.1 h.boolean.2 with h0 | h0 <;> simp [h0]

lemma Posed.createIsZero_zero (h : Posed C e) {n : Expr} (hn : e.createIsZero = some n)
    {a : Assignment} (ha : a.Satisfies C) : n.eval a = 0 ↔ e.eval a = 1 := by
  obtain ⟨n',hn',hp,hev⟩ := h.createIsZero
  obtain rfl : n = n' := Option.some.inj (hn.symm.trans hn')
  have h1 := hev a ha
  have he := e.eval_bool a h.boolean.1 h.boolean.2
  have hn := n.eval_bool a hp.boolean.1 hp.boolean.2
  omega

noncomputable def Attains.model {C : List Expr} {e : Expr} {v : Nat} (h : Attains C e v) :
    Assignment := Classical.choose h

lemma Attains.model_spec {C : List Expr} {e : Expr} {v : Nat} (h : Attains C e v) :
    h.model.Satisfies C ∧ e.eval h.model = v := Classical.choose_spec h

noncomputable def Satisfiable.model {C : List Expr} (h : Satisfiable C) : Assignment :=
  Classical.choose h

lemma Satisfiable.model_spec {C : List Expr} (h : Satisfiable C) : h.model.Satisfies C :=
  Classical.choose_spec h

open Classical in
noncomputable def SolverImpl.oracle {M : Type} (conds : M → List Expr) : SolverImpl M Unit where
  computeValidity q _ := (some (if Valid (conds q.constraints) q.expr then .true
      else if Refuted (conds q.constraints) q.expr then .false else .unknown),())
  computeTruth q _ := (some (decide (Valid (conds q.constraints) q.expr)),())
  computeValue q _ :=
    (if h : Satisfiable (conds q.constraints) then some (q.expr.value h.model) else none,())
  computeInitialValues q objects _ := (some (if h : Attains (conds q.constraints) q.expr 0 then
      some (objects.map fun o => (List.range o.size).map (h.model o)) else none),())

lemma bytes_of_model (a : Assignment) {objects : List ArrayObj} {p : ArrayObj × List (BitVec 8)}
    (hp : p ∈ objects.zip (objects.map fun o => (List.range o.size).map (a o))) {i : Nat}
    (hi : i < p.1.size) : a p.1 i = p.2.getD i 0 := by
  induction objects with
  | nil => simp at hp
  | cons o objects ih =>
    rw [List.map_cons,List.zip_cons_cons] at hp
    rcases List.mem_cons.mp hp with rfl | hp
    · simp [hi]
    · exact ih hp

open Classical in
lemma SolverImpl.oracle_correct {M : Type} (conds : M → List Expr) :
    (oracle conds).Correct conds where
  validity q s v hp h := by
    simp only [oracle,Option.some.injEq] at h
    subst h
    split
    · assumption
    rename_i hv
    split
    · assumption
    next hr =>
      exact ⟨hp.not_refuted_iff.mp hr,hp.not_valid_iff.mp hv⟩
  truth q s b hp h := by
    cases h
    exact decide_eq_true_iff
  value q s r hwf hb h := by
    simp only [oracle] at h
    split at h
    next hs =>
      cases h
      exact ⟨hs.model,hs.model_spec,rfl⟩
    · cases h
  initialValues q objects s r hp h := by
    simp only [oracle,Option.some.injEq] at h
    subst h
    split
    next h0 =>
      exact ⟨by simp [Function.comp_def],h0.model,h0.model_spec.1,h0.model_spec.2,
        fun p hp i hi => bytes_of_model h0.model hp hi⟩
    · assumption

end S2E
