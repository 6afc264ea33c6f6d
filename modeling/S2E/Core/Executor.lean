import S2E.Core.ExecutionState

/-! `Executor::fork`: branching on a condition. -/

namespace S2E
open Option ExecutionState

inductive StateRef where
  | current | branched
  deriving DecidableEq

structure StatePair where
  first : Option StateRef
  second : Option StateRef
  deriving DecidableEq

structure ForkOutcome where
  pair : StatePair
  current : ExecutionState
  branched : Option ExecutionState

def ForkOutcome.state (o : ForkOutcome) : StateRef → Option ExecutionState
  | .current => some o.current
  | .branched => o.branched

def ForkOutcome.oneSided (current : ExecutionState) (conditionIsTrue : Bool) : ForkOutcome where
  pair := if conditionIsTrue then ⟨some .current,none⟩ else ⟨none,some .current⟩
  current := current
  branched := none

def ForkOutcome.twoSided (current branched : ExecutionState) (conditionIsTrue : Bool) :
    ForkOutcome where
  pair := if conditionIsTrue then ⟨some .current,some .branched⟩ else ⟨some .branched,some .current⟩
  current := current
  branched := some branched

variable {σ : Type} (svc : Services σ)

/-- The side of the pair has exactly the assignments with the property as models, and is
null when there are none. -/
def ForkOutcome.Covers (o : ForkOutcome) (side : Option StateRef) (P : Assignment → Prop) : Prop :=
  match side with
  | none => ¬∃ a, P a
  | some r => (∃ a, P a) ∧ ∃ st, o.state r = some st ∧ ∀ a, a.Satisfies st.constraints ↔ P a

/-- The two sides part the models of the state, and the current state is one of them. -/
structure ForkOutcome.Partition (o : ForkOutcome) (st : ExecutionState) (c : Expr) : Prop where
  first : o.Covers o.pair.first fun a => a.Satisfies st.constraints ∧ c.eval a = 1
  second : o.Covers o.pair.second fun a => a.Satisfies st.constraints ∧ ¬c.eval a = 1
  current : o.pair.first = some .current ∨ o.pair.second = some .current

variable {st : ExecutionState} {o : ForkOutcome} {concolics : Concolics}

lemma ForkOutcome.Partition.of_concolics {c : Expr} (h : o.Partition {st with concolics} c) :
    o.Partition st c :=
  ⟨h.first,h.second,h.current⟩

structure ForkOutcome.Ok (o : ForkOutcome) : Prop where
  current : o.current.Ok
  branched : ∀ b, o.branched = some b → b.Ok

variable {isTrue keep : Bool}

namespace Executor

def sides (condition : Expr) (conditionIsTrue : Bool) : Option (Expr × Expr) := do
  let isZero ← condition.createIsZero
  pure (if conditionIsTrue then (condition,isZero) else (isZero,condition))

variable (current : ExecutionState)

def branch (condition : Expr) (conditionIsTrue : Bool) (s : σ) : Option (ForkOutcome × σ) := do
  let (own,other) ← sides condition conditionIsTrue
  let tmpConstraints ← ConstraintManager.addConstraint current.constraints other
  match current.solve svc tmpConstraints (Concolics.create true) s with
  | (none,s) => some (.oneSided current conditionIsTrue,s)
  | (some concolics,s) =>
    let branchedState := {current with concolics}
    match ← current.addConstraint svc own false s with
    | (false,_,_) => none
    | (true,current,s) =>
      match ← branchedState.addConstraint svc other false s with
      | (false,_,_) => none
      | (true,branchedState,s) => some (.twoSided current branchedState conditionIsTrue,s)

def follow (condition : Expr) (conditionIsTrue : Bool) (s : σ) : Option (ForkOutcome × σ) :=
  if current.addConstraintWhenForkingDisabled then do
    let (own,_) ← sides condition conditionIsTrue
    match ← current.addConstraint svc own false s with
    | (false,_,_) => none
    | (true,current,s) => some (.oneSided current conditionIsTrue,s)
  else some (.oneSided current conditionIsTrue,s)

def split (condition : Expr) (conditionIsTrue keep : Bool) (s : σ) : Option (ForkOutcome × σ) :=
  if keep && !conditionIsTrue then do
    let tmpConstraints ← ConstraintManager.addConstraint current.constraints condition
    match current.solve svc tmpConstraints current.concolics s with
    | (none,s) => some (.oneSided current false,s)
    | (some concolics,s) => branch svc {current with concolics} condition true s
  else branch svc current condition conditionIsTrue s

def fork (condition : Expr) (keepConditionTrueInCurrentState : Bool)
    (s : σ) : Option (ForkOutcome × σ) :=
  let (condition,s) := svc.simplify condition s
  if condition.isConstant then some (.oneSided current condition.isTrue,s)
  else do
    let (evalResult,concolics) ← current.concolics.evaluate condition
    let current := {current with concolics}
    if !evalResult.isConstant then none
    else if current.forkDisabled then follow svc current condition evalResult.isTrue s
    else split svc current condition evalResult.isTrue keepConditionTrueInCurrentState s

/-- `Executor::fork(current)`: the branched state gets a copy of the concolic values. -/
def forkUnconditional : ForkOutcome :=
  if current.forkDisabled then .oneSided current true else .twoSided current current true

variable {svc}

structure Sides (symbolics : List ArrayObj) (C : List Expr) (c : Expr) (isTrue : Bool)
    (own other : Expr) : Prop where
  own_ok : Admissible symbolics C own ∧ own.width = 1
  other_ok : Admissible symbolics C other ∧ other.width = 1
  own_iff : ∀ a : Assignment, a.Satisfies C → (own.eval a = 1 ↔ (decide (c.eval a = 1) = isTrue))
  other_iff : ∀ a : Assignment, a.Satisfies C →
    (other.eval a = 1 ↔ (decide (c.eval a = 1) = !isTrue))

lemma sides_spec {symbolics : List ArrayObj} {C : List Expr} {c r : Expr}
    (hc : Admissible symbolics C c) (hw : c.width = 1) (hr : Preserves c r) (isTrue : Bool) :
    ∃ own other, sides r isTrue = some (own,other) ∧ Sides symbolics C c isTrue own other := by
  have hradm := hc.preserve hr
  have hrw : r.width = 1 := hr.width.trans hw
  obtain ⟨n,hn,hnadm,hnw,hniff⟩ := equal_spec hradm
    (admissible_constant hr.wf 0) rfl
  have hcreate : r.createIsZero = some n := hn
  have hriff : ∀ a : Assignment, a.Satisfies C → (r.eval a = 1 ↔ c.eval a = 1) := by
    intro a ha
    rw [hr.eval a (hc.defined a ha)]
  have hniff' : ∀ a : Assignment, a.Satisfies C → (n.eval a = 1 ↔ ¬c.eval a = 1) := by
    intro a ha
    rw [hniff a ha,← hriff a ha]
    rcases r.eval_bool a hr.wf hrw with h0 | h0 <;> simp [h0,ConstantExpr.eval_alloc]
  simp only [sides,hcreate,bind_eq_bind,bind_some]
  cases isTrue with
  | true =>
    exact ⟨r,n,rfl,⟨hradm,hrw⟩,⟨hnadm,hnw⟩,fun a ha => by simp [hriff a ha],
      fun a ha => by simp [hniff' a ha]⟩
  | false =>
    exact ⟨n,r,rfl,⟨hnadm,hnw⟩,⟨hradm,hrw⟩,fun a ha => by simp [hniff' a ha],
      fun a ha => by simp [hriff a ha]⟩

lemma oneSided_partition {st st' : ExecutionState} {c : Expr} (hok : st.Ok)
    (hmodels : ∀ a : Assignment, a.Satisfies st'.constraints ↔ a.Satisfies st.constraints)
    (hall : ∀ a : Assignment, a.Satisfies st.constraints → decide (c.eval a = 1) = isTrue) :
    (ForkOutcome.oneSided st' isTrue).Partition st c := by
  have hsat := hok.fits.satisfies
  cases isTrue with
  | true =>
    have hall' : ∀ a : Assignment, a.Satisfies st.constraints → c.eval a = 1 :=
      fun a ha => of_decide_eq_true (hall a ha)
    refine ⟨⟨⟨_,hsat,hall' _ hsat⟩,st',rfl,fun a => ?_⟩,?_,.inl rfl⟩
    · rw [hmodels a]
      exact ⟨fun ha => ⟨ha,hall' a ha⟩,And.left⟩
    · rintro ⟨a,ha,hne⟩
      exact hne (hall' a ha)
  | false =>
    have hall' : ∀ a : Assignment, a.Satisfies st.constraints → ¬c.eval a = 1 :=
      fun a ha => of_decide_eq_false (hall a ha)
    refine ⟨?_,⟨⟨_,hsat,hall' _ hsat⟩,st',rfl,fun a => ?_⟩,.inr rfl⟩
    · rintro ⟨a,ha,h1⟩
      exact hall' a ha h1
    · rw [hmodels a]
      exact ⟨fun ha => ⟨ha,hall' a ha⟩,And.left⟩

lemma twoSided_partition {st cur br : ExecutionState} {c own other : Expr}
    (hsides : Sides st.symbolics st.constraints c isTrue own other)
    (hcur : st.Extended cur own) (hbr : st.Extended br other) :
    (ForkOutcome.twoSided cur br isTrue).Partition st c := by
  have hmcur : ∀ a : Assignment, a.Satisfies cur.constraints ↔
      a.Satisfies st.constraints ∧ decide (c.eval a = 1) = isTrue := by
    intro a
    rw [hcur.models a]
    exact and_congr_right fun ha => hsides.own_iff a ha
  have hmbr : ∀ a : Assignment, a.Satisfies br.constraints ↔
      a.Satisfies st.constraints ∧ decide (c.eval a = 1) = !isTrue := by
    intro a
    rw [hbr.models a]
    exact and_congr_right fun ha => hsides.other_iff a ha
  have hscur := hcur.ok.fits.satisfies
  have hsbr := hbr.ok.fits.satisfies
  cases isTrue with
  | true =>
    simp only [decide_eq_true_eq,Bool.not_true,decide_eq_false_iff_not] at hmcur hmbr
    exact ⟨⟨⟨_,(hmcur _).mp hscur⟩,cur,rfl,hmcur⟩,⟨⟨_,(hmbr _).mp hsbr⟩,br,rfl,hmbr⟩,
      .inl rfl⟩
  | false =>
    simp only [decide_eq_false_iff_not,Bool.not_false,decide_eq_true_eq] at hmcur hmbr
    exact ⟨⟨⟨_,(hmbr _).mp hsbr⟩,br,rfl,hmbr⟩,⟨⟨_,(hmcur _).mp hscur⟩,cur,rfl,hmcur⟩,
      .inr rfl⟩

lemma branch_spec (hsvc : svc.Sound) (hok : st.Ok) {c r : Expr}
    (hc : Admissible st.symbolics st.constraints c) (hw : c.width = 1) (hr : Preserves c r)
    (htrue : decide (c.eval st.concolics.assignment = 1) = isTrue) (s : σ) :
    ∃ own other, sides r isTrue = some (own,other) ∧
      if other.hasFalseConjunct then branch svc st r isTrue s = none
      else ∃ o s', branch svc st r isTrue s = some (o,s') ∧ o.Partition st c ∧ o.Ok ∧
        (isTrue → o.pair.first = some .current) := by
  obtain ⟨own,other,hs,hsides⟩ := sides_spec hc hw hr isTrue
  refine ⟨own,other,hs,?_⟩
  have hadd := ConstraintManager.addConstraint_eq st.constraints other
  unfold branch
  simp only [hs,bind_eq_bind,bind_some]
  split
  next hf =>
    rw [hadd,if_pos hf]
    rfl
  rename_i hf
  rw [if_neg hf] at hadd
  obtain ⟨hm,hmodels⟩ := hok.meaningful.add hsides.other_ok.1 hsides.other_ok.2 hadd
  have hsolve := solve_spec hsvc _ hm (Concolics.create true) s
  rw [hadd]
  simp only [bind_some]
  cases hsol : st.solve svc (other.conjuncts.reverse ++ st.constraints) (Concolics.create true)
    s with
  | mk found s₁ =>
    rw [hsol] at hsolve
    cases found with
    | none =>
      refine ⟨_,s₁,rfl,oneSided_partition hok (fun a => Iff.rfl) fun a ha => ?_,
        ⟨hok,by simp [ForkOutcome.oneSided]⟩,fun h => by simp [ForkOutcome.oneSided,h]⟩
      by_contra hne
      refine hsolve ⟨a,(hmodels a).mpr ⟨ha,(hsides.other_iff a ha).mpr ?_⟩⟩
      exact Bool.eq_not_of_ne hne
    | some concolics =>
      obtain ⟨hboth,hother⟩ := (hmodels _).mp hsolve.satisfies
      obtain ⟨cur,s₂,hcur,hxcur⟩ := addConstraint_holds hsvc hok
        hsides.own_ok.1 hsides.own_ok.2 false s₁
        ((hsides.own_iff _ hok.fits.satisfies).mpr htrue)
      have hokb : ExecutionState.Ok {st with concolics} :=
        ⟨⟨hsolve.binds,hsolve.cache,hboth⟩,hok.meaningful⟩
      obtain ⟨br,s₃,hbr,hxbr⟩ := addConstraint_holds hsvc hokb
        hsides.other_ok.1 hsides.other_ok.2 false s₂ hother
      have hxbr' : st.Extended br other := hxbr.of_concolics
      refine ⟨_,s₃,by simp only [hcur,hbr,bind_some],
        twoSided_partition hsides hxcur hxbr',⟨hxcur.ok,?_⟩,fun h => ?_⟩
      · intro b hb
        cases some.inj hb
        exact hxbr.ok
      · simp [ForkOutcome.twoSided,h]

def negationRejected (e : Expr) : Bool := e.createIsZero.any Expr.hasFalseConjunct

lemma sides_true {r own other : Expr} (h : sides r true = some (own,other)) :
    other.hasFalseConjunct = negationRejected r := by
  unfold sides at h
  cases hz : r.createIsZero with
  | none => simp [hz] at h
  | some n =>
    simp only [hz,bind_eq_bind,bind_some,if_true] at h
    cases some.inj h
    simp [negationRejected,hz]

lemma sides_false {r own other : Expr} (h : sides r false = some (own,other)) : other = r := by
  unfold sides at h
  cases hz : r.createIsZero with
  | none => simp [hz] at h
  | some n =>
    simp only [hz,bind_eq_bind,bind_some] at h
    cases some.inj h
    rfl

/-- The constraint that is tried for the other side has no false conjunct: the negated
condition where the concrete values make the condition true, else the condition. With
`keep` the condition is tried first, and its negation when the condition is feasible. -/
def SplitSafe (st : ExecutionState) (c r : Expr) (keep : Bool) : Prop :=
  if c.eval st.concolics.assignment = 1 then negationRejected r = false
  else r.hasFalseConjunct = false ∧
    (keep = true → (∃ a : Assignment, a.Satisfies st.constraints ∧ c.eval a = 1) →
      negationRejected r = false)

def ForkSafe (svc : Services σ) (st : ExecutionState) (c : Expr) (keep : Bool) (s : σ) : Prop :=
  (svc.simplify c s).1.isConstant = true ∨ SplitSafe st c (svc.simplify c s).1 keep

structure Forked (st : ExecutionState) (c : Expr) (keep : Bool) (o : ForkOutcome) : Prop where
  partition : o.Partition st c
  keep : keep = true → (∃ a : Assignment, a.Satisfies st.constraints ∧ c.eval a = 1) →
    o.pair.first = some .current

lemma Forked.of_concolics {c : Expr} (h : Forked {st with concolics} c keep o) :
    Forked st c keep o :=
  ⟨h.partition.of_concolics,h.keep⟩

lemma isTrue_value {r : Expr} (h : r.Boolean) (a : Assignment) :
    (r.value a).isTrue = decide (r.eval a = 1) := by
  have hw := h.2
  rcases r.eval_bool a h.1 h.2 with h0 | h0 <;>
    simp [Expr.value,ConstantExpr.alloc,Expr.isTrue,APInt.isTrue,h0,hw]

section Split
variable {st : ExecutionState} {c r : Expr} (hsvc : svc.Sound) (hok : st.Ok)
  (hc : Admissible st.symbolics st.constraints c) (hw : c.width = 1) (hr : Preserves c r)

include hsvc hok hc hw hr

lemma branch_true (htrue : c.eval st.concolics.assignment = 1) (s : σ) :
    negationRejected r ∧ branch svc st r true s = none ∨
    ¬negationRejected r ∧ ∃ o s', branch svc st r true s = some (o,s') ∧ o.Partition st c ∧ o.Ok ∧
      o.pair.first = some .current := by
  obtain ⟨own,other,hs,h⟩ := branch_spec hsvc hok hc hw hr (decide_eq_true htrue) s
  rw [sides_true hs] at h
  grind

lemma branch_false (hfalse : ¬c.eval st.concolics.assignment = 1) (s : σ) :
    r.hasFalseConjunct ∧ branch svc st r false s = none ∨ ¬r.hasFalseConjunct ∧
      ∃ o s', branch svc st r false s = some (o,s') ∧ o.Partition st c ∧ o.Ok := by
  obtain ⟨own,other,hs,h⟩ := branch_spec hsvc hok hc hw hr (decide_eq_false hfalse) s
  rw [sides_false hs] at h
  grind

lemma split_keep (hfalse : ¬c.eval st.concolics.assignment = 1) (s : σ) :
    (SplitSafe st c r true ∧ ∃ o s', split svc st r false true s = some (o,s') ∧
      Forked st c true o ∧ o.Ok) ∨ ¬SplitSafe st c r true ∧ split svc st r false true s = none := by
  have hadm := hc.preserve hr
  have heval : ∀ a : Assignment, a.Satisfies st.constraints → r.eval a = c.eval a :=
    fun a ha => hr.eval a (hc.defined a ha)
  have hadd := ConstraintManager.addConstraint_eq st.constraints r
  simp only [SplitSafe,hfalse,if_false,forall_const]
  simp only [split,Bool.not_false,Bool.and_self,if_true]
  cases hf : r.hasFalseConjunct with
  | true =>
    rw [hf,if_pos rfl] at hadd
    exact .inr ⟨by simp,by rw [hadd]; rfl⟩
  | false =>
    rw [hf,if_neg (by simp)] at hadd
    obtain ⟨hm,hmodels⟩ := hok.meaningful.add hadm (hr.width.trans hw) hadd
    have hsolve := solve_spec hsvc st hm st.concolics s
    rw [hadd]
    simp only [bind_eq_bind,bind_some,true_and]
    cases hsol : st.solve svc (r.conjuncts.reverse ++ st.constraints) st.concolics s with
    | mk found s₁ =>
      rw [hsol] at hsolve
      cases found with
      | none =>
        have hunsat : ¬∃ a : Assignment, a.Satisfies st.constraints ∧ c.eval a = 1 := by
          rintro ⟨a,ha,h1⟩
          exact hsolve ⟨a,(hmodels a).mpr ⟨ha,by rw [heval a ha,h1]⟩⟩
        refine .inl ⟨fun h => absurd h hunsat,_,s₁,rfl,
          ⟨oneSided_partition hok (fun a => Iff.rfl) fun a ha => ?_,fun _ h => absurd h hunsat⟩,
          hok,by simp [ForkOutcome.oneSided]⟩
        exact decide_eq_false fun h1 => hunsat ⟨a,ha,h1⟩
      | some found =>
        obtain ⟨hsat,hr1⟩ := (hmodels _).mp hsolve.satisfies
        have hc1 : c.eval found.assignment = 1 := by rw [← heval _ hsat,hr1]
        have hokf : ExecutionState.Ok {st with concolics := found} :=
          ⟨⟨hsolve.binds,hsolve.cache,hsat⟩,hok.meaningful⟩
        have hex : ∃ a : Assignment, a.Satisfies st.constraints ∧ c.eval a = 1 := ⟨_,hsat,hc1⟩
        simp only [hex,forall_const]
        rcases branch_true hsvc hokf hc hw hr hc1 s₁ with
          ⟨hn,hb⟩ | ⟨hn,o,s',ho,hp,hoo,hfirst⟩
        · exact .inr ⟨by simp [hn],hb⟩
        · exact .inl ⟨by simpa using hn,o,s',ho,⟨hp.of_concolics,fun _ _ => hfirst⟩,hoo⟩

lemma split_spec (htrue : decide (c.eval st.concolics.assignment = 1) = isTrue)
    (keep : Bool) (s : σ) :
    (SplitSafe st c r keep ∧ ∃ o s', split svc st r isTrue keep s = some (o,s') ∧
      Forked st c keep o ∧ o.Ok ∧ (isTrue → o.pair.first = some .current)) ∨
    ¬SplitSafe st c r keep ∧ split svc st r isTrue keep s = none := by
  subst htrue
  by_cases h1 : c.eval st.concolics.assignment = 1
  · have hsplit : split svc st r true keep s = branch svc st r true s := by simp [split]
    simp only [SplitSafe,h1,decide_true,if_true,hsplit]
    rcases branch_true hsvc hok hc hw hr h1 s with ⟨hn,hb⟩ | ⟨hn,o,s',ho,hp,hoo,hfirst⟩
    · exact .inr ⟨by simp [hn],hb⟩
    · exact .inl ⟨by simpa using hn,o,s',ho,⟨hp,fun _ _ => hfirst⟩,hoo,fun _ => hfirst⟩
  · rw [decide_eq_false h1]
    cases keep with
    | true =>
      rcases split_keep hsvc hok hc hw hr h1 s with ⟨hs,o,s',ho,hf,hoo⟩ | hs
      · exact .inl ⟨hs,o,s',ho,hf,hoo,fun h => by cases h⟩
      · exact .inr hs
    | false =>
      have hsplit : split svc st r false false s = branch svc st r false s := by simp [split]
      simp only [SplitSafe,h1,if_false,Bool.false_eq_true,false_implies,and_true,hsplit]
      rcases branch_false hsvc hok hc hw hr h1 s with ⟨hf,hb⟩ | ⟨hf,o,s',ho,hp,hoo⟩
      · exact .inr ⟨by simp [hf],hb⟩
      · exact .inl ⟨by simpa using hf,o,s',ho,⟨hp,fun h => by cases h⟩,hoo⟩

end Split

structure Followed (st : ExecutionState) (c : Expr) (isTrue : Bool) (cur : ExecutionState) :
    Prop where
  ok : cur.Ok
  symbolics : cur.symbolics = st.symbolics
  forkDisabled : cur.forkDisabled = st.forkDisabled
  models : ∀ a : Assignment, a.Satisfies cur.constraints ↔ a.Satisfies st.constraints ∧
    (st.addConstraintWhenForkingDisabled = true → decide (c.eval a = 1) = isTrue)

section
variable {c : Expr} (hsvc : svc.Sound) (hok : st.Ok)
  (hc : Admissible st.symbolics st.constraints c) (hw : c.width = 1)

include hsvc hok hc hw

lemma follow_spec {r : Expr} (hr : Preserves c r)
    (htrue : decide (c.eval st.concolics.assignment = 1) = isTrue) (s : σ) :
    ∃ cur s', follow svc st r isTrue s = some (.oneSided cur isTrue,s') ∧
      Followed st c isTrue cur := by
  obtain ⟨own,other,hs,hsides⟩ := sides_spec hc hw hr isTrue
  unfold follow
  cases hadd : st.addConstraintWhenForkingDisabled with
  | false => exact ⟨st,s,rfl,hok,rfl,rfl,fun a => by simp [hadd]⟩
  | true =>
    obtain ⟨cur,s',hcur,hext⟩ := addConstraint_holds hsvc hok hsides.own_ok.1
      hsides.own_ok.2 false s ((hsides.own_iff _ hok.fits.satisfies).mpr htrue)
    refine ⟨cur,s',?_,hext.ok,hext.symbolics,hext.forkDisabled,fun a => ?_⟩
    · simp [hs,hcur]
    · rw [hext.models a,hadd]
      simp only [forall_const]
      exact and_congr_right fun ha => hsides.own_iff a ha

omit hok in
lemma fork_constant {s : σ} (hconst : (svc.simplify c s).1.isConstant) (keep : Bool) :
    ∃ isTrue s', fork svc st c keep s = some (.oneSided st isTrue,s') ∧
      ∀ a : Assignment, a.Satisfies st.constraints → decide (c.eval a = 1) = isTrue := by
  have hr := hsvc.simplify c s hc.wf
  refine ⟨(svc.simplify c s).1.isTrue,(svc.simplify c s).2,by simp [fork,hconst],?_⟩
  intro a ha
  rw [← hr.eval a (hc.defined a ha)]
  cases ht : (svc.simplify c s).1.isTrue with
  | true => exact decide_eq_true (isTrue_eval ht a)
  | false =>
    exact decide_eq_false (isConstant_not_isTrue (hr.width.trans hw) (by simp [hconst,ht]))

lemma fork_symbolic {s : σ} (hconst : (svc.simplify c s).1.isConstant = false) (keep : Bool) :
    ∃ concolics, st.Unchanged {st with concolics} ∧ fork svc st c keep s =
        if st.forkDisabled then follow svc {st with concolics} (svc.simplify c s).1
          (decide (c.eval st.concolics.assignment = 1)) (svc.simplify c s).2
        else split svc {st with concolics} (svc.simplify c s).1
          (decide (c.eval st.concolics.assignment = 1)) keep (svc.simplify c s).2 := by
  have hr := hsvc.simplify c s hc.wf
  obtain ⟨concolics,hev,hun⟩ := hok.evaluate (hc.preserve hr)
  refine ⟨concolics,hun,?_⟩
  have hT : ((svc.simplify c s).1.value st.concolics.assignment).isTrue =
      decide (c.eval st.concolics.assignment = 1) := by
    rw [← hr.eval _ (hc.defined _ hok.fits.satisfies)]
    exact isTrue_value ⟨hr.wf,hr.width.trans hw⟩ _
  have hvc : ((svc.simplify c s).1.value st.concolics.assignment).isConstant := rfl
  simp [fork,hconst,hev,hvc,hT]

lemma fork_spec (hdis : st.forkDisabled = false) (keep : Bool) (s : σ) :
    (ForkSafe svc st c keep s ∧ ∃ o s', fork svc st c keep s = some (o,s') ∧
      Forked st c keep o ∧ o.Ok ∧
      (c.eval st.concolics.assignment = 1 → o.pair.first = some .current)) ∨
    ¬ForkSafe svc st c keep s ∧ fork svc st c keep s = none := by
  cases hconst : (svc.simplify c s).1.isConstant with
  | true =>
    obtain ⟨isTrue,s',hf,hall⟩ := fork_constant hsvc hc hw hconst keep
    have hfirst : ∀ a : Assignment, a.Satisfies st.constraints → c.eval a = 1 →
        (ForkOutcome.oneSided st isTrue).pair.first = some .current := by
      intro a ha h1
      have ht : isTrue := by
        rw [← hall a ha]
        exact decide_eq_true h1
      simp [ForkOutcome.oneSided,ht]
    exact .inl ⟨.inl hconst,_,s',hf,⟨oneSided_partition hok (fun a => Iff.rfl) hall,
      fun _ ⟨a,ha,h1⟩ => hfirst a ha h1⟩,⟨hok,by simp [ForkOutcome.oneSided]⟩,
      hfirst _ hok.fits.satisfies⟩
  | false =>
    obtain ⟨concolics,hun,hf⟩ := fork_symbolic hsvc hok hc hw hconst keep
    have hok' := hun.ok hok
    have hsp := split_spec hsvc hok' hc hw (hsvc.simplify c s hc.wf) (hun.side c) keep
      (svc.simplify c s).2
    have hsafe : SplitSafe {st with concolics} c (svc.simplify c s).1 keep ↔
        ForkSafe svc st c keep s := by
      simp [ForkSafe,hconst,SplitSafe,hun.assignment]
    rw [hf,if_neg (by simp [hdis])]
    rcases hsp with ⟨hs,o,s',ho,hfk,hoo,hfirst⟩ | ⟨hs,hn⟩
    · exact .inl ⟨hsafe.mp hs,o,s',ho,hfk.of_concolics,hoo,
        fun h1 => hfirst (decide_eq_true h1)⟩
    · exact .inr ⟨fun h => hs (hsafe.mpr h),hn⟩

lemma fork_ok {s s' : σ} (h : fork svc st c keep s = some (o,s')) : o.Ok := by
  cases hdis : st.forkDisabled with
  | false =>
    rcases fork_spec hsvc hok hc hw hdis keep s with ⟨-,o',s₁,ho,-,hoo,-⟩ | ⟨-,hn⟩
    · rw [ho] at h
      cases some.inj h
      exact hoo
    · rw [hn] at h
      cases h
  | true =>
    cases hconst : (svc.simplify c s).1.isConstant with
    | true =>
      obtain ⟨isTrue,s₁,hf,-⟩ := fork_constant hsvc hc hw hconst keep
      rw [hf] at h
      cases some.inj h
      exact ⟨hok,by simp [ForkOutcome.oneSided]⟩
    | false =>
      obtain ⟨concolics,hun,hf⟩ := fork_symbolic hsvc hok hc hw hconst keep
      obtain ⟨cur,s₁,hfo,hfd⟩ := follow_spec hsvc (hun.ok hok) hc hw (hsvc.simplify c s hc.wf)
        (hun.side c) (svc.simplify c s).2
      rw [hf,if_pos hdis,hfo] at h
      cases some.inj h
      exact ⟨hfd.ok,by simp [ForkOutcome.oneSided]⟩

end

/-- With forking enabled `fork` parts the models of the constraints between the two states,
as long as the constraint tried for the other side is accepted. -/
theorem fork_partitions_iff (hsvc : svc.Sound) {st : ExecutionState} (hok : st.Ok)
    (hdis : st.forkDisabled = false) {c : Expr} (hc : Admissible st.symbolics st.constraints c)
    (hw : c.width = 1) (keep : Bool) (s : σ) :
    (∃ o s', fork svc st c keep s = some (o,s') ∧ Forked st c keep o) ↔
      ForkSafe svc st c keep s := by
  rcases fork_spec hsvc hok hc hw hdis keep s with ⟨hsafe,o,s',ho,hf,-⟩ | ⟨hsafe,hn⟩
  · exact ⟨fun _ => hsafe,fun _ => ⟨o,s',ho,hf⟩⟩
  refine ⟨?_,fun h => absurd h hsafe⟩
  rintro ⟨o,s',ho,-⟩
  rw [hn] at ho
  cases ho

def probeArray : ArrayObj := .symbolic 0 1 one_fits

def probeByte : Expr := .read (.root probeArray) (ConstantExpr.alloc 0 32)

def probeIs (v : Nat) : Expr := .binary .eq (ConstantExpr.alloc v 8) probeByte

def probeState : ExecutionState where
  constraints := []
  concolics := ⟨[(probeArray,[0])],true,[]⟩
  symbolics := [probeArray]
  forkDisabled := false
  addConstraintWhenForkingDisabled := true

lemma probeState_ok : probeState.Ok where
  fits :=
    { binds := by
        intro arr harr
        rw [List.mem_singleton.mp harr]
        exact ⟨[0],by decide,by decide⟩
      cache := fun e r h => by cases h
      satisfies := fun c hc => by cases hc}
  meaningful := ⟨fun c hc => (by cases hc),fun a _ c hc => (by cases hc)⟩

lemma probeByte_defined (a : Assignment) (live : Bool) :
    probeByte.Defined (.over [probeArray]) a live :=
  ⟨trivial,trivial,fun _ => ⟨Nat.one_pos,.inr List.mem_cons_self⟩⟩

lemma probeIs_defined (v : Nat) (a : Assignment) :
    (probeIs v).Defined (.over [probeArray]) a true :=
  ⟨trivial,probeByte_defined a true⟩

theorem fork_partitions_probe :
    ∃ o s', fork idealServices probeState (probeIs 0) true () = some (o,s') ∧
      Forked probeState (probeIs 0) true o :=
  (fork_partitions_iff idealServices_sound probeState_ok rfl
    ⟨by decide,fun a _ => probeIs_defined 0 a⟩ rfl true ()).mpr
    (.inr (by
      rw [SplitSafe,if_pos (by decide)]
      decide +kernel))

def probeTautology : Expr :=
  .binary .or (.binary .and (probeIs 1) (probeIs 2))
    (.binary .or (.binary .eq (ConstantExpr.alloc 0 1) (probeIs 1))
      (.binary .eq (ConstantExpr.alloc 0 1) (probeIs 2)))

/-- The negation of a tautology may fold to false, which the constraint manager does not
accept. -/
theorem fork_tautology_aborts :
    idealServices.Sound ∧ probeState.Ok ∧ probeState.forkDisabled = false ∧
      Admissible probeState.symbolics probeState.constraints probeTautology ∧
      probeTautology.width = 1 ∧ probeTautology.create = some probeTautology ∧
      fork idealServices probeState probeTautology false () = none := by
  have hadm : Admissible probeState.symbolics probeState.constraints probeTautology := by
    refine ⟨by decide,fun a _ => ?_⟩
    exact ⟨⟨probeIs_defined 1 a,probeIs_defined 2 a⟩,⟨trivial,probeIs_defined 1 a⟩,trivial,
      probeIs_defined 2 a⟩
  refine ⟨idealServices_sound,probeState_ok,rfl,hadm,rfl,by decide +kernel,?_⟩
  have hunsafe : ¬ForkSafe idealServices probeState probeTautology false () := by
    rintro (h | h)
    · revert h
      decide
    · rw [SplitSafe,if_pos (by decide)] at h
      revert h
      decide +kernel
  rcases fork_spec idealServices_sound probeState_ok hadm rfl rfl false () with ⟨h,-⟩ | ⟨-,h⟩
  · exact absurd h hunsafe
  · exact h

inductive Step (svc : Services σ) : ExecutionState × σ → ExecutionState × σ → Prop
  | addConstraint {st st' : ExecutionState} {s s' : σ} {e : Expr} {recompute added : Bool} :
      Admissible st.symbolics st.constraints e → e.width = 1 →
      st.addConstraint svc e recompute s = some (added,st',s') → Step svc (st,s) (st',s')
  | toConstant {st st' : ExecutionState} {s s' : σ} {e value : Expr} :
      Admissible st.symbolics st.constraints e →
      st.toConstant svc e s = some (value,st',s') → Step svc (st,s) (st',s')
  | fork {st st' : ExecutionState} {s s' : σ} {c : Expr} {keep : Bool} {o : ForkOutcome}
      {r : StateRef} : Admissible st.symbolics st.constraints c → c.width = 1 →
      fork svc st c keep s = some (o,s') →
      o.pair.first = some r ∨ o.pair.second = some r → o.state r = some st' →
      Step svc (st,s) (st',s')

lemma Step.ok (hsvc : svc.Sound) {p p' : ExecutionState × σ} (h : Step svc p p')
    (hok : p.1.Ok) : p'.1.Ok := by
  cases h with
  | addConstraint he hw h =>
    rename_i st st' s s' e recompute added
    rcases addConstraint_spec hsvc hok he hw recompute s with
      ⟨b,st₁,s₁,h₁,hout⟩ | ⟨h₁,-⟩
    · rw [h₁] at h
      cases some.inj h
      cases added with
      | true => exact (hout.extended rfl).ok
      | false => exact (hout.unchanged rfl).ok hok
    · rw [h₁] at h
      cases h
  | toConstant he h =>
    rename_i st st' s s' e value
    obtain ⟨c,st₁,s₁,h₁,hcon⟩ := toConstant_spec hsvc hok he s
    rw [h₁] at h
    cases some.inj h
    exact hcon.ok
  | fork hc hw h hr hst =>
    have hoo := fork_ok hsvc hok hc hw h
    rename_i st' _ _ _ _ _ r
    cases r with
    | current =>
      cases some.inj hst
      exact hoo.current
    | branched => exact hoo.branched _ hst

/-- In every state that is reached the concolic assignment satisfies the path constraints,
and a constraint that is not added leaves both as they were. -/
theorem concolics_satisfy_constraints (hsvc : svc.Sound) {st st' : ExecutionState} {s s' : σ}
    (hok : st.Ok) (h : Relation.ReflTransGen (Step svc) (st,s) (st',s')) :
    st'.concolics.Binds st'.symbolics ∧ st'.concolics.assignment.Satisfies st'.constraints ∧
      ∀ (e : Expr) (recompute : Bool) (s₁ s₂ : σ) (st₂ : ExecutionState),
        st'.addConstraint svc e recompute s₁ = some (false,st₂,s₂) →
        st₂.constraints = st'.constraints ∧ st₂.concolics.bindings = st'.concolics.bindings := by
  have hinv : ∀ {p : ExecutionState × σ}, Relation.ReflTransGen (Step svc) (st,s) p → p.1.Ok := by
    intro p hp
    induction hp with
    | refl => exact hok
    | tail _ hstep ih => exact hstep.ok hsvc ih
  have hok' := hinv h
  exact ⟨hok'.fits.binds,hok'.fits.satisfies,fun e recompute s₁ s₂ st₂ => addConstraint_atomic⟩

theorem concolics_satisfy_probe :
    ∃ c st' s', probeState.toConstant idealServices probeByte () = some (.constant c,st',s') ∧
      st'.concolics.Binds st'.symbolics ∧ st'.concolics.assignment.Satisfies st'.constraints := by
  have hadm : Admissible probeState.symbolics probeState.constraints probeByte :=
    ⟨by decide,fun a _ => probeByte_defined a true⟩
  obtain ⟨c,st',s',h,-⟩ := toConstant_spec idealServices_sound probeState_ok hadm ()
  have hrun := concolics_satisfy_constraints idealServices_sound probeState_ok
    (.single (.toConstant hadm h))
  exact ⟨c,st',s',h,hrun.1,hrun.2.1⟩

end Executor
end S2E
