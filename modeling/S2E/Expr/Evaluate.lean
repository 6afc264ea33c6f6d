import S2E.Expr.Create

/-!
`CachedAssignmentEvaluator`: the value of an expression under the bytes that are bound
to the symbolic arrays, with the cache of the values found before.
-/

namespace S2E
open ConstantExpr S2E.Expr Option

/-- The class `Assignment`. The cache for update lists is never filled and is left out. -/
structure Concolics where
  bindings : List (ArrayObj × List (BitVec 8))
  allowFreeValues : Bool
  expressionCache : List (Expr × Expr)

def Concolics.evaluateAt (c : Concolics) (array : ArrayObj) (index : Nat) : Option Expr :=
  let free : Option Expr :=
    if c.allowFreeValues then ReadExpr.create (.root array) (alloc index 32)
    else some (alloc 0 8)
  match c.bindings.lookup array with
  | some bytes =>
    match bytes[index]? with
    | some b => some (alloc b.toNat 8)
    | none => free
  | none => free

def Concolics.scanUpdates (c : Concolics) (index : APInt) : UpdateList → Option Expr
  | .root array =>
    if array.isConstantArray = true ∧ index.value < array.size then
      some (alloc (array.constantValues.getD index.value 0).toNat 8)
    else c.evaluateAt array (index.value%2^32)
  | .extend next (.constant updateIndex) value =>
    if index.value = updateIndex.value then some value else c.scanUpdates index next
  | .extend next i value => ReadExpr.create (.extend next i value) (.constant index)

/-- `evaluateAnd`, `evaluateUSDivRem`, and the rebuilding of the other binary kinds. A
division by zero keeps its own divisor. -/
def evaluateBinary (k : BinaryKind) (r a1 a2 : Expr) : Option Expr :=
  if k = .and then
    if a1.isZero then some a1 else if a2.isZero then some a2 else some (AndExpr.create a1 a2)
  else if k.isDivision && a2.isZero then k.create a1 r
  else k.create a1 a2

abbrev EvalM := StateT (List (Expr × Expr)) Option

def EvalM.cached (e : Expr) (actual : EvalM Expr) : EvalM Expr := fun cache =>
  match cache.lookup e with
  | some result => some (result,cache)
  | none => do
    let (result,cache) ← actual cache
    pure (result,if result.isConstant then (e,result) :: cache else cache)

mutual
def Concolics.visit (c : Concolics) : Expr → EvalM Expr
  | .constant v => pure (.constant v)
  | .read ul i => EvalM.cached (.read ul i) (do
    match ← c.visit i with
    | .constant index => do
      let rewritten ← c.rewriteUpdatesUncached ul
      monadLift (c.scanUpdates index rewritten)
    | index => monadLift (ReadExpr.create ul index))
  | .select cond t f => EvalM.cached (.select cond t f) (do
    match ← c.visit cond with
    | .constant ce => if ce.isTrue then c.visit t else c.visit f
    | cond => do
      let t ← c.visit t
      let f ← c.visit f
      monadLift (SelectExpr.create cond t f))
  | .concat l r => EvalM.cached (.concat l r) (do
    let l ← c.visit l
    let r ← c.visit r
    monadLift (ConcatExpr.create l r))
  | .extract e off w => EvalM.cached (.extract e off w) (do
    let e ← c.visit e
    monadLift (ExtractExpr.create e off w))
  | .not e => EvalM.cached (.not e) (do
    let e ← c.visit e
    pure (NotExpr.create e))
  | .zext e w => EvalM.cached (.zext e w) (do
    let e ← c.visit e
    monadLift (ZExtExpr.create e w))
  | .sext e w => EvalM.cached (.sext e w) (do
    let e ← c.visit e
    monadLift (SExtExpr.create e w))
  | .binary k l r => EvalM.cached (.binary k l r) (do
    let a1 ← c.visit l
    let a2 ← c.visit r
    monadLift (evaluateBinary k r a1 a2))

def Concolics.rewriteUpdatesUncached (c : Concolics) : UpdateList → EvalM UpdateList
  | .root arr => pure (.root arr)
  | .extend next i v => do
    let rewritten ← c.rewriteUpdatesUncached next
    let index ← c.visit i
    let value ← c.visit v
    pure (.extend rewritten index value)
end

def Concolics.evaluate (c : Concolics) (e : Expr) : Option (Expr × Concolics) :=
  (c.visit e c.expressionCache).map fun (result,cache) =>
    (result, {c with expressionCache := cache})

def Expr.value (a : Assignment) (e : Expr) : Expr := alloc (e.eval a) e.width

variable {a : Assignment} {e : Expr}

lemma Expr.value_wf (h : e.WF) : (e.value a).WF := ⟨e.width_pos h,e.width_lt h⟩

lemma Expr.eval_value (b : Assignment) (h : e.WF) : (e.value a).eval b = e.eval a := by
  rw [value,eval_alloc]
  exact Nat.mod_eq_of_lt (e.eval_lt a h)

lemma Expr.eq_value {c : APInt} (hw : c.width = e.width)
    (hv : c.value = e.eval a) : constant c = e.value a := by
  rw [value,alloc,← hw,← hv,APInt.ofNat_value_self]

lemma Yields.eq_value {S : Scope} {o : Option Expr}
    (h : Yields e o) (hd : e.Defined S a true) (hc : ∃ c, o = some (.constant c)) :
    o = some (e.value a) := by
  obtain ⟨r,rfl,hr⟩ := h
  obtain ⟨c,hc⟩ := hc
  cases some.inj hc
  exact congrArg some (Expr.eq_value hr.width (hr.eval a hd))

lemma BinaryKind.create_constants (k : BinaryKind) (c d : APInt)
    (hz : k.isDivision → d.isZero = false) :
    ∃ v, k.create (.constant c) (.constant d) = some (.constant v) := by
  cases k with
  | udiv | sdiv | urem | srem =>
    have hd : d.isZero = false := hz rfl
    exact ⟨_,if_neg (by simp [hd])⟩
  | add => exact ⟨_,by rw [create,AddExpr.create]; rfl⟩
  | sub => exact ⟨_,by rw [create,SubExpr.create]; rfl⟩
  | and => exact ⟨_,by show some (AndExpr.create _ _) = _; rw [AndExpr.create]⟩
  | or => exact ⟨_,by rw [create,OrExpr.create]⟩
  | eq => exact ⟨_,by rw [create,EqExpr.create]⟩
  | ne => exact ⟨_,by rw [create,NeExpr.create,EqExpr.create,bind_some,alloc,EqExpr.create]⟩
  | _ => exact ⟨_,rfl⟩

lemma ConcatExpr.create_constants (c d : APInt) :
    ∃ v, create (.constant c) (.constant d) = some (.constant v) :=
  ⟨_,by unfold create createF; rfl⟩

variable {i w : Nat}

lemma ExtractExpr.create_constant {c : APInt} {off : Nat} (h : (extract (.constant c) off w).WF) :
    ∃ v, create (.constant c) off w = some (.constant v) := by
  obtain ⟨⟨-,hlt⟩,hpos,hw⟩ := h
  simp only [width] at hw
  have hmod : (off+w)%2^32 ≤ c.width := by
    rw [Nat.mod_eq_of_lt (by omega)]
    exact hw
  unfold create createF
  rw [if_neg (not_not.mpr ⟨hpos,hmod⟩)]
  split
  · exact ⟨_,rfl⟩
  · exact ⟨_,rfl⟩

lemma ZExtExpr.create_constant {c : APInt} (h : (zext (.constant c) w).WF) :
    ∃ v, create (.constant c) w = some (.constant v) := by
  have hw : c.width ≤ w := h.2.1
  unfold create createF
  split
  · exact ⟨_,rfl⟩
  · exact ⟨_,if_neg (by simp only [width]; omega)⟩

lemma SExtExpr.create_constant {c : APInt} (h : (sext (.constant c) w).WF) :
    ∃ v, create (.constant c) w = some (.constant v) := by
  have hw : c.width ≤ w := h.2.1
  unfold create createF
  split
  · exact ⟨_,rfl⟩
  · exact ⟨_,if_neg (by simp only [width]; omega)⟩

def Concolics.assignment (c : Concolics) : Assignment :=
  fun arr i => ((c.bindings.lookup arr).getD []).getD i 0

def Concolics.Binds (c : Concolics) (symbolics : List ArrayObj) : Prop :=
  ∀ arr ∈ symbolics, ∃ bytes, c.bindings.lookup arr = some bytes ∧ bytes.length = arr.size

/-- What has a value once the symbolic arrays have: reads inside a constant array or one
of the list, and divisions by something other than zero. -/
def Scope.over (symbolics : List ArrayObj) : Scope where
  readable arr i := i < arr.size ∧ (arr.isConstantArray = true ∨ arr ∈ symbolics)
  divisor v := v ≠ 0
  constant_lt _ _ h _ := h.1

def Concolics.CacheOk (c : Concolics) (cache : List (Expr × Expr)) : Prop :=
  ∀ e r, cache.lookup e = some r → r = e.value c.assignment

def Concolics.Computes {α : Type} (c : Concolics) (m : EvalM α) (v : α) : Prop :=
  ∀ cache, c.CacheOk cache → ∃ cache', m cache = some (v,cache') ∧ c.CacheOk cache'

def EvalM.Ends {α : Type} (ok : List (Expr × Expr) → Prop) (m : EvalM α) (P : α → Prop) : Prop :=
  ∀ cache, ok cache → ∃ v cache', m cache = some (v,cache') ∧ P v ∧ ok cache'

section Ends
variable {ok : List (Expr × Expr) → Prop} {α β : Type} {P : α → Prop}

lemma EvalM.Ends.pure {v : α} (h : P v) : EvalM.Ends ok (Pure.pure v) P :=
  fun cache hc => ⟨v,cache,rfl,h,hc⟩

lemma EvalM.Ends.lift {o : Option α} (h : ∃ v, o = some v ∧ P v) :
    EvalM.Ends ok (monadLift o) P := by
  obtain ⟨v,rfl,hv⟩ := h
  exact fun cache hc => ⟨v,cache,rfl,hv,hc⟩

lemma EvalM.Ends.lift_eq {o : Option α} {v : α} (h : o = some v) :
    EvalM.Ends ok (monadLift o) (· = v) :=
  .lift ⟨v,h,rfl⟩

lemma EvalM.Ends.bind {m : EvalM α} {f : α → EvalM β} {Q : β → Prop}
    (hm : EvalM.Ends ok m P) (hf : ∀ v, P v → EvalM.Ends ok (f v) Q) :
    EvalM.Ends ok (m >>= f) Q := by
  intro cache hc
  obtain ⟨v,cache₁,h₁,hv,hc₁⟩ := hm cache hc
  obtain ⟨w,cache₂,h₂,hw,hc₂⟩ := hf v hv cache₁ hc₁
  refine ⟨w,cache₂,?_,hw,hc₂⟩
  simp only [Bind.bind,StateT.bind,h₁]
  exact h₂

lemma EvalM.Ends.mono {m : EvalM α} {Q : α → Prop} (h : EvalM.Ends ok m P)
    (hpq : ∀ v, P v → Q v) : EvalM.Ends ok m Q := by
  intro cache hc
  obtain ⟨v,cache',hm,hv,hc'⟩ := h cache hc
  exact ⟨v,cache',hm,hpq v hv,hc'⟩

lemma EvalM.Ends.cached {m : EvalM Expr} {P : Expr → Prop}
    (hhit : ∀ cache r, ok cache → cache.lookup e = some r → P r)
    (hinsert : ∀ cache r, ok cache → P r → r.isConstant → ok ((e,r) :: cache))
    (h : EvalM.Ends ok m P) : EvalM.Ends ok (EvalM.cached e m) P := by
  intro cache hc
  cases hl : cache.lookup e with
  | some r => exact ⟨r,cache,by simp only [EvalM.cached,hl],hhit cache r hc hl,hc⟩
  | none =>
    obtain ⟨r,cache',hm,hr,hc'⟩ := h cache hc
    refine ⟨r,if r.isConstant then (e,r) :: cache' else cache',?_,hr,?_⟩
    · simp only [EvalM.cached,hl,hm]
      rfl
    · split
      next hconst =>
        exact hinsert cache' r hc' hr hconst
      · exact hc'

end Ends

variable {c : Concolics} {d l r : Expr}

lemma Expr.value_congr (hw : e.width = d.width)
    (hv : e.eval a = d.eval a) : e.value a = d.value a := by
  rw [value,value,hw,hv]

lemma Expr.isZero_value (h : e.WF) : (e.value a).isZero ↔ e.eval a = 0 := by
  simp [isZero,value,alloc,APInt.isZero,APInt.ofNat_value,Nat.mod_eq_of_lt (e.eval_lt a h)]

variable {k : BinaryKind}

lemma BinaryKind.create_values (h : (binary k l r).WF) (hne : k.isDivision → r.eval a ≠ 0) :
    k.create (l.value a) (r.value a) = some ((binary k l r).value a) := by
  have hl := eval_value (a := a) a h.1
  have hr := eval_value (a := a) a h.2.1
  have hwf : (binary k (l.value a) (r.value a)).WF := ⟨value_wf h.1,value_wf h.2.1,h.2.2⟩
  have hd : (binary k (l.value a) (r.value a)).Defined .inBounds a true := by
    refine ⟨trivial,?_⟩
    cases k <;> trivial
  have hz : k.isDivision → (r.value a).isZero = false := by
    intro hk
    rw [Bool.eq_false_iff,ne_eq,isZero_value h.2.1]
    exact hne hk
  have hy : Yields (.binary k (l.value a) (r.value a)) (k.create (l.value a) (r.value a)) := by
    refine BinaryKind.create_yields hwf ?_ ?_
    · cases k <;> exact trivial
    · simp only [dividesByZero]
      cases hk : k.isDivision with
      | false => rfl
      | true => rw [hz hk,Bool.and_false]
  rw [hy.eq_value hd (create_constants k _ _ hz)]
  refine congrArg some (value_congr ?_ ?_)
  · simp only [width,value,alloc,APInt.ofNat_width]
  · rw [eval,hl,hr]
    rfl

lemma apply_and_zero (w x : Nat) :
    BinaryKind.and.apply w 0 x = 0 ∧ BinaryKind.and.apply w x 0 = 0 := by
  simp [BinaryKind.apply]

lemma evaluateBinary_values (h : (binary k l r).WF) (hne : k.isDivision → r.eval a ≠ 0) :
    evaluateBinary k r (l.value a) (r.value a) = some ((binary k l r).value a) := by
  have hcreate := BinaryKind.create_values h hne
  unfold evaluateBinary
  split
  next hk =>
    subst hk
    split
    next hz =>
      have hl := (isZero_value h.1).mp hz
      refine congrArg some (value_congr rfl ?_)
      rw [eval,hl,(apply_and_zero _ _).1]
    · split
      next hz =>
        have hr := (isZero_value h.2.1).mp hz
        refine congrArg some (value_congr h.2.2.symm ?_)
        rw [eval,hr,(apply_and_zero _ _).2]
      · exact hcreate
  · split
    next hz =>
      rw [Bool.and_eq_true] at hz
      exact absurd ((isZero_value h.2.1).mp hz.2) (hne hz.1)
    · exact hcreate

def UpdateList.valued (a : Assignment) : UpdateList → UpdateList
  | .root arr => .root arr
  | .extend next i v => .extend (next.valued a) (i.value a) (v.value a)

def Concolics.Resolves (c : Concolics) (arr : ArrayObj) (i : Nat) : Prop :=
  ∀ index : APInt, index.value = i → i < 2^32 →
    c.scanUpdates index (.root arr) = some (alloc (arr.initial c.assignment i) 8)

lemma Concolics.scanUpdates_valued {index : APInt} (hindex : index.value < 2^32) :
    (ul : UpdateList) → ul.WF → c.Resolves ul.getRoot index.value →
    c.scanUpdates index (ul.valued c.assignment) = some (alloc (ul.eval c.assignment index.value) 8)
  | .root _, _, hr => hr index rfl hindex
  | .extend next i v, h, hr => by
    obtain ⟨hnext,hi,hv,hiw,hvw⟩ := h
    have hval : (APInt.ofNat i.width (i.eval c.assignment)).value = i.eval c.assignment :=
      Nat.mod_eq_of_lt (i.eval_lt _ hi)
    have ih := scanUpdates_valued hindex next hnext hr
    simp only [UpdateList.valued,value,alloc,scanUpdates,hval,UpdateList.eval]
    by_cases he : index.value = i.eval c.assignment
    · rw [if_pos he,if_pos he.symm,hvw]
    · rw [if_neg he,if_neg (Ne.symm he)]
      exact ih

lemma Yields.eq_value_of_congr {S : Scope} {o : Option Expr}
    (h : Yields d o) (hd : d.Defined S a true) (hc : ∃ c, o = some (.constant c))
    (hw : d.width = e.width) (hv : d.eval a = e.eval a) : o = some (e.value a) := by
  rw [h.eq_value hd hc,value_congr hw hv]

/-- A property of expressions, and one of update lists, under which every step of the
evaluation yields a constant. -/
structure Concolics.Settles (c : Concolics) (K : Expr → Prop) (L : UpdateList → Prop) : Prop where
  read : ∀ {ul i}, K (.read ul i) → L ul ∧ K i ∧ c.Resolves ul.getRoot (i.eval c.assignment)
  select : ∀ {cond t f}, K (.select cond t f) → K cond ∧
    (cond.eval c.assignment = 1 → K t) ∧ (cond.eval c.assignment ≠ 1 → K f)
  concat : ∀ {l r}, K (.concat l r) → K l ∧ K r
  extract : ∀ {e off w}, K (.extract e off w) → K e
  not : ∀ {e}, K (.not e) → K e
  zext : ∀ {e w}, K (.zext e w) → K e
  sext : ∀ {e w}, K (.sext e w) → K e
  binary : ∀ {k l r}, K (.binary k l r) → K l ∧ K r ∧
    (k.isDivision = true → r.eval c.assignment ≠ 0)
  extend : ∀ {next i v}, L (.extend next i v) → L next ∧ K i ∧ K v

structure Concolics.Holds (c : Concolics) (K : Expr → Prop) (ok : List (Expr × Expr) → Prop) :
    Prop where
  hit : ∀ {cache e r}, ok cache → K e → cache.lookup e = some r → r = e.value c.assignment
  insert : ∀ {cache e}, ok cache → K e → ok ((e,e.value c.assignment) :: cache)

section Settles
variable {K : Expr → Prop} {L : UpdateList → Prop} {ok : List (Expr × Expr) → Prop}

lemma Concolics.Holds.cached (hok : c.Holds K ok) (he : K e) {m : EvalM Expr}
    (h : EvalM.Ends ok m (· = e.value c.assignment)) :
    EvalM.Ends ok (EvalM.cached e m) (· = e.value c.assignment) := by
  refine .cached (fun cache r hc hl => hok.hit hc he hl) (fun cache r hc hr _ => ?_) h
  rw [hr]
  exact hok.insert hc he

variable (hs : c.Settles K L) (hok : c.Holds K ok)
include hs hok

set_option linter.unusedSectionVars false in
mutual
theorem Concolics.visit_settles : (e : Expr) → e.WF → K e →
    EvalM.Ends ok (c.visit e) (· = e.value c.assignment)
  | .constant v, _, _ => by
    rw [← eq_value (a := c.assignment) (e := .constant v) rfl rfl]
    exact .pure rfl
  | .read ul i, h, hk => by
    obtain ⟨hul,hi,hread⟩ := hs.read hk
    have hlt := i.eval_lt c.assignment h.2.1
    rw [h.2.2] at hlt
    have hval : (APInt.ofNat i.width (i.eval c.assignment)).value = i.eval c.assignment :=
      Nat.mod_eq_of_lt (i.eval_lt _ h.2.1)
    refine hok.cached hk (.bind (visit_settles i h.2.1 hi) ?_)
    rintro _ rfl
    refine .bind (rewriteUpdates_settles ul h.1 hul) ?_
    rintro _ rfl
    refine .lift_eq ?_
    rw [scanUpdates_valued (by rw [hval]; exact hlt) ul h.1 (by rw [hval]; exact hread),hval]
    rfl
  | .select cond t f, h, hk => by
    obtain ⟨hc,ht,hf⟩ := hs.select hk
    refine hok.cached hk (.bind (visit_settles cond h.1 hc) ?_)
    rintro _ rfl
    have htrue : (APInt.ofNat cond.width (cond.eval c.assignment)).isTrue =
        decide (cond.eval c.assignment = 1) := by
      rcases cond.eval_bool c.assignment h.1 h.2.2.2.1 with h0 | h0 <;>
        simp [APInt.isTrue,h0,h.2.2.2.1]
    simp only [value,alloc,htrue]
    by_cases h1 : cond.eval c.assignment = 1
    · simp only [h1,decide_true,if_true]
      have := visit_settles t h.2.1 (ht h1)
      simpa only [value,alloc,width,eval,h1,if_true] using this
    simp only [h1,decide_false,Bool.false_eq_true,if_false]
    have := visit_settles f h.2.2.1 (hf h1)
    simpa only [value,alloc,width,eval,h1,if_false,h.2.2.2.2] using this
  | .concat l r, h, hk => by
    obtain ⟨hl,hr⟩ := hs.concat hk
    refine hok.cached hk (.bind (visit_settles l h.1 hl) ?_)
    rintro _ rfl
    refine .bind (visit_settles r h.2.1 hr) ?_
    rintro _ rfl
    have hwf : (concat (l.value c.assignment) (r.value c.assignment)).WF :=
      ⟨value_wf h.1,value_wf h.2.1,h.2.2⟩
    refine .lift_eq ((ConcatExpr.create_yields hwf trivial).yields.eq_value_of_congr
      (S := .inBounds) ⟨trivial,trivial⟩ (ConcatExpr.create_constants _ _) rfl ?_)
    rw [eval,eval_value _ h.1,eval_value _ h.2.1]
    rfl
  | .extract e off w, h, hk => by
    refine hok.cached hk (.bind (visit_settles e h.1 (hs.extract hk)) ?_)
    rintro _ rfl
    have hwf : (extract (e.value c.assignment) off w).WF := ⟨value_wf h.1,h.2⟩
    refine .lift_eq ((ExtractExpr.create_yields hwf fun _ => trivial).yields.eq_value_of_congr
      (S := .inBounds) trivial (ExtractExpr.create_constant hwf) rfl ?_)
    rw [eval,eval_value _ h.1]
    rfl
  | .not e, h, hk => by
    refine hok.cached hk (.bind (visit_settles e h (hs.not hk)) ?_)
    rintro _ rfl
    have he : (e.value c.assignment).WF := value_wf h
    have hv : (not (e.value c.assignment)).eval c.assignment = (not e).eval c.assignment := by
      rw [eval,eval_value (e := e) _ h]
      rfl
    have hy := (Yields.of_refines (NotExpr.create_refines he)).eq_value_of_congr
      (S := .inBounds) (e := .not e) trivial ⟨_,rfl⟩ rfl hv
    exact .pure (some.inj hy)
  | .zext e w, h, hk => by
    refine hok.cached hk (.bind (visit_settles e h.1 (hs.zext hk)) ?_)
    rintro _ rfl
    have hwf : (zext (e.value c.assignment) w).WF := ⟨value_wf h.1,h.2⟩
    refine .lift_eq ((ZExtExpr.create_yields hwf).yields.eq_value_of_congr
      (S := .inBounds) trivial (ZExtExpr.create_constant hwf) rfl ?_)
    rw [eval,eval_value _ h.1]
    rfl
  | .sext e w, h, hk => by
    refine hok.cached hk (.bind (visit_settles e h.1 (hs.sext hk)) ?_)
    rintro _ rfl
    have hwf : (sext (e.value c.assignment) w).WF := ⟨value_wf h.1,h.2⟩
    refine .lift_eq ((SExtExpr.create_yields hwf).yields.eq_value_of_congr
      (S := .inBounds) trivial (SExtExpr.create_constant hwf) rfl ?_)
    rw [eval,eval_value _ h.1]
    rfl
  | .binary k l r, h, hk => by
    obtain ⟨hl,hr,hne⟩ := hs.binary hk
    refine hok.cached hk (.bind (visit_settles l h.1 hl) ?_)
    rintro _ rfl
    refine .bind (visit_settles r h.2.1 hr) ?_
    rintro _ rfl
    exact .lift_eq (evaluateBinary_values h hne)

theorem Concolics.rewriteUpdates_settles : (ul : UpdateList) → ul.WF → L ul →
    EvalM.Ends ok (c.rewriteUpdatesUncached ul) (· = ul.valued c.assignment)
  | .root _, _, _ => .pure rfl
  | .extend next i v, h, hl => by
    obtain ⟨hnext,hi,hv⟩ := hs.extend hl
    refine .bind (rewriteUpdates_settles next h.1 hnext) ?_
    rintro _ rfl
    refine .bind (visit_settles i h.2.1 hi) ?_
    rintro _ rfl
    refine .bind (visit_settles v h.2.2.1 hv) ?_
    rintro _ rfl
    exact .pure rfl
end
end Settles

variable {symbolics : List ArrayObj} {arr : ArrayObj}

lemma Concolics.resolves_constant (hc : arr.isConstantArray)
    (hi : i < arr.size) : c.Resolves arr i := by
  rintro index rfl -
  simp only [scanUpdates,ArrayObj.initial]
  rw [if_pos ⟨hc,hi⟩]
  cases hv : arr.constantValues with
  | nil => simp [ArrayObj.isConstantArray,ArrayObj.isSymbolicArray,hv] at hc
  | cons v vs => rfl

lemma Concolics.resolves_bound (hb : c.Binds symbolics)
    (hi : i < arr.size) (harr : arr ∈ symbolics) (hsym : ¬arr.isConstantArray) :
    c.Resolves arr i := by
  rintro index rfl hlt
  obtain ⟨bytes,hl,hlen⟩ := hb arr harr
  have hget : bytes[index.value]? = some (bytes.getD index.value 0) := by
    rw [List.getD_eq_getElem?_getD,List.getElem?_eq_getElem (by omega),getD_some]
  have hnil : arr.constantValues = [] := by
    simpa [ArrayObj.isConstantArray,ArrayObj.isSymbolicArray] using hsym
  simp only [scanUpdates,ArrayObj.initial,hnil,evaluateAt,Nat.mod_eq_of_lt hlt,hl,hget,
    assignment,getD_some]
  rw [if_neg (fun h => hsym h.1),if_pos hi]

lemma Concolics.settles_over (hb : c.Binds symbolics) :
    c.Settles (fun e => e.Defined (.over symbolics) c.assignment true)
      (fun ul => ul.Defined (.over symbolics) c.assignment) where
  read {ul i} h := by
    refine ⟨h.1,h.2.1,?_⟩
    obtain ⟨hi,hbound⟩ := h.2.2 rfl
    by_cases hc : ul.getRoot.isConstantArray
    · exact resolves_constant hc hi
    · exact resolves_bound hb hi (hbound.resolve_left hc) hc
  select h := by
    obtain ⟨hc,ht,hf⟩ := h
    exact ⟨hc,fun h1 => by simpa [h1] using ht,fun h1 => by simpa [h1] using hf⟩
  concat h := h
  extract h := h
  not h := h
  zext h := h
  sext h := h
  binary {k l r} h := by
    refine ⟨h.1,BinaryKind.guard_left h.2,fun hk => ?_⟩
    have hg := h.2
    cases k with
    | udiv | sdiv | urem | srem => exact hg.2
    | _ => cases hk
  extend h := h

lemma Concolics.holds_cacheOk :
    c.Holds (fun e => e.Defined (.over symbolics) c.assignment true) c.CacheOk where
  hit hc _ hl := hc _ _ hl
  insert hc _ := by
    intro x r hx
    rw [List.lookup_cons] at hx
    split at hx
    next hxe =>
      rw [← some.inj hx,eq_of_beq hxe]
    · exact hc x r hx

lemma Concolics.visit_computes (hb : c.Binds symbolics) (e : Expr) (h : e.WF)
    (hd : e.Defined (.over symbolics) c.assignment true) :
    c.Computes (c.visit e) (e.value c.assignment) := by
  intro cache hc
  obtain ⟨v,cache',hm,rfl,hc'⟩ := visit_settles (settles_over hb) holds_cacheOk e h hd cache hc
  exact ⟨cache',hm,hc'⟩

lemma Concolics.evaluate_eq (hb : c.Binds symbolics) (hok : c.CacheOk c.expressionCache) (h : e.WF)
    (hd : e.Defined (.over symbolics) c.assignment true) :
    ∃ cache, c.evaluate e = some (e.value c.assignment, {c with expressionCache := cache}) ∧
      c.CacheOk cache := by
  obtain ⟨cache,hv,hok'⟩ := visit_computes hb e h hd c.expressionCache hok
  exact ⟨cache,by rw [evaluate,hv]; rfl,hok'⟩

end S2E
