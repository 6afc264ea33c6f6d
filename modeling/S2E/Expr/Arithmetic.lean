import S2E.Expr.Equality

/-!
The folding constructors of the arithmetic, shift and comparison kinds. At the
Boolean width each of them is a connective.
-/

namespace S2E
open BinaryKind Refines ConstantExpr BitVec

def XorExpr_createPartialR (cl : APInt) (r : Expr) : Option Expr :=
  if cl.isZero then some r
  else if cl.width = 1 then EqExpr_createPartialR (APInt.ofNat 1 0) r
  else some (.binary .xor (.constant cl) r)

/-- The source compares the operands by address; equal operands are taken to be one
object here. -/
def XorExpr_create (l r : Expr) : Expr :=
  if l = r then alloc 0 l.width
  else if l.isNegationOf r then alloc 1 1
  else .binary .xor l r

/-- The shape of the `create` functions that fold two constants and hand one constant
operand to a partial version (the macro `BCREATE_R`). -/
def createR (k : BinaryKind) (partialR : APInt → Expr → Option Expr)
    (partialL : Expr → APInt → Option Expr) (full : Expr → Expr → Option Expr)
    (l r : Expr) : Option Expr :=
  match l, r with
  | .constant cl, .constant cr => some (.constant (cl.binary k cr))
  | .constant cl, r => partialR cl r
  | l, .constant cr => partialL l cr
  | l, r => full l r

def XorExpr.create : Expr → Expr → Option Expr :=
  createR .xor XorExpr_createPartialR (fun l cr => XorExpr_createPartialR cr l)
    fun l r => some (XorExpr_create l r)

mutual
def AddExpr_createPartialR (cl : APInt) (r : Expr) : Option Expr :=
  if cl.width = 1 then XorExpr_createPartialR cl r
  else if cl.isZero then some r
  else
    match r with
    | .binary .add (.constant b) (.constant c) =>
      some (.constant ((cl.binary .add b).binary .add c))
    | .binary .add (.constant b) c => AddExpr_createPartialR (cl.binary .add b) c
    | .binary .sub (.constant b) (.constant c) =>
      some (.constant ((cl.binary .add b).binary .sub c))
    | .binary .sub (.constant b) c => SubExpr_createPartialR (cl.binary .add b) c
    | _ => some (.binary .add (.constant cl) r)

def SubExpr_createPartialR (cl : APInt) (r : Expr) : Option Expr :=
  if cl.width = 1 then XorExpr_createPartialR cl r
  else
    match r with
    | .binary .add (.constant b) (.constant c) =>
      some (.constant ((cl.binary .sub b).binary .sub c))
    | .binary .add (.constant b) c => SubExpr_createPartialR (cl.binary .sub b) c
    | .binary .sub (.constant b) (.constant c) =>
      some (.constant ((cl.binary .sub b).binary .add c))
    | .binary .sub (.constant b) c => AddExpr_createPartialR (cl.binary .sub b) c
    | _ => some (.binary .sub (.constant cl) r)
end

def AddExpr.createConst (k : APInt) : Expr → Option Expr
  | .constant c => some (.constant (k.binary .add c))
  | x => AddExpr_createPartialR k x

def SubExpr.createConst (k : APInt) : Expr → Option Expr
  | .constant c => some (.constant (k.binary .sub c))
  | x => SubExpr_createPartialR k x

def SubExpr_createPartial (l : Expr) (cr : APInt) : Option Expr :=
  AddExpr_createPartialR ((APInt.ofNat cr.width 0).binary .sub cr) l

def SubExpr.createMinus (x : Expr) (k : APInt) : Option Expr :=
  match x with
  | .constant c => some (.constant (c.binary .sub k))
  | x => SubExpr_createPartial x k

mutual
def AddExpr.create (l r : Expr) : Option Expr :=
  match l, r with
  | .constant cl, r => AddExpr.createConst cl r
  | l, .constant cr => AddExpr_createPartialR cr l
  | l, r => AddExpr_create l r
termination_by 2*(l.size+r.size)+1
decreasing_by omega

def AddExpr_create (l r : Expr) : Option Expr :=
  if l.width = 1 then some (XorExpr_create l r)
  else
    match l, r with
    | .binary .add (.constant k) a, r => (AddExpr.create a r).bind (AddExpr.createConst k)
    | .binary .sub (.constant k) a, r => (SubExpr.create r a).bind (AddExpr.createConst k)
    | l, .binary .add (.constant k) b => (AddExpr.create l b).bind (AddExpr.createConst k)
    | l, .binary .sub (.constant k) b => (SubExpr.create l b).bind (AddExpr.createConst k)
    | l, r => some (.binary .add l r)
termination_by 2*(l.size+r.size)
decreasing_by all_goals simp only [Expr.size]; omega

def SubExpr.create (l r : Expr) : Option Expr :=
  match l, r with
  | .constant cl, r => SubExpr.createConst cl r
  | l, .constant cr => SubExpr_createPartial l cr
  | l, r => SubExpr_create l r
termination_by 2*(l.size+r.size)+1
decreasing_by omega

def SubExpr_create (l r : Expr) : Option Expr :=
  if l.width = 1 then some (XorExpr_create l r)
  else if l = r then some (alloc 0 l.width)
  else
    match l, r with
    | .binary .add (.constant k) a, r => (SubExpr.create a r).bind (AddExpr.createConst k)
    | .binary .sub (.constant k) a, r => (AddExpr.create a r).bind (SubExpr.createConst k)
    | l, .binary .add (.constant k) b =>
      (SubExpr.create l b).bind fun x => SubExpr.createMinus x k
    | l, .binary .sub (.constant k) b =>
      (AddExpr.create l b).bind fun x => SubExpr.createMinus x k
    | l, r => some (.binary .sub l r)
termination_by 2*(l.size+r.size)
decreasing_by all_goals simp only [Expr.size]; omega
end

def MulExpr_createPartialR (cl : APInt) (r : Expr) : Expr :=
  if cl.width = 1 then AndExpr_createPartial r cl
  else if cl.isOne then r
  else if cl.isZero then .constant cl
  else .binary .mul (.constant cl) r

def MulExpr.create : Expr → Expr → Option Expr :=
  createR .mul (fun cl r => some (MulExpr_createPartialR cl r))
    (fun l cr => some (MulExpr_createPartialR cr l))
    fun l r => some (if l.width = 1 then .binary .and l r else .binary .mul l r)

/-- The shape of the `create` functions that only fold two constants (the macros
`BCREATE` and `CMPCREATE`). -/
def createFold (k : BinaryKind) (full : Expr → Expr → Option Expr) (l r : Expr) : Option Expr :=
  match l, r with
  | .constant cl, .constant cr => some (.constant (cl.binary k cr))
  | l, r => full l r

/-- The four division kinds. A constant zero divisor stops the program in
`llvm::APInt`. At the Boolean width the divisor can only be one. -/
def createDivision (k : BinaryKind) (bool : Expr → Expr) (l r : Expr) : Option Expr :=
  match l, r with
  | .constant cl, .constant cr =>
    if cr.isZero then none else some (.constant (cl.binary k cr))
  | l, r => if l.width = 1 then some (bool l) else some (.binary k l r)

def UDivExpr.create : Expr → Expr → Option Expr := createDivision .udiv id
def SDivExpr.create : Expr → Expr → Option Expr := createDivision .sdiv id
def URemExpr.create : Expr → Expr → Option Expr :=
  createDivision .urem fun _ => alloc 0 1
def SRemExpr.create : Expr → Expr → Option Expr :=
  createDivision .srem fun _ => alloc 0 1

def andIsZero (l r : Expr) : Option Expr := r.createIsZero.bind fun n => some (AndExpr.create l n)

def ShlExpr.create : Expr → Expr → Option Expr :=
  createFold .shl fun l r =>
    if l.width = 1 then andIsZero l r
    else if r.isZero then some l
    else some (.binary .shl l r)

def LShrExpr.create : Expr → Expr → Option Expr :=
  createFold .lshr fun l r => if l.width = 1 then andIsZero l r else some (.binary .lshr l r)

def AShrExpr.create : Expr → Expr → Option Expr :=
  createFold .ashr fun l r => if l.width = 1 then some l else some (.binary .ashr l r)

def NeExpr.create (l r : Expr) : Option Expr :=
  (EqExpr.create l r).bind (EqExpr.create (alloc 0 1))

def UltExpr.create : Expr → Expr → Option Expr :=
  createFold .ult fun l r =>
    if l.width = 1 then l.createIsZero.bind fun n => some (AndExpr.create n r)
    else some (.binary .ult l r)

def UleExpr.create : Expr → Expr → Option Expr :=
  createFold .ule fun l r =>
    if l.width = 1 then l.createIsZero.bind fun n => OrExpr.create n r
    else some (.binary .ule l r)

def SltExpr.create : Expr → Expr → Option Expr :=
  createFold .slt fun l r => if l.width = 1 then andIsZero l r else some (.binary .slt l r)

def SleExpr.create : Expr → Expr → Option Expr :=
  createFold .sle fun l r =>
    if l.width = 1 then r.createIsZero.bind fun n => OrExpr.create l n
    else some (.binary .sle l r)

def UgtExpr.create (l r : Expr) : Option Expr := UltExpr.create r l
def UgeExpr.create (l r : Expr) : Option Expr := UleExpr.create r l
def SgtExpr.create (l r : Expr) : Option Expr := SltExpr.create r l
def SgeExpr.create (l r : Expr) : Option Expr := SleExpr.create r l

lemma apply_xor_comm (w x y : Nat) : BinaryKind.xor.apply w x y = BinaryKind.xor.apply w y x := by
  simp only [apply,BitVec.xor_comm]

variable {cl : APInt}

lemma Refines.xor_bool {r : Expr}
    (h : (Expr.binary .xor (.constant cl) r).WF) (hw : cl.width = 1) (hc : cl.value ≠ 0) :
    Refines (.binary .xor (.constant cl) r) (.binary .eq (.constant (APInt.ofNat 1 0)) r) where
  wf := ⟨⟨by decide,by decide⟩,h.2.1,hw.symm.trans h.2.2⟩
  width := by simp [Expr.width,isCompare,hw]
  weight := by grind
  defined _ _ hb := ⟨trivial,hb.2⟩
  eval s _ := by
    have hrw : r.width = 1 := h.2.2.symm.trans hw
    have hc1 : cl.value = 1 := by
      have := cl.value_lt
      rw [hw] at this
      omega
    simp only [Expr.eval,Expr.width,hw,APInt.ofNat_width,APInt.ofNat_value,hc1]
    rcases r.eval_bool s h.2.1 hrw with h0 | h0 <;> rw [h0] <;> decide

lemma XorExpr_createPartialR_yields {r : Expr} (h : (Expr.binary .xor (.constant cl) r).WF) :
    Yields (.binary .xor (.constant cl) r) (XorExpr_createPartialR cl r) := by
  unfold XorExpr_createPartialR
  split
  next h0 =>
    have h0 := cl.isZero_iff.mp h0
    have hs := swap h apply_xor_comm
    refine .of_refines (hs.trans (.binary_unit hs.wf rfl fun x hx => ?_))
    rw [apply_xor _ _ _ hx cl.value_lt,h0,Nat.xor_zero]
  next h0 =>
    split
    next hw =>
      have hr := xor_bool h hw fun hz => h0 (cl.isZero_iff.mpr hz)
      exact .trans hr (EqExpr_createPartialR_yields' hr.wf)
    · exact .alloc h

variable {l r : Expr}

lemma XorExpr_create_refines (h : (Expr.binary .xor l r).WF) :
    Refines (.binary .xor l r) (XorExpr_create l r) := by
  unfold XorExpr_create
  split
  next hlr =>
    subst hlr
    refine .constant _ h (by simp [Expr.width,isCompare]) fun s _ => ?_
    simp [Expr.eval,apply]
  split
  next hn => exact .negated h hn (by decide) (by decide)
  · exact .refl h

variable {k : BinaryKind} {full : Expr → Expr → Option Expr}

abbrev Creates (k : BinaryKind) (create : Expr → Expr → Option Expr) : Prop :=
  ∀ {l r : Expr}, (Expr.binary k l r).WF → Yields (.binary k l r) (create l r)

lemma createR_yields {partialR : APInt → Expr → Option Expr}
    {partialL : Expr → APInt → Option Expr}
    (hR : ∀ (c : APInt) (x : Expr), (Expr.binary k (.constant c) x).WF →
      Yields (.binary k (.constant c) x) (partialR c x))
    (hL : ∀ (x : Expr) (c : APInt), (Expr.binary k x (.constant c)).WF →
      Yields (.binary k x (.constant c)) (partialL x c)) (hF : Creates k full) :
    Creates k (createR k partialR partialL full) := by
  intro l r h
  unfold createR
  split
  · exact .of_refines (.fold h)
  · exact hR _ _ h
  · exact hL _ _ h
  · exact hF h

lemma XorExpr.create_yields : Creates .xor create :=
  createR_yields (fun _ _ => XorExpr_createPartialR_yields)
    (fun _ _ h =>
      .trans (.swap h apply_xor_comm)
        (XorExpr_createPartialR_yields (swap h apply_xor_comm).wf))
    fun h => .of_refines (XorExpr_create_refines h)

lemma Expr.bool_lt {x y : Expr} (h : (Expr.binary k x y).WF)
    (hw : x.width = 1) (s : Assignment) : x.eval s < 2^1 ∧ y.eval s < 2^1 := by
  have hx := x.eval_lt s h.1
  have hy := y.eval_lt s h.2.1
  rw [← h.2.2,hw] at hy
  exact ⟨hw ▸ hx,hy⟩

variable {j : BinaryKind}

lemma Refines.bool_binary {x y : Expr} (h : (Expr.binary k x y).WF)
    (hw : x.width = 1) (hj : j.isDivision = false) (hwt : ∀ l r, j.weight 1 l r ≤ k.weight 1 l r)
    (hk : ∀ u v : Fin (2^1), k.apply 1 u v = j.apply 1 u v) :
    Refines (.binary k x y) (.binary j x y) where
  wf := h
  width := by simp [Expr.width,hw]
  weight := by simp only [Expr.weight,hw]; exact hwt _ _
  defined _ _ hb := (Expr.defined_binary hj).mpr ⟨hb.1,guard_left hb.2⟩
  eval s _ := by
    obtain ⟨hx,hy⟩ := Expr.bool_lt h hw s
    simp only [Expr.eval,hw]
    exact (hk ⟨_,hx⟩ ⟨_,hy⟩).symm

section Linear

/-! Addition and subtraction are linear in both operands, and so are re-associated
freely. -/

class BinaryKind.Linear (k : BinaryKind) : Prop where
  compare : k.isCompare = false
  division : k.isDivision = false
  weight : ∀ w l r : Nat, k.weight w l r = l+r+1

instance : add.Linear := ⟨rfl,rfl,fun _ _ _ => rfl⟩

instance : sub.Linear := ⟨rfl,rfl,fun _ _ _ => rfl⟩

variable {k₁ k₂ k₃ k₄ : BinaryKind} [h₁ : k₁.Linear] [h₂ : k₂.Linear] [h₃ : k₃.Linear]
  [h₄ : k₄.Linear] {x y z : Expr}

lemma Expr.width_linear : (Expr.binary k₁ x y).width = x.width := by
  simp [Expr.width,h₁.compare]

lemma Expr.weight_linear : (Expr.binary k₁ x y).weight = x.weight+y.weight+1 := by
  simp only [Expr.weight,h₁.weight]

lemma Expr.defined_linear {S : Scope} {s : Assignment} {live : Bool} :
    (Expr.binary k₁ x y).Defined S s live ↔ x.Defined S s true ∧ y.Defined S s true :=
  defined_binary h₁.division

open S2E.Expr

lemma Refines.linear_assoc (h : (Expr.binary k₁ x (.binary k₂ y z)).WF)
    (hk : ∀ w u v t, k₁.apply w u (k₂.apply w v t) = k₄.apply w (k₃.apply w u v) t) :
    Refines (.binary k₁ x (.binary k₂ y z)) (.binary k₄ (.binary k₃ x y) z) := by
  obtain ⟨hx,⟨hy,hz,hyz⟩,hxy⟩ := h
  rw [width_linear] at hxy
  refine ⟨⟨⟨hx,hy,hxy⟩,hz,by rw [width_linear,hxy,hyz]⟩,?_,?_,fun _ _ hb => ?_,fun s _ => ?_⟩
  · simp only [width_linear]
  · simp only [weight_linear]; omega
  · simp only [defined_linear] at hb ⊢
    exact ⟨⟨hb.1,hb.2.1⟩,hb.2.2⟩
  · simp only [Expr.eval,width_linear,← hxy,hk]

lemma Refines.linear_left (h : (Expr.binary k₁ (.binary k₂ x y) z).WF)
    (hk : ∀ w u v t, k₁.apply w (k₂.apply w u v) t = k₃.apply w u (k₄.apply w v t)) :
    Refines (.binary k₁ (.binary k₂ x y) z) (.binary k₃ x (.binary k₄ y z)) := by
  obtain ⟨⟨hx,hy,hxy⟩,hz,hxz⟩ := h
  rw [width_linear] at hxz
  refine ⟨⟨hx,⟨hy,hz,hxy.symm.trans hxz⟩,by rw [width_linear,hxy]⟩,?_,?_,fun _ _ hb => ?_,
    fun s _ => ?_⟩
  · simp only [width_linear]
  · simp only [weight_linear]; omega
  · simp only [defined_linear] at hb ⊢
    exact ⟨hb.1.1,hb.1.2,hb.2⟩
  · simp only [Expr.eval,width_linear,← hxy,hk]

lemma Refines.linear_right (h : (Expr.binary k₁ x (.binary k₂ y z)).WF)
    (hk : ∀ w u v t, k₁.apply w u (k₂.apply w v t) = k₃.apply w v (k₄.apply w u t)) :
    Refines (.binary k₁ x (.binary k₂ y z)) (.binary k₃ y (.binary k₄ x z)) := by
  obtain ⟨hx,⟨hy,hz,hyz⟩,hxy⟩ := h
  rw [width_linear] at hxy
  refine ⟨⟨hy,⟨hx,hz,hxy.trans hyz⟩,by rw [width_linear,hxy]⟩,?_,?_,fun _ _ hb => ?_,
    fun s _ => ?_⟩
  · simp only [width_linear,hxy]
  · simp only [weight_linear]; omega
  · simp only [defined_linear] at hb ⊢
    exact ⟨hb.2.1,hb.1,hb.2.2⟩
  · simp only [Expr.eval,hxy,hk]

lemma Refines.linear_out (h : (Expr.binary k₁ x (.binary k₂ y z)).WF)
    (hk : ∀ w u v t, k₁.apply w u (k₂.apply w v t) = k₃.apply w (k₄.apply w u t) v) :
    Refines (.binary k₁ x (.binary k₂ y z)) (.binary k₃ (.binary k₄ x z) y) := by
  obtain ⟨hx,⟨hy,hz,hyz⟩,hxy⟩ := h
  rw [width_linear] at hxy
  refine ⟨⟨⟨hx,hz,hxy.trans hyz⟩,hy,by rw [width_linear,hxy]⟩,?_,?_,fun _ _ hb => ?_,
    fun s _ => ?_⟩
  · simp only [width_linear]
  · simp only [weight_linear]; omega
  · simp only [defined_linear] at hb ⊢
    exact ⟨⟨hb.1,hb.2.2⟩,hb.2.1⟩
  · simp only [Expr.eval,width_linear,← hxy,hk]

lemma Refines.linear_fold {b : APInt} {c : Expr}
    (h : (Expr.binary k₁ (.constant cl) (.binary k₂ (.constant b) c)).WF)
    (hk : ∀ w u v t, k₁.apply w u (k₂.apply w v t) = k₄.apply w (k₃.apply w u v) t) :
    Refines (.binary k₁ (.constant cl) (.binary k₂ (.constant b) c))
      (.binary k₄ (.constant (cl.binary k₃ b)) c) := by
  have hr := linear_assoc h hk
  exact hr.trans (.binary k₄ (.fold hr.wf.1) (.refl hr.wf.2.1) hr.wf.2.2)

end Linear

lemma apply_add_comm (w x y : Nat) : add.apply w x y = add.apply w y x := by
  simp only [apply,add_comm]

variable (w u v t : Nat)

lemma apply_add_add : add.apply w u (add.apply w v t) = add.apply w (add.apply w u v) t := by
  simp only [apply,ofNat_toNat,setWidth_eq,add_assoc]

lemma apply_add_sub : add.apply w u (sub.apply w v t) = sub.apply w (add.apply w u v) t := by
  simp only [apply,ofNat_toNat,setWidth_eq,add_sub_assoc]

lemma apply_sub_add : sub.apply w u (add.apply w v t) = sub.apply w (sub.apply w u v) t := by
  simp only [apply,ofNat_toNat,setWidth_eq,sub_add_eq_sub_sub]

lemma apply_sub_sub : sub.apply w u (sub.apply w v t) = add.apply w (sub.apply w u v) t := by
  simp only [apply,ofNat_toNat,setWidth_eq]
  rw [sub_sub_eq_add_sub,sub_add_eq_add_sub]

lemma apply_sub_add_swap : sub.apply w u (add.apply w v t) = sub.apply w (sub.apply w u t) v := by
  rw [apply_add_comm,apply_sub_add]

lemma apply_sub_sub_swap : sub.apply w u (sub.apply w v t) = sub.apply w (add.apply w u t) v := by
  simp only [apply,ofNat_toNat,setWidth_eq,sub_sub_eq_add_sub]

lemma linear_partialR_yields (r : Expr) : (∀ cl : APInt, (Expr.binary .add (.constant cl) r).WF →
      Yields (.binary .add (.constant cl) r) (AddExpr_createPartialR cl r)) ∧
    (∀ cl : APInt, (Expr.binary .sub (.constant cl) r).WF →
      Yields (.binary .sub (.constant cl) r) (SubExpr_createPartialR cl r)) := by
  induction hn : r.size using Nat.strongRecOn generalizing r with
  | ind n ih =>
    subst hn
    constructor
    · intro cl h
      unfold AddExpr_createPartialR
      split
      next hw =>
        have hr := bool_binary (j := .xor) h hw rfl (fun _ _ => le_rfl) (by decide)
        exact .trans hr (XorExpr_createPartialR_yields hr.wf)
      split
      next h0 =>
        have h0 := cl.isZero_iff.mp h0
        have hs := swap h apply_add_comm
        refine .of_refines (hs.trans (.binary_unit hs.wf rfl fun x hx => ?_))
        simp [apply,h0,Nat.mod_eq_of_lt hx]
      · split
        · have hr := linear_fold h apply_add_add
          exact .of_refines (hr.trans (.fold hr.wf))
        next b c _ =>
          have hr := linear_fold h apply_add_add
          exact .trans hr ((ih _ (by grind) c rfl).1 _ hr.wf)
        · have hr := linear_fold h apply_add_sub
          exact .of_refines (hr.trans (.fold hr.wf))
        next b c _ =>
          have hr := linear_fold h apply_add_sub
          exact .trans hr ((ih _ (by grind) c rfl).2 _ hr.wf)
        · exact .alloc h
    · intro cl h
      unfold SubExpr_createPartialR
      split
      next hw =>
        have hr := bool_binary (j := .xor) h hw rfl (fun _ _ => le_rfl) (by decide)
        exact .trans hr (XorExpr_createPartialR_yields hr.wf)
      split
      · have hr := linear_fold h apply_sub_add
        exact .of_refines (hr.trans (.fold hr.wf))
      next b c _ =>
        have hr := linear_fold h apply_sub_add
        exact .trans hr ((ih _ (by grind) c rfl).2 _ hr.wf)
      · have hr := linear_fold h apply_sub_sub
        exact .of_refines (hr.trans (.fold hr.wf))
      next b c _ =>
        have hr := linear_fold h apply_sub_sub
        exact .trans hr ((ih _ (by grind) c rfl).1 _ hr.wf)
      · exact .alloc h

lemma AddExpr_createPartialR_yields {r : Expr} (h : (Expr.binary .add (.constant cl) r).WF) :
    Yields (.binary .add (.constant cl) r) (AddExpr_createPartialR cl r) :=
  (linear_partialR_yields r).1 cl h

lemma AddExpr.createConst_yields {r : Expr} (h : (Expr.binary .add (.constant cl) r).WF) :
    Yields (.binary .add (.constant cl) r) (createConst cl r) := by
  unfold createConst
  split
  · exact .of_refines (.fold h)
  · exact AddExpr_createPartialR_yields h

lemma SubExpr.createConst_yields {r : Expr} (h : (Expr.binary .sub (.constant cl) r).WF) :
    Yields (.binary .sub (.constant cl) r) (createConst cl r) := by
  unfold createConst
  split
  · exact .of_refines (.fold h)
  · exact (linear_partialR_yields r).2 cl h

lemma SubExpr_createPartial_yields {l : Expr} {cr : APInt}
    (h : (Expr.binary .sub l (.constant cr)).WF) :
    Yields (.binary .sub l (.constant cr)) (SubExpr_createPartial l cr) := by
  have hw : l.width = cr.width := h.2.2
  have hr : Refines (.binary .sub l (.constant cr))
      (.binary .add (.constant ((APInt.ofNat cr.width 0).binary .sub cr)) l) := by
    refine ⟨⟨h.2.1,h.1,hw.symm⟩,by simp [Expr.width,isCompare,hw,APInt.binary],
      by grind,fun _ _ hb => ⟨trivial,hb.1⟩,
      fun s _ => ?_⟩
    have hneg : ∀ w x y, add.apply w (sub.apply w (0%2^w) x) y = sub.apply w y x := by
      intro w x y
      simp [apply]
    simp only [Expr.eval,Expr.width,APInt.binary_value,hw]
    exact hneg _ _ _
  exact .trans hr (AddExpr_createPartialR_yields hr.wf)

lemma SubExpr.createMinus_yields {l : Expr} {cr : APInt}
    (h : (Expr.binary .sub l (.constant cr)).WF) :
    Yields (.binary .sub l (.constant cr)) (createMinus l cr) := by
  unfold createMinus
  split
  · exact .of_refines (.fold h)
  · exact SubExpr_createPartial_yields h

def LinearYields (n : Nat) : Prop :=
  ∀ x y : Expr, x.size+y.size < n →
    ((Expr.binary .add x y).WF → Yields (.binary .add x y) (AddExpr.create x y)) ∧
    ((Expr.binary .sub x y).WF → Yields (.binary .sub x y) (SubExpr.create x y))

lemma AddExpr_create_yields (ih : LinearYields (l.size+r.size))
    (h : (Expr.binary .add l r).WF) : Yields (.binary .add l r) (AddExpr_create l r) := by
  -- a constant is pulled out to the left, and the sum of the rest made first
  unfold AddExpr_create
  split
  next hw =>
    have hr := bool_binary (j := .xor) h hw rfl (fun _ _ => le_rfl) (by decide)
    exact .of_refines (hr.trans (XorExpr_create_refines hr.wf))
  split
  next k a _ =>
    have hr := linear_left h fun w u v t => (apply_add_add w u v t).symm
    exact .bind_right hr ((ih a r (by grind)).1 hr.wf.2.1)
      fun _ _ => AddExpr.createConst_yields
  next k a _ =>
    have hs := swap h apply_add_comm
    have hr := linear_right hs.wf
      fun w u v t => by rw [apply_add_sub,apply_add_comm w u v,← apply_add_sub]
    exact .bind_right (hs.trans hr) ((ih r a (by grind)).2 hr.wf.2.1)
      fun _ _ => AddExpr.createConst_yields
  next k b _ _ =>
    have hr := linear_right h
      fun w u v t => by rw [apply_add_add,apply_add_comm w u v,← apply_add_add]
    exact .bind_right hr ((ih l b (by grind)).1 hr.wf.2.1)
      fun _ _ => AddExpr.createConst_yields
  next k b _ _ =>
    have hr := linear_right h
      fun w u v t => by rw [apply_add_sub,apply_add_comm w u v,← apply_add_sub]
    exact .bind_right hr ((ih l b (by grind)).2 hr.wf.2.1)
      fun _ _ => AddExpr.createConst_yields
  · exact .alloc h

lemma SubExpr_create_yields (ih : LinearYields (l.size+r.size))
    (h : (Expr.binary .sub l r).WF) : Yields (.binary .sub l r) (SubExpr_create l r) := by
  unfold SubExpr_create
  split
  next hw =>
    have hr := bool_binary (j := .xor) h hw rfl (fun _ _ => le_rfl) (by decide)
    exact .of_refines (hr.trans (XorExpr_create_refines hr.wf))
  split
  next hlr =>
    subst hlr
    refine .of_refines (.constant _ h (by simp [Expr.width,isCompare]) fun s _ => ?_)
    simp [Expr.eval,apply]
  · split
    next k a _ _ =>
      have hr := linear_left h fun w u v t => (apply_add_sub w u v t).symm
      exact .bind_right hr ((ih a r (by grind)).2 hr.wf.2.1)
        fun _ _ => AddExpr.createConst_yields
    next k a _ _ =>
      have hr := linear_left h fun w u v t => (apply_sub_add w u v t).symm
      exact .bind_right hr ((ih a r (by grind)).1 hr.wf.2.1)
        fun _ _ => SubExpr.createConst_yields
    next k b _ _ _ =>
      have hr := linear_out h apply_sub_add_swap
      exact .bind_left hr ((ih l b (by grind)).2 hr.wf.1)
        fun _ _ => SubExpr.createMinus_yields
    next k b _ _ _ =>
      have hr := linear_out h apply_sub_sub_swap
      exact .bind_left hr ((ih l b (by grind)).1 hr.wf.1)
        fun _ _ => SubExpr.createMinus_yields
    · exact .alloc h

lemma linearYields (n : Nat) : LinearYields n := by
  induction n with
  | zero => exact fun _ _ h => absurd h (by omega)
  | succ n ih =>
    intro l r hn
    have ih : LinearYields (l.size+r.size) := fun x y hxy => ih x y (by omega)
    constructor
    · intro h
      unfold AddExpr.create
      split
      · exact AddExpr.createConst_yields h
      · have hs := swap h apply_add_comm
        exact .trans hs (AddExpr_createPartialR_yields hs.wf)
      · exact AddExpr_create_yields ih h
    · intro h
      unfold SubExpr.create
      split
      · exact SubExpr.createConst_yields h
      · exact SubExpr_createPartial_yields h
      · exact SubExpr_create_yields ih h

lemma AddExpr.create_yields : Creates .add create := (linearYields _ _ _ (Nat.lt_succ_self _)).1

lemma SubExpr.create_yields : Creates .sub create := (linearYields _ _ _ (Nat.lt_succ_self _)).2

lemma Expr.eval_isZero_bool {e : Expr} (hw : e.width = 1) (s : Assignment) :
    (Expr.binary .eq e (alloc 0 e.width)).eval s = eq.apply 1 (e.eval s) 0 := by
  simp [eval,hw,alloc]

lemma Refines.bool_negate_right {x y : Expr} (h : (Expr.binary k x y).WF) (hw : x.width = 1)
    (hj : j.isDivision = false) (hwt : ∀ l r, j.weight 1 l (r+1+1) ≤ k.weight 1 l r)
    (hk : ∀ u v : Fin (2^1), k.apply 1 u v = j.apply 1 u (eq.apply 1 v 0)) : Refines (.binary k x y)
      (.binary j x (.binary .eq y (alloc 0 y.width))) where
  wf := ⟨h.1,Expr.wf_isZero h.2.1,hw⟩
  width := by simp [Expr.width,hw]
  weight := by
    simp only [Expr.weight,hw,alloc]
    exact hwt _ _
  defined _ _ hb := (Expr.defined_binary hj).mpr ⟨hb.1,guard_left hb.2,trivial⟩
  eval s _ := by
    obtain ⟨hx,hy⟩ := Expr.bool_lt h hw s
    rw [Expr.eval,Expr.eval_isZero_bool (h.2.2.symm.trans hw),Expr.eval,hw]
    exact (hk ⟨_,hx⟩ ⟨_,hy⟩).symm

lemma Refines.bool_negate_left {x y : Expr} (h : (Expr.binary k x y).WF) (hw : x.width = 1)
    (hj : j.isDivision = false) (hwt : ∀ l r, j.weight 1 (l+1+1) r ≤ k.weight 1 l r)
    (hk : ∀ u v : Fin (2^1), k.apply 1 u v = j.apply 1 (eq.apply 1 u 0) v) : Refines (.binary k x y)
      (.binary j (.binary .eq x (alloc 0 x.width)) y) where
  wf := ⟨Expr.wf_isZero h.1,h.2.1,hw.symm.trans h.2.2⟩
  width := by simp [Expr.width,isCompare,hw]
  weight := by
    simp only [Expr.weight,alloc,hw]
    exact hwt _ _
  defined _ _ hb := (Expr.defined_binary hj).mpr ⟨⟨hb.1,trivial⟩,guard_left hb.2⟩
  eval s _ := by
    have hwe : (Expr.binary .eq x (alloc 0 x.width)).width = 1 := rfl
    obtain ⟨hx,hy⟩ := Expr.bool_lt h hw s
    rw [Expr.eval,Expr.eval_isZero_bool hw,Expr.eval,hwe,hw]
    exact (hk ⟨_,hx⟩ ⟨_,hy⟩).symm

lemma createFold_yields (hF : Creates k full) : Creates k (createFold k full) := by
  intro l r h
  unfold createFold
  split
  · exact .of_refines (.fold h)
  · exact hF h

lemma createFold_bool_yields {bool : Expr → Expr → Option Expr} (hbool : ∀ {l r : Expr},
      (Expr.binary k l r).WF → l.width = 1 → Yields (.binary k l r) (bool l r)) :
    Creates k (createFold k fun l r => if l.width = 1 then bool l r else some (.binary k l r)) := by
  refine createFold_yields fun h => ?_
  split
  next hw => exact hbool h hw
  · exact .alloc h

lemma andIsZero_yields (h : (Expr.binary k l r).WF)
    (hw : l.width = 1) (hwt : ∀ l r, and.weight 1 l (r+1+1) ≤ k.weight 1 l r)
    (hk : ∀ u v : Fin (2^1), k.apply 1 u v = and.apply 1 u (eq.apply 1 v 0)) :
    Yields (.binary k l r) (andIsZero l r) :=
  .bind_right (.bool_negate_right h hw rfl hwt hk) (Expr.createIsZero_yields h.2.1)
    fun _ _ h => .of_refines (AndExpr.create_refines h)

lemma apply_mul_comm (w x y : Nat) : mul.apply w x y = mul.apply w y x := by
  simp only [apply,mul_comm]

lemma MulExpr_createPartialR_refines {r : Expr} (h : (Expr.binary .mul (.constant cl) r).WF) :
    Refines (.binary .mul (.constant cl) r) (MulExpr_createPartialR cl r) := by
  have hs := swap h apply_mul_comm
  unfold MulExpr_createPartialR
  split
  next hw =>
    have hrw : r.width = 1 := h.2.2.symm.trans hw
    have hb := bool_binary (j := .and) hs.wf hrw rfl (fun _ _ => le_rfl) (by decide)
    exact (hs.trans hb).trans
      (AndExpr_createPartial_refines (fun _ _ _ => AndExpr.create_refines) hb.wf)
  · split
    next h1 =>
      have h1 : cl.value = 1 := by simpa [APInt.isOne] using h1
      refine hs.trans (.binary_unit hs.wf rfl fun x hx => ?_)
      simp [apply,h1,Nat.mod_eq_of_lt hx]
    · split
      next h0 =>
        have h0 := cl.isZero_iff.mp h0
        refine hs.trans (.binary_zero hs.wf rfl fun x hx => ?_)
        simp [apply,h0]
      · exact .refl h

lemma MulExpr.create_yields : Creates .mul create := by
  refine createR_yields (fun _ _ h => .of_refines (MulExpr_createPartialR_refines h))
    (fun _ _ h => ?_) fun h => .of_refines ?_
  · have hs := swap h apply_mul_comm
    exact .of_refines (hs.trans (MulExpr_createPartialR_refines hs.wf))
  · split
    next hw =>
      exact .bool_binary h hw rfl (fun _ _ => le_rfl) (by decide)
    · exact .refl h

lemma createDivision_yields {bool : Expr → Expr} (h : (Expr.binary k l r).WF)
    (hbool : l.width = 1 → Refines (.binary k l r) (bool l)) (hz : ¬(l.isConstant ∧ r.isZero)) :
    Yields (.binary k l r) (createDivision k bool l r) := by
  unfold createDivision
  split
  next cl cr =>
    have hcr : ¬cr.isZero := fun h0 => hz ⟨rfl,h0⟩
    rw [if_neg hcr]
    exact .of_refines (.fold h)
  split
  next hw =>
    exact .of_refines (hbool hw)
  · exact .alloc h

lemma Refines.bool_left (h : (Expr.binary k l r).WF) (hc : k.isCompare = false) (hw : l.width = 1)
    (hk : ∀ u v : Fin (2^1), k.apply 1 u v = u) : Refines (.binary k l r) l where
  wf := h.1
  width := by simp [Expr.width,hc]
  weight := by
    have := lt_weight k l.width l.weight r.weight
    grind
  defined _ live hb := Expr.Defined.mono live hb.1
  eval s _ := by
    obtain ⟨hx,hy⟩ := Expr.bool_lt h hw s
    simp only [Expr.eval,hw]
    exact (hk ⟨_,hx⟩ ⟨_,hy⟩).symm

lemma Refines.bool_zero (h : (Expr.binary k l r).WF)
    (hc : k.isCompare = false) (hw : l.width = 1) (hk : ∀ u v : Fin (2^1), k.apply 1 u v = 0) :
    Refines (.binary k l r) (alloc 0 1) := by
  refine .constant _ h (by simp [Expr.width,hc,hw]) fun s _ => ?_
  obtain ⟨hx,hy⟩ := Expr.bool_lt h hw s
  simp only [Expr.eval,hw]
  exact (hk ⟨_,hx⟩ ⟨_,hy⟩).symm

section Division
variable (hz : ¬(l.isConstant = true ∧ r.isZero = true))
include hz

lemma UDivExpr.create_yields (h : (Expr.binary .udiv l r).WF) :
    Yields (.binary .udiv l r) (create l r) :=
  createDivision_yields h (fun hw => .bool_left h rfl hw (by decide)) hz

lemma SDivExpr.create_yields (h : (Expr.binary .sdiv l r).WF) :
    Yields (.binary .sdiv l r) (create l r) :=
  createDivision_yields h (fun hw => .bool_left h rfl hw (by decide)) hz

lemma URemExpr.create_yields (h : (Expr.binary .urem l r).WF) :
    Yields (.binary .urem l r) (create l r) :=
  createDivision_yields h (fun hw => .bool_zero h rfl hw (by decide)) hz

lemma SRemExpr.create_yields (h : (Expr.binary .srem l r).WF) :
    Yields (.binary .srem l r) (create l r) :=
  createDivision_yields h (fun hw => .bool_zero h rfl hw (by decide)) hz

end Division

lemma Refines.shl_zero (h : (Expr.binary .shl l r).WF) (hr : r.isZero) :
    Refines (.binary .shl l r) l := by
  unfold Expr.isZero at hr
  split at hr
  next c =>
    have hc := c.isZero_iff.mp hr
    have hcw := h.2.1.1
    refine .binary_unit h rfl fun x hx => ?_
    rw [apply_shl _ _ _ hx,hc,if_pos hcw,Nat.shiftLeft_zero,Nat.mod_eq_of_lt hx]
  · cases hr

lemma ShlExpr.create_yields : Creates .shl create := by
  refine createFold_yields fun h => ?_
  split
  next hw =>
    exact andIsZero_yields h hw (fun l r => by grind) (by decide)
  split
  next h0 =>
    exact .of_refines (.shl_zero h h0)
  · exact .alloc h

lemma LShrExpr.create_yields : Creates .lshr create :=
  createFold_bool_yields fun h hw => andIsZero_yields h hw (fun l r => by grind) (by decide)

lemma AShrExpr.create_yields : Creates .ashr create :=
  createFold_bool_yields fun h hw => .of_refines (.bool_left h rfl hw (by decide))

lemma UltExpr.create_yields : Creates .ult create := createFold_bool_yields fun h hw =>
    .bind_left (.bool_negate_left (j := .and) h hw rfl (fun l r => by grind) (by decide))
      (Expr.createIsZero_yields h.1) fun _ _ h => .of_refines (AndExpr.create_refines h)

lemma UleExpr.create_yields : Creates .ule create := createFold_bool_yields fun h hw =>
    .bind_left (.bool_negate_left (j := .or) h hw rfl (fun l r => by grind) (by decide))
      (Expr.createIsZero_yields h.1) fun _ hn h =>
        OrExpr.create_yields h (OrExpr.safe_bool h hn.width)

lemma SltExpr.create_yields : Creates .slt create :=
  createFold_bool_yields fun h hw => andIsZero_yields h hw (fun l r => by grind) (by decide)

lemma SleExpr.create_yields : Creates .sle create := createFold_bool_yields fun h hw =>
    .bind_right (.bool_negate_right (j := .or) h hw rfl (fun l r => by grind) (by decide))
      (Expr.createIsZero_yields h.2.1) fun _ _ h =>
        OrExpr.create_yields h (OrExpr.safe_bool h hw)

lemma flip_yields (hfull : Creates j full) (hc : k.isCompare = j.isCompare)
    (hj : j.isDivision = false) (hwt : ∀ w l r, k.weight w l r = j.weight w l r)
    (hk : ∀ w x y, j.apply w y x = k.apply w x y) : Creates k fun l r => full r l := by
  intro l r h
  have hr : Refines (.binary k l r) (.binary j r l) :=
    { wf := ⟨h.2.1,h.1,h.2.2.symm⟩
      width := by simp only [Expr.width,hc,h.2.2]
      weight := by simp only [Expr.weight,← h.2.2,hwt,j.weight_comm _ r.weight,le_refl]
      defined := fun _ _ hb => (Expr.defined_binary hj).mpr ⟨guard_left hb.2,hb.1⟩
      eval := fun s _ => by simp only [Expr.eval,← h.2.2,hk]}
  exact .trans hr (hfull hr.wf)

lemma UgtExpr.create_yields : Creates .ugt create :=
  flip_yields (k := .ugt) (j := .ult) UltExpr.create_yields rfl rfl (fun _ _ _ => rfl)
    fun _ _ _ => rfl

lemma UgeExpr.create_yields : Creates .uge create :=
  flip_yields (k := .uge) (j := .ule) UleExpr.create_yields rfl rfl (fun _ _ _ => rfl)
    fun _ _ _ => rfl

lemma SgtExpr.create_yields : Creates .sgt create :=
  flip_yields (k := .sgt) (j := .slt) SltExpr.create_yields rfl rfl (fun _ _ _ => rfl)
    fun _ _ _ => rfl

lemma SgeExpr.create_yields : Creates .sge create :=
  flip_yields (k := .sge) (j := .sle) SleExpr.create_yields rfl rfl (fun _ _ _ => rfl)
    fun _ _ _ => rfl

lemma NeExpr.create_yields : Creates .ne create := by
  intro l r h
  have heq : (Expr.binary .eq l r).WF := h
  have hr : Refines (.binary .ne l r) (.binary .eq (alloc 0 1) (.binary .eq l r)) := by
    refine ⟨⟨⟨by decide,by decide⟩,heq,rfl⟩,rfl,?_,fun _ _ hb => ⟨trivial,hb⟩,fun s _ => ?_⟩
    · simp only [Expr.weight,BinaryKind.weight,alloc]; omega
    · simp only [Expr.eval,Expr.width,apply,alloc,bne]
      cases BitVec.ofNat l.width (l.eval s) == BitVec.ofNat l.width (r.eval s) <;> rfl
  exact .bind_right hr (EqExpr.create_yields heq) fun _ _ => EqExpr.create_yields

end S2E
