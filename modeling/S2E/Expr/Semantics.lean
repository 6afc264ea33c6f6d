import S2E.Expr.Syntax

namespace S2E
open Nat BitVec BinaryKind S2E.Expr

abbrev Assignment := ArrayObj → Nat → BitVec 8

/-- The byte of the array itself. The assignment is about symbolic arrays only,
and a byte outside an array has no value in the engine; it is zero here. -/
def ArrayObj.initial (arr : ArrayObj) (a : Assignment) (i : Nat) : Nat :=
  match arr.constantValues with
  | [] => if i < arr.size then (a arr i).toNat else 0
  | v :: vs => ((v :: vs).getD i 0).toNat

/-- The operations of `llvm::APInt` on operands of width `w`. A zero divisor has
no value in the engine: the dividend is left as it is, with remainder zero. -/
def BinaryKind.apply (k : BinaryKind) (w a b : Nat) : Nat :=
  let x := BitVec.ofNat w a
  let y := BitVec.ofNat w b
  match k with
  | .add => (x+y).toNat
  | .sub => (x-y).toNat
  | .mul => (x*y).toNat
  | .udiv => if y = 0#w then x.toNat else (x/y).toNat
  | .sdiv => if y = 0#w then x.toNat else (x.sdiv y).toNat
  | .urem => if y = 0#w then 0 else (x%y).toNat
  | .srem => if y = 0#w then 0 else (x.srem y).toNat
  | .and => (x &&& y).toNat
  | .or => (x ||| y).toNat
  | .xor => (x ^^^ y).toNat
  | .shl => if b < w then (x <<< b).toNat else 0
  | .lshr => if b < w then (x >>> b).toNat else 0
  | .ashr => (x.sshiftRight (min b w)).toNat
  | .eq => (x == y).toNat
  | .ne => (x != y).toNat
  | .ult => (x.ult y).toNat
  | .ule => (x.ule y).toNat
  | .ugt => (y.ult x).toNat
  | .uge => (y.ule x).toNat
  | .slt => (x.slt y).toNat
  | .sle => (x.sle y).toNat
  | .sgt => (y.slt x).toNat
  | .sge => (y.sle x).toNat

def sextOrTrunc (kw w v : Nat) : Nat := ((BitVec.ofNat kw v).signExtend w).toNat

mutual
def Expr.eval (a : Assignment) : Expr → Nat
  | .constant c => c.value
  | .read ul i => ul.eval a (i.eval a)
  | .select c t f => if c.eval a = 1 then t.eval a else f.eval a
  | .concat l r => (l.eval a <<< r.width) ||| r.eval a
  | .extract e off w => (e.eval a >>> off)%2^w
  | .not e => (~~~ BitVec.ofNat e.width (e.eval a)).toNat
  | .zext e w => e.eval a%2^w
  | .sext e w => sextOrTrunc e.width w (e.eval a)
  | .binary k l r => k.apply l.width (l.eval a) (r.eval a)

def UpdateList.eval (a : Assignment) : UpdateList → Nat → Nat
  | .root arr, i => arr.initial a i
  | .extend next idx v, i => if idx.eval a = i then v.eval a else next.eval a i
end

def Assignment.Satisfies (a : Assignment) (C : List Expr) : Prop := ∀ c ∈ C, c.eval a = 1

lemma ArrayObj.initial_lt (arr : ArrayObj) (a : Assignment) (i : Nat) :
    arr.initial a i < 2^8 := by
  unfold ArrayObj.initial
  split
  · split
    · exact (a arr i).isLt
    · decide
  · exact isLt _

lemma ArrayObj.initial_congr {arr : ArrayObj} {a b : Assignment} {i : Nat}
    (h : arr.isSymbolicArray → i < arr.size → a arr i = b arr i) :
    arr.initial a i = arr.initial b i := by
  unfold initial
  cases hv : arr.constantValues with
  | cons => rfl
  | nil =>
    dsimp only
    split
    next hi => rw [h (by simp [isSymbolicArray,hv]) hi]
    · rfl

lemma BinaryKind.apply_lt (k : BinaryKind) (w a b : Nat) :
    k.apply w a b < 2^(if k.isCompare then 1 else w) := by
  have hb : ∀ c : Bool, c.toNat < 2^1 := by decide
  have hw : 0 < 2^w := Nat.two_pow_pos w
  cases k <;> simp only [apply,isCompare,if_true,Bool.false_eq_true,if_false] <;> first
    | exact hb _
    | exact isLt _
    | (split <;> first | exact isLt _ | exact hw)

mutual
theorem Expr.eval_lt (a : Assignment) : (e : Expr) → e.WF → e.eval a < 2^e.width
  | .constant c, _ => c.value_lt
  | .read ul i, h => ul.eval_lt a h.1 (i.eval a)
  | .select c t f, h => by
    have ht := t.eval_lt a h.2.1
    have hf := f.eval_lt a h.2.2.1
    have hw : t.width = f.width := h.2.2.2.2
    simp only [eval,width]
    split
    · exact ht
    · rw [hw]; exact hf
  | .concat l r, h => by
    have hl := l.eval_lt a h.1
    have hr := r.eval_lt a h.2.1
    simp only [eval,width]
    apply or_lt_two_pow
    · rw [Nat.shiftLeft_eq,Nat.pow_add]
      exact Nat.mul_lt_mul_of_pos_right hl (Nat.two_pow_pos _)
    · exact Nat.lt_of_lt_of_le hr (Nat.pow_le_pow_right (by decide) (by omega))
  | .extract _ _ w, _ => Nat.mod_lt _ (Nat.two_pow_pos w)
  | .not _, _ => isLt _
  | .zext _ w, _ => Nat.mod_lt _ (Nat.two_pow_pos w)
  | .sext _ _, _ => isLt _
  | .binary k l r, _ => apply_lt k l.width (l.eval a) (r.eval a)

theorem UpdateList.eval_lt (a : Assignment) :
    (ul : UpdateList) → ul.WF → (i : Nat) → ul.eval a i < 2^8
  | .root arr, _, i => arr.initial_lt a i
  | .extend next idx v, h, i => by
    have hv := v.eval_lt a h.2.2.1
    have hn := next.eval_lt a h.1 i
    rw [h.2.2.2.2] at hv
    simp only [UpdateList.eval]
    split
    · exact hv
    · exact hn
end

lemma Expr.eval_bool (a : Assignment) (e : Expr) (h : e.WF) (hw : e.width = 1) :
    e.eval a = 0 ∨ e.eval a = 1 := by
  have := e.eval_lt a h
  rw [hw] at this
  omega

@[simp] lemma ConstantExpr.eval_alloc (a : Assignment) (v w : Nat) :
    (ConstantExpr.alloc v w).eval a = v%2^w := rfl

/-! Bit-level readings of the operations. -/

lemma testBit_sextOrTrunc (kw w v i : Nat) (hk : 0 < kw) : (sextOrTrunc kw w v).testBit i =
      (decide (i < w) && v.testBit (if i < kw then i else kw-1)) := by
  unfold sextOrTrunc
  rw [testBit_toNat,getLsbD_signExtend]
  by_cases hik : i < kw
  · rw [if_pos hik,if_pos hik,getLsbD_ofNat]
    simp [hik]
  · have hk' : kw-1 < kw := by omega
    rw [if_neg hik,if_neg hik,msb_eq_getLsbD_last,getLsbD_ofNat]
    simp [hk']

lemma apply_and (w x y : Nat) (hx : x < 2^w) : and.apply w x y = x &&& y := by
  simp only [apply,toNat_and,toNat_ofNat,mod_eq_of_lt hx]
  apply eq_of_testBit_eq
  intro i
  simp only [testBit_and,testBit_mod_two_pow]
  by_cases hi : i < w
  · simp [hi]
  · have : x.testBit i = false :=
      Nat.testBit_lt_two_pow (Nat.lt_of_lt_of_le hx (Nat.pow_le_pow_right (by decide) (by omega)))
    simp [this]

lemma apply_or (w x y : Nat) (hx : x < 2^w) (hy : y < 2^w) : or.apply w x y = x ||| y := by
  simp [apply,mod_eq_of_lt hx,mod_eq_of_lt hy]

lemma apply_xor (w x y : Nat) (hx : x < 2^w) (hy : y < 2^w) : xor.apply w x y = x ^^^ y := by
  simp [apply,mod_eq_of_lt hx,mod_eq_of_lt hy]

lemma apply_shl (w x s : Nat) (hx : x < 2^w) :
    shl.apply w x s = if s < w then (x <<< s)%2^w else 0 := by
  simp [apply,mod_eq_of_lt hx]

lemma apply_lshr (w x s : Nat) (hx : x < 2^w) :
    lshr.apply w x s = if s < w then x >>> s else 0 := by
  simp [apply,mod_eq_of_lt hx]

lemma apply_eq (w x y : Nat) (hx : x < 2^w) (hy : y < 2^w) :
    eq.apply w x y = if x = y then 1 else 0 := by
  have h : (BitVec.ofNat w x == BitVec.ofNat w y) = decide (x = y) := by
    rw [Bool.eq_iff_iff]
    simp only [beq_iff_eq,decide_eq_true_eq]
    constructor
    · intro h
      have := congrArg BitVec.toNat h
      simpa [toNat_ofNat,mod_eq_of_lt hx,mod_eq_of_lt hy] using this
    · rintro rfl; rfl
  simp only [apply,h]
  by_cases hxy : x = y <;> simp [hxy]

lemma Expr.eval_eq {l r : Expr} (h : (binary .eq l r).WF) (s : Assignment) :
    (binary .eq l r).eval s = if l.eval s = r.eval s then 1 else 0 := by
  have hr := r.eval_lt s h.2.1
  rw [← h.2.2] at hr
  exact apply_eq _ _ _ (l.eval_lt s h.1) hr

end S2E
