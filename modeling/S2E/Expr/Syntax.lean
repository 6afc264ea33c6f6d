import Mathlib

/-!
Symbolic expressions of the engine: the kinds of `Expr.h`, arrays, and update
lists. An expression here is a tree, so the update list of a read is the list
as it stands when the expression is looked at.
-/

namespace S2E

/-- An integer of a fixed width; the value fits the width by construction. -/
structure APInt where
  width : Nat
  value : Nat
  value_lt : value < 2^width
  deriving DecidableEq, Repr

def APInt.ofNat (w n : Nat) : APInt :=
  ⟨w,n%2^w,Nat.mod_lt n (Nat.two_pow_pos w)⟩

@[simp] lemma APInt.ofNat_width (w n : Nat) : (APInt.ofNat w n).width = w := rfl

@[simp] lemma APInt.ofNat_value (w n : Nat) : (APInt.ofNat w n).value = n%2^w := rfl

lemma APInt.ofNat_value_self (c : APInt) : APInt.ofNat c.width c.value = c := by
  cases c with
  | mk w v h => simp [APInt.ofNat,Nat.mod_eq_of_lt h]

def APInt.isZero (c : APInt) : Bool := c.value == 0
def APInt.isOne (c : APInt) : Bool := c.value == 1
def APInt.isAllOnes (c : APInt) : Bool := c.value == 2^c.width-1
def APInt.isTrue (c : APInt) : Bool := c.width == 1 && c.value == 1
def APInt.isFalse (c : APInt) : Bool := c.width == 1 && c.value == 0

/-- A byte array. `id` stands for the address of the object, which is what the
engine compares; an array with no constant values is symbolic. -/
structure ArrayObj where
  id : Nat
  size : Nat
  constantValues : List (BitVec 8)
  size_lt : size < 2^32
  constant_size : constantValues = [] ∨ constantValues.length = size
  deriving DecidableEq, Repr

def ArrayObj.isSymbolicArray (arr : ArrayObj) : Bool := arr.constantValues.isEmpty
def ArrayObj.isConstantArray (arr : ArrayObj) : Bool := !arr.isSymbolicArray

def ArrayObj.symbolic (id size : Nat) (h : size < 2^32) : ArrayObj :=
  ⟨id,size,[],h,.inl rfl⟩

lemma one_fits : 1 < 2^32 := by decide

lemma two_fits : 2 < 2^32 := by decide

lemma eight_fits : 8 < 2^32 := by decide

inductive BinaryKind where
  | add | sub | mul | udiv | sdiv | urem | srem
  | and | or | xor | shl | lshr | ashr
  | eq | ne | ult | ule | ugt | uge | slt | sle | sgt | sge
  deriving DecidableEq, Repr

def BinaryKind.isCompare : BinaryKind → Bool
  | .eq | .ne | .ult | .ule | .ugt | .uge | .slt | .sle | .sgt | .sge => true
  | _ => false

def BinaryKind.isDivision : BinaryKind → Bool
  | .udiv | .sdiv | .urem | .srem => true
  | _ => false

mutual
inductive Expr where
  | constant (value : APInt)
  | read (updates : UpdateList) (index : Expr)
  | select (cond trueExpr falseExpr : Expr)
  | concat (left right : Expr)
  | extract (expr : Expr) (offset width : Nat)
  | not (expr : Expr)
  | zext (src : Expr) (width : Nat)
  | sext (src : Expr) (width : Nat)
  | binary (kind : BinaryKind) (left right : Expr)
  deriving DecidableEq

/-- An update list ends in its root array; the outermost `extend` is the head,
that is the most recent update. -/
inductive UpdateList where
  | root (array : ArrayObj)
  | extend (next : UpdateList) (index value : Expr)
  deriving DecidableEq
end

def UpdateList.getRoot : UpdateList → ArrayObj
  | .root arr => arr
  | .extend next _ _ => next.getRoot

def UpdateList.getSize : UpdateList → Nat
  | .root _ => 0
  | .extend next _ _ => next.getSize+1

def UpdateList.nodes : UpdateList → List (Expr × Expr)
  | .root _ => []
  | .extend next i v => (i,v) :: next.nodes

def Expr.width : Expr → Nat
  | .constant c => c.width
  | .read _ _ => 8
  | .select _ t _ => t.width
  | .concat l r => l.width+r.width
  | .extract _ _ w => w
  | .not e => e.width
  | .zext _ w => w
  | .sext _ w => w
  | .binary k l _ => if k.isCompare then 1 else l.width

mutual
/-- The widths of the operands are the ones the constructors assert, and every
width fits the `unsigned` it is kept in. -/
def Expr.WF : Expr → Prop
  | .constant c => 0 < c.width ∧ c.width < 2^32
  | .read ul i => ul.WF ∧ i.WF ∧ i.width = 32
  | .select c t f => c.WF ∧ t.WF ∧ f.WF ∧ c.width = 1 ∧ t.width = f.width
  | .concat l r => l.WF ∧ r.WF ∧ l.width+r.width < 2^32
  | .extract e off w => e.WF ∧ 0 < w ∧ off+w ≤ e.width
  | .not e => e.WF
  | .zext e w => e.WF ∧ e.width ≤ w ∧ w < 2^32
  | .sext e w => e.WF ∧ e.width ≤ w ∧ w < 2^32
  | .binary _ l r => l.WF ∧ r.WF ∧ l.width = r.width

def UpdateList.WF : UpdateList → Prop
  | .root _ => True
  | .extend next i v => next.WF ∧ i.WF ∧ v.WF ∧ i.width = 32 ∧ v.width = 8
end

mutual
def Expr.decWF : (e : Expr) → Decidable e.WF
  | .constant _ => inferInstanceAs (Decidable (_ ∧ _))
  | .read ul i =>
    have := ul.decWF
    have := i.decWF
    inferInstanceAs (Decidable (_ ∧ _ ∧ _))
  | .select c t f =>
    have := c.decWF
    have := t.decWF
    have := f.decWF
    inferInstanceAs (Decidable (_ ∧ _ ∧ _ ∧ _ ∧ _))
  | .concat l r =>
    have := l.decWF
    have := r.decWF
    inferInstanceAs (Decidable (_ ∧ _ ∧ _))
  | .extract e _ _ =>
    have := e.decWF
    inferInstanceAs (Decidable (_ ∧ _ ∧ _))
  | .not e => e.decWF
  | .zext e _ =>
    have := e.decWF
    inferInstanceAs (Decidable (_ ∧ _ ∧ _))
  | .sext e _ =>
    have := e.decWF
    inferInstanceAs (Decidable (_ ∧ _ ∧ _))
  | .binary _ l r =>
    have := l.decWF
    have := r.decWF
    inferInstanceAs (Decidable (_ ∧ _ ∧ _))

def UpdateList.decWF : (ul : UpdateList) → Decidable ul.WF
  | .root _ => inferInstanceAs (Decidable True)
  | .extend next i v =>
    have := next.decWF
    have := i.decWF
    have := v.decWF
    inferInstanceAs (Decidable (_ ∧ _ ∧ _ ∧ _ ∧ _))
end

instance (e : Expr) : Decidable e.WF := e.decWF

mutual
def Expr.size : Expr → Nat
  | .constant _ => 1
  | .read ul i => ul.size+i.size+1
  | .select c t f => c.size+t.size+f.size+1
  | .concat l r => l.size+r.size+1
  | .extract e _ _ => e.size+1
  | .not e => e.size+1
  | .zext e _ => e.size+1
  | .sext e _ => e.size+1
  | .binary _ l r => l.size+r.size+1

def UpdateList.size : UpdateList → Nat
  | .root _ => 1
  | .extend next i v => next.size+i.size+v.size+1
end

attribute [grind =] Expr.size

lemma Expr.size_pos (e : Expr) : 0 < e.size := by
  cases e <;> simp only [size] <;> omega

lemma Expr.width_pos : (e : Expr) → e.WF → 0 < e.width
  | .constant _, h => h.1
  | .read _ _, _ => by simp [width]
  | .select _ t _, h => by simpa [width] using width_pos t h.2.1
  | .concat l _, h => by have := width_pos l h.1; simp only [width]; omega
  | .extract _ _ _, h => h.2.1
  | .not e, h => width_pos e h
  | .zext e _, h => Nat.lt_of_lt_of_le (width_pos e h.1) h.2.1
  | .sext e _, h => Nat.lt_of_lt_of_le (width_pos e h.1) h.2.1
  | .binary k l _, h => by
    have := width_pos l h.1
    simp only [width]; split <;> omega

lemma Expr.width_lt : (e : Expr) → e.WF → e.width < 2^32
  | .constant _, h => h.2
  | .read _ _, _ => by simp [width]
  | .select _ t _, h => by simpa [width] using width_lt t h.2.1
  | .concat _ _, h => h.2.2
  | .extract e _ _, h => by
    have h1 := width_lt e h.1
    have h2 := h.2.2
    simp only [width]; omega
  | .not e, h => width_lt e h
  | .zext _ _, h => h.2.2
  | .sext _ _, h => h.2.2
  | .binary k l _, h => by
    have := width_lt l h.1
    simp only [width]; split <;> omega

def ConstantExpr.alloc (v w : Nat) : Expr := .constant (APInt.ofNat w v)

def Expr.isZero : Expr → Bool
  | .constant c => c.isZero
  | _ => false

def Expr.isTrue : Expr → Bool
  | .constant c => c.isTrue
  | _ => false

def Expr.isConstant : Expr → Bool
  | .constant _ => true
  | _ => false

def Expr.isIsZeroOf (self e : Expr) : Bool :=
  match self with
  | .binary .eq l r => l.isZero && decide (r = e)
  | _ => false

def Expr.isNegationOf (self e : Expr) : Bool :=
  self.isIsZeroOf e || e.isIsZeroOf self

def Expr.kids : Expr → List Expr
  | .constant _ => []
  | .read _ i => [i]
  | .select c t f => [c,t,f]
  | .concat l r => [l,r]
  | .extract e _ _ => [e]
  | .not e => [e]
  | .zext e _ => [e]
  | .sext e _ => [e]
  | .binary _ l r => [l,r]

end S2E
