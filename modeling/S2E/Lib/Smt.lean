import Mathlib

/-!
The part of SMT-LIB that a symbolic executor over byte arrays needs: Booleans, bit-vectors
and arrays of bytes at 32-bit indices, with the sorts, the meaning of the operators and the
stack of assertions of a solver. Constants are named by an arbitrary type.
-/

namespace Smt

inductive Srt where
  | bool
  | bv (width : Nat)
  | array
  deriving DecidableEq, Repr

inductive Value where
  | bool (b : Bool)
  | bv (width value : Nat)
  | array (f : Nat → BitVec 8)

namespace Value

def isTrue : Value → Bool
  | bool b => b
  | _ => false

def width : Value → Nat
  | bv w _ => w
  | _ => 0

def toNat : Value → Nat
  | bv _ v => v
  | _ => 0

def toArray : Value → Nat → BitVec 8
  | array f => f
  | _ => fun _ => 0

def same : Value → Value → Bool
  | bool a, bool b => a == b
  | bv _ a, bv _ b => a == b
  | _, _ => false

end Value

inductive BvOp where
  | add | sub | mul | udiv | sdiv | urem | srem | and | or | xor | shl | lshr | ashr
  deriving DecidableEq, Repr

def BvOp.apply (op : BvOp) {w : Nat} (x y : BitVec w) : BitVec w :=
  match op with
  | .add => x+y
  | .sub => x-y
  | .mul => x*y
  | .udiv => x.smtUDiv y
  | .sdiv => x.smtSDiv y
  | .urem => x%y
  | .srem => x.srem y
  | .and => x &&& y
  | .or => x ||| y
  | .xor => x ^^^ y
  | .shl => x <<< y
  | .lshr => x >>> y
  | .ashr => x.sshiftRight' y

inductive BvRel where
  | ult | ule | slt | sle
  deriving DecidableEq, Repr

def BvRel.holds (rel : BvRel) {w : Nat} (x y : BitVec w) : Bool :=
  match rel with
  | .ult => x.ult y
  | .ule => x.ule y
  | .slt => x.slt y
  | .sle => x.sle y

inductive BoolOp where
  | and | or | xor | implies
  deriving DecidableEq, Repr

def BoolOp.apply : BoolOp → Bool → Bool → Bool
  | .and, a, b => a && b
  | .or, a, b => a || b
  | .xor, a, b => a ^^ b
  | .implies, a, b => !a || b

inductive Term (N : Type) where
  | boolVal (b : Bool)
  | bvVal (value width : Nat)
  | boolConst (name : N)
  | byteConst (name : N)
  | arrayConst (name : N)
  | ite (cond t e : Term N)
  | concat (left right : Term N)
  | extract (high low : Nat) (arg : Term N)
  | zeroExt (n : Nat) (arg : Term N)
  | signExt (n : Nat) (arg : Term N)
  | bvNot (arg : Term N)
  | bvBin (op : BvOp) (left right : Term N)
  | bvRel (rel : BvRel) (left right : Term N)
  | eq (left right : Term N)
  | not (arg : Term N)
  | boolBin (op : BoolOp) (left right : Term N)
  | select (arr index : Term N)
  | store (arr index value : Term N)
  deriving DecidableEq

namespace Term
variable {N : Type}

def sort? : Term N → Option Srt
  | boolVal _ => some .bool
  | bvVal _ w => if 0 < w then some (.bv w) else none
  | boolConst _ => some .bool
  | byteConst _ => some (.bv 8)
  | arrayConst _ => some .array
  | ite c t e =>
    match c.sort?, t.sort?, e.sort? with
    | some .bool, some s, some s' => if s = s' then some s else none
    | _, _, _ => none
  | concat l r =>
    match l.sort?, r.sort? with
    | some (.bv m), some (.bv n) => some (.bv (m+n))
    | _, _ => none
  | extract high low t =>
    match t.sort? with
    | some (.bv w) => if low ≤ high ∧ high < w then some (.bv (high-low+1)) else none
    | _ => none
  | zeroExt n t | signExt n t =>
    match t.sort? with
    | some (.bv w) => some (.bv (w+n))
    | _ => none
  | bvNot t =>
    match t.sort? with
    | some (.bv w) => some (.bv w)
    | _ => none
  | bvBin _ l r =>
    match l.sort?, r.sort? with
    | some (.bv m), some (.bv n) => if m = n then some (.bv m) else none
    | _, _ => none
  | bvRel _ l r =>
    match l.sort?, r.sort? with
    | some (.bv m), some (.bv n) => if m = n then some .bool else none
    | _, _ => none
  | eq l r =>
    match l.sort?, r.sort? with
    | some .bool, some .bool => some .bool
    | some (.bv m), some (.bv n) => if m = n then some .bool else none
    | _, _ => none
  | not t =>
    match t.sort? with
    | some .bool => some .bool
    | _ => none
  | boolBin _ l r =>
    match l.sort?, r.sort? with
    | some .bool, some .bool => some .bool
    | _, _ => none
  | select a i =>
    match a.sort?, i.sort? with
    | some .array, some (.bv 32) => some (.bv 8)
    | _, _ => none
  | store a i v =>
    match a.sort?, i.sort?, v.sort? with
    | some .array, some (.bv 32), some (.bv 8) => some .array
    | _, _, _ => none

-- The equations are made here, once for the lemmas that use them.
attribute [local simp] sort?

def isBool (t : Term N) : Bool := t.sort? == some .bool

def bvSize (t : Term N) : Nat :=
  match t.sort? with
  | some (.bv w) => w
  | _ => 0

end Term

structure Env (N : Type) where
  bool : N → Bool
  byte : N → BitVec 8
  array : N → Nat → BitVec 8

namespace Term
variable {N : Type}

def eval (ρ : Env N) : Term N → Value
  | boolVal b => .bool b
  | bvVal v w => .bv w (v%2^w)
  | boolConst n => .bool (ρ.bool n)
  | byteConst n => .bv 8 (ρ.byte n).toNat
  | arrayConst n => .array (ρ.array n)
  | ite c t e => if (c.eval ρ).isTrue then t.eval ρ else e.eval ρ
  | concat l r =>
    let x := l.eval ρ
    let y := r.eval ρ
    .bv (x.width+y.width)
      (BitVec.ofNat x.width x.toNat ++ BitVec.ofNat y.width y.toNat).toNat
  | extract high low t =>
    let x := t.eval ρ
    .bv (high-low+1) ((BitVec.ofNat x.width x.toNat).extractLsb high low).toNat
  | zeroExt n t =>
    let x := t.eval ρ
    .bv (x.width+n) ((BitVec.ofNat x.width x.toNat).setWidth (x.width+n)).toNat
  | signExt n t =>
    let x := t.eval ρ
    .bv (x.width+n) ((BitVec.ofNat x.width x.toNat).signExtend (x.width+n)).toNat
  | bvNot t =>
    let x := t.eval ρ
    .bv x.width (~~~BitVec.ofNat x.width x.toNat).toNat
  | bvBin op l r =>
    let x := l.eval ρ
    .bv x.width
      (op.apply (BitVec.ofNat x.width x.toNat) (BitVec.ofNat x.width (r.eval ρ).toNat)).toNat
  | bvRel rel l r =>
    let x := l.eval ρ
    .bool (rel.holds (BitVec.ofNat x.width x.toNat) (BitVec.ofNat x.width (r.eval ρ).toNat))
  | eq l r => .bool ((l.eval ρ).same (r.eval ρ))
  | not t => .bool (!(t.eval ρ).isTrue)
  | boolBin op l r => .bool (op.apply (l.eval ρ).isTrue (r.eval ρ).isTrue)
  | select a i => .bv 8 ((a.eval ρ).toArray (i.eval ρ).toNat).toNat
  | store a i v =>
    .array (Function.update (a.eval ρ).toArray (i.eval ρ).toNat (BitVec.ofNat 8 (v.eval ρ).toNat))

section
variable {ρ : Env N} {t l r : Term N} {w v x y : Nat}

attribute [local simp] eval

lemma eval_concat {n : Nat} (hl : l.eval ρ = .bv w x) (hr : r.eval ρ = .bv n y) :
    (concat l r).eval ρ = .bv (w+n) (BitVec.ofNat w x ++ BitVec.ofNat n y).toNat := by
  simp only [eval]
  rw [hl,hr]
  rfl

lemma eval_extract (high low : Nat) (h : t.eval ρ = .bv w v) : (extract high low t).eval ρ =
    .bv (high-low+1) ((BitVec.ofNat w v).extractLsb high low).toNat := by
  simp only [eval]
  rw [h]
  rfl

lemma eval_zeroExt (n : Nat) (h : t.eval ρ = .bv w v) :
    (zeroExt n t).eval ρ = .bv (w+n) ((BitVec.ofNat w v).setWidth (w+n)).toNat := by
  simp only [eval]
  rw [h]
  rfl

lemma eval_signExt (n : Nat) (h : t.eval ρ = .bv w v) :
    (signExt n t).eval ρ = .bv (w+n) ((BitVec.ofNat w v).signExtend (w+n)).toNat := by
  simp only [eval]
  rw [h]
  rfl

lemma eval_bvNot (h : t.eval ρ = .bv w v) :
    (bvNot t).eval ρ = .bv w (~~~BitVec.ofNat w v).toNat := by
  simp only [eval]
  rw [h]
  rfl

lemma eval_bvBin (op : BvOp) (hl : l.eval ρ = .bv w x) (hr : r.eval ρ = .bv w y) :
    (bvBin op l r).eval ρ = .bv w (op.apply (BitVec.ofNat w x) (BitVec.ofNat w y)).toNat := by
  simp only [eval]
  rw [hl,hr]
  rfl

lemma eval_bvRel (rel : BvRel) (hl : l.eval ρ = .bv w x) (hr : r.eval ρ = .bv w y) :
    (bvRel rel l r).eval ρ = .bool (rel.holds (BitVec.ofNat w x) (BitVec.ofNat w y)) := by
  simp only [eval]
  rw [hl,hr]
  rfl

lemma eval_eq_bv (hl : l.eval ρ = .bv w x) (hr : r.eval ρ = .bv w y) :
    (eq l r).eval ρ = .bool (x == y) := by
  rw [eval,hl,hr]
  rfl

lemma eval_ite_true {c : Term N} (h : c.eval ρ = .bool true) : (ite c l r).eval ρ = l.eval ρ := by
  simp [eval,h,Value.isTrue]

lemma eval_ite_false {c : Term N} (h : c.eval ρ = .bool false) :
    (ite c l r).eval ρ = r.eval ρ := by
  simp [eval,h,Value.isTrue]

end

def Agree (ρ ρ' : Env N) : Term N → Prop
  | boolVal _ | bvVal _ _ => True
  | boolConst n => ρ.bool n = ρ'.bool n
  | byteConst n => ρ.byte n = ρ'.byte n
  | arrayConst n => ρ.array n = ρ'.array n
  | ite c t e => c.Agree ρ ρ' ∧ t.Agree ρ ρ' ∧ e.Agree ρ ρ'
  | concat l r | bvBin _ l r | bvRel _ l r | eq l r | boolBin _ l r =>
    l.Agree ρ ρ' ∧ r.Agree ρ ρ'
  | extract _ _ t | zeroExt _ t | signExt _ t | bvNot t | not t => t.Agree ρ ρ'
  | select a i => a.Agree ρ ρ' ∧ i.Agree ρ ρ'
  | store a i v => a.Agree ρ ρ' ∧ i.Agree ρ ρ' ∧ v.Agree ρ ρ'

lemma eval_congr {ρ ρ' : Env N} : (t : Term N) → t.Agree ρ ρ' → t.eval ρ = t.eval ρ'
  | boolVal _, _ | bvVal _ _, _ => rfl
  | boolConst _, h => congrArg Value.bool h
  | byteConst _, h => congrArg (fun b : BitVec 8 => Value.bv 8 b.toNat) h
  | arrayConst _, h => congrArg Value.array h
  | ite c t e, h => by
    simp only [eval,eval_congr c h.1,eval_congr t h.2.1,eval_congr e h.2.2]
  | concat l r, h | bvBin _ l r, h | bvRel _ l r, h | eq l r, h | boolBin _ l r, h => by
    simp only [eval]
    rw [eval_congr l h.1,eval_congr r h.2]
  | extract _ _ t, h | zeroExt _ t, h | signExt _ t, h | bvNot t, h | not t, h => by
    simp only [eval]
    rw [eval_congr t h]
  | select a i, h => by simp only [eval,eval_congr a h.1,eval_congr i h.2]
  | store a i v, h => by
    simp only [eval,eval_congr a h.1,eval_congr i h.2.1,eval_congr v h.2.2]

def Holds (ρ : Env N) (f : Term N) : Prop := (f.eval ρ).isTrue = true

end Term

structure Assertions (N : Type) where
  inner : List (Term N)
  outer : List (List (Term N))

namespace Assertions
variable {N : Type}

def empty : Assertions N := ⟨[],[]⟩

def add (f : Term N) (s : Assertions N) : Assertions N := {s with inner := f :: s.inner}

variable (s : Assertions N)

def push : Assertions N := ⟨[],s.inner :: s.outer⟩

def pop : Option (Assertions N) :=
  match s.outer with
  | [] => none
  | inner :: outer => some ⟨inner,outer⟩

def formulas : List (Term N) := s.inner ++ s.outer.flatten

@[simp] lemma formulas_push : s.push.formulas = s.formulas := by
  simp [formulas,push]

end Assertions
end Smt
