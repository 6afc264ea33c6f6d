import S2E.Expr.Select

/-!
The folding constructor of every kind, and what it keeps of the node it stands
for.
-/

namespace S2E
open S2E.Expr ConstantExpr

lemma bind_bind_eq_some {α β γ : Type} {a : Option α} {b : α → Option β} {f : α → β → Option γ}
    {c : γ} (h : (a.bind fun x => (b x).bind (f x)) = some c) :
    ∃ x y, a = some x ∧ b x = some y ∧ f x y = some c := by
  obtain ⟨x,hx,h⟩ := Option.bind_eq_some_iff.mp h
  obtain ⟨y,hy,h⟩ := Option.bind_eq_some_iff.mp h
  exact ⟨x,y,hx,hy,h⟩

def BinaryKind.create : BinaryKind → Expr → Expr → Option Expr
  | .add => AddExpr.create
  | .sub => SubExpr.create
  | .mul => MulExpr.create
  | .udiv => UDivExpr.create
  | .sdiv => SDivExpr.create
  | .urem => URemExpr.create
  | .srem => SRemExpr.create
  | .and => fun l r => some (AndExpr.create l r)
  | .or => OrExpr.create
  | .xor => XorExpr.create
  | .shl => ShlExpr.create
  | .lshr => LShrExpr.create
  | .ashr => AShrExpr.create
  | .eq => EqExpr.create
  | .ne => NeExpr.create
  | .ult => UltExpr.create
  | .ule => UleExpr.create
  | .ugt => UgtExpr.create
  | .uge => UgeExpr.create
  | .slt => SltExpr.create
  | .sle => SleExpr.create
  | .sgt => SgtExpr.create
  | .sge => SgeExpr.create

def Expr.create : Expr → Option Expr
  | .constant c => some (.constant c)
  | .read ul i => ReadExpr.create ul i
  | .select c t f => SelectExpr.create c t f
  | .concat l r => ConcatExpr.create l r
  | .extract e off w => ExtractExpr.create e off w
  | .not e => some (NotExpr.create e)
  | .zext e w => ZExtExpr.create e w
  | .sext e w => SExtExpr.create e w
  | .binary k l r => k.create l r

/-- The operands are well formed and of the widths that `X::create` asserts. Unlike a
node, an extension may be asked for a smaller width. -/
def Expr.Buildable : Expr → Prop
  | .zext e w => e.WF ∧ 0 < w ∧ w < 2^32
  | .sext e w => e.WF ∧ 0 < w ∧ w < 2^32
  | e => e.WF

def Expr.createSafe : Expr → Prop
  | .extract e off w => w ≠ e.width → e.extractSafe off w
  | .zext e w => w < e.width → e.extractSafe 0 w
  | .sext e w => w < e.width → e.extractSafe 0 w
  | .concat l r => ConcatExpr.mergeSafe l r
  | .binary .or l r => OrExpr.safe l r
  | _ => True

def Expr.dividesByZero : Expr → Bool
  | .binary k l r => k.isDivision && l.isConstant && r.isZero
  | _ => false

variable {e : Expr}

lemma BinaryKind.create_yields {k : BinaryKind} {l r : Expr} (h : (binary k l r).WF)
    (hs : (binary k l r).createSafe) (hz : (binary k l r).dividesByZero = false) :
    Yields (.binary k l r) (k.create l r) := by
  have hz' : k.isDivision → ¬(l.isConstant ∧ r.isZero) := by
    intro hk hlr
    simp [dividesByZero,hk,hlr.1,hlr.2] at hz
  cases k with
  | add => exact AddExpr.create_yields h
  | sub => exact SubExpr.create_yields h
  | mul => exact MulExpr.create_yields h
  | udiv => exact UDivExpr.create_yields (hz' rfl) h
  | sdiv => exact SDivExpr.create_yields (hz' rfl) h
  | urem => exact URemExpr.create_yields (hz' rfl) h
  | srem => exact SRemExpr.create_yields (hz' rfl) h
  | and => exact .of_refines (AndExpr.create_refines h)
  | or => exact OrExpr.create_yields h hs
  | xor => exact XorExpr.create_yields h
  | shl => exact ShlExpr.create_yields h
  | lshr => exact LShrExpr.create_yields h
  | ashr => exact AShrExpr.create_yields h
  | eq => exact EqExpr.create_yields h
  | ne => exact NeExpr.create_yields h
  | ult => exact UltExpr.create_yields h
  | ule => exact UleExpr.create_yields h
  | ugt => exact UgtExpr.create_yields h
  | uge => exact UgeExpr.create_yields h
  | slt => exact SltExpr.create_yields h
  | sle => exact SleExpr.create_yields h
  | sgt => exact SgtExpr.create_yields h
  | sge => exact SgeExpr.create_yields h

lemma Expr.create_yields (h : e.WF) (hs : e.createSafe)
    (hz : e.dividesByZero = false) : Yields e e.create := by
  cases e with
  | constant c => exact .alloc h
  | read ul i => exact ReadExpr.create_yields h
  | select c t f => exact SelectExpr.create_yields h
  | concat l r => exact (ConcatExpr.create_yields h hs).yields
  | extract x off w => exact (ExtractExpr.create_yields h hs).yields
  | not x => exact .of_refines (NotExpr.create_refines h)
  | zext x w => exact (ZExtExpr.create_yields h).yields
  | sext x w => exact (SExtExpr.create_yields h).yields
  | binary k l r => exact BinaryKind.create_yields h hs hz

end S2E
