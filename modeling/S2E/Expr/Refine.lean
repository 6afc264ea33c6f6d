import S2E.Expr.Semantics

/-!
What a rewrite of an expression has to keep: the width, the value, and the reads
of constant arrays that stay in bounds. A rewrite also never grows the weight,
which is what makes the simplifier terminate.
-/

namespace S2E

/-- Weight of a binary node over operands of width `w` and weights `l`, `r`. The
constants leave room for what the folding constructors build from the node: a
pair of shifts may be taken apart into bytes, an `Or` under a negation into a
negated pair, and a Boolean comparison into connectives. -/
def BinaryKind.weight (k : BinaryKind) (w l r : Nat) : Nat :=
  match k with
  | .or => l+r+4
  | .shl | .lshr => (w+1)*(l+r+2)
  | .ne | .ult | .ule | .ugt | .uge | .slt | .sle | .sgt | .sge => l+r+8
  | _ => l+r+1

mutual
def Expr.weight : Expr → Nat
  | .constant _ => 1
  | .read ul i => (ul.weight+100)*(i.weight+8)
  | .select c t f => c.weight+t.weight+f.weight+10
  | .concat l r => l.weight+r.weight+1
  | .extract e _ _ => 2*e.weight
  | .not e => e.weight+1
  | .zext e _ => e.weight+1
  | .sext e _ => e.weight+1
  | .binary k l r => k.weight l.width l.weight r.weight

def UpdateList.weight : UpdateList → Nat
  | .root _ => 1
  | .extend next i v => next.weight+i.weight+v.weight
end

attribute [grind =] BinaryKind.weight Expr.weight UpdateList.weight

lemma BinaryKind.lt_weight (k : BinaryKind) (w l r : Nat) : l+r < k.weight w l r := by
  have h : l+r+2 ≤ (w+1)*(l+r+2) := Nat.le_mul_of_pos_left _ (by omega)
  cases k <;> simp only [weight] <;> omega

lemma BinaryKind.weight_mono (k : BinaryKind) {w l r l' r' : Nat} (hl : l' ≤ l)
    (hr : r' ≤ r) : k.weight w l' r' ≤ k.weight w l r := by
  have h : (w+1)*(l'+r'+2) ≤ (w+1)*(l+r+2) := Nat.mul_le_mul_left _ (by omega)
  cases k <;> simp only [weight] <;> omega

lemma Expr.weight_pos : (e : Expr) → 0 < e.weight
  | .constant _ => by simp [weight]
  | .read _ _ => Nat.mul_pos (by omega) (by omega)
  | .select _ _ _ => by grind
  | .concat _ _ => by grind
  | .extract e _ _ => by have := weight_pos e; grind
  | .not _ => by grind
  | .zext _ _ => by grind
  | .sext _ _ => by grind
  | .binary k l r => by
    have := BinaryKind.lt_weight k l.width l.weight r.weight
    grind

/-- What an expression may do under an assignment: the elements it may read and the
divisors it may divide by. A read of a constant array is always inside the array. -/
structure Scope where
  readable : ArrayObj → Nat → Prop
  divisor : Nat → Prop
  constant_lt : ∀ arr i, readable arr i → arr.isConstantArray = true → i < arr.size

def Scope.inBounds : Scope where
  readable arr i := arr.isConstantArray = true → i < arr.size
  divisor _ := True
  constant_lt _ _ h := h

def BinaryKind.guard (k : BinaryKind) (p q : Prop) : Prop :=
  match k with
  | .udiv | .sdiv | .urem | .srem => p ∧ q
  | _ => p

variable {k : BinaryKind}

lemma BinaryKind.guard_left {p q : Prop} (h : k.guard p q) : p := by
  cases k <;> first | exact h | exact h.1

lemma BinaryKind.guard_imp {p q p' q' : Prop} (h : k.guard p q) (hp : p → p')
    (hq : p → q → q') : k.guard p' q' := by
  cases k <;> first | exact hp h | exact ⟨hp h.1,hq h.1 h.2⟩

lemma BinaryKind.guard_of_not_division (hk : k.isDivision = false)
    {p q : Prop} : k.guard p q ↔ p := by
  cases k with
  | udiv | sdiv | urem | srem => cases hk
  | _ => exact Iff.rfl

mutual
/-- Every read and every division is in the scope. Only the branch that a `Select` takes
is read, so a read that is itself a branch is exempt when the branch is not taken; `live`
says whether this expression is taken. -/
def Expr.Defined (S : Scope) (a : Assignment) (live : Bool) : Expr → Prop
  | .constant _ => True
  | .read ul i =>
    ul.Defined S a ∧ i.Defined S a true ∧ (live = true → S.readable ul.getRoot (i.eval a))
  | .select c t f =>
    c.Defined S a true ∧ t.Defined S a (live && decide (c.eval a = 1)) ∧
      f.Defined S a (live && !decide (c.eval a = 1))
  | .concat l r => l.Defined S a true ∧ r.Defined S a true
  | .extract e _ _ => e.Defined S a true
  | .not e => e.Defined S a true
  | .zext e _ => e.Defined S a true
  | .sext e _ => e.Defined S a true
  | .binary k l r => l.Defined S a true ∧ k.guard (r.Defined S a true) (S.divisor (r.eval a))

def UpdateList.Defined (S : Scope) (a : Assignment) : UpdateList → Prop
  | .root _ => True
  | .extend next i v => next.Defined S a ∧ i.Defined S a true ∧ v.Defined S a true
end

abbrev Expr.InBounds (a : Assignment) (live : Bool) (e : Expr) : Prop :=
  e.Defined .inBounds a live

variable {a : Assignment} {b c c' f' l l' r r' s t t' : Expr}

lemma Expr.defined_binary {S : Scope} {live : Bool} (hk : k.isDivision = false) :
    (Expr.binary k l r).Defined S a live ↔ l.Defined S a true ∧ r.Defined S a true := by
  rw [Expr.Defined,BinaryKind.guard_of_not_division hk]

lemma Expr.Defined.mono {S : Scope} :
    {e : Expr} → (live : Bool) → e.Defined S a true → e.Defined S a live
  | .constant _, _, _ => trivial
  | .read _ _, _, h => ⟨h.1,h.2.1,fun _ => h.2.2 rfl⟩
  | .select c t f, false, h => by
    simp only [Defined,Bool.true_and,Bool.false_and] at h ⊢
    refine ⟨h.1,?_,?_⟩
    · cases hc : decide (c.eval a = 1) with
      | false => simpa [hc] using h.2.1
      | true => exact mono false (by simpa [hc] using h.2.1)
    · cases hc : decide (c.eval a = 1) with
      | false => exact mono false (by simpa [hc] using h.2.2)
      | true => simpa [hc] using h.2.2
  | .select _ _ _, true, h => h
  | .concat _ _, _, h => h
  | .extract _ _ _, _, h => h
  | .not _, _, h => h
  | .zext _ _, _, h => h
  | .sext _ _, _, h => h
  | .binary _ _ _, _, h => h

lemma Expr.Defined.of_width {S : Scope} : {e : Expr} → {live : Bool} → e.WF →
    e.width ≠ 8 → e.Defined S a live → e.Defined S a true
  | .constant _, _, _, _, _ => trivial
  | .read _ _, _, _, hw, _ => absurd rfl hw
  | .select c t f, live, hwf, hw, h => by
    obtain ⟨hc,ht,hf⟩ := h
    obtain ⟨-,htw,hfw,-,hww⟩ := hwf
    have ht' : t.Defined S a true := of_width htw hw ht
    have hf' : f.Defined S a true := of_width hfw (by rw [← hww]; exact hw) hf
    exact ⟨hc,ht'.mono _,hf'.mono _⟩
  | .concat _ _, _, _, _, h => h
  | .extract _ _ _, _, _, _, h => h
  | .not _, _, _, _, h => h
  | .zext _ _, _, _, _, h => h
  | .sext _ _, _, _, _, h => h
  | .binary _ _ _, _, _, _, h => h

structure Refines (e r : Expr) : Prop where
  wf : r.WF
  width : r.width = e.width
  weight : r.weight ≤ e.weight
  defined : ∀ {S : Scope} (a : Assignment) (live : Bool), e.Defined S a live → r.Defined S a live
  eval : ∀ {S : Scope} (a : Assignment), e.Defined S a true → r.eval a = e.eval a

structure RefinesOn (A : Assignment → Prop) (S : Scope) (e r : Expr) : Prop where
  wf : r.WF
  width : r.width = e.width
  defined : ∀ a, A a → ∀ live, e.Defined S a live → r.Defined S a live
  eval : ∀ a, A a → e.Defined S a true → r.eval a = e.eval a

def Yields (e : Expr) (o : Option Expr) : Prop := ∃ r, o = some r ∧ Refines e r

variable {e : Expr}

lemma Refines.refl (h : e.WF) : Refines e e := ⟨h,rfl,le_refl _,fun _ _ h => h,fun _ _ => rfl⟩

section RefinesOn
variable {A : Assignment → Prop} {S : Scope}

lemma Refines.on (h : Refines e r) : RefinesOn A S e r where
  wf := h.wf
  width := h.width
  defined a _ live := h.defined a live
  eval a _ := h.eval a

lemma RefinesOn.trans (h₁ : RefinesOn A S e r) (h₂ : RefinesOn A S r s) : RefinesOn A S e s where
  wf := h₂.wf
  width := h₂.width.trans h₁.width
  defined a ha live h := h₂.defined a ha live (h₁.defined a ha live h)
  eval a ha h := (h₂.eval a ha (h₁.defined a ha true h)).trans (h₁.eval a ha h)

lemma RefinesOn.constant (c : APInt) (he : e.WF) (hw : c.width = e.width)
    (h : ∀ a, A a → e.Defined S a true → c.value = e.eval a) : RefinesOn A S e (.constant c) where
  wf := by
    have h1 := e.width_pos he
    have h2 := e.width_lt he
    rw [← hw] at h1 h2
    exact ⟨h1,h2⟩
  width := hw
  defined _ _ _ _ := trivial
  eval := h

lemma RefinesOn.binary (k : BinaryKind) (hl : RefinesOn A S l l')
    (hr : RefinesOn A S r r') (hw : l.width = r.width) :
    RefinesOn A S (.binary k l r) (.binary k l' r') where
  wf := ⟨hl.wf,hr.wf,by rw [hl.width,hr.width,hw]⟩
  width := by simp only [Expr.width,hl.width]
  defined a ha _ h := by
    refine ⟨hl.defined a ha true h.1,BinaryKind.guard_imp h.2 (hr.defined a ha true) fun hr' => ?_⟩
    rw [hr.eval a ha hr']
    exact id
  eval a ha h := by
    simp only [Expr.eval,hl.width,hl.eval a ha h.1,hr.eval a ha (BinaryKind.guard_left h.2)]

lemma RefinesOn.select {f : Expr} (hc : RefinesOn A S c c')
    (ht : RefinesOn A S t t') (hf : RefinesOn A S f f') (hcw : c.width = 1)
    (hw : t.width = f.width) : RefinesOn A S (.select c t f) (.select c' t' f') where
  wf := ⟨hc.wf,ht.wf,hf.wf,hc.width.trans hcw,by rw [ht.width,hf.width,hw]⟩
  width := ht.width
  defined a ha live h := by
    obtain ⟨h1,h2,h3⟩ := h
    refine ⟨hc.defined a ha true h1,?_,?_⟩
    · rw [hc.eval a ha h1]; exact ht.defined a ha _ h2
    · rw [hc.eval a ha h1]; exact hf.defined a ha _ h3
  eval a ha h := by
    obtain ⟨h1,h2,h3⟩ := h
    simp only [Expr.eval,hc.eval a ha h1]
    by_cases hc1 : c.eval a = 1
    · rw [if_pos hc1,if_pos hc1]
      exact ht.eval a ha (by simpa [hc1] using h2)
    · rw [if_neg hc1,if_neg hc1]
      exact hf.eval a ha (by simpa [hc1] using h3)

lemma RefinesOn.concat (hl : RefinesOn A S l l') (hr : RefinesOn A S r r')
    (hw : l.width+r.width < 2^32) : RefinesOn A S (.concat l r) (.concat l' r') where
  wf := ⟨hl.wf,hr.wf,by rw [hl.width,hr.width]; exact hw⟩
  width := by simp only [Expr.width,hl.width,hr.width]
  defined a ha _ h := ⟨hl.defined a ha true h.1,hr.defined a ha true h.2⟩
  eval a ha h := by simp only [Expr.eval,hr.width,hl.eval a ha h.1,hr.eval a ha h.2]

end RefinesOn

lemma Refines.of_on (hw : r.weight ≤ e.weight)
    (h : ∀ S, RefinesOn (fun _ => True) S e r) : Refines e r where
  wf := (h .inBounds).wf
  width := (h .inBounds).width
  weight := hw
  defined a live := (h _).defined a trivial live
  eval a := (h _).eval a trivial

lemma Refines.trans (h₁ : Refines e r) (h₂ : Refines r s) : Refines e s :=
  .of_on (le_trans h₂.weight h₁.weight) fun _ => h₁.on.trans h₂.on

lemma Yields.of_refines (h : Refines e r) : Yields e (some r) := ⟨r,rfl,h⟩

variable {o : Option Expr}

lemma Yields.trans (h₁ : Refines e r) (h₂ : Yields r o) : Yields e o := by
  obtain ⟨s,ho,hs⟩ := h₂
  exact ⟨s,ho,h₁.trans hs⟩

lemma Yields.alloc (h : e.WF) : Yields e (some e) := .of_refines (.refl h)

variable {f : Expr → Option Expr}

lemma Yields.bind {d : Expr}
    (h : Yields d o) (hf : ∀ r, Refines d r → Yields e (f r)) : Yields e (o.bind f) := by
  obtain ⟨r,rfl,hr⟩ := h
  exact hf r hr

lemma Refines.constant (c : APInt) (he : e.WF) (hw : c.width = e.width)
    (h : ∀ {S : Scope} (a : Assignment), e.Defined S a true → c.value = e.eval a) :
    Refines e (.constant c) :=
  .of_on e.weight_pos fun _ => .constant c he hw fun a _ => h a

lemma Refines.binary (k : BinaryKind) (hl : Refines l l')
    (hr : Refines r r') (hw : l.width = r.width) : Refines (.binary k l r) (.binary k l' r') := by
  refine .of_on ?_ fun _ => .binary k hl.on hr.on hw
  simp only [Expr.weight,hl.width]
  exact k.weight_mono hl.weight hr.weight

lemma Yields.bind_right {a : Expr} (hr : Refines e (.binary k a b)) (ho : Yields b o)
    (hf : ∀ z, Refines b z → (Expr.binary k a z).WF → Yields (.binary k a z) (f z)) :
    Yields e (o.bind f) := by
  refine ho.bind fun z hz => ?_
  have hc := Refines.binary k (.refl hr.wf.1) hz hr.wf.2.2
  exact .trans (hr.trans hc) (hf z hz hc.wf)

lemma Yields.bind_left {a : Expr} (hr : Refines e (.binary k a b)) (ho : Yields a o)
    (hf : ∀ z, Refines a z → (Expr.binary k z b).WF → Yields (.binary k z b) (f z)) :
    Yields e (o.bind f) := by
  refine ho.bind fun z hz => ?_
  have hc := Refines.binary k hz (.refl hr.wf.2.1) hr.wf.2.2
  exact .trans (hr.trans hc) (hf z hz hc.wf)

lemma Refines.select {f : Expr} (hc : Refines c c') (ht : Refines t t')
    (hf : Refines f f') (hcw : c.width = 1) (hw : t.width = f.width) :
    Refines (.select c t f) (.select c' t' f') := by
  refine .of_on ?_ fun _ => .select hc.on ht.on hf.on hcw hw
  have h1 := hc.weight
  have h2 := ht.weight
  have h3 := hf.weight
  grind

lemma Refines.concat (hl : Refines l l') (hr : Refines r r')
    (hw : l.width+r.width < 2^32) : Refines (.concat l r) (.concat l' r') := by
  refine .of_on ?_ fun _ => .concat hl.on hr.on hw
  have h1 := hl.weight
  have h2 := hr.weight
  grind

end S2E
