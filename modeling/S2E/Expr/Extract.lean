import S2E.Expr.Refine
import S2E.Lib.Bits

/-!
The folding constructors that move bits around: `ExtractExpr::create`,
`ConcatExpr::create`, `ZExtExpr::create` and `SExtExpr::create`, which call each
other. `none` is a failed assertion.
-/

namespace S2E
open Nat BitVec Refines S2E.Expr

def APInt.Extract (c : APInt) (off w : Nat) : APInt :=
  .ofNat w ((BitVec.ofNat c.width c.value).sshiftRight off).toNat

def APInt.Concat (c d : APInt) : APInt :=
  .ofNat (c.width+d.width) ((c.value <<< d.width) ||| d.value)

def APInt.ZExt (c : APInt) (w : Nat) : APInt := .ofNat w c.value

def APInt.SExt (c : APInt) (w : Nat) : APInt := .ofNat w (sextOrTrunc c.width w c.value)

def APInt.getLimitedValue (c : APInt) : Nat := min c.value (2^64-1)

/-- `Extract_z(0, And_x(ZExt_x(X_y), mask))` is `X` when the mask keeps exactly
the bits of `X` and those are the bits extracted. The mask is read as a 64-bit
value, which is asserted. -/
def SimplifyExtractAndZext (e : Expr) : Option Expr :=
  match e with
  | .extract (.binary .and (.zext X _) (.constant mask)) 0 w =>
    if mask.width ≤ 64 then
      if mask.value = 2^X.width-1 ∧ w = X.width then some X else some e
    else none
  | _ => some e

mutual
/-- The bound on the depth of the calls is `fuel`. The sum of two `unsigned` in the
assertion is taken modulo `2 ^ 32`. -/
def ExtractExpr.createF : Nat → Expr → Nat → Nat → Option Expr
  | 0, _, _, _ => none
  | fuel+1, expr, off, w =>
    if ¬(0 < w ∧ (off+w)%2^32 ≤ expr.width) then none
    else if w = expr.width then some expr
    else
      match expr with
      | .constant c => some (.constant (c.Extract off w))
      | .zext x zew =>
        if x.width = w ∧ off = 0 then some x
        else if w ≤ zew ∧ x.width ≤ w ∧ off = 0 then ZExtExpr.createF fuel x w
        else ExtractExpr.simplifyF fuel (.extract expr off w)
      | .concat l r =>
        if r.width ≤ off then ExtractExpr.createF fuel l (off-r.width) w
        else if (off+w)%2^32 ≤ r.width then ExtractExpr.createF fuel r off w
        else
          (ExtractExpr.createF fuel l 0 (w+off-r.width)).bind fun el =>
            (ExtractExpr.createF fuel r off (r.width-off)).bind fun er =>
              ConcatExpr.createF fuel el er
      | .sext x _ =>
        if off = 0 ∧ w = 8 ∧ x.width = 8 then some x
        else if off = 0 then SExtExpr.createF fuel x w
        else ExtractExpr.simplifyF fuel (.extract expr off w)
      | _ => ExtractExpr.simplifyF fuel (.extract expr off w)

def ExtractExpr.simplifyF : Nat → Expr → Option Expr
  | 0, _ => none
  | fuel+1, ret => (SimplifyExtractAndZext ret).bind (SimplifyExtractLShrF fuel)

/-- `ExtractN(0, LShr(b, c))` becomes `ExtractN(c, b)`. The bound is checked in
64 bits and the offset is then passed as an `unsigned`. -/
def SimplifyExtractLShrF : Nat → Expr → Option Expr
  | 0, _ => none
  | fuel+1, e =>
    match e with
    | .extract (.binary .lshr b (.constant shift)) 0 w =>
      let offset := shift.getLimitedValue
      if offset%8 ≠ 0 then some e
      else if ¬((offset+w)%2^64 ≤ b.width) then some e
      else ExtractExpr.createF fuel b (offset%2^32) w
    | _ => some e

def ConcatExpr.createF : Nat → Expr → Expr → Option Expr
  | 0, _, _ => none
  | fuel+1, l, r =>
    match l, r with
    | .constant c, .constant d => some (.constant (c.Concat d))
    | .constant c, r =>
      if c.isZero then ZExtExpr.createF fuel r (c.width+r.width)
      else some (.concat (.constant c) r)
    | .extract xl ol wl, .extract xr offr wr =>
      if xl = xr ∧ (offr+wr)%2^32 = ol then ExtractExpr.createF fuel xl offr (wl+wr)
      else some (.concat (.extract xl ol wl) (.extract xr offr wr))
    | l, r => some (.concat l r)

def ZExtExpr.createF : Nat → Expr → Nat → Option Expr
  | 0, _, _ => none
  | fuel+1, e, w =>
    if w = e.width then some e
    else if w < e.width then ExtractExpr.createF fuel e 0 w
    else
      match e with
      | .constant c => some (.constant (c.ZExt w))
      | .zext x zw => if zw < w then some (.zext x w) else some (.zext e w)
      | _ => some (.zext e w)

def SExtExpr.createF : Nat → Expr → Nat → Option Expr
  | 0, _, _ => none
  | fuel+1, e, w =>
    if w = e.width then some e
    else if w < e.width then ExtractExpr.createF fuel e 0 w
    else
      match e with
      | .constant c => some (.constant (c.SExt w))
      | _ => some (.sext e w)
end

def ExtractExpr.create (e : Expr) (off w : Nat) : Option Expr :=
  ExtractExpr.createF (6*e.weight+6) e off w

def ConcatExpr.create (l r : Expr) : Option Expr :=
  ConcatExpr.createF (6*(l.weight+r.weight)+6) l r

def ZExtExpr.create (e : Expr) (w : Nat) : Option Expr :=
  ZExtExpr.createF (6*e.weight+7) e w

def SExtExpr.create (e : Expr) (w : Nat) : Option Expr :=
  SExtExpr.createF (6*e.weight+7) e w

def ConcatExpr.createN : List Expr → Option Expr
  | [] => none
  | [kid] => some kid
  | kid :: kids => (ConcatExpr.createN kids).bind (ConcatExpr.create kid)

/-- `SimplifyExtractLShr` does not wrap around on any part of the expression that an
extraction of at most `w` bits could reach, and no mask there is wider than 64 bits. -/
def Expr.shiftSafe (w : Nat) : Expr → Prop
  | .concat l r => l.shiftSafe w ∧ r.shiftSafe w
  | .zext x _ => x.shiftSafe w
  | .sext x _ => x.shiftSafe w
  | .extract x _ _ => x.shiftSafe w
  | .binary .lshr b (.constant shift) =>
    (shift.value%8 = 0 → shift.value < 2^64 → shift.value+w < 2^64) ∧ b.shiftSafe w
  | .binary .and (.zext x _) (.constant mask) => mask.width ≤ 64 ∧ x.shiftSafe w
  | _ => True

variable {e : Expr} {w : Nat} {fuel sw v w' zw : Nat}

lemma Expr.shiftSafe.mono (hw : w' ≤ w) : e.shiftSafe w → e.shiftSafe w' := by
  fun_induction Expr.shiftSafe w e with
  | case1 l r ihl ihr => exact fun h => ⟨ihl h.1,ihr h.2⟩
  | case2 x _ ih => exact ih
  | case3 x _ ih => exact ih
  | case4 x _ _ ih => exact ih
  | case5 b shift ih =>
    intro h
    refine ⟨fun h8 h64 => ?_,ih h.2⟩
    have := h.1 h8 h64
    omega
  | case6 x _ mask ih => exact fun h => ⟨h.1,ih h.2⟩
  | case7 e h1 h2 h3 h4 h5 h6 =>
    intro _
    unfold Expr.shiftSafe
    split <;> simp_all

/-- The same for the extraction of `w` bits at `off` alone. Across the two sides of a
`Concat` the parts may merge again, and all of both sides is asked for. -/
def Expr.extractSafe : Expr → Nat → Nat → Prop
  | .concat l r, off, w =>
    w ≠ l.width+r.width →
      if r.width ≤ off then l.extractSafe (off-r.width) w
      else if off+w ≤ r.width then r.extractSafe off w
      else l.shiftSafe w ∧ r.shiftSafe w
  | .sext x _, off, w => off = 0 → w < x.width → x.extractSafe 0 w
  | .binary .lshr b (.constant shift), off, w =>
    w ≠ b.width → off = 0 → shift.value%8 = 0 → shift.value < 2^64 →
      shift.value+w < 2^64 ∧ (shift.value+w ≤ b.width → b.extractSafe shift.value w)
  | .binary .and (.zext (.extract (.binary .lshr b (.constant shift)) 0 xw) zw) (.constant mask),
      off, w =>
    w ≠ zw → off = 0 → mask.width ≤ 64 ∧ (mask.value = 2^xw-1 → w = xw →
      shift.value%8 = 0 → shift.value < 2^64 →
        shift.value+w < 2^64 ∧ (shift.value+w ≤ b.width → b.extractSafe shift.value w))
  | .binary .and (.zext _ zw) (.constant mask), off, w => w ≠ zw → off = 0 → mask.width ≤ 64
  | _, _, _ => True

variable {off : Nat}

lemma Expr.shiftSafe.extractSafe : e.shiftSafe w → e.extractSafe off w := by
  fun_induction Expr.extractSafe e off w with
  | case1 l r off w ihl ihr =>
    intro hs _
    split
    · exact ihl hs.1
    split
    · exact ihr hs.2
    · exact hs
  | case2 x _ _ _ ih => exact fun hs _ _ => ih hs
  | case3 b shift _ _ ih => exact fun hs _ _ h8 h64 => ⟨hs.1 h8 h64,fun _ => ih hs.2⟩
  | case4 b shift _ _ mask _ _ ih =>
    exact fun hs _ _ => ⟨hs.1,fun _ _ h8 h64 => ⟨hs.2.1 h8 h64,fun _ => ih hs.2.2⟩⟩
  | case5 => exact fun hs _ _ => hs.1
  | case6 => exact fun _ => trivial

lemma Expr.extractSafe.mask {X : Expr} {mask : APInt}
    (h : (binary .and (.zext X zw) (.constant mask)).extractSafe 0 w) (hw : w ≠ zw) :
    mask.width ≤ 64 := by
  unfold extractSafe at h
  split at h <;> simp_all

def SafeYields (e : Expr) (o : Option Expr) : Prop :=
  ∃ r, o = some r ∧ Refines e r ∧ ∀ w, e.shiftSafe w → r.shiftSafe w

variable {o : Option Expr}

lemma SafeYields.yields (h : SafeYields e o) : Yields e o := by
  obtain ⟨r,ho,hr,-⟩ := h
  exact ⟨r,ho,hr⟩

lemma SafeYields.alloc (h : e.WF) : SafeYields e (some e) := ⟨e,rfl,.refl h,fun _ h => h⟩

lemma APInt.Extract_value (c : APInt) (off w : Nat) (h : off+w ≤ c.width) :
    (c.Extract off w).value = (c.value >>> off)%2^w := by
  apply eq_of_testBit_eq
  intro i
  simp only [APInt.Extract,APInt.ofNat_value,testBit_mod_two_pow,testBit_shiftRight,
    testBit_toNat,getLsbD_sshiftRight,getLsbD_ofNat]
  by_cases hi : i < w
  · have h1 : ¬c.width ≤ i := by omega
    have h2 : off+i < c.width := by omega
    simp [hi,h1,h2]
  · simp [hi]

lemma APInt.Concat_value (c d : APInt) :
    (c.Concat d).value = (c.value <<< d.width) ||| d.value := by
  have h : eval (fun _ _ => 0) (.concat (.constant c) (.constant d)) <
      2^(c.width+d.width) := by
    apply or_lt_two_pow
    · rw [Expr.width,Nat.shiftLeft_eq,pow_add]
      exact mul_lt_mul_of_pos_right c.value_lt (Nat.two_pow_pos _)
    · exact lt_of_lt_of_le d.value_lt (Nat.pow_le_pow_right (by decide) (by omega))
  exact mod_eq_of_lt h

lemma APInt.ZExt_value (c : APInt) : (c.ZExt w).value = c.value%2^w := rfl

lemma sextOrTrunc_lt (kw w v : Nat) : sextOrTrunc kw w v < 2^w := isLt _

lemma APInt.SExt_value (c : APInt) : (c.SExt w).value = sextOrTrunc c.width w c.value :=
  mod_eq_of_lt (sextOrTrunc_lt _ _ _)

lemma sextOrTrunc_self (hw : 0 < w) (hv : v < 2^w) : sextOrTrunc w w v = v := by
  apply Bits.eq_of_testBit_lt (sextOrTrunc_lt w w v) hv
  intro i hi
  rw [testBit_sextOrTrunc w w v i hw]
  simp [hi]

lemma Refines.zext_self (he : e.WF) : Refines (.zext e e.width) e where
  wf := he
  width := rfl
  weight := by simp [Expr.weight]
  defined _ live h := Expr.Defined.mono live h
  eval a _ := (mod_eq_of_lt (e.eval_lt a he)).symm

lemma Refines.sext_self (he : e.WF) : Refines (.sext e e.width) e where
  wf := he
  width := rfl
  weight := by simp [Expr.weight]
  defined _ live h := Expr.Defined.mono live h
  eval a _ := (sextOrTrunc_self (e.width_pos he) (e.eval_lt a he)).symm

variable {x : Expr}

lemma Refines.zext_zext (hx : (Expr.zext x w).WF) (hw : w ≤ w')
    (hlt : w' < 2^32) : Refines (.zext (.zext x w) w') (.zext x w') where
  wf := ⟨hx.1,le_trans hx.2.1 hw,hlt⟩
  width := rfl
  weight := by simp [Expr.weight]
  defined _ _ h := h
  eval a _ := by
    have h := lt_of_lt_of_le (x.eval_lt a hx.1) (Nat.pow_le_pow_right (by decide) hx.2.1)
    simp only [Expr.eval,mod_eq_of_lt h]

lemma ZExtExpr.createF_extend (fuel : Nat) (he : e.WF)
    (hw : e.width ≤ w) (hlt : w < 2^32) : SafeYields (.zext e w) (createF (fuel+1) e w) := by
  have hwf : (zext e w).WF := ⟨he,hw,hlt⟩
  unfold createF
  by_cases hwe : w = e.width
  · subst hwe
    rw [if_pos rfl]
    exact ⟨e,rfl,.zext_self he,fun _ h => h⟩
  rw [if_neg hwe,if_neg (by omega)]
  cases e with
  | constant c =>
    exact ⟨_,rfl,.constant _ hwf rfl fun _ _ => rfl,fun _ _ => trivial⟩
  | zext x zw =>
    simp only
    split
    next hzw =>
      exact ⟨_,rfl,.zext_zext he (by omega) hlt,fun _ h => h⟩
    · exact .alloc hwf
  | _ => exact .alloc hwf

lemma SExtExpr.createF_extend (fuel : Nat) (he : e.WF)
    (hw : e.width ≤ w) (hlt : w < 2^32) : SafeYields (.sext e w) (createF (fuel+1) e w) := by
  have hwf : (sext e w).WF := ⟨he,hw,hlt⟩
  unfold createF
  by_cases hwe : w = e.width
  · subst hwe
    rw [if_pos rfl]
    exact ⟨e,rfl,.sext_self he,fun _ h => h⟩
  rw [if_neg hwe,if_neg (by omega)]
  cases e with
  | constant c =>
    exact ⟨_,rfl,.constant _ hwf rfl fun _ _ => c.SExt_value,fun _ _ => trivial⟩
  | _ => exact .alloc hwf

lemma SimplifyExtractAndZext_yields (h : (extract e off w).WF)
    (hs : ∀ (X : Expr) (zw : Nat) (mask : APInt),
      e = .binary .and (.zext X zw) (.constant mask) → off = 0 → mask.width ≤ 64) :
    ∃ r, SimplifyExtractAndZext (.extract e off w) = some r ∧ Refines (.extract e off w) r ∧
      (∀ w, e.shiftSafe w → r.shiftSafe w) ∧
      (r = .extract e off w ∨ off = 0 ∧ ∃ (zw : Nat) (mask : APInt),
        e = .binary .and (.zext r zw) (.constant mask) ∧ mask.value = 2^r.width-1) := by
  have halloc := refl h
  unfold SimplifyExtractAndZext
  split
  next X xw mask w' heq =>
    obtain ⟨rfl,rfl,rfl⟩ : e = .binary .and (.zext X xw) (.constant mask) ∧ off = 0 ∧ w = w' := by
      simpa using heq
    rw [if_pos (hs X xw mask rfl rfl)]
    split
    next hm =>
      obtain ⟨hmask,rfl⟩ := hm
      obtain ⟨⟨⟨hX,hXw,-⟩,-,hmw⟩,-,hw⟩ := h
      refine ⟨X,rfl,⟨hX,rfl,?_,fun a live h => Expr.Defined.mono live h.1,?_⟩,
        fun _ h => h.2,.inr ⟨rfl,xw,mask,rfl,hmask⟩⟩
      · grind
      · intro _ a _
        have hx := X.eval_lt a hX
        have hx' : X.eval a < 2^xw := Nat.lt_of_lt_of_le hx (Nat.pow_le_pow_right (by decide) hXw)
        simp [Expr.eval,Expr.width,mod_eq_of_lt hx',apply_and _ _ _ hx',hmask,mod_eq_of_lt hx]
    · exact ⟨_,rfl,halloc,fun _ h => h,.inl rfl⟩
  · exact ⟨_,rfl,halloc,fun _ h => h,.inl rfl⟩

lemma Refines.extract_lshr {b : Expr} {shift : APInt}
    (h : (extract (.binary .lshr b (.constant shift)) 0 w).WF) (hb : shift.value+w ≤ b.width) :
    Refines (.extract (.binary .lshr b (.constant shift)) 0 w) (.extract b shift.value w) where
  wf := ⟨h.1.1,h.2.1,hb⟩
  width := rfl
  weight := by
    have := BinaryKind.lt_weight .lshr b.width b.weight 1
    grind
  defined _ _ h := h.1
  eval a _ := by
    have hw := h.2.1
    have hx := b.eval_lt a h.1.1
    simp only [Expr.eval,apply_lshr _ _ _ hx]
    rw [if_pos (by omega),shiftRight_zero]

lemma Refines.extract_self (he : e.WF) : Refines (.extract e 0 e.width) e where
  wf := he
  width := rfl
  weight := by grind
  defined _ live h := Expr.Defined.mono live h
  eval a _ := (Bits.slice_self (e.eval_lt a he)).symm

lemma Refines.extract_zext (h : (Expr.extract (.zext x zw) 0 w).WF)
    (hw : x.width ≤ w) : Refines (.extract (.zext x zw) 0 w) (.zext x w) where
  wf := ⟨h.1.1,hw,(width_lt _ h :)⟩
  width := rfl
  weight := by grind
  defined _ _ h := h
  eval a _ := by
    have hx := x.eval_lt a h.1.1
    have h1 := lt_of_lt_of_le hx (Nat.pow_le_pow_right (by decide) h.1.2.1)
    have h2 := lt_of_lt_of_le hx (Nat.pow_le_pow_right (by decide) hw)
    simp [Expr.eval,mod_eq_of_lt h1,mod_eq_of_lt h2]

lemma Refines.extract_sext (h : (extract (.sext x sw) 0 w).WF)
    (hw : x.width ≤ w) : Refines (.extract (.sext x sw) 0 w) (.sext x w) where
  wf := ⟨h.1.1,hw,(width_lt _ h :)⟩
  width := rfl
  weight := by grind
  defined _ _ h := h
  eval a _ := by
    have hx := x.width_pos h.1.1
    have hsw : 0+w ≤ sw := h.2.2
    simp only [Expr.eval]
    apply eq_of_testBit_eq
    intro i
    rw [Bits.testBit_slice,testBit_sextOrTrunc _ _ _ _ hx,testBit_sextOrTrunc _ _ _ _ hx]
    by_cases hi : i < w
    · have : i < sw := by omega
      simp [hi,this]
    · simp [hi]

lemma Refines.extract_sext_low (h : (extract (.sext x sw) 0 w).WF) (hw : w ≤ x.width) :
    Refines (.extract (.sext x sw) 0 w) (.extract x 0 w) where
  wf := ⟨h.1.1,h.2.1,by omega⟩
  width := rfl
  weight := by grind
  defined _ _ h := h
  eval a _ := by
    have hx := x.width_pos h.1.1
    have hsw : 0+w ≤ sw := h.2.2
    simp only [Expr.eval]
    apply eq_of_testBit_eq
    intro i
    rw [Bits.testBit_slice,Bits.testBit_slice,testBit_sextOrTrunc _ _ _ _ hx]
    by_cases hi : i < w
    · have h1 : i < sw := by omega
      have h2 : i < x.width := by omega
      simp [hi,h1,h2]
    · simp [hi]

variable {l r : Expr}

lemma Refines.extract_concat_left (h : (extract (.concat l r) off w).WF) (ho : r.width ≤ off) :
    Refines (.extract (.concat l r) off w) (.extract l (off-r.width) w) where
  wf := by
    obtain ⟨⟨hl,-,-⟩,hw,hle⟩ := h
    simp only [Expr.width] at hle
    exact ⟨hl,hw,by omega⟩
  width := rfl
  weight := by grind
  defined _ _ h := h.1
  eval a _ := (Bits.slice_append_high _ _ _ (r.eval_lt a h.1.2.1) ho).symm

lemma Refines.extract_concat_right (h : (extract (.concat l r) off w).WF) (ho : off+w ≤ r.width) :
    Refines (.extract (.concat l r) off w) (.extract r off w) where
  wf := ⟨h.1.2.1,h.2.1,ho⟩
  width := rfl
  weight := by grind
  defined _ _ h := h.2
  eval a _ := (Bits.slice_append_low _ _ _ (r.eval_lt a h.1.2.1) ho).symm

lemma Refines.extract_concat
    (h : (extract (.concat l r) off w).WF) (h₁ : off < r.width) (h₂ : r.width < off+w) :
    Refines (.extract (.concat l r) off w)
      (.concat (.extract l 0 (w+off-r.width)) (.extract r off (r.width-off))) where
  wf := by
    have hlt := width_lt _ h
    obtain ⟨⟨hl,hr,-⟩,hw,hle⟩ := h
    simp only [Expr.width] at hle hlt
    exact ⟨⟨hl,by omega,by omega⟩,⟨hr,by omega,by omega⟩,by simp only [Expr.width]; omega⟩
  width := by simp only [Expr.width]; omega
  weight := by grind
  defined _ _ h := h
  eval a _ := by
    simp only [Expr.eval,Expr.width]
    exact (Bits.slice_append_split _ _ _ (r.eval_lt a h.1.2.1) h₁ h₂).symm

lemma Refines.concat_extract {w₁ w₂ : Nat}
    (h : (Expr.concat (.extract e (off+w₂) w₁) (.extract e off w₂)).WF) :
    Refines (.concat (.extract e (off+w₂) w₁) (.extract e off w₂)) (.extract e off (w₁+w₂)) where
  wf := by
    obtain ⟨⟨he,h1,h2⟩,⟨-,h3,-⟩,-⟩ := h
    exact ⟨he,by omega,by omega⟩
  width := rfl
  weight := by grind
  defined _ _ h := h.1
  eval a _ := (Bits.append_slice _ _ _ _).symm

def ConcatExpr.mergeSafe : Expr → Expr → Prop
  | .extract xl ol wl, .extract xr offr wr =>
    xl = xr → (offr+wr)%2^32 = ol → xl.extractSafe offr (wl+wr)
  | _, _ => True

lemma ConcatExpr.mergeSafe_of_shiftSafe (h : l.shiftSafe (l.width+r.width)) : mergeSafe l r := by
  unfold mergeSafe
  split
  · exact fun _ _ => shiftSafe.extractSafe h
  · trivial

lemma ConcatExpr.createF_yields (h : (concat l r).WF) (hs : mergeSafe l r)
    (ih : ∀ {x : Expr} {off : Nat}, (extract x off (l.width+r.width)).WF →
      x.extractSafe off (l.width+r.width) → 2*x.weight ≤ l.weight →
        SafeYields (.extract x off (l.width+r.width))
          (ExtractExpr.createF (fuel+1) x off (l.width+r.width))) :
    SafeYields (.concat l r) (createF (fuel+2) l r) := by
  unfold createF
  split
  next c d =>
    exact ⟨_,rfl,.constant _ h rfl fun _ _ => c.Concat_value d,fun _ _ => trivial⟩
  next c _ =>
    split
    next hc =>
      have hz : c.value = 0 := by simpa [APInt.isZero] using hc
      obtain ⟨z,hz1,hz2,hz3⟩ :=
        ZExtExpr.createF_extend fuel h.2.1 (le_add_left r.width c.width) h.2.2
      refine ⟨z,hz1,.trans ?_ hz2,fun w hw => hz3 w hw.2⟩
      refine ⟨⟨h.2.1,by omega,h.2.2⟩,rfl,by grind,fun _ _ h => h.2,fun a _ => ?_⟩
      have hlt := lt_of_lt_of_le (r.eval_lt a h.2.1)
        (Nat.pow_le_pow_right (by decide) (le_add_left _ c.width))
      simp [Expr.eval,hz,mod_eq_of_lt hlt]
    · exact .alloc h
  next xl ol wl xr offr wr =>
    split
    next hm =>
      obtain ⟨rfl,hol⟩ := hm
      have hlt := xl.width_lt h.1.1
      have hle := h.2.1.2.2
      have hxs := hs rfl hol
      rw [mod_eq_of_lt (by omega)] at hol
      subst hol
      obtain ⟨z,hz1,hz2,hz3⟩ := ih (concat_extract h).wf hxs
        (by grind)
      exact ⟨z,hz1,(concat_extract h).trans hz2,fun w hw => hz3 w hw.1⟩
    · exact .alloc h
  · exact .alloc h

lemma SimplifyExtractLShrF_yields (h : e.WF) (hcall : ∀ (b : Expr) (shift : APInt) (w : Nat),
      e = .extract (.binary .lshr b (.constant shift)) 0 w → shift.value%8 = 0 →
        shift.value < 2^64 → shift.value+w < 2^64 ∧
          ((extract b shift.value w).WF → SafeYields (.extract b shift.value w)
            (ExtractExpr.createF fuel b shift.value w))) :
    SafeYields e (SimplifyExtractLShrF (fuel+1) e) := by
  unfold SimplifyExtractLShrF
  split
  next b shift w =>
    have hwl := width_lt _ h
    have hbl := b.width_lt h.1.1
    simp only
    split
    · exact .alloc h
    rename_i h8
    split
    · exact .alloc h
    rename_i hle
    have h64 : shift.value < 2^64 := by
      by_contra h64
      have hl : shift.getLimitedValue = 2^64-1 := by
        simp only [APInt.getLimitedValue]; omega
      rw [hl] at h8
      exact absurd (by decide) h8
    have hl : shift.getLimitedValue = shift.value := by
      simp only [APInt.getLimitedValue]; omega
    rw [hl] at h8 hle ⊢
    obtain ⟨hsum,hyield⟩ := hcall b shift w rfl (by omega) h64
    have href := extract_lshr h (by omega)
    rw [mod_eq_of_lt (by omega)]
    obtain ⟨z,hz1,hz2,hz3⟩ := hyield href.wf
    exact ⟨z,hz1,href.trans hz2,fun w' hw => hz3 w' hw.2⟩
  · exact .alloc h

lemma SafeYields.trans {e : Expr} (h₁ : Refines e r)
    (hs : ∀ w, e.shiftSafe w → r.shiftSafe w) (h₂ : SafeYields r o) : SafeYields e o := by
  obtain ⟨s,ho,hr,hs'⟩ := h₂
  exact ⟨s,ho,h₁.trans hr,fun w hw => hs' w (hs w hw)⟩

lemma ExtractExpr.createF_yields : (fuel : Nat) → {e : Expr} → {off w : Nat} →
    (extract e off w).WF → (w ≠ e.width → e.extractSafe off w) → 6*e.weight+6 ≤ fuel →
      SafeYields (.extract e off w) (createF fuel e off w) := by
  intro fuel
  induction fuel using Nat.strongRecOn with
  | ind n ih =>
    intro e off w h hs hn
    obtain ⟨fuel,rfl⟩ : ∃ k, n = k+4 := ⟨n-4,by omega⟩
    have hlt := e.width_lt h.1
    have hle := h.2.2
    unfold createF
    rw [if_neg (by rw [mod_eq_of_lt (by omega)]; exact not_not.mpr ⟨h.2.1,hle⟩)]
    by_cases hwe : w = e.width
    · obtain rfl : off = 0 := by omega
      subst hwe
      rw [if_pos rfl]
      exact ⟨e,rfl,.extract_self h.1,fun _ h => h⟩
    rw [if_neg hwe]
    replace hs := hs hwe
    -- the end of the function, reached from several branches
    have htail : SafeYields (.extract e off w) (simplifyF (fuel+3) (.extract e off w)) := by
      obtain ⟨r,hr1,hr2,hr3,hr4⟩ := SimplifyExtractAndZext_yields h (by
        rintro X zw mask rfl rfl
        exact extractSafe.mask hs hwe)
      unfold simplifyF
      rw [hr1]
      refine .trans hr2 hr3 (SimplifyExtractLShrF_yields hr2.wf ?_)
      rintro b shift w' rfl h8 h64
      have hrw : w' = w := hr2.width
      subst hrw
      have hwt : b.weight < e.weight := by
        have := BinaryKind.lt_weight .lshr b.width b.weight 1
        have := hr2.weight
        grind
      obtain ⟨hsum,hb⟩ : shift.value+w' < 2^64 ∧
          (shift.value+w' ≤ b.width → b.extractSafe shift.value w') := by
        rcases hr4 with hr4 | ⟨rfl,zw,mask,rfl,hm⟩
        · obtain ⟨rfl,rfl⟩ : e = .binary .lshr b (.constant shift) ∧ off = 0 := by
            simpa [eq_comm] using hr4
          exact hs hwe rfl h8 h64
        · exact (hs hwe rfl).2 hm rfl h8 h64
      exact ⟨hsum,fun hwf => ih (fuel+1) (by omega) hwf (fun _ => hb hwf.2.2) (by omega)⟩
    cases e with
    | constant c =>
      exact ⟨_,rfl,.constant _ h rfl fun _ _ => c.Extract_value off w hle,fun _ _ => trivial⟩
    | zext x zw =>
      simp only
      split
      next hx =>
        obtain ⟨rfl,rfl⟩ := hx
        exact ⟨x,rfl,(extract_zext h le_rfl).trans (.zext_self h.1.1),fun _ h => h⟩
      split
      next hx =>
        obtain ⟨-,hxw,rfl⟩ := hx
        have href := extract_zext h hxw
        exact .trans href (fun _ h => h) (ZExtExpr.createF_extend _ h.1.1 hxw href.wf.2.2)
      · exact htail
    | sext x sw =>
      have hx := h.1.1
      simp only [Expr.weight] at hn
      simp only
      split
      next hx8 =>
        obtain ⟨rfl,rfl,hx8⟩ := hx8
        have hself := extract_self hx
        rw [hx8] at hself
        exact ⟨x,rfl,(extract_sext_low h (by omega)).trans hself,fun _ h => h⟩
      · split
        next hoff =>
          subst hoff
          by_cases hxw : x.width ≤ w
          · have href := extract_sext h hxw
            exact .trans href (fun _ h => h) (SExtExpr.createF_extend _ hx hxw href.wf.2.2)
          have href := extract_sext_low h (by omega)
          unfold SExtExpr.createF
          rw [if_neg (by omega),if_pos (by omega)]
          exact .trans href (fun _ h => h)
            (ih (fuel+2) (by omega) href.wf (fun _ => hs rfl (by omega)) (by omega))
        · exact htail
    | concat l r =>
      replace hs := hs hwe
      have hwl := l.weight_pos
      have hwr := r.weight_pos
      simp only [Expr.weight] at hn
      simp only
      split
      next hoff =>
        have href := extract_concat_left h hoff
        rw [if_pos hoff] at hs
        exact .trans href (fun _ h => h.1)
          (ih (fuel+3) (by omega) href.wf (fun _ => hs) (by omega))
      next hoff =>
        rw [mod_eq_of_lt (by omega)]
        split
        next hr =>
          have href := extract_concat_right h hr
          rw [if_neg hoff,if_pos hr] at hs
          exact .trans href (fun _ h => h.2)
            (ih (fuel+3) (by omega) href.wf (fun _ => hs) (by omega))
        next hr =>
          have href := extract_concat h (by omega) (by omega)
          obtain ⟨hl,hrr,hlr⟩ := href.wf
          rw [if_neg hoff,if_neg hr] at hs
          obtain ⟨el,hel1,hel2,hel3⟩ := ih (fuel+3) (by omega) hl
            (fun _ => (hs.1.mono (by omega)).extractSafe) (by omega)
          obtain ⟨er,her1,her2,her3⟩ := ih (fuel+3) (by omega) hrr
            (fun _ => (hs.2.mono (by omega)).extractSafe) (by omega)
          have hcat := hel2.concat her2 hlr
          have hcw : el.width+er.width = w := by
            rw [hel2.width,her2.width]; simp only [Expr.width]; omega
          have helw := hel2.weight
          simp only [Expr.weight] at helw
          rw [hel1,Option.bind_some,her1,Option.bind_some]
          refine .trans (href.trans hcat) (fun w h => ⟨hel3 w h.1,her3 w h.2⟩)
            (ConcatExpr.createF_yields hcat.wf
              (ConcatExpr.mergeSafe_of_shiftSafe (by rw [hcw]; exact hel3 w hs.1)) ?_)
          intro x o hx hxs hxw
          exact ih (fuel+2) (by omega) hx (fun _ => hxs) (by omega)
    | _ => exact htail

lemma ExtractExpr.create_yields (h : (extract e off w).WF)
    (hs : w ≠ e.width → e.extractSafe off w) : SafeYields (.extract e off w) (create e off w) :=
  createF_yields _ h hs le_rfl

lemma ConcatExpr.create_yields (h : (concat l r).WF) (hs : mergeSafe l r) :
    SafeYields (.concat l r) (create l r) := by
  have hl := l.weight_pos
  have hr := r.weight_pos
  unfold create
  obtain ⟨fuel,hf⟩ : ∃ k, 6*(l.weight+r.weight)+6 = k+2 :=
    ⟨6*(l.weight+r.weight)+4,rfl⟩
  rw [hf]
  refine createF_yields h hs ?_
  intro x off hx hxs hxw
  exact ExtractExpr.createF_yields _ hx (fun _ => hxs) (by omega)

lemma ZExtExpr.create_yields (h : (zext e w).WF) : SafeYields (.zext e w) (create e w) :=
  createF_extend _ h.1 h.2.1 h.2.2

lemma SExtExpr.create_yields (h : (sext e w).WF) : SafeYields (.sext e w) (create e w) :=
  createF_extend _ h.1 h.2.1 h.2.2

lemma ZExtExpr.create_trunc (h : w < e.width) : create e w = ExtractExpr.create e 0 w := by
  unfold create createF
  rw [if_neg (by omega),if_pos h]
  rfl

lemma SExtExpr.create_trunc (h : w < e.width) : create e w = ExtractExpr.create e 0 w := by
  unfold create createF
  rw [if_neg (by omega),if_pos h]
  rfl

def concatN : List Expr → Expr
  | [] => ConstantExpr.alloc 0 1
  | [kid] => kid
  | kid :: kids => .concat kid (concatN kids)

lemma ConcatExpr.createN_yields : (kids : List Expr) → kids ≠ [] →
    (∀ k ∈ kids, k.shiftSafe w) → (concatN kids).WF → (concatN kids).width ≤ w →
      SafeYields (concatN kids) (createN kids)
  | [kid], _, _, hwf, _ => .alloc hwf
  | kid :: k :: ks, _, hs, hwf, hw => by
    obtain ⟨r,hr1,hr2,hr3⟩ := createN_yields (k :: ks) (by simp)
      (fun x hx => hs x (List.mem_cons_of_mem _ hx)) hwf.2.1
      (le_trans (le_add_left _ kid.width) hw)
    have hcat := (refl hwf.1).concat hr2 hwf.2.2
    have hsafe : mergeSafe kid r := by
      apply mergeSafe_of_shiftSafe
      refine shiftSafe.mono ?_ (hs kid (by simp))
      rw [hr2.width]
      exact hw
    rw [createN,hr1,Option.bind_some]
    · exact .trans hcat (fun w h => ⟨h.1,hr3 w h.2⟩) (create_yields hcat.wf hsafe)
    · simp

end S2E
