import S2E.Expr.Extract

/-!
The folding constructors of the bitwise connectives: `NotExpr::create`,
`AndExpr::create` and `OrExpr::create`, with the pattern of an unaligned memory
read that the last one recognises.
-/

namespace S2E
open List Option BinaryKind Refines S2E.Expr Bool

def APInt.binary (k : BinaryKind) (c d : APInt) : APInt :=
  .ofNat (if k.isCompare then 1 else c.width) (k.apply c.width c.value d.value)

def APInt.Not (c : APInt) : APInt := .ofNat c.width (~~~ BitVec.ofNat c.width c.value).toNat

def NotExpr.create : Expr → Expr
  | .constant c => .constant c.Not
  | e => .not e

def Expr.absorbed (k : BinaryKind) (e x : Expr) : Option Expr :=
  match e with
  | .binary k' p q =>
    if k' = k then
      if p.isNegationOf x then some q else if q.isNegationOf x then some p else none
    else none
  | _ => none

variable {k : BinaryKind}

lemma Expr.absorbed_size {e x b : Expr} (h : e.absorbed k x = some b) : b.size < e.size := by
  unfold absorbed at h
  split at h
  · split at h
    · split at h
      · cases h; grind
      · split at h
        · cases h; grind
        · cases h
    · cases h
  · cases h

mutual
def AndExpr.create (l r : Expr) : Expr :=
  match l, r with
  | .constant cl, .constant cr => .constant (cl.binary .and cr)
  | .constant cl, r => AndExpr_createPartial r cl
  | l, .constant cr => AndExpr_createPartial l cr
  | l, r => AndExpr_create l r
termination_by 2*(l.size+r.size)+1
decreasing_by all_goals first | (simp only [size]; omega) | omega

def AndExpr_createPartial (l : Expr) (cr : APInt) : Expr :=
  if cr.isAllOnes then l
  else if cr.isZero then .constant cr
  else
    match l with
    | .binary .or a (.constant b) =>
      if (cr.binary .and b).isZero then AndExpr.create a (.constant cr)
      else .binary .and l (.constant cr)
    | .binary .and a (.constant c2) => AndExpr.create a (.constant (cr.binary .and c2))
    | _ => .binary .and l (.constant cr)
termination_by 2*(l.size+1)
decreasing_by all_goals simp only [size]; omega

def AndExpr_create (l r : Expr) : Expr :=
  if l.isNegationOf r then ConstantExpr.alloc 0 1
  else
    match _hl : l.absorbed .or r with
    | some b => AndExpr.create b r
    | none =>
      match _hr : r.absorbed .or l with
      | some b => AndExpr.create l b
      | none => .binary .and l r
termination_by 2*(l.size+r.size)
decreasing_by
  · have := absorbed_size _hl; omega
  · have := absorbed_size _hr; omega
end

/-- The upper bytes of an unaligned read: `n` bytes of `a` from the top. The offset
`w - 8 - s - i` is computed in 64 bits and passed as an `unsigned`. -/
def unalignedHigh (a : Expr) (w s : Nat) : Nat → Nat → Option (List Expr)
  | 0, _ => some []
  | n+1, i =>
    (ExtractExpr.create a ((2^65+w-8-s-i)%2^32) 8).bind fun e =>
      (unalignedHigh a w s n (i+8)).map (e :: ·)

def unalignedLow (b : Expr) (s : Nat) : Nat → Option (List Expr)
  | 0 => some []
  | n+1 =>
    (ExtractExpr.create b (s+8*n) 8).bind fun e => (unalignedLow b s n).map (e :: ·)

/-- `SimplifyUnalignedReadPattern` once the shape `or(shl(a, s1), lshr(b, s2))` is
found. The shift amounts are read as 64-bit values, which is asserted, and added
in 64 bits. -/
def unalignedRead (ret a b : Expr) (s1 s2 : APInt) : Option Expr :=
  if ¬s1.width ≤ 64 then none
  else if s1.value%8 ≠ 0 ∨ s2.value%8 ≠ 0 then some ret
  else if (s1.value+s2.value)%2^64 ≠ ret.width then some ret
  else
    (unalignedHigh a ret.width s1.value ((2^64+ret.width-s1.value)%2^64/8) 0).bind
      fun high =>
        (unalignedLow b s2.value ((ret.width-s2.value)/8)).bind fun low =>
          ConcatExpr.createN (high ++ low)

def SimplifyUnalignedReadPattern (e : Expr) : Option Expr :=
  match e with
  | .binary .or (.binary .shl a (.constant s1)) (.binary .lshr b (.constant s2)) =>
    unalignedRead e a b s1 s2
  | .binary .or (.binary .lshr b (.constant s2)) (.binary .shl a (.constant s1)) =>
    unalignedRead e a b s1 s2
  | _ => some e

mutual
def OrExpr.create (l r : Expr) : Option Expr :=
  match l, r with
  | .constant cl, .constant cr => some (.constant (cl.binary .or cr))
  | .constant cl, r => OrExpr_createPartial r cl
  | l, .constant cr => OrExpr_createPartial l cr
  | l, r => OrExpr_create l r
termination_by 2*(l.size+r.size)+1
decreasing_by all_goals first | (simp only [size]; omega) | omega

def OrExpr_createPartial (l : Expr) (cr : APInt) : Option Expr :=
  if cr.isAllOnes then some (.constant cr)
  else if cr.isZero then some l
  else
    match l with
    | .binary .or a (.constant const2) => OrExpr.create a (.constant (cr.binary .or const2))
    | _ => some (.binary .or l (.constant cr))
termination_by 2*(l.size+1)
decreasing_by all_goals simp only [size]; omega

def OrExpr_create (l r : Expr) : Option Expr :=
  if l.isNegationOf r then some (ConstantExpr.alloc 1 1)
  else
    match _hl : l.absorbed .and r with
    | some b => OrExpr.create b r
    | none =>
      match _hr : r.absorbed .and l with
      | some b => OrExpr.create l b
      | none => SimplifyUnalignedReadPattern (.binary .or l r)
termination_by 2*(l.size+r.size)
decreasing_by
  · have := absorbed_size _hl; omega
  · have := absorbed_size _hr; omega
end

lemma BinaryKind.weight_comm (k : BinaryKind) (w l r : Nat) :
    k.weight w l r = k.weight w r l := by
  cases k <;> simp only [weight,Nat.add_comm l r]

lemma BinaryKind.not_division_of_comm
    (hk : ∀ w x y, k.apply w x y = k.apply w y x) : k.isDivision = false := by
  cases k with
  | udiv | sdiv | urem | srem => exact absurd (hk 3 2 1) (by decide)
  | _ => rfl

variable {l r : Expr}

lemma Refines.swap (h : (Expr.binary k l r).WF) (hk : ∀ w x y, k.apply w x y = k.apply w y x) :
    Refines (.binary k l r) (.binary k r l) where
  wf := ⟨h.2.1,h.1,h.2.2.symm⟩
  width := by simp only [Expr.width,h.2.2]
  weight := by simp only [Expr.weight,h.2.2,k.weight_comm _ r.weight,le_refl]
  defined _ _ hb := by
    have hd := not_division_of_comm hk
    rw [defined_binary hd] at hb ⊢
    exact hb.symm
  eval a _ := by simp only [Expr.eval,h.2.2,hk _ (r.eval a)]

lemma apply_and_comm (w x y : Nat) : and.apply w x y = and.apply w y x := by
  simp only [apply,BitVec.and_comm]

lemma apply_or_comm (w x y : Nat) : or.apply w x y = or.apply w y x := by
  simp only [apply,BitVec.or_comm]

lemma APInt.binary_value (k : BinaryKind) (c d : APInt) :
    (c.binary k d).value = k.apply c.width c.value d.value :=
  Nat.mod_eq_of_lt (k.apply_lt c.width c.value d.value)

variable {c : APInt} {cr d : APInt}

lemma Refines.fold (h : (Expr.binary k (.constant c) (.constant d)).WF) :
    Refines (.binary k (.constant c) (.constant d)) (.constant (c.binary k d)) :=
  .constant _ h rfl fun _ _ => APInt.binary_value k c d

lemma NotExpr.create_refines {e : Expr} (h : e.WF) : Refines (.not e) (create e) := by
  cases e with
  | constant c => exact .constant _ h rfl fun _ _ => Nat.mod_eq_of_lt (BitVec.isLt _)
  | _ => exact .refl h

lemma Expr.isIsZeroOf_eval {e x : Expr} (he : e.WF) (h : e.isIsZeroOf x) :
    e.width = 1 ∧ ∀ a : Assignment, e.eval a = if x.eval a = 0 then 1 else 0 := by
  unfold isIsZeroOf at h
  split at h
  next l r =>
    simp only [and_eq_true,decide_eq_true_eq] at h
    obtain ⟨hl,rfl⟩ := h
    unfold isZero at hl
    split at hl
    next c =>
      have hc : c.value = 0 := by simpa [APInt.isZero] using hl
      have hw : c.width = r.width := he.2.2
      refine ⟨rfl,fun a => ?_⟩
      have hr := r.eval_lt a he.2.1
      simp only [eval,width,hc]
      rw [apply_eq _ _ _ (Nat.two_pow_pos _) (by rw [hw]; exact hr)]
      simp only [eq_comm]
    · cases hl
  · cases h

lemma Expr.isNegationOf_eval (hl : l.WF) (hr : r.WF) (hw : l.width = r.width)
    (h : l.isNegationOf r) : l.width = 1 ∧ ∀ a : Assignment, l.eval a+r.eval a = 1 := by
  unfold isNegationOf at h
  rw [or_eq_true] at h
  rcases h with h | h
  · obtain ⟨h1,h2⟩ := isIsZeroOf_eval hl h
    refine ⟨h1,fun a => ?_⟩
    rcases r.eval_bool a hr (hw ▸ h1) with h3 | h3 <;> simp [h2,h3]
  obtain ⟨h1,h2⟩ := isIsZeroOf_eval hr h
  refine ⟨hw.trans h1,fun a => ?_⟩
  rcases l.eval_bool a hl (hw.trans h1) with h3 | h3 <;> simp [h2,h3]

lemma Refines.negated {v : Nat} (h : (Expr.binary k l r).WF) (hn : l.isNegationOf r)
    (h01 : (APInt.ofNat 1 v).value = k.apply 1 0 1)
    (h10 : (APInt.ofNat 1 v).value = k.apply 1 1 0) :
    Refines (.binary k l r) (ConstantExpr.alloc v 1) := by
  obtain ⟨hw,hneg⟩ := isNegationOf_eval h.1 h.2.1 h.2.2 hn
  refine .constant _ h (by simp [Expr.width,hw]) fun a _ => ?_
  have := hneg a
  rw [Expr.eval,hw]
  obtain ⟨h1,h2⟩ | ⟨h1,h2⟩ : l.eval a = 0 ∧ r.eval a = 1 ∨ l.eval a = 1 ∧ r.eval a = 0 := by
    omega
  · rw [h1,h2,h01]
  · rw [h1,h2,h10]

lemma Expr.absorbed_spec {e x b : Expr} (hk : k.isCompare = false)
    (he : e.WF) (hx : x.WF) (hw : e.width = x.width) (h : e.absorbed k x = some b) :
    ∃ n : Expr, n.WF ∧ b.WF ∧ b.width = 1 ∧ x.width = 1 ∧ n.width = 1 ∧
      (e = .binary k n b ∨ e = .binary k b n) ∧ ∀ a : Assignment, n.eval a+x.eval a = 1 := by
  unfold absorbed at h
  split at h
  next k' p q =>
    split at h
    next hkk =>
      subst hkk
      simp only [width,hk,false_eq_true,if_false] at hw
      split at h
      next hn =>
        cases h
        obtain ⟨h1,h2⟩ := isNegationOf_eval he.1 hx hw hn
        exact ⟨p,he.1,he.2.1,he.2.2 ▸ h1,hw ▸ h1,h1,.inl rfl,h2⟩
      split at h
      next hn =>
        cases h
        obtain ⟨h1,h2⟩ := isNegationOf_eval he.2.1 hx (he.2.2 ▸ hw) hn
        exact ⟨q,he.2.1,he.1,he.2.2 ▸ h1,hw ▸ he.2.2 ▸ h1,h1,.inr rfl,h2⟩
      · cases h
    · cases h
  · cases h

section Absorb

/-! The two absorption laws are dual; `k` is the connective and `inner` its dual. -/

variable {k inner : BinaryKind} {l r b : Expr}

lemma Refines.absorb_left (hk : ∀ n b x, n+x = 1 → b < 2^1 →
      k.apply 1 (inner.apply 1 n b) x = k.apply 1 b x)
    (hcomm : ∀ w x y, inner.apply w x y = inner.apply w y x) (hin : inner.isCompare = false)
    (h : (Expr.binary k l r).WF) (hb : l.absorbed inner r = some b) :
    Refines (.binary k l r) (.binary k b r) := by
  obtain ⟨n,hn,hbw,hb1,hr1,hn1,hl,hneg⟩ := absorbed_spec hin h.1 h.2.1 h.2.2 hb
  have hlw : l.width = 1 := h.2.2.trans hr1
  have hwt : b.weight ≤ l.weight := by
    have h1 := lt_weight inner 1 n.weight b.weight
    have h2 := lt_weight inner 1 b.weight n.weight
    rcases hl with rfl | rfl <;> simp only [Expr.weight,hn1,hb1] <;> omega
  refine ⟨⟨hbw,h.2.1,hb1.trans hr1.symm⟩,by simp only [Expr.width,hlw,hb1],?_,?_,?_⟩
  · simp only [Expr.weight,hlw,hb1]
    exact k.weight_mono hwt le_rfl
  · rintro _ a live ⟨hla,hra⟩
    refine ⟨?_,hra⟩
    rcases hl with rfl | rfl
    · exact guard_left hla.2
    · exact hla.1
  · intro _ a _
    have hba := b.eval_lt a hbw
    rw [hb1] at hba
    have hle : l.eval a = inner.apply 1 (n.eval a) (b.eval a) := by
      rcases hl with rfl | rfl
      · simp only [Expr.eval,hn1]
      · simp only [Expr.eval,hb1,hcomm 1 (b.eval a)]
    simp only [Expr.eval,hlw,hb1,hle,hk _ _ _ (hneg a) hba]

lemma Refines.absorb_right (hk : ∀ n b x, n+x = 1 → b < 2^1 →
      k.apply 1 (inner.apply 1 n b) x = k.apply 1 b x)
    (hcomm : ∀ w x y, inner.apply w x y = inner.apply w y x) (hin : inner.isCompare = false)
    (hkc : ∀ w x y, k.apply w x y = k.apply w y x)
    (h : (Expr.binary k l r).WF) (hb : r.absorbed inner l = some b) :
    Refines (.binary k l r) (.binary k l b) := by
  have h1 := swap h hkc
  have h2 := absorb_left hk hcomm hin h1.wf hb
  exact (h1.trans h2).trans (.swap h2.wf hkc)

end Absorb

lemma and_or_absorb (n b x : Nat) (h : n+x = 1) (hb : b < 2^1) :
    and.apply 1 (or.apply 1 n b) x = and.apply 1 b x := by
  obtain ⟨rfl,rfl⟩ | ⟨rfl,rfl⟩ : n = 0 ∧ x = 1 ∨ n = 1 ∧ x = 0 := by omega
  all_goals
    obtain rfl | rfl : b = 0 ∨ b = 1 := by omega
    all_goals decide

lemma or_and_absorb (n b x : Nat) (h : n+x = 1) (hb : b < 2^1) :
    or.apply 1 (and.apply 1 n b) x = or.apply 1 b x := by
  obtain ⟨rfl,rfl⟩ | ⟨rfl,rfl⟩ : n = 0 ∧ x = 1 ∨ n = 1 ∧ x = 0 := by omega
  all_goals
    obtain rfl | rfl : b = 0 ∨ b = 1 := by omega
    all_goals decide

lemma Refines.binary_unit {l : Expr}
    (h : (Expr.binary k l (.constant c)).WF) (hk : k.isCompare = false)
    (hu : ∀ x, x < 2^c.width → k.apply c.width x c.value = x) :
    Refines (.binary k l (.constant c)) l where
  wf := h.1
  width := by simp [Expr.width,hk]
  weight := by
    have := lt_weight k l.width l.weight 1
    grind
  defined _ live hb := Expr.Defined.mono live hb.1
  eval a _ := by
    have hw : l.width = c.width := h.2.2
    have hl := l.eval_lt a h.1
    rw [hw] at hl
    simp only [Expr.eval,hw,hu _ hl]

lemma Refines.binary_zero {l : Expr}
    (h : (Expr.binary k l (.constant c)).WF) (hk : k.isCompare = false)
    (hz : ∀ x, x < 2^c.width → k.apply c.width x c.value = c.value) :
    Refines (.binary k l (.constant c)) (.constant c) := by
  have hw : l.width = c.width := h.2.2
  refine .constant c h (by simp [Expr.width,hk,hw]) fun a _ => ?_
  have hl := l.eval_lt a h.1
  rw [hw] at hl
  simp only [Expr.eval,hw,hz _ hl]

lemma Refines.binary_assoc {a : Expr}
    (h : (Expr.binary k (.binary k a (.constant d)) (.constant c)).WF)
    (hk : k.isCompare = false) (hdiv : k.isDivision = false)
    (hassoc : ∀ w x y z, k.apply w (k.apply w x y) z = k.apply w x (k.apply w z y)) :
    Refines (.binary k (.binary k a (.constant d)) (.constant c))
      (.binary k a (.constant (c.binary k d))) := by
  obtain ⟨⟨ha,hd,had⟩,hc,hdc⟩ := h
  simp only [Expr.width,hk,false_eq_true,if_false] at hdc
  refine ⟨⟨ha,?_,?_⟩,by simp [Expr.width,hk],?_,
    fun _ _ hb => ⟨hb.1.1,(guard_of_not_division hdiv).mpr trivial⟩,?_⟩
  · simpa [Expr.WF,APInt.binary,hk] using hc
  · simp [Expr.width,APInt.binary,hk,hdc]
  · have h1 := lt_weight k a.width a.weight 1
    simp only [Expr.weight,Expr.width,hk,false_eq_true,if_false]
    exact k.weight_mono (by omega) le_rfl
  · intro _ s _
    simp only [Expr.eval,Expr.width,hk,false_eq_true,if_false,APInt.binary_value,
      ← hdc,hassoc]

lemma apply_and_allOnes (hc : c.isAllOnes) (x : Nat)
    (hx : x < 2^c.width) : and.apply c.width x c.value = x := by
  have h : c.value = 2^c.width-1 := by simpa [APInt.isAllOnes] using hc
  rw [apply_and _ _ _ hx,h,Nat.and_two_pow_sub_one_eq_mod,Nat.mod_eq_of_lt hx]

lemma apply_or_allOnes (hc : c.isAllOnes) (x : Nat)
    (hx : x < 2^c.width) : or.apply c.width x c.value = c.value := by
  have h : c.value = 2^c.width-1 := by simpa [APInt.isAllOnes] using hc
  rw [apply_or _ _ _ hx c.value_lt,h]
  apply Bits.eq_of_testBit_lt (w := c.width) (Nat.or_lt_two_pow hx (by have := c.value_lt; omega))
    (by have := c.value_lt; omega)
  intro i hi
  simp [Nat.testBit_or,hi]

lemma apply_and_assoc (w x y z : Nat) : and.apply w (and.apply w x y) z =
      and.apply w x (and.apply w z y) := by
  simp only [apply,BitVec.ofNat_toNat,BitVec.setWidth_eq,BitVec.and_assoc,
    BitVec.and_comm (BitVec.ofNat w z)]

lemma apply_or_assoc (w x y z : Nat) : or.apply w (or.apply w x y) z =
      or.apply w x (or.apply w z y) := by
  simp only [apply,BitVec.ofNat_toNat,BitVec.setWidth_eq,BitVec.or_assoc,
    BitVec.or_comm (BitVec.ofNat w z)]

lemma APInt.isZero_iff (c : APInt) : c.isZero ↔ c.value = 0 := by simp [isZero]

lemma Refines.and_or_disjoint {a : Expr} {b : APInt}
    (h : (Expr.binary .and (.binary .or a (.constant b)) (.constant c)).WF)
    (hbc : (c.binary .and b).value = 0) :
    Refines (.binary .and (.binary .or a (.constant b)) (.constant c))
      (.binary .and a (.constant c)) where
  wf := ⟨h.1.1,h.2.1,h.2.2⟩
  width := rfl
  weight := by grind
  defined _ _ hb := ⟨hb.1.1,trivial⟩
  eval s _ := by
    have hac : a.width = c.width := h.2.2
    have hx := a.eval_lt s h.1.1
    have hb : b.value < 2^a.width := by
      have hab : a.width = b.width := h.1.2.2
      rw [hab]; exact b.value_lt
    rw [APInt.binary_value,apply_and _ _ _ c.value_lt] at hbc
    have hw : (Expr.binary .or a (.constant b)).width = a.width := rfl
    simp only [Expr.eval,hw]
    rw [apply_or _ _ _ hx hb,apply_and _ _ _ hx,apply_and _ _ _ (Nat.or_lt_two_pow hx hb),
      Nat.and_or_distrib_right,Nat.and_comm b.value,hbc,Nat.or_zero]

lemma AndExpr_createPartial_refines {l : Expr}
    (ih : ∀ (a : Expr) (c : APInt), a.size < l.size → (Expr.binary .and a (.constant c)).WF →
      Refines (.binary .and a (.constant c)) (AndExpr.create a (.constant c)))
    (h : (Expr.binary .and l (.constant cr)).WF) :
    Refines (.binary .and l (.constant cr)) (AndExpr_createPartial l cr) := by
  unfold AndExpr_createPartial
  split
  next h1 =>
    exact .binary_unit h rfl (apply_and_allOnes h1)
  split
  next h0 =>
    have h0 := cr.isZero_iff.mp h0
    exact .binary_zero h rfl fun x hx => by rw [apply_and _ _ _ hx,h0,Nat.and_zero]
  split
  next a b =>
    split
    next hbc =>
      have hr := and_or_disjoint h ((APInt.isZero_iff _).mp hbc)
      exact hr.trans (ih a _ (by grind) hr.wf)
    · exact .refl h
  next a c2 =>
    have hr := binary_assoc h rfl rfl apply_and_assoc
    exact hr.trans (ih a _ (by grind) hr.wf)
  · exact .refl h

lemma AndExpr_create_refines
    (ih : ∀ l' r' : Expr, l'.size+r'.size < l.size+r.size → (binary .and l' r').WF →
      Refines (.binary .and l' r') (AndExpr.create l' r'))
    (h : (binary .and l r).WF) : Refines (.binary .and l r) (AndExpr_create l r) := by
  unfold AndExpr_create
  split
  next hn => exact .negated h hn (by decide) (by decide)
  · split
    next b hb =>
      have hs := absorbed_size hb
      have hr := absorb_left and_or_absorb apply_or_comm rfl h hb
      exact hr.trans (ih b r (by omega) hr.wf)
    · split
      next b hb =>
        have hs := absorbed_size hb
        have hr := absorb_right and_or_absorb apply_or_comm rfl apply_and_comm h hb
        exact hr.trans (ih l b (by omega) hr.wf)
      · exact .refl h

lemma AndExpr.create_refines (h : (Expr.binary .and l r).WF) :
    Refines (.binary .and l r) (create l r) := by
  induction hn : l.size+r.size using Nat.strongRecOn generalizing l r with
  | ind n ih =>
    subst hn
    have ih' : ∀ l' r' : Expr, l'.size+r'.size < l.size+r.size →
        (Expr.binary .and l' r').WF → Refines (.binary .and l' r') (create l' r') :=
      fun l' r' hlt h' => ih _ hlt h' rfl
    unfold create
    split
    · exact .fold h
    · have hs := swap h apply_and_comm
      refine hs.trans (AndExpr_createPartial_refines (fun a c ha => ih' a _ ?_) hs.wf)
      grind
    · refine AndExpr_createPartial_refines (fun a c ha => ih' a _ ?_) h
      grind
    · exact AndExpr_create_refines ih' h

def byteSlices (e : Expr) (off : Nat) : Nat → List Expr
  | 0 => []
  | n+1 => .extract e (off+8*n) 8 :: byteSlices e off n

def SafeRefines (e r : Expr) : Prop := Refines e r ∧ ∀ w, e.shiftSafe w → r.shiftSafe w

lemma unalignedLow_spec {b : Expr} {w s : Nat} (hb : b.WF) (hs : b.shiftSafe w)
    (hw : 8 ≤ w) : (n : Nat) → s+8*n ≤ b.width →
      ∃ ks, unalignedLow b s n = some ks ∧ List.Forall₂ SafeRefines (byteSlices b s n) ks
  | 0, _ => ⟨[],rfl,.nil⟩
  | n+1, hn => by
    have hwf : (extract b (s+8*n) 8).WF := ⟨hb,by decide,by omega⟩
    obtain ⟨k,hk1,hk2⟩ := ExtractExpr.create_yields hwf fun _ => (hs.mono hw).extractSafe
    obtain ⟨ks,hks1,hks2⟩ := unalignedLow_spec (s := s) hb hs hw n (by omega)
    refine ⟨k :: ks,?_,.cons hk2 hks2⟩
    rw [unalignedLow,hk1,bind_some,hks1,map_some]

lemma unalignedHigh_spec {a : Expr} {w s : Nat} (ha : a.WF) (hs : a.shiftSafe w)
    (hw : 8 ≤ w) (haw : a.width = w) : (n i : Nat) → s+i+8*n ≤ w →
      ∃ ks, unalignedHigh a w s n i = some ks ∧
        List.Forall₂ SafeRefines (byteSlices a (w-s-i-8*n) n) ks
  | 0, _, _ => ⟨[],rfl,.nil⟩
  | n+1, i, hn => by
    have hlt := a.width_lt ha
    have hoff : (2^65+w-8-s-i)%2^32 = w-s-i-8*(n+1)+8*n := by omega
    have hwf : (extract a (w-s-i-8*(n+1)+8*n) 8).WF := ⟨ha,by decide,by omega⟩
    obtain ⟨k,hk1,hk2⟩ := ExtractExpr.create_yields hwf fun _ => (hs.mono hw).extractSafe
    obtain ⟨ks,hks1,hks2⟩ := unalignedHigh_spec (s := s) ha hs hw haw n (i+8) (by omega)
    have he : w-s-(i+8)-8*n = w-s-i-8*(n+1) := by omega
    rw [he] at hks2
    refine ⟨k :: ks,?_,.cons hk2 hks2⟩
    rw [unalignedHigh,hoff,hk1,bind_some,hks1,map_some]

def evalN (a : Assignment) : List Expr → Nat
  | [] => 0
  | k :: ks => (k.eval a <<< (ks.map width).sum) ||| evalN a ks

lemma concatN_width : (ks : List Expr) → ks ≠ [] → (concatN ks).width = (ks.map Expr.width).sum
  | [k], _ => by simp [concatN]
  | k :: k' :: ks, _ => by
    have := concatN_width (k' :: ks) (by simp)
    simp only [concatN,Expr.width,this,map_cons,sum_cons]

lemma concatN_eval (a : Assignment) : (ks : List Expr) → ks ≠ [] →
    (concatN ks).eval a = evalN a ks
  | [k], _ => by simp [concatN,evalN]
  | k :: k' :: ks, _ => by
    have h1 := concatN_eval a (k' :: ks) (by simp)
    have h2 := concatN_width (k' :: ks) (by simp)
    simp only [concatN,Expr.eval,h1,h2]
    rfl

lemma concatN_weight : (ks : List Expr) → ks ≠ [] →
    (concatN ks).weight ≤ (ks.map fun k => k.weight+1).sum
  | [k], _ => by simp [concatN]
  | k :: k' :: ks, _ => by
    have := concatN_weight (k' :: ks) (by simp)
    simp only [concatN,Expr.weight,map_cons,sum_cons] at this ⊢
    omega

lemma concatN_wf : {ks : List Expr} → ks ≠ [] → (∀ k ∈ ks, k.WF) →
    (ks.map width).sum < 2^32 → (concatN ks).WF
  | [k], _, h, _ => h k (by simp)
  | k :: k' :: ks, _, h, hw => by
    have hw' := hw
    rw [map_cons,sum_cons] at hw'
    refine ⟨h k (by simp),concatN_wf (by simp) (fun x hx => h x (mem_cons_of_mem _ hx))
      (by omega),?_⟩
    rw [concatN_width _ (by simp)]
    exact hw'

lemma concatN_defined {S : Scope} {a : Assignment} (live : Bool) : {ks : List Expr} → ks ≠ [] →
    (∀ k ∈ ks, k.Defined S a true) → (concatN ks).Defined S a live
  | [k], _, h => Expr.Defined.mono live (h k (by simp))
  | k :: k' :: ks, _, h =>
    ⟨h k (by simp),concatN_defined true (by simp) fun x hx => h x (mem_cons_of_mem _ hx)⟩

lemma concatN_refines : {ks rs : List Expr} → ks ≠ [] →
    List.Forall₂ SafeRefines ks rs → (concatN ks).WF → Refines (concatN ks) (concatN rs)
  | [_], [_], _, .cons h .nil, _ => h.1
  | _ :: _ :: _, _ :: _ :: _, _, .cons h (.cons h' hs), hwf =>
    h.1.concat (concatN_refines (by simp) (.cons h' hs) hwf.2.1) hwf.2.2

lemma evalN_append (a : Assignment) (xs ys : List Expr) :
    evalN a (xs ++ ys) = (evalN a xs <<< (ys.map width).sum) ||| evalN a ys := by
  induction xs with
  | nil => simp [evalN]
  | cons x xs ih =>
    simp only [cons_append,evalN,ih,map_append,sum_append,
      Nat.shiftLeft_or_distrib,← Nat.shiftLeft_add,Nat.or_assoc]

lemma byteSlices_width (e : Expr) (off n : Nat) : ((byteSlices e off n).map width).sum = 8*n := by
  induction n with
  | zero => rfl
  | succ n ih => simp only [byteSlices,map_cons,sum_cons,ih,Expr.width]; omega

lemma byteSlices_weight (e : Expr) (off n : Nat) :
    ((byteSlices e off n).map fun k => k.weight+1).sum = n*(2*e.weight+1) := by
  induction n with
  | zero => simp [byteSlices]
  | succ n ih =>
    simp only [byteSlices,map_cons,sum_cons,ih,Expr.weight,Nat.succ_mul]
    omega

lemma byteSlices_eval (a : Assignment) (e : Expr) (off n : Nat) :
    evalN a (byteSlices e off n) = (e.eval a >>> off)%2^(8*n) := by
  induction n with
  | zero => simp [byteSlices,evalN,Nat.mod_one]
  | succ n ih =>
    simp only [byteSlices,evalN,ih,byteSlices_width,Expr.eval]
    rw [Bits.append_slice,show 8+8*n = 8*(n+1) by omega]

lemma mem_byteSlices {e k : Expr} {off n : Nat} (h : k ∈ byteSlices e off n) :
    ∃ j, j < n ∧ k = .extract e (off+8*j) 8 := by
  induction n with
  | zero => simp [byteSlices] at h
  | succ n ih =>
    rw [byteSlices,mem_cons] at h
    rcases h with rfl | h
    · exact ⟨n,by omega,rfl⟩
    · obtain ⟨j,hj,rfl⟩ := ih h
      exact ⟨j,by omega,rfl⟩

lemma unaligned_value {x y s₁ s₂ w : Nat} (hx : x < 2^w) (hy : y < 2^w) (h : s₁+s₂ = w) :
    (((x >>> 0)%2^s₂) <<< s₁) ||| ((y >>> s₂)%2^s₁) =
      or.apply w (shl.apply w x s₁) (lshr.apply w y s₂) := by
  have hl : shl.apply w x s₁ < 2^w := apply_lt .shl w x s₁
  have hr : lshr.apply w y s₂ < 2^w := apply_lt .lshr w y s₂
  rw [apply_or _ _ _ hl hr,apply_shl _ _ _ hx,apply_lshr _ _ _ hy]
  apply Nat.eq_of_testBit_eq
  intro i
  rw [Bits.testBit_append _ _ (Nat.mod_lt _ (Nat.two_pow_pos _)),Bits.testBit_slice,
    Bits.testBit_slice,Nat.testBit_or]
  have hshl : (if s₁ < w then x <<< s₁%2^w else 0).testBit i =
      (decide (i < w) && decide (s₁ ≤ i) && x.testBit (i-s₁)) := by
    by_cases h1 : s₁ < w
    · rw [if_pos h1,Nat.testBit_mod_two_pow,Nat.testBit_shiftLeft]
      simp [Bool.and_assoc]
    have : ¬(i < w ∧ s₁ ≤ i) := by omega
    rw [if_neg h1,Nat.zero_testBit]
    symm
    simp only [Bool.and_eq_false_iff,decide_eq_false_iff_not]
    left; omega
  have hlshr : (if s₂ < w then y >>> s₂ else 0).testBit i = y.testBit (s₂+i) := by
    by_cases h2 : s₂ < w
    · rw [if_pos h2,Nat.testBit_shiftRight]
    · rw [if_neg h2,Nat.zero_testBit,Bits.testBit_of_lt hy (by omega)]
  rw [hshl,hlshr]
  by_cases hi : i < s₁
  · have : ¬s₁ ≤ i := by omega
    simp [hi,this]
  have h1 : s₁ ≤ i := by omega
  have h2 : y.testBit (s₂+i) = false := Bits.testBit_of_lt hy (by omega)
  have h3 : i-s₁ < s₂ ↔ i < w := by omega
  simp [hi,h1,h2,h3]

lemma byteSlices_append_ne_nil {a b : Expr} {off off' n₁ n₂ : Nat} (h : 0 < n₁+n₂) :
    byteSlices a off n₁ ++ byteSlices b off' n₂ ≠ [] := by
  intro hnil
  have := congrArg (fun ks : List Expr => (ks.map width).sum) hnil
  simp only [map_append,sum_append,byteSlices_width,map_nil,sum_nil] at this
  omega

lemma SafeRefines.forall_mem {w : Nat} {ks rs : List Expr}
    (h : List.Forall₂ SafeRefines ks rs) (hk : ∀ k ∈ ks, k.shiftSafe w) :
    ∀ r ∈ rs, r.shiftSafe w := by
  induction h with
  | nil => simp
  | cons h _ ih =>
    intro r hr
    rcases mem_cons.mp hr with rfl | hr
    · exact h.2 w (hk _ (by simp))
    · exact ih (fun k hk' => hk k (mem_cons_of_mem _ hk')) r hr

section Unaligned

/-! `ret` is the disjunction of `a` shifted left by `s1` and `b` shifted right by
`s2`, in either order. -/

variable {ret a b : Expr} {s1 s2 : APInt}

structure UnalignedRead (ret a b : Expr) (s1 s2 : APInt) : Prop where
  wf : ret.WF
  wf_a : a.WF
  wf_b : b.WF
  width_a : a.width = ret.width
  width_b : b.width = ret.width
  weight : (ret.width+1)*(a.weight+3)+(ret.width+1)*(b.weight+3) ≤ ret.weight
  defined : ∀ {S : Scope} (s : Assignment) (live : Bool), ret.Defined S s live →
    a.Defined S s true ∧ b.Defined S s true
  eval : ∀ s : Assignment, ret.eval s = or.apply ret.width
    (shl.apply ret.width (a.eval s) s1.value)
    (lshr.apply ret.width (b.eval s) s2.value)

lemma UnalignedRead.refines (h : UnalignedRead ret a b s1 s2) {n₁ n₂ : Nat}
    (hadd : s1.value+s2.value = ret.width) (h₁ : 8*n₁ = s2.value) (h₂ : 8*n₂ = s1.value) :
    Refines ret (concatN (byteSlices a 0 n₁ ++ byteSlices b s2.value n₂)) := by
  have hpos := ret.width_pos h.wf
  have hlt := ret.width_lt h.wf
  have hwa := h.width_a
  have hwb := h.width_b
  have hwf : ∀ k ∈ byteSlices a 0 n₁ ++ byteSlices b s2.value n₂, k.WF := by
    intro k hk
    rcases mem_append.mp hk with hk | hk
    · obtain ⟨j,hj,rfl⟩ := mem_byteSlices hk
      exact ⟨h.wf_a,by decide,by omega⟩
    · obtain ⟨j,hj,rfl⟩ := mem_byteSlices hk
      exact ⟨h.wf_b,by decide,by omega⟩
  have hsum : ((byteSlices a 0 n₁ ++ byteSlices b s2.value n₂).map width).sum = ret.width := by
    rw [map_append,sum_append,byteSlices_width,byteSlices_width]
    omega
  have hne : byteSlices a 0 n₁ ++ byteSlices b s2.value n₂ ≠ [] :=
    byteSlices_append_ne_nil (by omega)
  refine ⟨concatN_wf hne hwf (by omega),by rw [concatN_width _ hne,hsum],?_,?_,?_⟩
  · refine le_trans (concatN_weight _ hne) (le_trans ?_ h.weight)
    rw [map_append,sum_append,byteSlices_weight,byteSlices_weight]
    have hstep : ∀ n x : Nat, 8*n ≤ ret.width → n*(2*x+1) ≤ (ret.width+1)*(x+3) := by
      intro n x hn
      calc n*(2*x+1) ≤ n*(2*(x+3)) := Nat.mul_le_mul_left _ (by omega)
        _ = (n*2)*(x+3) := (Nat.mul_assoc _ _ _).symm
        _ ≤ (ret.width+1)*(x+3) := Nat.mul_le_mul_right _ (by omega)
    exact Nat.add_le_add (hstep _ _ (by omega)) (hstep _ _ (by omega))
  · intro _ s live hin
    obtain ⟨ha,hb⟩ := h.defined s live hin
    apply concatN_defined live hne
    intro k hk
    rcases mem_append.mp hk with hk | hk
    · obtain ⟨j,-,rfl⟩ := mem_byteSlices hk
      exact ha
    · obtain ⟨j,-,rfl⟩ := mem_byteSlices hk
      exact hb
  · intro _ s _
    have hx := a.eval_lt s h.wf_a
    have hy := b.eval_lt s h.wf_b
    rw [hwa] at hx
    rw [hwb] at hy
    rw [concatN_eval s _ hne,evalN_append,byteSlices_eval,byteSlices_eval,byteSlices_width,
      h.eval,h₁,h₂,unaligned_value hx hy hadd]

/-- The pattern is recognised only where its two shifts really add up to the width,
and extracting from either operand is safe. -/
def UnalignedSafe (a b : Expr) (s1 s2 : APInt) : Prop :=
  s1.width ≤ 64 ∧ (s1.value%8 = 0 → s2.value%8 = 0 → (s1.value+s2.value)%2^64 = a.width →
      s1.value+s2.value = a.width ∧ a.shiftSafe a.width ∧ b.shiftSafe a.width)

lemma unalignedRead_yields (h : UnalignedRead ret a b s1 s2) (hs : UnalignedSafe a b s1 s2) :
    Yields ret (unalignedRead ret a b s1 s2) := by
  have hpos := ret.width_pos h.wf
  have hwa := h.width_a
  have hwb := h.width_b
  unfold unalignedRead
  rw [if_neg (not_not.mpr hs.1)]
  split
  · exact .alloc h.wf
  rename_i h8
  split
  · exact .alloc h.wf
  rename_i hsum
  obtain ⟨hadd,has,hbs⟩ := hs.2 (by omega) (by omega) (by omega)
  rw [hwa] at hadd has hbs
  generalize hn₁ : (2^64+ret.width-s1.value)%2^64/8 = n₁
  generalize hn₂ : (ret.width-s2.value)/8 = n₂
  have h₁ : 8*n₁ = s2.value := by omega
  have h₂ : 8*n₂ = s1.value := by omega
  obtain ⟨high,hh1,hh2⟩ := unalignedHigh_spec (s := s1.value) h.wf_a has (by omega) hwa
    n₁ 0 (by omega)
  obtain ⟨low,hl1,hl2⟩ := unalignedLow_spec (s := s2.value) h.wf_b hbs (by omega) n₂ (by omega)
  rw [show ret.width-s1.value-0-8*n₁ = 0 by omega] at hh2
  rw [hh1,bind_some,hl1,bind_some]
  have href := h.refines hadd h₁ h₂
  have hfor := rel_append hh2 hl2
  have hne : byteSlices a 0 n₁ ++ byteSlices b s2.value n₂ ≠ [] :=
    byteSlices_append_ne_nil (by omega)
  have hcat := concatN_refines hne hfor href.wf
  have hmem : ∀ k ∈ byteSlices a 0 n₁ ++ byteSlices b s2.value n₂, k.shiftSafe ret.width := by
    intro k hk
    rcases mem_append.mp hk with hk | hk
    · obtain ⟨j,-,rfl⟩ := mem_byteSlices hk
      exact has
    · obtain ⟨j,-,rfl⟩ := mem_byteSlices hk
      exact hbs
  refine .trans (href.trans hcat) (ConcatExpr.createN_yields _ ?_
    (SafeRefines.forall_mem hfor hmem) hcat.wf ?_).yields
  · intro hnil
    rw [hnil] at hfor
    exact hne (forall₂_nil_right_iff.mp hfor)
  · rw [hcat.width,href.width]

end Unaligned

def OrExpr.safe : Expr → Expr → Prop
  | .binary .shl a (.constant s1), .binary .lshr b (.constant s2) => UnalignedSafe a b s1 s2
  | .binary .lshr b (.constant s2), .binary .shl a (.constant s1) => UnalignedSafe a b s1 s2
  | _, _ => True

lemma SimplifyUnalignedReadPattern_yields (h : (binary .or l r).WF) (hs : OrExpr.safe l r) :
    Yields (.binary .or l r) (SimplifyUnalignedReadPattern (.binary .or l r)) := by
  unfold SimplifyUnalignedReadPattern
  split
  next a s1 b s2 heq =>
    obtain ⟨rfl,rfl⟩ : l = .binary .shl a (.constant s1) ∧ r = .binary .lshr b (.constant s2) := by
      simpa using heq
    obtain ⟨hl,hr,hw⟩ := h
    have hw : a.width = b.width := hw
    refine unalignedRead_yields ⟨⟨hl,hr,hw⟩,hl.1,hr.1,rfl,hw.symm,?_,
      fun _ _ h => ⟨h.1.1,h.2.1⟩,fun s => ?_⟩ hs
    · simp only [Expr.weight,Expr.width,BinaryKind.weight,isCompare,
        false_eq_true,if_false,hw,Nat.add_assoc,Nat.reduceAdd]
      omega
    · simp only [Expr.eval,Expr.width,isCompare,false_eq_true,if_false,hw]
  next b s2 a s1 heq =>
    obtain ⟨rfl,rfl⟩ : l = .binary .lshr b (.constant s2) ∧ r = .binary .shl a (.constant s1) := by
      simpa using heq
    obtain ⟨hl,hr,hw⟩ := h
    have hw : b.width = a.width := hw
    refine unalignedRead_yields ⟨⟨hl,hr,hw⟩,hr.1,hl.1,hw.symm,rfl,?_,
      fun _ _ h => ⟨h.2.1,h.1.1⟩,fun s => ?_⟩ hs
    · simp only [Expr.weight,Expr.width,BinaryKind.weight,isCompare,
        false_eq_true,if_false,hw,Nat.add_assoc,Nat.reduceAdd]
      omega
    · simp only [Expr.eval,Expr.width,isCompare,false_eq_true,if_false,hw]
      rw [apply_or_comm]
  · exact .alloc h

lemma OrExpr_createPartial_yields {l : Expr}
    (ih : ∀ (a : Expr) (c : APInt), a.size < l.size → (Expr.binary .or a (.constant c)).WF →
      Yields (.binary .or a (.constant c)) (OrExpr.create a (.constant c)))
    (h : (Expr.binary .or l (.constant cr)).WF) :
    Yields (.binary .or l (.constant cr)) (OrExpr_createPartial l cr) := by
  unfold OrExpr_createPartial
  split
  next h1 =>
    exact .of_refines (.binary_zero h rfl (apply_or_allOnes h1))
  split
  next h0 =>
    have h0 := cr.isZero_iff.mp h0
    refine .of_refines (.binary_unit h rfl fun x hx => ?_)
    rw [apply_or _ _ _ hx cr.value_lt,h0,Nat.or_zero]
  split
  next a c2 =>
    have hr := binary_assoc h rfl rfl apply_or_assoc
    exact .trans hr (ih a _ (by grind) hr.wf)
  · exact .alloc h

lemma OrExpr.safe_bool (h : (binary .or l r).WF) (hw : l.width = 1) : safe l r := by
  have hok : ∀ (a b : Expr) (s1 s2 : APInt), a.width = 1 → s1.width = 1 →
      UnalignedSafe a b s1 s2 := by
    intro a b s1 s2 ha hs1
    refine ⟨by omega,fun h1 h2 hsum => ?_⟩
    omega
  unfold safe
  split
  · exact hok _ _ _ _ hw (h.1.2.2.symm.trans hw)
  · have hr : (Expr.binary shl _ _).width = 1 := h.2.2.symm.trans hw
    exact hok _ _ _ _ hr (h.2.1.2.2.symm.trans hr)
  · trivial

lemma OrExpr_create_yields
    (ih : ∀ l' r' : Expr, l'.size+r'.size < l.size+r.size → (binary .or l' r').WF →
      l'.width = 1 → Yields (.binary .or l' r') (OrExpr.create l' r'))
    (h : (binary .or l r).WF) (hs : OrExpr.safe l r) :
    Yields (.binary .or l r) (OrExpr_create l r) := by
  unfold OrExpr_create
  split
  next hn => exact .of_refines (.negated h hn (by decide) (by decide))
  · split
    next b hb =>
      have hsz := absorbed_size hb
      obtain ⟨-,-,-,hb1,-⟩ := absorbed_spec rfl h.1 h.2.1 h.2.2 hb
      have hr := absorb_left or_and_absorb apply_and_comm rfl h hb
      exact .trans hr (ih b r (by omega) hr.wf hb1)
    · split
      next b hb =>
        have hsz := absorbed_size hb
        obtain ⟨-,-,-,-,hl1,-⟩ := absorbed_spec rfl h.2.1 h.1 h.2.2.symm hb
        have hr := absorb_right or_and_absorb apply_and_comm rfl apply_or_comm h hb
        exact .trans hr (ih l b (by omega) hr.wf hl1)
      · exact SimplifyUnalignedReadPattern_yields h hs

lemma OrExpr.create_yields (h : (Expr.binary .or l r).WF) (hs : safe l r) :
    Yields (.binary .or l r) (create l r) := by
  induction hn : l.size+r.size using Nat.strongRecOn generalizing l r with
  | ind n ih =>
    subst hn
    have ihc : ∀ (a : Expr) (c : APInt), a.size+1 < l.size+r.size →
        (Expr.binary .or a (.constant c)).WF →
          Yields (.binary .or a (.constant c)) (create a (.constant c)) :=
      fun a c hlt h' => ih _ (by simpa [size] using hlt) h' (by simp [safe]) rfl
    unfold create
    split
    · exact .of_refines (.fold h)
    · have hsw := swap h apply_or_comm
      refine .trans hsw (OrExpr_createPartial_yields (fun a c ha => ihc a c ?_) hsw.wf)
      grind
    · refine OrExpr_createPartial_yields (fun a c ha => ihc a c ?_) h
      grind
    · exact OrExpr_create_yields
        (fun l' r' hlt h' h1 => ih _ hlt h' (safe_bool h' h1) rfl) h hs

end S2E
