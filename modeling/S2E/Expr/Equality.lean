import S2E.Expr.Logic

/-!
`EqExpr::create` and `Expr::createIsZero`. An equality with a constant is pushed
through negations, extensions and additions, and over a constant array it becomes
a disjunction of equalities on the index (the option `const-array-opt`, on by
default).
-/

namespace S2E
open List Option ConstantExpr BinaryKind S2E.Expr

def EqExpr_create (l r : Expr) : Expr :=
  if l = r then alloc 1 1 else .binary .eq l r

def ArrayObj.constMatches (arr : ArrayObj) (cl : APInt) : List Nat :=
  (range arr.size).filter fun i =>
    decide (cl.width = 8 ∧ cl.value = (arr.constantValues.getD i 0).toNat)

def orAll (mayBe : Nat → Option Expr) : List Nat → Expr → Option Expr
  | [], res => some res
  | i :: is, res => (mayBe i).bind fun e => (OrExpr.create res e).bind (orAll mayBe is)

/-- `TryConstArrayOpt`, where `eqIndex i` is `EqExpr::create(index, i)`. More than 100
matches are left alone. -/
def TryConstArrayOpt (cl : APInt) (ul : UpdateList) (index : Expr)
    (eqIndex : Nat → Option Expr) : Option Expr :=
  if ul.getRoot.isSymbolicArray = true ∨ ul.getSize ≠ 0 then
    some (EqExpr_create (.constant cl) (.read ul index))
  else if 100 < (ul.getRoot.constMatches cl).length then
    some (EqExpr_create (.constant cl) (.read ul index))
  else orAll eqIndex (ul.getRoot.constMatches cl) (alloc 0 1)

mutual
def EqExpr.create (l r : Expr) : Option Expr :=
  match l, r with
  | .constant cl, .constant cr => some (.constant (cl.binary .eq cr))
  | .constant cl, r => EqExpr_createPartialR cl r
  | l, .constant cr => EqExpr_createPartialR cr l
  | l, r => some (EqExpr_create l r)
termination_by 2*(l.size+r.size)+1
decreasing_by all_goals simp only [size]; omega

def EqExpr_createPartialR (cl : APInt) (r : Expr) : Option Expr :=
  if cl.width = 1 then
    if cl.isTrue then some r
    else
      match r with
      | .binary .eq (.constant CE) e =>
        if CE.width = 1 ∧ CE.isFalse then some e else some (EqExpr_create (.constant cl) r)
      | .binary .or a b =>
        (EqExpr.create a (alloc 0 a.width)).bind fun na =>
          (EqExpr.create b (alloc 0 b.width)).bind fun nb =>
            some (AndExpr.create na nb)
      | _ => some (EqExpr_create (.constant cl) r)
  else
    match r with
    | .sext src _ =>
      if cl = (cl.ZExt src.width).SExt cl.width then
        EqExpr.create src (.constant (cl.ZExt src.width))
      else some (alloc 0 1)
    | .zext src _ =>
      if cl = (cl.ZExt src.width).ZExt cl.width then
        EqExpr.create src (.constant (cl.ZExt src.width))
      else some (alloc 0 1)
    | .binary .add (.constant c1) b => EqExpr_createPartialR (cl.binary .sub c1) b
    | .binary .sub (.constant c1) b => EqExpr_createPartialR (c1.binary .sub cl) b
    | .read ul index =>
      TryConstArrayOpt cl ul index fun i =>
        EqExpr.create index (alloc i index.width)
    | _ => some (EqExpr_create (.constant cl) r)
termination_by 2*(r.size+1)
decreasing_by all_goals simp only [size,alloc]; omega
end

def Expr.createIsZero (e : Expr) : Option Expr := EqExpr.create e (alloc 0 e.width)

lemma apply_eq_comm (w x y : Nat) : eq.apply w x y = eq.apply w y x := by
  simp only [apply,Bool.beq_comm]

variable {r : Expr} {b l : Expr}

lemma EqExpr_create_refines (h : (binary .eq l r).WF) :
    Refines (.binary .eq l r) (EqExpr_create l r) := by
  unfold EqExpr_create
  split
  next hlr =>
    refine .constant _ h rfl fun s _ => ?_
    rw [eval_eq h,if_pos (by rw [hlr])]
    rfl
  · exact .refl h

lemma Refines.eq_of_iff {l' r' : Expr} (h : (Expr.binary .eq l r).WF)
    (h' : (Expr.binary .eq l' r').WF) (hwt : l'.weight+r'.weight ≤ l.weight+r.weight)
    (hin : ∀ {S : Scope} (s : Assignment), l.Defined S s true → r.Defined S s true →
      l'.Defined S s true ∧ r'.Defined S s true)
    (hev : ∀ s : Assignment, l'.eval s = r'.eval s ↔ l.eval s = r.eval s) :
    Refines (.binary .eq l r) (.binary .eq l' r') where
  wf := h'
  width := rfl
  weight := by grind
  defined s _ hb := hin s hb.1 hb.2
  eval s _ := by simp only [eval_eq h,eval_eq h',hev]

lemma Refines.eq_false (h : (Expr.binary .eq l r).WF)
    (hev : ∀ s : Assignment, l.eval s ≠ r.eval s) : Refines (.binary .eq l r) (alloc 0 1) :=
  .constant _ h rfl fun s _ => by rw [eval_eq h,if_neg (hev s)]; rfl

variable {c : APInt}

lemma APInt.isTrue_value (hw : c.width = 1) (h : c.isTrue) : c.value = 1 := by
  simpa [isTrue,hw] using h

lemma APInt.value_zero_of_not_true (hw : c.width = 1) (h : ¬c.isTrue) : c.value = 0 := by
  have := c.value_lt
  rw [hw] at this
  have h1 : c.value ≠ 1 := by simpa [isTrue,hw] using h
  omega

lemma Refines.eq_true (h : (Expr.binary .eq (.constant c) r).WF)
    (hw : c.width = 1) (hc : c.value = 1) : Refines (.binary .eq (.constant c) r) r where
  wf := h.2.1
  width := h.2.2.symm.trans hw
  weight := by grind
  defined _ live hb := Expr.Defined.mono live hb.2
  eval s _ := by
    rw [eval_eq h]
    have hrw : r.width = 1 := h.2.2.symm.trans hw
    rcases r.eval_bool s h.2.1 hrw with hr | hr <;> simp [Expr.eval,hc,hr]

variable {e : Expr}

lemma Refines.eq_eq {d : APInt}
    (h : (Expr.binary .eq (.constant c) (.binary .eq (.constant d) e)).WF) (hc : c.value = 0)
    (hdw : d.width = 1) (hd : d.value = 0) :
    Refines (.binary .eq (.constant c) (.binary .eq (.constant d) e)) e where
  wf := h.2.1.2.1
  width := h.2.1.2.2.symm.trans hdw
  weight := by grind
  defined _ live hb := Expr.Defined.mono live hb.2.2
  eval s _ := by
    have hew : e.width = 1 := h.2.1.2.2.symm.trans hdw
    rw [eval_eq h,eval_eq h.2.1]
    rcases e.eval_bool s h.2.1.2.1 hew with he | he <;> simp [Expr.eval,hc,hd,he]

lemma Refines.eq_or {a : Expr}
    (h : (Expr.binary .eq (.constant c) (.binary .or a b)).WF) (hw : c.width = 1)
    (hc : c.value = 0) : Refines (.binary .eq (.constant c) (.binary .or a b))
      (.binary .and (.binary .eq a (alloc 0 a.width)) (.binary .eq b (alloc 0 b.width))) := by
  obtain ⟨-,⟨ha,hb,hab⟩,hor⟩ := id h
  have haw : a.width = 1 := hor.symm.trans hw
  have hbw : b.width = 1 := hab.symm.trans haw
  have hna : (Expr.binary .eq a (alloc 0 a.width)).WF :=
    ⟨ha,by rw [haw]; exact ⟨by decide,by decide⟩,rfl⟩
  have hnb : (Expr.binary .eq b (alloc 0 b.width)).WF :=
    ⟨hb,by rw [hbw]; exact ⟨by decide,by decide⟩,rfl⟩
  refine ⟨⟨hna,hnb,rfl⟩,rfl,?_,fun _ _ hb => ⟨⟨hb.2.1,trivial⟩,⟨hb.2.2,trivial⟩⟩,
    fun s _ => ?_⟩
  · simp only [Expr.weight,BinaryKind.weight,alloc]; omega
  · have hand : ∀ x y : Expr, (Expr.binary and (.binary .eq x y) (.binary .eq b
        (alloc 0 b.width))).eval s = and.apply 1
          ((Expr.binary .eq x y).eval s)
          ((Expr.binary .eq b (alloc 0 b.width)).eval s) := fun _ _ => rfl
    have horv : (Expr.binary .or a b).eval s = or.apply 1 (a.eval s) (b.eval s) := by
      simp only [Expr.eval,haw]
    rw [hand,eval_eq hna,eval_eq hnb,eval_eq h,horv,eval_alloc,
      eval_alloc,Nat.zero_mod,Nat.zero_mod]
    simp only [Expr.eval,hc]
    rcases a.eval_bool s ha haw with h1 | h1 <;> rcases b.eval_bool s hb hbw with h2 | h2 <;>
      rw [h1,h2] <;> decide

lemma APInt.ext_iff_value {d : APInt} (hw : d.width = c.width) : c = d ↔ c.value = d.value := by
  cases c; cases d
  simp_all

variable {cl : APInt}

lemma Yields.eq_ext {d : APInt} {src : Expr} {e : Option Expr} {f : Nat → Nat}
    (h : (Expr.binary .eq (.constant cl) r).WF) (hsrc : src.WF)
    (hinv : ∀ v, v < 2^src.width → f v%2^src.width = v)
    (hev : ∀ s : Assignment, r.eval s = f (src.eval s)) (hwt : src.weight ≤ r.weight)
    (hin : ∀ {S : Scope} (s : Assignment), r.Defined S s true → src.Defined S s true)
    (hd : d.width = cl.width) (hval : d.value = f (cl.value%2^src.width))
    (ih : (Expr.binary .eq src (.constant (cl.ZExt src.width))).WF →
      Yields (.binary .eq src (.constant (cl.ZExt src.width))) e) :
    Yields (.binary .eq (.constant cl) r)
      (if cl = d then e else some (ConstantExpr.alloc 0 1)) := by
  have hiff := APInt.ext_iff_value hd
  rw [hval] at hiff
  split
  next hcl =>
    have hc : (constant (cl.ZExt src.width)).WF := ⟨src.width_pos hsrc,src.width_lt hsrc⟩
    refine .trans (.eq_of_iff h ⟨hsrc,hc,rfl⟩ (by grind)
      (fun s _ hr => ⟨hin s hr,trivial⟩) fun s => ?_) (ih ⟨hsrc,hc,rfl⟩)
    have hv := src.eval_lt s hsrc
    simp only [eval,hev,APInt.ZExt_value]
    constructor
    · intro he
      rw [hiff.mp hcl,← he]
    · intro he
      rw [he,hinv _ hv]
  next hcl =>
    refine .of_refines (.eq_false h fun s he => hcl (hiff.mpr ?_))
    simp only [eval,hev] at he
    rw [he,hinv _ (src.eval_lt s hsrc)]

variable {d i kw v w : Nat}

lemma sextOrTrunc_mod (hk : 0 < kw) (hw : kw ≤ w) (hv : v < 2^kw) :
    sextOrTrunc kw w v%2^kw = v := by
  apply Bits.eq_of_testBit_lt (Nat.mod_lt _ (Nat.two_pow_pos kw)) hv
  intro i hi
  have : i < w := by omega
  rw [Nat.testBit_mod_two_pow,testBit_sextOrTrunc _ _ _ _ hk]
  simp [hi,this]

lemma zext_mod (hw : kw ≤ w) (hv : v < 2^kw) : v%2^w%2^kw = v := by
  rw [Nat.mod_eq_of_lt (Nat.lt_of_lt_of_le hv (Nat.pow_le_pow_right (by decide) hw)),
    Nat.mod_eq_of_lt hv]

lemma toNat_eq_iff (hv : v < 2^w) (x : BitVec w) : x.toNat = v ↔ x = BitVec.ofNat w v := by
  rw [← BitVec.toNat_inj,BitVec.toNat_ofNat,Nat.mod_eq_of_lt hv]

lemma apply_sub_eq_iff {c : Nat} (hc : c < 2^w) (hv : v < 2^w) :
    sub.apply w c d = v ↔ c = add.apply w d v := by
  simp only [apply]
  rw [toNat_eq_iff hv,eq_comm (a := c),toNat_eq_iff hc,eq_comm (b := BitVec.ofNat w c)]
  exact sub_eq_iff_eq_add'

lemma apply_sub_eq_iff' {c : Nat} (hc : c < 2^w) (hv : v < 2^w) :
    sub.apply w d c = v ↔ c = sub.apply w d v := by
  simp only [apply]
  rw [toNat_eq_iff hv,eq_comm (a := c),toNat_eq_iff hc]
  constructor
  all_goals intro h; rw [← h,sub_sub_cancel]

lemma Refines.eq_add {c1 : APInt}
    (h : (Expr.binary .eq (.constant cl) (.binary .add (.constant c1) b)).WF) :
    Refines (.binary .eq (.constant cl) (.binary .add (.constant c1) b))
      (.binary .eq (.constant (cl.binary .sub c1)) b) := by
  obtain ⟨hcl,⟨-,hb,hcb⟩,hw⟩ := id h
  have hw : cl.width = c1.width := hw
  have hcb : c1.width = b.width := hcb
  refine .eq_of_iff h ⟨hcl,hb,hw.trans hcb⟩
    (by grind) (fun _ _ hr => ⟨trivial,hr.2⟩)
    fun s => ?_
  have hc := cl.value_lt
  have hv := b.eval_lt s hb
  rw [← hcb,← hw] at hv
  simp only [Expr.eval,Expr.width,APInt.binary_value,← hw]
  exact apply_sub_eq_iff hc hv

lemma Refines.eq_sub {c1 : APInt}
    (h : (Expr.binary .eq (.constant cl) (.binary .sub (.constant c1) b)).WF) :
    Refines (.binary .eq (.constant cl) (.binary .sub (.constant c1) b))
      (.binary .eq (.constant (c1.binary .sub cl)) b) := by
  obtain ⟨hcl,⟨hc1,hb,hcb⟩,hw⟩ := id h
  have hw : cl.width = c1.width := hw
  have hcb : c1.width = b.width := hcb
  refine .eq_of_iff h ⟨hc1,hb,hcb⟩
    (by grind) (fun _ _ hr => ⟨trivial,hr.2⟩)
    fun s => ?_
  have hc := cl.value_lt
  have hv := b.eval_lt s hb
  rw [← hcb,← hw] at hv
  simp only [Expr.eval,Expr.width,APInt.binary_value,← hw]
  exact apply_sub_eq_iff' hc hv

structure AnyIndex (index : Expr) (is : List Nat) (res : Expr) : Prop where
  wf : res.WF
  width : res.width = 1
  weight : res.weight ≤ 1+is.length*(index.weight+6)
  defined : ∀ {S : Scope} (s : Assignment), index.Defined S s true → res.Defined S s true
  eval : ∀ {S : Scope} (s : Assignment), index.Defined S s true →
    (res.eval s = 1 ↔ index.eval s ∈ is)

variable {index : Expr}

lemma AnyIndex.step {res : Expr} {is : List Nat} (h : AnyIndex index is res)
    (hi : index.WF) (hiw : index.width = 32) (hlt : i < 2^32)
    (he : Refines (.binary .eq index (alloc i index.width)) e) :
    ∃ r, OrExpr.create res e = some r ∧ AnyIndex index (is ++ [i]) r := by
  have hwf : (binary .or res e).WF := ⟨h.wf,he.wf,h.width.trans he.width.symm⟩
  have heqwf : (binary .eq index (alloc i index.width)).WF :=
    ⟨hi,⟨index.width_pos hi,index.width_lt hi⟩,rfl⟩
  have hew : e.width = 1 := he.width
  obtain ⟨r,hr1,hr2⟩ := OrExpr.create_yields hwf (OrExpr.safe_bool hwf h.width)
  refine ⟨r,hr1,hr2.wf,by rw [hr2.width]; exact h.width,?_,?_,?_⟩
  · have h1 := hr2.weight
    have h2 := he.weight
    have h3 := h.weight
    simp only [Expr.weight,BinaryKind.weight,alloc] at h1 h2
    rw [length_append,length_singleton,Nat.add_mul]
    omega
  · intro _ s hb
    exact hr2.defined s true ⟨h.defined s hb,he.defined s true ⟨hb,trivial⟩⟩
  · intro _ s hb
    have hres := h.defined s hb
    have hein := he.defined s true ⟨hb,trivial⟩
    have hval : e.eval s = if index.eval s = i then 1 else 0 := by
      rw [he.eval s ⟨hb,trivial⟩,eval_eq heqwf,eval_alloc,hiw,Nat.mod_eq_of_lt hlt]
    rw [hr2.eval s ⟨hres,hein⟩,mem_append,mem_singleton,← h.eval s hb]
    simp only [Expr.eval,h.width,hval]
    rcases res.eval_bool s h.wf h.width with h0 | h0 <;> rw [h0] <;> split <;> rename_i hc <;>
      simp [hc] <;> decide

lemma orAll_spec {mayBe : Nat → Option Expr} (hi : index.WF) (hiw : index.width = 32)
    (hm : ∀ i, Yields (.binary .eq index (alloc i index.width)) (mayBe i)) :
    (js is : List Nat) → (res : Expr) → AnyIndex index is res → (∀ i ∈ js, i < 2^32) →
      ∃ r, orAll mayBe js res = some r ∧ AnyIndex index (is ++ js) r
  | [], is, res, h, _ => ⟨res,rfl,by simpa using h⟩
  | j :: js, is, res, h, hlt => by
    obtain ⟨e,he1,he2⟩ := hm j
    obtain ⟨r,hr1,hr2⟩ := h.step hi hiw (hlt j (by simp)) he2
    obtain ⟨r',hr1',hr2'⟩ := orAll_spec hi hiw hm js (is ++ [j]) r hr2
      fun i hi => hlt i (mem_cons_of_mem _ hi)
    refine ⟨r',?_,by simpa using hr2'⟩
    rw [orAll,he1,bind_some,hr1,bind_some,hr1']

variable {arr : ArrayObj}

lemma ArrayObj.mem_constMatches : i ∈ arr.constMatches cl ↔
      i < arr.size ∧ cl.width = 8 ∧ cl.value = (arr.constantValues.getD i 0).toNat := by
  simp [constMatches]

lemma ArrayObj.initial_constant (h : arr.isSymbolicArray ≠ true)
    (s : Assignment) (i : Nat) : arr.initial s i = (arr.constantValues.getD i 0).toNat := by
  unfold initial
  cases hc : arr.constantValues with
  | nil => simp [isSymbolicArray,hc] at h
  | cons v vs => rfl

lemma TryConstArrayOpt_yields {ul : UpdateList}
    {eqIndex : Nat → Option Expr} (h : (binary .eq (.constant cl) (.read ul index)).WF)
    (hm : ∀ i, Yields (.binary .eq index (alloc i index.width)) (eqIndex i)) :
    Yields (.binary .eq (.constant cl) (.read ul index))
      (TryConstArrayOpt cl ul index eqIndex) := by
  unfold TryConstArrayOpt
  split
  · exact .of_refines (EqExpr_create_refines h)
  rename_i hul
  split
  · exact .of_refines (EqExpr_create_refines h)
  rename_i h100
  push Not at hul
  obtain ⟨hconst,hsize⟩ := hul
  obtain ⟨arr,rfl⟩ : ∃ arr, ul = .root arr := by
    cases ul with
    | root arr => exact ⟨arr,rfl⟩
    | extend next i v => simp [UpdateList.getSize] at hsize
  simp only [UpdateList.getRoot] at hconst h100 ⊢
  obtain ⟨-,⟨-,hi,hiw⟩,hclw⟩ := id h
  have hnil : AnyIndex index [] (alloc 0 1) :=
    ⟨⟨by decide,by decide⟩,rfl,by simp [alloc,Expr.weight],
      fun _ _ => trivial,fun _ _ => by simp⟩
  have hlt : ∀ i ∈ arr.constMatches cl, i < 2^32 := fun i hi =>
    Nat.lt_trans (ArrayObj.mem_constMatches.mp hi).1 arr.size_lt
  obtain ⟨r,hr1,hr2⟩ := orAll_spec hi hiw hm (arr.constMatches cl) [] _ hnil hlt
  rw [nil_append] at hr2
  refine ⟨r,hr1,hr2.wf,hr2.width,?_,fun s live hb =>
    Expr.Defined.mono live (hr2.defined s hb.2.2.1),fun s hb => ?_⟩
  · have h1 := hr2.weight
    have h2 : (arr.constMatches cl).length*(index.weight+6) ≤ 100*(index.weight+6) :=
      Nat.mul_le_mul_right _ (by omega)
    simp only [Expr.weight,BinaryKind.weight,UpdateList.weight]
    omega
  · obtain ⟨-,-,hib,hlive⟩ := hb
    have hbound : index.eval s < arr.size :=
      Scope.constant_lt _ arr _ (hlive rfl) (by simpa [ArrayObj.isConstantArray] using hconst)
    have hmem : (constant cl).eval s = (read (.root arr) index).eval s ↔ r.eval s = 1 := by
      rw [hr2.eval s hib,ArrayObj.mem_constMatches]
      simp only [eval,UpdateList.eval,ArrayObj.initial_constant hconst]
      exact ⟨fun hv => ⟨hbound,hclw,hv⟩,fun hm => hm.2.2⟩
    rw [eval_eq h]
    rcases r.eval_bool s hr2.wf hr2.width with h0 | h0
    · rw [h0,if_neg (by rw [hmem]; omega)]
    · rw [h0,if_pos (hmem.mpr h0)]

lemma EqExpr_createPartialR_yields
    (ih : ∀ (x : Expr) (c : APInt), x.size < r.size → (Expr.binary .eq x (.constant c)).WF →
      Yields (.binary .eq x (.constant c)) (EqExpr.create x (.constant c)))
    (ihp : ∀ (c : APInt) (x : Expr), x.size < r.size → (Expr.binary .eq (.constant c) x).WF →
      Yields (.binary .eq (.constant c) x) (EqExpr_createPartialR c x))
    (h : (Expr.binary .eq (.constant cl) r).WF) :
    Yields (.binary .eq (.constant cl) r) (EqExpr_createPartialR cl r) := by
  have halloc := EqExpr_create_refines h
  unfold EqExpr_createPartialR
  split
  next hw =>
    split
    next ht =>
      exact .of_refines (.eq_true h hw (APInt.isTrue_value hw ht))
    rename_i ht
    have hc := APInt.value_zero_of_not_true hw ht
    split
    next CE e =>
      split
      next hCE =>
        exact .of_refines (.eq_eq h hc hCE.1 (by simpa [APInt.isFalse,hCE.1] using hCE.2))
      · exact .of_refines halloc
    next a b =>
      have hr := Refines.eq_or h hw hc
      have hsz : (Expr.binary .or a b).size = a.size+b.size+1 := rfl
      obtain ⟨na,hna1,hna2⟩ := ih a _ (by omega) hr.wf.1
      obtain ⟨nb,hnb1,hnb2⟩ := ih b _ (by omega) hr.wf.2.1
      have hand := Refines.binary .and hna2 hnb2 rfl
      unfold alloc
      rw [hna1,bind_some,hnb1,bind_some]
      exact .of_refines ((hr.trans hand).trans (AndExpr.create_refines hand.wf))
    · exact .of_refines halloc
  · split
    next src w =>
      have hw : cl.width = w := h.2.2
      obtain ⟨hsrc,hle,-⟩ := h.2.1
      refine .eq_ext h hsrc (fun v => sextOrTrunc_mod (src.width_pos hsrc) hle) (fun _ => rfl)
        (by grind) (fun _ hb => hb) rfl ?_
        (ih src _ (by grind))
      rw [APInt.SExt_value,APInt.ZExt_value,hw]
      rfl
    next src w =>
      have hw : cl.width = w := h.2.2
      obtain ⟨hsrc,hle,-⟩ := h.2.1
      refine .eq_ext (f := fun v => v%2^w) h hsrc (fun v => zext_mod hle) (fun _ => rfl)
        (by grind) (fun _ hb => hb) rfl ?_
        (ih src _ (by grind))
      rw [APInt.ZExt_value,APInt.ZExt_value,hw]
    next c1 b =>
      have hr := Refines.eq_add h
      exact .trans hr (ihp _ b (by grind) hr.wf)
    next c1 b =>
      have hr := Refines.eq_sub h
      exact .trans hr (ihp _ b (by grind) hr.wf)
    next ul index =>
      have hi := h.2.1.2.1
      refine TryConstArrayOpt_yields h fun i => ?_
      exact ih index _ (by grind)
        ⟨hi,⟨index.width_pos hi,index.width_lt hi⟩,rfl⟩
    · exact .of_refines halloc

lemma EqExpr_yields (n : Nat) : (∀ l r : Expr, l.size+r.size ≤ n → (binary .eq l r).WF →
      Yields (.binary .eq l r) (EqExpr.create l r)) ∧
    (∀ (c : APInt) (r : Expr), r.size < n → (binary .eq (.constant c) r).WF →
      Yields (.binary .eq (.constant c) r) (EqExpr_createPartialR c r)) := by
  induction n with
  | zero =>
    refine ⟨fun l r hn _ => ?_,fun c r hn _ => by omega⟩
    have := l.size_pos
    omega
  | succ n ih =>
    have hpart : ∀ (c : APInt) (r : Expr), r.size < n+1 → (binary .eq (.constant c) r).WF →
          Yields (.binary .eq (.constant c) r) (EqExpr_createPartialR c r) := by
      intro c r hn h
      refine EqExpr_createPartialR_yields (fun x d hx => ih.1 x _ ?_)
        (fun d x hx => ih.2 d x (by omega)) h
      grind
    refine ⟨fun l r hn h => ?_,hpart⟩
    have hswap := Refines.swap h apply_eq_comm
    unfold EqExpr.create
    split
    · exact .of_refines (.fold h)
    · exact hpart _ _ (by grind) h
    · exact .trans hswap (hpart _ _ (by grind) hswap.wf)
    · exact .of_refines (EqExpr_create_refines h)

lemma EqExpr.create_yields (h : (binary .eq l r).WF) : Yields (.binary .eq l r) (create l r) :=
  (EqExpr_yields _).1 l r le_rfl h

lemma EqExpr_createPartialR_yields' (h : (binary .eq (.constant cl) r).WF) :
    Yields (.binary .eq (.constant cl) r) (EqExpr_createPartialR cl r) :=
  (EqExpr_yields _).2 cl r (Nat.lt_succ_self _) h

lemma Expr.wf_isZero (h : e.WF) : (binary .eq e (alloc 0 e.width)).WF :=
  ⟨h,⟨e.width_pos h,e.width_lt h⟩,rfl⟩

lemma Expr.createIsZero_yields (h : e.WF) :
    Yields (.binary .eq e (alloc 0 e.width)) e.createIsZero :=
  EqExpr.create_yields (wf_isZero h)

end S2E
