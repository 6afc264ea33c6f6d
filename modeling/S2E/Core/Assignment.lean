import S2E.Core.ExecutionState
import S2E.Expr.Conforms

/-!
The class `Assignment` over its lifetime: bytes are bound, bindings are cleared and
expressions are evaluated in any order, with some bytes left free. An evaluation result
has to agree with the expression under every completion of the bindings.
-/

namespace S2E
open List Function S2E.Expr Bool ConstantExpr

def UpdateList.RefinesOn (A : Assignment → Prop) (S : Scope) : UpdateList → UpdateList → Prop
  | .root arr, .root arr' => arr = arr'
  | .extend next i v, .extend next' i' v' =>
    UpdateList.RefinesOn A S next next' ∧ S2E.RefinesOn A S i i' ∧ S2E.RefinesOn A S v v'
  | _, _ => False

variable {a : Assignment} {e : Expr} {next : UpdateList} {index : APInt} {e' f r t v x : Expr}

variable {ce u : APInt}

section RefinesOn
variable {A : Assignment → Prop} {S : Scope}

lemma RefinesOn.select_known {c : Expr} (hc : RefinesOn A S c (.constant ce))
    (hwf : (Expr.select c t f).WF)
    (hx : RefinesOn A S (if ce.isTrue then t else f) x) : RefinesOn A S (.select c t f) x := by
  obtain ⟨hcw,htw,hfw,hc1,hw⟩ := hwf
  have hce : ce.width = 1 := hc.width.trans hc1
  have htrue : ∀ a, A a → c.Defined S a true → (c.eval a = 1 ↔ ce.isTrue) := by
    intro a ha hd
    rw [← hc.eval a ha hd]
    simp [Expr.eval,APInt.isTrue,hce]
  refine ⟨hx.wf,?_,fun a ha live h => ?_,fun a ha h => ?_⟩
  · rw [hx.width]
    split
    · rfl
    · exact hw.symm
  · obtain ⟨h1,h2,h3⟩ := h
    refine hx.defined a ha live ?_
    have hiff := htrue a ha h1
    split
    next ht =>
      simpa [hiff.mpr ht] using h2
    next ht =>
      simpa [show ¬c.eval a = 1 from fun h' => ht (hiff.mp h')] using h3
  · obtain ⟨h1,h2,h3⟩ := h
    have hiff := htrue a ha h1
    rw [Expr.eval]
    by_cases ht : ce.isTrue
    · have h1' := hiff.mpr ht
      rw [if_pos h1']
      rw [if_pos ht] at hx
      exact hx.eval a ha (by simpa [h1'] using h2)
    · have h1' : ¬c.eval a = 1 := fun h' => ht (hiff.mp h')
      rw [if_neg h1']
      rw [if_neg ht] at hx
      exact hx.eval a ha (by simpa [h1'] using h3)

lemma RefinesOn.not (h : RefinesOn A S e e') : RefinesOn A S (.not e) (.not e') where
  wf := h.wf
  width := h.width
  defined a ha _ hb := h.defined a ha true hb
  eval a ha hb := by simp only [Expr.eval]; rw [h.eval a ha hb,h.width]

lemma RefinesOn.extract {off w : Nat} (h : RefinesOn A S e e') (hw : 0 < w)
    (ho : off+w ≤ e.width) : RefinesOn A S (.extract e off w) (.extract e' off w) where
  wf := ⟨h.wf,hw,by rw [h.width]; exact ho⟩
  width := rfl
  defined a ha _ hb := h.defined a ha true hb
  eval a ha hb := by simp only [Expr.eval,h.eval a ha hb]

lemma RefinesOn.zext {w : Nat} (h : RefinesOn A S e e') (hw : e.width ≤ w)
    (hlt : w < 2^32) : RefinesOn A S (.zext e w) (.zext e' w) where
  wf := ⟨h.wf,by rw [h.width]; exact hw,hlt⟩
  width := rfl
  defined a ha _ hb := h.defined a ha true hb
  eval a ha hb := by simp only [Expr.eval,h.eval a ha hb]

lemma RefinesOn.sext {w : Nat} (h : RefinesOn A S e e') (hw : e.width ≤ w)
    (hlt : w < 2^32) : RefinesOn A S (.sext e w) (.sext e' w) where
  wf := ⟨h.wf,by rw [h.width]; exact hw,hlt⟩
  width := rfl
  defined a ha _ hb := h.defined a ha true hb
  eval a ha hb := by simp only [Expr.eval,h.width,h.eval a ha hb]

lemma UpdateList.RefinesOn.refl : {ul : UpdateList} → ul.WF → ul.RefinesOn A S ul
  | .root _, _ => rfl
  | .extend _ _ _, h => ⟨refl h.1,(Refines.refl h.2.1).on,(Refines.refl h.2.2.1).on⟩

lemma UpdateList.RefinesOn.getRoot : {ul ul' : UpdateList} → ul.RefinesOn A S ul' →
    ul'.getRoot = ul.getRoot
  | .root _, .root _, h => by cases h; rfl
  | .extend next _ _, .extend next' _ _, h => by
    have ih : next'.getRoot = next.getRoot := getRoot h.1
    exact ih

lemma UpdateList.RefinesOn.wf : {ul ul' : UpdateList} → ul.RefinesOn A S ul' → ul.WF → ul'.WF
  | .root _, .root _, _, _ => trivial
  | .extend _ _ _, .extend _ _ _, ⟨hn,hi,hv⟩, hwf =>
    ⟨wf hn hwf.1,hi.wf,hv.wf,hi.width.trans hwf.2.2.2.1,hv.width.trans hwf.2.2.2.2⟩

lemma UpdateList.RefinesOn.defined (ha : A a) : {ul ul' : UpdateList} →
    ul.RefinesOn A S ul' → ul.Defined S a → ul'.Defined S a
  | .root _, .root _, _, _ => trivial
  | .extend _ _ _, .extend _ _ _, ⟨hn,hi,hv⟩, h =>
    ⟨defined ha hn h.1,hi.defined a ha true h.2.1,hv.defined a ha true h.2.2⟩

lemma UpdateList.RefinesOn.eval (ha : A a) (j : Nat) : {ul ul' : UpdateList} →
    ul.RefinesOn A S ul' → ul.Defined S a → ul'.eval a j = ul.eval a j
  | .root _, .root _, h, _ => by cases h; rfl
  | .extend _ _ _, .extend _ _ _, ⟨hn,hi,hv⟩, h => by
    rw [UpdateList.eval,UpdateList.eval,hi.eval a ha h.2.1,hv.eval a ha h.2.2,eval ha j hn h.1]

lemma RefinesOn.read {ul ul' : UpdateList} {i i' : Expr} (hu : ul.RefinesOn A S ul')
    (h : RefinesOn A S i i') (hwf : (read ul i).WF) :
    RefinesOn A S (.read ul i) (.read ul' i') where
  wf := ⟨hu.wf hwf.1,h.wf,h.width.trans hwf.2.2⟩
  width := rfl
  defined a ha live hb := by
    obtain ⟨h1,h2,h3⟩ := hb
    refine ⟨hu.defined ha h1,h.defined a ha true h2,?_⟩
    rw [hu.getRoot,h.eval a ha h2]
    exact h3
  eval a ha hb := by
    rw [Expr.eval,Expr.eval,h.eval a ha hb.2.1]
    exact hu.eval ha _ hb.1

lemma RefinesOn.read_skip (hwf : (Expr.read (.extend next (.constant u) v) (.constant index)).WF)
    (hne : ¬index.value = u.value) :
    RefinesOn A S (.read (.extend next (.constant u) v) (.constant index))
      (.read next (.constant index)) where
  wf := ⟨hwf.1.1,hwf.2⟩
  width := rfl
  defined _ _ _ h := ⟨h.1.1,trivial,h.2.2⟩
  eval a _ _ := by
    simp only [Expr.eval,UpdateList.eval]
    exact (if_neg (Ne.symm hne)).symm

lemma RefinesOn.read_hit (hwf : (Expr.read (.extend next (.constant u) v) (.constant index)).WF)
    (heq : index.value = u.value) :
    RefinesOn A S (.read (.extend next (.constant u) v) (.constant index)) v where
  wf := hwf.1.2.2.1
  width := hwf.1.2.2.2.2
  defined _ _ live h := Expr.Defined.mono live h.1.2.2
  eval a _ _ := by
    simp only [Expr.eval,UpdateList.eval]
    exact (if_pos heq.symm).symm

end RefinesOn

section
variable {S T : Scope} (hr : ∀ arr i, S.readable arr i → T.readable arr i)
  (hd : ∀ v, S.divisor v → T.divisor v)

include hr hd

set_option linter.unusedSectionVars false in
mutual
theorem Expr.Defined.imp : (e : Expr) → (live : Bool) → e.Defined S a live → e.Defined T a live
  | .constant _, _, _ => trivial
  | .read ul i, _, h =>
    ⟨UpdateList.Defined.imp ul h.1,Expr.Defined.imp i true h.2.1,fun hl => hr _ _ (h.2.2 hl)⟩
  | .select c t f, _, h =>
    ⟨Expr.Defined.imp c true h.1,Expr.Defined.imp t _ h.2.1,Expr.Defined.imp f _ h.2.2⟩
  | .concat l r, _, h => ⟨Expr.Defined.imp l true h.1,Expr.Defined.imp r true h.2⟩
  | .extract e _ _, _, h | .not e, _, h | .zext e _, _, h | .sext e _, _, h =>
    Expr.Defined.imp e true h
  | .binary _ l r, _, h =>
    ⟨Expr.Defined.imp l true h.1,BinaryKind.guard_imp h.2 (Expr.Defined.imp r true) fun _ => hd _⟩

theorem UpdateList.Defined.imp : (ul : UpdateList) → ul.Defined S a → ul.Defined T a
  | .root _, _ => trivial
  | .extend next i v, h =>
    ⟨UpdateList.Defined.imp next h.1,Expr.Defined.imp i true h.2.1,Expr.Defined.imp v true h.2.2⟩
end
end

def Scope.inside : Scope where
  readable arr i := i < arr.size
  divisor _ := True
  constant_lt _ _ h _ := h

variable {arr : ArrayObj}

namespace Concolics
variable (c : Concolics)

def byte (arr : ArrayObj) (i : Nat) : Option (BitVec 8) :=
  (c.bindings.lookup arr).bind fun bytes => bytes[i]?

/-- The assignment has the bytes that are bound. Bytes that are not are zero, unless free
values are allowed. -/
def Completes (a : Assignment) : Prop :=
  ∀ arr i, match c.byte arr i with
    | some b => a arr i = b
    | none => c.allowFreeValues = false → a arr i = 0

def known : Scope where
  readable arr i := i < arr.size ∧
    (arr.isConstantArray = true ∨ (c.byte arr i).isSome = true ∨ c.allowFreeValues = false)
  divisor v := v ≠ 0
  constant_lt _ _ h _ := h.1

/-- The scope asks for no more than the known bytes and for no divisor, and inside it a
byte outside a symbolic array is not bound. -/
structure Suits (S : Scope) : Prop where
  readable : ∀ {arr i}, S.readable arr i →
    i < arr.size ∨ (arr.isConstantArray = false ∧ c.byte arr i = none)
  known : ∀ {arr i}, c.known.readable arr i → S.readable arr i
  divisor : ∀ v, S.divisor v

lemma suits_inside : c.Suits .inside where
  readable h := .inl h
  known h := h.1
  divisor _ := trivial

structure Visited (S : Scope) (s : Assignment) (e r : Expr) : Prop where
  refines : RefinesOn c.Completes S e r
  tame : r.Conforms (.tame s)
  constant : ∀ a, c.Completes a → e.Defined c.known a true → r.isConstant = true

structure VisitedList (S : Scope) (s : Assignment) (ul ul' : UpdateList) : Prop where
  refines : ul.RefinesOn c.Completes S ul'
  tame : ul'.Conforms (.tame s)
  constant : ∀ a, c.Completes a → ul.Defined c.known a →
    ∀ n ∈ ul'.nodes, n.1.isConstant = true ∧ n.2.isConstant = true

/-- The cache holds constants that agree with their expressions, and any such constant may be
added, except for an expression with the property `K`. -/
structure Remembers (S : Scope) (K : Expr → Prop) (ok : List (Expr × Expr) → Prop) : Prop where
  hit : ∀ {cache e r}, ok cache → cache.lookup e = some r →
    r.isConstant = true ∧ RefinesOn c.Completes S e r
  insert : ∀ {cache e r}, ok cache → ¬K e → r.isConstant = true → RefinesOn c.Completes S e r →
    ok ((e,r) :: cache)

variable {c : Concolics} {S : Scope} {s : Assignment} {K : Expr → Prop}
  {ok : List (Expr × Expr) → Prop}

lemma completes_assignment (c : Concolics) : c.Completes c.assignment := by
  intro arr i
  simp only [byte,assignment]
  cases c.bindings.lookup arr with
  | none => exact fun _ => rfl
  | some bytes =>
    simp only [Option.bind_some,Option.getD_some,getD_eq_getElem?_getD]
    cases bytes[i]? with
    | none => exact fun _ => rfl
    | some b => rfl

lemma Suits.defined (hS : c.Suits S) {live : Bool}
    (h : e.Defined c.known a live) : e.Defined S a live :=
  Expr.Defined.imp (S := c.known) (fun _ _ hr => hS.known hr) (fun v _ => hS.divisor v) e live h

lemma Visited.of_constant (hr : r.isConstant)
    (h : RefinesOn c.Completes S e r) : c.Visited S s e r := by
  refine ⟨h,?_,fun _ _ _ => hr⟩
  cases r with
  | constant v => trivial
  | _ => cases hr

/-- The cases of `visit` that look into the cache. The expressions with the property `K` are
dealt with on their own. -/
lemma Remembers.cached (hrem : c.Remembers S K ok)
    (hK : ∀ e, e.WF → K e → EvalM.Ends ok (c.visit e) (c.Visited S s e))
    {m : EvalM Expr} (hvisit : c.visit e = EvalM.cached e m) (he : e.WF)
    (h : EvalM.Ends ok m (c.Visited S s e)) : EvalM.Ends ok (c.visit e) (c.Visited S s e) := by
  by_cases hk : K e
  · exact hK e he hk
  rw [hvisit]
  refine .cached (fun cache r hc hl => ?_) (fun cache r hc hr hconst => ?_) h
  · obtain ⟨hr,href⟩ := hrem.hit hc hl
    exact .of_constant hr href
  · exact hrem.insert hc hk hconst hr.refines

lemma Visited.rebuild {n : Expr} (n' : Expr) (h : RefinesOn c.Completes S n n')
    (hk : n'.KidsConform (.tame s)) (ha : (Grammar.tame s).Asks n') (hz : n'.dividesByZero = false)
    (hc : ∀ a, c.Completes a → n.Defined c.known a true → ∃ v, n'.create = some (.constant v)) :
    ∃ r, n'.create = some r ∧ c.Visited S s n r := by
  obtain ⟨r,hr,href,htame⟩ := create_tame h.wf hk ha hz
  refine ⟨r,hr,h.trans href.on,htame,fun a hca hd => ?_⟩
  obtain ⟨v,hv⟩ := hc a hca hd
  rw [hr] at hv
  cases hv
  rfl

lemma Visited.constant_eq (hS : c.Suits S)
    (h : c.Visited S s e r) (ha : c.Completes a) (hd : e.Defined c.known a true) :
    ∃ v : APInt, r = .constant v ∧ v.width = e.width ∧ v.value = e.eval a := by
  have hr := h.constant a ha hd
  have hev := h.refines.eval a ha (hS.defined hd)
  have hw := h.refines.width
  cases r with
  | constant v => exact ⟨v,rfl,hw,hev⟩
  | _ => cases hr

lemma evaluateAt_spec (hS : c.Suits S)
    (hw : index.width = 32) (hsym : ¬(arr.isConstantArray ∧ index.value < arr.size)) :
    ∃ r, c.evaluateAt arr index.value = some r ∧
      RefinesOn c.Completes S (.read (.root arr) (.constant index)) r ∧
      r.Conforms (.tame s) ∧ (c.known.readable arr index.value → r.isConstant) := by
  have hwf : (read (.root arr) (.constant index)).WF :=
    ⟨trivial,⟨by rw [hw]; decide,by rw [hw]; decide⟩,hw⟩
  -- where it is read the array is symbolic, and the value is the byte of the assignment
  have hval : ∀ a : Assignment, (read (.root arr) (.constant index)).Defined S a true →
      (read (.root arr) (.constant index)).eval a =
        if index.value < arr.size then (a arr index.value).toNat else 0 := by
    intro a hd
    have hread : index.value < arr.size ∨ (arr.isConstantArray = false ∧ _) :=
      hS.readable (hd.2.2 rfl)
    have hnil : arr.constantValues = [] := by
      by_contra hne
      have hc : arr.isConstantArray := by
        simpa [ArrayObj.isConstantArray,ArrayObj.isSymbolicArray] using hne
      rcases hread with hi | ⟨hc',-⟩
      · exact hsym ⟨hc,hi⟩
      · rw [hc] at hc'
        cases hc'
    simp only [Expr.eval,UpdateList.eval,ArrayObj.initial,hnil]
    rfl
  have hfree : c.byte arr index.value = none → ∃ r, (if c.allowFreeValues then
          ReadExpr.create (.root arr) (alloc index.value 32)
        else some (alloc 0 8)) = some r ∧
        RefinesOn c.Completes S (.read (.root arr) (.constant index)) r ∧
        r.Conforms (.tame s) ∧ (c.known.readable arr index.value → r.isConstant) := by
    intro hnone
    by_cases hfv : c.allowFreeValues
    · have halloc : alloc index.value 32 = .constant index := by
        rw [alloc,← hw,APInt.ofNat_value_self]
      refine ⟨.read (.root arr) (.constant index),?_,(Refines.refl hwf).on,⟨trivial,trivial⟩,?_⟩
      · rw [if_pos hfv,halloc]
        rfl
      · rintro ⟨hi,hk⟩
        rcases hk with hk | hk | hk
        · exact absurd ⟨hk,hi⟩ hsym
        · rw [hnone] at hk
          cases hk
        · rw [hfv] at hk
          cases hk
    · refine ⟨alloc 0 8,by rw [if_neg hfv],?_,trivial,fun _ => rfl⟩
      refine .constant _ hwf rfl fun a ha hd => ?_
      have hzero := ha arr index.value
      rw [hnone] at hzero
      rw [hval a hd,hzero (by simpa using hfv)]
      split <;> rfl
  cases hl : c.bindings.lookup arr with
  | none =>
    simp only [evaluateAt,hl]
    exact hfree (by simp [byte,hl])
  | some bytes =>
    cases hb : bytes[index.value]? with
    | none =>
      simp only [evaluateAt,hl,hb]
      exact hfree (by simp [byte,hl,hb])
    | some b =>
      have hbyte : c.byte arr index.value = some b := by simp [byte,hl,hb]
      refine ⟨alloc b.toNat 8,by simp only [evaluateAt,hl,hb],?_,trivial,fun _ => rfl⟩
      refine .constant _ hwf rfl fun a ha hd => ?_
      have hb' := ha arr index.value
      rw [hbyte] at hb'
      have hi : index.value < arr.size := by
        rcases hS.readable (hd.2.2 rfl) with hi | ⟨-,hnone⟩
        · exact hi
        · have : c.byte arr index.value = none := hnone
          rw [hbyte] at this
          cases this
      rw [hval a hd,if_pos hi,hb',APInt.ofNat_value,Nat.mod_eq_of_lt b.isLt]

lemma scanUpdates_spec (hS : c.Suits S) : (ul : UpdateList) →
    (Expr.read ul (.constant index)).WF → ul.Conforms (.tame s) →
    ∃ r, c.scanUpdates index ul = some r ∧
      RefinesOn c.Completes S (.read ul (.constant index)) r ∧ r.Conforms (.tame s) ∧
      ((∀ n ∈ ul.nodes, n.1.isConstant ∧ n.2.isConstant) →
        c.known.readable ul.getRoot index.value → r.isConstant)
  | .root arr, h, _ => by
    have hlt : index.value < 2^32 := by
      have := index.value_lt
      rwa [show index.width = 32 from h.2.2] at this
    unfold scanUpdates
    split
    next hc =>
      refine ⟨_,rfl,.constant _ h rfl fun a _ _ => ?_,trivial,fun _ _ => rfl⟩
      simp only [Expr.eval,UpdateList.eval,ArrayObj.initial,APInt.ofNat_value]
      rw [Nat.mod_eq_of_lt (BitVec.isLt _)]
      cases hv : arr.constantValues with
      | nil => simp [ArrayObj.isConstantArray,ArrayObj.isSymbolicArray,hv] at hc
      | cons v vs => rfl
    next hc =>
      rw [Nat.mod_eq_of_lt hlt]
      obtain ⟨r,hr,href,htame,hk⟩ := evaluateAt_spec (s := s) hS h.2.2 hc
      exact ⟨r,hr,href,htame,fun _ => hk⟩
  | .extend next i v, h, ht => by
    cases hi : i.isConstant with
    | true =>
      obtain ⟨u,rfl⟩ : ∃ u, i = .constant u := by
        cases i with
        | constant u => exact ⟨u,rfl⟩
        | _ => cases hi
      unfold scanUpdates
      split
      next heq =>
        refine ⟨v,rfl,.read_hit h heq,ht.2.2,fun hn _ => ?_⟩
        exact (hn (.constant u,v) mem_cons_self).2
      rename_i hne
      have hskip : RefinesOn c.Completes S _ _ := .read_skip h hne
      obtain ⟨r,hr,href,htame,hk⟩ := scanUpdates_spec hS next hskip.wf ht.1
      refine ⟨r,hr,hskip.trans href,htame,fun hn => hk fun n hmem => ?_⟩
      exact hn n (mem_cons_of_mem _ hmem)
    | false =>
      have hscan : c.scanUpdates index (.extend next i v) =
          (Expr.read (.extend next i v) (.constant index)).create := by
        cases i with
        | constant u => cases hi
        | _ => rfl
      obtain ⟨r,hr,href,htame⟩ := create_tame (a := s) h ⟨ht,trivial⟩ trivial rfl
      refine ⟨r,hscan.trans hr,href.on,htame,fun hn _ => ?_⟩
      have := (hn (i,v) mem_cons_self).1
      rw [hi] at this
      cases this

lemma isZero_eq_constant (h : e.isZero) : ∃ v : APInt, e = .constant v ∧ v.value = 0 := by
  cases e with
  | constant v => exact ⟨v,rfl,(APInt.isZero_iff v).mp h⟩
  | _ => cases h

lemma kidsConform_one {G : Grammar} (h : x.Conforms G) : ∀ z ∈ [x], z.Conforms G := by
  simpa using h

lemma evaluateBinary_spec (hS : c.Suits S) (hs : c.Completes s) {k : BinaryKind} {l a1 a2 : Expr}
    (h : (binary k l r).WF) (hd : (binary k l r).Defined S s false)
    (ht : (binary k l r).Conforms (.tame s)) (h1 : c.Visited S s l a1) (h2 : c.Visited S s r a2) :
    ∃ x, evaluateBinary k r a1 a2 = some x ∧ c.Visited S s (.binary k l r) x := by
  have hkids : ∀ {x y : Expr}, x.Conforms (.tame s) → y.Conforms (.tame s) →
      (binary k x y).KidsConform (.tame s) := fun hx hy =>
    forall_mem_cons.mpr ⟨hx,kidsConform_one hy⟩
  have hconst : ∀ a, c.Completes a → (binary k l r).Defined c.known a true →
      ∃ v w : APInt, a1 = .constant v ∧ a2 = .constant w ∧ (k.isDivision → w.isZero = false) := by
    intro a ha hda
    obtain ⟨v,rfl,-,-⟩ := h1.constant_eq hS ha hda.1
    obtain ⟨w,rfl,-,hw⟩ := h2.constant_eq hS ha (BinaryKind.guard_left hda.2)
    refine ⟨v,w,rfl,rfl,fun hk => ?_⟩
    have hne : r.eval a ≠ 0 := by
      have hg := hda.2
      cases k with
      | udiv | sdiv | urem | srem => exact hg.2
      | _ => cases hk
    rw [eq_false_iff,ne_eq,APInt.isZero_iff,hw]
    exact hne
  unfold evaluateBinary
  split
  next hk =>
    subst hk
    have hzero : ∀ z : APInt, z.width = l.width → z.value = 0 →
        (∀ a, c.Completes a → (binary .and l r).Defined S a true →
          l.eval a = 0 ∨ r.eval a = 0) → c.Visited S s (.binary .and l r) (.constant z) := by
      intro z hzw hz hv
      refine .of_constant rfl (.constant z h hzw fun a ha hda => ?_)
      rw [hz,Expr.eval]
      rcases hv a ha hda with h0 | h0
      · rw [h0,(apply_and_zero _ _).1]
      · rw [h0,(apply_and_zero _ _).2]
    split
    next hz =>
      obtain ⟨z,rfl,hz0⟩ := isZero_eq_constant hz
      refine ⟨_,rfl,hzero z h1.refines.width hz0 fun a ha hda => .inl ?_⟩
      rw [← h1.refines.eval a ha hda.1,Expr.eval,hz0]
    · split
      next hz =>
        obtain ⟨z,rfl,hz0⟩ := isZero_eq_constant hz
        refine ⟨_,rfl,hzero z (h2.refines.width.trans h.2.2.symm) hz0 fun a ha hda => .inr ?_⟩
        rw [← h2.refines.eval a ha hda.2,Expr.eval,hz0]
      · refine Visited.rebuild (.binary .and a1 a2)
          (.binary .and h1.refines h2.refines h.2.2) (hkids h1.tame h2.tame) (fun _ => ?_) rfl ?_
        · have hw : l.width ≤ 64 := ht.2.2
          rw [← h1.refines.width] at hw
          exact hw
        · intro a ha hda
          obtain ⟨v,w,rfl,rfl,hz⟩ := hconst a ha hda
          exact BinaryKind.create_constants .and v w hz
  next hkand =>
    split
    next hz =>
      rw [and_eq_true] at hz
      have hr : r.isZero = false := by
        have hn := ht.2.2
        cases k with
        | udiv | sdiv | urem | srem => exact hn
        | _ => cases hz.1
      refine Visited.rebuild (.binary k a1 r)
        (.binary k h1.refines (Refines.refl h.2.1).on h.2.2) (hkids h1.tame ht.2.1) ?_ ?_ ?_
      · cases k with
        | udiv | sdiv | urem | srem => exact fun _ => hr
        | _ => cases hz.1
      · simp [dividesByZero,hr]
      · intro a ha hda
        obtain ⟨v,w,-,rfl,hw⟩ := hconst a ha hda
        have hw0 := hw hz.1
        rw [show w.isZero from hz.2] at hw0
        cases hw0
    next hz =>
      have hz' : k.isDivision → a2.isZero = false := by
        intro hk
        simpa [hk] using hz
      refine Visited.rebuild (.binary k a1 a2) (.binary k h1.refines h2.refines h.2.2)
        (hkids h1.tame h2.tame) ?_ ?_ ?_
      · have hr := h2.refines.eval s hs (BinaryKind.guard_left hd.2)
        have hn := ht.2.2
        cases k with
        | and => exact absurd rfl hkand
        | shl =>
          intro _
          have hn' : l.width ≤ 64 ∧ r.eval s < 2^63 := hn
          rw [← h1.refines.width,← hr] at hn'
          exact hn'
        | lshr =>
          intro _
          have hn' : r.eval s < 2^63 := hn
          rw [← hr] at hn'
          exact hn'
        | udiv | sdiv | urem | srem => exact fun _ => hz' rfl
        | _ => trivial
      · simp only [dividesByZero]
        cases hk : k.isDivision with
        | false => rfl
        | true => rw [hz' hk,Bool.and_false]
      · intro a ha hda
        obtain ⟨v,w,rfl,rfl,hw⟩ := hconst a ha hda
        exact BinaryKind.create_constants k v w hw

lemma Visited.select_known (hS : c.Suits S) {cond : Expr} (h : (select cond t f).WF)
    (hc : c.Visited S s cond (.constant ce)) (hx : c.Visited S s (if ce.isTrue then t else f) x) :
    c.Visited S s (.select cond t f) x := by
  refine ⟨.select_known hc.refines h hx.refines,hx.tame,fun a ha hd => hx.constant a ha ?_⟩
  obtain ⟨h1,h2,h3⟩ := hd
  have hev := hc.refines.eval a ha (hS.defined h1)
  have hw : ce.width = 1 := hc.refines.width.trans h.2.2.2.1
  have hiff : cond.eval a = 1 ↔ ce.isTrue := by
    rw [← hev]
    simp [Expr.eval,APInt.isTrue,hw]
  split
  next ht =>
    simpa [hiff.mpr ht] using h2
  next ht =>
    simpa [show ¬cond.eval a = 1 from fun h' => ht (hiff.mp h')] using h3

section Visit
variable (hS : c.Suits S) (hs : c.Completes s) (hrem : c.Remembers S K ok)
  (hK : ∀ e, e.WF → K e → EvalM.Ends ok (c.visit e) (c.Visited S s e))

include hS hs hrem hK

set_option linter.unusedSectionVars false in
mutual
theorem visit_spec : (e : Expr) → e.WF → e.Defined S s false → e.Conforms (.tame s) →
    EvalM.Ends ok (c.visit e) (c.Visited S s e)
  | .constant v, h, _, _ => .pure (.of_constant rfl (Refines.refl h).on)
  | .read ul i, h, hd, ht => by
    refine hrem.cached hK rfl h
      (.bind (visit_spec i h.2.1 (hd.2.1.mono false) ht.2) fun idx hidx => ?_)
    split
    next index =>
      refine .bind (rewriteUpdates_spec ul h.1 hd.1 ht.1) fun ul' hul => .lift ?_
      have href := RefinesOn.read hul.refines hidx.refines h
      obtain ⟨r,hr,hscan,htame,hk⟩ := scanUpdates_spec hS ul' href.wf hul.tame
      refine ⟨r,hr,href.trans hscan,htame,fun a ha hda => ?_⟩
      refine hk (hul.constant a ha hda.1) ?_
      rw [hul.refines.getRoot,show index.value = i.eval a from
        hidx.refines.eval a ha (hS.defined hda.2.1)]
      exact hda.2.2 rfl
    next hne =>
      refine .lift (Visited.rebuild (.read ul idx) (.read (.refl h.1) hidx.refines h)
        ⟨ht.1,hidx.tame⟩ trivial rfl fun a ha hda => ?_)
      obtain ⟨v,hv,-,-⟩ := hidx.constant_eq hS ha hda.2.1
      exact absurd hv (hne v)
  | .select cond t f, h, hd, ht => by
    have hvt := visit_spec t h.2.1 hd.2.1 ht.2.1
    have hvf := visit_spec f h.2.2.1 hd.2.2 ht.2.2
    refine hrem.cached hK rfl h (.bind (visit_spec cond h.1 (hd.1.mono false) ht.1) fun x hx => ?_)
    split
    next ce =>
      split
      next hce =>
        exact hvt.mono fun v hv => hx.select_known hS h (by rwa [if_pos hce])
      next hce =>
        exact hvf.mono fun v hv => hx.select_known hS h (by rwa [if_neg hce])
    next hne =>
      refine .bind hvt fun t' ht' => .bind hvf fun f' hf' => .lift ?_
      refine Visited.rebuild (.select x t' f')
        (.select hx.refines ht'.refines hf'.refines h.2.2.2.1 h.2.2.2.2)
        (forall_mem_cons.mpr ⟨hx.tame,forall_mem_cons.mpr ⟨ht'.tame,kidsConform_one hf'.tame⟩⟩)
        trivial rfl fun a ha hda => ?_
      obtain ⟨v,hv,-,-⟩ := hx.constant_eq hS ha hda.1
      exact absurd hv (hne v)
  | .concat l r, h, hd, ht => by
    refine hrem.cached hK rfl h (.bind (visit_spec l h.1 (hd.1.mono false) ht.1) fun l' hl =>
      .bind (visit_spec r h.2.1 (hd.2.mono false) ht.2) fun r' hr => .lift ?_)
    refine Visited.rebuild (.concat l' r') (.concat hl.refines hr.refines h.2.2)
      (forall_mem_cons.mpr ⟨hl.tame,kidsConform_one hr.tame⟩) trivial rfl fun a ha hda => ?_
    obtain ⟨v,rfl,-,-⟩ := hl.constant_eq hS ha hda.1
    obtain ⟨w,rfl,-,-⟩ := hr.constant_eq hS ha hda.2
    exact ConcatExpr.create_constants v w
  | .extract e off w, h, hd, ht => by
    refine hrem.cached hK rfl h
      (.bind (visit_spec e h.1 (hd.mono false) ht.1) fun e' he => .lift ?_)
    have href : RefinesOn c.Completes S (.extract e off w) (.extract e' off w) :=
      .extract he.refines h.2.1 h.2.2
    refine Visited.rebuild (.extract e' off w) href (kidsConform_one he.tame) trivial rfl
      fun a ha hda => ?_
    obtain ⟨v,rfl,-,-⟩ := he.constant_eq hS ha hda
    exact ExtractExpr.create_constant href.wf
  | .not e, h, hd, ht => by
    refine hrem.cached hK rfl h (.bind (visit_spec e h (hd.mono false) ht) fun e' he => ?_)
    obtain ⟨r,hr,hv⟩ : ∃ r, (not e').create = some r ∧ c.Visited S s (.not e) r := by
      refine Visited.rebuild _ (.not he.refines) (kidsConform_one he.tame) trivial rfl
        fun a ha hda => ?_
      obtain ⟨v,rfl,-,-⟩ := he.constant_eq hS ha hda
      exact ⟨_,rfl⟩
    cases hr
    exact .pure hv
  | .zext e w, h, hd, ht => by
    refine hrem.cached hK rfl h
      (.bind (visit_spec e h.1 (hd.mono false) ht.1) fun e' he => .lift ?_)
    have href := RefinesOn.zext he.refines h.2.1 h.2.2
    refine Visited.rebuild (.zext e' w) href (kidsConform_one he.tame) trivial rfl
      fun a ha hda => ?_
    obtain ⟨v,rfl,-,-⟩ := he.constant_eq hS ha hda
    exact ZExtExpr.create_constant href.wf
  | .sext e w, h, hd, ht => by
    refine hrem.cached hK rfl h
      (.bind (visit_spec e h.1 (hd.mono false) ht.1) fun e' he => .lift ?_)
    have href := RefinesOn.sext he.refines h.2.1 h.2.2
    refine Visited.rebuild (.sext e' w) href (kidsConform_one he.tame) trivial rfl
      fun a ha hda => ?_
    obtain ⟨v,rfl,-,-⟩ := he.constant_eq hS ha hda
    exact SExtExpr.create_constant href.wf
  | .binary k l r, h, hd, ht => by
    refine hrem.cached hK rfl h (.bind (visit_spec l h.1 (hd.1.mono false) ht.1) fun a1 h1 =>
      .bind (visit_spec r h.2.1 ((BinaryKind.guard_left hd.2).mono false) ht.2.1)
        fun a2 h2 => .lift ?_)
    exact evaluateBinary_spec hS hs h hd ht h1 h2

theorem rewriteUpdates_spec : (ul : UpdateList) → ul.WF → ul.Defined S s →
    ul.Conforms (.tame s) → EvalM.Ends ok (c.rewriteUpdatesUncached ul) (c.VisitedList S s ul)
  | .root arr, _, _, _ => .pure ⟨rfl,trivial,fun _ _ _ n hn => by cases hn⟩
  | .extend next i v, h, hd, ht => by
    refine .bind (rewriteUpdates_spec next h.1 hd.1 ht.1) fun next' hn => ?_
    refine .bind (visit_spec i h.2.1 (hd.2.1.mono false) ht.2.1) fun i' hi => ?_
    refine .bind (visit_spec v h.2.2.1 (hd.2.2.mono false) ht.2.2) fun v' hv => .pure ?_
    refine ⟨⟨hn.refines,hi.refines,hv.refines⟩,⟨hn.tame,hi.tame,hv.tame⟩,?_⟩
    intro a ha hda n hmem
    rcases mem_cons.mp hmem with rfl | hmem
    · exact ⟨hi.constant a ha hda.2.1,hv.constant a ha hda.2.2⟩
    · exact hn.constant a ha hda.1 n hmem
end
end Visit
end Concolics

mutual
def Expr.mentions (arr : ArrayObj) : Expr → Bool
  | .constant _ => false
  | .read ul i => ul.mentions arr || i.mentions arr
  | .select c t f => c.mentions arr || t.mentions arr || f.mentions arr
  | .concat l r => l.mentions arr || r.mentions arr
  | .extract e _ _ => e.mentions arr
  | .not e => e.mentions arr
  | .zext e _ => e.mentions arr
  | .sext e _ => e.mentions arr
  | .binary _ l r => l.mentions arr || r.mentions arr

def UpdateList.mentions (arr : ArrayObj) : UpdateList → Bool
  | .root x => x = arr
  | .extend next i v => next.mentions arr || i.mentions arr || v.mentions arr
end

section
variable {S : Scope} {a b : Assignment}

mutual
theorem Expr.congr_of_mentions : (e : Expr) →
    (∀ arr, e.mentions arr → ∀ i, arr.initial a i = arr.initial b i) →
    e.eval a = e.eval b ∧ ∀ live, e.Defined S a live → e.Defined S b live
  | .constant _, _ => ⟨rfl,fun _ _ => trivial⟩
  | .read ul i, h => by
    simp only [mentions,or_eq_true,or_imp,forall_and] at h
    have hu := ul.congr_of_mentions h.1
    have hi := i.congr_of_mentions h.2
    refine ⟨by rw [Expr.eval,Expr.eval,hi.1,hu.1],fun live hd => ?_⟩
    exact ⟨hu.2 hd.1,hi.2 true hd.2.1,by rw [← hi.1]; exact hd.2.2⟩
  | .select c t f, h => by
    simp only [mentions,or_eq_true,or_imp,forall_and] at h
    have hc := c.congr_of_mentions h.1.1
    have ht := t.congr_of_mentions h.1.2
    have hf := f.congr_of_mentions h.2
    refine ⟨by rw [Expr.eval,Expr.eval,hc.1,ht.1,hf.1],fun live hd => ?_⟩
    refine ⟨hc.2 true hd.1,?_,?_⟩
    · rw [← hc.1]; exact ht.2 _ hd.2.1
    · rw [← hc.1]; exact hf.2 _ hd.2.2
  | .concat l r, h => by
    simp only [mentions,or_eq_true,or_imp,forall_and] at h
    have hl := l.congr_of_mentions h.1
    have hr := r.congr_of_mentions h.2
    exact ⟨by rw [Expr.eval,Expr.eval,hl.1,hr.1],fun _ hd => ⟨hl.2 true hd.1,hr.2 true hd.2⟩⟩
  | .extract e _ _, h | .not e, h | .zext e _, h | .sext e _, h => by
    have he := e.congr_of_mentions h
    exact ⟨by rw [Expr.eval,Expr.eval,he.1],fun _ hd => he.2 true hd⟩
  | .binary k l r, h => by
    simp only [mentions,or_eq_true,or_imp,forall_and] at h
    have hl := l.congr_of_mentions h.1
    have hr := r.congr_of_mentions h.2
    refine ⟨by rw [Expr.eval,Expr.eval,hl.1,hr.1],fun _ hd => ⟨hl.2 true hd.1,?_⟩⟩
    refine BinaryKind.guard_imp hd.2 (hr.2 true) fun _ => ?_
    rw [hr.1]
    exact id

theorem UpdateList.congr_of_mentions : (ul : UpdateList) →
    (∀ arr, ul.mentions arr → ∀ i, arr.initial a i = arr.initial b i) →
    (∀ j, ul.eval a j = ul.eval b j) ∧ (ul.Defined S a → ul.Defined S b)
  | .root x, h => ⟨h x (by simp [UpdateList.mentions]),fun _ => trivial⟩
  | .extend next i v, h => by
    simp only [UpdateList.mentions,or_eq_true,or_imp,forall_and] at h
    have hn := next.congr_of_mentions h.1.1
    have hi := i.congr_of_mentions h.1.2
    have hv := v.congr_of_mentions h.2
    refine ⟨fun j => by rw [UpdateList.eval,UpdateList.eval,hi.1,hv.1,hn.1],fun hd => ?_⟩
    exact ⟨hn.2 hd.1,hi.2 true hd.2.1,hv.2 true hd.2.2⟩
end
end

variable {object : ArrayObj} {value : List (BitVec 8)}

namespace Concolics

/-- The calls of an assignment. Besides them, `UpdateList::extend` changes lists in place, and with
them the expressions that read them, also those in the cache; `extended` says which one each
becomes. -/
inductive Call where
  | add (object : ArrayObj) (value : List (BitVec 8))
  | clear
  | evaluate (e : Expr)
  | extend (extended : Expr → Expr)

variable (c : Concolics)

def step : Call → Option Concolics
  | .add object value => some (c.add object value)
  | .clear => some c.clear
  | .evaluate e => (c.evaluate e).map Prod.snd
  | .extend extended =>
    some {c with expressionCache := c.expressionCache.map fun p => (extended p.1,p.2)}

def run (calls : List Call) : Option Concolics := calls.foldlM step c

/-- The expression is well formed, and under some completion of the bindings its reads are
inside their arrays and it is tame. -/
def Evaluable (e : Expr) : Prop :=
  e.WF ∧ ∃ a, c.Completes a ∧ e.Defined .inside a true ∧ e.Conforms (.tame a)

/-- With free values not allowed, a new array is bound only as long as no remembered
expression reads it, and no list that one reads is extended. -/
def Allowed : Call → Prop
  | .add object _ => c.allowFreeValues = true ∨ (c.bindings.lookup object).isSome = true ∨
      ∀ p ∈ c.expressionCache, p.1.mentions object = false
  | .clear => True
  | .evaluate e => c.Evaluable e
  | .extend extended => ∀ p ∈ c.expressionCache, extended p.1 = p.1

def AllAllowed : Concolics → List Call → Prop
  | _, [] => True
  | c, call :: calls => c.Allowed call ∧ ∀ c', c.step call = some c' → AllAllowed c' calls

structure Evaluates (e r : Expr) : Prop where
  width : r.width = e.width
  eval : ∀ a, c.Completes a → e.Defined .inside a true → r.eval a = e.eval a
  constant : ∀ a, c.Completes a → e.Defined c.known a true → r.isConstant = true

def CacheSound (cache : List (Expr × Expr)) : Prop :=
  ∀ e r, cache.lookup e = some r → r.isConstant = true ∧ RefinesOn c.Completes .inside e r

lemma remembers_cacheSound : c.Remembers .inside (fun _ => False) c.CacheSound where
  hit hc hl := hc _ _ hl
  insert hc _ hr href := by
    intro x y hx
    rw [lookup_cons] at hx
    split at hx
    next hxe =>
      cases Option.some.inj hx
      rw [eq_of_beq hxe]
      exact ⟨hr,href⟩
    · exact hc x y hx

variable {c : Concolics}

lemma evaluate_spec (hc : c.CacheSound c.expressionCache)
    (h : c.Evaluable e) : ∃ r cache, c.evaluate e = some (r, {c with expressionCache := cache}) ∧
      c.Evaluates e r ∧ c.CacheSound cache := by
  obtain ⟨hwf,s,hs,hd,ht⟩ := h
  obtain ⟨r,cache,hv,hr,hc'⟩ := visit_spec (suits_inside c) hs (remembers_cacheSound c)
    (fun _ _ => False.elim) e hwf (hd.mono false) ht c.expressionCache hc
  refine ⟨r,cache,by rw [evaluate,hv]; rfl,⟨hr.refines.width,hr.refines.eval,hr.constant⟩,hc'⟩

lemma byte_add (value : List (BitVec 8))
    (hnew : c.bindings.lookup object = none) (harr : arr ≠ object) (i : Nat) :
    (c.add object value).byte arr i = c.byte arr i := by
  have hne : (arr == object) = false := by simpa using harr
  simp [add,hnew,byte,lookup_append,lookup,hne]

lemma byte_none (hnew : c.bindings.lookup object = none) (i : Nat) : c.byte object i = none := by
  simp [byte,hnew]

lemma allowFreeValues_add (c : Concolics) (object : ArrayObj) (value : List (BitVec 8)) :
    (c.add object value).allowFreeValues = c.allowFreeValues := by
  unfold add
  split <;> rfl

lemma Completes.of_add (hfree : c.allowFreeValues)
    (hnew : c.bindings.lookup object = none) (h : (c.add object value).Completes a) :
    c.Completes a := by
  intro arr i
  by_cases harr : arr = object
  · subst harr
    rw [byte_none hnew]
    intro hf
    rw [hfree] at hf
    cases hf
  · have := h arr i
    rw [byte_add value hnew harr,allowFreeValues_add] at this
    exact this

lemma Completes.update_of_add
    (hnew : c.bindings.lookup object = none) (h : (c.add object value).Completes a) :
    c.Completes (update a object fun _ => 0) := by
  intro arr i
  by_cases harr : arr = object
  · subst harr
    rw [byte_none hnew]
    intro _
    simp
  · have := h arr i
    rw [byte_add value hnew harr,allowFreeValues_add] at this
    rw [update_of_ne harr]
    exact this

lemma lookup_mem {cache : List (Expr × Expr)} (h : cache.lookup e = some r) : (e,r) ∈ cache := by
  obtain ⟨l₁,l₂,rfl,-⟩ := lookup_eq_some_iff.mp h
  exact mem_append_right _ mem_cons_self

section
variable (hc : c.CacheSound c.expressionCache)
include hc

lemma CacheSound.add (h : c.Allowed (.add object value)) :
    (c.add object value).CacheSound (c.add object value).expressionCache := by
  cases hnew : c.bindings.lookup object with
  | some bytes =>
    have hsame : c.add object value = c := by simp [Concolics.add,hnew]
    rw [hsame]
    exact hc
  | none =>
    have hcache : (c.add object value).expressionCache = c.expressionCache := by
      simp [Concolics.add,hnew]
    rw [hcache]
    intro e r hl
    obtain ⟨hr,href⟩ := hc e r hl
    refine ⟨hr,href.wf,href.width,?_,?_⟩
    · intro a _ live _
      cases r with
      | constant v => trivial
      | _ => cases hr
    · intro a ha hd
      rcases h with hfree | hbound | hcold
      · exact href.eval a (ha.of_add hfree hnew) hd
      · rw [hnew] at hbound
        cases hbound
      have hm := hcold (e,r) (lookup_mem hl)
      have hab : ∀ arr, e.mentions arr → ∀ i, arr.initial a i =
          arr.initial (update a object fun _ => 0) i := by
        intro arr harr i
        have hne : arr ≠ object := by
          rintro rfl
          rw [hm] at harr
          cases harr
        simp only [ArrayObj.initial,update_of_ne hne]
      have hcongr := congr_of_mentions (S := .inside) e hab
      have hold := href.eval _ (ha.update_of_add hnew) (hcongr.2 true hd)
      rw [hcongr.1,← hold]
      cases r with
      | constant v => rfl
      | _ => cases hr

lemma CacheSound.step {call : Call}
    (h : c.Allowed call) : ∃ c', c.step call = some c' ∧ c'.CacheSound c'.expressionCache := by
  cases call with
  | add object value => exact ⟨_,rfl,hc.add h⟩
  | clear => exact ⟨_,rfl,fun e r hl => by cases hl⟩
  | evaluate e =>
    obtain ⟨r,cache,hev,-,hc'⟩ := evaluate_spec hc h
    exact ⟨_,by rw [Concolics.step,hev]; rfl,hc'⟩
  | extend extended =>
    have hsame : (c.expressionCache.map fun p => (extended p.1,p.2)) = c.expressionCache := by
      refine .trans (map_congr_left fun p hp => ?_) (map_id _)
      exact Prod.ext (h p hp) rfl
    exact ⟨_,congrArg some (congrArg (fun cache => {c with expressionCache := cache}) hsame),hc⟩

lemma CacheSound.run {calls : List Call}
    (h : c.AllAllowed calls) : ∃ c', c.run calls = some c' ∧ c'.CacheSound c'.expressionCache := by
  induction calls generalizing c with
  | nil => exact ⟨c,rfl,hc⟩
  | cons call calls ih =>
    obtain ⟨c₁,hstep,hc₁⟩ := hc.step h.1
    obtain ⟨c',hrun,hc'⟩ := ih hc₁ (h.2 c₁ hstep)
    refine ⟨c',?_,hc'⟩
    rw [run,foldlM_cons,hstep]
    exact hrun

end

/-- After any allowed calls on a new assignment, every evaluation returns an expression that
agrees with the one given, and a constant where everything it depends on is known. -/
theorem run_evaluates (c : Concolics) (hc : c.expressionCache = []) (calls : List Call)
    (h : c.AllAllowed calls) : ∃ c', c.run calls = some c' ∧ ∀ e, c'.Evaluable e →
      ∃ r c'', c'.evaluate e = some (r,c'') ∧ c'.Evaluates e r := by
  have hempty : c.CacheSound c.expressionCache := by
    rw [hc]
    exact fun e r hl => by cases hl
  obtain ⟨c',hrun,hc'⟩ := hempty.run h
  refine ⟨c',hrun,fun e he => ?_⟩
  obtain ⟨r,cache,hev,hr,-⟩ := evaluate_spec hc' he
  exact ⟨r,_,hev,hr⟩

def oneByteArray : ArrayObj := .symbolic 0 1 one_fits

def oneByte : Expr := .read (.root oneByteArray) (ConstantExpr.alloc 0 32)

lemma evaluable_oneByte (c : Concolics) : c.Evaluable oneByte := by
  refine ⟨by decide,c.assignment,completes_assignment c,⟨trivial,trivial,fun _ => ?_⟩,
    ⟨trivial,trivial⟩⟩
  show (0 : Nat) < 1
  decide

theorem run_evaluates_rebound :
    ∃ c r c', (create false).run [.evaluate oneByte,.clear,.add oneByteArray [5]] = some c ∧
      c.evaluate oneByte = some (r,c') ∧ c.Evaluates oneByte r := by
  have hallowed : (create false).AllAllowed [.evaluate oneByte,.clear,.add oneByteArray [5]] := by
    refine ⟨evaluable_oneByte _,fun c _ => ⟨trivial,fun c' hc' => ⟨.inr (.inr ?_),?_⟩⟩⟩
    · cases hc'
      exact fun p hp => by cases hp
    · exact fun _ _ => trivial
  obtain ⟨c,hrun,hev⟩ := run_evaluates (create false) rfl _ hallowed
  obtain ⟨r,c',hc',hr⟩ := hev oneByte (evaluable_oneByte c)
  exact ⟨c,r,c',hrun,hc',hr⟩

/-- The byte after an update in place. -/
def oneByteUpdated : Expr :=
  .read (.extend (.root oneByteArray) (ConstantExpr.alloc 0 32) (ConstantExpr.alloc 5 8))
    (ConstantExpr.alloc 0 32)

/-- Without the call of `clear`, the value remembered from before the byte was bound, or from
before its list was extended, is returned. -/
theorem evaluate_after_add_stale :
    let extended (e : Expr) := if e = oneByte then oneByteUpdated else e
    ∀ call ∈ [(Call.add oneByteArray [5],oneByte),(Call.extend extended,oneByteUpdated)],
      ∃ c r c', (create false).run [.evaluate oneByte,call.1] = some c ∧
        c.evaluate call.2 = some (r,c') ∧ r = alloc 0 8 ∧ c.Completes c.assignment ∧
        call.2.Defined c.known c.assignment true ∧ call.2.eval c.assignment = 5 := by
  intro extended call hcall
  rcases mem_pair.mp hcall with rfl | rfl
  · refine ⟨_,_,_,rfl,rfl,rfl,completes_assignment _,⟨trivial,trivial,fun _ => ?_⟩,?_⟩
    · exact ⟨by decide,.inr (.inr rfl)⟩
    · rfl
  · refine ⟨_,_,_,rfl,rfl,rfl,completes_assignment _,⟨⟨trivial,trivial,trivial⟩,trivial,
      fun _ => ?_⟩,
      rfl⟩
    exact ⟨by decide,.inr (.inr rfl)⟩

end Concolics
end S2E
