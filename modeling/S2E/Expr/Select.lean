import S2E.Expr.Arithmetic

/-! `SelectExpr::create` and `ReadExpr::create`. -/

namespace S2E
open Refines ConstantExpr S2E.Expr

def SelectExpr.createBool (c t f : Expr) : Option Expr :=
  if t.width = 1 then
    match t, f with
    | .constant CE, f =>
      if CE.isTrue then OrExpr.create c f
      else c.createIsZero.bind fun n => some (AndExpr.create n f)
    | t, .constant CE =>
      if CE.isTrue then c.createIsZero.bind fun n => OrExpr.create n t
      else some (AndExpr.create c t)
    | t, f => some (.select c t f)
  else some (.select c t f)

def SelectExpr.create (c t f : Expr) : Option Expr :=
  match c with
  | .constant CE => some (if CE.isTrue then t else f)
  | c =>
    if t = f then some t
    else
      match t, f with
      | .select sc st sf, f =>
        if f = sf then SelectExpr.create (AndExpr.create c sc) st f
        else if f = st then SelectExpr.create (AndExpr.create c (NotExpr.create sc)) sf f
        else some (.select c (.select sc st sf) f)
      | t, .select sc st sf =>
        if t = st then (OrExpr.create c sc).bind fun d => SelectExpr.create d t sf
        else if t = sf then
          (OrExpr.create c (NotExpr.create sc)).bind fun d => SelectExpr.create d t st
        else some (.select c t (.select sc st sf))
      | t, f => SelectExpr.createBool c t f
termination_by t.size+f.size
decreasing_by all_goals simp only [size]; omega

/-- The loop of `ReadExpr::create`: skip the updates of other positions, as long as the
comparison with the index folds; `alloc` is the read that is built otherwise. -/
def ReadExpr.rollback (alloc : Expr) (index : Expr) : List (Expr × Expr) → Option Expr
  | [] => some alloc
  | (i,v) :: un =>
    (EqExpr.create index i).bind fun cond =>
      match cond with
      | .constant CE => if CE.isTrue then some v else ReadExpr.rollback alloc index un
      | _ => some alloc

def Expr.hasConstantCases : Expr → Bool
  | .select _ t f =>
    t.isConstant || f.isConstant || t.hasConstantCases || f.hasConstantCases
  | _ => false

def ReadExpr.createWith (alloc : Expr → Expr) (nodes : List (Expr × Expr)) :
    Expr → Option Expr
  | .select c t f =>
    if (Expr.select c t f).hasConstantCases then
      (ReadExpr.createWith alloc nodes t).bind fun rt =>
        (ReadExpr.createWith alloc nodes f).bind fun rf => SelectExpr.create c rt rf
    else ReadExpr.rollback (alloc (.select c t f)) (.select c t f) nodes
  | index => ReadExpr.rollback (alloc index) index nodes

def ReadExpr.create (ul : UpdateList) (index : Expr) : Option Expr :=
  ReadExpr.createWith (.read ul) ul.nodes index

variable {e f l r t : Expr}

lemma Expr.eval_and_bool (h : (binary .and l r).WF) (hw : l.width = 1)
    (s : Assignment) : (binary .and l r).eval s = 1 ↔ l.eval s = 1 ∧ r.eval s = 1 := by
  simp only [eval,hw]
  rcases l.eval_bool s h.1 hw with h1 | h1 <;>
    rcases r.eval_bool s h.2.1 (h.2.2.symm.trans hw) with h2 | h2 <;> rw [h1,h2] <;> decide

lemma Expr.eval_or_bool (h : (binary .or l r).WF) (hw : l.width = 1)
    (s : Assignment) : (binary .or l r).eval s = 1 ↔ l.eval s = 1 ∨ r.eval s = 1 := by
  simp only [eval,hw]
  rcases l.eval_bool s h.1 hw with h1 | h1 <;>
    rcases r.eval_bool s h.2.1 (h.2.2.symm.trans hw) with h2 | h2 <;> rw [h1,h2] <;> decide

lemma Expr.eval_not_bool (h : e.WF) (hw : e.width = 1) (s : Assignment) :
    (not e).eval s = 1 ↔ ¬e.eval s = 1 := by
  simp only [eval]
  rw [hw]
  rcases e.eval_bool s h hw with h1 | h1 <;> rw [h1] <;> decide

lemma Refines.select_const {CE : APInt} (h : (Expr.select (.constant CE) t f).WF) :
    Refines (.select (.constant CE) t f) (if CE.isTrue then t else f) := by
  have hw : CE.width = 1 := h.2.2.2.1
  by_cases hc : CE.isTrue
  · have hv := APInt.isTrue_value hw hc
    rw [if_pos hc]
    refine ⟨h.2.1,rfl,by grind,fun s live hb => ?_,fun s _ => ?_⟩
    · simpa [Expr.eval,hv] using hb.2.1
    · simp [Expr.eval,hv]
  · have hv := APInt.value_zero_of_not_true hw hc
    rw [if_neg hc]
    refine ⟨h.2.2.1,h.2.2.2.2.symm,by grind,fun s live hb => ?_,fun s _ => ?_⟩
    · simpa [Expr.eval,hv] using hb.2.2
    · simp [Expr.eval,hv]

lemma Refines.select_same {c : Expr} (h : (Expr.select c t t).WF) :
    Refines (.select c t t) t := by
  refine ⟨h.2.1,rfl,by grind,fun s live hb => ?_,fun s _ => ?_⟩
  · by_cases hc : c.eval s = 1
    · simpa [hc] using hb.2.1
    · simpa [hc] using hb.2.2
  · simp [Expr.eval]

section Merge

/-! Merging a nested selection. The new condition `d` holds where both, or either, of
the old ones do; the inner condition may be used negated. -/

variable {c sc st sf d x y : Expr}

lemma Refines.select_merge_true (h : (Expr.select c (.select sc st sf) y).WF) (hd : d.WF)
    (hdw : d.width = 1) (hdwt : d.weight ≤ c.weight+sc.weight+10)
    (hxy : (x = st ∧ y = sf ∧ ∀ s : Assignment, d.eval s = 1 ↔ c.eval s = 1 ∧ sc.eval s = 1) ∨
      (x = sf ∧ y = st ∧ ∀ s : Assignment, d.eval s = 1 ↔ c.eval s = 1 ∧ ¬sc.eval s = 1))
    (hdin : ∀ {S : Scope} (s : Assignment), c.Defined S s true → sc.Defined S s true →
      d.Defined S s true) :
    Refines (.select c (.select sc st sf) y) (.select d x y) := by
  obtain ⟨-,⟨-,hst,hsf,-,hww⟩,-,-,htf⟩ := h
  have htf : st.width = y.width := htf
  rcases hxy with ⟨rfl,rfl,hev⟩ | ⟨rfl,rfl,hev⟩
  all_goals
    refine ⟨⟨hd,by assumption,by assumption,hdw,by first | exact hww | exact hww.symm⟩,
      by first | rfl | exact hww.symm,by grind,fun s live hb => ?_,
      fun s _ => ?_⟩
    · obtain ⟨h1,⟨h2,h3,h4⟩,h5⟩ := hb
      refine ⟨hdin s h1 h2,?_,?_⟩ <;> simp only [hev] <;>
        by_cases hc : c.eval s = 1 <;> by_cases hs : sc.eval s = 1 <;> simp_all
    · simp only [Expr.eval,hev]
      by_cases hc : c.eval s = 1 <;> by_cases hs : sc.eval s = 1 <;> simp [hc,hs]

lemma Refines.select_merge_false (h : (Expr.select c x (.select sc st sf)).WF) (hd : d.WF)
    (hdw : d.width = 1) (hdwt : d.weight ≤ c.weight+sc.weight+10)
    (hxy : (x = st ∧ y = sf ∧ ∀ s : Assignment, d.eval s = 1 ↔ c.eval s = 1 ∨ sc.eval s = 1) ∨
      (x = sf ∧ y = st ∧ ∀ s : Assignment, d.eval s = 1 ↔ c.eval s = 1 ∨ ¬sc.eval s = 1))
    (hdin : ∀ {S : Scope} (s : Assignment), c.Defined S s true → sc.Defined S s true →
      d.Defined S s true) :
    Refines (.select c x (.select sc st sf)) (.select d x y) := by
  obtain ⟨-,-,⟨-,hst,hsf,-,hww⟩,-,htf⟩ := h
  rcases hxy with ⟨rfl,rfl,hev⟩ | ⟨rfl,rfl,hev⟩
  all_goals
    refine ⟨⟨hd,by assumption,by assumption,hdw,by first | exact hww | exact hww.symm⟩,
      rfl,by grind,fun s live hb => ?_,fun s _ => ?_⟩
    · obtain ⟨h1,h2,⟨h3,h4,h5⟩⟩ := hb
      refine ⟨hdin s h1 h3,?_,?_⟩ <;> simp only [hev] <;>
        by_cases hc : c.eval s = 1 <;> by_cases hs : sc.eval s = 1 <;> simp_all
    · simp only [Expr.eval,hev]
      by_cases hc : c.eval s = 1 <;> by_cases hs : sc.eval s = 1 <;> simp [hc,hs]

end Merge

lemma Refines.select_bool {c : Expr} (h : (Expr.select c t f).WF) (hw : t.width = 1)
    (he : e.WF) (hew : e.width = 1) (hwt : e.weight ≤ c.weight+t.weight+f.weight+10)
    (hin : ∀ {S : Scope} (s : Assignment), c.Defined S s true → t.Defined S s true →
      f.Defined S s true →
      e.Defined S s true) (hev : ∀ s : Assignment, e.eval s = 1 ↔ (Expr.select c t f).eval s = 1) :
    Refines (.select c t f) e := by
  have hfw : f.width = 1 := h.2.2.2.2.symm.trans hw
  refine ⟨he,hew.trans hw.symm,hwt,fun s live hb => ?_,fun s _ => ?_⟩
  · refine Expr.Defined.mono live (hin s hb.1 ?_ ?_)
    · exact Expr.Defined.of_width h.2.1 (by omega) hb.2.1
    · exact Expr.Defined.of_width h.2.2.1 (by omega) hb.2.2
  · have h1 := hev s
    rcases e.eval_bool s he hew with h2 | h2 <;>
      rcases (Expr.select c t f).eval_bool s h hw with h3 | h3 <;> omega

lemma Expr.eval_isZero_iff (h : e.WF) (hw : e.width = 1) (s : Assignment) :
    (binary .eq e (alloc 0 e.width)).eval s = 1 ↔ ¬e.eval s = 1 := by
  rw [eval_isZero_bool hw]
  rcases e.eval_bool s h hw with h1 | h1 <;> rw [h1] <;> decide

lemma SelectExpr.createBool_yields {c : Expr} (h : (Expr.select c t f).WF) :
    Yields (.select c t f) (createBool c t f) := by
  obtain ⟨hc,ht,hf,hcw,hww⟩ := id h
  unfold createBool
  split
  next hw =>
    have hfw : f.width = 1 := hww.symm.trans hw
    have hnz := wf_isZero hc
    split
    next CE =>
      have hCw : CE.width = 1 := hw
      split
      next hT =>
        have hv := APInt.isTrue_value hCw hT
        have hor : (binary .or c f).WF := ⟨hc,hf,hcw.trans hfw.symm⟩
        have hr : Refines (.select c (.constant CE) f) (.binary .or c f) := by
          refine .select_bool h hw hor hcw ?_ (fun _ h1 _ h3 => ⟨h1,h3⟩) fun s => ?_
          · grind
          · rw [eval_or_bool hor hcw]
            by_cases hc1 : c.eval s = 1 <;> simp [Expr.eval,hv,hc1]
        exact .trans hr (OrExpr.create_yields hor (OrExpr.safe_bool hor hcw))
      next hT =>
        have hv := APInt.value_zero_of_not_true hCw hT
        have hand : (binary .and (.binary .eq c (alloc 0 c.width)) f).WF := ⟨hnz,hf,hfw.symm⟩
        have hr : Refines (.select c (.constant CE) f)
            (.binary .and (.binary .eq c (alloc 0 c.width)) f) := by
          refine .select_bool h hw hand rfl ?_ (fun _ h1 _ h3 => ⟨⟨h1,trivial⟩,h3⟩) fun s => ?_
          · simp only [Expr.weight,BinaryKind.weight,alloc]; omega
          · rw [eval_and_bool hand rfl,eval_isZero_iff hc hcw]
            by_cases hc1 : c.eval s = 1 <;> simp [Expr.eval,hv,hc1]
        refine .trans hr ((createIsZero_yields hc).bind fun n hn => ?_)
        have hn' := binary .and hn (.refl hf) hfw.symm
        exact .of_refines (hn'.trans (AndExpr.create_refines hn'.wf))
    next CE _ =>
      have hCw : CE.width = 1 := hfw
      split
      next hT =>
        have hv := APInt.isTrue_value hCw hT
        have hor : (binary .or (.binary .eq c (alloc 0 c.width)) t).WF := ⟨hnz,ht,hw.symm⟩
        have hr : Refines (.select c t (.constant CE))
            (.binary .or (.binary .eq c (alloc 0 c.width)) t) := by
          refine .select_bool h hw hor rfl ?_ (fun _ h1 h2 _ => ⟨⟨h1,trivial⟩,h2⟩) fun s => ?_
          · simp only [Expr.weight,BinaryKind.weight,alloc]; omega
          · rw [eval_or_bool hor rfl,eval_isZero_iff hc hcw]
            by_cases hc1 : c.eval s = 1 <;> simp [Expr.eval,hv,hc1]
        refine .trans hr ((createIsZero_yields hc).bind fun n hn => ?_)
        have hn' := binary .or hn (.refl ht) hw.symm
        exact .trans hn' (OrExpr.create_yields hn'.wf (OrExpr.safe_bool hn'.wf hn.width))
      next hT =>
        have hv := APInt.value_zero_of_not_true hCw hT
        have hand : (binary .and c t).WF := ⟨hc,ht,hcw.trans hw.symm⟩
        have hr : Refines (.select c t (.constant CE)) (.binary .and c t) := by
          refine .select_bool h hw hand hcw ?_ (fun _ h1 h2 _ => ⟨h1,h2⟩) fun s => ?_
          · grind
          · rw [eval_and_bool hand hcw]
            by_cases hc1 : c.eval s = 1 <;> simp [Expr.eval,hv,hc1]
        exact .of_refines (hr.trans (AndExpr.create_refines hand))
    · exact .alloc h
  · exact .alloc h

lemma SelectExpr.create_yields {c : Expr} (h : (Expr.select c t f).WF) :
    Yields (.select c t f) (create c t f) := by
  induction hn : t.size+f.size using Nat.strongRecOn generalizing c t f with
  | ind n ih =>
    subst hn
    have ih' : ∀ c' t' f' : Expr, t'.size+f'.size < t.size+f.size →
        (Expr.select c' t' f').WF → Yields (.select c' t' f') (create c' t' f') :=
      fun c' t' f' hlt h' => ih _ hlt h' rfl
    obtain ⟨hc,ht,hf,hcw,hww⟩ := id h
    unfold create
    split
    · exact .of_refines (.select_const h)
    split
    next htf =>
      subst htf
      exact .of_refines (.select_same h)
    split
    next sc st sf _ =>
      obtain ⟨hsc,hst,hsf,hscw,hsw⟩ := ht
      split
      next hfs =>
        have hand : (binary .and c sc).WF := ⟨hc,hsc,hcw.trans hscw.symm⟩
        have hr := select_merge_true (x := st) h hand hcw
          (by grind)
          (.inl ⟨rfl,hfs,eval_and_bool hand hcw⟩) (fun _ h1 h2 => ⟨h1,h2⟩)
        have hr' := select (AndExpr.create_refines hand) (.refl hst) (.refl hf) hcw
          hr.wf.2.2.2.2
        exact .trans (hr.trans hr') (ih' _ st f (by grind) hr'.wf)
      · split
        next hfs =>
          have hnot := NotExpr.create_refines hsc
          have hand : (binary .and c (.not sc)).WF := ⟨hc,hsc,hcw.trans hscw.symm⟩
          have hr := select_merge_true (x := sf) h hand hcw
            (by grind)
            (.inr ⟨rfl,hfs,fun s => by
              rw [eval_and_bool hand hcw,eval_not_bool hsc hscw]⟩)
            (fun _ h1 h2 => ⟨h1,h2⟩)
          have hand' := binary .and (.refl hc) hnot (hcw.trans hscw.symm)
          have hr' := select (hand'.trans (AndExpr.create_refines hand'.wf))
            (.refl hsf) (.refl hf) hcw hr.wf.2.2.2.2
          exact .trans (hr.trans hr') (ih' _ sf f (by grind) hr'.wf)
        · exact .alloc h
    next sc st sf _ _ =>
      obtain ⟨hsc,hst,hsf,hscw,hsw⟩ := hf
      split
      next hts =>
        have hor : (binary .or c sc).WF := ⟨hc,hsc,hcw.trans hscw.symm⟩
        have hr := select_merge_false (y := sf) h hor hcw
          (by grind)
          (.inl ⟨hts,rfl,eval_or_bool hor hcw⟩) (fun _ h1 h2 => ⟨h1,h2⟩)
        refine .trans hr ((OrExpr.create_yields hor (OrExpr.safe_bool hor hcw)).bind fun d hd => ?_)
        have hr' := select hd (.refl ht) (.refl hsf) hcw hr.wf.2.2.2.2
        exact .trans hr' (ih' d t sf (by grind) hr'.wf)
      · split
        next hts =>
          have hnot := NotExpr.create_refines hsc
          have hor : (binary .or c (.not sc)).WF := ⟨hc,hsc,hcw.trans hscw.symm⟩
          have hr := select_merge_false (y := st) h hor hcw
            (by grind)
            (.inr ⟨hts,rfl,fun s => by
              rw [eval_or_bool hor hcw,eval_not_bool hsc hscw]⟩)
            (fun _ h1 h2 => ⟨h1,h2⟩)
          have hor' := binary .or (.refl hc) hnot (hcw.trans hscw.symm)
          refine .trans hr (Yields.bind
            (.trans hor' (OrExpr.create_yields hor'.wf (OrExpr.safe_bool hor'.wf hcw)))
            fun d hd => ?_)
          have hr' := select hd (.refl ht) (.refl hst) hcw hr.wf.2.2.2.2
          exact .trans hr' (ih' d t st (by grind) hr'.wf)
        · exact .alloc h
    · exact createBool_yields h

/-- What the loop has established about the updates `un` that are left: nothing before
them is at the index. -/
structure Rollback (alloc index : Expr) (un : UpdateList) : Prop where
  wf : un.WF
  weight : un.weight ≤ alloc.weight
  defined : ∀ {S : Scope} (s : Assignment) (live : Bool), alloc.Defined S s live →
    un.Defined S s ∧ index.Defined S s true
  eval : ∀ {S : Scope} (s : Assignment), alloc.Defined S s true →
    alloc.eval s = un.eval s (index.eval s)

variable {index : Expr}

lemma ReadExpr.rollback_yields {alloc : Expr} (ha : alloc.WF) (haw : alloc.width = 8)
    (hi : index.WF) (hiw : index.width = 32) :
    (un : UpdateList) → Rollback alloc index un → Yields alloc (rollback alloc index un.nodes)
  | .root _, _ => .alloc ha
  | .extend next i v, h => by
    obtain ⟨hnext,hiwf,hv,hiw',hvw⟩ := h.wf
    have heqwf : (binary .eq index i).WF := ⟨hi,hiwf,hiw.trans hiw'.symm⟩
    obtain ⟨cond,hcond1,hcond2⟩ := EqExpr.create_yields heqwf
    have hwt := h.weight
    have hval : ∀ {S : Scope} (s : Assignment) (live : Bool), alloc.Defined S s live →
        cond.eval s = if index.eval s = i.eval s then 1 else 0 := by
      intro _ s live hb
      obtain ⟨⟨-,h2,-⟩,h4⟩ := h.defined s live hb
      rw [hcond2.eval s ⟨h4,h2⟩,eval_eq heqwf]
    simp only [UpdateList.weight] at hwt
    rw [UpdateList.nodes,rollback,hcond1,Option.bind_some]
    split
    next CE =>
      have hCw : CE.width = 1 := hcond2.width
      split
      next hT =>
        have hT := APInt.isTrue_value hCw hT
        refine .of_refines ⟨hv,hvw.trans haw.symm,by omega,fun s live hb => ?_,fun s hb => ?_⟩
        · exact Expr.Defined.mono live (h.defined s live hb).1.2.2
        · have h1 := hval s true hb
          simp only [Expr.eval,hT] at h1
          have h2 : i.eval s = index.eval s := by
            by_contra hne
            rw [if_neg fun he => hne he.symm] at h1
            omega
          rw [h.eval s hb,UpdateList.eval,if_pos h2]
      next hT =>
        have hF := APInt.value_zero_of_not_true hCw hT
        refine rollback_yields ha haw hi hiw next ⟨hnext,by omega,fun s live hb => ?_,
          fun s hb => ?_⟩
        · exact ⟨(h.defined s live hb).1.1,(h.defined s live hb).2⟩
        · have h1 := hval s true hb
          simp only [Expr.eval,hF] at h1
          have h2 : ¬i.eval s = index.eval s := by
            intro he
            rw [if_pos he.symm] at h1
            omega
          rw [h.eval s hb,UpdateList.eval,if_neg h2]
    · exact .alloc ha

variable {ul : UpdateList}

lemma ReadExpr.rollback_read_yields (h : (read ul index).WF) :
    Yields (.read ul index) (rollback (.read ul index) index ul.nodes) := by
  refine rollback_yields h rfl h.2.1 h.2.2 ul ⟨h.1,?_,fun s live hb => ⟨hb.1,hb.2.1⟩,
    fun _ _ => rfl⟩
  simp only [Expr.weight]
  exact le_trans (Nat.le_add_right _ 100) (Nat.le_mul_of_pos_right _ (by omega))

lemma Refines.read_select {c : Expr} (h : (read ul (.select c t f)).WF) :
    Refines (.read ul (.select c t f)) (.select c (.read ul t) (.read ul f)) := by
  obtain ⟨hul,⟨hc,ht,hf,hcw,hww⟩,hiw⟩ := h
  have htw : t.width = 32 := hiw
  have hfw : f.width = 32 := hww.symm.trans hiw
  refine ⟨⟨hc,⟨hul,ht,htw⟩,⟨hul,hf,hfw⟩,hcw,rfl⟩,rfl,?_,?_,?_⟩
  · simp only [Expr.weight]
    have h1 := c.weight_pos
    have h2 : c.weight ≤ (ul.weight+100)*c.weight := Nat.le_mul_of_pos_left _ (by omega)
    simp only [Nat.mul_add]
    omega
  · -- an index is no byte, so both of its cases are defined whichever is taken
    intro _ s live hb
    obtain ⟨h1,⟨h2,h3,h4⟩,h5⟩ := hb
    refine ⟨h2,⟨h1,h3.of_width ht (by omega),?_⟩,⟨h1,h4.of_width hf (by omega),?_⟩⟩
    · intro hl
      obtain ⟨hlive,hc1⟩ : live ∧ c.eval s = 1 := by simpa using hl
      simpa [Expr.eval,hc1] using h5 hlive
    · intro hl
      obtain ⟨hlive,hc1⟩ : live ∧ ¬c.eval s = 1 := by simpa using hl
      simpa [Expr.eval,hc1] using h5 hlive
  · intro _ s _
    by_cases hc1 : c.eval s = 1 <;> simp [Expr.eval,hc1]

lemma ReadExpr.create_yields : {index : Expr} → (read ul index).WF →
    Yields (.read ul index) (create ul index)
  | .select c t f, h => by
    unfold create createWith
    split
    · have hr := read_select h
      refine .trans hr ((create_yields hr.wf.2.1).bind fun rt hrt => ?_)
      refine (create_yields hr.wf.2.2.1).bind fun rf hrf => ?_
      have hs := select (.refl hr.wf.1) hrt hrf hr.wf.2.2.2.1 rfl
      exact .trans hs (SelectExpr.create_yields hs.wf)
    · exact rollback_read_yields h
  | .constant _, h | .read _ _, h | .concat _ _, h | .extract _ _ _, h | .not _, h
  | .zext _ _, h | .sext _ _, h | .binary _ _ _, h => rollback_read_yields h

end S2E
