import S2E.Expr.Subterms
import S2E.Lib.Search
import S2E.Lib.Independence

/-!
`getIndependentConstraints`: the constraints that are handed to the solver with a
query, chosen by the array elements they read.
-/

namespace S2E
open List S2E.Expr

def Expr.symbolicParts (e : Expr) : List Expr := e.parts.filter fun k => !k.isConstant

def Expr.asRead : Expr → Option (UpdateList × Expr)
  | .read ul i => some (ul,i)
  | _ => none

/-- `findReads` with `visitUpdates`. The update nodes that the source remembers by
address only hold expressions that are visited already. -/
def findReads (e : Expr) : List (UpdateList × Expr) :=
  if e.isConstant then []
  else (Search.search symbolicParts e.size ([e],[e])).filterMap asRead

def DenseSet.add (s b : List Nat) : List Nat × Bool :=
  b.foldl (fun st x => if st.2 || !st.1.contains x then (st.1.insert x,true) else st) (s,false)

structure IndependentElementSet where
  elements : List (ArrayObj × List Nat)
  wholeObjects : List ArrayObj

namespace IndependentElementSet
variable (s : IndependentElementSet)

def find (arr : ArrayObj) : Option (List Nat) := s.elements.lookup arr

def set (arr : ArrayObj) (dis : List Nat) : IndependentElementSet :=
  {s with elements := (arr,dis) :: s.elements.filter fun p => p.1 != arr}

def setWhole (arr : ArrayObj) : IndependentElementSet :=
  {elements := s.elements.filter fun p => p.1 != arr, wholeObjects := s.wholeObjects.insert arr}

def addRead (re : UpdateList × Expr) : IndependentElementSet :=
  let array := re.1.getRoot
  if array.isConstantArray && re.1.nodes.isEmpty then s
  else if array ∈ s.wholeObjects then s
  else
    match re.2 with
    | .constant CE => s.set array (((s.find array).getD []).insert (CE.value%2^32))
    | _ => s.setWhole array

def ofExpr (e : Expr) : IndependentElementSet := (findReads e).foldl addRead ⟨[],[]⟩

def intersects (s b : IndependentElementSet) : Bool :=
  s.wholeObjects.any (fun array => decide (array ∈ b.wholeObjects) || (b.find array).isSome) ||
  s.elements.any fun p =>
    decide (p.1 ∈ b.wholeObjects) ||
      match b.find p.1 with
      | some dis => p.2.any fun i => dis.contains i
      | none => false

def addWhole (st : IndependentElementSet × Bool) (array : ArrayObj) :
    IndependentElementSet × Bool :=
  if (st.1.find array).isSome then (st.1.setWhole array,true)
  else if array ∈ st.1.wholeObjects then st
  else (st.1.setWhole array,true)

def addElements (st : IndependentElementSet × Bool) (p : ArrayObj × List Nat) :
    IndependentElementSet × Bool :=
  if p.1 ∈ st.1.wholeObjects then st
  else
    match st.1.find p.1 with
    | none => (st.1.set p.1 p.2,true)
    | some dis =>
      let d := DenseSet.add dis p.2
      (if d.2 then st.1.set p.1 d.1 else st.1,st.2 || d.2)

/-- `add`. The second loop runs over the elements of the set itself, not over those of
`b`. -/
def add (s b : IndependentElementSet) : IndependentElementSet × Bool :=
  let st := b.wholeObjects.foldl addWhole (s,false)
  st.1.elements.foldl addElements st

end IndependentElementSet

open IndependentElementSet

def independentRound : List (Expr × IndependentElementSet) → IndependentElementSet →
    IndependentElementSet × List Expr × List (Expr × IndependentElementSet) × Bool
  | [], closure => (closure,[],[],true)
  | (e,s) :: worklist, closure =>
    if s.intersects closure then
      let added := closure.add s
      let rest := independentRound worklist added.1
      (rest.1,e :: rest.2.1,rest.2.2.1,rest.2.2.2 && !added.2)
    else
      let rest := independentRound worklist closure
      (rest.1,rest.2.1,(e,s) :: rest.2.2.1,rest.2.2.2)

def independentLoop : Nat → List (Expr × IndependentElementSet) → IndependentElementSet →
    List Expr × IndependentElementSet
  | 0, _, closure => ([],closure)
  | fuel+1, worklist, closure =>
    let round := independentRound worklist closure
    if round.2.2.2 then (round.2.1,round.1)
    else
      let rest := independentLoop fuel round.2.2.1 round.1
      (round.2.1 ++ rest.1,rest.2)

/-- The constraints independent of none of the others and of the query; a round that is
not the last takes at least one constraint off the worklist. -/
def getIndependentConstraints (constraints : List Expr) (expr : Expr) : List Expr :=
  (independentLoop (constraints.length+1) (constraints.map fun e => (e,ofExpr e)) (ofExpr expr)).1

mutual
theorem Expr.length_subexprs : (e : Expr) → e.subexprs.length ≤ e.size
  | .constant _ => by simp [subexprs,size]
  | .read ul i => by
    have h1 := ul.length_subexprs
    have h2 := i.length_subexprs
    grind [subexprs]
  | .select c t f => by
    have h1 := c.length_subexprs
    have h2 := t.length_subexprs
    have h3 := f.length_subexprs
    grind [subexprs]
  | .concat l r => by
    have h1 := l.length_subexprs
    have h2 := r.length_subexprs
    grind [subexprs]
  | .extract e _ _ | .not e | .zext e _ | .sext e _ => by
    have h1 := e.length_subexprs
    simp only [subexprs,size,length_cons]; omega
  | .binary _ l r => by
    have h1 := l.length_subexprs
    have h2 := r.length_subexprs
    grind [subexprs]

theorem UpdateList.length_subexprs : (ul : UpdateList) → ul.subexprs.length ≤ ul.size
  | .root _ => by simp [UpdateList.subexprs]
  | .extend next i v => by
    have h1 := next.length_subexprs
    have h2 := i.length_subexprs
    have h3 := v.length_subexprs
    simp only [UpdateList.subexprs,UpdateList.size,length_append]; omega
end

def Expr.Occurs (x e : Expr) : Prop := Relation.ReflTransGen (fun a b => b ∈ a.parts) e x

variable {e : Expr}

lemma Expr.occurs_symbolic {x : Expr} (hx : x.isConstant = false) :
    x.Occurs e ↔ Relation.ReflTransGen (fun a b => b ∈ a.symbolicParts) e x := by
  constructor
  · intro h
    induction h with
    | refl => exact .refl
    | @tail b c hb hc ih =>
      have hbc : b.isConstant = false := by
        cases b with
        | constant => simp [parts,kids] at hc
        | _ => rfl
      exact .tail (ih hbc) (by simp [symbolicParts,hc,hx])
  · intro h
    exact Relation.ReflTransGen.mono (fun a b hb => (mem_filter.mp hb).1) _ _ h

lemma mem_findReads {re : UpdateList × Expr} : re ∈ findReads e ↔ (read re.1 re.2).Occurs e := by
  have hsearch : ∀ x, x ∈ Search.search symbolicParts e.size ([e],[e]) ↔
      Relation.ReflTransGen (fun a b => b ∈ a.symbolicParts) e x :=
    Search.mem_search_singleton e.mem_subexprs_self
      (fun _ hx k hk => mem_subexprs_trans (mem_subexprs.mpr
        (.inr ⟨k,(mem_filter.mp hk).1,k.mem_subexprs_self⟩)) hx) e.length_subexprs
  have hread : ∀ x : Expr, x.asRead = some re ↔ x = .read re.1 re.2 := by
    intro x
    cases x <;> simp [asRead,Prod.ext_iff]
  rw [occurs_symbolic rfl,← hsearch]
  unfold findReads
  split
  next hc =>
    obtain ⟨c,rfl⟩ : ∃ c, e = .constant c := by
      cases e with
      | constant c => exact ⟨c,rfl⟩
      | _ => simp [isConstant] at hc
    rw [hsearch]
    constructor
    · simp
    · intro h
      rcases Relation.ReflTransGen.cases_head h with h | ⟨y,hy,-⟩
      · cases h
      · simp [symbolicParts,parts,kids] at hy
  · simp [mem_filterMap,hread]

/-- A read of the array stands inside the expression, at a constant index `i` or at a
symbolic one. Constant arrays without updates are not looked at. -/
def Expr.ReadsAt (e : Expr) (arr : ArrayObj) (index : Expr) : Prop :=
  ∃ ul : UpdateList, (read ul index).Occurs e ∧ ul.getRoot = arr ∧
    (arr.isConstantArray && ul.nodes.isEmpty) = false

def Expr.Indexes (e : Expr) (arr : ArrayObj) : Prop :=
  ∃ index : Expr, e.ReadsAt arr index ∧ index.isConstant = false

def Expr.Accesses (e : Expr) (arr : ArrayObj) (i : Nat) : Prop :=
  e.Indexes arr ∨ ∃ CE : APInt, e.ReadsAt arr (.constant CE) ∧ CE.value%2^32 = i

variable {arr : ArrayObj} {dis : List Nat} {i : Nat} {st : IndependentElementSet × Bool}

namespace IndependentElementSet

def Covers (s : IndependentElementSet) (arr : ArrayObj) (i : Nat) : Prop :=
  arr ∈ s.wholeObjects ∨ ∃ dis, s.find arr = some dis ∧ i ∈ dis

structure Valid (s : IndependentElementSet) : Prop where
  keys : (s.elements.map Prod.fst).Nodup
  nonempty : ∀ p ∈ s.elements, p.2 ≠ []
  whole : ∀ p ∈ s.elements, p.1 ∉ s.wholeObjects

variable {s : IndependentElementSet}

lemma Valid.find_eq (h : s.Valid) : s.find arr = some dis ↔ (arr,dis) ∈ s.elements := by
  unfold find
  have hk := h.keys
  generalize s.elements = l at hk
  induction l with
  | nil => simp
  | cons p l ih =>
    rw [map_cons,nodup_cons] at hk
    rw [lookup_cons,mem_cons]
    by_cases hp : arr = p.1
    · subst hp
      simp only [beq_self_eq_true]
      constructor
      · intro h
        left
        rw [← Option.some.inj h]
      · rintro (h | h)
        · rw [← h]
        · exact absurd (mem_map_of_mem (f := Prod.fst) h) hk.1
    · have hpb : (arr == p.1) = false := by simpa using hp
      rw [hpb]
      simp only [ih hk.2]
      constructor
      · exact .inr
      · rintro (h | h)
        · exact absurd (congrArg Prod.fst h) hp
        · exact h

lemma Valid.set (h : s.Valid)
    (hdis : dis ≠ []) (harr : arr ∉ s.wholeObjects) : (s.set arr dis).Valid where
  keys := by
    refine nodup_cons.mpr ⟨by simp,?_⟩
    exact h.keys.sublist (List.Sublist.map _ filter_sublist)
  nonempty := by
    intro p hp
    rcases mem_cons.mp hp with rfl | hp
    · exact hdis
    · exact h.nonempty p (mem_of_mem_filter hp)
  whole := by
    intro p hp
    rcases mem_cons.mp hp with rfl | hp
    · exact harr
    · exact h.whole p (mem_of_mem_filter hp)

lemma Valid.setWhole (h : s.Valid) (arr : ArrayObj) : (s.setWhole arr).Valid where
  keys := h.keys.sublist (List.Sublist.map _ filter_sublist)
  nonempty p hp := h.nonempty p (mem_of_mem_filter hp)
  whole := by
    intro p hp
    obtain ⟨hp,hne⟩ := mem_filter.mp hp
    have h1 := h.whole p hp
    simp only [IndependentElementSet.setWhole,mem_insert_iff,not_or]
    exact ⟨by simpa using hne,h1⟩

variable {x : ArrayObj}

lemma mem_wholeObjects_setWhole :
    x ∈ (s.setWhole arr).wholeObjects ↔ x = arr ∨ x ∈ s.wholeObjects := by
  simp [setWhole]

lemma Valid.covers_iff (h : s.Valid) :
    s.Covers arr i ↔ arr ∈ s.wholeObjects ∨ ∃ dis, (arr,dis) ∈ s.elements ∧ i ∈ dis := by
  unfold Covers
  simp only [h.find_eq]

lemma Valid.covers_set (h : s.Valid) (hdis : dis ≠ []) (harr : arr ∉ s.wholeObjects) :
    (s.set arr dis).Covers x i ↔ x = arr ∧ i ∈ dis ∨ x ≠ arr ∧ s.Covers x i := by
  rw [(h.set hdis harr).covers_iff,h.covers_iff]
  by_cases hx : x = arr
  · subst hx
    simp [IndependentElementSet.set,harr]
  · simp [IndependentElementSet.set,hx]

lemma Valid.covers_setWhole (h : s.Valid) :
    (s.setWhole arr).Covers x i ↔ x = arr ∨ s.Covers x i := by
  rw [(h.setWhole arr).covers_iff,h.covers_iff,mem_wholeObjects_setWhole]
  by_cases hx : x = arr
  · simp [hx]
  · simp [IndependentElementSet.setWhole,hx]

lemma intersects_iff {s b : IndependentElementSet} (hs : s.Valid) (hb : b.Valid) :
    s.intersects b ↔ ∃ arr i, s.Covers arr i ∧ b.Covers arr i := by
  have hpick : ∀ {t : IndependentElementSet}, t.Valid → ∀ {arr dis}, (arr,dis) ∈ t.elements →
      ∃ i, i ∈ dis ∧ t.Covers arr i := by
    intro t ht arr dis hp
    obtain ⟨i,hi⟩ := exists_mem_of_ne_nil dis (ht.nonempty _ hp)
    exact ⟨i,hi,ht.covers_iff.mpr (.inr ⟨dis,hp,hi⟩)⟩
  unfold intersects
  simp only [Bool.or_eq_true,any_eq_true,decide_eq_true_eq,Option.isSome_iff_exists,hb.find_eq]
  constructor
  · rintro (⟨arr,harr,hba | ⟨dis,hdis⟩⟩ | ⟨⟨arr,dis⟩,hp,hba | hd⟩)
    · exact ⟨arr,0,.inl harr,.inl hba⟩
    · obtain ⟨i,-,hi⟩ := hpick hb hdis
      exact ⟨arr,i,.inl harr,hi⟩
    · obtain ⟨i,-,hi⟩ := hpick hs hp
      exact ⟨arr,i,hi,.inl hba⟩
    · split at hd
      next dis' hf =>
        obtain ⟨i,hi,hi'⟩ := any_eq_true.mp hd
        exact ⟨arr,i,.inr ⟨dis,hs.find_eq.mpr hp,hi⟩,.inr ⟨dis',hf,by simpa using hi'⟩⟩
      · cases hd
  · rintro ⟨arr,i,h1,h2⟩
    rw [hs.covers_iff] at h1
    rw [hb.covers_iff] at h2
    rcases h1 with h1 | ⟨dis,h1,hi⟩
    · exact .inl ⟨arr,h1,h2.imp id fun ⟨dis,h2,_⟩ => ⟨dis,h2⟩⟩
    refine .inr ⟨(arr,dis),h1,?_⟩
    rcases h2 with h2 | ⟨dis',h2,hi'⟩
    · exact .inl h2
    right
    rw [hb.find_eq.mpr h2]
    simp only [any_eq_true]
    exact ⟨i,hi,by simpa using hi'⟩

def Counts (re : UpdateList × Expr) (arr : ArrayObj) : Prop :=
  re.1.getRoot = arr ∧ (arr.isConstantArray && re.1.nodes.isEmpty) = false

lemma Valid.addRead (h : s.Valid) (re : UpdateList × Expr) : (s.addRead re).Valid ∧
      (∀ x, x ∈ (s.addRead re).wholeObjects ↔
        x ∈ s.wholeObjects ∨ Counts re x ∧ re.2.isConstant = false) ∧
      (∀ x i, (s.addRead re).Covers x i ↔ s.Covers x i ∨ Counts re x ∧
        (re.2.isConstant = false ∨ ∃ CE, re.2 = .constant CE ∧ CE.value%2^32 = i)) := by
  obtain ⟨ul,index⟩ := re
  have hcounts : ∀ x, Counts (ul,index) x ↔
      x = ul.getRoot ∧ (ul.getRoot.isConstantArray && ul.nodes.isEmpty) = false := by
    intro x
    constructor
    · rintro ⟨rfl,hv⟩
      exact ⟨rfl,hv⟩
    · rintro ⟨rfl,hv⟩
      exact ⟨rfl,hv⟩
  unfold IndependentElementSet.addRead
  simp only [hcounts]
  split
  next hskip =>
    simp [hskip,h]
  rename_i hskip
  rw [Bool.not_eq_true] at hskip
  simp only [hskip,and_true]
  split
  next hw =>
    refine ⟨h,fun x => ⟨.inl,?_⟩,fun x i => ⟨.inl,?_⟩⟩
    · rintro (hx | ⟨rfl,-⟩)
      · exact hx
      · exact hw
    · rintro (hx | ⟨rfl,-⟩)
      · exact hx
      · exact .inl hw
  next hw =>
    cases index with
    | constant CE =>
      have hne : ((s.find ul.getRoot).getD []).insert (CE.value%2^32) ≠ [] :=
        ne_nil_of_mem mem_insert_self
      refine ⟨h.set hne hw,fun x => by simp [IndependentElementSet.set,isConstant],fun x i => ?_⟩
      rw [h.covers_set hne hw]
      by_cases hx : x = ul.getRoot
      · subst hx
        have hcov : s.Covers ul.getRoot i ↔ i ∈ (s.find ul.getRoot).getD [] := by
          unfold Covers
          cases hf : s.find ul.getRoot <;> simp [hw]
        simp [hcov,isConstant,or_comm,eq_comm]
      · simp [hx]
    | _ =>
      refine ⟨h.setWhole _,fun x => ?_,fun x i => ?_⟩
      · rw [mem_wholeObjects_setWhole]
        simp [isConstant,or_comm]
      · rw [h.covers_setWhole]
        simp [isConstant,or_comm]

lemma Valid.foldl_addRead (h : s.Valid) (reads : List (UpdateList × Expr)) :
    (reads.foldl IndependentElementSet.addRead s).Valid ∧
      (∀ x, x ∈ (reads.foldl IndependentElementSet.addRead s).wholeObjects ↔
        x ∈ s.wholeObjects ∨ ∃ re ∈ reads, Counts re x ∧ re.2.isConstant = false) ∧
      (∀ x i, (reads.foldl IndependentElementSet.addRead s).Covers x i ↔
        s.Covers x i ∨ ∃ re ∈ reads, Counts re x ∧
          (re.2.isConstant = false ∨ ∃ CE, re.2 = .constant CE ∧ CE.value%2^32 = i)) := by
  induction reads generalizing s with
  | nil => simp [h]
  | cons re reads ih =>
    obtain ⟨h1,h2,h3⟩ := h.addRead re
    obtain ⟨h4,h5,h6⟩ := ih h1
    refine ⟨h4,fun x => ?_,fun x i => ?_⟩
    · rw [foldl_cons,h5,h2]
      simp only [exists_mem_cons_iff,or_assoc]
    · rw [foldl_cons,h6,h3]
      simp only [exists_mem_cons_iff,or_assoc]

lemma valid_ofExpr (e : Expr) : (ofExpr e).Valid :=
  ((⟨by simp,by simp,by simp⟩ : Valid ⟨[],[]⟩).foldl_addRead (findReads e)).1

lemma mem_wholeObjects_ofExpr : arr ∈ (ofExpr e).wholeObjects ↔ e.Indexes arr := by
  have h := ((⟨by simp,by simp,by simp⟩ : Valid ⟨[],[]⟩).foldl_addRead (findReads e)).2.1 arr
  unfold ofExpr
  rw [h]
  simp only [not_mem_nil,false_or,Prod.exists,mem_findReads,Expr.Indexes,Expr.ReadsAt,Counts]
  constructor
  · rintro ⟨ul,index,ho,⟨hr,hv⟩,hc⟩
    exact ⟨index,⟨ul,ho,hr,hv⟩,hc⟩
  · rintro ⟨index,⟨ul,ho,hr,hv⟩,hc⟩
    exact ⟨ul,index,ho,⟨hr,hv⟩,hc⟩

lemma covers_ofExpr : (ofExpr e).Covers arr i ↔ e.Accesses arr i := by
  have h := ((⟨by simp,by simp,by simp⟩ : Valid ⟨[],[]⟩).foldl_addRead (findReads e)).2.2 arr i
  have hnil : ¬(⟨[],[]⟩ : IndependentElementSet).Covers arr i := by simp [Covers,find]
  unfold ofExpr
  rw [h]
  simp only [hnil,false_or,Prod.exists,mem_findReads,Expr.Accesses,Expr.Indexes,Expr.ReadsAt,Counts]
  constructor
  · rintro ⟨ul,index,ho,⟨hr,hv⟩,hc | ⟨CE,rfl,hi⟩⟩
    · exact .inl ⟨index,⟨ul,ho,hr,hv⟩,hc⟩
    · exact .inr ⟨CE,⟨ul,ho,hr,hv⟩,hi⟩
  · rintro (⟨index,⟨ul,ho,hr,hv⟩,hc⟩ | ⟨CE,⟨ul,ho,hr,hv⟩,hi⟩)
    · exact ⟨ul,index,ho,⟨hr,hv⟩,.inl hc⟩
    · exact ⟨ul,.constant CE,ho,⟨hr,hv⟩,.inr ⟨CE,rfl,hi⟩⟩

lemma Valid.addWhole (h : st.1.Valid) (arr : ArrayObj) : (addWhole st arr).1.Valid ∧
      (∀ x, x ∈ (addWhole st arr).1.wholeObjects ↔ x ∈ st.1.wholeObjects ∨ x = arr) ∧
      (∀ x i, (addWhole st arr).1.Covers x i ↔ st.1.Covers x i ∨ x = arr) ∧
      ((addWhole st arr).2 ↔ st.2 ∨ arr ∉ st.1.wholeObjects) := by
  unfold IndependentElementSet.addWhole
  split
  next hf =>
    obtain ⟨dis,hdis⟩ := Option.isSome_iff_exists.mp hf
    have hw := h.whole _ (h.find_eq.mp hdis)
    exact ⟨h.setWhole arr,fun x => by rw [mem_wholeObjects_setWhole,or_comm],
      fun x i => by rw [h.covers_setWhole,or_comm],by simpa using Or.inr hw⟩
  · split
    next hw =>
      refine ⟨h,fun x => ⟨.inl,?_⟩,fun x i => ⟨.inl,?_⟩,by simp [hw]⟩
      · rintro (hx | rfl)
        · exact hx
        · exact hw
      · rintro (hx | rfl)
        · exact hx
        · exact .inl hw
    next hw =>
      exact ⟨h.setWhole arr,fun x => by rw [mem_wholeObjects_setWhole,or_comm],
        fun x i => by rw [h.covers_setWhole,or_comm],by simp [hw]⟩

lemma Valid.foldl_addWhole (h : st.1.Valid)
    (arrs : List ArrayObj) : (arrs.foldl IndependentElementSet.addWhole st).1.Valid ∧
      (∀ x, x ∈ (arrs.foldl IndependentElementSet.addWhole st).1.wholeObjects ↔
        x ∈ st.1.wholeObjects ∨ x ∈ arrs) ∧
      (∀ x i, (arrs.foldl IndependentElementSet.addWhole st).1.Covers x i ↔
        st.1.Covers x i ∨ x ∈ arrs) ∧ ((arrs.foldl IndependentElementSet.addWhole st).2 ↔
        st.2 ∨ ∃ arr ∈ arrs, arr ∉ st.1.wholeObjects) := by
  induction arrs generalizing st with
  | nil => simp [h]
  | cons arr arrs ih =>
    obtain ⟨h1,h2,h3,h4⟩ := h.addWhole arr
    obtain ⟨h5,h6,h7,h8⟩ := ih h1
    refine ⟨h5,fun x => ?_,fun x i => ?_,?_⟩
    · rw [foldl_cons,h6,h2,mem_cons,or_assoc]
    · rw [foldl_cons,h7,h3,mem_cons,or_assoc]
    · rw [foldl_cons,h8,h4,exists_mem_cons_iff,or_assoc]
      refine or_congr_right ?_
      by_cases hw : arr ∈ st.1.wholeObjects
      · simp only [hw,not_true_eq_false,false_or,h2]
        refine exists_congr fun x => and_congr_right fun _ => ?_
        by_cases hx : x = arr <;> simp [hx,hw]
      · simp [hw]

lemma denseSet_add_of_subset {s b : List Nat} (h : b ⊆ s) : DenseSet.add s b = (s,false) := by
  unfold DenseSet.add
  induction b with
  | nil => rfl
  | cons x b ih =>
    have hx : x ∈ s := h mem_cons_self
    rw [foldl_cons]
    simpa [hx] using ih fun y hy => h (mem_cons_of_mem _ hy)

lemma Valid.foldl_addElements (h : st.1.Valid)
    {l : List (ArrayObj × List Nat)} (hl : l ⊆ st.1.elements) : l.foldl addElements st = st := by
  induction l with
  | nil => rfl
  | cons p l ih =>
    have hp : p ∈ st.1.elements := hl mem_cons_self
    have hf : st.1.find p.1 = some p.2 := h.find_eq.mpr hp
    have hstep : addElements st p = st := by
      unfold addElements
      rw [if_neg (h.whole p hp),hf]
      simp [denseSet_add_of_subset (List.Subset.refl p.2)]
    rw [foldl_cons,hstep]
    exact ih fun y hy => hl (mem_cons_of_mem _ hy)

lemma Valid.add (h : s.Valid) (b : IndependentElementSet) : (s.add b).1.Valid ∧
      (∀ x, x ∈ (s.add b).1.wholeObjects ↔ x ∈ s.wholeObjects ∨ x ∈ b.wholeObjects) ∧
      (∀ x i, (s.add b).1.Covers x i ↔ s.Covers x i ∨ x ∈ b.wholeObjects) ∧
      ((s.add b).2 ↔ ∃ arr ∈ b.wholeObjects, arr ∉ s.wholeObjects) := by
  have h' : ((s,false) : IndependentElementSet × Bool).1.Valid := h
  have hf := h'.foldl_addWhole b.wholeObjects
  have hadd : s.add b = b.wholeObjects.foldl IndependentElementSet.addWhole (s,false) :=
    hf.1.foldl_addElements (List.Subset.refl _)
  rw [hadd]
  simpa using hf

end IndependentElementSet

/-- The closure, as far as the constraints taken so far determine it: the elements of
the query, and every array that the query or a constraint indexes. -/
structure Closure (q : Expr) (taken : List Expr) (closure : IndependentElementSet) : Prop where
  valid : closure.Valid
  whole : ∀ arr, arr ∈ closure.wholeObjects ↔ q.Indexes arr ∨ ∃ c ∈ taken, c.Indexes arr
  covers : ∀ arr i, closure.Covers arr i ↔ arr ∈ closure.wholeObjects ∨ q.Accesses arr i

lemma Closure.ofExpr (q : Expr) : Closure q [] (ofExpr q) where
  valid := valid_ofExpr q
  whole arr := by simp [mem_wholeObjects_ofExpr]
  covers arr i := by
    rw [covers_ofExpr,mem_wholeObjects_ofExpr]
    exact ⟨.inr,fun h => h.elim .inl id⟩

variable {q : Expr} {taken : List Expr} {closure : IndependentElementSet}

lemma Closure.add (h : Closure q taken closure) :
    Closure q (taken ++ [e]) (closure.add (IndependentElementSet.ofExpr e)).1 := by
  obtain ⟨h1,h2,h3,-⟩ := h.valid.add (IndependentElementSet.ofExpr e)
  refine ⟨h1,fun arr => ?_,fun arr i => ?_⟩
  · rw [h2,h.whole,mem_wholeObjects_ofExpr]
    simp only [mem_append,mem_singleton,or_and_right,exists_or,exists_eq_left,or_assoc]
  · rw [h3,h2,h.covers]
    tauto

lemma Closure.intersects_iff
    (h : Closure q taken closure) : (IndependentElementSet.ofExpr e).intersects closure ↔
      ∃ arr i, e.Accesses arr i ∧ (q.Accesses arr i ∨ ∃ c ∈ taken, c.Indexes arr) := by
  rw [IndependentElementSet.intersects_iff (valid_ofExpr e) h.valid]
  refine exists_congr fun arr => exists_congr fun i => ?_
  rw [covers_ofExpr,h.covers,h.whole]
  have hq : q.Indexes arr → q.Accesses arr i := .inl
  refine and_congr_right fun _ => ⟨?_,?_⟩
  · rintro ((h | h) | h)
    · exact .inl (hq h)
    · exact .inr h
    · exact .inl h
  · rintro (h | h)
    · exact .inr h
    · exact .inl (.inr h)

def withElements (es : List Expr) : List (Expr × IndependentElementSet) :=
  es.map fun e => (e,ofExpr e)

def Shares (e d : Expr) : Prop := ∃ arr i, e.Accesses arr i ∧ d.Accesses arr i

lemma shares_iff_intersects {d : Expr} : Shares e d ↔ (ofExpr e).intersects (ofExpr d) := by
  rw [intersects_iff (valid_ofExpr e) (valid_ofExpr d)]
  simp only [covers_ofExpr,Shares]

instance (e d : Expr) : Decidable (Shares e d) := decidable_of_iff _ shares_iff_intersects.symm

/-- Linked to the query when, past the query itself, only arrays that are indexed
symbolically count: the constraint shares an element with the query, or it touches an
array which a linked constraint indexes symbolically. -/
inductive IndexLinked (C : List Expr) (q : Expr) : Expr → Prop
  | query {d : Expr} : d ∈ C → Shares d q → IndexLinked C q d
  | array {c d : Expr} {arr : ArrayObj} {i : Nat} : IndexLinked C q c → c.Indexes arr → d ∈ C →
      d.Accesses arr i → IndexLinked C q d

variable {C : List Expr}

lemma IndexLinked.mem {c : Expr} (h : IndexLinked C q c) : c ∈ C := by
  cases h with
  | query hc _ => exact hc
  | array _ _ hc _ => exact hc

structure Round (C : List Expr) (q : Expr) (taken es : List Expr) (start : IndependentElementSet)
    (round : IndependentElementSet × List Expr × List (Expr × IndependentElementSet) × Bool)
    (left : List Expr) : Prop where
  left_eq : round.2.2.1 = withElements left
  closure : Closure q (taken ++ round.2.1) round.1
  split : ∀ e ∈ es, e ∈ round.2.1 ∨ e ∈ left
  left_subset : left ⊆ es
  length : round.2.1.length+left.length = es.length
  linked : ∀ e ∈ round.2.1, IndexLinked C q e
  progress : round.2.2.2 = false → round.2.1 ≠ []
  done : round.2.2.2 = true → round.1.wholeObjects ⊆ start.wholeObjects ∧
    ∀ e ∈ left, (ofExpr e).intersects round.1 = false

lemma independentRound_spec (es : List Expr) (hes : es ⊆ C) :
    ∀ {taken : List Expr} {closure : IndependentElementSet}, Closure q taken closure →
      (∀ c ∈ taken, IndexLinked C q c) →
      ∃ left, Round C q taken es closure (independentRound (withElements es) closure) left := by
  induction es with
  | nil =>
    intro taken closure h _
    exact ⟨[],rfl,by simpa [independentRound,withElements] using h,by simp,by simp,
      by simp [independentRound,withElements],by simp [independentRound,withElements],
      by simp [independentRound,withElements],by simp [independentRound,withElements]⟩
  | cons e es ih =>
    intro taken closure h htaken
    have heC : e ∈ C := hes mem_cons_self
    have hes' : es ⊆ C := fun x hx => hes (mem_cons_of_mem _ hx)
    by_cases hi : (ofExpr e).intersects closure
    · have he : IndexLinked C q e := by
        obtain ⟨arr,i,ha,hq | ⟨c,hc,hidx⟩⟩ := h.intersects_iff.mp hi
        · exact .query heC ⟨arr,i,ha,hq⟩
        · exact .array (htaken c hc) hidx heC ha
      have htaken' : ∀ c ∈ taken ++ [e], IndexLinked C q c := by
        intro c hc
        rcases mem_append.mp hc with hc | hc
        · exact htaken c hc
        · exact mem_singleton.mp hc ▸ he
      obtain ⟨left,hr⟩ := ih hes' h.add htaken'
      obtain ⟨-,hwhole,-,hflag⟩ := h.valid.add (ofExpr e)
      have hround : independentRound (withElements (e :: es)) closure =
          let rest := independentRound (withElements es)
            (closure.add (ofExpr e)).1
          (rest.1,e :: rest.2.1,rest.2.2.1,rest.2.2.2 && !(closure.add (ofExpr e)).2) := by
        simp [withElements,independentRound,hi]
      rw [hround]
      refine ⟨left,hr.left_eq,?_,?_,subset_cons_of_subset _ hr.left_subset,?_,?_,by simp,?_⟩
      · simpa using hr.closure
      · intro x hx
        rcases mem_cons.mp hx with rfl | hx
        · exact .inl mem_cons_self
        · exact (hr.split x hx).imp (mem_cons_of_mem _) id
      · have hlen := hr.length
        simp only [length_cons]
        omega
      · intro x hx
        rcases mem_cons.mp hx with rfl | hx
        · exact he
        · exact hr.linked x hx
      · intro hdone
        rw [Bool.and_eq_true,Bool.not_eq_true'] at hdone
        obtain ⟨hsub,hleft⟩ := hr.done hdone.1
        refine ⟨fun arr harr => ?_,hleft⟩
        rcases (hwhole arr).mp (hsub harr) with hw | hw
        · exact hw
        · by_contra hn
          have := hflag.mpr ⟨arr,hw,hn⟩
          simp [hdone.2] at this
    · obtain ⟨left,hr⟩ := ih hes' h htaken
      rw [Bool.not_eq_true] at hi
      have hround : independentRound (withElements (e :: es)) closure =
          let rest := independentRound (withElements es) closure
          (rest.1,rest.2.1,(e,ofExpr e) :: rest.2.2.1,rest.2.2.2) := by
        simp [withElements,independentRound,hi]
      rw [hround]
      refine ⟨e :: left,congrArg (_ :: ·) hr.left_eq,hr.closure,?_,?_,?_,hr.linked,hr.progress,?_⟩
      · intro x hx
        rcases mem_cons.mp hx with rfl | hx
        · exact .inr mem_cons_self
        · exact (hr.split x hx).imp id (mem_cons_of_mem _)
      · exact cons_subset_cons e hr.left_subset
      · have hlen := hr.length
        simp only [length_cons]
        omega
      · intro hdone
        obtain ⟨hsub,hleft⟩ := hr.done hdone
        refine ⟨hsub,fun x hx => ?_⟩
        rcases mem_cons.mp hx with rfl | hx
        · -- the closure still covers what it covered when `x` was looked at
          by_contra hn
          rw [Bool.not_eq_false] at hn
          obtain ⟨arr,i,ha,hc⟩ := (intersects_iff (valid_ofExpr x) hr.closure.valid).mp hn
          have hc' : closure.Covers arr i := by
            rw [hr.closure.covers] at hc
            rw [h.covers]
            exact hc.imp (@hsub arr) id
          have := (intersects_iff (valid_ofExpr x) h.valid).mpr
            ⟨arr,i,ha,hc'⟩
          simp [hi] at this
        · exact hleft x hx

lemma independentLoop_spec {fuel : Nat} :
    ∀ {es taken : List Expr} {closure : IndependentElementSet}, es.length < fuel → es ⊆ C →
      (∀ c ∈ C, c ∈ taken ∨ c ∈ es) → Closure q taken closure → (∀ c ∈ taken, IndexLinked C q c) →
      ∀ d, d ∈ taken ++ (independentLoop fuel (withElements es) closure).1 ↔ IndexLinked C q d := by
  induction fuel with
  | zero => intro es taken closure hlt; omega
  | succ fuel ih =>
    intro es taken closure hlt hes hall h htaken d
    obtain ⟨left,hr⟩ := independentRound_spec es hes h htaken
    have htaken' : ∀ c ∈ taken ++ (independentRound (withElements es) closure).2.1,
        IndexLinked C q c := by
      intro c hc
      exact (mem_append.mp hc).elim (htaken c) (hr.linked c)
    have hall' : ∀ c ∈ C, c ∈ taken ++ (independentRound (withElements es) closure).2.1 ∨
        c ∈ left := by
      intro c hc
      rw [mem_append]
      rcases hall c hc with hc | hc
      · exact .inl (.inl hc)
      · exact (hr.split c hc).imp .inr id
    unfold independentLoop
    simp only []
    split
    next hdone =>
      obtain ⟨-,hleft⟩ := hr.done hdone
      refine ⟨htaken' d,fun hd => ?_⟩
      -- by induction on how `d` is linked: nothing that is left meets the closure
      have hmeets : ∀ {x : Expr}, x ∈ C → (∃ arr i, x.Accesses arr i ∧ (q.Accesses arr i ∨
          ∃ c ∈ taken ++ (independentRound (withElements es) closure).2.1, c.Indexes arr)) →
          x ∈ taken ++ (independentRound (withElements es) closure).2.1 := by
        intro x hx hm
        refine (hall' x hx).resolve_right fun hl => ?_
        have := hr.closure.intersects_iff.mpr hm
        rw [hleft x hl] at this
        cases this
      induction hd with
      | query hx hs =>
        obtain ⟨arr,i,h1,h2⟩ := hs
        exact hmeets hx ⟨arr,i,h1,.inl h2⟩
      | array _ hidx hx ha ihc => exact hmeets hx ⟨_,_,ha,.inr ⟨_,ihc,hidx⟩⟩
    next hdone =>
      rw [Bool.not_eq_true] at hdone
      have hne := length_pos_iff.mpr (hr.progress hdone)
      have hlen := hr.length
      have hrest := ih (by omega) (fun x hx => hes (hr.left_subset hx)) hall' hr.closure htaken' d
      rw [hr.left_eq]
      simpa only [append_assoc] using hrest

lemma mem_getIndependentConstraints {d : Expr} :
    d ∈ getIndependentConstraints C q ↔ IndexLinked C q d := by
  have h := independentLoop_spec (Nat.lt_succ_self C.length) (List.Subset.refl C)
    (fun c hc => .inr hc) (Closure.ofExpr q) (by simp) d
  simpa [getIndependentConstraints,withElements] using h

lemma Expr.eval_congr_occurs {a b : Assignment}
    (hab : ∀ arr i, e.Accesses arr i → a arr i = b arr i) (x : Expr) :
    x.WF → x.Occurs e → x.eval a = x.eval b := by
  induction x using Expr.parts_induction with
  | h x ih =>
    intro h ho
    refine eval_congr (fun k hk => ih k hk (h.of_mem_parts hk) (ho.tail hk)) ?_
    rintro ul index rfl
    refine ArrayObj.initial_congr fun hsym _ => hab _ _ ?_
    have hreads : e.ReadsAt ul.getRoot index :=
      ⟨ul,ho,rfl,by simp [ArrayObj.isConstantArray,hsym]⟩
    by_cases hc : index.isConstant = false
    · exact .inl ⟨index,hreads,hc⟩
    cases index with
    | constant CE =>
      refine .inr ⟨CE,hreads,?_⟩
      have hlt := CE.value_lt
      have hw : CE.width = 32 := h.2.2
      rw [hw] at hlt
      exact Nat.mod_eq_of_lt hlt
    | _ => exact absurd rfl hc

def Expr.support (e : Expr) : Set (ArrayObj × Nat) := {p | e.Accesses p.1 p.2}

def Expr.holds (e : Expr) (a : ArrayObj × Nat → BitVec 8) : Prop :=
  e.eval (fun arr i => a (arr,i)) = 1

lemma Expr.dependsOn_support (h : e.WF) : DependsOn e.holds e.support := by
  intro a b hab
  have heval := eval_congr_occurs (a := fun arr i => a (arr,i)) (b := fun arr i => b (arr,i))
    (e := e) (fun arr i hi => hab (arr,i) hi) e h .refl
  unfold Expr.holds
  rw [heval]

def ValidUnder (C : List Expr) (q : Expr) : Prop :=
  ∀ a : Assignment, a.Satisfies C → q.eval a = 1

lemma validUnder_iff_entails : ValidUnder C q ↔ Independence.Entails holds {c | c ∈ C} q :=
  ⟨fun h a ha => h (fun arr i => a (arr,i)) ha,fun h a ha => h (fun p => a p.1 p.2) ha⟩

def ClosedUnderSharing (C : List Expr) (q : Expr) (R : List Expr) : Prop :=
  ∀ d ∈ C, (Shares d q ∨ ∃ c ∈ R, Shares d c) → d ∈ R

lemma validUnder_iff_of_closed {R : List Expr} (hC : ∀ c ∈ C, c.WF) (hq : q.WF)
    (hsat : ∃ a : Assignment, a.Satisfies C) (hRC : R ⊆ C) (h : ClosedUnderSharing C q R) :
    ValidUnder C q ↔ ValidUnder R q := by
  have hdisj : ∀ {c d : Expr}, ¬Shares c d → Disjoint c.support d.support := by
    intro c d hcd
    rw [Set.disjoint_left]
    exact fun p hp hp' => hcd ⟨p.1,p.2,hp,hp'⟩
  rw [validUnder_iff_entails,validUnder_iff_entails]
  refine Independence.entails_iff_of_separated (dependsOn_support hq)
    (fun c hc => dependsOn_support (hC c hc)) (fun c hc => hRC hc) ?_ ?_ ?_
  · intro c hc hcR
    exact hdisj fun hs => hcR (h c hc (.inl hs))
  · intro c hc hcR r hr
    exact hdisj fun hs => hcR (h c hc (.inr ⟨r,hr,hs⟩))
  · obtain ⟨a,ha⟩ := hsat
    exact ⟨fun p => a p.1 p.2,ha⟩

inductive Linked (C : List Expr) (q : Expr) : Expr → Prop
  | query {d : Expr} : d ∈ C → Shares d q → Linked C q d
  | step {c d : Expr} : Linked C q c → d ∈ C → Shares d c → Linked C q d

/-- The constraints computed for a query are closed under sharing, and decide the query as
all of them do, when every linked constraint is index-linked. -/
theorem getIndependentConstraints_sound_iff {C : List Expr} {q : Expr} (hC : ∀ c ∈ C, c.WF)
    (hq : q.WF) (hsat : ∃ a : Assignment, a.Satisfies C) :
    (ClosedUnderSharing C q (getIndependentConstraints C q) ∧
        (ValidUnder C q ↔ ValidUnder (getIndependentConstraints C q) q)) ↔
      ∀ d, Linked C q d → IndexLinked C q d := by
  constructor
  · rintro ⟨hclosed,-⟩ d hd
    rw [← mem_getIndependentConstraints]
    induction hd with
    | query hd hs => exact hclosed _ hd (.inl hs)
    | step _ hd hs ih => exact hclosed _ hd (.inr ⟨_,ih,hs⟩)
  · intro h
    have hlinked : ∀ {c}, IndexLinked C q c → Linked C q c := by
      intro c hc
      induction hc with
      | query hc hs => exact .query hc hs
      | array _ hidx hd ha ih => exact .step ih hd ⟨_,_,ha,.inl hidx⟩
    have hclosed : ClosedUnderSharing C q (getIndependentConstraints C q) := by
      rintro d hd (hs | ⟨c,hc,hs⟩)
      · exact mem_getIndependentConstraints.mpr (.query hd hs)
      · rw [mem_getIndependentConstraints] at hc ⊢
        exact h d (.step (hlinked hc) hd hs)
    refine ⟨hclosed,validUnder_iff_of_closed hC hq hsat ?_ hclosed⟩
    intro d hd
    exact (mem_getIndependentConstraints.mp hd).mem

def pairByte (i : Nat) : Expr :=
  .read (.root (.symbolic 0 2 two_fits)) (.constant (.ofNat 32 i))

def pairEqual : Expr := .binary .eq (pairByte 0) (pairByte 1)

def pairOne (i : Nat) : Expr := .binary .eq (.constant (.ofNat 8 1)) (pairByte i)

theorem getIndependentConstraints_sound_pair :
    ClosedUnderSharing [pairEqual] (pairOne 0) (getIndependentConstraints [pairEqual] (pairOne 0)) ∧
      (ValidUnder [pairEqual] (pairOne 0) ↔
        ValidUnder (getIndependentConstraints [pairEqual] (pairOne 0)) (pairOne 0)) := by
  refine (getIndependentConstraints_sound_iff (by decide) (by decide) ⟨fun _ _ => 0,?_⟩).mpr ?_
  · intro c hc
    rw [mem_singleton.mp hc]
    decide
  · intro d hd
    have hmem : d ∈ [pairEqual] := by
      cases hd with
      | query hd _ => exact hd
      | step _ hd _ => exact hd
    rw [mem_singleton.mp hmem]
    exact .query (by simp) (by decide +kernel)

/-- A constraint on the second byte is dropped although the first byte is equal to it, and
the query is no longer valid. -/
theorem getIndependentConstraints_drops_pairOne :
    (∀ c ∈ [pairEqual,pairOne 1], c.WF) ∧ (pairOne 0).WF ∧
      (∃ a : Assignment, a.Satisfies [pairEqual,pairOne 1]) ∧
      ¬ClosedUnderSharing [pairEqual,pairOne 1] (pairOne 0)
        (getIndependentConstraints [pairEqual,pairOne 1] (pairOne 0)) ∧
      ValidUnder [pairEqual,pairOne 1] (pairOne 0) ∧
      ¬ValidUnder (getIndependentConstraints [pairEqual,pairOne 1] (pairOne 0)) (pairOne 0) := by
  have hR : getIndependentConstraints [pairEqual,pairOne 1] (pairOne 0) = [pairEqual] := by
    decide +kernel
  rw [hR]
  refine ⟨by decide,by decide,⟨fun _ _ => 1,?_⟩,?_,?_,?_⟩
  · intro c hc
    simp only [mem_cons,not_mem_nil,or_false] at hc
    rcases hc with rfl | rfl <;> decide
  · intro h
    have := h (pairOne 1) (by simp) (.inr ⟨pairEqual,by simp,by decide +kernel⟩)
    revert this
    decide
  · intro a ha
    have h1 := ha pairEqual (by simp)
    have h2 := ha (pairOne 1) (by simp)
    unfold pairEqual at h1
    unfold pairOne at h2 ⊢
    rw [eval_eq (by decide)] at h1 h2 ⊢
    have h01 : (pairByte 0).eval a = (pairByte 1).eval a := by
      by_contra hne
      rw [if_neg hne] at h1
      cases h1
    rw [h01]
    exact h2
  · intro h
    have := h (fun _ _ => 0) (by
      intro c hc
      rw [mem_singleton.mp hc]
      decide)
    revert this
    decide

end S2E
