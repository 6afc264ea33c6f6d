import S2E.Solver.Z3Builder

/-!
The terms the builder makes: their sorts, and their values against the values of the
expressions they stand for.
-/

namespace S2E
open Smt List Option Function Term Nat BinaryKind UpdateList S2E.Expr

lemma append_cons_inj_right {α : Type} {p q u v : List α} {x : α} (hu : x ∉ u) (hv : x ∉ v)
    (h : p ++ x :: u = q ++ x :: v) : p = q ∧ u = v := by
  rcases append_eq_append_iff.mp h with ⟨c,rfl,hc⟩ | ⟨c,rfl,hc⟩
  · cases c with
    | nil => simpa using hc
    | cons y c =>
      rw [cons_append,cons.injEq] at hc
      exact absurd (hc.2 ▸ by simp) hu
  · cases c with
    | nil => simpa [eq_comm] using hc
    | cons y c =>
      rw [cons_append,cons.injEq] at hc
      exact absurd (hc.2 ▸ by simp) hv

lemma digitChar_inj : ∀ d < 16, ∀ d' < 16, digitChar d = digitChar d' → d = d' := by decide

lemma digitChar_ne_underscore : ∀ d < 16, digitChar d ≠ underscore := by decide

variable {n : Nat}

section
variable {b : Nat} (hb : 1 < b) (hb' : b ≤ 16)
include hb hb'

lemma underscore_notMem_printNat (n : Nat) : underscore ∉ printNat b n := by
  unfold printNat
  split
  · simpa using (digitChar_ne_underscore 0 (by decide)).symm
  · simp only [mem_reverse,List.mem_map,not_exists,not_and]
    intro d hd
    exact digitChar_ne_underscore d (lt_of_lt_of_le (digits_lt_base hb hd) hb')

lemma printNat_inj {m : Nat} (h : printNat b n = printNat b m) : n = m := by
  have hmap : ∀ {l l' : List Nat}, (∀ d ∈ l, d < 16) → (∀ d ∈ l', d < 16) →
      l.map digitChar = l'.map digitChar → l = l' := by
    intro l
    induction l with
    | nil => intro l' _ _ h; simpa using h.symm
    | cons d l ih =>
      intro l' hl hl' h
      cases l' with
      | nil => cases h
      | cons d' l' =>
        simp only [map_cons,cons.injEq] at h
        rw [digitChar_inj d (hl d (by simp)) d' (hl' d' (by simp)) h.1,
          ih (fun x hx => hl x (by simp [hx])) (fun x hx => hl' x (by simp [hx])) h.2]
  have hlt : ∀ n, ∀ d ∈ b.digits n, d < 16 := fun n d hd =>
    lt_of_lt_of_le (digits_lt_base hb hd) hb'
  have hzero : ∀ {n}, n ≠ 0 → [digitChar 0] ≠ ((b.digits n).map digitChar).reverse := by
    intro n hn h
    have hdig : b.digits n = [0] := by
      apply hmap (hlt n) (by simp)
      rw [← reverse_inj,← h]
      rfl
    apply getLast_digit_ne_zero b hn
    simp [hdig]
  unfold printNat at h
  split at h <;> split at h
  · omega
  next hn =>
    exact absurd h (hzero hn)
  next hn _ =>
    exact absurd h.symm (hzero hn)
  · exact digits_inj_iff.mp (hmap (hlt n) (hlt m) (reverse_inj.mp h))

end

variable (A : ArrayNames)

lemma ArrayNames.arrayText_inj {x y : ArrayObj} (h : A.arrayText x = A.arrayText y) : x = y := by
  have hnot : ∀ n, underscore ∉ 48#8 :: 120#8 :: printNat 16 n := by
    intro n
    have := underscore_notMem_printNat (b := 16) (by decide) (by decide) n
    simp only [mem_cons,this,or_false]
    decide
  obtain ⟨-,hrest⟩ := append_cons_inj_right (hnot _) (hnot _) h
  simp only [cons.injEq,true_and] at hrest
  exact A.address_inj x y (printNat_inj (by decide) (by decide) hrest)

variable {i : Nat}

lemma ArrayNames.elementText_inj {x y : ArrayObj} {j : Nat}
    (h : A.elementText x i = A.elementText y j) : x = y ∧ i = j := by
  have hnot := underscore_notMem_printNat (b := 10) (by decide) (by decide)
  obtain ⟨htext,hrest⟩ := append_cons_inj_right (hnot _) (hnot _) h
  exact ⟨A.arrayText_inj htext,printNat_inj (by decide) (by decide) hrest⟩

def CutAlike (s t : Z3Name) : Prop :=
  (255 < s.length ∨ 255 < t.length) ∧ snprintf256 s = snprintf256 t

lemma snprintf256_eq_iff {s t : Z3Name} :
    snprintf256 s = snprintf256 t ↔ s = t ∨ CutAlike s t := by
  constructor
  · intro h
    by_cases hcut : 255 < s.length ∨ 255 < t.length
    · exact .inr ⟨hcut,h⟩
    · rw [snprintf256,snprintf256,take_of_length_le (by omega),take_of_length_le (by omega)] at h
      exact .inl h
  · rintro (rfl | h)
    · rfl
    · exact h.2

lemma injOn_snprintf256_iff {ι : Type} {t : ι → Z3Name}
    (hinj : ∀ {p q}, t p = t q → p = q) (P : Set ι) :
    P.InjOn (fun p => snprintf256 (t p)) ↔ ∀ p ∈ P, ∀ q ∈ P, p ≠ q → ¬CutAlike (t p) (t q) := by
  constructor
  · exact fun h p hp q hq hne hcut => hne (h hp hq hcut.2)
  · intro h p hp q hq heq
    by_contra hne
    rcases snprintf256_eq_iff.mp heq with htext | hcut
    · exact hne (hinj htext)
    · exact h p hp q hq hne hcut

lemma CutAlike.not_of_le {s t : Z3Name} (hs : s.length ≤ 255) (ht : t.length ≤ 255) :
    ¬CutAlike s t := fun h => by
  have := h.1
  omega

/-- The constants of the bytes of some arrays with the `ite` encoding, and those of the arrays
with the others, are different unless the buffer cuts their texts to one name. In particular they
are if all texts fit. -/
theorem constants_distinct_iff (S : Set ArrayObj) :
    let elements := {p : ArrayObj × Nat | p.1 ∈ S ∧ p.2 < p.1.size}
    (elements.InjOn (fun p => A.elementName p.1 p.2) ↔
      ∀ x ∈ S, ∀ i < x.size, ∀ y ∈ S, ∀ j < y.size, (x,i) ≠ (y,j) →
        ¬CutAlike (A.elementText x i) (A.elementText y j)) ∧ (S.InjOn A.arrayName ↔
      ∀ x ∈ S, ∀ y ∈ S, x ≠ y → ¬CutAlike (A.arrayText x) (A.arrayText y)) ∧
    ((∀ x ∈ S, ∀ i < x.size, (A.elementText x i).length ≤ 255) →
      elements.InjOn fun p => A.elementName p.1 p.2) ∧
    ((∀ x ∈ S, (A.arrayText x).length ≤ 255) → S.InjOn A.arrayName) := by
  intro elements
  have helements : elements.InjOn (fun p => A.elementName p.1 p.2) ↔ _ :=
    injOn_snprintf256_iff (t := fun p : ArrayObj × Nat => A.elementText p.1 p.2)
      (fun h => Prod.ext_iff.mpr (A.elementText_inj h)) _
  have harrays : S.InjOn A.arrayName ↔ _ := injOn_snprintf256_iff (fun h => A.arrayText_inj h) S
  refine ⟨helements.trans ⟨?_,?_⟩,harrays,fun h => helements.mpr ?_,fun h => harrays.mpr ?_⟩
  · exact fun h x hx i hi y hy j hj => h (x,i) ⟨hx,hi⟩ (y,j) ⟨hy,hj⟩
  · exact fun h p hp q hq => h p.1 hp.1 p.2 hp.2 q.1 hq.1 q.2 hq.2
  · exact fun p hp q hq _ => CutAlike.not_of_le (h p.1 hp.1 p.2 hp.2) (h q.1 hq.1 q.2 hq.2)
  · exact fun x hx y hy _ => CutAlike.not_of_le (h x hx) (h y hy)

variable (mode : ArrayConsMode)

def ArrayNames.byteName (arr : ArrayObj) (i : Nat) : Z3Name × Nat :=
  match mode with
  | .ite => (A.elementName arr i,0)
  | _ => (A.arrayName arr,i)

def ArrayNames.Distinct (M : ArrayObj → Prop) : Prop :=
  ∀ x y i j, M x → M y → i < x.size → j < y.size →
    A.byteName mode x i = A.byteName mode y j → x = y ∧ i = j

variable {M : ArrayObj → Prop}

def byteValue (ρ : Env Z3Name) (n : Z3Name × Nat) : BitVec 8 :=
  match mode with
  | .ite => ρ.byte n.1
  | _ => ρ.array n.1 n.2

/-- The constants the builder makes for the array have the array's bytes as values. The bytes
of a constant array are in the terms, unless they are asserted. -/
def Matches (a : Assignment) (ρ : Env Z3Name) (arr : ArrayObj) : Prop :=
  arr.isSymbolicArray = true ∨ mode = .asserts → ∀ i, i < arr.size →
    byteValue mode ρ (A.byteName mode arr i) = BitVec.ofNat 8 (arr.initial a i)

open Classical in
noncomputable def Assignment.toEnv (A : ArrayNames) (mode : ArrayConsMode) (M : ArrayObj → Prop)
    (a : Assignment) : Env Z3Name :=
  let value : Z3Name × Nat → BitVec 8 := fun n =>
    if h : ∃ p : ArrayObj × Nat, M p.1 ∧ p.2 < p.1.size ∧ A.byteName mode p.1 p.2 = n then
      BitVec.ofNat 8 (h.choose.1.initial a h.choose.2) else 0
  ⟨fun _ => false,fun n => value (n,0),fun n i => value (n,i)⟩

variable {A : ArrayNames} {mode : ArrayConsMode} {arr : ArrayObj}

lemma Assignment.toEnv_byteValue (hd : A.Distinct mode M) (a : Assignment) (ha : M arr)
    (hi : i < arr.size) : byteValue mode (a.toEnv A mode M) (A.byteName mode arr i) =
      BitVec.ofNat 8 (arr.initial a i) := by
  have hex : ∃ p : ArrayObj × Nat, M p.1 ∧ p.2 < p.1.size ∧
      A.byteName mode p.1 p.2 = A.byteName mode arr i := ⟨(arr,i),ha,hi,rfl⟩
  obtain ⟨hM,hlt,hname⟩ := hex.choose_spec
  obtain ⟨h1,h2⟩ := hd _ _ _ _ hM ha hlt hi hname
  have hval : byteValue mode (a.toEnv A mode M) (A.byteName mode arr i) =
      BitVec.ofNat 8 (hex.choose.1.initial a hex.choose.2) := by
    cases mode <;> exact dif_pos hex
  rw [hval,h1,h2]

/-- No arithmetic over Booleans, no comparison of the kinds that are replaced, extensions that
extend and extractions that take a part. -/
def Grammar.canonical : Grammar where
  node k w _ :=
    match k with
    | .and | .or | .xor | .eq => True
    | .ne | .ugt | .uge | .sgt | .sge => False
    | _ => w ≠ 1
  ext n w := n < w
  slice n w := w ≠ n
  node_or _ _ := trivial
  node_xor _ _ := trivial
  node_eq _ _ := trivial
  node_and _ _ := trivial
  node_and_bool _ := trivial
  node_plain {k} {w} _ hk hw := by cases k <;> first | exact hw | cases hk
  ext_of_lt h := h
  ext_mono h h' := Nat.lt_trans h h'
  slice_of_ne h := h

def Expr.operands : Expr → List Expr
  | .read ul i => i :: ul.nodes.flatMap fun n => [n.1,n.2]
  | e => e.kids

inductive Expr.Built : Expr → Prop
  | create {e r : Expr} : (∀ x ∈ e.operands, Expr.Built x) → e.Buildable → e.create = some r →
      Expr.Built r

variable {e : Expr}

lemma Expr.create_canonical (h : e.Buildable) (hk : e.KidsConform .canonical) :
    Keeps .canonical e.create := by
  have hasks : Grammar.Asks .canonical e := by
    unfold Grammar.Asks
    split
    · split <;> first | exact fun hw => hw | exact fun _ => trivial | trivial
    · trivial
  cases e with
  | zext x w => exact ZExtExpr.create_keeps w (hk x (by simp [kids]))
  | sext x w => exact SExtExpr.create_keeps w (hk x (by simp [kids]))
  | constant | read | select | concat | extract | not | binary =>
    exact create_keeps h hk hasks

variable {G : Grammar}

lemma UpdateList.conforms_of_nodes : (ul : UpdateList) →
    (∀ n ∈ ul.nodes, n.1.Conforms G ∧ n.2.Conforms G) → ul.Conforms G
  | .root _, _ => trivial
  | .extend next i v, h =>
    ⟨conforms_of_nodes next fun n hn => h n (mem_cons_of_mem _ hn),h (i,v) mem_cons_self⟩

lemma Expr.Built.conforms (h : e.Built) : e.Conforms .canonical := by
  induction h with
  | @create e r _ hb hr ih =>
    refine create_canonical hb ?_ r hr
    cases e with
    | read ul i =>
      have hnode : ∀ n ∈ ul.nodes, ∀ x ∈ [n.1,n.2], x ∈ (read ul i).operands := by
        intro n hn x hx
        exact mem_cons_of_mem _ (mem_flatMap.mpr ⟨n,hn,hx⟩)
      refine ⟨ul.conforms_of_nodes fun n hn => ?_,ih i (by simp [operands])⟩
      exact ⟨ih n.1 (hnode n hn _ (by simp)),ih n.2 (hnode n hn _ (by simp))⟩
    | constant | select | concat | extract | not | zext | sext | binary =>
      exact fun k hk => ih k hk

def sortOf (w : Nat) : Srt := if w = 1 then .bool else .bv w

lemma sortOf_one : sortOf 1 = .bool := rfl

variable {w : Nat}

lemma sortOf_of_ne (h : w ≠ 1) : sortOf w = .bv w := if_neg h

variable {t : Z3Expr}

lemma isBool_of_sort (h : t.sort? = some (sortOf w)) : t.isBool = decide (w = 1) := by
  by_cases hw : w = 1
  · simp [isBool,h,hw,sortOf]
  · simp [isBool,h,hw,sortOf]

lemma bvSize_of_sort (h : t.sort? = some (.bv w)) : t.bvSize = w := by
  simp [bvSize,h]

lemma makeConstant_sort {c : APInt} (h : 0 < c.width) :
    (makeConstant c).sort? = some (sortOf c.width) := by
  unfold makeConstant sortOf
  split
  · rfl
  · simp [sort?,h]

variable {src : Z3Expr} {off x y : Nat}

lemma makeExtract_sort (hs : src.sort? = some (.bv n))
    (hw : 0 < w) (hn : off+w ≤ n) : (makeExtract off w src).sort? = some (sortOf w) := by
  unfold makeExtract sortOf
  split
  · have : off < n := by omega
    simp [sort?,hs,this]
  · have h1 : off ≤ off+w-1 ∧ off+w-1 < n := by omega
    have h2 : off+w-1-off+1 = w := by omega
    simp [sort?,hs,h1,h2]

lemma makeExt_sort (hs : src.sort? = some (sortOf n)) (hn : 0 < n) (hw : n < w) :
    (makeZExt w src).sort? = some (sortOf w) ∧ (makeSExt w src).sort? = some (sortOf w) := by
  have hw0 : 0 < w := by omega
  unfold makeZExt makeSExt
  rw [isBool_of_sort hs,sortOf_of_ne (by omega)]
  by_cases h1 : n = 1
  · subst h1
    simp [sort?,hs,sortOf,hw0]
  · rw [sortOf_of_ne h1] at hs
    have : n+(w-n) = w := by omega
    simp [sort?,hs,h1,bvSize_of_sort hs,this]

lemma makeNot_sort (ht : t.sort? = some (sortOf n)) : (makeNot t).sort? = some (sortOf n) := by
  unfold makeNot
  rw [isBool_of_sort ht]
  by_cases h1 : n = 1
  · subst h1
    simp [sort?,ht,sortOf]
  · rw [sortOf_of_ne h1] at ht ⊢
    simp [sort?,ht,h1]

variable {l r : Z3Expr}

lemma makeBitwise_sort (bo : BoolOp) (op : BvOp)
    (hl : l.sort? = some (sortOf n)) (hr : r.sort? = some (sortOf n)) :
    (makeBitwise bo op l r).sort? = some (sortOf n) := by
  unfold makeBitwise
  rw [isBool_of_sort hl]
  by_cases h1 : n = 1
  · subst h1
    simp [sort?,hl,hr,sortOf]
  · rw [sortOf_of_ne h1] at hl hr ⊢
    simp [sort?,hl,hr,h1]

variable {k : BinaryKind}

lemma makeBinary_sort (hk : Grammar.canonical.node k n e) (hl : l.sort? = some (sortOf n))
    (hr : r.sort? = some (sortOf n)) : ∃ t, makeBinary k l r = some t ∧
      t.sort? = some (sortOf (if k.isCompare then 1 else n)) := by
  have arith : n ≠ 1 → ∀ op, (bvBin op l r).sort? = some (sortOf n) := by
    intro hn op
    rw [sortOf_of_ne hn] at hl hr ⊢
    simp [sort?,hl,hr]
  have order : n ≠ 1 → ∀ rel, (bvRel rel l r).sort? = some (sortOf 1) := by
    intro hn rel
    rw [sortOf_of_ne hn] at hl hr
    simp [sort?,hl,hr,sortOf]
  cases k with
  | and | or | xor => exact ⟨_,rfl,makeBitwise_sort _ _ hl hr⟩
  | eq =>
    refine ⟨_,rfl,?_⟩
    by_cases h1 : n = 1
    · subst h1
      simp [sort?,hl,hr,sortOf,isCompare]
    · rw [sortOf_of_ne h1] at hl hr
      simp [sort?,hl,hr,sortOf,isCompare]
  | add | sub | mul | udiv | sdiv | urem | srem | shl | lshr | ashr => exact ⟨_,rfl,arith hk _⟩
  | ult | ule | slt | sle => exact ⟨_,rfl,order hk _⟩
  | ne | ugt | uge | sgt | sge => exact hk.elim

lemma constantByte_sort (root : ArrayObj) (i : Nat) :
    (constantByte root i).sort? = some (.bv 8) := rfl

variable {index : Z3Expr}

lemma iteTree_sort (A : ArrayNames) (root : ArrayObj)
    (hi : index.sort? = some (.bv 32)) (n : Nat) :
    (iteTree A root index n).sort? = some (.bv 8) := by
  induction n with
  | zero => rfl
  | succ n ih =>
    have hv : (arrayValue A root n).sort? = some (.bv 8) := by unfold arrayValue; split <;> rfl
    simp [iteTree,sort?,hi,ih,hv]

lemma storeValues_sort (root : ArrayObj) {array : Z3Expr} (ha : array.sort? = some .array)
    (n : Nat) : (storeValues root array n).sort? = some .array := by
  induction n with
  | zero => exact ha
  | succ n ih => simp [storeValues,sort?,ih,constantByte_sort]

lemma initialArray_sort (A : ArrayNames) (mode : ArrayConsMode) (root : ArrayObj) :
    (initialArray A mode root).sort? = some .array := by
  unfold initialArray
  split
  · exact storeValues_sort root rfl _
  · rfl

variable {us : List (Z3Expr × Z3Expr)}

lemma readTerm_sort (A : ArrayNames) (mode : ArrayConsMode) (root : ArrayObj)
    (hi : index.sort? = some (.bv 32))
    (hus : ∀ u ∈ us, u.1.sort? = some (.bv 32) ∧ u.2.sort? = some (.bv 8)) :
    (readTerm A mode root us index).sort? = some (.bv 8) := by
  have hite : (iteTerm index (getReadForInitialArray A index root) us).sort? = some (.bv 8) := by
    induction us with
    | nil => exact iteTree_sort A root hi _
    | cons u us ih =>
      obtain ⟨h1,h2⟩ := hus u (by simp)
      have ih := ih fun u hu => hus u (by simp [hu])
      unfold iteTerm at ih ⊢
      simp [sort?,hi,h1,h2,ih]
  have hstore : (storeTerm (initialArray A mode root) us).sort? = some .array := by
    clear hite
    induction us with
    | nil => exact initialArray_sort A mode root
    | cons u us ih =>
      obtain ⟨h1,h2⟩ := hus u (by simp)
      have ih := ih fun u hu => hus u (by simp [hu])
      unfold storeTerm at ih ⊢
      simp [sort?,h1,h2,ih]
  cases mode with
  | ite => exact hite
  | stores | asserts => simp [readTerm,sort?,hi,hstore]

def Expr.isBoolConcat : Expr → Bool
  | .concat l r => l.width == 1 || r.width == 1
  | _ => false

def Expr.NoBoolConcat (e : Expr) : Prop := ∀ x ∈ e.subexprs, x.isBoolConcat = false

lemma UpdateList.mentions_getRoot (ul : UpdateList) : ul.mentions ul.getRoot := by
  fun_induction UpdateList.getRoot ul with
  | case1 => simp [mentions]
  | case2 next _ _ ih => simp [mentions,ih]

def valueOf (w v : Nat) : Value := if w = 1 then .bool (v == 1) else .bv w v

lemma valueOf_one (v : Nat) : valueOf 1 v = .bool (v == 1) := rfl

lemma valueOf_of_ne (h : w ≠ 1) (v : Nat) : valueOf w v = .bv w v := if_neg h

section
variable {ρ : Env Z3Name}

lemma makeConstant_eval (c : APInt) : (makeConstant c).eval ρ = valueOf c.width c.value := by
  unfold makeConstant
  by_cases h : c.width = 1
  · rw [if_pos h,h,valueOf_one]
    simp [Term.eval,APInt.isTrue,h]
  · rw [if_neg h,valueOf_of_ne h]
    simp [Term.eval,mod_eq_of_lt c.value_lt]

lemma makeExtract_eval (hs : src.eval ρ = .bv n x) (hx : x < 2^n) (hw : 0 < w) :
    (makeExtract off w src).eval ρ = valueOf w ((x >>> off)%2^w) := by
  unfold makeExtract
  by_cases h : w = 1
  · subst h
    rw [if_pos rfl,valueOf_one]
    rw [Term.eval,eval_extract off off hs]
    simp [Term.eval,Value.same,mod_eq_of_lt hx]
  · rw [if_neg h,valueOf_of_ne h]
    have hlen : off+w-1-off+1 = w := by omega
    rw [eval_extract _ _ hs,BitVec.extractLsb_toNat,BitVec.toNat_ofNat,mod_eq_of_lt hx,hlen]

lemma makeZExt_eval (hsort : src.sort? = some (sortOf n))
    (hs : src.eval ρ = valueOf n x) (hx : x < 2^n) (hn : 0 < n) (hw : n < w) :
    (makeZExt w src).eval ρ = valueOf w (x%2^w) := by
  have hxw : x < 2^w := lt_trans hx (Nat.pow_lt_pow_right (by decide) hw)
  unfold makeZExt
  rw [isBool_of_sort hsort,valueOf_of_ne (by omega),mod_eq_of_lt hxw]
  by_cases h1 : n = 1
  · subst h1
    rw [valueOf_one] at hs
    have h1w : 1%2^w = 1 := mod_eq_of_lt (Nat.one_lt_two_pow (by omega))
    obtain rfl | rfl : x = 0 ∨ x = 1 := by omega
    · simp [Term.eval,hs,Value.isTrue]
    · simp [Term.eval,hs,Value.isTrue,h1w]
  · rw [valueOf_of_ne h1] at hs
    rw [sortOf_of_ne h1] at hsort
    have hlen : n+(w-n) = w := by omega
    simp only [h1,decide_false,Bool.false_eq_true,if_false,bvSize_of_sort hsort]
    rw [eval_zeroExt _ hs,hlen,BitVec.toNat_setWidth,BitVec.toNat_ofNat,mod_eq_of_lt hx,mod_eq_of_lt
      hxw]

lemma sextOrTrunc_bool (w : Nat) : sextOrTrunc 1 w 0 = 0 ∧ sextOrTrunc 1 w 1 = 2^w-1 := by
  constructor
  · apply eq_of_testBit_eq
    intro i
    simp [testBit_sextOrTrunc 1 w 0 i (by decide)]
  · apply eq_of_testBit_eq
    intro i
    have : (if i < 1 then i else 1-1) = 0 := by split <;> omega
    rw [testBit_sextOrTrunc 1 w 1 i (by decide),testBit_two_pow_sub_one,this]
    simp

lemma makeSExt_eval (hsort : src.sort? = some (sortOf n))
    (hs : src.eval ρ = valueOf n x) (hx : x < 2^n) (hn : 0 < n) (hw : n < w) :
    (makeSExt w src).eval ρ = valueOf w (sextOrTrunc n w x) := by
  unfold makeSExt
  rw [isBool_of_sort hsort,valueOf_of_ne (by omega)]
  by_cases h1 : n = 1
  · subst h1
    rw [valueOf_one] at hs
    have hlt : 2^w-1 < 2^w := by have := Nat.two_pow_pos w; omega
    obtain ⟨h0,h1⟩ := sextOrTrunc_bool w
    obtain rfl | rfl : x = 0 ∨ x = 1 := by omega
    · simp [Term.eval,hs,Value.isTrue,h0]
    · simp [Term.eval,hs,Value.isTrue,h1,mod_eq_of_lt hlt]
  · rw [valueOf_of_ne h1] at hs
    rw [sortOf_of_ne h1] at hsort
    have hlen : n+(w-n) = w := by omega
    simp only [h1,decide_false,Bool.false_eq_true,if_false,bvSize_of_sort hsort]
    rw [eval_signExt _ hs,hlen,sextOrTrunc]

lemma makeNot_eval (hsort : t.sort? = some (sortOf n))
    (ht : t.eval ρ = valueOf n x) (hx : x < 2^n) :
    (makeNot t).eval ρ = valueOf n (~~~BitVec.ofNat n x).toNat := by
  unfold makeNot
  rw [isBool_of_sort hsort]
  by_cases h1 : n = 1
  · subst h1
    rw [valueOf_one] at ht ⊢
    obtain rfl | rfl : x = 0 ∨ x = 1 := by omega
    · simp [Term.eval,ht,Value.isTrue]
    · simp [Term.eval,ht,Value.isTrue]
  · rw [valueOf_of_ne h1] at ht ⊢
    simp only [h1,decide_false,Bool.false_eq_true,if_false]
    exact eval_bvNot ht

lemma BvOp.smtSDiv_eq (x : BitVec w) {y : BitVec w} (hy : y ≠ 0#w) : x.smtSDiv y = x.sdiv y := by
  have hneg : -y ≠ 0#w := by simpa using hy
  unfold BitVec.smtSDiv BitVec.sdiv BitVec.smtUDiv
  split <;> simp_all

lemma sshiftRight_min (x : BitVec w) (s : Nat) : x.sshiftRight s = x.sshiftRight (min s w) := by
  apply BitVec.eq_of_getLsbD_eq
  intro i hi
  rw [BitVec.getLsbD_sshiftRight,BitVec.getLsbD_sshiftRight]
  by_cases hs : s ≤ w
  · rw [min_eq_left hs]
  · have h1 : ¬ s+i < w := by omega
    have h2 : ¬ min s w+i < w := by omega
    rw [if_neg h1,if_neg h2]

def BinaryKind.bvOp : BinaryKind → BvOp
  | .sub => .sub
  | .mul => .mul
  | .udiv => .udiv
  | .sdiv => .sdiv
  | .urem => .urem
  | .srem => .srem
  | .and => .and
  | .or => .or
  | .xor => .xor
  | .shl => .shl
  | .lshr => .lshr
  | .ashr => .ashr
  | _ => .add

lemma BinaryKind.bvOp_apply (hk : k.isCompare = false)
    (hy : y < 2^w) (hdiv : k.isDivision → y ≠ 0) :
    (k.bvOp.apply (BitVec.ofNat w x) (BitVec.ofNat w y)).toNat = k.apply w x y := by
  have hne : k.isDivision → BitVec.ofNat w y ≠ 0#w := by
    intro hd h
    have := congrArg BitVec.toNat h
    simp only [BitVec.toNat_ofNat,mod_eq_of_lt hy,zero_mod] at this
    exact hdiv hd this
  have hsh : (BitVec.ofNat w y).toNat = y := by simp [mod_eq_of_lt hy]
  cases k with
  | eq | ne | ult | ule | ugt | uge | slt | sle | sgt | sge => cases hk
  | add | sub | mul | and | or | xor => rfl
  | udiv =>
    have h := hne rfl
    simp only [bvOp,BvOp.apply,apply,BitVec.smtUDiv,if_neg h]
    exact congrArg BitVec.toNat (if_neg h)
  | sdiv =>
    have h := hne rfl
    simp only [bvOp,BvOp.apply,apply,BvOp.smtSDiv_eq _ h,if_neg h]
  | urem | srem =>
    have h := hne rfl
    simp only [bvOp,BvOp.apply,apply,if_neg h]
  | shl =>
    simp only [bvOp,BvOp.apply,apply,BitVec.shiftLeft_eq',hsh]
    by_cases hw : y < w
    · rw [if_pos hw]
    · rw [if_neg hw,BitVec.shiftLeft_eq_zero (by omega)]
      rfl
  | lshr =>
    simp only [bvOp,BvOp.apply,apply,BitVec.ushiftRight_eq',hsh]
    by_cases hw : y < w
    · rw [if_pos hw]
    · rw [if_neg hw,BitVec.ushiftRight_eq_zero (by omega)]
      rfl
  | ashr =>
    simp only [bvOp,BvOp.apply,apply,BitVec.sshiftRight',hsh]
    rw [sshiftRight_min]

lemma makeBitwise_eval {bo : BoolOp}
    (hk : (k,bo) = (.and,.and) ∨ (k,bo) = (.or,.or) ∨ (k,bo) = (.xor,.xor))
    (hsort : l.sort? = some (sortOf n)) (hl : l.eval ρ = valueOf n x)
    (hr : r.eval ρ = valueOf n y) (hx : x < 2^n) (hy : y < 2^n) :
    (makeBitwise bo k.bvOp l r).eval ρ = valueOf n (k.apply n x y) := by
  unfold makeBitwise
  rw [isBool_of_sort hsort]
  by_cases h1 : n = 1
  · subst h1
    rw [valueOf_one] at hl hr ⊢
    simp only [decide_true,if_true,Term.eval,hl,hr,Value.isTrue,Value.bool.injEq]
    obtain rfl | rfl : x = 0 ∨ x = 1 := by omega
    all_goals obtain rfl | rfl : y = 0 ∨ y = 1 := by omega
    all_goals rcases hk with hk | hk | hk <;> cases hk <;> rfl
  · rw [valueOf_of_ne h1] at hl hr ⊢
    simp only [h1,decide_false,Bool.false_eq_true,if_false]
    rw [eval_bvBin _ hl hr,bvOp_apply _ hy]
    · rcases hk with hk | hk | hk <;> cases hk <;> exact fun h => by cases h
    · rcases hk with hk | hk | hk <;> cases hk <;> rfl

lemma makeBinary_eval (hk : Grammar.canonical.node k n e) (hsort : l.sort? = some (sortOf n))
    (hl : l.eval ρ = valueOf n x) (hr : r.eval ρ = valueOf n y) (hx : x < 2^n) (hy : y < 2^n)
    (hdiv : k.isDivision → y ≠ 0) (ht : makeBinary k l r = some t) :
    t.eval ρ = valueOf (if k.isCompare then 1 else n) (k.apply n x y) := by
  have arith : n ≠ 1 → k.isCompare = false →
      (bvBin k.bvOp l r).eval ρ = valueOf n (k.apply n x y) := by
    intro hn hc
    rw [valueOf_of_ne hn] at hl hr ⊢
    rw [eval_bvBin _ hl hr,bvOp_apply hc hy hdiv]
  have order : n ≠ 1 → ∀ rel : BvRel, (bvRel rel l r).eval ρ =
      .bool (rel.holds (BitVec.ofNat n x) (BitVec.ofNat n y)) := by
    intro hn rel
    rw [valueOf_of_ne hn] at hl hr
    exact eval_bvRel rel hl hr
  have hbool : ∀ b : Bool, Value.bool b = valueOf 1 b.toNat := by rintro (_ | _) <;> rfl
  cases k with
  | and =>
    cases ht
    exact makeBitwise_eval (.inl rfl) hsort hl hr hx hy
  | or =>
    cases ht
    exact makeBitwise_eval (.inr (.inl rfl)) hsort hl hr hx hy
  | xor =>
    cases ht
    exact makeBitwise_eval (.inr (.inr rfl)) hsort hl hr hx hy
  | eq =>
    cases ht
    have hsame : ((valueOf n x).same (valueOf n y)) = (x == y) := by
      by_cases h1 : n = 1
      · subst h1
        obtain rfl | rfl : x = 0 ∨ x = 1 := by omega
        all_goals obtain rfl | rfl : y = 0 ∨ y = 1 := by omega
        all_goals rfl
      · rw [valueOf_of_ne h1,valueOf_of_ne h1]
        rfl
    rw [Term.eval,hl,hr,hsame,apply_eq n x y hx hy,hbool]
    by_cases hxy : x = y
    · rw [if_pos hxy,beq_iff_eq.mpr hxy]
      rfl
    · rw [if_neg hxy,beq_false_of_ne hxy]
      rfl
  | add | sub | mul | udiv | sdiv | urem | srem | shl | lshr | ashr =>
    cases ht
    exact arith hk rfl
  | ult | ule | slt | sle =>
    cases ht
    exact (order hk _).trans (hbool _)
  | ne | ugt | uge | sgt | sge => exact hk.elim

lemma constantByte_eval (h : arr.isConstantArray) (a : Assignment)
    (i : Nat) : (constantByte arr i).eval ρ = .bv 8 (arr.initial a i) := by
  have hs : arr.isSymbolicArray ≠ true := by simpa [ArrayObj.isConstantArray] using h
  rw [constantByte,Term.eval,ArrayObj.initial_constant hs a,mod_eq_of_lt (BitVec.isLt _)]
  rfl

variable {a : Assignment}

lemma arrayValue_eval (hm : Matches A .ite a ρ arr) (hi : i < arr.size) :
    (arrayValue A arr i).eval ρ = .bv 8 (arr.initial a i) := by
  unfold arrayValue
  split
  next hc =>
    exact constantByte_eval hc a i
  rename_i hc
  have hs : arr.isSymbolicArray := by simpa [ArrayObj.isConstantArray] using hc
  have hb := hm (.inl hs) i hi
  simp only [byteValue,ArrayNames.byteName] at hb
  rw [Term.eval,hb,BitVec.toNat_ofNat,mod_eq_of_lt (arr.initial_lt a i)]

lemma iteTree_eval (hm : Matches A .ite a ρ arr) (hi : index.eval ρ = .bv 32 i)
    (n : Nat) (hn : n ≤ arr.size) (hlt : i < n) :
    (iteTree A arr index n).eval ρ = .bv 8 (arr.initial a i) := by
  induction n with
  | zero => omega
  | succ n ih =>
    have hn32 : n%2^32 = n := mod_eq_of_lt (lt_trans hn arr.size_lt)
    have heq : (eq index (.bvVal n 32)).eval ρ = .bool (i == n) :=
      eval_eq_bv hi (by rw [Term.eval,hn32])
    rw [iteTree]
    by_cases hin : i = n
    · rw [eval_ite_true (by rw [heq,beq_iff_eq.mpr hin]),hin]
      exact arrayValue_eval hm hn
    · rw [eval_ite_false (by rw [heq,beq_false_of_ne hin])]
      exact ih (by omega) (by omega)

lemma storeValues_eval (h : arr.isConstantArray) (a : Assignment)
    (array : Z3Expr) (n : Nat) (hn : n ≤ arr.size) (hlt : i < n) :
    ((storeValues arr array n).eval ρ).toArray i = BitVec.ofNat 8 (arr.initial a i) := by
  induction n with
  | zero => omega
  | succ n ih =>
    have hn32 : n%2^32 = n := mod_eq_of_lt (lt_trans hn arr.size_lt)
    rw [storeValues,Term.eval,constantByte_eval h a]
    simp only [Term.eval,Value.toArray,Value.toNat,hn32]
    by_cases hin : i = n
    · rw [hin,update_self]
    · rw [update_of_ne hin]
      exact ih (by omega) (by omega)

lemma initialArray_eval (hmode : mode ≠ .ite) (hm : Matches A mode a ρ arr) (hi : i < arr.size) :
    ((initialArray A mode arr).eval ρ).toArray i = BitVec.ofNat 8 (arr.initial a i) := by
  unfold initialArray
  split
  next hc =>
    exact storeValues_eval hc.1 a _ _ (le_refl _) hi
  rename_i hc
  have hs : arr.isSymbolicArray ∨ mode = .asserts := by
    by_cases hsym : arr.isSymbolicArray
    · exact .inl hsym
    · exact .inr (not_not.mp fun h => hc ⟨by simpa [ArrayObj.isConstantArray] using hsym,h⟩)
  have hb := hm hs i hi
  cases mode with
  | ite => exact absurd rfl hmode
  | stores | asserts => exact hb

def UpdatesAgree (ρ : Env Z3Name) (a : Assignment) (us : List (Z3Expr × Z3Expr))
    (ul : UpdateList) : Prop :=
  List.Forall₂ (fun u n => u.1.eval ρ = .bv 32 (n.1.eval a) ∧ u.2.eval ρ = .bv 8 (n.2.eval a))
    us ul.nodes

lemma iteTerm_eval
    (hi : index.eval ρ = .bv 32 i) : (ul : UpdateList) → {us : List (Z3Expr × Z3Expr)} →
    UpdatesAgree ρ a us ul → Matches A .ite a ρ ul.getRoot → i < ul.getRoot.size →
    (iteTerm index (getReadForInitialArray A index ul.getRoot) us).eval ρ = .bv 8 (ul.eval a i)
  | .root arr, us, hus, hm, hlt => by
    cases hus
    exact iteTree_eval hm hi arr.size (le_refl _) hlt
  | .extend next j v, us, hus, hm, hlt => by
    cases hus with
    | @cons u _ us _ hu hus =>
      have ih := iteTerm_eval hi next hus hm hlt
      unfold iteTerm at ih ⊢
      have heq := eval_eq_bv hi hu.1
      rw [foldr_cons,UpdateList.eval]
      by_cases hij : j.eval a = i
      · rw [eval_ite_true (by rw [heq,beq_iff_eq.mpr hij.symm]),if_pos hij]
        exact hu.2
      · rw [eval_ite_false (by rw [heq,beq_false_of_ne fun h => hij h.symm]),if_neg hij]
        exact ih

lemma storeTerm_eval (hmode : mode ≠ .ite) : (ul : UpdateList) → {us : List (Z3Expr × Z3Expr)} →
    UpdatesAgree ρ a us ul → Matches A mode a ρ ul.getRoot → i < ul.getRoot.size →
    ((storeTerm (initialArray A mode ul.getRoot) us).eval ρ).toArray i =
      BitVec.ofNat 8 (ul.eval a i)
  | .root arr, us, hus, hm, hlt => by
    cases hus
    exact initialArray_eval hmode hm hlt
  | .extend next j v, us, hus, hm, hlt => by
    cases hus with
    | @cons u _ us _ hu hus =>
      have ih := storeTerm_eval hmode next hus hm hlt
      unfold storeTerm at ih ⊢
      rw [foldr_cons,Term.eval,hu.1,hu.2]
      simp only [Value.toArray,Value.toNat,UpdateList.eval]
      by_cases hij : j.eval a = i
      · rw [if_pos hij,hij,update_self]
      · rw [if_neg hij,update_of_ne (fun h => hij h.symm)]
        exact ih

lemma readTerm_eval (hi : index.eval ρ = .bv 32 i) {ul : UpdateList}
    (hwf : ul.WF) (hus : UpdatesAgree ρ a us ul) (hm : Matches A mode a ρ ul.getRoot)
    (hlt : i < ul.getRoot.size) :
    (readTerm A mode ul.getRoot us index).eval ρ = .bv 8 (ul.eval a i) := by
  have hselect : mode ≠ .ite →
      (select (storeTerm (initialArray A mode ul.getRoot) us) index).eval ρ =
        .bv 8 (ul.eval a i) := by
    intro hmode
    rw [Term.eval,hi]
    simp only [Value.toNat]
    rw [storeTerm_eval hmode ul hus hm hlt,BitVec.toNat_ofNat,mod_eq_of_lt (ul.eval_lt a hwf i)]
  cases mode with
  | ite => exact iteTerm_eval hi ul hus hm hlt
  | stores => exact hselect (nofun)
  | asserts => exact hselect (nofun)

def Scope.exact : Scope where
  readable arr i := i < arr.size
  divisor v := v ≠ 0
  constant_lt _ _ h _ := h

variable (A mode)

mutual
theorem Expr.toZ3_spec : (e : Expr) → e.WF → e.Conforms .canonical → e.NoBoolConcat →
    ∃ t, e.toZ3 A mode = some t ∧ t.sort? = some (sortOf e.width) ∧
      ∀ {a ρ}, e.Defined .exact a true → (∀ arr, e.mentions arr → Matches A mode a ρ arr) →
        t.eval ρ = valueOf e.width (e.eval a)
  | .constant c, h, _, _ => ⟨_,rfl,makeConstant_sort h.1,fun _ _ => makeConstant_eval c⟩
  | .read ul i, h, hc, hb => by
    simp only [Expr.NoBoolConcat,Expr.subexprs,forall_mem_cons,forall_mem_append] at hb
    obtain ⟨us,hus,hok,hu⟩ := ul.toZ3_spec h.1 hc.1 hb.2.1
    obtain ⟨ti,hti,hs,hi⟩ := i.toZ3_spec h.2.1 hc.2 hb.2.2
    rw [h.2.2] at hs hi
    refine ⟨readTerm A mode ul.getRoot us ti,by simp [Expr.toZ3,hus,hti],
      readTerm_sort A mode _ hs hok,fun hd hm => ?_⟩
    simp only [Expr.mentions,Bool.or_eq_true,or_imp,forall_and] at hm
    exact readTerm_eval (hi hd.2.1 hm.2) h.1 (hu hd.1 hm.1) (hm.1 _ ul.mentions_getRoot)
      (hd.2.2 rfl)
  | .select c x y, h, hc, hb => by
    simp only [Expr.NoBoolConcat,Expr.subexprs,forall_mem_cons,forall_mem_append] at hb
    obtain ⟨tc,htc,hsc,hcv⟩ := c.toZ3_spec h.1 hc.1 hb.2.1.1
    obtain ⟨tx,htx,hsx,hxv⟩ := x.toZ3_spec h.2.1 hc.2.1 hb.2.1.2
    obtain ⟨ty,hty,hsy,hyv⟩ := y.toZ3_spec h.2.2.1 hc.2.2 hb.2.2
    rw [h.2.2.2.1] at hsc hcv
    rw [← h.2.2.2.2] at hsy hyv
    refine ⟨.ite tc tx ty,by simp [Expr.toZ3,htc,htx,hty],
      by simp [sort?,hsc,hsx,hsy,sortOf_one,width],fun {a ρ} hd hm => ?_⟩
    simp only [Expr.mentions,Bool.or_eq_true,or_imp,forall_and] at hm
    have hcv := hcv hd.1 hm.1.1
    rw [valueOf_one] at hcv
    simp only [Expr.eval,width]
    by_cases hv : c.eval a = 1
    · rw [eval_ite_true (by rw [hcv,beq_iff_eq.mpr hv]),if_pos hv]
      have hdx := hd.2.1
      simp only [hv,decide_true,Bool.and_true] at hdx
      exact hxv hdx hm.1.2
    · rw [eval_ite_false (by rw [hcv,beq_false_of_ne hv]),if_neg hv]
      have hdy := hd.2.2
      simp only [hv,decide_false,Bool.not_false,Bool.and_true] at hdy
      exact hyv hdy hm.2
  | .concat l r, h, hc, hb => by
    simp only [Expr.NoBoolConcat,Expr.subexprs,forall_mem_cons,forall_mem_append,
      isBoolConcat,Bool.or_eq_false_iff,beq_eq_false_iff_ne] at hb
    obtain ⟨hlr,hbl,hbr⟩ := hb
    obtain ⟨tl,htl,hsl,hl⟩ := l.toZ3_spec h.1 hc.1 hbl
    obtain ⟨tr,htr,hsr,hr⟩ := r.toZ3_spec h.2.1 hc.2 hbr
    rw [sortOf_of_ne hlr.1] at hsl
    rw [sortOf_of_ne hlr.2] at hsr
    have hw : l.width+r.width ≠ 1 := by
      have := l.width_pos h.1
      have := r.width_pos h.2.1
      omega
    refine ⟨.concat tl tr,by simp [Expr.toZ3,htl,htr],
      by simp [sort?,hsl,hsr,width,sortOf_of_ne hw],fun {a ρ} hd hm => ?_⟩
    simp only [Expr.mentions,Bool.or_eq_true,or_imp,forall_and] at hm
    have hl := hl hd.1 hm.1
    have hr := hr hd.2 hm.2
    rw [valueOf_of_ne hlr.1] at hl
    rw [valueOf_of_ne hlr.2] at hr
    rw [eval_concat hl hr,width,valueOf_of_ne hw,BitVec.toNat_append,
      BitVec.toNat_ofNat,BitVec.toNat_ofNat,mod_eq_of_lt (l.eval_lt a h.1),
      mod_eq_of_lt (r.eval_lt a h.2.1),Expr.eval]
  | .extract e off w, h, hc, hb => by
    obtain ⟨te,hte,hse,he⟩ := e.toZ3_spec h.1 hc.1 (forall_mem_cons.mp hb).2
    have hw : e.width ≠ 1 := by
      have h1 := h.2
      have h2 : w ≠ e.width := hc.2
      omega
    rw [sortOf_of_ne hw] at hse
    refine ⟨makeExtract off w te,by simp [Expr.toZ3,hte],makeExtract_sort hse h.2.1 h.2.2,
      fun {a ρ} hd hm => ?_⟩
    have he := he hd hm
    rw [valueOf_of_ne hw] at he
    exact makeExtract_eval he (e.eval_lt a h.1) h.2.1
  | .not e, h, hc, hb => by
    obtain ⟨te,hte,hse,he⟩ := e.toZ3_spec h hc (forall_mem_cons.mp hb).2
    exact ⟨makeNot te,by simp [Expr.toZ3,hte],makeNot_sort hse,
      fun hd hm => makeNot_eval hse (he hd hm) (e.eval_lt _ h)⟩
  | .zext e w, h, hc, hb => by
    obtain ⟨te,hte,hse,he⟩ := e.toZ3_spec h.1 hc.1 (forall_mem_cons.mp hb).2
    have hpos := e.width_pos h.1
    exact ⟨makeZExt w te,by simp [Expr.toZ3,hte],(makeExt_sort hse hpos hc.2).1,
      fun hd hm => makeZExt_eval hse (he hd hm) (e.eval_lt _ h.1) hpos hc.2⟩
  | .sext e w, h, hc, hb => by
    obtain ⟨te,hte,hse,he⟩ := e.toZ3_spec h.1 hc.1 (forall_mem_cons.mp hb).2
    have hpos := e.width_pos h.1
    exact ⟨makeSExt w te,by simp [Expr.toZ3,hte],(makeExt_sort hse hpos hc.2).2,
      fun hd hm => makeSExt_eval hse (he hd hm) (e.eval_lt _ h.1) hpos hc.2⟩
  | .binary k l r, h, hc, hb => by
    simp only [Expr.NoBoolConcat,Expr.subexprs,forall_mem_cons,forall_mem_append] at hb
    obtain ⟨tl,htl,hsl,hl⟩ := l.toZ3_spec h.1 hc.1 hb.2.1
    obtain ⟨tr,htr,hsr,hr⟩ := r.toZ3_spec h.2.1 hc.2.1 hb.2.2
    rw [← h.2.2] at hsr hr
    obtain ⟨t,ht,hs⟩ := makeBinary_sort hc.2.2 hsl hsr
    refine ⟨t,by simp [Expr.toZ3,htl,htr,ht],hs,fun {a ρ} hd hm => ?_⟩
    simp only [Expr.mentions,Bool.or_eq_true,or_imp,forall_and] at hm
    have hrlt := r.eval_lt a h.2.1
    rw [← h.2.2] at hrlt
    refine makeBinary_eval hc.2.2 hsl (hl hd.1 hm.1) (hr (guard_left hd.2) hm.2)
      (l.eval_lt a h.1) hrlt (fun hk => ?_) ht
    have hg := hd.2
    cases k <;> first | exact hg.2 | cases hk

theorem UpdateList.toZ3_spec : (ul : UpdateList) → ul.WF → ul.Conforms .canonical →
    (∀ x ∈ ul.subexprs, x.isBoolConcat = false) → ∃ us, ul.toZ3 A mode = some us ∧
      (∀ u ∈ us, u.1.sort? = some (.bv 32) ∧ u.2.sort? = some (.bv 8)) ∧
      ∀ {a ρ}, ul.Defined .exact a → (∀ arr, ul.mentions arr → Matches A mode a ρ arr) →
        UpdatesAgree ρ a us ul
  | .root _, _, _, _ => ⟨[],rfl,nofun,fun _ _ => .nil⟩
  | .extend next i v, h, hc, hb => by
    simp only [UpdateList.subexprs,forall_mem_append] at hb
    obtain ⟨us,hus,hok,hn⟩ := next.toZ3_spec h.1 hc.1 hb.1.1
    obtain ⟨ti,hti,hsi,hi⟩ := i.toZ3_spec h.2.1 hc.2.1 hb.1.2
    obtain ⟨tv,htv,hsv,hv⟩ := v.toZ3_spec h.2.2.1 hc.2.2 hb.2
    rw [h.2.2.2.1] at hsi hi
    rw [h.2.2.2.2] at hsv hv
    refine ⟨(ti,tv) :: us,by simp [UpdateList.toZ3,hus,hti,htv],
      forall_mem_cons.mpr ⟨⟨hsi,hsv⟩,hok⟩,fun hd hm => ?_⟩
    simp only [UpdateList.mentions,Bool.or_eq_true,or_imp,forall_and] at hm
    exact .cons ⟨hi hd.2.1 hm.1.2,hv hd.2.2 hm.2⟩ (hn hd.1 hm.1.1)
end
end

def Z3BuilderState.start : Z3BuilderState := ⟨.empty,.empty⟩

def firstByte (id : Nat) : Expr :=
  .read (.root (.symbolic id 1 one_fits)) (ConstantExpr.alloc 0 32)

def firstByteIsZero : Expr := .binary .eq (ConstantExpr.alloc 0 8) (firstByte 0)

def sameFirstByte : Expr := .binary .eq (firstByte 0) (firstByte 1)

lemma Expr.Built.alloc {v : Nat} (h : 0 < w ∧ w < 2^32) : (ConstantExpr.alloc v w).Built :=
  .create (e := ConstantExpr.alloc v w) (nofun) h rfl

lemma firstByte_built (id : Nat) : (firstByte id).Built := by
  refine .create (e := firstByte id) (fun x hx => ?_) ⟨trivial,by decide,rfl⟩ rfl
  simp only [operands,firstByte,nodes,flatMap_nil,mem_singleton] at hx
  exact hx ▸ .alloc (by decide)

lemma Expr.Built.self (hx : ∀ x ∈ e.operands, x.Built) (hwf : e.Buildable)
    (he : e.create = some e) : e.Built := .create hx hwf he

lemma sameFirstByte_built : sameFirstByte.Built := by
  refine .self (fun x hx => ?_) (by decide : sameFirstByte.WF) (by decide +kernel)
  simp only [operands,sameFirstByte,kids,mem_cons,not_mem_nil,or_false]
    at hx
  rcases hx with rfl | rfl <;> exact firstByte_built _

lemma firstByteIsZero_built : firstByteIsZero.Built := by
  refine .self (fun x hx => ?_) (by decide : firstByteIsZero.WF) (by decide +kernel)
  simp only [operands,firstByteIsZero,kids,mem_cons,not_mem_nil,or_false] at hx
  rcases hx with rfl | rfl
  · exact .alloc (by decide)
  · exact firstByte_built 0

def ArrayNames.long : ArrayNames :=
  {ArrayNames.numbered with name := fun _ => replicate 255 97#8}

/-- The bytes of two arrays of long names share a constant, and so do the arrays. -/
theorem long_names_clash :
    let x := ArrayObj.symbolic 0 1 (by decide)
    let y := ArrayObj.symbolic 1 1 (by decide)
    x ≠ y ∧ ArrayNames.long.elementName x 0 = ArrayNames.long.elementName y 0 ∧
      ArrayNames.long.arrayName x = ArrayNames.long.arrayName y := by
  decide +kernel

end S2E
