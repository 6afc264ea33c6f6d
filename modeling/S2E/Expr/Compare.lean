import S2E.Expr.Syntax

/-!
`Expr::compare` and `hash()`. Hashes are taken when an object is made and kept with it, and
an update list keeps its own when it is extended, so two objects with the same contents need
not have the same hash.
-/

namespace S2E
open List S2E.Expr

mutual
/-- An expression in memory. The hash of an expression is determined by those of its parts
when it is made, and these never change. -/
inductive ExprObj where
  | constant (value : APInt)
  | read (updates : UpdateListObj) (index : ExprObj)
  | select (cond trueExpr falseExpr : ExprObj)
  | concat (left right : ExprObj)
  | extract (expr : ExprObj) (offset width : Nat)
  | not (expr : ExprObj)
  | zext (src : ExprObj) (width : Nat)
  | sext (src : ExprObj) (width : Nat)
  | binary (kind : BinaryKind) (left right : ExprObj)

inductive UpdateNodeObj where
  | null
  | node (next : UpdateNodeObj) (index value : ExprObj)

inductive UpdateListObj where
  | mk (root : ArrayObj) (head : UpdateNodeObj) (hashValue : BitVec 32)
end

/-- The names and addresses of arrays, and the newest node of an update list, given by one of the
lists that have it. -/
structure ArrayNames where
  name : ArrayObj → List (BitVec 8)
  address : ArrayObj → Nat
  address_inj : ∀ x y, address x = address y → x = y
  node : UpdateList → UpdateList
  node_nodes : ∀ x, (node x).nodes = x.nodes

def ArrayNames.numbered : ArrayNames where
  name arr := [BitVec.ofNat 8 arr.id]
  address arr := Encodable.encode (arr.id,arr.size,arr.constantValues.map BitVec.toNat)
  address_inj x y h := by
    have hxy := Encodable.encode_injective h
    simp only [Prod.mk.injEq] at hxy
    obtain ⟨hid,hsize,hvalues⟩ := hxy
    have hinj : Function.Injective (BitVec.toNat (w := 8)) := fun _ _ => BitVec.eq_of_toNat_eq
    cases x
    cases y
    simp only [ArrayObj.mk.injEq]
    exact ⟨hid,hsize,hinj.list_map hvalues⟩
  node := id
  node_nodes _ := rfl

structure Pointers where
  sameExpr : ExprObj → ExprObj → Bool
  sameNode : UpdateNodeObj → UpdateNodeObj → Bool
  sameExpr_eq : ∀ a b, sameExpr a b = true → a = b
  sameNode_eq : ∀ a b, sameNode a b = true → a = b

def Pointers.distinct : Pointers where
  sameExpr _ _ := false
  sameNode _ _ := false
  sameExpr_eq _ _ h := nomatch h
  sameNode_eq _ _ h := nomatch h

def BinaryKind.getKind : BinaryKind → Nat
  | .add => 8 | .sub => 9 | .mul => 10 | .udiv => 11 | .sdiv => 12 | .urem => 13 | .srem => 14
  | .and => 15 | .or => 16 | .xor => 17 | .shl => 18 | .lshr => 19 | .ashr => 20
  | .eq => 21 | .ne => 22 | .ult => 23 | .ule => 24 | .ugt => 25 | .uge => 26
  | .slt => 27 | .sle => 28 | .sgt => 29 | .sge => 30

def ExprObj.getKind : ExprObj → Nat
  | .constant _ => 0
  | .read .. => 1
  | .select .. => 2
  | .concat .. => 3
  | .extract .. => 4
  | .not _ => 5
  | .zext .. => 6
  | .sext .. => 7
  | .binary k _ _ => k.getKind

def magic : BitVec 32 := 39

def UpdateListObj.hash : UpdateListObj → BitVec 32
  | .mk _ _ hashValue => hashValue

mutual
def ExprObj.hash : ExprObj → BitVec 32
  | .constant c => BitVec.ofNat 32 c.value
  | .read u i => i.hash*magic ^^^ u.hash ^^^ 1
  | .select c t f => c.hash ^^^ t.hash ^^^ f.hash ^^^ 2
  | .concat l r => l.hash ^^^ r.hash ^^^ 3
  | .extract e off w =>
    BitVec.ofNat 32 off*magic ^^^ BitVec.ofNat 32 w*magic ^^^ 4 ^^^ e.hash*magic
  | .not e => e.hash*magic*5 ^^^ 5
  | .zext e w => BitVec.ofNat 32 w*magic ^^^ e.hash*magic ^^^ 6
  | .sext e w => BitVec.ofNat 32 w*magic ^^^ e.hash*magic ^^^ 7
  | .binary k l r => (l.hash ^^^ r.hash)*magic ^^^ BitVec.ofNat 32 k.getKind

def UpdateNodeObj.hash : UpdateNodeObj → BitVec 32
  | .null => 0
  | .node next i v => i.hash ^^^ v.hash ^^^ next.hash
end

def UpdateNodeObj.getSize : UpdateNodeObj → Nat
  | .null => 0
  | .node next _ _ => next.getSize+1

def computeHash (A : ArrayNames) (root : ArrayObj) (head : UpdateNodeObj) : BitVec 32 :=
  (A.name root).foldl (fun res c => res*magic+c.signExtend 32) 0 ^^^ head.hash

namespace UpdateListObj

def create (A : ArrayNames) (root : ArrayObj) (head : UpdateNodeObj) : UpdateListObj :=
  .mk root head (computeHash A root head)

def extend : UpdateListObj → ExprObj → ExprObj → UpdateListObj
  | .mk root head hashValue, index, value => .mk root (.node head index value) hashValue

end UpdateListObj

section Code
variable (A : ArrayNames) (P : Pointers)

mutual
/-- `Expr::compare`: the kind, the hash, `compareContents` and the kids, in this order.
`NotExpr` compares its operand as contents and as a kid. -/
def ExprObj.compare (a b : ExprObj) : Ordering :=
  if P.sameExpr a b then .eq
  else (Ord.compare a.getKind b.getKind).then <|
    (Ord.compare a.hash.toNat b.hash.toNat).then <|
    match a, b with
    | .constant c, .constant d => (Ord.compare c.width d.width).then (Ord.compare c.value d.value)
    | .read u i, .read u' i' => (u.compare u').then (i.compare i')
    | .select c t f, .select c' t' f' =>
      (c.compare c').then ((t.compare t').then (f.compare f'))
    | .concat l r, .concat l' r' => (l.compare l').then (r.compare r')
    | .extract e off w, .extract e' off' w' =>
      (Ord.compare off off').then ((Ord.compare w w').then (e.compare e'))
    | .not e, .not e' => (e.compare e').then (e.compare e')
    | .zext e w, .zext e' w' => (Ord.compare w w').then (e.compare e')
    | .sext e w, .sext e' w' => (Ord.compare w w').then (e.compare e')
    | .binary _ l r, .binary _ l' r' => (l.compare l').then (r.compare r')
    | _, _ => .eq
termination_by structural a

def UpdateListObj.compare (a b : UpdateListObj) : Ordering :=
  match a, b with
  | .mk root head _, .mk root' head' _ =>
    (Ord.compare ((A.name root).map BitVec.toNat) ((A.name root').map BitVec.toNat)).then <|
    (Ord.compare (A.address root) (A.address root')).then <|
    (Ord.compare head.getSize head'.getSize).then (head.compare head')
termination_by structural a

def UpdateNodeObj.compare (a b : UpdateNodeObj) : Ordering :=
  if P.sameNode a b then .eq
  else
    match a, b with
    | .node next i v, .node next' i' v' =>
      (i.compare i').then ((v.compare v').then (next.compare next'))
    | _, _ => .eq
termination_by structural a
end
end Code

mutual
def ExprObj.shape : ExprObj → Expr
  | .constant c => .constant c
  | .read u i => .read u.shape i.shape
  | .select c t f => .select c.shape t.shape f.shape
  | .concat l r => .concat l.shape r.shape
  | .extract e off w => .extract e.shape off w
  | .not e => .not e.shape
  | .zext e w => .zext e.shape w
  | .sext e w => .sext e.shape w
  | .binary k l r => .binary k l.shape r.shape

def UpdateNodeObj.shape (root : ArrayObj) : UpdateNodeObj → UpdateList
  | .null => .root root
  | .node next i v => .extend (next.shape root) i.shape v.shape

def UpdateListObj.shape : UpdateListObj → UpdateList
  | .mk root head _ => head.shape root
end

section Key
variable (A : ArrayNames)

mutual
def ExprObj.key : ExprObj → List (List Nat)
  | .constant c => [0] :: [(ExprObj.constant c).hash.toNat] :: [c.width] :: [c.value] :: []
  | .read u i => [1] :: [(ExprObj.read u i).hash.toNat] :: (u.key ++ i.key)
  | .select c t f =>
    [2] :: [(ExprObj.select c t f).hash.toNat] :: (c.key ++ (t.key ++ f.key))
  | .concat l r => [3] :: [(ExprObj.concat l r).hash.toNat] :: (l.key ++ r.key)
  | .extract e off w => [4] :: [(ExprObj.extract e off w).hash.toNat] :: [off] :: [w] :: e.key
  | .not e => [5] :: [(ExprObj.not e).hash.toNat] :: (e.key ++ e.key)
  | .zext e w => [6] :: [(ExprObj.zext e w).hash.toNat] :: [w] :: e.key
  | .sext e w => [7] :: [(ExprObj.sext e w).hash.toNat] :: [w] :: e.key
  | .binary k l r => [k.getKind] :: [(ExprObj.binary k l r).hash.toNat] :: (l.key ++ r.key)

def UpdateListObj.key : UpdateListObj → List (List Nat)
  | .mk root head _ =>
    (A.name root).map BitVec.toNat :: [A.address root] :: [head.getSize] :: head.key

def UpdateNodeObj.key : UpdateNodeObj → List (List Nat)
  | .null => []
  | .node next i v => i.key ++ (v.key ++ next.key)
end
end Key

section Order
variable {A : ArrayNames} {P : Pointers}

lemma compare_cons {α : Type} [Ord α] (x y : α) (xs ys : List α) :
    Ord.compare (x :: xs) (y :: ys) = (Ord.compare x y).then (Ord.compare xs ys) :=
  List.compareLex_cons_cons

lemma compare_append_self {α : Type} [Ord α] [Std.ReflOrd α] (ks xs ys : List α) :
    Ord.compare (ks ++ xs) (ks ++ ys) = Ord.compare xs ys := by
  induction ks with
  | nil => rfl
  | cons k ks ih =>
    rw [cons_append,cons_append,compare_cons,Std.ReflOrd.compare_self,ih]
    rfl

lemma compare_atom (m n : Nat) (xs ys : List (List Nat)) :
    Ord.compare ([m] :: xs) ([n] :: ys) = (Ord.compare m n).then (Ord.compare xs ys) := by
  rw [compare_cons,compare_cons]
  cases Ord.compare m n <;> rfl

lemma then_congr_of_ne {m n : Nat} (h : m ≠ n) (o o' : Ordering) :
    (Ord.compare m n).then o = (Ord.compare m n).then o' := by
  cases hc : Ord.compare m n with
  | eq => exact absurd (compare_eq_iff_eq.mp hc) h
  | lt => rfl
  | gt => rfl

lemma BinaryKind.getKind_inj {k k' : BinaryKind} (h : k.getKind = k'.getKind) : k = k' := by
  revert h
  cases k <;> cases k' <;> decide

lemma BinaryKind.ne_getKind (k : BinaryKind) {n : Nat} (h : n < 8) : n ≠ k.getKind := by
  have hge : 8 ≤ k.getKind := by cases k <;> decide
  omega

lemma ExprObj.key_eq (a : ExprObj) :
    a.key A = [a.getKind] :: [a.hash.toNat] :: (a.key A).drop 2 := by
  cases a <;> rfl

variable {a b : ExprObj}

lemma ExprObj.compare_of_contents {xs ys : List (List Nat)} (o : Ordering)
    (hcompare : a.compare A P b = if P.sameExpr a b then .eq
      else (Ord.compare a.getKind b.getKind).then ((Ord.compare a.hash.toNat b.hash.toNat).then o))
    (hcontents : a.getKind = b.getKind →
      Ord.compare ((a.key A).drop 2 ++ xs) ((b.key A).drop 2 ++ ys) = o.then (Ord.compare xs ys)) :
    Ord.compare (a.key A ++ xs) (b.key A ++ ys) = (a.compare A P b).then (Ord.compare xs ys) := by
  rw [hcompare]
  by_cases hsame : P.sameExpr a b
  · rw [if_pos hsame,P.sameExpr_eq a b hsame,compare_append_self]
    rfl
  rw [if_neg hsame,a.key_eq,b.key_eq]
  simp only [cons_append,compare_atom,Ordering.then_assoc]
  by_cases hkind : a.getKind = b.getKind
  · rw [hcontents hkind]
  · exact then_congr_of_ne hkind _ _

inductive ExprObj.Alike : ExprObj → ExprObj → Prop where
  | constant (c d) : Alike (.constant c) (.constant d)
  | read (u i u' i') : Alike (.read u i) (.read u' i')
  | select (c t f c' t' f') : Alike (.select c t f) (.select c' t' f')
  | concat (l r l' r') : Alike (.concat l r) (.concat l' r')
  | extract (e off w e' off' w') : Alike (.extract e off w) (.extract e' off' w')
  | not (e e') : Alike (.not e) (.not e')
  | zext (e w e' w') : Alike (.zext e w) (.zext e' w')
  | sext (e w e' w') : Alike (.sext e w) (.sext e' w')
  | binary (k l r l' r') : Alike (.binary k l r) (.binary k l' r')

lemma ExprObj.alike (h : a.getKind = b.getKind) : a.Alike b := by
  cases a with
  | binary k l r =>
    cases b with
    | binary k' l' r' =>
      obtain rfl := BinaryKind.getKind_inj h
      exact .binary ..
    | _ => exact absurd h (Ne.symm (k.ne_getKind (by simp [getKind])))
  | _ =>
    cases b with
    | binary k l r => exact absurd h (k.ne_getKind (by simp [getKind]))
    | _ => first | constructor | cases h

mutual
theorem ExprObj.compare_append (a b : ExprObj) (xs ys : List (List Nat)) :
    Ord.compare (a.key A ++ xs) (b.key A ++ ys) = (a.compare A P b).then (Ord.compare xs ys) := by
  refine ExprObj.compare_of_contents _ (by rw [ExprObj.compare.eq_def]) fun hkind => ?_
  match a, b, ExprObj.alike hkind with
  | _, _, .constant c d =>
    simp only [ExprObj.key,drop,cons_append,nil_append,compare_atom,Ordering.then_assoc]
  | _, _, .read u i u' i' =>
    simp only [ExprObj.key,drop,append_assoc,u.compare_append u',
      i.compare_append i',Ordering.then_assoc]
  | _, _, .select c t f c' t' f' =>
    simp only [ExprObj.key,drop,append_assoc,c.compare_append c',
      t.compare_append t',f.compare_append f',Ordering.then_assoc]
  | _, _, .concat l r l' r' | _, _, .binary _ l r l' r' =>
    simp only [ExprObj.key,drop,append_assoc,l.compare_append l',
      r.compare_append r',Ordering.then_assoc]
  | _, _, .not e e' =>
    simp only [ExprObj.key,drop,append_assoc,e.compare_append e',Ordering.then_assoc]
  | _, _, .extract e _ _ e' _ _ | _, _, .zext e _ e' _ | _, _, .sext e _ e' _ =>
    simp only [ExprObj.key,drop,cons_append,compare_atom,
      e.compare_append e',Ordering.then_assoc]
termination_by structural a

theorem UpdateListObj.compare_append : (a b : UpdateListObj) → (xs ys : List (List Nat)) →
    Ord.compare (a.key A ++ xs) (b.key A ++ ys) = (a.compare A P b).then (Ord.compare xs ys)
  | .mk root head _, .mk root' head' _, xs, ys => by
    simp only [UpdateListObj.compare,UpdateListObj.key,cons_append]
    rw [compare_cons]
    simp only [compare_atom,Ordering.then_assoc]
    by_cases hsize : head.getSize = head'.getSize
    · rw [head.compare_append head' hsize]
    · rw [then_congr_of_ne hsize]

theorem UpdateNodeObj.compare_append : (a b : UpdateNodeObj) → a.getSize = b.getSize →
    (xs ys : List (List Nat)) →
    Ord.compare (a.key A ++ xs) (b.key A ++ ys) = (a.compare A P b).then (Ord.compare xs ys)
  | .null, .null, _, xs, ys => by
    rw [UpdateNodeObj.compare.eq_def,ite_self]
    rfl
  | .null, .node .., h, _, _ => nomatch h
  | .node .., .null, h, _, _ => nomatch h
  | .node next i v, .node next' i' v', h, xs, ys => by
    rw [UpdateNodeObj.compare]
    by_cases hsame : P.sameNode (.node next i v) (.node next' i' v')
    · rw [if_pos hsame,P.sameNode_eq _ _ hsame,compare_append_self]
      rfl
    rw [if_neg hsame]
    simp only [UpdateNodeObj.key,append_assoc,i.compare_append i',
      v.compare_append v',next.compare_append next' (Nat.succ.inj h),
      Ordering.then_assoc]
end

lemma ExprObj.compare_eq_key (a b : ExprObj) :
    a.compare A P b = Ord.compare (a.key A) (b.key A) := by
  have h := ExprObj.compare_append (A := A) (P := P) a b [] []
  rw [append_nil,append_nil] at h
  rw [h]
  cases a.compare A P b <;> rfl

lemma ExprObj.compare_eq_iff : a.compare A P b = .eq ↔ a.key A = b.key A := by
  rw [compare_eq_key]
  exact Std.LawfulEqCmp.compare_eq_iff_eq

lemma ExprObj.compare_swap (a b : ExprObj) : b.compare A P a = (a.compare A P b).swap := by
  rw [compare_eq_key,compare_eq_key]
  exact Std.OrientedCmp.eq_swap

lemma ExprObj.compare_trans {c : ExprObj} (hab : (a.compare A P b).isLE)
    (hbc : (b.compare A P c).isLE) : (a.compare A P c).isLE := by
  rw [compare_eq_key] at hab hbc ⊢
  exact Std.TransCmp.isLE_trans hab hbc

lemma ExprObj.key_append_inj {xs ys : List (List Nat)}
    (h : a.key A ++ xs = b.key A ++ ys) : a.key A = b.key A ∧ xs = ys := by
  have hc := ExprObj.compare_append (A := A) (P := .distinct) a b xs ys
  rw [h,Std.ReflOrd.compare_self,eq_comm,Ordering.then_eq_eq] at hc
  exact ⟨compare_eq_iff.mp hc.1,Std.LawfulEqCmp.compare_eq_iff_eq.mp hc.2⟩

lemma ExprObj.eq_of_key (h : a.key A = b.key A) :
    a.getKind = b.getKind ∧ a.hash = b.hash ∧ (a.key A).drop 2 = (b.key A).drop 2 := by
  rw [a.key_eq,b.key_eq] at h
  simp only [cons.injEq,and_true] at h
  exact ⟨h.1,BitVec.eq_of_toNat_eq h.2.1,h.2.2⟩

lemma ExprObj.hash_eq_of_key (h : a.key A = b.key A) : a.hash = b.hash := (eq_of_key h).2.1

mutual
theorem ExprObj.shape_eq_of_key (a b : ExprObj) (h : a.key A = b.key A) : a.shape = b.shape := by
  obtain ⟨hkind,-,h⟩ := ExprObj.eq_of_key h
  match a, b, ExprObj.alike hkind with
  | _, _, .constant c d =>
    simp only [ExprObj.key,drop,cons.injEq,and_true] at h
    rw [ExprObj.shape,ExprObj.shape,← c.ofNat_value_self,← d.ofNat_value_self,h.1,h.2]
  | _, _, .read u i u' i' =>
    obtain ⟨hu,hi⟩ := u.shape_eq_of_key u' _ _ h
    rw [ExprObj.shape,ExprObj.shape,hu,i.shape_eq_of_key i' hi]
  | _, _, .select c t f c' t' f' =>
    obtain ⟨hc,h⟩ := ExprObj.key_append_inj h
    obtain ⟨ht,hf⟩ := ExprObj.key_append_inj h
    rw [ExprObj.shape,ExprObj.shape,c.shape_eq_of_key c' hc,
      t.shape_eq_of_key t' ht,f.shape_eq_of_key f' hf]
  | _, _, .concat l r l' r' | _, _, .binary _ l r l' r' =>
    obtain ⟨hl,hr⟩ := ExprObj.key_append_inj h
    rw [ExprObj.shape,ExprObj.shape,l.shape_eq_of_key l' hl,r.shape_eq_of_key r' hr]
  | _, _, .extract e _ _ e' _ _ =>
    simp only [ExprObj.key,drop,cons.injEq,and_true] at h
    rw [ExprObj.shape,ExprObj.shape,e.shape_eq_of_key e' h.2.2,h.1,h.2.1]
  | _, _, .not e e' =>
    rw [ExprObj.shape,ExprObj.shape,e.shape_eq_of_key e' (ExprObj.key_append_inj h).1]
  | _, _, .zext e _ e' _ | _, _, .sext e _ e' _ =>
    simp only [ExprObj.key,drop,cons.injEq,and_true] at h
    rw [ExprObj.shape,ExprObj.shape,e.shape_eq_of_key e' h.2,h.1]
termination_by structural a

theorem UpdateListObj.shape_eq_of_key : (a b : UpdateListObj) → (xs ys : List (List Nat)) →
    a.key A ++ xs = b.key A ++ ys → a.shape = b.shape ∧ xs = ys
  | .mk root head _, .mk root' head' _, xs, ys, h => by
    simp only [UpdateListObj.key,cons_append,cons.injEq,and_true] at h
    obtain ⟨-,haddress,hsize,h⟩ := h
    obtain ⟨hhead,hrest⟩ := head.shape_eq_of_key root head' hsize xs ys h
    rw [UpdateListObj.shape,UpdateListObj.shape,← A.address_inj root root' haddress]
    exact ⟨hhead,hrest⟩

theorem UpdateNodeObj.shape_eq_of_key (root : ArrayObj) : (a b : UpdateNodeObj) →
    a.getSize = b.getSize → (xs ys : List (List Nat)) → a.key A ++ xs = b.key A ++ ys →
    a.shape root = b.shape root ∧ xs = ys
  | .null, .null, _, _, _, h => ⟨rfl,h⟩
  | .null, .node .., hsize, _, _, _ => nomatch hsize
  | .node .., .null, hsize, _, _, _ => nomatch hsize
  | .node next i v, .node next' i' v', hsize, xs, ys, h => by
    simp only [UpdateNodeObj.key,append_assoc] at h
    obtain ⟨hi,h⟩ := ExprObj.key_append_inj h
    obtain ⟨hv,h⟩ := ExprObj.key_append_inj h
    obtain ⟨hnext,hrest⟩ :=
      next.shape_eq_of_key root next' (Nat.succ.inj hsize) xs ys h
    rw [UpdateNodeObj.shape,UpdateNodeObj.shape,i.shape_eq_of_key i' hi,
      v.shape_eq_of_key v' hv,hnext]
    exact ⟨rfl,hrest⟩
end
end Order

section Fresh
variable (A : ArrayNames)

mutual
def Expr.toObj : Expr → ExprObj
  | .constant c => .constant c
  | .read ul i => .read (.create A ul.getRoot ul.toNodes) i.toObj
  | .select c t f => .select c.toObj t.toObj f.toObj
  | .concat l r => .concat l.toObj r.toObj
  | .extract e off w => .extract e.toObj off w
  | .not e => .not e.toObj
  | .zext e w => .zext e.toObj w
  | .sext e w => .sext e.toObj w
  | .binary k l r => .binary k l.toObj r.toObj

def UpdateList.toNodes : UpdateList → UpdateNodeObj
  | .root _ => .null
  | .extend next i v => .node next.toNodes i.toObj v.toObj
end

mutual
def ExprObj.Fresh : ExprObj → Prop
  | .constant _ => True
  | .read u i => u.Fresh ∧ i.Fresh
  | .select c t f => c.Fresh ∧ t.Fresh ∧ f.Fresh
  | .concat l r => l.Fresh ∧ r.Fresh
  | .extract e _ _ => e.Fresh
  | .not e => e.Fresh
  | .zext e _ => e.Fresh
  | .sext e _ => e.Fresh
  | .binary _ l r => l.Fresh ∧ r.Fresh

def UpdateListObj.Fresh : UpdateListObj → Prop
  | .mk root head hashValue => head.Fresh ∧ hashValue = computeHash A root head

def UpdateNodeObj.Fresh : UpdateNodeObj → Prop
  | .null => True
  | .node next i v => next.Fresh ∧ i.Fresh ∧ v.Fresh
end
end Fresh

section Fresh
variable {A : ArrayNames} {P : Pointers}

lemma UpdateNodeObj.getRoot_shape (root : ArrayObj) :
    (n : UpdateNodeObj) → (n.shape root).getRoot = root
  | .null => rfl
  | .node next _ _ => next.getRoot_shape root

mutual
theorem Expr.shape_toObj : (e : Expr) → (e.toObj A).shape = e
  | .constant _ => rfl
  | .read ul i => by
    rw [toObj,UpdateListObj.create,ExprObj.shape,UpdateListObj.shape,
      ul.shape_toNodes,i.shape_toObj]
  | .select c t f => by
    rw [toObj,ExprObj.shape,c.shape_toObj,t.shape_toObj,f.shape_toObj]
  | .concat l r | .binary _ l r => by
    rw [toObj,ExprObj.shape,l.shape_toObj,r.shape_toObj]
  | .extract e _ _ | .not e | .zext e _ | .sext e _ => by
    rw [toObj,ExprObj.shape,e.shape_toObj]

theorem UpdateList.shape_toNodes : (ul : UpdateList) → (ul.toNodes A).shape ul.getRoot = ul
  | .root _ => rfl
  | .extend next i v => by
    rw [UpdateList.toNodes,UpdateNodeObj.shape,i.shape_toObj,v.shape_toObj,
      UpdateList.getRoot,next.shape_toNodes]
end

mutual
theorem Expr.fresh_toObj : (e : Expr) → (e.toObj A).Fresh A
  | .constant _ => trivial
  | .read ul i => ⟨⟨ul.fresh_toNodes,rfl⟩,i.fresh_toObj⟩
  | .select c t f => ⟨c.fresh_toObj,t.fresh_toObj,f.fresh_toObj⟩
  | .concat l r | .binary _ l r => ⟨l.fresh_toObj,r.fresh_toObj⟩
  | .extract e _ _ | .not e | .zext e _ | .sext e _ => e.fresh_toObj

theorem UpdateList.fresh_toNodes : (ul : UpdateList) → (ul.toNodes A).Fresh A
  | .root _ => trivial
  | .extend next i v => ⟨next.fresh_toNodes,i.fresh_toObj,v.fresh_toObj⟩
end

mutual
theorem ExprObj.Fresh.eq_toObj : (a : ExprObj) → a.Fresh A → a.shape.toObj A = a
  | .constant _, _ => rfl
  | .read (.mk root head hashValue) i, h => by
    rw [ExprObj.shape,UpdateListObj.shape,toObj,UpdateNodeObj.getRoot_shape,
      UpdateNodeObj.Fresh.eq_toNodes root head h.1.1,ExprObj.Fresh.eq_toObj i h.2,
      UpdateListObj.create,← h.1.2]
  | .select c t f, h => by
    rw [ExprObj.shape,toObj,ExprObj.Fresh.eq_toObj c h.1,ExprObj.Fresh.eq_toObj t h.2.1,
      ExprObj.Fresh.eq_toObj f h.2.2]
  | .concat l r, h | .binary _ l r, h => by
    rw [ExprObj.shape,toObj,ExprObj.Fresh.eq_toObj l h.1,ExprObj.Fresh.eq_toObj r h.2]
  | .extract e _ _, h | .not e, h | .zext e _, h | .sext e _, h => by
    rw [ExprObj.shape,toObj,ExprObj.Fresh.eq_toObj e h]

theorem UpdateNodeObj.Fresh.eq_toNodes (root : ArrayObj) : (n : UpdateNodeObj) → n.Fresh A →
    (n.shape root).toNodes A = n
  | .null, _ => rfl
  | .node next i v, h => by
    rw [UpdateNodeObj.shape,UpdateList.toNodes,UpdateNodeObj.Fresh.eq_toNodes root next h.1,
      ExprObj.Fresh.eq_toObj i h.2.1,ExprObj.Fresh.eq_toObj v h.2.2]
end

mutual
theorem ExprObj.fresh_of_key : (a : ExprObj) → a.key A = (a.shape.toObj A).key A → a.Fresh A
  | .constant _, _ => trivial
  | .read (.mk root head hashValue) i, h => by
    obtain ⟨-,hhash,h⟩ := ExprObj.eq_of_key h
    simp only [ExprObj.shape,UpdateListObj.shape,toObj,UpdateNodeObj.getRoot_shape,
      UpdateListObj.create] at hhash h
    simp only [ExprObj.key,UpdateListObj.key,drop,cons_append,cons.injEq,
      and_true,true_and] at h
    obtain ⟨hsize,h⟩ := h
    obtain ⟨hhead,hnodes,hi⟩ := head.fresh_of_key root _ _ h
    refine ⟨⟨hhead,?_⟩,i.fresh_of_key hi⟩
    simp only [ExprObj.hash,UpdateListObj.hash,ExprObj.hash_eq_of_key hi,
      BitVec.xor_right_inj,BitVec.xor_left_inj] at hhash
    rw [hhash,computeHash,computeHash,hnodes]
  | .select c t f, h => by
    obtain ⟨-,-,h⟩ := ExprObj.eq_of_key h
    obtain ⟨hc,h⟩ := ExprObj.key_append_inj h
    obtain ⟨ht,hf⟩ := ExprObj.key_append_inj h
    exact ⟨c.fresh_of_key hc,t.fresh_of_key ht,f.fresh_of_key hf⟩
  | .concat l r, h | .binary k l r, h => by
    obtain ⟨-,-,h⟩ := ExprObj.eq_of_key h
    obtain ⟨hl,hr⟩ := ExprObj.key_append_inj h
    exact ⟨l.fresh_of_key hl,r.fresh_of_key hr⟩
  | .not e, h => by
    obtain ⟨-,-,h⟩ := ExprObj.eq_of_key h
    exact e.fresh_of_key (ExprObj.key_append_inj h).1
  | .extract e _ _, h | .zext e _, h | .sext e _, h => by
    obtain ⟨-,-,h⟩ := ExprObj.eq_of_key h
    simp only [ExprObj.shape,toObj,ExprObj.key,drop,cons.injEq,true_and] at h
    exact e.fresh_of_key h

theorem UpdateNodeObj.fresh_of_key (root : ArrayObj) : (n : UpdateNodeObj) →
    (xs ys : List (List Nat)) → n.key A ++ xs = ((n.shape root).toNodes A).key A ++ ys →
    n.Fresh A ∧ n.hash = ((n.shape root).toNodes A).hash ∧ xs = ys
  | .null, _, _, h => ⟨trivial,rfl,h⟩
  | .node next i v, xs, ys, h => by
    simp only [UpdateNodeObj.shape,UpdateList.toNodes,UpdateNodeObj.key,append_assoc] at h ⊢
    obtain ⟨hi,h⟩ := ExprObj.key_append_inj h
    obtain ⟨hv,h⟩ := ExprObj.key_append_inj h
    obtain ⟨hnext,hhash,hrest⟩ := next.fresh_of_key root xs ys h
    refine ⟨⟨hnext,i.fresh_of_key hi,v.fresh_of_key hv⟩,?_,hrest⟩
    rw [UpdateNodeObj.hash,UpdateNodeObj.hash,ExprObj.hash_eq_of_key hi,
      ExprObj.hash_eq_of_key hv,hhash]
end

/-- `compare` is a total order, and what it takes for equal has the same contents. An
expression is known to it and to the hash tables by its contents exactly if it is fresh. -/
theorem ExprObj.compare_isKey (A : ArrayNames) (P : Pointers) :
    (∀ a b : ExprObj, b.compare A P a = (a.compare A P b).swap) ∧
    (∀ a b c : ExprObj, (a.compare A P b).isLE = true → (b.compare A P c).isLE = true →
      (a.compare A P c).isLE = true) ∧
    (∀ a b : ExprObj, a.compare A P b = .eq → a.shape = b.shape) ∧
    ∀ a : ExprObj, a.Fresh A ↔ ∀ b : ExprObj, b.Fresh A →
      (a.compare A P b = .eq ↔ a.shape = b.shape) ∧ (a.shape = b.shape → a.hash = b.hash) := by
  refine ⟨compare_swap,fun a b c => compare_trans,
    fun a b h => shape_eq_of_key a b (compare_eq_iff.mp h),fun a => ⟨fun ha b hb => ?_,fun h => ?_⟩⟩
  · have heq : a.shape = b.shape → a = b := by
      intro hshape
      rw [← Fresh.eq_toObj a ha,hshape,Fresh.eq_toObj b hb]
    refine ⟨⟨fun h => shape_eq_of_key a b (compare_eq_iff.mp h),fun h => ?_⟩,fun h => ?_⟩
    · rw [compare_eq_iff,heq h]
    · rw [heq h]
  · have hanew := h _ a.shape.fresh_toObj
    exact fresh_of_key a (compare_eq_iff.mp (hanew.1.mpr a.shape.shape_toObj.symm))

def Expr.less (A : ArrayNames) (P : Pointers) (e d : Expr) : Bool :=
  (e.toObj A).compare A P (d.toObj A) == .lt

lemma Expr.eq_of_not_less {e d : Expr} (hed : e.less A P d = false)
    (hde : d.less A P e = false) : e = d := by
  have hkey : (e.toObj A).compare A P (d.toObj A) = .eq := by
    rw [less,ExprObj.compare_swap] at hde
    rw [less] at hed
    cases hc : (e.toObj A).compare A P (d.toObj A) with
    | eq => rfl
    | lt => simp [hc] at hed
    | gt => simp [hc] at hde
  have hshape := ExprObj.shape_eq_of_key _ _ (ExprObj.compare_eq_iff.mp hkey)
  rwa [e.shape_toObj,d.shape_toObj] at hshape

/-- A read of an array of two bytes at a symbolic position, after the update of its first
byte. The update is made in place, or a new list is created from the node. -/
def readExtended (inPlace : Bool) : ExprObj :=
  let x := ArrayObj.symbolic 0 2 two_fits
  let y := ArrayObj.symbolic 1 1 one_fits
  let zero := ExprObj.constant (.ofNat 32 0)
  let seven := ExprObj.constant (.ofNat 8 7)
  let index := ExprObj.zext (.read (.create .numbered y .null) zero) 32
  let updates := UpdateListObj.create .numbered x .null
  let copy := UpdateListObj.create .numbered x (.node .null zero seven)
  .read (if inPlace then updates.extend zero seven else copy) index

/-- The two have the same contents, but not the same hash, and do not compare equal. -/
theorem readExtended_not_key : (readExtended true).shape = (readExtended false).shape ∧
    (readExtended true).hash ≠ (readExtended false).hash ∧
    (readExtended true).compare .numbered .distinct (readExtended false) ≠ .eq := by
  decide +kernel

end Fresh
end S2E
