import S2E.Core.Assignment
import S2E.Expr.Compare
import S2E.Expr.Subterms
import S2E.Lib.Smt
import S2E.Lib.Stateful

/-!
The translation of expressions to terms of the solver: `Z3Builder` with its three encodings
of arrays and its caches. A construction that hits undefined behaviour or an abort returns
nothing.
-/

namespace S2E
open Smt Stateful List UpdateList Returns S2E.Expr

abbrev Z3Name := List (BitVec 8)

abbrev Z3Expr := Smt.Term Z3Name

inductive ArrayConsMode where
  | ite | stores | asserts
  deriving DecidableEq, Repr

def digitChar (d : Nat) : BitVec 8 := BitVec.ofNat 8 (if d < 10 then 48+d else 87+d)

def printNat (base n : Nat) : Z3Name :=
  if n = 0 then [digitChar 0] else ((base.digits n).map digitChar).reverse

def underscore : BitVec 8 := 95#8

def snprintf256 (text : Z3Name) : Z3Name := text.take 255

variable (A : ArrayNames) (root : ArrayObj)

def ArrayNames.arrayText : Z3Name :=
  (A.name root).takeWhile (· ≠ 0#8) ++ underscore :: 48#8 :: 120#8 :: printNat 16 (A.address root)

def ArrayNames.elementText (i : Nat) : Z3Name :=
  A.arrayText root ++ underscore :: printNat 10 i

def ArrayNames.arrayName : Z3Name :=
  snprintf256 (A.arrayText root)

def ArrayNames.elementName (i : Nat) : Z3Name :=
  snprintf256 (A.elementText root i)

def makeConstant (c : APInt) : Z3Expr :=
  if c.width = 1 then .boolVal c.isTrue else .bvVal c.value c.width

def makeExtract (offset width : Nat) (src : Z3Expr) : Z3Expr :=
  if width = 1 then .eq (.extract offset offset src) (.bvVal 1 1)
  else .extract (offset+width-1) offset src

def makeZExt (width : Nat) (src : Z3Expr) : Z3Expr :=
  if src.isBool then .ite src (.bvVal 1 width) (.bvVal 0 width)
  else .zeroExt (width-src.bvSize) src

def makeSExt (width : Nat) (src : Z3Expr) : Z3Expr :=
  if src.isBool then .ite src (.bvVal (2^width-1) width) (.bvVal 0 width)
  else .signExt (width-src.bvSize) src

def makeNot (expr : Z3Expr) : Z3Expr := if expr.isBool then .not expr else .bvNot expr

def makeBitwise (boolOp : BoolOp) (bvOp : BvOp) (left right : Z3Expr) : Z3Expr :=
  if left.isBool then .boolBin boolOp left right else .bvBin bvOp left right

def makeBinary (k : BinaryKind) (left right : Z3Expr) : Option Z3Expr :=
  match k with
  | .add => some (.bvBin .add left right)
  | .sub => some (.bvBin .sub left right)
  | .mul => some (.bvBin .mul left right)
  | .udiv => some (.bvBin .udiv left right)
  | .sdiv => some (.bvBin .sdiv left right)
  | .urem => some (.bvBin .urem left right)
  | .srem => some (.bvBin .srem left right)
  | .and => some (makeBitwise .and .and left right)
  | .or => some (makeBitwise .or .or left right)
  | .xor => some (makeBitwise .xor .xor left right)
  | .shl => some (.bvBin .shl left right)
  | .lshr => some (.bvBin .lshr left right)
  | .ashr => some (.bvBin .ashr left right)
  | .eq => some (.eq left right)
  | .ult => some (.bvRel .ult left right)
  | .ule => some (.bvRel .ule left right)
  | .slt => some (.bvRel .slt left right)
  | .sle => some (.bvRel .sle left right)
  | .ne | .ugt | .uge | .sgt | .sge => none

def constantByte (i : Nat) : Z3Expr :=
  .bvVal (root.constantValues.getD i 0#8).toNat 8

def arrayValue (i : Nat) : Z3Expr :=
  if root.isConstantArray then constantByte root i else .byteConst (A.elementName root i)

/-- `Z3IteBuilder::getReadForInitialArray`: the tree after the first `n` elements. -/
def iteTree (A : ArrayNames) (root : ArrayObj) (index : Z3Expr) : Nat → Z3Expr
  | 0 => .bvVal 0 8
  | i+1 => .ite (.eq index (.bvVal i 32)) (arrayValue A root i) (iteTree A root index i)

def getReadForInitialArray (index : Z3Expr) (root : ArrayObj) : Z3Expr :=
  iteTree A root index root.size

/-- `Z3StoreArrayBuilder::initializeArray`, after the first `n` elements. -/
def storeValues (root : ArrayObj) (array : Z3Expr) : Nat → Z3Expr
  | 0 => array
  | i+1 => .store (storeValues root array i) (.bvVal i 32) (constantByte root i)

/-- `Z3AssertArrayBuilder::getArrayAssertion`, after the first `n` elements. -/
def assertValues (root : ArrayObj) (array : Z3Expr) : Nat → Z3Expr
  | 0 => .boolVal true
  | i+1 => .boolBin .and (assertValues root array i)
      (.eq (.select array (.bvVal i 32)) (constantByte root i))

def arrayConstant : Z3Expr := .arrayConst (A.arrayName root)

def getArrayAssertion : Z3Expr :=
  assertValues root (arrayConstant A root) root.size

/-- One frame of a builder's caches. Of the read cache of `Z3IteBuilder` only the index
terms of the keys are kept, see `cachedRead`. -/
structure Z3BuilderCache where
  exprs : List (Expr × Z3Expr)
  arrays : List (ArrayObj × Z3Expr)
  updates : List (UpdateList × Z3Expr)
  reads : List Z3Expr

def Z3BuilderCache.empty : Z3BuilderCache := ⟨[],[],[],[]⟩

structure Z3BuilderState where
  cache : Z3BuilderCache
  solver : Assertions Z3Name

abbrev BuilderM := StateT Z3BuilderState Option

def cached {K : Type} [DecidableEq K] (find : Z3BuilderCache → List (K × Z3Expr))
    (insert : K × Z3Expr → Z3BuilderCache → Z3BuilderCache) (key : K) (make : BuilderM Z3Expr) :
    BuilderM Z3Expr := do
  match (find (← get).cache).lookup key with
  | some t => pure t
  | none =>
    let t ← make
    modify fun s => {s with cache := insert (key,t) s.cache}
    pure t

def cachedExpr (e : Expr) (make : BuilderM Z3Expr) : BuilderM Z3Expr :=
  cached Z3BuilderCache.exprs (fun p c => {c with exprs := p :: c.exprs}) e make

def cachedArray (make : BuilderM Z3Expr) : BuilderM Z3Expr :=
  cached Z3BuilderCache.arrays (fun p c => {c with arrays := p :: c.arrays}) root make

/-- The key is the newest node of the list alone, without the root. -/
def cachedUpdate (ul : UpdateList) (make : BuilderM Z3Expr) : BuilderM Z3Expr :=
  cached Z3BuilderCache.updates (fun p c => {c with updates := p :: c.updates}) (A.node ul) make

/-- Comparing a key of the read cache with one of another index. The root in a key is a
reference to a pointer that is gone after the statement that makes the key, so when the
indices are the same the comparison goes on to read a dead object. -/
def compareReads (index : Z3Expr) : BuilderM Unit := do
  if index ∈ (← get).cache.reads then failure else pure ()

def cachedRead (index : Z3Expr) (make : BuilderM Z3Expr) : BuilderM Z3Expr := do
  compareReads index
  let t ← make
  compareReads index
  modify fun s => {s with cache := {s.cache with reads := index :: s.cache.reads}}
  pure t

def initializeArray (mode : ArrayConsMode) (root : ArrayObj) : BuilderM Z3Expr := do
  match mode with
  | .asserts =>
    modify fun s => {s with solver := s.solver.add (getArrayAssertion A root)}
    pure (arrayConstant A root)
  | _ => pure (storeValues root (arrayConstant A root) root.size)

def getInitialArray (mode : ArrayConsMode) (root : ArrayObj) : BuilderM Z3Expr :=
  cachedArray root
    (if root.isConstantArray then initializeArray A mode root else pure (arrayConstant A root))

mutual
def construct (A : ArrayNames) (mode : ArrayConsMode) : Expr → BuilderM Z3Expr
  | .constant c => pure (makeConstant c)
  | .read ul i => cachedExpr (.read ul i) do
    match mode with
    | .ite =>
      let index ← construct A mode i
      getReadForArray A mode index ul
    | _ =>
      let array ← getArrayForUpdate A mode ul
      let index ← construct A mode i
      pure (.select array index)
  | .select c t f => cachedExpr (.select c t f) do
    let c ← construct A mode c
    let t ← construct A mode t
    let f ← construct A mode f
    pure (.ite c t f)
  | .concat l r => cachedExpr (.concat l r) do
    let r ← construct A mode r
    let l ← construct A mode l
    pure (.concat l r)
  | .extract e off w => cachedExpr (.extract e off w) do
    let src ← construct A mode e
    pure (makeExtract off w src)
  | .not e => cachedExpr (.not e) do
    let e ← construct A mode e
    pure (makeNot e)
  | .zext e w => cachedExpr (.zext e w) do
    let src ← construct A mode e
    pure (makeZExt w src)
  | .sext e w => cachedExpr (.sext e w) do
    let src ← construct A mode e
    pure (makeSExt w src)
  | .binary k l r => cachedExpr (.binary k l r) do
    let l ← construct A mode l
    let r ← construct A mode r
    StateT.lift (makeBinary k l r)

def getReadForArray (A : ArrayNames) (mode : ArrayConsMode) (index : Z3Expr) :
    UpdateList → BuilderM Z3Expr
  | .root arr => cachedRead index (pure (getReadForInitialArray A index arr))
  | .extend next i v => cachedRead index do
    let i ← construct A mode i
    let v ← construct A mode v
    let rest ← getReadForArray A mode index next
    pure (.ite (.eq index i) v rest)

def getArrayForUpdate (A : ArrayNames) (mode : ArrayConsMode) : UpdateList → BuilderM Z3Expr
  | .root arr => getInitialArray A mode arr
  | .extend next i v => cachedUpdate A (.extend next i v) do
    let array ← getArrayForUpdate A mode next
    let i ← construct A mode i
    let v ← construct A mode v
    pure (.store array i v)
end

def storeTerm (base : Z3Expr) (updates : List (Z3Expr × Z3Expr)) : Z3Expr :=
  updates.foldr (fun u array => .store array u.1 u.2) base

def iteTerm (index base : Z3Expr) (updates : List (Z3Expr × Z3Expr)) : Z3Expr :=
  updates.foldr (fun u rest => .ite (.eq index u.1) u.2 rest) base

def initialArray (A : ArrayNames) (mode : ArrayConsMode) (root : ArrayObj) : Z3Expr :=
  if root.isConstantArray ∧ mode ≠ .asserts then
    storeValues root (arrayConstant A root) root.size
  else arrayConstant A root

def readTerm (A : ArrayNames) (mode : ArrayConsMode) (root : ArrayObj)
    (updates : List (Z3Expr × Z3Expr)) (index : Z3Expr) : Z3Expr :=
  match mode with
  | .ite => iteTerm index (getReadForInitialArray A index root) updates
  | _ => .select (storeTerm (initialArray A mode root) updates) index

mutual
def Expr.toZ3 (A : ArrayNames) (mode : ArrayConsMode) : Expr → Option Z3Expr
  | .constant c => some (makeConstant c)
  | .read ul i => do
    let updates ← ul.toZ3 A mode
    let index ← i.toZ3 A mode
    return readTerm A mode ul.getRoot updates index
  | .select c t f => do return .ite (← c.toZ3 A mode) (← t.toZ3 A mode) (← f.toZ3 A mode)
  | .concat l r => do
    let r ← r.toZ3 A mode
    let l ← l.toZ3 A mode
    return .concat l r
  | .extract e off w => do return makeExtract off w (← e.toZ3 A mode)
  | .not e => do return makeNot (← e.toZ3 A mode)
  | .zext e w => do return makeZExt w (← e.toZ3 A mode)
  | .sext e w => do return makeSExt w (← e.toZ3 A mode)
  | .binary k l r => do makeBinary k (← l.toZ3 A mode) (← r.toZ3 A mode)

def UpdateList.toZ3 (A : ArrayNames) (mode : ArrayConsMode) :
    UpdateList → Option (List (Z3Expr × Z3Expr))
  | .root _ => some []
  | .extend next i v => do
    let rest ← next.toZ3 A mode
    return (← i.toZ3 A mode,← v.toZ3 A mode) :: rest
end

variable {make : BuilderM Z3Expr} {s : Z3BuilderState}

lemma cached_returns {K : Type} [DecidableEq K] {find : Z3BuilderCache → List (K × Z3Expr)}
    {insert : K × Z3Expr → Z3BuilderCache → Z3BuilderCache} {key : K}
    {P : Z3Expr → Z3BuilderState → Prop} (hit : ∀ t, (key,t) ∈ find s.cache → P t s)
    (miss : (∀ t, (key,t) ∉ find s.cache) →
      Returns make s fun t s' => P t {s' with cache := insert (key,t) s'.cache}) :
    Returns (cached find insert key make) s P := by
  cases hl : (find s.cache).lookup key with
  | some t =>
    refine ⟨t,s,?_,hit t ?_⟩
    · show (match (find s.cache).lookup key with | some t => _ | none => _ : BuilderM Z3Expr) s = _
      rw [hl]
      rfl
    · obtain ⟨l₁,l₂,hfind,-⟩ := lookup_eq_some_iff.mp hl
      rw [hfind]
      simp
  | none =>
    obtain ⟨t,s',hm,hp⟩ := miss fun t ht => by
      have := lookup_eq_none_iff.mp hl (key,t) ht
      simp at this
    refine ⟨t,_,?_,hp⟩
    show (match (find s.cache).lookup key with | some t => _ | none => _ : BuilderM Z3Expr) s = _
    rw [hl]
    show (make s).bind _ = _
    rw [hm]
    rfl

lemma compareReads_returns {index : Z3Expr}
    (h : index ∉ s.cache.reads) : Returns (compareReads index) s fun _ s' => s = s' := by
  refine ⟨(),s,?_,rfl⟩
  show (if index ∈ s.cache.reads then _ else _ : BuilderM Unit) s = _
  rw [if_neg h]
  rfl

variable (A : ArrayNames)

/-- No read goes through an update and no two reads have the same index term, so that the
read cache never compares two keys of one index. -/
structure Apart (S : Expr → Prop) : Prop where
  noUpdates : ∀ {ul i}, S (.read ul i) → ∃ arr, ul = .root arr
  index_inj : ∀ {ul i ul' i' t}, S (.read ul i) → S (.read ul' i') →
    i.toZ3 A .ite = some t → i'.toZ3 A .ite = some t → read ul i = .read ul' i'

/-- The list of a read, or the rest of such a list. -/
inductive Listed (S : Expr → Prop) : UpdateList → Prop
  | read {ul : UpdateList} {i : Expr} : S (.read ul i) → Listed S ul
  | next {next : UpdateList} {i v : Expr} : Listed S (.extend next i v) → Listed S next

/-- What the caches of the encoding can tell apart: with `ite` as above, and with the others no
update node is shared by lists of different roots. -/
structure Separate (mode : ArrayConsMode) (S : Expr → Prop) : Prop where
  ite : mode = .ite → Apart A S
  root : mode ≠ .ite → ∀ {x y}, Listed S x → Listed S y → x.nodes ≠ [] → A.node x = A.node y →
    x.getRoot = y.getRoot

lemma UpdateList.eq_of_nodes : {x y : UpdateList} → x.nodes = y.nodes → x.getRoot = y.getRoot →
    x = y
  | .root _, .root _, _, h => by rw [getRoot,getRoot] at h; rw [h]
  | .extend x i v, .extend y j w, hn, h => by
    obtain ⟨hnode,hrest⟩ := List.cons.inj hn
    cases hnode
    rw [eq_of_nodes hrest h]

def Z3BuilderState.Knows (mode : ArrayConsMode) (s : Z3BuilderState) (root : ArrayObj) : Prop :=
  mode = .asserts → root.isConstantArray = true → getArrayAssertion A root ∈ s.solver.formulas

def Z3BuilderState.Holds (s : Z3BuilderState) (e : Expr) : Prop :=
  ∃ t, (e,t) ∈ s.cache.exprs

structure Coherent (mode : ArrayConsMode) (S : Expr → Prop) (s : Z3BuilderState) : Prop where
  exprs : ∀ p ∈ s.cache.exprs, p.1.toZ3 A mode = some p.2 ∧
    ∀ arr, p.1.mentions arr = true → s.Knows A mode arr
  arrays : ∀ p ∈ s.cache.arrays, p.2 = initialArray A mode p.1 ∧ s.Knows A mode p.1
  updates : ∀ p ∈ s.cache.updates, ∃ ul us, Listed S ul ∧ A.node ul = p.1 ∧
    ul.toZ3 A mode = some us ∧ p.2 = storeTerm (initialArray A mode ul.getRoot) us ∧
    ∀ arr, ul.mentions arr = true → s.Knows A mode arr
  reads : ∀ t ∈ s.cache.reads, ∃ ul i, S (.read ul i) ∧ s.Holds (.read ul i) ∧
    i.toZ3 A .ite = some t

/-- What a construction may have done: it has cached expressions among `K`, and added the
contents of constant arrays among `M`. -/
structure Steps (mode : ArrayConsMode) (M : ArrayObj → Prop) (K : Expr → Prop)
    (s s' : Z3BuilderState) : Prop where
  holds : ∀ e, s'.Holds e → s.Holds e ∨ K e
  outer : s'.solver.outer = s.solver.outer
  inner : ∃ new, s'.solver.inner = new ++ s.solver.inner ∧
    ∀ f ∈ new, ∃ arr, mode = .asserts ∧ M arr ∧ arr.isConstantArray = true ∧
      f = getArrayAssertion A arr

namespace Steps
variable {A : ArrayNames} {mode : ArrayConsMode} {M M' : ArrayObj → Prop} {K K' : Expr → Prop}
  {s s' s'' : Z3BuilderState}

lemma refl : Steps A mode M K s s where
  holds _ h := .inl h
  outer := rfl
  inner := ⟨[],rfl,nofun⟩

section
variable (h : Steps A mode M K s s')
include h

lemma trans (h' : Steps A mode M K s' s'') : Steps A mode M K s s'' where
  holds e he := (h'.holds e he).elim (h.holds e) .inr
  outer := h'.outer.trans h.outer
  inner := by
    obtain ⟨new,hnew,hmem⟩ := h.inner
    obtain ⟨new',hnew',hmem'⟩ := h'.inner
    refine ⟨new' ++ new,by rw [hnew',hnew,append_assoc],fun f hf => ?_⟩
    rcases mem_append.mp hf with hf | hf
    · exact hmem' f hf
    · exact hmem f hf

lemma mono (hM : ∀ arr, M arr → M' arr) (hK : ∀ e, K e → K' e) : Steps A mode M' K' s s' where
  holds e he := (h.holds e he).imp_right (hK e)
  outer := h.outer
  inner := by
    obtain ⟨new,hnew,hmem⟩ := h.inner
    refine ⟨new,hnew,fun f hf => ?_⟩
    obtain ⟨arr,hmode,ha,hc,rfl⟩ := hmem f hf
    exact ⟨arr,hmode,hM arr ha,hc,rfl⟩

lemma mem_formulas {f : Z3Expr} (hf : f ∈ s.solver.formulas) : f ∈ s'.solver.formulas := by
  obtain ⟨new,hnew,-⟩ := h.inner
  simp only [Assertions.formulas,h.outer,hnew,append_assoc,mem_append] at hf ⊢
  exact .inr hf

lemma knows {root : ArrayObj} (hk : s.Knows A mode root) :
    s'.Knows A mode root := fun hm hc => h.mem_formulas (hk hm hc)

end
end Steps

section
variable (A : ArrayNames) (mode : ArrayConsMode) (S : Expr → Prop)

/-- From any coherent state the computation returns the term and stays coherent. It knows
the arrays of `M` at the end and has touched nothing but them and the expressions of `K`. -/
def Constructs (M : ArrayObj → Prop) (K : Expr → Prop) (m : BuilderM Z3Expr) (t : Z3Expr) : Prop :=
  ∀ s, Coherent A mode S s → Returns m s fun r s' => r = t ∧ Coherent A mode S s' ∧
    Steps A mode M K s s' ∧ ∀ arr, M arr → s'.Knows A mode arr

end

variable {f : Z3Expr → BuilderM Z3Expr} {rs : List Z3Expr} {e i x : Expr} {ul : UpdateList}

section
variable {A : ArrayNames} {mode : ArrayConsMode} {S : Expr → Prop}

namespace Constructs
variable {M M' : ArrayObj → Prop} {K K' : Expr → Prop} {m : BuilderM Z3Expr} {t t' : Z3Expr}

lemma pure : Constructs A mode S (fun _ => False) (fun _ => False) (Pure.pure t) t :=
  fun _ hs => Returns.pure ⟨rfl,hs,.refl,fun _ h => h.elim⟩

lemma bind (h : Constructs A mode S M K m t) (hf : Constructs A mode S M' K' (f t) t') :
    Constructs A mode S (fun arr => M arr ∨ M' arr) (fun e => K e ∨ K' e) (m >>= f) t' := by
  intro s hs
  refine Returns.bind (h s hs) ?_
  rintro r s₁ ⟨rfl,hs₁,hsteps,hknows⟩
  refine mono (hf s₁ hs₁) ?_
  rintro r' s₂ ⟨rfl,hs₂,hsteps',hknows'⟩
  have hsteps₂ : Steps A mode (fun arr => M arr ∨ M' arr) (fun e => K e ∨ K' e) s₁ s₂ :=
    hsteps'.mono (fun _ => .inr) (fun _ => .inr)
  refine ⟨rfl,hs₂,(hsteps.mono (fun _ => .inl) (fun _ => .inl)).trans hsteps₂,?_⟩
  rintro arr (ha | ha)
  · exact hsteps₂.knows (hknows arr ha)
  · exact hknows' arr ha

lemma weaken (h : Constructs A mode S M K m t) (hM : ∀ arr, M arr ↔ M' arr)
    (hK : ∀ e, K e → K' e) : Constructs A mode S M' K' m t := by
  intro s hs
  refine mono (h s hs) ?_
  rintro r s' ⟨hr,hs',hsteps,hknows⟩
  exact ⟨hr,hs',hsteps.mono (fun arr => (hM arr).mp) hK,
    fun arr ha => hknows arr ((hM arr).mpr ha)⟩

end Constructs

lemma Z3BuilderState.Holds.cons {t : Z3Expr} (h : s.Holds x) : Z3BuilderState.Holds
      {s with cache := {s.cache with exprs := (e,t) :: s.cache.exprs, reads := rs}} x :=
  h.imp fun _ ht => mem_cons_of_mem _ ht

lemma Z3BuilderState.Holds.of_cons {t : Z3Expr} (h : Z3BuilderState.Holds
      {s with cache := {s.cache with exprs := (e,t) :: s.cache.exprs, reads := rs}} x) :
    x = e ∨ s.Holds x := by
  obtain ⟨u,hu⟩ := h
  rcases mem_cons.mp hu with hu | hu
  · exact .inl (Prod.ext_iff.mp hu).1
  · exact .inr ⟨u,hu⟩

lemma Coherent.insertExpr (h : Coherent A mode S s) {t : Z3Expr} (ht : e.toZ3 A mode = some t)
    (hk : ∀ arr, e.mentions arr → s.Knows A mode arr) (hrs : ∀ i ∈ rs, i ∈ s.cache.reads ∨
      ∃ ul j, e = .read ul j ∧ S (.read ul j) ∧ j.toZ3 A .ite = some i) : Coherent A mode S
      {s with cache := {s.cache with exprs := (e,t) :: s.cache.exprs, reads := rs}} where
  exprs := forall_mem_cons.mpr ⟨⟨ht,hk⟩,h.exprs⟩
  arrays p hp := h.arrays p hp
  updates p hp := h.updates p hp
  reads i hi := by
    rcases hrs i hi with hi | ⟨ul,j,rfl,hS,hj⟩
    · obtain ⟨ul,j,hS,hheld,hj⟩ := h.reads i hi
      exact ⟨ul,j,hS,hheld.cons,hj⟩
    · exact ⟨ul,j,hS,⟨t,mem_cons_self⟩,hj⟩

lemma Steps.insertExpr {M : ArrayObj → Prop} {K : Expr → Prop} {s s' : Z3BuilderState}
    (h : Steps A mode M K s s') (e : Expr) (t : Z3Expr) (rs : List Z3Expr) :
    Steps A mode M (fun x => x = e ∨ K x) s
      {s' with cache := {s'.cache with exprs := (e,t) :: s'.cache.exprs, reads := rs}} where
  holds x hx := by
    rcases hx.of_cons with rfl | hx
    · exact .inr (.inl rfl)
    · exact (h.holds x hx).imp_right .inr
  outer := h.outer
  inner := h.inner

lemma Constructs.cachedExpr {t : Z3Expr} {M : ArrayObj → Prop} {K : Expr → Prop}
    (ht : e.toZ3 A mode = some t)
    (hM : ∀ arr, M arr ↔ e.mentions arr) (h : Constructs A mode S M K make t) :
    Constructs A mode S M (fun x => x = e ∨ K x) (cachedExpr e make) t := by
  intro s hs
  apply cached_returns
  · intro t' hmem
    obtain ⟨ht',hk⟩ := hs.exprs _ hmem
    exact ⟨Option.some.inj (ht'.symm.trans ht),hs,.refl,fun arr ha => hk arr ((hM arr).mp ha)⟩
  · intro _
    refine mono (h s hs) ?_
    rintro r s' ⟨rfl,hs',hsteps,hknows⟩
    exact ⟨rfl,hs'.insertExpr ht (fun arr ha => hknows arr ((hM arr).mpr ha)) fun i hi => .inl hi,
      hsteps.insertExpr e r _,hknows⟩

lemma Constructs.cachedUpdate {us : List (Z3Expr × Z3Expr)}
    {M : ArrayObj → Prop} {K : Expr → Prop} (hlist : Listed S ul)
    (hroot : ∀ x, Listed S x → A.node x = A.node ul → x = ul)
    (hus : ul.toZ3 A mode = some us) (hM : ∀ arr, M arr ↔ ul.mentions arr)
    (h : Constructs A mode S M K make (storeTerm (initialArray A mode ul.getRoot) us)) :
    Constructs A mode S M K (cachedUpdate A ul make)
      (storeTerm (initialArray A mode ul.getRoot) us) := by
  intro s hs
  apply cached_returns
  · intro t hmem
    obtain ⟨x,us',hx,hnode,hus',ht,hk⟩ := hs.updates _ hmem
    cases hroot x hx hnode
    obtain rfl : us' = us := Option.some.inj (hus'.symm.trans hus)
    exact ⟨ht,hs,.refl,fun arr ha => hk arr ((hM arr).mp ha)⟩
  · intro _
    refine mono (h s hs) ?_
    rintro r s' ⟨rfl,hs',hsteps,hknows⟩
    have hnew : ∀ arr, ul.mentions arr → s'.Knows A mode arr :=
      fun arr ha => hknows arr ((hM arr).mpr ha)
    exact ⟨rfl,⟨hs'.exprs,hs'.arrays,
      forall_mem_cons.mpr ⟨⟨ul,us,hlist,rfl,hus,rfl,hnew⟩,hs'.updates⟩,hs'.reads⟩,
      ⟨hsteps.holds,hsteps.outer,hsteps.inner⟩,hknows⟩

lemma Coherent.insertArray (h : Coherent A mode S s) {root : ArrayObj}
    (hk : s.Knows A mode root) : Coherent A mode S { s with cache :=
      {s.cache with arrays := (root,initialArray A mode root) :: s.cache.arrays}} where
  exprs := h.exprs
  arrays := forall_mem_cons.mpr ⟨⟨rfl,hk⟩,h.arrays⟩
  updates := h.updates
  reads := h.reads

lemma Coherent.of_knows (h : Coherent A mode S s) {solver : Assertions Z3Name}
    (hk : ∀ arr, s.Knows A mode arr → Z3BuilderState.Knows A mode {s with solver} arr) :
    Coherent A mode S {s with solver} := by
  refine ⟨fun p hp => ?_,fun p hp => ?_,fun p hp => ?_,h.reads⟩
  · exact (h.exprs p hp).imp_right fun hs arr ha => hk arr (hs arr ha)
  · exact (h.arrays p hp).imp_right (hk _)
  · obtain ⟨ul,us,hlist,hnode,hus,ht,hs⟩ := h.updates p hp
    exact ⟨ul,us,hlist,hnode,hus,ht,fun arr ha => hk arr (hs arr ha)⟩

lemma Coherent.add (h : Coherent A mode S s) (f : Z3Expr) :
    Coherent A mode S {s with solver := s.solver.add f} :=
  h.of_knows fun _ hs hm hc => mem_cons_of_mem _ (hs hm hc)

lemma makeArray_returns (root : ArrayObj) (hs : Coherent A mode S s) :
    Returns (if root.isConstantArray then initializeArray A mode root
        else pure (arrayConstant A root)) s fun t s' =>
      t = initialArray A mode root ∧ Coherent A mode S s' ∧
        Steps A mode (fun arr => root = arr) (fun _ => False) s s' ∧ s'.Knows A mode root := by
  by_cases hc : root.isConstantArray
  · rw [if_pos hc]
    cases mode with
    | asserts =>
      refine ⟨arrayConstant A root, {s with solver := s.solver.add (getArrayAssertion A root)},
        rfl,by simp [initialArray],hs.add _,⟨fun _ h => .inl h,rfl,
          [getArrayAssertion A root],rfl,fun f hf => ?_⟩,fun _ _ => mem_cons_self⟩
      exact ⟨root,rfl,rfl,hc,mem_singleton.mp hf⟩
    | ite | stores =>
      exact pure ⟨by simp [initialArray,hc],hs,.refl,nofun⟩
  · rw [if_neg hc]
    exact pure ⟨by simp [initialArray,hc],hs,.refl,fun _ h => absurd h hc⟩

lemma getInitialArray_constructs (root : ArrayObj) :
    Constructs A mode S (fun arr => root = arr) (fun _ => False) (getInitialArray A mode root)
      (initialArray A mode root) := by
  intro s hs
  unfold getInitialArray cachedArray
  apply cached_returns
  · intro t hmem
    obtain ⟨ht,hk⟩ := hs.arrays _ hmem
    refine ⟨ht,hs,.refl,?_⟩
    rintro arr rfl
    exact hk
  · intro _
    refine mono (makeArray_returns root hs) ?_
    rintro t s' ⟨rfl,hs',hsteps,hk⟩
    refine ⟨rfl,hs'.insertArray hk,⟨hsteps.holds,hsteps.outer,hsteps.inner⟩,?_⟩
    rintro arr rfl
    exact hk

lemma Constructs.iteRead (hap : Apart A S) {arr : ArrayObj} {ti : Z3Expr}
    (hS : S (.read (.root arr) i)) (hti : i.toZ3 A .ite = some ti)
    (hi : Constructs A .ite S (i.mentions ·) (· ∈ i.subexprs) (construct A .ite i) ti) :
    Constructs A .ite S ((read (.root arr) i).mentions ·)
      (· ∈ (read (.root arr) i).subexprs) (construct A .ite (.read (.root arr) i))
      (getReadForInitialArray A ti arr) := by
  have hto : (read (.root arr) i).toZ3 A .ite = some (getReadForInitialArray A ti arr) := by
    simp [Expr.toZ3,UpdateList.toZ3,hti,readTerm,iteTerm,getRoot]
  have hknows : ∀ (s : Z3BuilderState) arr, s.Knows A .ite arr := nofun
  intro s hs
  unfold construct S2E.cachedExpr
  apply cached_returns
  · intro t hmem
    obtain ⟨ht,-⟩ := hs.exprs _ hmem
    exact ⟨Option.some.inj (ht.symm.trans hto),hs,.refl,fun arr _ => hknows s arr⟩
  · intro hmiss
    refine Returns.bind (hi s hs) ?_
    rintro t s₁ ⟨rfl,hs₁,hsteps,-⟩
    -- A key with this index belongs to this very read, which is not in the cache yet.
    have hfresh : t ∉ s₁.cache.reads := by
      intro hmem
      obtain ⟨ul',i',hS',hheld,hi'⟩ := hs₁.reads t hmem
      rw [← hap.index_inj hS hS' hti hi'] at hheld
      rcases hsteps.holds _ hheld with ⟨u,hu⟩ | hsub
      · exact hmiss u hu
      · have := size_le_of_mem_subexprs hsub
        simp only [Expr.size] at this
        omega
    unfold getReadForArray cachedRead
    refine Returns.bind (compareReads_returns hfresh) ?_
    rintro _ _ rfl
    refine Returns.bind (Returns.pure (P := fun r s' => r = _ ∧ s₁ = s') ⟨rfl,rfl⟩) ?_
    rintro _ _ ⟨rfl,rfl⟩
    refine Returns.bind (compareReads_returns hfresh) ?_
    rintro _ _ rfl
    refine ⟨_,_,rfl,rfl,hs₁.insertExpr hto (fun arr _ => hknows _ arr) fun j hj => ?_,?_,
      fun arr _ => hknows _ arr⟩
    · rcases mem_cons.mp hj with rfl | hj
      · exact .inr ⟨_,_,rfl,hS,hti⟩
      · exact .inl hj
    · refine (hsteps.insertExpr (.read (.root arr) i) _ _).mono (fun a ha => ?_) fun x hx => ?_
      · simp [Expr.mentions,ha]
      · rcases hx with rfl | hx
        · exact mem_subexprs_self _
        · simp [Expr.subexprs,UpdateList.subexprs,hx]

lemma Constructs.node {t : Z3Expr} {M : ArrayObj → Prop} {K : Expr → Prop}
    (ht : e.toZ3 A mode = some t) (h : Constructs A mode S M K make t)
    (hM : ∀ arr, M arr ↔ e.mentions arr) (hK : ∀ x, K x → x ∈ e.subexprs) :
    Constructs A mode S (e.mentions ·) (· ∈ e.subexprs) (S2E.cachedExpr e make) t := by
  refine (h.cachedExpr ht hM).weaken hM ?_
  rintro x (rfl | hx)
  · exact mem_subexprs_self x
  · exact hK x hx

lemma Constructs.lift {o : Option Z3Expr} {t : Z3Expr} (h : o = some t) :
    Constructs A mode S (fun _ => False) (fun _ => False) (StateT.lift o) t := by
  subst h
  exact fun s hs => ⟨t,s,rfl,rfl,hs,.refl,fun _ h => h.elim⟩

variable (hap : Separate A mode S)
include hap

mutual
theorem construct_constructs : (e : Expr) → {t : Z3Expr} →
    (∀ ul i, read ul i ∈ e.subexprs → S (.read ul i)) → e.toZ3 A mode = some t →
    Constructs A mode S (e.mentions ·) (· ∈ e.subexprs) (construct A mode e) t
  | .constant c, t, _, ht => by
    cases ht
    rw [construct]
    exact Constructs.pure.weaken (fun _ => by simp [Expr.mentions]) fun _ h => h.elim
  | .read ul i, t, hS, ht => by
    obtain ⟨us,ti,hus,hti,ht'⟩ := bind_bind_eq_some ht
    simp only [Expr.subexprs,mem_cons,mem_append,or_imp,forall_and] at hS
    have hSr := hS.1 ul i rfl
    have hi := construct_constructs i hS.2.2 hti
    by_cases hmode : mode = .ite
    · subst hmode
      obtain ⟨arr,rfl⟩ := (hap.ite rfl).noUpdates hSr
      cases hus
      cases ht'
      exact Constructs.iteRead (hap.ite rfl) hSr hti hi
    · have hul := getArrayForUpdate_constructs hmode ul (.read hSr) hS.2.1 hus
      have hread : t = .select (storeTerm (initialArray A mode ul.getRoot) us) ti := by
        cases mode <;> first | exact absurd rfl hmode | exact (Option.some.inj ht').symm
      have hkids := hul.bind (f := fun array => construct A mode i >>= fun index =>
        Pure.pure (Term.select array index)) (hi.bind .pure)
      rw [← hread] at hkids
      have hnode := Constructs.node ht hkids (by simp [Expr.mentions])
        (by simp +contextual [Expr.subexprs])
      unfold construct
      cases mode with
      | ite => exact absurd rfl hmode
      | stores | asserts => exact hnode
  | .select c x y, t, hS, ht => by
    obtain ⟨tc,tx,htc,htx,ht'⟩ := bind_bind_eq_some ht
    obtain ⟨ty,hty,ht'⟩ := Option.bind_eq_some_iff.mp ht'
    cases ht'
    simp only [Expr.subexprs,mem_cons,mem_append,or_imp,forall_and] at hS
    have hc := construct_constructs c hS.2.1.1 htc
    have hx := construct_constructs x hS.2.1.2 htx
    have hy := construct_constructs y hS.2.2 hty
    rw [construct]
    exact Constructs.node ht (hc.bind (hx.bind (hy.bind .pure)))
      (by simp [Expr.mentions,or_assoc]) (by simp +contextual [Expr.subexprs])
  | .concat l r, t, hS, ht => by
    obtain ⟨tr,tl,htr,htl,ht'⟩ := bind_bind_eq_some ht
    cases ht'
    simp only [Expr.subexprs,mem_cons,mem_append,or_imp,forall_and] at hS
    have hl := construct_constructs l hS.2.1 htl
    have hr := construct_constructs r hS.2.2 htr
    rw [construct]
    exact Constructs.node ht (hr.bind (hl.bind .pure))
      (by simp [Expr.mentions,or_comm]) (by simp +contextual [Expr.subexprs,or_imp])
  | .binary k l r, t, hS, ht => by
    obtain ⟨tl,tr,htl,htr,ht'⟩ := bind_bind_eq_some ht
    simp only [Expr.subexprs,mem_cons,mem_append,or_imp,forall_and] at hS
    have hl := construct_constructs l hS.2.1 htl
    have hr := construct_constructs r hS.2.2 htr
    rw [construct]
    exact Constructs.node ht (hl.bind (hr.bind (.lift ht')))
      (by simp [Expr.mentions]) (by simp +contextual [Expr.subexprs])
  | .extract e _ _, t, hS, ht | .not e, t, hS, ht | .zext e _, t, hS, ht
  | .sext e _, t, hS, ht => by
    obtain ⟨te,hte,ht'⟩ := Option.bind_eq_some_iff.mp ht
    cases ht'
    have he := construct_constructs e (fun ul' i' h => hS ul' i' (.tail _ h)) hte
    rw [construct]
    exact Constructs.node ht (he.bind .pure)
      (by simp [Expr.mentions]) (by simp +contextual [Expr.subexprs])

theorem getArrayForUpdate_constructs (hmode : mode ≠ .ite) : (ul : UpdateList) →
    {us : List (Z3Expr × Z3Expr)} → Listed S ul →
    (∀ ul' i, read ul' i ∈ ul.subexprs → S (.read ul' i)) → ul.toZ3 A mode = some us →
    Constructs A mode S (ul.mentions ·) (· ∈ ul.subexprs) (getArrayForUpdate A mode ul)
      (storeTerm (initialArray A mode ul.getRoot) us)
  | .root arr, us, _, _, hus => by
    cases hus
    rw [getArrayForUpdate]
    exact (getInitialArray_constructs arr).weaken (fun _ => by simp [UpdateList.mentions])
      fun _ h => h.elim
  | .extend next i v, us, hlist, hS, hus => by
    obtain ⟨rest,ti,hrest,hti,hus'⟩ := bind_bind_eq_some hus
    obtain ⟨tv,htv,hus'⟩ := Option.bind_eq_some_iff.mp hus'
    cases hus'
    simp only [UpdateList.subexprs,mem_append,or_imp,forall_and] at hS
    have hn := getArrayForUpdate_constructs hmode next hlist.next hS.1.1 hrest
    have hi := construct_constructs i hS.1.2 hti
    have hv := construct_constructs v hS.2 htv
    have hmake := hn.bind (f := fun array => construct A mode i >>= fun i =>
      construct A mode v >>= fun v => Pure.pure (Term.store array i v))
      (hi.bind (hv.bind .pure))
    rw [getArrayForUpdate]
    have hroot : ∀ x, Listed S x → A.node x = A.node (.extend next i v) → x = .extend next i v := by
      intro x hx hnode
      have hnodes : x.nodes = (UpdateList.extend next i v).nodes := by
        rw [← A.node_nodes,hnode,A.node_nodes]
      refine eq_of_nodes hnodes (hap.root hmode hx hlist ?_ hnode)
      rw [hnodes]
      exact cons_ne_nil _ _
    exact (Constructs.cachedUpdate hlist hroot hus (by simp [UpdateList.mentions,or_assoc])
      hmake).weaken
      (by simp [UpdateList.mentions,or_assoc])
      (by simp +contextual [UpdateList.subexprs])
end
end

end S2E
