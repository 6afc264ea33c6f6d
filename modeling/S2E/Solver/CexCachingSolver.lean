import S2E.Solver.CachingSolver
import S2E.Core.Assignment
import S2E.ADT.MapOfSets
import S2E.Expr.Compare

/-!
`CexCachingSolver`: the assignments found so far, kept under the set of constraints they
satisfy, with no assignment for a set that has none. An answer may be taken over from a
subset, a superset or any assignment that happens to fit.
-/

namespace S2E
open List Option Concolics S2E.Expr ConstantExpr

def pushObject (objects : List ArrayObj) (arr : ArrayObj) : List ArrayObj :=
  if arr.isSymbolicArray then if arr ∈ objects then objects else objects ++ [arr] else objects

mutual
/-- `SymbolicObjectFinder`: the updates of a read first, then its root, then its index. -/
def Expr.symbolicObjects : Expr → List ArrayObj → List ArrayObj
  | .constant _, objects => objects
  | .read ul i, objects => i.symbolicObjects (pushObject (ul.symbolicObjects objects) ul.getRoot)
  | .select c t f, objects => f.symbolicObjects (t.symbolicObjects (c.symbolicObjects objects))
  | .concat l r, objects => r.symbolicObjects (l.symbolicObjects objects)
  | .extract e _ _, objects => e.symbolicObjects objects
  | .not e, objects => e.symbolicObjects objects
  | .zext e _, objects => e.symbolicObjects objects
  | .sext e _, objects => e.symbolicObjects objects
  | .binary _ l r, objects => r.symbolicObjects (l.symbolicObjects objects)

def UpdateList.symbolicObjects : UpdateList → List ArrayObj → List ArrayObj
  | .root _, objects => objects
  | .extend next i v, objects =>
    next.symbolicObjects (v.symbolicObjects (i.symbolicObjects objects))
end

def findSymbolicObjects (es : List Expr) : List ArrayObj :=
  es.foldl (fun objects e => e.symbolicObjects objects) []

def Concolics.ofValues (objects : List ArrayObj) (values : List (List (BitVec 8))) : Concolics :=
  (objects.zip values).foldl (fun c p => c.add p.1 p.2) (create false)

def Concolics.satisfies (c : Concolics) : List Expr → Option (Bool × Concolics)
  | [] => some (true,c)
  | e :: es => do
    let (r,c) ← c.evaluate e
    if r.isTrue then c.satisfies es else some (false,c)

def Concolics.sameBindings (c d : Concolics) : Bool :=
  c.bindings.all (fun p => d.bindings.lookup p.1 == some p.2) &&
    d.bindings.all (fun p => c.bindings.lookup p.1 == some p.2)

structure CexOptions where
  cexCacheTryAll : Bool
  cexCacheExperimental : Bool

/-- An assignment is known by its number, its address. No number is the null pointer of a set
that has no solution. -/
structure CexCachingSolver (σ : Type) where
  cache : MapOfSets.Node Expr (Option Nat)
  heap : List Concolics
  assignmentsTable : List Nat
  solver : σ

namespace CexCachingSolver
section Code
variable {M σ : Type} (opts : CexOptions) (less : Expr → Expr → Bool)
  (lessThan : Concolics → Concolics → Bool) (impl : SolverImpl M σ) (conds : M → List Expr)

def satisfiesAt (key : List Expr) (id : Nat) : StateT (List Concolics) Option Bool := fun heap => do
  let c ← heap[id]?
  let (b,c) ← c.satisfies key
  some (b,heap.set id c)

def nullOrSatisfying (key : List Expr) : Option Nat → StateT (List Concolics) Option Bool
  | none => pure true
  | some id => satisfiesAt key id

def tryAssignments (key : List Expr) :
    List Nat → StateT (List Concolics) Option (Option (Option Nat))
  | [] => pure none
  | id :: ids => do
    if ← satisfiesAt key id then pure (some (some id)) else tryAssignments key ids

variable (st : CexCachingSolver σ)

def searchSubsets (key : List Expr) : StateT (List Concolics) Option (Option (Option Nat)) :=
  if opts.cexCacheTryAll then
    MapOfSets.orElse (st.cache.findSubset less (fun v => pure v.isNone) key)
      (tryAssignments key st.assignmentsTable)
  else st.cache.findSubset less (nullOrSatisfying key) key

def searchForAssignment (key : List Expr) : Option (Option (Option Nat) × CexCachingSolver σ) :=
  match st.cache.lookup key with
  | some result => some (some result,st)
  | none =>
    match st.cache.findSuperset less isSome key with
    | some result => some (some result,st)
    | none => (searchSubsets opts less st key st.heap).map fun (found,heap) =>
      (found, {st with heap})

def constraintSet (C : List Expr) : List Expr :=
  C.foldl (fun set e => MapOfSets.insertSet less e set) []

variable (query : Query M)

def lookupAssignment : Option ((List Expr × Option (Option Nat)) × CexCachingSolver σ) := do
  let key := constraintSet less (conds query.constraints)
  let neg ← query.expr.createIsZero
  let search (key : List Expr) := do
    let (found,st) ← searchForAssignment opts less st key
    some ((key,found),st)
  match neg with
  | .constant CE => if CE.isFalse then some ((key,some none),st) else search key
  | neg => search (MapOfSets.insertSet less neg key)

/-- `assignmentsTable.insert(binding)`: the assignment with the same bindings that is there,
or the new one. -/
def memoize (binding : Concolics) : Nat × CexCachingSolver σ :=
  match st.assignmentsTable.find? fun id => st.heap[id]?.any binding.sameBindings with
  | some id => (id,st)
  | none =>
    let id := st.heap.length
    let smaller := st.assignmentsTable.takeWhile fun i => st.heap[i]?.any (lessThan · binding)
    (id, { st with
      heap := st.heap ++ [binding]
      assignmentsTable := smaller ++ id :: st.assignmentsTable.drop smaller.length})

def getAssignment : Option (Option (Option Nat) × CexCachingSolver σ) := do
  let ((key,found),st) ← lookupAssignment opts less conds st query
  match found with
  | some result => some (some result,st)
  | none =>
    let objects := findSymbolicObjects key
    match impl.computeInitialValues query objects st.solver with
    | (none,solver) => some (none, {st with solver})
    | (some none,solver) =>
      some (some none, {st with solver, cache := st.cache.insert less none key})
    | (some (some values),solver) =>
      let (id,st) := memoize lessThan {st with solver} (ofValues objects values)
      some (some (some id), {st with cache := st.cache.insert less (some id) key})

def evaluateAt (id : Nat) (e : Expr) : Option (APInt × CexCachingSolver σ) := do
  let c ← st.heap[id]?
  let (r,c) ← c.evaluate e
  match r with
  | .constant v => some (v, {st with heap := st.heap.set id c})
  | _ => none

def computeValidity : Option (Option Validity × CexCachingSolver σ) := do
  match ← getAssignment opts less lessThan impl conds st query.withFalse with
  | (none,st) => some (none,st)
  | (some none,_) => none
  | (some (some a),st) => do
    let (q,st) ← evaluateAt st a query.expr
    if q.isTrue then do
      let (a,st) ← getAssignment opts less lessThan impl conds st query
      some (a.map fun a => if a.isNone then .true else .unknown,st)
    else do
      let negated ← query.negateExpr
      let (a,st) ← getAssignment opts less lessThan impl conds st negated
      some (a.map fun a => if a.isNone then .false else .unknown,st)

def computeTruth : Option (Option Bool × CexCachingSolver σ) := do
  let (known,st) ←
    if opts.cexCacheExperimental then do
      let negated ← query.negateExpr
      let ((_,found),st) ← lookupAssignment opts less conds st negated
      some (found == some none,st)
    else some (false,st)
  if known then some (none,st)
  else do
    let (a,st) ← getAssignment opts less lessThan impl conds st query
    some (a.map isNone,st)

def computeValue : Option (Option Expr × CexCachingSolver σ) := do
  match ← getAssignment opts less lessThan impl conds st query.withFalse with
  | (none,st) => some (none,st)
  | (some none,_) => none
  | (some (some a),st) => do
    let (v,st) ← evaluateAt st a query.expr
    some (some (.constant v),st)

def bytesOf (c : Concolics) (os : ArrayObj) : List (BitVec 8) :=
  (c.bindings.lookup os).getD (replicate os.size 0)

def computeInitialValues (objects : List ArrayObj) :
    Option (Option (Option (List (List (BitVec 8)))) × CexCachingSolver σ) := do
  match ← getAssignment opts less lessThan impl conds st query with
  | (none,st) => some (none,st)
  | (some none,st) => some (some none,st)
  | (some (some a),st) => do
    let c ← st.heap[a]?
    some (some (some (objects.map (bytesOf c))),st)

def toAnswer {α : Type} (f : α → SolverAnswer) (o : Option (Option α × CexCachingSolver σ)) :
    Option (SolverAnswer × CexCachingSolver σ) :=
  o.map fun p => (p.1.elim .failure f,p.2)

def call : SolverCall M → Option (SolverAnswer × CexCachingSolver σ)
  | .validity q => toAnswer .validity (computeValidity opts less lessThan impl conds st q)
  | .truth q => toAnswer .truth (computeTruth opts less lessThan impl conds st q)
  | .value q => toAnswer .value (computeValue opts less lessThan impl conds st q)
  | .initialValues q objects =>
    toAnswer .initialValues (computeInitialValues opts less lessThan impl conds st q objects)

def run (st : CexCachingSolver σ) : List (SolverCall M) →
    Option (List (SolverReply M σ) × CexCachingSolver σ)
  | [] => some ([],st)
  | c :: calls => do
    let (a,st') ← call opts less lessThan impl conds st c
    let (rest,st') ← run st' calls
    some (⟨c,a,st.solver⟩ :: rest,st')

end Code

def create {σ : Type} (solver : σ) : CexCachingSolver σ :=
  {cache := .empty, heap := [], assignmentsTable := [], solver}

end CexCachingSolver

structure Collects (mentions : ArrayObj → Bool) (f : List ArrayObj → List ArrayObj) : Prop where
  subset : ∀ objects, objects ⊆ f objects
  mem : ∀ objects arr, mentions arr = true → arr.isSymbolicArray = true → arr ∈ f objects
  symbolic : ∀ objects, (∀ arr ∈ objects, arr.isSymbolicArray = true) →
    ∀ arr ∈ f objects, arr.isSymbolicArray = true

lemma Collects.comp {m m' : ArrayObj → Bool} {f g : List ArrayObj → List ArrayObj}
    (hf : Collects m f) (hg : Collects m' g) :
    Collects (fun arr => m arr || m' arr) (fun objects => g (f objects)) where
  subset objects := List.Subset.trans (hf.subset objects) (hg.subset _)
  mem objects arr h hsym := by
    rcases Bool.or_eq_true_iff.mp h with h | h
    · exact hg.subset _ (hf.mem objects arr h hsym)
    · exact hg.mem _ arr h hsym
  symbolic objects h := hg.symbolic _ (hf.symbolic objects h)

lemma Collects.congr {m m' : ArrayObj → Bool} {f : List ArrayObj → List ArrayObj}
    (h : Collects m f) (hm : ∀ arr, m' arr → m arr) : Collects m' f :=
  ⟨h.subset,fun objects arr ha => h.mem objects arr (hm arr ha),h.symbolic⟩

lemma collects_nothing : Collects (fun _ => false) id :=
  ⟨fun _ => List.Subset.refl _,nofun,fun _ h => h⟩

lemma collects_pushObject (root : ArrayObj) :
    Collects (fun arr => root = arr) (pushObject · root) where
  subset objects := by
    unfold pushObject
    split
    · split
      · exact List.Subset.refl _
      · exact subset_append_left objects [root]
    · exact List.Subset.refl _
  mem objects arr h hsym := by
    obtain rfl : root = arr := by simpa using h
    unfold pushObject
    rw [if_pos hsym]
    split
    · assumption
    · exact mem_append_right _ (mem_singleton_self _)
  symbolic objects h arr harr := by
    unfold pushObject at harr
    split at harr
    next hsym =>
      split at harr
      · exact h arr harr
      rcases mem_append.mp harr with harr | harr
      · exact h arr harr
      · rw [mem_singleton.mp harr]
        exact hsym
    · exact h arr harr

mutual
theorem Expr.collects : (e : Expr) → Collects (fun arr => e.mentions arr) e.symbolicObjects
  | .constant _ => collects_nothing
  | .read ul i => ul.collects.comp i.collects
  | .select c t f => (c.collects.comp t.collects).comp f.collects
  | .concat l r | .binary _ l r => l.collects.comp r.collects
  | .extract e _ _ | .not e | .zext e _ | .sext e _ => e.collects

theorem UpdateList.collects : (ul : UpdateList) → Collects (fun arr => ul.mentions arr)
    fun objects => pushObject (ul.symbolicObjects objects) ul.getRoot
  | .root arr => collects_pushObject arr
  | .extend next i v => by
    refine ((i.collects.comp v.collects).comp next.collects).congr ?_
    intro arr h
    simp only [UpdateList.mentions,Bool.or_eq_true] at h ⊢
    rcases h with (h | h) | h
    · exact .inr h
    · exact .inl (.inl h)
    · exact .inl (.inr h)
end

lemma foldl_collects : (es : List Expr) → Collects (fun arr => es.any (·.mentions arr))
    fun objects => es.foldl (fun objects e => e.symbolicObjects objects) objects
  | [] => collects_nothing
  | e :: es => e.collects.comp (foldl_collects es)

variable {es : List Expr} {e : Expr} {arr : ArrayObj}

lemma mem_findSymbolicObjects (he : e ∈ es) (hm : e.mentions arr) (hsym : arr.isSymbolicArray) :
    arr ∈ findSymbolicObjects es :=
  (foldl_collects es).mem [] arr (any_eq_true.mpr ⟨e,he,hm⟩) hsym

lemma isSymbolicArray_of_mem (h : arr ∈ findSymbolicObjects es) : arr.isSymbolicArray :=
  (foldl_collects es).symbolic [] (nofun) arr h

def Grammar.divides (a : Assignment) : Grammar where
  node k _ r := k.isDivision = true → r.eval a ≠ 0
  ext _ _ := True
  slice _ _ := True
  node_or _ _ h := nomatch h
  node_xor _ _ h := nomatch h
  node_eq _ _ h := nomatch h
  node_and _ _ h := nomatch h
  node_and_bool _ h := nomatch h
  node_plain {k} {w} _ hk _ h := by
    cases k with
    | udiv | sdiv | urem | srem => cases hk
    | _ => cases h
  ext_of_lt _ := trivial
  ext_mono _ _ := trivial
  slice_of_ne _ := trivial

/-- Under the assignment nothing in the expression is divided by zero, or else it reads inside
the constant arrays and its shifts and masks are tame. -/
def Expr.Settled (a : Assignment) (e : Expr) : Prop :=
  e.WF ∧ (e.Conforms (.divides a) ∨ (e.InBounds a true ∧ e.Conforms (.tame a)))

lemma Expr.isConstant_of_isTrue (h : e.isTrue) : e.isConstant := by
  cases e with
  | constant c => rfl
  | _ => cases h

variable {a : Assignment}

lemma Expr.eval_of_isTrue_value (h : e.WF) (ht : (e.value a).isTrue) : e.eval a = 1 := by
  simp only [value,alloc,isTrue,APInt.isTrue,APInt.ofNat_width,
    APInt.ofNat_value,Bool.and_eq_true,beq_iff_eq,Nat.mod_eq_of_lt (e.eval_lt a h)] at ht
  exact ht.2

lemma Expr.Settled.createIsZero {n : Expr} (h : e.Settled a)
    (hn : e.createIsZero = some n) : n.Settled a := by
  obtain ⟨hwf,h⟩ := h
  obtain ⟨n',hn',hr⟩ := createIsZero_yields hwf
  cases some.inj (hn.symm.trans hn')
  refine ⟨hr.wf,h.imp (fun hd => createIsZero_keeps hwf hd n hn) fun ⟨hb,ht⟩ => ⟨?_,?_⟩⟩
  · exact hr.defined a true ⟨hb,trivial⟩
  · exact createIsZero_keeps hwf ht n hn

variable {cache : List (Expr × Expr)}

namespace Concolics

structure Closed (c : Concolics) : Prop where
  free : c.allowFreeValues = false
  bound : ∀ {arr bytes}, c.bindings.lookup arr = some bytes →
    arr.isSymbolicArray = true ∧ bytes.length = arr.size

def Divides (c : Concolics) (e : Expr) : Prop := e.WF ∧ e.Conforms (.divides c.assignment)

def CacheExact (c : Concolics) (cache : List (Expr × Expr)) : Prop :=
  ∀ e r, cache.lookup e = some r → r.isConstant = true ∧ RefinesOn c.Completes .inBounds e r ∧
    (c.Divides e → r = e.value c.assignment)

variable {c : Concolics}

lemma Closed.eq_assignment (hc : c.Closed) (h : c.Completes a) : a = c.assignment := by
  funext arr i
  have ha := h arr i
  have hself := completes_assignment c arr i
  cases hb : c.byte arr i with
  | some b =>
    rw [hb] at ha hself
    exact ha.trans hself.symm
  | none =>
    rw [hb] at ha hself
    exact (ha hc.free).trans (hself hc.free).symm

lemma assignment_eq_byte (c : Concolics) (arr : ArrayObj) (i : Nat) :
    c.assignment arr i = (c.byte arr i).getD 0 := by
  unfold assignment byte
  cases c.bindings.lookup arr with
  | none => rfl
  | some bytes => simp [getD_eq_getElem?_getD]

lemma Closed.byte_none (hc : c.Closed) {i : Nat}
    (h : arr.isSymbolicArray = false ∨ arr.size ≤ i) : c.byte arr i = none := by
  unfold byte
  cases hl : c.bindings.lookup arr with
  | none => rfl
  | some bytes =>
    obtain ⟨hsym,hlen⟩ := hc.bound hl
    rcases h with h | h
    · rw [hsym] at h
      cases h
    · simpa [hlen] using h

lemma Closed.resolves (hc : c.Closed) (arr : ArrayObj) (i : Nat) : c.Resolves arr i := by
  rintro index rfl hlt
  have hbyte : c.evaluateAt arr index.value =
      some (alloc ((c.byte arr index.value).getD 0).toNat 8) := by
    unfold evaluateAt byte
    cases c.bindings.lookup arr with
    | none => simp [hc.free]
    | some bytes => cases hb : bytes[index.value]? <;> simp [hc.free,hb]
  by_cases hconst : arr.isConstantArray ∧ index.value < arr.size
  · exact resolves_constant hconst.1 hconst.2 index rfl hlt
  simp only [scanUpdates,if_neg hconst,Nat.mod_eq_of_lt hlt,hbyte,ArrayObj.initial]
  cases hv : arr.constantValues with
  | nil =>
    by_cases hi : index.value < arr.size
    · simp only [if_pos hi,assignment_eq_byte]
    · simp only [if_neg hi,hc.byte_none (.inr (Nat.le_of_not_lt hi))]
      rfl
  | cons v vs =>
    have hsym : arr.isSymbolicArray = false := by simp [ArrayObj.isSymbolicArray,hv]
    have hsize : arr.size ≤ index.value := by
      simpa [ArrayObj.isConstantArray,hsym] using hconst
    have hlen : (v :: vs).length = arr.size := by
      rw [← hv]
      exact arr.constant_size.resolve_left (by simp [hv])
    rw [hc.byte_none (.inl hsym)]
    exact congrArg (fun b : BitVec 8 => some (alloc b.toNat 8))
      (getD_eq_default _ _ (by omega)).symm

lemma Closed.settles (hc : c.Closed) :
    c.Settles c.Divides (fun ul => ul.WF ∧ ul.Conforms (.divides c.assignment)) where
  read h := ⟨⟨h.1.1,h.2.1⟩,⟨h.1.2.1,h.2.2⟩,hc.resolves _ _⟩
  select h := ⟨⟨h.1.1,h.2.1⟩,fun _ => ⟨h.1.2.1,h.2.2.1⟩,fun _ => ⟨h.1.2.2.1,h.2.2.2⟩⟩
  concat h := ⟨⟨h.1.1,h.2.1⟩,h.1.2.1,h.2.2⟩
  extract h := ⟨h.1.1,h.2.1⟩
  not h := h
  zext h := ⟨h.1.1,h.2.1⟩
  sext h := ⟨h.1.1,h.2.1⟩
  binary h := ⟨⟨h.1.1,h.2.1⟩,⟨h.1.2.1,h.2.2.1⟩,h.2.2.2⟩
  extend h := ⟨⟨h.1.1,h.2.1⟩,⟨h.1.2.1,h.2.2.1⟩,h.1.2.2.1,h.2.2.2⟩

lemma Closed.refines_value (hc : c.Closed) (h : e.WF) :
    RefinesOn c.Completes .inBounds e (e.value c.assignment) := by
  refine .constant _ h rfl fun a ha _ => ?_
  rw [hc.eq_assignment ha]
  exact eval_value (a := c.assignment) c.assignment h

lemma CacheExact.cons (hcache : c.CacheExact cache) {r : Expr}
    (hr : r.isConstant) (href : RefinesOn c.Completes .inBounds e r)
    (hval : c.Divides e → r = e.value c.assignment) : c.CacheExact ((e,r) :: cache) := by
  intro x y hx
  rw [lookup_cons] at hx
  split at hx
  next hxe =>
    cases some.inj hx
    rw [eq_of_beq hxe]
    exact ⟨hr,href,hval⟩
  · exact hcache x y hx

lemma Closed.holds (hc : c.Closed) : c.Holds c.Divides c.CacheExact where
  hit hcache he hl := (hcache _ _ hl).2.2 he
  insert hcache he := hcache.cons rfl (hc.refines_value he.1) fun _ => rfl

lemma remembers_cacheExact (c : Concolics) : c.Remembers .inBounds c.Divides c.CacheExact where
  hit hcache hl := ⟨(hcache _ _ hl).1,(hcache _ _ hl).2.1⟩
  insert hcache he hr href := hcache.cons hr href fun h => absurd h he

lemma Closed.suits (hc : c.Closed) : c.Suits .inBounds where
  readable {arr i} h := by
    by_cases hi : i < arr.size
    · exact .inl hi
    · refine .inr ⟨?_,hc.byte_none (.inr (Nat.le_of_not_lt hi))⟩
      rw [Bool.eq_false_iff]
      exact fun hconst => hi (h hconst)
  known h _ := h.1
  divisor _ := trivial

/-- A settled expression is evaluated, and a constant result is its value. It is one where
nothing is divided by zero. -/
lemma Closed.visit_spec (hc : c.Closed) (he : e.Settled c.assignment) :
    EvalM.Ends c.CacheExact (c.visit e) fun r =>
      (r.isConstant → r = e.value c.assignment) ∧
      (e.Conforms (.divides c.assignment) → r = e.value c.assignment) := by
  have hdivides : ∀ d : Expr, d.WF → c.Divides d →
      EvalM.Ends c.CacheExact (c.visit d) (· = d.value c.assignment) :=
    fun d hd h => visit_settles hc.settles hc.holds d hd h
  by_cases hk : e.Conforms (.divides c.assignment)
  · exact (hdivides e he.1 ⟨he.1,hk⟩).mono fun r hr => ⟨fun _ => hr,fun _ => hr⟩
  obtain ⟨hb,ht⟩ := he.2.resolve_left hk
  have hvisit := Concolics.visit_spec hc.suits (completes_assignment c) (remembers_cacheExact c)
    (fun d hd h => (hdivides d hd h).mono fun r hr => by
      rw [hr]
      exact .of_constant rfl (hc.refines_value hd)) e he.1 (hb.mono false) ht
  refine hvisit.mono fun r hr => ⟨fun hconst => ?_,fun h => absurd h hk⟩
  cases r with
  | constant v =>
    exact eq_value hr.refines.width (hr.refines.eval _ (completes_assignment c) hb)
  | _ => cases hconst

lemma Closed.evaluate_spec (hc : c.Closed) (hcache : c.CacheExact c.expressionCache)
    (he : e.Settled c.assignment) :
    ∃ r cache, c.evaluate e = some (r, {c with expressionCache := cache}) ∧
      c.CacheExact cache ∧ (r.isConstant → r = e.value c.assignment) ∧
      (e.Conforms (.divides c.assignment) → r = e.value c.assignment) := by
  obtain ⟨r,cache,hv,hr,hcache'⟩ := hc.visit_spec he c.expressionCache hcache
  exact ⟨r,cache,by rw [evaluate,hv]; rfl,hcache',hr⟩

lemma Closed.satisfies_spec {c : Concolics} (hc : c.Closed)
    (hcache : c.CacheExact c.expressionCache) {key : List Expr}
    (h : ∀ e ∈ key, e.Settled c.assignment) :
    ∃ b cache, c.satisfies key = some (b, {c with expressionCache := cache}) ∧
      c.CacheExact cache ∧ (b → c.assignment.Satisfies key) := by
  induction key generalizing c with
  | nil => exact ⟨true,c.expressionCache,rfl,hcache,nofun⟩
  | cons e es ih =>
    have he := h e mem_cons_self
    obtain ⟨r,cache,hev,hcache',hr,-⟩ := hc.evaluate_spec hcache he
    unfold satisfies
    rw [hev]
    by_cases ht : r.isTrue
    · have hc' : Closed {c with expressionCache := cache} := ⟨hc.free,hc.bound⟩
      obtain ⟨b,cache2,hs,hcache2,hb⟩ := ih hc' hcache' fun d hd => h d (mem_cons_of_mem e hd)
      refine ⟨b,cache2,by simp [ht,hs],hcache2,fun hbt d hd => ?_⟩
      rcases mem_cons.mp hd with rfl | hd
      · rw [hr (isConstant_of_isTrue ht)] at ht
        exact eval_of_isTrue_value he.1 ht
      · exact hb hbt d hd
    · exact ⟨false,cache,by simp [ht],hcache',nofun⟩

end Concolics

variable {C : List Expr} {r : Option Nat} {id : Nat} {α : Type} {P : α → Prop} {t : Prop}

namespace CexCachingSolver
open MapOfSets

abbrev Bindings := List (ArrayObj × List (BitVec 8))

def Bindings.assignment (b : Bindings) : Assignment := (Concolics.mk b false []).assignment

structure HeapOk (B : List Bindings) (heap : List Concolics) : Prop where
  bound : heap.map bindings = B
  closed : ∀ c ∈ heap, c.Closed
  exact : ∀ c ∈ heap, c.CacheExact c.expressionCache

def Known (B : List Bindings) (set : List Expr) : Option Nat → Prop
  | none => ¬Satisfiable set
  | some id => ∃ b, B[id]? = some b ∧ b.assignment.Satisfies set

lemma Known.of_subset {B : List Bindings} {set key : List Expr} (h : Known B set none)
    (hsub : set ⊆ key) : Known B key none :=
  fun ⟨a,ha⟩ => h ⟨a,fun e he => ha e (hsub he)⟩

lemma Known.of_superset {B : List Bindings} {set key : List Expr}
    (h : Known B set (some id)) (hsub : key ⊆ set) : Known B key (some id) := by
  obtain ⟨b,hb,ha⟩ := h
  exact ⟨b,hb,fun e he => ha e (hsub he)⟩

def AllSettled (key : List Expr) : Prop := ∀ e ∈ key, ∀ a, e.Settled a

section Heap
variable {B : List Bindings} {heap : List Concolics} {key : List Expr}

lemma HeapOk.get (h : HeapOk B heap) {b : Bindings} (hb : B[id]? = some b) :
    ∃ c, heap[id]? = some c ∧ c.bindings = b ∧ c.assignment = b.assignment := by
  rw [← h.bound,getElem?_map,map_eq_some_iff] at hb
  obtain ⟨c,hc,rfl⟩ := hb
  exact ⟨c,hc,rfl,rfl⟩

lemma HeapOk.set (h : HeapOk B heap) {c : Concolics} (hc : heap[id]? = some c)
    (hcache : c.CacheExact cache) :
    HeapOk B (heap.set id {c with expressionCache := cache}) := by
  have hmem := mem_of_getElem? hc
  refine ⟨?_,fun d hd => ?_,fun d hd => ?_⟩
  · rw [map_set,← h.bound]
    obtain ⟨hid,rfl⟩ := List.getElem?_eq_some_iff.mp hc
    exact ext_getElem? fun i => by grind
  · rcases mem_or_eq_of_mem_set hd with hd | rfl
    · exact h.closed d hd
    · exact ⟨(h.closed c hmem).free,(h.closed c hmem).bound⟩
  · rcases mem_or_eq_of_mem_set hd with hd | rfl
    · exact h.exact d hd
    · exact hcache

lemma satisfiesAt_spec (hkey : AllSettled key) (hid : id < B.length) :
    Tests (HeapOk B) (nullOrSatisfying key) (Known B key) (some id) := by
  intro heap h
  obtain ⟨c,hc,hbind,ha⟩ := h.get (getElem?_eq_getElem hid)
  have hmem := mem_of_getElem? hc
  obtain ⟨b,cache,hs,hcache,hb⟩ := (h.closed c hmem).satisfies_spec (h.exact c hmem)
    fun e he => hkey e he c.assignment
  refine ⟨b,heap.set id {c with expressionCache := cache},?_,h.set hc hcache,fun hbt => ?_⟩
  · simp [nullOrSatisfying,satisfiesAt,hc,hs]
  · exact ⟨_,getElem?_eq_getElem hid,ha ▸ hb hbt⟩

lemma tryAssignments_spec (hkey : AllSettled key) :
    (ids : List Nat) → (∀ id ∈ ids, id < B.length) →
    Finds (HeapOk B) (tryAssignments key ids) (Known B key)
  | [], _ => Finds.nothing
  | id :: ids, h =>
    Finds.test (p := nullOrSatisfying key) (v := some id)
      (satisfiesAt_spec hkey (h id mem_cons_self))
      (tryAssignments_spec hkey ids fun id' h' => h id' (mem_cons_of_mem id h'))

end Heap

variable {M σ : Type} {st : CexCachingSolver σ}

def bound (st : CexCachingSolver σ) : List Bindings := st.heap.map bindings

structure Sound (st : CexCachingSolver σ) : Prop where
  heap : HeapOk st.bound st.heap
  stored : ∀ path r, st.cache.Stored path r → Known st.bound path r
  table : ∀ id ∈ st.assignmentsTable, id < st.bound.length

lemma Sound.with_heap (hs : st.Sound) {heap : List Concolics} (h : HeapOk st.bound heap) :
    Sound {st with heap} := by
  have hbound : bound {st with heap} = st.bound := h.bound
  refine ⟨?_,?_,?_⟩
  · rw [hbound]
    exact h
  · rw [hbound]
    exact hs.stored
  · rw [hbound]
    exact hs.table

variable (opts : CexOptions) {less : Expr → Expr → Bool} {key : List Expr}

lemma searchSubsets_spec (less : Expr → Expr → Bool) (hs : st.Sound) (hkey : AllSettled key) :
    Finds (HeapOk st.bound) (searchSubsets opts less st key) (Known st.bound key) := by
  unfold searchSubsets
  split
  · have hnull : Finds (HeapOk st.bound)
        (st.cache.findSubset less (fun v => pure v.isNone) key) (Known st.bound key) := by
      refine (Node.findSubset_stored (P := fun v => v = none) st.cache ?_ key).mono ?_
      · exact fun _ v _ heap h => ⟨v.isNone,heap,rfl,h,fun hv => by simpa using hv⟩
      · rintro v ⟨rfl,path,hpath,hsub⟩
        exact (hs.stored path none hpath).of_subset hsub
    exact hnull.orElse (tryAssignments_spec hkey _ hs.table)
  · refine (Node.findSubset_stored
      (P := fun v => ∀ id, v = some id → Known st.bound key v) st.cache ?_ key).mono ?_
    · intro path v hpath
      cases v with
      | none => exact fun heap h => ⟨true,heap,rfl,h,nofun⟩
      | some id =>
        have hid : id < st.bound.length := by
          obtain ⟨b,hb,-⟩ := hs.stored path (some id) hpath
          exact (List.getElem?_eq_some_iff.mp hb).1
        intro heap h
        obtain ⟨b,heap',hb,h',hk⟩ := satisfiesAt_spec hkey hid heap h
        exact ⟨b,heap',hb,h',fun ht _ _ => hk ht⟩
    · rintro v ⟨hv,path,hpath,hsub⟩
      cases v with
      | none => exact (hs.stored path none hpath).of_subset hsub
      | some id => exact hv id rfl

lemma searchForAssignment_spec (less : Expr → Expr → Bool) (hs : st.Sound) (hkey : AllSettled key) :
    ∃ found heap, searchForAssignment opts less st key = some (found, {st with heap}) ∧
      HeapOk st.bound heap ∧ ∀ r, found = some r → Known st.bound key r := by
  unfold searchForAssignment
  split
  next result hl =>
    refine ⟨some result,st.heap,rfl,hs.heap,fun r hr => ?_⟩
    cases hr
    exact hs.stored key result (Node.stored_of_lookup _ hl)
  · split
    next result hl =>
      refine ⟨some result,st.heap,rfl,hs.heap,fun r hr => ?_⟩
      cases hr
      obtain ⟨hsome,path,hpath,hsub⟩ := Node.findSuperset_stored _ hl
      obtain ⟨id,rfl⟩ := isSome_iff_exists.mp hsome
      exact (hs.stored path (some id) hpath).of_superset hsub
    · obtain ⟨found,heap,hsearch,hheap,hfound⟩ :=
        searchSubsets_spec opts less hs hkey st.heap hs.heap
      exact ⟨found,heap,by rw [hsearch]; rfl,hheap,hfound⟩

structure Proper (C : List Expr) (e : Expr) : Prop where
  posed : Posed C e
  settled : ∀ a, e.Settled a
  constraints : AllSettled C

def Answered (B : List Bindings) (C : List Expr) (e : Expr) : Option Nat → Prop
  | none => ¬Attains C e 0
  | some id => ∃ b, B[id]? = some b ∧ b.assignment.Satisfies C ∧ e.eval b.assignment = 0

structure KeyFor (C : List Expr) (e : Expr) (key : List Expr) : Prop where
  settled : AllSettled key
  satisfies : ∀ a : Assignment, a.Satisfies key ↔ a.Satisfies C ∧ e.eval a = 0

lemma KeyFor.answered {B : List Bindings} (hk : KeyFor C e key)
    (h : Known B key r) : Answered B C e r := by
  cases r with
  | none => exact fun ⟨a,ha,he⟩ => h ⟨a,(hk.satisfies a).mpr ⟨ha,he⟩⟩
  | some id =>
    obtain ⟨b,hb,ha⟩ := h
    exact ⟨b,hb,(hk.satisfies _).mp ha⟩

lemma KeyFor.known {B : List Bindings} (hk : KeyFor C e key)
    (h : Answered B C e r) : Known B key r := by
  cases r with
  | none => exact fun ⟨a,ha⟩ => h ⟨a,((hk.satisfies a).mp ha).1,((hk.satisfies a).mp ha).2⟩
  | some id =>
    obtain ⟨b,hb,ha⟩ := h
    exact ⟨b,hb,(hk.satisfies _).mpr ha⟩

def Discerns (less : Expr → Expr → Bool) : Prop :=
  ∀ x y, less x y = false → less y x = false → x = y

lemma mem_constraintSet (hless : Discerns less) : e ∈ constraintSet less C ↔ e ∈ C := by
  have h : ∀ set : List Expr,
      e ∈ C.foldl (fun set e => insertSet less e set) set ↔ e ∈ C ∨ e ∈ set := by
    induction C with
    | nil => simp
    | cons c C ih =>
      intro set
      rw [foldl_cons,ih,mem_cons,mem_insertSet hless]
      grind
  simpa [constraintSet] using h []

variable {conds : M → List Expr} {q : Query M}

lemma keyFor_insert (hless : Discerns less) {n : Expr} (hq : Proper C e)
    (hn : e.createIsZero = some n) : KeyFor C e (insertSet less n (constraintSet less C)) := by
  obtain ⟨n',hn',-,hev⟩ := hq.posed.createIsZero
  cases some.inj (hn.symm.trans hn')
  refine ⟨fun d hd => ?_,fun a => ⟨fun h => ?_,fun ⟨hC,h0⟩ d hd => ?_⟩⟩
  · rcases (mem_insertSet hless).mp hd with rfl | hd
    · exact fun a => (hq.settled a).createIsZero hn
    · exact hq.constraints d ((mem_constraintSet hless).mp hd)
  · have hC : a.Satisfies C :=
      fun c hc => h c ((mem_insertSet hless).mpr (.inr ((mem_constraintSet hless).mpr hc)))
    exact ⟨hC,(hev a hC).mp (h n ((mem_insertSet hless).mpr (.inl rfl)))⟩
  · rcases (mem_insertSet hless).mp hd with rfl | hd
    · exact (hev a hC).mpr h0
    · exact hC d ((mem_constraintSet hless).mp hd)

lemma keyFor_constraints (hless : Discerns less) (hq : Proper C e)
    (h0 : ∀ a : Assignment, a.Satisfies C → e.eval a = 0) : KeyFor C e (constraintSet less C) := by
  have hiff : ∀ a : Assignment, a.Satisfies (constraintSet less C) ↔ a.Satisfies C :=
    fun a => ⟨fun h c hc => h c ((mem_constraintSet hless).mpr hc),
      fun h c hc => h c ((mem_constraintSet hless).mp hc)⟩
  refine ⟨fun d hd => hq.constraints d ((mem_constraintSet hless).mp hd),fun a => ?_⟩
  rw [hiff]
  exact ⟨fun h => ⟨h,h0 a h⟩,fun h => h.1⟩

lemma lookupAssignment_spec (hless : Discerns less) (hs : st.Sound)
    (hq : Proper (conds q.constraints) q.expr) :
    ∃ key found heap, lookupAssignment opts less conds st q =
        some ((key,found), {st with heap}) ∧ HeapOk st.bound heap ∧
      (∀ r, found = some r → Answered st.bound (conds q.constraints) q.expr r) ∧
      (found = none → KeyFor (conds q.constraints) q.expr key) := by
  obtain ⟨n,hn,hposed,hev⟩ := hq.posed.createIsZero
  have hsearch : ∀ key, KeyFor (conds q.constraints) q.expr key →
      ∃ found heap, searchForAssignment opts less st key = some (found, {st with heap}) ∧
        HeapOk st.bound heap ∧
        ∀ r, found = some r → Answered st.bound (conds q.constraints) q.expr r := by
    intro key hkey
    obtain ⟨found,heap,h,hheap,hfound⟩ := searchForAssignment_spec opts less hs hkey.settled
    exact ⟨found,heap,h,hheap,fun r hr => hkey.answered (hfound r hr)⟩
  unfold lookupAssignment
  rw [hn]
  cases n with
  | constant CE =>
    by_cases hf : CE.isFalse
    · refine ⟨constraintSet less (conds q.constraints),some none,st.heap,by simp [hf],hs.heap,
        fun r hr => ?_,nofun⟩
      cases hr
      rintro ⟨a,ha,h0⟩
      have h1 : CE.value = 1 := (hev a ha).mpr h0
      simp [APInt.isFalse,h1] at hf
    · have h0 : ∀ a : Assignment, a.Satisfies (conds q.constraints) → q.expr.eval a = 0 := by
        intro a ha
        refine (hev a ha).mp ?_
        have hw : CE.width = 1 := hposed.boolean.2
        have hlt := CE.value_lt
        rw [hw] at hlt
        simp only [APInt.isFalse,hw,beq_self_eq_true,Bool.true_and,beq_iff_eq] at hf
        show CE.value = 1
        omega
      have hkey := keyFor_constraints hless hq h0
      obtain ⟨found,heap,h,hheap,hfound⟩ := hsearch _ hkey
      exact ⟨_,found,heap,by simp [hf,h],hheap,hfound,fun _ => hkey⟩
  | _ =>
    have hkey := keyFor_insert hless hq hn
    obtain ⟨found,heap,h,hheap,hfound⟩ := hsearch _ hkey
    exact ⟨_,found,heap,by simp [h],hheap,hfound,fun _ => hkey⟩

lemma lookup_ofValues (objects : List ArrayObj) (values : List (List (BitVec 8)))
    (arr : ArrayObj) :
    (ofValues objects values).bindings.lookup arr = (objects.zip values).lookup arr := by
  rw [ofValues,lookup_foldl_add]
  rfl

lemma allowFreeValues_ofValues (objects : List ArrayObj) (values : List (List (BitVec 8))) :
    (ofValues objects values).allowFreeValues = false := by
  have h : ∀ (ps : List (ArrayObj × List (BitVec 8))) (c : Concolics),
      (ps.foldl (fun c p => c.add p.1 p.2) c).allowFreeValues = c.allowFreeValues := by
    intro ps
    induction ps with
    | nil => exact fun _ => rfl
    | cons p ps ih => exact fun c => (ih _).trans (allowFreeValues_add c p.1 p.2)
  exact h _ _

variable {values : List (List (BitVec 8))}

lemma closed_ofValues {objects : List ArrayObj} (hsym : ∀ arr ∈ objects, arr.isSymbolicArray)
    (hlen : values.map length = objects.map ArrayObj.size) :
    (ofValues objects values).Closed ∧ (ofValues objects values).expressionCache = [] := by
  refine ⟨⟨allowFreeValues_ofValues objects values,fun {arr bytes} hl => ?_⟩,foldl_add_cache _ _⟩
  rw [lookup_ofValues] at hl
  obtain ⟨l1,l2,hzip,-⟩ := lookup_eq_some_iff.mp hl
  have hmem : (arr,bytes) ∈ objects.zip values := by
    rw [hzip]
    exact mem_append_right _ mem_cons_self
  have harr := (of_mem_zip hmem).1
  obtain ⟨bytes',hl',hsize,-⟩ := lookup_zip hlen harr
  rw [hl] at hl'
  cases hl'
  exact ⟨hsym arr harr,hsize⟩

lemma satisfies_ofValues (hlen : values.map length = (findSymbolicObjects key).map ArrayObj.size)
    (hval : ∀ p ∈ (findSymbolicObjects key).zip values, ∀ i, i < p.1.size →
      a p.1 i = p.2.getD i 0) (ha : a.Satisfies key) :
    (ofValues (findSymbolicObjects key) values).assignment.Satisfies key := by
  intro e he
  rw [← ha e he]
  refine (e.congr_of_mentions (S := .inBounds) fun arr hm i =>
    ArrayObj.initial_congr fun hsym hi => ?_).1
  obtain ⟨bytes,hl,-,hmem⟩ := lookup_zip hlen (mem_findSymbolicObjects he hm hsym)
  simp [assignment,lookup_ofValues,hl,hval _ hmem i hi]

lemma assignment_of_sameBindings {c d : Concolics} (h : c.sameBindings d) :
    d.assignment = c.assignment := by
  have hmem : ∀ {x y : Concolics}, x.bindings.all (fun p => y.bindings.lookup p.1 == some p.2) →
      ∀ {arr bytes}, x.bindings.lookup arr = some bytes → y.bindings.lookup arr = some bytes := by
    intro x y hall arr bytes hl
    obtain ⟨l1,l2,hx,-⟩ := lookup_eq_some_iff.mp hl
    have := all_eq_true.mp hall (arr,bytes) (by rw [hx]; simp)
    exact eq_of_beq this
  rw [sameBindings,Bool.and_eq_true] at h
  have hlookup : ∀ arr, d.bindings.lookup arr = c.bindings.lookup arr := by
    intro arr
    cases hc : c.bindings.lookup arr with
    | some bytes => exact hmem h.1 hc
    | none =>
      cases hd : d.bindings.lookup arr with
      | none => rfl
      | some bytes => rw [hmem h.2 hd] at hc; cases hc
  funext arr i
  rw [assignment,assignment,hlookup]

lemma Known.append {B : List Bindings} {set : List Expr} (h : Known B set r)
    (B' : List Bindings) : Known (B ++ B') set r := by
  cases r with
  | none => exact h
  | some id =>
    obtain ⟨b,hb,ha⟩ := h
    refine ⟨b,?_,ha⟩
    rw [List.getElem?_append_left (List.getElem?_eq_some_iff.mp hb).1]
    exact hb

variable (lessThan : Concolics → Concolics → Bool)

lemma memoize_spec (hs : st.Sound) {binding : Concolics} (hclosed : binding.Closed)
    (hcache : binding.expressionCache = []) :
    ∃ id st', memoize lessThan st binding = (id,st') ∧ st'.Sound ∧
      (∀ set, binding.assignment.Satisfies set → Known st'.bound set (some id)) ∧
      st'.solver = st.solver := by
  unfold memoize
  split
  next id hfind =>
    have hid := find?_some hfind
    cases hc : st.heap[id]? with
    | none => simp [hc] at hid
    | some c =>
      have hsame : c.assignment = binding.assignment :=
        assignment_of_sameBindings (by simpa [hc] using hid)
      refine ⟨id,st,rfl,hs,fun set hset => ⟨c.bindings,?_,?_⟩,rfl⟩
      · rw [bound,getElem?_map,hc]
        rfl
      · show c.assignment.Satisfies set
        rw [hsame]
        exact hset
  · have hbound : ∀ ids, bound { st with
        heap := st.heap ++ [binding], assignmentsTable := ids} =
          st.bound ++ [binding.bindings] := by
      intro ids
      simp [bound]
    refine ⟨_,_,rfl,⟨?_,fun path r h => ?_,fun id hid => ?_⟩,fun set hset => ?_,rfl⟩
    · rw [hbound]
      refine ⟨by simp [bound],fun c hc => ?_,fun c hc => ?_⟩
      · rcases mem_append.mp hc with hc | hc
        · exact hs.heap.closed c hc
        · rw [mem_singleton.mp hc]
          exact hclosed
      · rcases mem_append.mp hc with hc | hc
        · exact hs.heap.exact c hc
        · rw [mem_singleton.mp hc,hcache]
          exact nofun
    · rw [hbound]
      exact (hs.stored path r h).append _
    · rw [hbound,length_append]
      rcases mem_append.mp hid with hid | hid
      · have := hs.table id ((takeWhile_sublist _).subset hid)
        omega
      rcases mem_cons.mp hid with rfl | hid
      · simp [bound]
      · have := hs.table id (mem_of_mem_drop hid)
        omega
    · rw [hbound]
      exact ⟨binding.bindings,by simp [bound],hset⟩

lemma Sound.with_solver (hs : st.Sound) (solver : σ) : Sound {st with solver} :=
  ⟨hs.heap,hs.stored,hs.table⟩

lemma Sound.insert (hs : st.Sound) (h : Known st.bound key r) :
    Sound {st with cache := st.cache.insert less r key} := by
  refine ⟨hs.heap,fun path r' hstored => ?_,hs.table⟩
  rcases Node.stored_insert _ hstored with ⟨rfl,rfl⟩ | hstored
  · exact h
  · exact hs.stored path r' hstored

/-- The solver below comes from the one state to the other by what it is asked. -/
def Asked (impl : SolverImpl M σ) : σ → σ → Prop :=
  Relation.ReflTransGen fun s s' => ∃ q objects, (impl.computeInitialValues q objects s).2 = s'

/-- Asked again and again, the solver below fails on the constraints. -/
def Refuses (impl : SolverImpl M σ) (s : σ) (m : M) : Prop :=
  ∃ s' q objects, Asked impl s s' ∧ q.constraints = m ∧
    (impl.computeInitialValues q objects s').1 = none

variable {impl : SolverImpl M σ}

lemma Refuses.of_asked {s s' : σ} {m : M} (h : Refuses impl s' m) (hs : Asked impl s s') :
    Refuses impl s m := by
  obtain ⟨s1,q,objects,hs1,hq,hnone⟩ := h
  exact ⟨s1,q,objects,hs.trans hs1,hq,hnone⟩

lemma getAssignment_spec (hless : Discerns less) (himpl : impl.Correct conds) (hs : st.Sound)
    (hq : Proper (conds q.constraints) q.expr) :
    ∃ r st', getAssignment opts less lessThan impl conds st q = some (r,st') ∧ st'.Sound ∧
      (∀ v, r = some v → Answered st'.bound (conds q.constraints) q.expr v) ∧
      (r = none → Refuses impl st.solver q.constraints) ∧ Asked impl st.solver st'.solver := by
  obtain ⟨key,found,heap,hl,hheap,hfound,hkey⟩ := lookupAssignment_spec opts hless hs hq
  have hs1 : Sound {st with heap} := hs.with_heap hheap
  unfold getAssignment
  rw [hl]
  cases found with
  | some r =>
    refine ⟨some r,_,rfl,hs1,fun v hv => ?_,nofun,.refl⟩
    cases hv
    have hbound : bound {st with heap} = st.bound := hheap.bound
    rw [hbound]
    exact hfound r rfl
  | none =>
    have hkey := hkey rfl
    cases hask : impl.computeInitialValues q (findSymbolicObjects key) st.solver with
    | mk answer solver =>
      have hs2 : Sound {st with heap, solver} := hs1.with_solver solver
      have hasked : Asked impl st.solver solver := .single ⟨q,_,congrArg Prod.snd hask⟩
      cases answer with
      | none =>
        exact ⟨none,_,by simp [hask],hs2,nofun,
          fun _ => ⟨_,q,_,.refl,rfl,congrArg Prod.fst hask⟩,hasked⟩
      | some answer =>
        have hcorrect := himpl.initialValues q (findSymbolicObjects key) st.solver answer
          hq.posed (by rw [hask])
        cases answer with
        | none =>
          have hnone : ¬Attains (conds q.constraints) q.expr 0 := hcorrect
          refine ⟨some none,_,by simp [hask]; rfl,hs2.insert (r := none) (hkey.known hnone),?_,
            nofun,hasked⟩
          intro v hv
          cases hv
          exact hnone
        | some values =>
          obtain ⟨hlen,a,hC,h0,hval⟩ := hcorrect
          have hsat := satisfies_ofValues hlen hval ((hkey.satisfies a).mpr ⟨hC,h0⟩)
          obtain ⟨hclosed,hempty⟩ := closed_ofValues (fun arr => isSymbolicArray_of_mem) hlen
          obtain ⟨id,st',hmemo,hs',hknown,hsolver⟩ := memoize_spec lessThan hs2 hclosed hempty
          refine ⟨some (some id),_,by simp [hask,hmemo]; rfl,hs'.insert (hknown key hsat),?_,nofun,
            by simpa only [hsolver] using hasked⟩
          intro v hv
          cases hv
          exact hkey.answered (hknown key hsat)

lemma evaluateAt_spec (hs : st.Sound) {b : Bindings} (hb : st.bound[id]? = some b)
    (he : ∀ a, e.Settled a) :
    (∀ v st', evaluateAt st id e = some (v,st') → .constant v = e.value b.assignment ∧
      st'.Sound ∧ st'.solver = st.solver) ∧ (e.Conforms (.divides b.assignment) →
        (evaluateAt st id e).isSome) := by
  obtain ⟨c,hc,-,ha⟩ := hs.heap.get hb
  have hmem := mem_of_getElem? hc
  obtain ⟨r,cache,hev,hcache,hconst,hdivides⟩ :=
    (hs.heap.closed c hmem).evaluate_spec (hs.heap.exact c hmem) (he c.assignment)
  have heap' := hs.heap.set hc hcache
  rw [ha] at hconst hdivides
  unfold evaluateAt
  rw [hc]
  simp only [bind_eq_bind,bind_some,hev]
  cases r with
  | constant v =>
    refine ⟨fun v' st' h => ?_,fun _ => rfl⟩
    cases h
    exact ⟨hconst rfl,hs.with_heap heap',rfl⟩
  | _ => exact ⟨fun _ _ h => (by cases h),fun h => by cases hdivides h⟩

def Answers {α : Type} (t fails : Prop) (P : α → Prop)
    (o : Option (Option α × CexCachingSolver σ)) : Prop :=
  (∀ r st, o = some (r,st) → Sound st ∧ (∀ v, r = some v → P v) ∧ (r = none → fails)) ∧
    (t → o.isSome = true)

variable {fails : Prop}

lemma Answers.return {r : Option α} (hs : st.Sound) (h : ∀ v, r = some v → P v)
    (hnone : r = none → fails) : Answers t fails P (some (r,st)) := by
  refine ⟨fun r' st' h' => ?_,fun _ => rfl⟩
  cases h'
  exact ⟨hs,h,hnone⟩

lemma Answers.stop (h : ¬t) : Answers t fails P (none : Option (Option α × CexCachingSolver σ)) :=
  ⟨nofun,fun ht => absurd ht h⟩

end CexCachingSolver

structure Solvable (C : List Expr) (e : Expr) : Prop where
  satisfiable : Satisfiable C
  divides : ∀ a : Assignment, a.Satisfies C → e.Conforms (.divides a)

def SolverCall.Solvable {M : Type} (conds : M → List Expr) : SolverCall M → Prop
  | .validity q | .value q => S2E.Solvable (conds q.constraints) q.expr
  | .truth _ | .initialValues _ _ => True

def SolverCall.query {M : Type} : SolverCall M → Query M
  | .validity q | .truth q | .value q | .initialValues q _ => q

def SolverCall.Settled {M : Type} (conds : M → List Expr) : SolverCall M → Prop
  | .validity q | .truth q | .value q | .initialValues q _ =>
    (∀ a, q.expr.Settled a) ∧ CexCachingSolver.AllSettled (conds q.constraints)

namespace CexCachingSolver
variable {M σ : Type} {opts : CexOptions} {less : Expr → Expr → Bool}
  {lessThan : Concolics → Concolics → Bool} {impl : SolverImpl M σ} {conds : M → List Expr}
  {st : CexCachingSolver σ} {q : Query M} {fails : Prop}

/-- The solver below fails, or the experimental option gives up on the truth of an expression that
is known to be false. -/
def Fails (opts : CexOptions) (impl : SolverImpl M σ) (conds : M → List Expr) (s : σ)
    (c : SolverCall M) : Prop :=
  Refuses impl s c.query.constraints ∨ opts.cexCacheExperimental = true ∧
    ∃ q, c = .truth q ∧ Refuted (conds q.constraints) q.expr

lemma proper_false (h : AllSettled C) : Proper C (alloc 0 1) where
  posed := ⟨⟨by decide,rfl⟩,fun _ _ => trivial⟩
  settled _ := ⟨by decide,.inl trivial⟩
  constraints := h

lemma Proper.createIsZero {n : Expr} (h : Proper C e)
    (hn : e.createIsZero = some n) : Proper C n := by
  obtain ⟨n',hn',hp,-⟩ := h.posed.createIsZero
  cases some.inj (hn.symm.trans hn')
  exact ⟨hp,fun a => (h.settled a).createIsZero hn,h.constraints⟩

variable {B : List Bindings}

lemma answered_false (h : Answered B C (alloc 0 1) r) : (r = none → ¬Satisfiable C) ∧
      ∀ id, r = some id → ∃ b, B[id]? = some b ∧ b.assignment.Satisfies C := by
  refine ⟨fun hr => ?_,fun id hr => ?_⟩
  · subst hr
    exact fun ⟨a,ha⟩ => h ⟨a,ha,rfl⟩
  · subst hr
    obtain ⟨b,hb,ha,-⟩ := h
    exact ⟨b,hb,ha⟩

lemma Answered.attains (h : Answered B C e (some id)) : Attains C e 0 := by
  obtain ⟨b,-,ha,h0⟩ := h
  exact ⟨b.assignment,ha,h0⟩

lemma bytesOf_eq {c : Concolics} (hc : c.Closed) (arr : ArrayObj) :
    (bytesOf c arr).length = arr.size ∧
      ∀ i, i < arr.size → c.assignment arr i = (bytesOf c arr).getD i 0 := by
  unfold bytesOf assignment
  cases hl : c.bindings.lookup arr with
  | some bytes => exact ⟨(hc.bound hl).2,fun _ _ => rfl⟩
  | none =>
    refine ⟨length_replicate,fun i hi => ?_⟩
    simp [getD_eq_getElem?_getD,hi]

lemma snd_of_mem_zip_map {β : Type} {f : α → β} {p : α × β} :
    {l : List α} → p ∈ l.zip (l.map f) → p.2 = f p.1
  | x :: l, h => by
    rw [map_cons,zip_cons_cons] at h
    rcases mem_cons.mp h with rfl | h
    · rfl
    · exact snd_of_mem_zip_map h

section Methods
variable (hless : Discerns less) (himpl : impl.Correct conds) (hs : st.Sound)
include hless himpl hs

lemma evaluated_spec {f : APInt × CexCachingSolver σ → Option (Option α × CexCachingSolver σ)}
    (he : ∀ a, q.expr.Settled a) (hC : AllSettled (conds q.constraints))
    (hfails : Refuses impl st.solver q.constraints → fails)
    (hf : ∀ (b : Bindings) v st', st'.Sound → b.assignment.Satisfies (conds q.constraints) →
      .constant v = q.expr.value b.assignment →
      (Refuses impl st'.solver q.constraints → fails) →
      Answers (Solvable (conds q.constraints) q.expr) fails P (f (v,st'))) :
    Answers (Solvable (conds q.constraints) q.expr) fails P (do
      match ← getAssignment opts less lessThan impl conds st q.withFalse with
      | (none,st) => some (none,st)
      | (some none,_) => none
      | (some (some a),st) => (evaluateAt st a q.expr).bind f) := by
  obtain ⟨r,st',h,hs',hr,hnone,hasked⟩ := getAssignment_spec (q := q.withFalse) opts lessThan hless
    himpl hs (proper_false hC)
  rw [h]
  cases r with
  | none => exact .return hs' nofun fun _ => hfails (hnone rfl)
  | some r =>
    obtain ⟨hnone,hsome⟩ := answered_false (hr r rfl)
    cases r with
    | none => exact .stop fun ht => hnone rfl ht.satisfiable
    | some id =>
      obtain ⟨b,hb,hsat⟩ := hsome id rfl
      obtain ⟨hval,hdiv⟩ := evaluateAt_spec hs' hb he
      simp only [bind_eq_bind,bind_some]
      cases hev : evaluateAt st' id q.expr with
      | none =>
        refine .stop fun ht => ?_
        have := hdiv (ht.divides _ hsat)
        rw [hev] at this
        cases this
      | some p =>
        obtain ⟨hv,hs'',hsolver⟩ := hval p.1 p.2 hev
        exact hf b p.1 p.2 hs'' hsat hv fun h => hfails ((hsolver ▸ h).of_asked hasked)

lemma computeValue_spec (he : ∀ a, q.expr.Settled a) (hC : AllSettled (conds q.constraints)) :
    Answers (Solvable (conds q.constraints) q.expr) (Refuses impl st.solver q.constraints)
      (CorrectValue (conds q.constraints) q.expr)
      (computeValue opts less lessThan impl conds st q) := by
  refine evaluated_spec hless himpl hs he hC id fun b v st' hs' hsat hv _ => ?_
  refine .return hs' (fun result hresult => ?_) nofun
  cases hresult
  exact ⟨b.assignment,hsat,hv⟩

variable (hq : Proper (conds q.constraints) q.expr)
include hq

lemma truth_spec : Answers True (Fails opts impl conds st.solver (.truth q))
      (CorrectTruth (conds q.constraints) q.expr) (do
      let (a,st) ← getAssignment opts less lessThan impl conds st q
      some (a.map isNone,st)) := by
  obtain ⟨r,st',h,hs',hr,hnone,-⟩ := getAssignment_spec opts lessThan hless himpl hs hq
  rw [h]
  refine .return hs' (fun b hb => ?_) fun hb => .inl (hnone (map_eq_none_iff.mp hb))
  obtain ⟨v,hv,rfl⟩ := map_eq_some_iff.mp hb
  have ha := hr v hv
  unfold CorrectTruth
  cases v with
  | none => simpa using hq.posed.valid_of_not_attains ha
  | some id => simpa using hq.posed.not_valid_iff.mpr ha.attains

lemma computeTruth_spec : Answers True (Fails opts impl conds st.solver (.truth q))
      (CorrectTruth (conds q.constraints) q.expr)
      (computeTruth opts less lessThan impl conds st q) := by
  unfold computeTruth
  split
  next hexp =>
    obtain ⟨n,hn,-,-⟩ := hq.posed.createIsZero
    have hneg : q.negateExpr = some (q.withExpr n) := by rw [Query.negateExpr,hn]; rfl
    have hproper : Proper (conds (q.withExpr n).constraints) (q.withExpr n).expr :=
      hq.createIsZero hn
    obtain ⟨key,found,heap,hl,hheap,hfound,-⟩ := lookupAssignment_spec opts hless hs hproper
    simp only [hneg,hl,bind_eq_bind,bind_some]
    split
    next hknown =>
      refine .return (hs.with_heap hheap) (fun _ h => by cases h) fun _ => .inr ⟨hexp,q,rfl,?_⟩
      -- no assignment for the negation: the expression can only be zero
      have hno : ¬Attains (conds q.constraints) n 0 := hfound none (eq_of_beq hknown)
      refine not_not.mp fun hr => hno ?_
      obtain ⟨a,ha,h1⟩ := hq.posed.not_refuted_iff.mp hr
      exact ⟨a,ha,(hq.posed.createIsZero_zero hn ha).mpr h1⟩
    · exact truth_spec hless himpl (hs.with_heap hheap) hq
  · exact truth_spec hless himpl hs hq

lemma computeInitialValues_spec (objects : List ArrayObj) :
    Answers True (Refuses impl st.solver q.constraints)
      (CorrectInitialValues (conds q.constraints) q.expr objects)
      (computeInitialValues opts less lessThan impl conds st q objects) := by
  obtain ⟨r,st',h,hs',hr,hnone,-⟩ := getAssignment_spec opts lessThan hless himpl hs hq
  unfold computeInitialValues
  rw [h]
  cases r with
  | none => exact .return hs' nofun fun _ => hnone rfl
  | some r =>
    have ha := hr r rfl
    cases r with
    | none =>
      refine .return hs' (fun v hv => ?_) nofun
      cases hv
      exact ha
    | some id =>
      obtain ⟨b,hb,hC,h0⟩ := ha
      obtain ⟨c,hc,-,hcb⟩ := hs'.heap.get hb
      have hclosed := hs'.heap.closed c (mem_of_getElem? hc)
      simp only [bind_eq_bind,bind_some,hc]
      refine .return hs' (fun v hv => ?_) nofun
      cases hv
      refine ⟨?_,c.assignment,hcb ▸ hC,hcb ▸ h0,fun p hp i hi => ?_⟩
      · rw [List.map_map]
        exact map_congr_left fun arr _ => (bytesOf_eq hclosed arr).1
      · rw [snd_of_mem_zip_map hp]
        exact (bytesOf_eq hclosed p.1).2 i hi

lemma validity_spec {P : Validity → Prop} {known : Validity}
    (hnone : ¬Attains (conds q.constraints) q.expr 0 → P known)
    (hsome : Attains (conds q.constraints) q.expr 0 → P .unknown)
    (hfails : Refuses impl st.solver q.constraints → fails) : Answers t fails P (do
      let (a,st) ← getAssignment opts less lessThan impl conds st q
      some (a.map fun a => if a.isNone then known else .unknown,st)) := by
  obtain ⟨r,st',h,hs',hr,hn,-⟩ := getAssignment_spec opts lessThan hless himpl hs hq
  rw [h]
  refine .return hs' (fun v hv => ?_) fun hv => hfails (hn (map_eq_none_iff.mp hv))
  obtain ⟨x,hx,rfl⟩ := map_eq_some_iff.mp hv
  have ha := hr x hx
  cases x with
  | none => exact hnone ha
  | some id => exact hsome ha.attains

lemma computeValidity_spec : Answers (Solvable (conds q.constraints) q.expr)
      (Refuses impl st.solver q.constraints) (Validity.Correct (conds q.constraints) q.expr)
      (computeValidity opts less lessThan impl conds st q) := by
  refine evaluated_spec hless himpl hs hq.settled hq.constraints id
    fun b v st' hs' hsat hv hfails => ?_
  have hwf := hq.posed.boolean.1
  dsimp only
  split
  next ht =>
    have h1 : q.expr.eval b.assignment = 1 := by
      refine eval_of_isTrue_value hwf ?_
      rw [← hv]
      exact ht
    refine validity_spec hless himpl hs' hq ?_ ?_ hfails
    · exact hq.posed.valid_of_not_attains
    · exact fun h0 => ⟨⟨_,hsat,h1⟩,h0⟩
  next ht =>
    have h0 : q.expr.eval b.assignment = 0 := by
      refine hq.posed.boolean.eval_ne_one fun h1 => ht ?_
      have hvv : v = APInt.ofNat q.expr.width (q.expr.eval b.assignment) := constant.inj hv
      rw [hvv,h1,hq.posed.boolean.2]
      rfl
    obtain ⟨n,hn,hposed,hone⟩ := hq.posed.createIsZero
    have hneg : q.negateExpr = some (q.withExpr n) := by rw [Query.negateExpr,hn]; rfl
    simp only [hneg,bind_eq_bind,bind_some]
    refine validity_spec (q := q.withExpr n) hless himpl hs' (hq.createIsZero hn) ?_ ?_ hfails
    · exact fun hno a ha => (hone a ha).mp (hposed.valid_of_not_attains hno a ha)
    · rintro ⟨a,ha,hzero⟩
      exact ⟨⟨a,ha,(hq.posed.createIsZero_zero hn ha).mp hzero⟩,⟨_,hsat,h0⟩⟩

end Methods

structure Admits (conds : M → List Expr) (call : SolverCall M) : Prop where
  posed : call.Posed conds
  settled : call.Settled conds

lemma Answers.toAnswer {f : α → SolverAnswer}
    {call : SolverCall M} {o : Option (Option α × CexCachingSolver σ)} (h : Answers t fails P o)
    {fails' : Prop} (hfails : fails → fails') (hf : ∀ v, P v → call.Correct conds fails' (f v)) :
    (∀ a st', toAnswer f o = some (a,st') → st'.Sound ∧ call.Correct conds fails' a) ∧
      (t → (toAnswer f o).isSome) := by
  refine ⟨fun a st' ha => ?_,fun ht => ?_⟩
  · obtain ⟨⟨r,st''⟩,hr,heq⟩ := map_eq_some_iff.mp ha
    cases heq
    obtain ⟨hs,hP,hnone⟩ := h.1 r st'' hr
    refine ⟨hs,?_⟩
    cases r with
    | none => cases call <;> exact hfails (hnone rfl)
    | some v => exact hf v (hP v rfl)
  · rw [CexCachingSolver.toAnswer,isSome_map]
    exact h.2 ht

lemma call_spec (opts : CexOptions) (lessThan : Concolics → Concolics → Bool)
    (hless : Discerns less) (himpl : impl.Correct conds) (hs : st.Sound)
    {c : SolverCall M} (hc : Admits conds c) :
    (∀ a st', call opts less lessThan impl conds st c = some (a,st') →
      st'.Sound ∧ c.Correct conds (Fails opts impl conds st.solver c) a) ∧
    (c.Solvable conds → (call opts less lessThan impl conds st c).isSome) := by
  obtain ⟨hposed,hsettled⟩ := hc
  cases c with
  | validity q =>
    exact (computeValidity_spec hless himpl hs ⟨hposed,hsettled.1,hsettled.2⟩).toAnswer .inl
      fun _ h => h
  | truth q =>
    exact (computeTruth_spec hless himpl hs ⟨hposed,hsettled.1,hsettled.2⟩).toAnswer id
      fun _ h => h
  | value q =>
    exact (computeValue_spec hless himpl hs hsettled.1 hsettled.2).toAnswer .inl fun _ h => h
  | initialValues q objects =>
    exact (computeInitialValues_spec hless himpl hs ⟨hposed,hsettled.1,hsettled.2⟩
      objects).toAnswer .inl fun _ h => h

lemma sound_create (solver : σ) : (create solver).Sound where
  heap := ⟨rfl,nofun,nofun⟩
  stored path r h := absurd h (MapOfSets.Node.not_stored_empty path r)
  table _ h := nomatch h

lemma run_spec (hless : Discerns less) (himpl : impl.Correct conds) {calls : List (SolverCall M)}
    (hcalls : ∀ c ∈ calls, Admits conds c) (hs : st.Sound) :
    (∀ answers st', run opts less lessThan impl conds st calls = some (answers,st') →
      ∀ p ∈ answers, p.call.Correct conds (Fails opts impl conds p.solver p.call) p.answer) ∧
      ((∀ c ∈ calls, c.Solvable conds) →
      (run opts less lessThan impl conds st calls).isSome) := by
  induction calls generalizing st with
  | nil =>
    refine ⟨fun answers st' h p hp => ?_,fun _ => rfl⟩
    cases h
    cases hp
  | cons c calls ih =>
    obtain ⟨hright,hreturns⟩ := call_spec opts lessThan hless himpl hs
      (hcalls c mem_cons_self)
    have hrest := fun (st' : CexCachingSolver σ) (hs' : st'.Sound) =>
      ih (fun d hd => hcalls d (mem_cons_of_mem c hd)) hs'
    unfold run
    cases hcall : call opts less lessThan impl conds st c with
    | none =>
      refine ⟨nofun,fun h => ?_⟩
      have := hreturns (h c mem_cons_self)
      rw [hcall] at this
      cases this
    | some p =>
      obtain ⟨a,st1⟩ := p
      obtain ⟨hs1,ha⟩ := hright a st1 hcall
      obtain ⟨hr1,hr2⟩ := hrest st1 hs1
      simp only [bind_eq_bind,bind_some]
      cases hrun : run opts less lessThan impl conds st1 calls with
      | none =>
        refine ⟨nofun,fun h => ?_⟩
        have := hr2 fun d hd => h d (mem_cons_of_mem c hd)
        rw [hrun] at this
        cases this
      | some p =>
        obtain ⟨rest,st2⟩ := p
        refine ⟨fun answers st' h => ?_,fun _ => rfl⟩
        cases h
        intro p hp
        rcases mem_cons.mp hp with rfl | hp
        · exact ha
        · exact hr1 rest st2 hrun p hp

def byteOf (id : Nat) : Expr := .read (.root (.symbolic id 1 one_fits)) (ConstantExpr.alloc 0 32)

/-- The quotient of five by a byte, and its bits from a position on that is near the end of
the 64-bit range when the other byte is large. -/
def quotient : Expr := .binary .udiv (ConstantExpr.alloc 5 64) (.zext (byteOf 0) 64)

def shiftedQuotient : Expr := .binary .lshr quotient (.sext (byteOf 1) 64)

/-- Sixteen bits beyond the quotient against eight of them below its lowest byte. -/
def bitsAgree : Expr := .binary .eq (.extract shiftedQuotient 0 16)
  (.concat (.extract quotient 0 8) (.extract shiftedQuotient 0 8))

def isLarge : Expr := .binary .eq (ConstantExpr.alloc 0xf8 8) (byteOf 1)

def largeConds : Bool → List Expr
  | false => [isLarge]
  | true => [isLarge,bitsAgree]

def largeSolver : SolverImpl Bool Unit where
  computeValidity _ _ := (none,())
  computeTruth _ _ := (none,())
  computeValue _ _ := (none,())
  computeInitialValues q objects _ := (if q.constraints = false ∧ q.expr = ConstantExpr.alloc 0 1 ∧
      objects = [.symbolic 1 1 one_fits] then some (some [[0xf8]]) else none,())

lemma largeSolver_correct : largeSolver.Correct largeConds where
  validity _ _ _ _ h := nomatch h
  truth _ _ _ _ h := nomatch h
  value _ _ _ _ _ h := nomatch h
  initialValues q objects _ r _ h := by
    simp only [largeSolver] at h
    split at h
    next hq =>
      obtain ⟨hc,he,rfl⟩ := hq
      cases h
      rw [hc,he]
      refine ⟨rfl,fun _ _ => 0xf8,fun c hmem => ?_,rfl,fun p hp i hi => ?_⟩
      · rw [mem_singleton.mp hmem]
        decide
      · rw [mem_singleton.mp hp] at hi ⊢
        obtain rfl : i = 0 := Nat.lt_one_iff.mp hi
        rfl
    · cases h

lemma initial_oneByte {b : Assignment} (hsize : arr.size = 1)
    (h : a arr 0 = b arr 0) (i : Nat) : arr.initial a i = arr.initial b i := by
  refine ArrayObj.initial_congr fun _ hi => ?_
  obtain rfl : i = 0 := by omega
  exact h

lemma eval_bitsAgree (hx : a (.symbolic 0 1 (by decide)) 0 = 0)
    (hy : a (.symbolic 1 1 (by decide)) 0 = 0xf8) : bitsAgree.eval a = 0 := by
  have hb : bitsAgree.eval (fun arr _ => if arr.id = 0 then 0 else 0xf8) = 0 := by decide +kernel
  rw [← hb]
  refine (bitsAgree.congr_of_mentions (S := .inBounds) fun arr hm i => ?_).1
  simp only [bitsAgree,shiftedQuotient,quotient,byteOf,mentions,UpdateList.mentions,
    alloc,Bool.or_eq_true,decide_eq_true_eq,Bool.false_eq_true,or_false,
    false_or] at hm
  rcases hm with (rfl | rfl) | rfl | rfl | rfl
  · exact initial_oneByte rfl hx i
  · exact initial_oneByte rfl hy i
  · exact initial_oneByte rfl hx i
  · exact initial_oneByte rfl hx i
  · exact initial_oneByte rfl hy i

deriving instance DecidableEq for SolverAnswer

end CexCachingSolver
end S2E
