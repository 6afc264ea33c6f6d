import S2E.Core.Searcher
import S2E.Lib.Runs

/-!
`CUPASearcher.cpp`: a tree of searchers. Each level sorts the states by one class and hands them
to a searcher of the next level that it makes when a class gets its first state.
-/

namespace S2E
open Std List Function Maps

inductive CupaClass where
  | seed
  | batch
  | pc
  | pageDir
  | forkCount
  | priority
  | readCount
  | random
  | group
  deriving DecidableEq

structure CupaLookup where
  running : Bool
  id : UInt64 → UInt32
  pc : UInt64 → UInt64
  pageDir : UInt64 → UInt64
  symbolicReadsCount : UInt64 → UInt64
  priority : UInt64 → Option UInt64
  group : UInt64 → Option UInt64

/-- The fields of `CUPASearcherClass` and of the classes derived from it, over the searchers of
the next level. -/
structure CupaSearcherClass (D : Type) where
  stateClasses : TreeMap UInt64 UInt64 := ∅
  searchers : TreeMap UInt64 D := ∅
  states : TreeSet UInt64 := ∅
  /-- The map of a fork count class, by page directory and program counter. -/
  forkCounts : UInt64 × UInt64 → UInt64 := fun _ => 0
  state : Option UInt64 := none
  lastSelectedTime : Int := 0

namespace CupaSearcherClass
variable {D : Type} (S : Searcher CupaLookup D) (c : CupaClass) (e : CupaLookup)

variable (t : CupaSearcherClass D)

def getClass (state : UInt64) : CupaSearcherClass D × UInt64 :=
  match c with
  | .batch => (t,0)
  | .priority => (t,(e.priority state).getD 0)
  | .group => (t,(e.group state).getD 0)
  -- a random class has its own update and is never asked
  | .random => (t,0)
  | .seed => (t,if e.running then if e.id state = 0 then 0 else 1 else 0)
  | .pc => (t,if e.running then e.pc state else 0)
  | .pageDir => (t,if e.running then e.pageDir state else 0)
  | .readCount => (t,if e.running then e.symbolicReadsCount state else 0)
  | .forkCount =>
    if e.running then
      let p := (e.pageDir state,e.pc state)
      let count := t.forkCounts p
      ({t with forkCounts := fun q => if q = p then count+1 else t.forkCounts q},
        if 10 < count then 1 else 0)
    else (t,0)

def doAddState (state stateClass : UInt64) : Option (CupaSearcherClass D) :=
  let searcher := t.searchers[stateClass]?.getD S.create
  if state ∈ t.stateClasses then none
  else (S.addState e searcher state).map fun searcher => { t with
    stateClasses := t.stateClasses.insert state stateClass
    searchers := t.searchers.insert stateClass searcher}

def doRemoveState (state : UInt64) : Option (CupaSearcherClass D) :=
  match t.stateClasses[state]? with
  | none => some t
  | some stateClass =>
    t.searchers[stateClass]?.bind fun searcher =>
      (S.removeState e searcher state).map fun searcher => { t with
        stateClasses := t.stateClasses.erase state
        searchers := if S.empty searcher then t.searchers.erase stateClass
          else t.searchers.insert stateClass searcher}

def addNew (state : UInt64) : Option (CupaSearcherClass D) :=
  if state ∈ t.stateClasses then some t
  else
    let r := t.getClass c e state
    r.1.doAddState S e state r.2

def updateClasses (added removed : List UInt64) : Option (CupaSearcherClass D) :=
  (added.foldlM (addNew S c e) t).bind fun t => removed.foldlM (doRemoveState S e) t

def update (added removed : List UInt64) : Option (CupaSearcherClass D) :=
  match c with
  | .random => some {t with states := removed.foldl .erase (added.foldl .insert t.states)}
  | .batch =>
    let t := if t.state.any (· ∈ removed) then {t with state := none} else t
    t.updateClasses S c e added removed
  | c => t.updateClasses S c e added removed

def empty : Bool :=
  match c with
  | .random => t.states.isEmpty
  | _ => t.searchers.isEmpty

def selectClass (random : Nat) (t : CupaSearcherClass D) : Option UInt64 :=
  let uniform := t.searchers.keys[random%t.searchers.size]?
  match c with
  | .pc | .pageDir | .group | .random => uniform
  -- the unique state in class 0 only if it is the only one
  | .seed => if (1 : UInt64) ∈ t.searchers then some 1 else uniform
  | .readCount => t.searchers.keys.head?
  | .forkCount => if t.searchers.size ≤ 2 then t.searchers.keys.head? else none
  | .priority | .batch => t.searchers.keys.getLast?

def selectBelow (choices : Choices) (t : CupaSearcherClass D) :
    Option (UInt64 × CupaSearcherClass D) :=
  (t.selectClass c (choices.random 0)).bind fun k => t.searchers[k]?.bind fun searcher =>
    (S.selectState {choices with random := fun n => choices.random (n+1)} searcher).map
      fun r => (r.1, {t with searchers := t.searchers.insert k r.2})

def selectState (batchTime : Int) (choices : Choices) (t : CupaSearcherClass D) :
    Option (UInt64 × CupaSearcherClass D) :=
  match c with
  | .random =>
    if t.states.isEmpty then t.selectBelow S c choices
    else t.states.toList[choices.random 0%t.states.size]?.map (·,t)
  | .batch =>
    let again := (t.selectBelow S c choices).map fun r =>
      (r.1, {r.2 with state := some r.1, lastSelectedTime := choices.now})
    match t.state with
    | some a => if choices.now-t.lastSelectedTime < batchTime then some (a,t) else again
    | none => again
  | c => t.selectBelow S c choices

end CupaSearcherClass

def cupaSearcherClass {D : Type} (batchTime : Int) (c : CupaClass) (S : Searcher CupaLookup D) :
    Searcher CupaLookup (CupaSearcherClass D) where
  create := {}
  update e t added removed := t.update S c e added removed
  empty t := t.empty c
  selectState choices t := t.selectState S c batchTime choices

namespace CupaSearcher

def Data (useRandomSearch : Bool) : List CupaClass → Type
  | [] => UserSearcher useRandomSearch
  | _ :: classes => CupaSearcherClass (Data useRandomSearch classes)

def createSearcher (useRandomSearch : Bool) (batchTime : Int) :
    (classes : List CupaClass) → Searcher CupaLookup (Data useRandomSearch classes)
  | [] => constructUserSearcher CupaLookup useRandomSearch
  | c :: classes => cupaSearcherClass batchTime c (createSearcher useRandomSearch batchTime classes)

end CupaSearcher

namespace CupaSearcherClass
variable {D : Type}

def contents (c : CupaClass) (C : Contents D) : Contents (CupaSearcherClass D) where
  leaves t :=
    if c = .random then t.states.toList.map ([],·)
    else t.searchers.toList.flatMap fun d => (C.leaves d.2).map fun x => (d.1 :: x.1,x.2)
  recorded t a :=
    if c = .random then some []
    else t.stateClasses[a]?.bind fun k => t.searchers[k]?.bind fun d =>
      (C.recorded d a).map (k :: ·)
  Compact t := c ≠ .random →
    ∀ (k : UInt64) (d : D), t.searchers[k]? = some d → C.leaves d ≠ [] ∧ C.Compact d

def child (S : Searcher CupaLookup D) (m : TreeMap UInt64 D) (k : UInt64) : D :=
  m[k]?.getD S.create

variable {S : Searcher CupaLookup D} {C : Contents D} {m : TreeMap UInt64 D}
variable {t t' : CupaSearcherClass D} {c : CupaClass} {a b k : UInt64} {d : D} {e : CupaLookup}

lemma child_of_getElem? (h : m[k]? = some d) : child S m k = d := by
  rw [child,h,Option.getD_some]

lemma child_insert (k' : UInt64) :
    child S (m.insert k d) k' = if k' = k then d else child S m k' := getD_insert _

lemma child_erase (k' : UInt64) :
    child S (m.erase k) k' = if k' = k then S.create else child S m k' := getD_erase _

/-- The recorded class of a state is the one whose searcher has it, and every searcher has some
state. -/
structure Inv (L : Lawful S C) (c : CupaClass) (t : CupaSearcherClass D) : Prop where
  inv : ∀ k, L.Inv (child S t.searchers k)
  recorded : ∀ k a : UInt64, C.Holds (child S t.searchers k) a ↔ t.stateClasses[a]? = some k
  inhabited : ∀ k ∈ t.searchers, ∃ a : UInt64, t.stateClasses[a]? = some k
  two : c = .forkCount → ∀ k ∈ t.searchers, k = 0 ∨ k = 1

variable {L : Lawful S C}

lemma Inv.mem_searchers (h : t.Inv L c) (ha : t.stateClasses[a]? = some k) : k ∈ t.searchers := by
  by_contra hk
  have hholds := (h.recorded k a).mpr ha
  rw [child,TreeMap.getElem?_eq_none hk,Option.getD_none] at hholds
  exact L.create.2 a hholds

lemma Inv.getElem? (h : t.Inv L c) (hk : k ∈ t.searchers) :
    ∃ d, t.searchers[k]? = some d ∧ L.Inv d ∧ ∀ a, C.Holds d a ↔ t.stateClasses[a]? = some k := by
  obtain ⟨d,hd⟩ := mem_iff.mp hk
  have hchild : child S t.searchers k = d := child_of_getElem? hd
  exact ⟨d,hd,hchild ▸ h.inv k,fun a => hchild ▸ h.recorded k a⟩

lemma map_snd_leaves (hc : c ≠ .random) : ((contents c C).leaves t).map Prod.snd =
    t.searchers.toList.flatMap fun d => (C.leaves d.2).map Prod.snd := by
  simp [contents,hc,map_flatMap,comp_def]

lemma Inv.holds (h : t.Inv L c) (hc : c ≠ .random) :
    (contents c C).Holds t a ↔ a ∈ t.stateClasses := by
  rw [Contents.Holds,map_snd_leaves hc,mem_flatMap,mem_iff]
  constructor
  · rintro ⟨⟨k,d⟩,hd,ha⟩
    have hd := mem_toList.mp hd
    exact ⟨k,(h.recorded k a).mp (child_of_getElem? (S := S) hd ▸ ha)⟩
  · rintro ⟨k,hk⟩
    obtain ⟨d,hd,-,hholds⟩ := h.getElem? (h.mem_searchers hk)
    exact ⟨(k,d),mem_toList.mpr hd,(hholds a).mpr hk⟩

lemma Inv.kept (h : t.Inv L c) (hc : c ≠ .random) : (contents c C).Kept t where
  nodup := by
    rw [map_snd_leaves hc,nodup_flatMap]
    refine ⟨fun d hd => ?_,?_⟩
    · have hd := mem_toList.mp hd
      exact (L.kept (child_of_getElem? (S := S) hd ▸ h.inv d.1)).nodup
    -- a state in two searchers would have two classes
    · refine TreeMap.distinct_keys_toList.imp_of_mem fun {x y} hx hy hne a hax hay => ?_
      have hax := (h.recorded x.1 a).mp (child_of_getElem? (S := S) (mem_toList.mp hx) ▸ hax)
      have hay := (h.recorded y.1 a).mp (child_of_getElem? (S := S) (mem_toList.mp hy) ▸ hay)
      rw [hax,Option.some_inj] at hay
      exact hne (LawfulEqCmp.compare_eq_iff_eq.mpr hay)
  recorded := by
    intro x hx
    simp only [contents,if_neg hc,mem_flatMap,mem_map] at hx ⊢
    obtain ⟨⟨k,d⟩,hd,y,hy,rfl⟩ := hx
    have hd := mem_toList.mp hd
    have hchild : child S t.searchers k = d := child_of_getElem? hd
    have hclass : t.stateClasses[y.2]? = some k :=
      (h.recorded k y.2).mp (hchild ▸ mem_map_of_mem hy)
    rw [hclass,Option.bind_some,hd,Option.bind_some,(L.kept (hchild ▸ h.inv k)).recorded y hy]
    rfl
  compact := by
    intro _ k d hd
    obtain ⟨d',hd',hinv,hholds⟩ := h.getElem? (mem_iff.mpr ⟨d,hd⟩)
    cases hd.symm.trans hd'
    obtain ⟨a,ha⟩ := h.inhabited k (mem_iff.mpr ⟨d,hd⟩)
    refine ⟨fun hnil => ?_,(L.kept hinv).compact⟩
    have := (hholds a).mpr ha
    rw [Contents.Holds,hnil] at this
    cases this

lemma Inv.change (h : t.Inv L c) {classes : TreeMap UInt64 UInt64} {m : TreeMap UInt64 D}
    (hchild : ∀ k', child S m k' = if k' = k then d else child S t.searchers k')
    (hinv : L.Inv d) (hholds : ∀ b, C.Holds d b ↔ classes[b]? = some k)
    (hothers : ∀ (k' b : UInt64), k' ≠ k → (classes[b]? = some k' ↔ t.stateClasses[b]? = some k'))
    (hm : ∀ k' ∈ m, k' ≠ k → k' ∈ t.searchers)
    (hk : k ∈ m → (∃ b, C.Holds d b) ∧ (c = .forkCount → k = 0 ∨ k = 1)) :
    Inv L c {t with stateClasses := classes, searchers := m} where
  inv k' := by
    rw [hchild]
    split
    · exact hinv
    · exact h.inv k'
  recorded k' b := by
    rw [hchild]
    split
    next hk' =>
      rw [hk',hholds]
    · rw [h.recorded,hothers k' b ‹_›]
  inhabited k' hk' := by
    by_cases hne : k' = k
    · subst hne
      obtain ⟨b,hb⟩ := (hk hk').1
      exact ⟨b,(hholds b).mp hb⟩
    · obtain ⟨b,hb⟩ := h.inhabited k' (hm k' hk' hne)
      exact ⟨b,(hothers k' b hne).mpr hb⟩
  two hc k' hk' := by
    by_cases hne : k' = k
    · subst hne
      exact (hk hk').2 hc
    · exact h.two hc k' (hm k' hk' hne)

lemma mem_of_mem_insert (k' : UInt64) (hk' : k' ∈ m.insert k d) (hne : k' ≠ k) : k' ∈ m :=
  (mem_insert.mp hk').resolve_left hne

section
variable (h : t.Inv L c)
include h

lemma Inv.doAddState (ha : a ∉ t.stateClasses) (htwo : c = .forkCount → k = 0 ∨ k = 1) :
    ∃ t', t.doAddState S e a k = some t' ∧ t'.Inv L c ∧ t'.state = t.state ∧
      ∀ b, b ∈ t'.stateClasses ↔ b = a ∨ b ∈ t.stateClasses := by
  have hnone : ∀ k' : UInt64, t.stateClasses[a]? ≠ some k' := fun k' hk' =>
    ha (mem_iff.mpr ⟨k',hk'⟩)
  obtain ⟨d,hd,hinv,hholds⟩ := L.add e (h.inv k) (a := a) fun hh =>
    hnone k ((h.recorded k a).mp hh)
  have hrun : t.doAddState S e a k = some { t with
      stateClasses := t.stateClasses.insert a k, searchers := t.searchers.insert k d} := by
    rw [CupaSearcherClass.doAddState,if_neg ha,← child,hd,Option.map_some]
  refine ⟨_,hrun,h.change child_insert hinv (fun b => ?_) (fun k' b hk' => ?_) mem_of_mem_insert
    fun _ => ⟨⟨a,(hholds a).mpr (.inl rfl)⟩,htwo⟩,rfl,fun b => mem_insert⟩
  · rw [hholds,h.recorded,insert_eq_some]
    by_cases hb : b = a <;> simp [hb]
  · rw [insert_eq_some]
    by_cases hb : b = a <;> simp [hb,hk',hnone]

lemma Inv.doRemoveState :
    ∃ t', t.doRemoveState S e a = some t' ∧ t'.Inv L c ∧ t'.state = t.state ∧
      ∀ b, b ∈ t'.stateClasses ↔ b ≠ a ∧ b ∈ t.stateClasses := by
  unfold CupaSearcherClass.doRemoveState
  split
  next hnone =>
    refine ⟨t,rfl,h,rfl,fun b => ⟨fun hb => ⟨?_,hb⟩,fun hb => hb.2⟩⟩
    rintro rfl
    obtain ⟨k,hk⟩ := mem_iff.mp hb
    exact nomatch hnone.symm.trans hk
  next k hk =>
    obtain ⟨d,hd,hinv,hholds⟩ := h.getElem? (h.mem_searchers hk)
    obtain ⟨d',hd',hinv',hholds'⟩ := L.remove e hinv ((hholds a).mpr hk)
    have hclass : ∀ b, C.Holds d' b ↔ (t.stateClasses.erase a)[b]? = some k := fun b => by
      rw [hholds',hholds,erase_eq_some]
    have hothers : ∀ (k' b : UInt64), k' ≠ k →
        ((t.stateClasses.erase a)[b]? = some k' ↔ t.stateClasses[b]? = some k') := by
      intro k' b hne
      rw [erase_eq_some,and_iff_right_of_imp]
      rintro hb rfl
      exact hne (Option.some_inj.mp (hb.symm.trans hk))
    rw [hd,Option.bind_some,hd',Option.map_some]
    refine ⟨_,rfl,?_,rfl,fun b => mem_erase⟩
    split
    next hempty =>
      have hnone := (L.empty hinv').mp hempty
      refine h.change child_erase L.create.1 (fun b => ?_) hothers
        (fun k' hk' _ => (mem_erase.mp hk').2) fun hk' => absurd rfl (mem_erase.mp hk').1
      exact iff_of_false (L.create.2 b) fun hb => hnone b ((hclass b).mpr hb)
    next hempty =>
      refine h.change child_insert hinv' hclass hothers mem_of_mem_insert
        fun _ => ⟨?_,fun hc => ?_⟩
      · by_contra hnone
        exact hempty ((L.empty hinv').mpr fun b hb => hnone ⟨b,hb⟩)
      · exact h.two hc k (h.mem_searchers hk)

lemma getClass_spec : (t.getClass c e a).1.Inv L c ∧
    (t.getClass c e a).1.stateClasses = t.stateClasses ∧ (t.getClass c e a).1.state = t.state ∧
      (c = .forkCount → (t.getClass c e a).2 = 0 ∨ (t.getClass c e a).2 = 1) := by
  cases c with
  | forkCount =>
    unfold getClass
    dsimp only
    split
    · refine ⟨⟨h.inv,h.recorded,h.inhabited,h.two⟩,rfl,rfl,fun _ => ?_⟩
      dsimp only
      split
      · exact .inr rfl
      · exact .inl rfl
    · exact ⟨h,rfl,rfl,fun _ => .inl rfl⟩
  | seed | batch | pc | pageDir | priority | readCount | random | group =>
    exact ⟨h,rfl,rfl,nofun⟩

lemma Inv.addNew : ∃ t', t.addNew S c e a = some t' ∧ t'.Inv L c ∧ t'.state = t.state ∧
      ∀ b, b ∈ t'.stateClasses ↔ b = a ∨ b ∈ t.stateClasses := by
  unfold CupaSearcherClass.addNew
  split
  next ha =>
    refine ⟨t,rfl,h,rfl,fun b => (or_iff_right_of_imp ?_).symm⟩
    rintro rfl
    exact ha
  next ha =>
    obtain ⟨hinv,hclasses,hstate,htwo⟩ := getClass_spec (e := e) (a := a) h
    obtain ⟨t',ht',h',hstate',hmem⟩ := hinv.doAddState (e := e) (hclasses ▸ ha) htwo
    exact ⟨t',ht',h',hstate'.trans hstate,fun b => hclasses ▸ hmem b⟩

lemma Inv.addAll (added : List UInt64) :
    ∃ t', added.foldlM (CupaSearcherClass.addNew S c e) t = some t' ∧ t'.Inv L c ∧
      t'.state = t.state ∧ ∀ b, b ∈ t'.stateClasses ↔ b ∈ added ∨ b ∈ t.stateClasses := by
  induction added generalizing t with
  | nil => exact ⟨t,rfl,h,rfl,fun b => by simp⟩
  | cons a added ih =>
    obtain ⟨t1,ht1,h1,hstate1,hmem1⟩ := h.addNew (e := e) (a := a)
    obtain ⟨t2,ht2,h2,hstate2,hmem2⟩ := ih h1
    refine ⟨t2,?_,h2,hstate2.trans hstate1,fun b => ?_⟩
    · rw [foldlM_cons,ht1]
      exact ht2
    · rw [hmem2,hmem1,mem_cons,or_left_comm,or_assoc]

lemma Inv.removeAll (removed : List UInt64) :
    ∃ t', removed.foldlM (CupaSearcherClass.doRemoveState S e) t = some t' ∧ t'.Inv L c ∧
      t'.state = t.state ∧ ∀ b, b ∈ t'.stateClasses ↔ b ∉ removed ∧ b ∈ t.stateClasses := by
  induction removed generalizing t with
  | nil => exact ⟨t,rfl,h,rfl,fun b => by simp⟩
  | cons a removed ih =>
    obtain ⟨t1,ht1,h1,hstate1,hmem1⟩ := h.doRemoveState (e := e) (a := a)
    obtain ⟨t2,ht2,h2,hstate2,hmem2⟩ := ih h1
    refine ⟨t2,?_,h2,hstate2.trans hstate1,fun b => ?_⟩
    · rw [foldlM_cons,ht1]
      exact ht2
    · rw [hmem2,hmem1,mem_cons,not_or,and_left_comm,and_assoc]

lemma Inv.updateClasses (added removed : List UInt64) :
    ∃ t', t.updateClasses S c e added removed = some t' ∧ t'.Inv L c ∧ t'.state = t.state ∧
      ∀ b, b ∈ t'.stateClasses ↔ b ∉ removed ∧ (b ∈ added ∨ b ∈ t.stateClasses) := by
  obtain ⟨t1,ht1,h1,hstate1,hmem1⟩ := h.addAll (e := e) added
  obtain ⟨t2,ht2,h2,hstate2,hmem2⟩ := h1.removeAll (e := e) removed
  refine ⟨t2,?_,h2,hstate2.trans hstate1,fun b => by rw [hmem2,hmem1]⟩
  rw [CupaSearcherClass.updateClasses,ht1]
  exact ht2

end

lemma Inv.size_le (h : t.Inv L .forkCount) : t.searchers.size ≤ 2 := by
  have hnodup : t.searchers.keys.Nodup :=
    TreeMap.distinct_keys.imp fun hne heq => hne (LawfulEqCmp.compare_eq_iff_eq.mpr heq)
  have hsub : t.searchers.keys ⊆ [0,1] := fun k hk => by
    simpa using h.two rfl k (TreeMap.mem_keys.mp hk)
  rw [← TreeMap.length_keys]
  exact hnodup.length_le_of_subset hsub

lemma Inv.selectClass (h : t.Inv L c) (hk : k ∈ t.searchers) (random : Nat) :
    ∃ k', t.selectClass c random = some k' ∧ k' ∈ t.searchers := by
  have hne : t.searchers.keys ≠ [] := ne_nil_of_mem (TreeMap.mem_keys.mpr hk)
  have huniform : ∃ k', t.searchers.keys[random%t.searchers.size]? = some k' ∧
      k' ∈ t.searchers := by
    have hlt : random%t.searchers.size < t.searchers.keys.length := by
      rw [TreeMap.length_keys]
      refine Nat.mod_lt _ ?_
      rw [← TreeMap.length_keys]
      exact length_pos_of_ne_nil hne
    exact ⟨_,getElem?_eq_getElem hlt,TreeMap.mem_keys.mp (getElem_mem hlt)⟩
  have hfirst : ∃ k', t.searchers.keys.head? = some k' ∧ k' ∈ t.searchers :=
    ⟨_,head?_eq_some_head hne,TreeMap.mem_keys.mp (head_mem hne)⟩
  unfold CupaSearcherClass.selectClass
  cases c with
  | pc | pageDir | group | random => exact huniform
  | seed =>
    dsimp only
    split
    · exact ⟨1,rfl, ‹_›⟩
    · exact huniform
  | readCount => exact hfirst
  | forkCount =>
    rw [if_pos h.size_le]
    exact hfirst
  | priority | batch =>
    exact ⟨_,getLast?_eq_some_getLast hne,TreeMap.mem_keys.mp (getLast_mem hne)⟩

lemma Inv.selectBelow (h : t.Inv L c) (ha : a ∈ t.stateClasses) (choices : Choices) :
    ∃ b t', t.selectBelow S c choices = some (b,t') ∧ t'.Inv L c ∧ b ∈ t.stateClasses ∧
      t'.stateClasses = t.stateClasses := by
  obtain ⟨k0,hk0⟩ := mem_iff.mp ha
  obtain ⟨k,hk,hmem⟩ := h.selectClass (h.mem_searchers hk0) (choices.random 0)
  obtain ⟨d,hd,hinv,hholds⟩ := h.getElem? hmem
  obtain ⟨a',ha'⟩ := h.inhabited k hmem
  obtain ⟨b,d',hd',hinv',hb,hholds'⟩ := L.select
    {choices with random := fun n => choices.random (n+1)} hinv ((hholds a').mpr ha')
  refine ⟨b, {t with searchers := t.searchers.insert k d'},?_,?_,?_,rfl⟩
  · rw [CupaSearcherClass.selectBelow,hk,Option.bind_some,hd,Option.bind_some,hd']
    rfl
  · refine h.change child_insert hinv' (fun b => by rw [hholds',hholds]) (fun _ _ _ => .rfl)
      mem_of_mem_insert fun _ => ⟨⟨b,(hholds' b).mpr hb⟩,fun hc => h.two hc k hmem⟩
  · exact mem_iff.mpr ⟨k,(hholds b).mp hb⟩

/-- A random class keeps its own set; the state of a batch class is one of its states. -/
structure Good (L : Lawful S C) (c : CupaClass) (t : CupaSearcherClass D) : Prop where
  inv : c ≠ .random → t.Inv L c
  state : c = .batch → ∀ a, t.state = some a → a ∈ t.stateClasses

lemma holds_random : (contents .random C).Holds t a ↔ a ∈ t.states := by
  simp [Contents.Holds,contents,TreeSet.mem_toList]

lemma Good.kept (h : t.Good L c) : (contents c C).Kept t := by
  by_cases hc : c = .random
  · subst hc
    refine ⟨?_,fun x hx => ?_,fun hc => absurd rfl hc⟩
    · simpa [contents,comp_def] using Sets.nodup_toList t.states
    · obtain ⟨a,-,rfl⟩ := mem_map.mp hx
      rfl
  · exact (h.inv hc).kept hc

lemma Good.create : ({} : CupaSearcherClass D).Good L c ∧
    ∀ a, ¬(contents c C).Holds ({} : CupaSearcherClass D) a := by
  have hinv : ({} : CupaSearcherClass D).Inv L c := by
    constructor
    case inv =>
      intro k
      exact L.create.1
    case recorded =>
      intro k a
      exact iff_of_false (L.create.2 a) empty_ne_some
    case inhabited =>
      intro k hk
      exact absurd hk TreeMap.not_mem_emptyc
    case two =>
      intro _ k hk
      exact absurd hk TreeMap.not_mem_emptyc
  refine ⟨⟨fun _ => hinv,nofun⟩,fun a => ?_⟩
  by_cases hc : c = .random
  · subst hc
    rw [holds_random]
    exact TreeSet.not_mem_emptyc
  · rw [hinv.holds hc]
    exact TreeMap.not_mem_emptyc

lemma mem_foldl_insert (s : TreeSet UInt64) (added : List UInt64) :
    b ∈ added.foldl TreeSet.insert s ↔ b ∈ added ∨ b ∈ s := by
  induction added generalizing s with
  | nil => simp
  | cons a added ih =>
    rw [foldl_cons,ih,Sets.mem_insert,mem_cons,or_left_comm,or_assoc]

lemma mem_foldl_erase (s : TreeSet UInt64) (removed : List UInt64) :
    b ∈ removed.foldl TreeSet.erase s ↔ b ∉ removed ∧ b ∈ s := by
  induction removed generalizing s with
  | nil => simp
  | cons a removed ih =>
    rw [foldl_cons,ih,Sets.mem_erase,mem_cons,not_or,and_left_comm,and_assoc]

lemma Good.updateBatch (h : t.Good L .batch) (added removed : List UInt64) :
    ∃ t', t.update S .batch e added removed = some t' ∧ t'.Good L .batch ∧ ∀ b,
      b ∈ t'.stateClasses ↔ b ∉ removed ∧ (b ∈ added ∨ b ∈ t.stateClasses) := by
  have hinv := h.inv nofun
  unfold CupaSearcherClass.update
  dsimp only
  split
  · obtain ⟨t',ht',h',hstate,hmem⟩ := Inv.updateClasses (t := {t with state := none}) (e := e)
      ⟨hinv.inv,hinv.recorded,hinv.inhabited,hinv.two⟩ added removed
    exact ⟨t',ht',⟨fun _ => h',fun _ a ha => nomatch hstate.symm.trans ha⟩,hmem⟩
  rename_i hnot
  obtain ⟨t',ht',h',hstate,hmem⟩ := hinv.updateClasses (e := e) added removed
  refine ⟨t',ht',⟨fun _ => h',fun _ a ha => (hmem a).mpr ?_⟩,hmem⟩
  rw [hstate] at ha
  exact ⟨by simpa [ha] using hnot,.inr (h.state rfl a ha)⟩

lemma Good.update (h : t.Good L c) (added removed : List UInt64) :
    ∃ t', t.update S c e added removed = some t' ∧ t'.Good L c ∧ ∀ b,
      (contents c C).Holds t' b ↔ b ∉ removed ∧ (b ∈ added ∨ (contents c C).Holds t b) := by
  cases c with
  | random =>
    refine ⟨_,rfl,⟨fun hc => absurd rfl hc,nofun⟩,fun b => ?_⟩
    rw [holds_random,holds_random,mem_foldl_erase,mem_foldl_insert]
  | batch =>
    obtain ⟨t',ht',h',hmem⟩ := h.updateBatch (e := e) added removed
    refine ⟨t',ht',h',fun b => ?_⟩
    rw [(h'.inv nofun).holds nofun,(h.inv nofun).holds nofun,hmem]
  | seed | pc | pageDir | forkCount | priority | readCount | group =>
    obtain ⟨t',ht',h',-,hmem⟩ := (h.inv nofun).updateClasses (e := e) added removed
    refine ⟨t',ht',⟨fun _ => h',nofun⟩,fun b => ?_⟩
    rw [h'.holds nofun,(h.inv nofun).holds nofun,hmem]

lemma Good.empty (h : t.Good L c) : t.empty c ↔ ∀ a, ¬(contents c C).Holds t a := by
  by_cases hc : c = .random
  · subst hc
    simp only [holds_random]
    exact TreeSet.isEmpty_iff_forall_not_mem
  have hinv := h.inv hc
  have hsearchers : t.empty c = t.searchers.isEmpty := by
    unfold CupaSearcherClass.empty
    split
    · exact absurd rfl hc
    · rfl
  rw [hsearchers,TreeMap.isEmpty_iff_forall_not_mem]
  simp only [hinv.holds hc]
  constructor
  · intro hnone a ha
    obtain ⟨k,hk⟩ := mem_iff.mp ha
    exact hnone k (hinv.mem_searchers hk)
  · intro hnone k hk
    obtain ⟨a,ha⟩ := hinv.inhabited k hk
    exact hnone a (mem_iff.mpr ⟨k,ha⟩)

lemma Good.selectState {batchTime : Int} (h : t.Good L c) (ha : (contents c C).Holds t a)
    (choices : Choices) : ∃ b t', t.selectState S c batchTime choices = some (b,t') ∧
      t'.Good L c ∧ (contents c C).Holds t b ∧
        ∀ b, (contents c C).Holds t' b ↔ (contents c C).Holds t b := by
  cases c with
  | random =>
    rw [holds_random] at ha
    have hne : t.states.isEmpty = false := TreeSet.isEmpty_eq_false_iff_exists_mem.mpr ⟨a,ha⟩
    have hlt : choices.random 0%t.states.size < t.states.toList.length := by
      rw [TreeSet.length_toList]
      refine Nat.mod_lt _ ?_
      rw [← TreeSet.length_toList]
      exact length_pos_of_mem (TreeSet.mem_toList.mpr ha)
    have hmem := TreeSet.mem_toList.mp (getElem_mem hlt)
    refine ⟨_,t,?_,h,holds_random.mpr hmem,fun b => .rfl⟩
    simp [selectState,hne,getElem?_eq_getElem hlt]
  | batch =>
    have hinv := h.inv nofun
    rw [hinv.holds nofun] at ha
    -- the remembered state, or a new one
    have hagain : ∃ b t', ((t.selectBelow S .batch choices).map fun r =>
        (r.1, {r.2 with state := some r.1, lastSelectedTime := choices.now})) = some (b,t') ∧
          t'.Good L .batch ∧ (contents .batch C).Holds t b ∧
            ∀ b, (contents .batch C).Holds t' b ↔ (contents .batch C).Holds t b := by
      obtain ⟨b,t',ht',h',hb,hclasses⟩ := hinv.selectBelow ha choices
      have hnew : ({t' with state := some b, lastSelectedTime := choices.now}).Inv L .batch :=
        ⟨h'.inv,h'.recorded,h'.inhabited,h'.two⟩
      refine ⟨b,_,by rw [ht',Option.map_some],⟨fun _ => hnew,?_⟩,(hinv.holds nofun).mpr hb,
        fun b => by rw [hnew.holds nofun,hinv.holds nofun,hclasses]⟩
      rintro-b ⟨⟩
      exact hclasses ▸ hb
    unfold CupaSearcherClass.selectState
    dsimp only
    split
    next b hstate =>
      split
      · exact ⟨b,t,rfl,h,(hinv.holds nofun).mpr (h.state rfl b hstate),fun b => .rfl⟩
      · exact hagain
    · exact hagain
  | seed | pc | pageDir | forkCount | priority | readCount | group =>
    have hinv := h.inv nofun
    rw [hinv.holds nofun] at ha
    obtain ⟨b,t',ht',h',hb,hclasses⟩ := hinv.selectBelow ha choices
    refine ⟨b,t',ht',⟨fun _ => h',nofun⟩,(hinv.holds nofun).mpr hb,fun b => ?_⟩
    rw [h'.holds nofun,hinv.holds nofun,hclasses]

def lawful (batchTime : Int) (c : CupaClass) (L : Lawful S C) :
    Lawful (cupaSearcherClass batchTime c S) (contents c C) where
  Inv t := t.Good L c
  kept h := h.kept
  create := Good.create
  empty h := h.empty
  add {t a} e h ha := by
    obtain ⟨t',ht',h',hmem⟩ := h.update (e := e) [a] []
    exact ⟨t',ht',h',fun b => by simpa using hmem b⟩
  remove {t a} e h ha := by
    obtain ⟨t',ht',h',hmem⟩ := h.update (e := e) [] [a]
    exact ⟨t',ht',h',fun b => by simpa using hmem b⟩
  select choices h ha := h.selectState ha choices

end CupaSearcherClass

namespace CupaSearcher

def contents (useRandomSearch : Bool) :
    (classes : List CupaClass) → Contents (Data useRandomSearch classes)
  | [] => UserSearcher.contents useRandomSearch
  | c :: classes => CupaSearcherClass.contents c (contents useRandomSearch classes)

def lawful (useRandomSearch : Bool) (batchTime : Int) : (classes : List CupaClass) →
    Lawful (createSearcher useRandomSearch batchTime classes) (contents useRandomSearch classes)
  | [] => UserSearcher.lawful CupaLookup useRandomSearch
  | c :: classes => CupaSearcherClass.lawful batchTime c (lawful useRandomSearch batchTime classes)

end CupaSearcher

structure CupaSearcher (useRandomSearch : Bool) (classes : List CupaClass) where
  top : CupaSearcher.Data useRandomSearch classes
  live : List UInt64

inductive CupaEvent where
  | update (e : CupaLookup) (added removed : List UInt64)
  | updateState (e : CupaLookup) (state : UInt64)
  | selectState (choices : Choices)

namespace CupaSearcher
variable {useRandomSearch : Bool} {batchTime : Int} {classes : List CupaClass}

def updateState (batchTime : Int) (s : CupaSearcher useRandomSearch classes) (e : CupaLookup)
    (state : UInt64) : Option (CupaSearcher useRandomSearch classes) :=
  let S := createSearcher useRandomSearch batchTime classes
  (S.removeState e s.top state).bind fun top =>
    (S.addState e top state).map fun top => {s with top}

def step (batchTime : Int) (s : CupaSearcher useRandomSearch classes) :
    CupaEvent → Option (CupaSearcher useRandomSearch classes)
  | .update e added removed =>
    ((createSearcher useRandomSearch batchTime classes).update e s.top added removed).map fun top =>
      ⟨top,(added ++ s.live).filter (· ∉ removed)⟩
  | .updateState e state => s.updateState batchTime e state
  | .selectState choices =>
    ((createSearcher useRandomSearch batchTime classes).selectState choices s.top).map fun r =>
      {s with top := r.2}

def Applies (s : CupaSearcher useRandomSearch classes) : CupaEvent → Prop
  | .update .. => True
  | .updateState _ state => state ∈ s.live
  | .selectState _ => s.live ≠ []

instance (s : CupaSearcher useRandomSearch classes) : (e : CupaEvent) → Decidable (s.Applies e)
  | .update .. => inferInstanceAs (Decidable True)
  | .updateState _ state => inferInstanceAs (Decidable (state ∈ s.live))
  | .selectState _ => inferInstanceAs (Decidable (s.live ≠ []))

def start (useRandomSearch : Bool) (batchTime : Int) (classes : List CupaClass) :
    CupaSearcher useRandomSearch classes :=
  ⟨(createSearcher useRandomSearch batchTime classes).create,[]⟩

def Reached (batchTime : Int) : CupaSearcher useRandomSearch classes → Prop :=
  Runs.Reached (step batchTime) Applies (· = start useRandomSearch batchTime classes)

structure HoldsLive (batchTime : Int) (s : CupaSearcher useRandomSearch classes) : Prop where
  inv : (lawful useRandomSearch batchTime classes).Inv s.top
  live : ∀ a, (contents useRandomSearch classes).Holds s.top a ↔ a ∈ s.live

lemma holdsLive_start : (start useRandomSearch batchTime classes).HoldsLive batchTime := by
  obtain ⟨hinv,hnone⟩ := (lawful _ batchTime classes).create
  exact ⟨hinv,fun a => iff_of_false (hnone a) not_mem_nil⟩

variable {s s' : CupaSearcher useRandomSearch classes}

section
variable (h : s.HoldsLive batchTime)
include h

lemma HoldsLive.updateState {e : CupaLookup} {a : UInt64}
    (ha : a ∈ s.live) : ∃ s', s.updateState batchTime e a = some s' ∧ s'.HoldsLive batchTime := by
  have hheld := (h.live a).mpr ha
  obtain ⟨t1,ht1,h1,hmem1⟩ := (lawful _ batchTime classes).remove e h.inv hheld
  obtain ⟨t2,ht2,h2,hmem2⟩ := (lawful _ batchTime classes).add e h1 (a := a)
    fun hh => ((hmem1 a).mp hh).1 rfl
  refine ⟨{s with top := t2},by simp [CupaSearcher.updateState,ht1,ht2],h2,fun b => ?_⟩
  rw [hmem2,hmem1,← h.live]
  by_cases hb : b = a <;> simp [hb,hheld]

lemma HoldsLive.selectState (hlive : s.live ≠ []) (choices : Choices) : ∃ a t,
      (createSearcher useRandomSearch batchTime classes).selectState choices s.top = some (a,t) ∧
        a ∈ s.live ∧ HoldsLive batchTime {s with top := t} := by
  obtain ⟨b,hb⟩ := exists_mem_of_ne_nil _ hlive
  obtain ⟨a,t,ht,h',ha,hmem⟩ := (lawful _ batchTime classes).select choices h.inv
    ((h.live b).mpr hb)
  exact ⟨a,t,ht,(h.live a).mp ha,h',fun b => (hmem b).trans (h.live b)⟩

lemma HoldsLive.update {e : CupaLookup} (hclasses : classes ≠ [])
    (added removed : List UInt64) : ∃ s', s.step batchTime (.update e added removed) = some s' ∧
      s'.HoldsLive batchTime := by
  obtain _ | ⟨c,classes⟩ := classes
  · exact absurd rfl hclasses
  obtain ⟨t',ht',h',hmem⟩ := CupaSearcherClass.Good.update (e := e) h.inv added removed
  refine ⟨⟨t',(added ++ s.live).filter (· ∉ removed)⟩,?_,h',fun b => ?_⟩
  · exact Option.map_eq_some_iff.mpr ⟨t',ht',rfl⟩
  · refine (hmem b).trans ?_
    rw [mem_filter,mem_append,decide_eq_true_iff,and_comm]
    exact and_congr_left' (or_congr_right (h.live b))

lemma HoldsLive.step {e : CupaEvent} (hclasses : classes ≠ [])
    (he : s.Applies e) : ∃ s', s.step batchTime e = some s' ∧ s'.HoldsLive batchTime := by
  cases e with
  | update e added removed => exact h.update hclasses added removed
  | updateState e state => exact h.updateState he
  | selectState choices =>
    obtain ⟨a,t,ht,-,h'⟩ := h.selectState he choices
    exact ⟨{s with top := t},Option.map_eq_some_iff.mpr ⟨(a,t),ht,rfl⟩,h'⟩

end

lemma Reached.holdsLive (hclasses : classes ≠ []) (h : Reached batchTime s) :
    s.HoldsLive batchTime := by
  refine Runs.Reached.invariant ?_ ?_ h
  · rintro _ rfl
    exact holdsLive_start
  · intro s e s' hs he hstep
    obtain ⟨s1,hs1,h1⟩ := hs.step hclasses he
    cases hstep.symm.trans hs1
    exact h1

/-- For every list of classes and every run: the leaves have exactly the live states, each once
and where its recorded classes say, no class is empty, no assertion fails, and every selection
gives a live state. -/
theorem cupa_holds_live (useRandomSearch : Bool) (batchTime : Int) (classes : List CupaClass)
    (hclasses : classes ≠ []) (s : CupaSearcher useRandomSearch classes) (h : Reached batchTime s) :
    (contents useRandomSearch classes).Kept s.top ∧
      (∀ a, (contents useRandomSearch classes).Holds s.top a ↔ a ∈ s.live) ∧
        (∀ e, s.Applies e → (s.step batchTime e).isSome = true) ∧ ∀ choices, s.live ≠ [] → ∃ a t,
            (createSearcher useRandomSearch batchTime classes).selectState choices s.top =
              some (a,t) ∧ a ∈ s.live := by
  have hlive := h.holdsLive hclasses
  refine ⟨(lawful useRandomSearch batchTime classes).kept hlive.inv,hlive.live,fun e he => ?_,
    fun choices hne => ?_⟩
  · obtain ⟨s',hs',-⟩ := hlive.step hclasses he
    exact Option.isSome_of_eq_some hs'
  · obtain ⟨a,t,ht,ha,-⟩ := hlive.selectState hne choices
    exact ⟨a,t,ht,ha⟩

theorem cupa_holds_live_priority :
    let e : CupaLookup :=
      { running := true, id := fun _ => 0, pc := fun _ => 16, pageDir := fun _ => 0,
        symbolicReadsCount := fun _ => 0, priority := fun _ => none, group := fun _ => none}
    ∃ s : CupaSearcher false [.pc,.priority],
      Runs.run (step 5) (fun s e => decide (s.Applies e)) (start false 5 [.pc,.priority])
        [.update e [1,2] [],.updateState {e with priority := fun _ => some 7} 2,
          .selectState ⟨fun _ => 0,0⟩,.update e [] [1]] = some s ∧
        ∀ a, (contents false [.pc,.priority]).Holds s.top a ↔ a ∈ s.live := by
  intro e
  have hsome : (Runs.run (step 5) (fun s e => decide (s.Applies e)) (start false 5 [.pc,.priority])
      [.update e [1,2] [],.updateState {e with priority := fun _ => some 7} 2,
        .selectState ⟨fun _ => 0,0⟩,.update e [] [1]]).isSome := by
    decide +kernel
  obtain ⟨s,hs⟩ := Option.isSome_iff_exists.mp hsome
  have hreach : Reached 5 s := .run (fun _ _ => of_decide_eq_true) (.start rfl) hs
  exact ⟨s,hs,(cupa_holds_live false 5 [.pc,.priority] (by simp) s hreach).2.1⟩

end CupaSearcher
end S2E
