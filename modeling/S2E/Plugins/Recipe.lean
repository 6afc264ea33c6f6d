import S2E.Solver.CexCachingSolver

/-! `testMemPrecondition` of `Recipe.cpp`: where in memory the bytes of a recipe fit. -/

namespace S2E.Recipe
open List CexCachingSolver

inductive Right where
  | negotiable (name : String)
  | regbyte (reg : Nat)
  | concrete (value valueWidth : Nat)

structure Precondition where
  offset : UInt64
  right : Right

structure RecipeConditions where
  constraints : List Expr
  remappings : List (String × String)

structure Services where
  read : UInt64 → Option Expr
  getRegbyteExpr : Nat → Expr
  eq : Expr → Expr → Expr
  arrayName : ArrayObj → String
  testConstraints : List Expr → Bool

variable (svc : Services)

def pushEq (left right : Expr) (c : RecipeConditions) : Option RecipeConditions :=
  if svc.eq left right = ConstantExpr.alloc 0 1 then none
  else some {c with constraints := c.constraints ++ [svc.eq left right]}

def applySimplePrecondition (left : Expr) (right : Right) (c : RecipeConditions) :
    Option RecipeConditions :=
  match right with
  | .negotiable name =>
    match left, left.symbolicObjects [] with
    | .constant _, _ => none
    | _, [var] =>
      if left.width = 8 ∧ var.size = 1 ∧ c.remappings.lookup (svc.arrayName var) = none then
        some {c with remappings := (svc.arrayName var,name) :: c.remappings}
      else none
    | _, _ => none
  | .regbyte reg => if left.width = 8 then pushEq svc left (svc.getRegbyteExpr reg) c else none
  | .concrete value valueWidth =>
    if left.width = valueWidth then pushEq svc left (ConstantExpr.alloc value valueWidth) c
    else none

def applyAll (test : List Expr → Bool) (addr : UInt64) :
    List Precondition → RecipeConditions → Option RecipeConditions
  | [], c => some c
  | p :: ps, c => do
    let left ← svc.read (addr+p.offset)
    let c ← applySimplePrecondition svc left p.right c
    if test c.constraints then applyAll test addr ps c else none

/-- The loop over the offsets, with `i` of 32 bits; no value is a loop that goes on. -/
def search (satisfiable : Nat → Bool) (bound : Nat) : Nat → Nat → Option (Option Nat)
  | 0, _ => none
  | fuel+1, i =>
    if i < bound then
      if satisfiable i then some (some i) else search satisfiable bound fuel ((i+1)%2^32)
    else some none

variable (addr size : UInt64) (requiredMemSize : UInt32) (ps : List Precondition)
  (c : RecipeConditions)

def testMemPrecondition (fuel : Nat) : Option (Option Nat) :=
  search (fun i => (applyAll svc svc.testConstraints (addr+.ofNat i) ps c).isSome)
    (size-requiredMemSize.toUInt64).toNat fuel 0

def Fits (path : List Expr) (i : Nat) : Prop :=
  ∃ c', applyAll svc (fun _ => true) (addr+.ofNat i) ps c = some c' ∧
    Satisfiable (path ++ c'.constraints)

def Least (inside fits : Nat → Prop) : Option Nat → Prop
  | some i => inside i ∧ fits i ∧ ∀ j < i, ¬fits j
  | none => ∀ i, inside i → ¬fits i

variable {svc addr size requiredMemSize ps c} {path : List Expr} {c' : RecipeConditions}
  {good : Nat → Bool} {n i j fuel : Nat}

lemma applySimplePrecondition_grows {left : Expr} {right : Right}
    (h : applySimplePrecondition svc left right c = some c') : c.constraints ⊆ c'.constraints := by
  have hpush {e : Expr} (h : pushEq svc left e c = some c') : c.constraints ⊆ c'.constraints := by
    obtain ⟨-,h⟩ := Option.ite_none_left_eq_some.mp h
    cases h
    simp
  unfold applySimplePrecondition at h
  split at h
  · split at h
    · cases h
    · obtain ⟨-,h⟩ := Option.ite_none_right_eq_some.mp h
      cases h
      simp
    · cases h
  · exact hpush (Option.ite_none_right_eq_some.mp h).2
  · exact hpush (Option.ite_none_right_eq_some.mp h).2

lemma applyAll_grows {test : List Expr → Bool} (h : applyAll svc test addr ps c = some c') :
    c.constraints ⊆ c'.constraints := by
  induction ps generalizing c with
  | nil =>
    cases h
    simp
  | cons p ps ih =>
    obtain ⟨left,-,h⟩ := Option.bind_eq_some_iff.mp h
    obtain ⟨c1,hc1,h⟩ := Option.bind_eq_some_iff.mp h
    exact Subset.trans (applySimplePrecondition_grows hc1)
      (ih (Option.ite_none_right_eq_some.mp h).2)

lemma satisfiable_of_subset {C D : List Expr} (h : Satisfiable (path ++ D)) (hCD : C ⊆ D) :
    Satisfiable (path ++ C) := by
  obtain ⟨a,ha⟩ := h
  refine ⟨a,fun e he => ha e ?_⟩
  simp only [mem_append] at he ⊢
  exact he.imp_right fun he => hCD he

section
variable (htest : ∀ C, svc.testConstraints C = true ↔ Satisfiable (path ++ C))
include htest

lemma applyAll_iff : applyAll svc svc.testConstraints addr ps c = some c' ↔
      applyAll svc (fun _ => true) addr ps c = some c' ∧
        (ps = [] ∨ Satisfiable (path ++ c'.constraints)) := by
  induction ps generalizing c with
  | nil => simp [applyAll]
  | cons p ps ih =>
    simp only [applyAll,Option.bind_eq_bind,Option.bind_eq_some_iff,Option.ite_none_right_eq_some,
      ih,htest,if_true,reduceCtorEq,false_or]
    constructor
    · rintro ⟨left,hleft,c1,hc1,hsat,h,hrest⟩
      refine ⟨⟨left,hleft,c1,hc1,h⟩,?_⟩
      rcases hrest with rfl | hrest
      · cases h
        exact hsat
      · exact hrest
    · rintro ⟨⟨left,hleft,c1,hc1,h⟩,hsat⟩
      exact ⟨left,hleft,c1,hc1,satisfiable_of_subset hsat (applyAll_grows h),h,.inr hsat⟩

lemma isSome_applyAll_iff (h : ps ≠ [] ∨ Satisfiable (path ++ c.constraints)) :
    (applyAll svc svc.testConstraints (addr+.ofNat i) ps c).isSome = true ↔
      Fits svc addr ps c path i := by
  rw [Option.isSome_iff_exists]
  apply exists_congr
  intro c'
  rw [applyAll_iff htest]
  apply and_congr_right
  intro hc'
  constructor
  · rintro (rfl | hsat)
    · cases hc'
      exact h.resolve_left (by simp)
    · exact hsat
  · exact .inr

end

lemma search_skip (hlow : ∀ k < j, good k = false) (hjn : j ≤ n) (hj : j < 2^32) :
    search good n (fuel+j) 0 = search good n fuel j := by
  induction j generalizing fuel with
  | zero => rfl
  | succ j ih =>
    have hstep : search good n (fuel+1+j) 0 = search good n (fuel+1) j :=
      ih (fun k hk => hlow k (by omega)) (by omega) (by omega)
    rw [show fuel+(j+1) = fuel+1+j by omega,hstep,search,if_pos (by omega),hlow j (by omega),
      if_neg (by simp),Nat.mod_eq_of_lt hj]

lemma search_loops (hlow : ∀ k < 2^32, good k = false) (hn : 2^32 ≤ n) (hi : i < 2^32) :
    search good n fuel i = none := by
  induction fuel generalizing i with
  | zero => rfl
  | succ fuel ih =>
    rw [search,if_pos (by omega),hlow i hi,if_neg (by simp)]
    exact ih (Nat.mod_lt _ (by decide))

lemma good_of_search (hi : i < 2^32) (h : search good n fuel i = some (some j)) :
    good j = true ∧ j < min n (2^32) := by
  induction fuel generalizing i with
  | zero => cases h
  | succ fuel ih =>
    rw [search] at h
    split at h
    case isTrue hin =>
      split at h
      case isTrue hgood =>
        cases h
        exact ⟨hgood,by omega⟩
      case isFalse => exact ih (Nat.mod_lt _ (by decide)) h
    case isFalse => cases h

lemma search_least_iff {P : Nat → Prop} (hP : ∀ i, good i = true ↔ P i) :
    (∃ fuel r, search good n fuel 0 = some r ∧ Least (· ≤ n) P r) ↔
      (∃ i < min n (2^32), P i) ∨ n < 2^32 ∧ ¬P n := by
  classical
  by_cases hex : ∃ i < min n (2^32), P i
  · obtain ⟨j,⟨hj,hPj⟩,hmin⟩ : ∃ j, (j < min n (2^32) ∧ P j) ∧ ∀ k < j, ¬P k :=
      ⟨_,Nat.find_spec hex,fun k hk h =>
        Nat.find_min hex hk ⟨hk.trans (Nat.find_spec hex).1,h⟩⟩
    refine iff_of_true ⟨1+j,some j,?_,by omega,hPj,hmin⟩ (.inl hex)
    rw [search_skip (fun k hk => by simp [hP,hmin k hk,← Bool.not_eq_true]) (by omega) (by omega),
      search,if_pos (by omega),if_pos ((hP j).mpr hPj)]
  · have hlow (k : Nat) (hk : k < min n (2^32)) : good k = false := by
      rw [← Bool.not_eq_true,hP]
      exact fun h => hex ⟨k,hk,h⟩
    rw [or_iff_right hex]
    constructor
    · rintro ⟨fuel,_ | j,hrun,hr⟩
      · refine ⟨?_,hr n le_rfl⟩
        by_contra hn
        rw [search_loops (fun k hk => hlow k (by omega)) (by omega) (by decide)] at hrun
        cases hrun
      · obtain ⟨hgood,hj⟩ := good_of_search (by decide) hrun
        exact absurd ⟨j,hj,(hP j).mp hgood⟩ hex
    · rintro ⟨hn,hnot⟩
      refine ⟨1+n,none,?_,fun i hi hPi => ?_⟩
      · rw [search_skip (fun k hk => hlow k (by omega)) le_rfl hn]
        simp [search]
      · rcases Nat.lt_or_eq_of_le hi with hi | rfl
        · exact hex ⟨i,by omega,hPi⟩
        · exact hnot hPi

/-- The search is right if some offset before the last one fits, or the last one,
which is never tried, does not. -/
theorem testMemPrecondition_least_iff
    (htest : ∀ C, svc.testConstraints C = true ↔ Satisfiable (path ++ C))
    (hsize : requiredMemSize.toUInt64 ≤ size) :
    (∃ fuel r, testMemPrecondition svc addr size requiredMemSize ps c fuel = some r ∧
      Least (·+requiredMemSize.toNat ≤ size.toNat) (Fits svc addr ps c path) r) ↔
    (ps ≠ [] ∨ Satisfiable (path ++ c.constraints) ∨ size = requiredMemSize.toUInt64) ∧
      ((∃ i < min (size.toNat-requiredMemSize.toNat) (2^32), Fits svc addr ps c path i) ∨
        size.toNat-requiredMemSize.toNat < 2^32 ∧
          ¬Fits svc addr ps c path (size.toNat-requiredMemSize.toNat)) := by
  have hle : requiredMemSize.toNat ≤ size.toNat := by simpa [UInt64.le_iff_toNat_le] using hsize
  have hbound : (size-requiredMemSize.toUInt64).toNat = size.toNat-requiredMemSize.toNat := by
    rw [UInt64.toNat_sub_of_le _ _ hsize,UInt32.toNat_toUInt64]
  have heq : size = requiredMemSize.toUInt64 ↔ size.toNat-requiredMemSize.toNat = 0 := by
    rw [← UInt64.toNat_inj,UInt32.toNat_toUInt64]
    omega
  have hin : (·+requiredMemSize.toNat ≤ size.toNat) = (· ≤ size.toNat-requiredMemSize.toNat) := by
    funext i
    exact propext ⟨fun h => by omega,fun h => by omega⟩
  rw [heq,hin]
  simp only [testMemPrecondition,hbound]
  generalize size.toNat-requiredMemSize.toNat = n at *
  by_cases hc : ps ≠ [] ∨ Satisfiable (path ++ c.constraints)
  · rw [search_least_iff fun i => isSome_applyAll_iff htest hc]
    exact (and_iff_right (hc.imp_right .inl)).symm
  · -- Nothing is placed and nothing is tested, and the conditions so far have no model.
    rw [not_or,not_not] at hc
    obtain ⟨rfl,hsat⟩ := hc
    have hno (i : Nat) : ¬Fits svc addr [] c path i := by
      rintro ⟨c',hc',h⟩
      cases hc'
      exact hsat h
    constructor
    · rintro ⟨_ | fuel,r,hrun,hr⟩
      · cases hrun
      have hn : n = 0 := by
        by_contra hn
        rw [search,if_pos (by omega)] at hrun
        cases hrun
        exact hno _ hr.2.1
      exact ⟨.inr (.inr hn),.inr ⟨by omega,hno _⟩⟩
    · rintro ⟨h,-⟩
      obtain rfl : n = 0 := by simpa [hsat] using h
      exact ⟨1,none,rfl,fun i _ => hno i⟩

noncomputable def sevens : Services where
  read _ := some (byteOf 0)
  getRegbyteExpr _ := ConstantExpr.alloc 7 8
  eq := .binary .eq
  arrayName _ := "v"
  testConstraints C := @decide _ (Classical.propDecidable (Satisfiable C))

lemma fits_sevens : Fits sevens 0x1000 [⟨0,.concrete 7 8⟩] ⟨[],[]⟩ [] 0 := by
  refine ⟨⟨[_],[]⟩,rfl,fun _ _ => 7,fun e he => ?_⟩
  obtain rfl := mem_singleton.mp he
  rfl

theorem least_sevens : ∃ fuel r, testMemPrecondition sevens 0x1000 2 1 [⟨0,.concrete 7 8⟩] ⟨[],[]⟩
      fuel = some r ∧
    Least (·+1 ≤ 2) (Fits sevens 0x1000 [⟨0,.concrete 7 8⟩] ⟨[],[]⟩ []) r :=
  (testMemPrecondition_least_iff (fun _ => by simp [sevens]) (by decide)).mpr
    ⟨.inl (by simp),.inl ⟨0,by decide,fits_sevens⟩⟩

theorem exact_fit_missed :
    testMemPrecondition sevens 0x1000 1 1 [⟨0,.concrete 7 8⟩] ⟨[],[]⟩ 1 = some none ∧
      Fits sevens 0x1000 [⟨0,.concrete 7 8⟩] ⟨[],[]⟩ [] 0 :=
  ⟨rfl,fits_sevens⟩

end S2E.Recipe
