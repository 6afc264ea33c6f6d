import S2E.Core.S2EExecutor

/-! Whole explorations: the states that forks make of one state, and what stays on a path. -/

namespace S2E
open List Relation ExecutionState

variable {σ : Type} {svc : Services σ} {st st' : ExecutionState} {o : ForkOutcome} {a : Assignment}
  {P : Assignment → Prop} {side : Option StateRef} {r : StateRef} {p p' : ExecutionState × σ}

def ForkOutcome.successors (o : ForkOutcome) : List ExecutionState :=
  (o.pair.first.bind o.state).toList ++ (o.pair.second.bind o.state).toList

lemma ForkOutcome.mem_successors (h : st' ∈ o.successors) :
    ∃ r, (o.pair.first = some r ∨ o.pair.second = some r) ∧ o.state r = some st' := by
  simp only [successors,mem_append,Option.mem_toList,Option.bind_eq_some_iff] at h
  rcases h with ⟨r,hr,hst⟩ | ⟨r,hr,hst⟩
  · exact ⟨r,.inl hr,hst⟩
  · exact ⟨r,.inr hr,hst⟩

lemma ForkOutcome.Covers.of_state (h : o.Covers side P) (hside : side = some r)
    (hst : o.state r = some st') : a.Satisfies st'.constraints ↔ P a := by
  subst hside
  obtain ⟨-,_,hst',hmodels⟩ := h
  cases hst.symm.trans hst'
  exact hmodels a

namespace Executor

/-- One of the states is forked. -/
inductive Explores (svc : Services σ) : List ExecutionState × σ → List ExecutionState × σ → Prop
  | fork (before after : List ExecutionState) {st : ExecutionState} {s s' : σ} {c : Expr}
      {keep : Bool} {o : ForkOutcome} : st.forkDisabled = false →
      Admissible st.symbolics st.constraints c → c.width = 1 → fork svc st c keep s = some (o,s') →
      Explores svc (before ++ st :: after,s) (before ++ (o.successors ++ after),s')

open Classical in
/-- How many of the states have the input. -/
noncomputable def paths (states : List ExecutionState) (a : Assignment) : Nat :=
  states.countP fun st => a.Satisfies st.constraints

lemma paths_side [Decidable (P a)] (h : o.Covers side P) :
    paths (side.bind o.state).toList a = if P a then 1 else 0 := by
  cases side with
  | none => simp [paths,not_exists.mp h a]
  | some r =>
    obtain ⟨-,st,hst,hmodels⟩ := h
    simp [paths,hst,hmodels a]

open Classical in
lemma paths_successors {c : Expr} (h : o.Partition st c) :
    paths o.successors a = paths [st] a := by
  have hsum : paths o.successors a =
      paths (o.pair.first.bind o.state).toList a+paths (o.pair.second.bind o.state).toList a :=
    countP_append
  rw [hsum,paths_side h.first,paths_side h.second]
  by_cases hsat : a.Satisfies st.constraints <;> by_cases hc : c.eval a = 1 <;>
    simp [paths,hsat,hc]

structure Explored (st : ExecutionState) (states : List ExecutionState) : Prop where
  ok : ∀ st' ∈ states, st'.Ok
  paths_eq : ∀ a, paths states a = paths [st] a

lemma Explored.step (hsvc : svc.Sound) {q q' : List ExecutionState × σ} (h : Explored st q.1)
    (hstep : Explores svc q q') : Explored st q'.1 := by
  cases hstep with
  | @fork _ _ cur s s' c keep o hdis hc hw hfork =>
    have hok : cur.Ok := h.ok cur (by simp)
    refine ⟨fun st' hst' => ?_,fun a => ?_⟩
    · simp only [mem_append] at hst'
      rcases hst' with hst' | hst' | hst'
      · exact h.ok st' (by simp [hst'])
      · obtain ⟨r,hr,hst⟩ := o.mem_successors hst'
        exact (Step.fork hc hw hfork hr hst).ok hsvc hok
      · exact h.ok st' (by simp [hst'])
    · rcases fork_spec hsvc hok hc hw hdis keep s with ⟨-,_,_,ho,hforked,-⟩ | ⟨-,hnone⟩
      · cases hfork.symm.trans ho
        have hcur := paths_successors hforked.partition (a := a)
        rw [← h.paths_eq a]
        simp only [paths,countP_append,countP_cons,countP_nil] at hcur ⊢
        omega
      · cases hfork.symm.trans hnone

open Classical in
/-- However a state is explored, each of its inputs is an input of exactly one of the states, and
the concolic values of each state are one of its inputs. -/
theorem exploration_partitions (hsvc : svc.Sound) {states : List ExecutionState} {s s' : σ}
    (hok : st.Ok) (h : ReflTransGen (Explores svc) ([st],s) (states,s')) :
    (∀ a : Assignment, states.countP (fun st' => a.Satisfies st'.constraints) =
      if a.Satisfies st.constraints then 1 else 0) ∧
    ∀ st' ∈ states, st'.concolics.assignment.Satisfies st'.constraints := by
  have hinv : ∀ {q}, ReflTransGen (Explores svc) ([st],s) q → Explored st q.1 := by
    intro q hq
    induction hq with
    | refl => exact ⟨by simpa using hok,fun a => rfl⟩
    | tail _ hstep ih => exact ih.step hsvc hstep
  obtain ⟨hall,hpaths⟩ := hinv h
  refine ⟨fun a => (hpaths a).trans ?_,fun st' hst' => (hall st' hst').fits.satisfies⟩
  simp [paths,countP_cons]

open Classical in
theorem exploration_partitions_probe : ∃ o : ForkOutcome, ∀ a : Assignment,
    o.successors.countP (fun st' => a.Satisfies st'.constraints) = 1 := by
  have hadm : Admissible probeState.symbolics probeState.constraints (probeIs 0) :=
    ⟨by decide,fun a _ => probeIs_defined 0 a⟩
  have hsafe : ForkSafe idealServices probeState (probeIs 0) true () := .inr (by
    rw [SplitSafe,if_pos (by decide)]
    decide +kernel)
  rcases fork_spec idealServices_sound probeState_ok hadm rfl rfl true () with
    ⟨-,o,_,ho,-⟩ | ⟨h,-⟩
  · refine ⟨o,fun a => ?_⟩
    have hrun := (exploration_partitions idealServices_sound probeState_ok
      (.single (.fork [] [] rfl hadm rfl ho))).1 a
    simpa [probeState,Assignment.Satisfies] using hrun
  · exact absurd hsafe h

/-- The path goes on with inputs it had before. -/
lemma Step.models (hsvc : svc.Sound) (h : Step svc p p') (hok : p.1.Ok)
    (ha : a.Satisfies p'.1.constraints) : a.Satisfies p.1.constraints := by
  cases h with
  | @addConstraint st st' s s' e recompute added he hw h =>
    rcases addConstraint_spec hsvc hok he hw recompute s with ⟨_,_,_,h1,hout⟩ | ⟨h1,-⟩
    · cases h.symm.trans h1
      cases added with
      | true => exact (((hout.extended rfl).models a).mp ha).1
      | false => exact (hout.unchanged rfl).constraints ▸ ha
    · cases h.symm.trans h1
  | @toConstant st st' s s' e value he h =>
    obtain ⟨_,_,_,h1,hcon⟩ := toConstant_spec hsvc hok he s
    cases h.symm.trans h1
    exact ((hcon.models a).mp ha).1
  | @fork st st' s s' c keep o r hc hw h hr hst =>
    cases hdis : st.forkDisabled with
    | false =>
      rcases fork_spec hsvc hok hc hw hdis keep s with ⟨-,_,_,ho,hforked,-⟩ | ⟨-,hnone⟩
      · cases h.symm.trans ho
        rcases hr with hr | hr
        · exact ((hforked.partition.first.of_state hr hst).mp ha).1
        · exact ((hforked.partition.second.of_state hr hst).mp ha).1
      · cases h.symm.trans hnone
    | true =>
      obtain ⟨_,_,ho,hfollowed⟩ := S2EExecutor.fork_disabled hsvc hok hc hw hdis keep s
      cases h.symm.trans ho
      cases r with
      | current =>
        cases hst
        exact ((hfollowed.models a).mp ha).1
      | branched => cases hst

/-- A value that was chosen for an expression stays its value wherever the path goes: asked
again, it is the same number, and nothing is added to the constraints. -/
theorem toConstant_stable (hsvc : svc.Sound) {st1 st2 : ExecutionState} {s s1 s2 : σ} {e : Expr}
    {c : APInt} (hok : st.Ok) (he : Admissible st.symbolics st.constraints e)
    (h : st.toConstant svc e s = some (.constant c,st1,s1))
    (hrun : ReflTransGen (Step svc) (st1,s1) (st2,s2))
    (he2 : Admissible st2.symbolics st2.constraints e) :
    ∃ c' st3 s3, st2.toConstant svc e s2 = some (.constant c',st3,s3) ∧ c'.value = c.value ∧
      ∀ a : Assignment, a.Satisfies st3.constraints ↔ a.Satisfies st2.constraints := by
  obtain ⟨_,_,_,h1,hcon⟩ := toConstant_spec hsvc hok he s
  cases h.symm.trans h1
  have hinv : ∀ {q}, ReflTransGen (Step svc) (st1,s1) q → q.1.Ok ∧
      ∀ a : Assignment, a.Satisfies q.1.constraints → e.eval a = c.value := by
    intro q hq
    induction hq with
    | refl => exact ⟨hcon.ok,fun a ha => ((hcon.models a).mp ha).2⟩
    | tail _ hstep ih =>
      exact ⟨hstep.ok hsvc ih.1,fun a ha => ih.2 a (hstep.models hsvc ih.1 ha)⟩
  obtain ⟨hok2,hvalue⟩ := hinv hrun
  obtain ⟨c',st3,s3,h3,hcon3⟩ := toConstant_spec hsvc hok2 he2 s2
  obtain ⟨hsat,hc'⟩ := (hcon3.models _).mp hcon3.ok.fits.satisfies
  have hsame : c'.value = c.value := hc'.symm.trans (hvalue _ hsat)
  refine ⟨c',st3,s3,h3,hsame,fun a => (hcon3.models a).trans ?_⟩
  exact and_iff_left_of_imp fun ha => (hvalue a ha).trans hsame.symm

def otherArray : ArrayObj := .symbolic 1 1 one_fits

def otherIsOne : Expr :=
  .binary .eq (ConstantExpr.alloc 1 8) (.read (.root otherArray) (ConstantExpr.alloc 0 32))

def pairState : ExecutionState :=
  { probeState with
    concolics := ⟨[(probeArray,[0]),(otherArray,[0])],true,[]⟩
    symbolics := [probeArray,otherArray]}

lemma pairState_ok : pairState.Ok where
  fits :=
    { binds := by
        intro arr harr
        rcases mem_pair.mp harr with rfl | rfl <;> exact ⟨[0],by decide,by decide⟩
      cache := fun e r h => by cases h
      satisfies := fun c hc => by cases hc}
  meaningful := ⟨fun c hc => (by cases hc),fun a _ c hc => (by cases hc)⟩

/-- Between the two questions the state is asked to make the other byte one. -/
theorem toConstant_stable_probe : ∃ c c' st1 st2 st3 s1 s2 s3,
    pairState.toConstant idealServices probeByte () = some (.constant c,st1,s1) ∧
      st1.addConstraint idealServices otherIsOne true s1 = some (true,st2,s2) ∧
      st2.toConstant idealServices probeByte s2 = some (.constant c',st3,s3) ∧
      c'.value = c.value := by
  have hbyte (C : List Expr) : Admissible pairState.symbolics C probeByte :=
    ⟨by decide,fun a _ => ⟨trivial,trivial,fun _ => ⟨one_pos,.inr mem_cons_self⟩⟩⟩
  have hone (C : List Expr) : Admissible pairState.symbolics C otherIsOne :=
    ⟨by decide,fun a _ => ⟨trivial,trivial,trivial,fun _ =>
      ⟨one_pos,.inr (mem_cons_of_mem _ mem_cons_self)⟩⟩⟩
  obtain ⟨c,st1,s1,h,hcon⟩ := toConstant_spec idealServices_sound pairState_ok (hbyte _) ()
  have hadm := hcon.symbolics ▸ hone st1.constraints
  rcases addConstraint_spec idealServices_sound hcon.ok hadm rfl true s1 with
    ⟨added,st2,s2,hadd,hout⟩ | ⟨-,-,-,hrej⟩
  · -- any value of the first byte goes with a one in the other
    have hsat : ∃ a : Assignment, a.Satisfies st1.constraints ∧ otherIsOne.eval a = 1 := by
      have hc := ((hcon.models _).mp hcon.ok.fits.satisfies).2
      refine ⟨fun arr _ => if arr = otherArray then 1 else st1.concolics.assignment probeArray 0,
        (hcon.models _).mpr ⟨fun d hd => (by cases hd),?_⟩,?_⟩
      · rw [← hc]
        rfl
      · rfl
    cases hout.added_iff.mpr (.inr ⟨rfl,hsat⟩)
    obtain ⟨c',st3,s3,h3,hvalue,-⟩ := toConstant_stable idealServices_sound pairState_ok (hbyte _) h
      (.single (.addConstraint hadm rfl hadd))
      (((hout.extended rfl).symbolics.trans hcon.symbolics) ▸ hbyte _)
    exact ⟨c,c',st1,st2,st3,s1,s2,s3,h,hadd,h3,hvalue⟩
  · cases hrej

end Executor
end S2E
