import S2E.Plugins.BehaviorSearcher

/-!
What `BehaviorSearcher::selectState` returns after `onTimer` has preempted a state.
-/

namespace S2E
open Std List Nat

variable {traits : StateTraits} {b : UInt64 × StateInfo} {draw : Draw} {s' : BehaviorSearcher}
  {info : StateInfo} {current : Option UInt64}

namespace BehaviorSearcher
variable {cfg : BehaviorConfig} {s : BehaviorSearcher}

def Reachable (info : StateInfo) : Prop := effectiveDistance info ≠ UNREACHABLE

instance (info : StateInfo) : Decidable (Reachable info) :=
  inferInstanceAs (Decidable (_ ≠ _))

lemma tupleLt_trans {as bs cs : List Int} (hab : tupleLt as bs)
    (hbc : tupleLt bs cs) : tupleLt as cs := by
  induction as generalizing bs cs with
  | nil => simp [tupleLt] at hab
  | cons a as ih =>
    match bs, cs with
    | [], _ => simp [tupleLt] at hab
    | _ :: _, [] => simp [tupleLt] at hbc
    | b :: bs, c :: cs =>
      simp only [tupleLt,Bool.or_eq_true,decide_eq_true_eq,Bool.and_eq_true,
        beq_iff_eq] at hab hbc ⊢
      rcases hab with hab | ⟨rfl,hab⟩
      · rcases hbc with hbc | ⟨rfl,-⟩
        · exact .inl (Int.lt_trans hab hbc)
        · exact .inl hab
      · rcases hbc with hbc | ⟨rfl,hbc⟩
        · exact .inl hbc
        · exact .inr ⟨rfl,ih hab hbc⟩

lemma not_tupleLt_trans {as bs cs : List Int} (hlen : as.length = bs.length)
    (hlen' : bs.length = cs.length) (hab : tupleLt as bs = false)
    (hbc : tupleLt bs cs = false) : tupleLt as cs = false := by
  induction as generalizing bs cs with
  | nil => rfl
  | cons a as ih =>
    match bs, cs with
    | [], _ => cases hlen
    | _ :: _, [] => rfl
    | b :: bs, c :: cs =>
      simp only [tupleLt,Bool.or_eq_false_iff,decide_eq_false_iff_not,Int.not_lt,
        Bool.and_eq_false_iff,beq_eq_false_iff_ne] at hab hbc ⊢
      refine ⟨Int.le_trans hbc.1 hab.1,?_⟩
      by_cases hac : a = c
      · obtain rfl : a = b := by omega
        subst hac
        exact .inr (ih (succ.inj hlen) (succ.inj hlen')
          (hab.2.resolve_left fun h => h rfl) (hbc.2.resolve_left fun h => h rfl))
      · exact .inl hac

lemma best_optimal (traits : StateTraits) (first : UInt64 × StateInfo)
    (rest : List (UInt64 × StateInfo)) :
    s.best traits first rest ∈ first :: rest ∧ ∀ x ∈ first :: rest,
      s.isBetter traits x (s.best traits first rest) = false := by
  induction rest generalizing first with
  | nil =>
    refine ⟨mem_singleton_self _,fun x hx => ?_⟩
    rw [mem_singleton.mp hx]
    simp [best,isBetter,rank,tupleLt]
  | cons it rest ih =>
    cases hit : s.isBetter traits it first with
    | true =>
      have hbest : s.best traits first (it :: rest) = s.best traits it rest := by
        simp [best,hit]
      rw [hbest]
      obtain ⟨hmem,hleast⟩ := ih it
      refine ⟨mem_cons_of_mem _ hmem,fun x hx => ?_⟩
      rcases mem_cons.mp hx with rfl | hx
      · have hfirst := hleast it mem_cons_self
        rw [Bool.eq_false_iff] at hfirst ⊢
        exact fun h => hfirst (tupleLt_trans hit h)
      · exact hleast x hx
    | false =>
      have hbest : s.best traits first (it :: rest) = s.best traits first rest := by
        simp [best,hit]
      rw [hbest]
      obtain ⟨hmem,hleast⟩ := ih first
      refine ⟨?_,fun x hx => ?_⟩
      · rcases mem_cons.mp hmem with hmem | hmem
        · rw [hmem]
          exact mem_cons_self
        · exact mem_cons_of_mem _ (mem_cons_of_mem _ hmem)
      · rcases mem_cons.mp hx with rfl | hx
        · exact hleast x mem_cons_self
        · rcases mem_cons.mp hx with rfl | hx
          · refine not_tupleLt_trans ?_ ?_ hit (hleast first mem_cons_self) <;> rfl
          · exact hleast x (mem_cons_of_mem _ hx)

/-- A reachable state that is not cooling down is no worse than such states only, if it is not
saturated no worse than such as are not saturated either, and among equally saturated ones no
worse than those not farther away. -/
lemma of_not_isBetter {x y : UInt64 × StateInfo}
    (h : s.isBetter traits x y = false) (hreach : Reachable x.2)
    (hcool : s.isCoolingDown x.2 = false) : Reachable y.2 ∧ s.isCoolingDown y.2 = false ∧
      (s.isTargetSaturated x.2 = false → s.isTargetSaturated y.2 = false) ∧
      (s.isTargetSaturated y.2 = s.isTargetSaturated x.2 →
        (effectiveDistance y.2).toNat ≤ (effectiveDistance x.2).toNat) := by
  unfold Reachable at *
  simp only [isBetter,rank,tupleLt] at h
  have hx : (effectiveDistance x.2 != UNREACHABLE) := bne_iff_ne.mpr hreach
  cases hr : effectiveDistance y.2 != UNREACHABLE <;> cases hc : s.isCoolingDown y.2 <;>
    cases hs : s.isTargetSaturated y.2 <;> cases hxs : s.isTargetSaturated x.2 <;> simp_all

lemma chosen_cases (cfg : BehaviorConfig) (s : BehaviorSearcher) (b : UInt64 × StateInfo)
    (draw : Draw) : s.chosen cfg b draw = b ∨ s.chosen cfg b draw ∈ s.candidates cfg b.2 := by
  unfold chosen
  split
  · dsimp only
    split
    next hlen =>
      have hlt := mod_lt draw.choice (lt_of_succ_lt hlen)
      rw [getD_eq_getElem?_getD,getElem?_eq_getElem hlt]
      exact .inr (getElem_mem _)
    · exact .inl rfl
  · exact .inl rfl

lemma chosen_mem (cfg : BehaviorConfig) (hbest : b ∈ s.states.toList) (draw : Draw) :
    s.chosen cfg b draw ∈ s.states.toList := by
  rcases chosen_cases cfg s b draw with h | h
  · rw [h]
    exact hbest
  · exact (mem_filter.mp h).1

lemma chosen_spec (cfg : BehaviorConfig) (hreach : Reachable b.2)
    (hcool : s.isCoolingDown b.2 = false) (draw : Draw) :
    Reachable (s.chosen cfg b draw).2 ∧ s.isCoolingDown (s.chosen cfg b draw).2 = false ∧
      (s.isTargetSaturated b.2 = false → s.isTargetSaturated (s.chosen cfg b draw).2 = false) := by
  rcases chosen_cases cfg s b draw with h | h
  · rw [h]
    exact ⟨hreach,hcool,id⟩
  have hfilter := (mem_filter.mp h).2
  simp only [hcool,Bool.and_eq_true,Bool.not_eq_true',Bool.or_eq_false_iff,
    beq_eq_false_iff_ne,Bool.not_false,Bool.and_true,Bool.and_eq_false_iff] at hfilter
  refine ⟨hfilter.1.1.1,hfilter.1.1.2,fun hsat => ?_⟩
  simpa [hsat] using hfilter.1.2

lemma chosen_of_plateau (h : cfg.plateauEpsilon = 0) : s.chosen cfg b draw = b := by
  have heps : s.getCurrentEpsilon cfg = 0 := by
    have hle := cfg.epsilon_le
    unfold getCurrentEpsilon
    split
    · exact h
    · exact Rat.le_antisymm (h ▸ hle) cfg.epsilon_nonneg
  simp [chosen,heps]

lemma selectState_mem {q : UInt64} (h : s.selectState cfg traits draw = some (q,s')) :
    ∃ info, s.states[q]? = some info ∧ s'.states = s.states.insert q
        {info with selections := info.selections+1} ∧
      s'.pendingForkStates = s.pendingForkStates ∧
      s'.currentState = some q ∧ s'.lastSelected = some q := by
  unfold selectState at h
  cases hlist : s.states.toList with
  | nil =>
    rw [hlist] at h
    cases h
  | cons first rest =>
    rw [hlist] at h
    have hbest := (s.best_optimal traits first rest).1
    rw [← hlist] at hbest
    have hmem := chosen_mem cfg hbest draw
    cases h
    exact ⟨_,Maps.mem_toList.mp hmem,rfl,rfl,rfl,rfl⟩

lemma selectState_spec (cfg : BehaviorConfig) (traits : StateTraits) (draw : Draw) {a : UInt64}
    (ha : s.states[a]? = some info) (hreach : Reachable info)
    (hcool : s.isCoolingDown info = false) :
    ∃ q qi s', s.selectState cfg traits draw = some (q,s') ∧ s.states[q]? = some qi ∧
      Reachable qi ∧ s.isCoolingDown qi = false ∧
      (s.isTargetSaturated info = false → s.isTargetSaturated qi = false) ∧
      (cfg.plateauEpsilon = 0 → s.isTargetSaturated qi = s.isTargetSaturated info →
        (effectiveDistance qi).toNat ≤ (effectiveDistance info).toNat) := by
  have hmem := Maps.mem_toList.mpr ha
  unfold selectState
  cases hlist : s.states.toList with
  | nil =>
    rw [hlist] at hmem
    cases hmem
  | cons first rest =>
    rw [hlist] at hmem
    obtain ⟨hbest,hleast⟩ := s.best_optimal traits first rest
    obtain ⟨hbreach,hbcool,hbsat,hbdist⟩ := of_not_isBetter (hleast _ hmem) hreach hcool
    rw [← hlist] at hbest
    have hq := chosen_mem cfg hbest draw
    obtain ⟨hqreach,hqcool,hqsat⟩ := chosen_spec cfg hbreach hbcool draw
    refine ⟨(s.chosen cfg (s.best traits first rest) draw).1,
      (s.chosen cfg (s.best traits first rest) draw).2,_,rfl,Maps.mem_toList.mp hq,hqreach,
      hqcool,fun h => hqsat (hbsat h),fun heps => ?_⟩
    rw [chosen_of_plateau heps]
    exact hbdist

lemma onTimer_spec (cfg : BehaviorConfig) (s : BehaviorSearcher) (yielded : UInt64 → Bool) :
    let out := s.onTimer cfg yielded
    out.1.timerTicks = s.timerTicks+1 ∧ (out.2 = none ∧ out.1.states = s.states ∨
        ∃ p old info, out.2 = some p ∧ s.states[p]? = some old ∧
          out.1.states = s.states.insert p info ∧
          info.cooldownUntilTick = s.timerTicks+1+cfg.cooldownSeconds ∧
          effectiveDistance info = effectiveDistance old ∧
          out.1.isTargetSaturated info = s.isTargetSaturated old) ∧
      out.1.pendingForkStates = s.pendingForkStates ∧ out.1.currentState = s.currentState ∧
      out.1.lastSelected = s.lastSelected ∧ out.1.reachedTargets = s.reachedTargets := by
  unfold onTimer
  dsimp only
  split
  · exact ⟨rfl,.inl ⟨rfl,rfl⟩,rfl,rfl,rfl,rfl⟩
  split
  · exact ⟨rfl,.inl ⟨rfl,rfl⟩,rfl,rfl,rfl,rfl⟩
  split
  · exact ⟨rfl,.inl ⟨rfl,rfl⟩,rfl,rfl,rfl,rfl⟩
  rename_i hinfo
  split
  · exact ⟨rfl,.inl ⟨rfl,rfl⟩,rfl,rfl,rfl,rfl⟩
  · exact ⟨rfl,.inr ⟨_,_,_,rfl,hinfo,rfl,rfl,rfl,rfl⟩,rfl,rfl,rfl,rfl⟩

lemma onTimer_ticks (yielded : UInt64 → Bool)
    (hwrap : s.timerTicks.toNat+1+cfg.cooldownSeconds.toNat < 2^64) :
    (s.onTimer cfg yielded).1.timerTicks.toNat = s.timerTicks.toNat+1 := by
  rw [(onTimer_spec cfg s yielded).1,UInt64.toNat_add]
  exact mod_eq_of_lt (by simp; omega)

/-- The events that leave the state `p` its cooldown: `p` is not added anew, the fork metadata
of `p` is not attached to it, and the clock does not wrap. -/
def Undisturbing (cfg : BehaviorConfig) (p : UInt64) (s : BehaviorSearcher) : BehaviorEvent → Prop
  | .update current addedStates _ =>
    p ∉ addedStates ∧ (current = some p → p ∉ s.pendingForkStates)
  | .timer _ => s.timerTicks.toNat+1+cfg.cooldownSeconds.toNat < 2^64
  | _ => True

structure Held (cfg : BehaviorConfig) (p : UInt64) (t : Nat) (s : BehaviorSearcher) : Prop where
  ticks : t ≤ s.timerTicks.toNat
  cooling : ∀ info, s.states[p]? = some info →
    t+cfg.cooldownSeconds.toNat ≤ info.cooldownUntilTick.toNat

namespace Held
variable {p : UInt64} {t : Nat}

section
variable (h : Held cfg p t s)
include h

lemma of_states (hticks : s'.timerTicks = s.timerTicks)
    (hstates : ∀ info', s'.states[p]? = some info' →
      ∃ info, s.states[p]? = some info ∧ info'.cooldownUntilTick = info.cooldownUntilTick) :
    Held cfg p t s' := by
  refine ⟨hticks ▸ h.ticks,fun info' hinfo' => ?_⟩
  obtain ⟨info,hinfo,hsame⟩ := hstates info' hinfo'
  rw [hsame]
  exact h.cooling info hinfo

lemma onBlockExecute (state nativePc : UInt64) :
    Held cfg p t (s.onBlockExecute cfg state nativePc) := by
  unfold BehaviorSearcher.onBlockExecute
  cases hs : s.states[state]? with
  | none => exact h
  | some old =>
    refine h.of_states rfl fun info' hinfo' => ?_
    rcases Maps.insert_eq_some.mp hinfo' with ⟨rfl,rfl⟩ | ⟨-,hinfo⟩
    · exact ⟨old,hs,rfl⟩
    · exact ⟨info',hinfo,rfl⟩

lemma onNewBlockCovered (state : UInt64) : Held cfg p t (s.onNewBlockCovered state) := by
  refine h.of_states rfl fun info' hinfo' => ?_
  rcases Maps.modify_eq_some hinfo' with hinfo | ⟨info,hinfo,rfl⟩
  · exact ⟨info',hinfo,rfl⟩
  · exact ⟨info,hinfo,rfl⟩

lemma attachCurrent (hpending : current = some p → p ∉ s.pendingForkStates) :
    Held cfg p t (s.attachCurrent current) := by
  unfold BehaviorSearcher.attachCurrent
  split
  · exact h
  split
  next _ info _ hinfo =>
    refine h.of_states rfl fun info' hinfo' => ?_
    rcases Maps.insert_eq_some.mp hinfo' with ⟨rfl,-⟩ | ⟨-,hinfo'⟩
    · exact absurd (Maps.mem_iff.mpr ⟨info,hinfo⟩) (hpending rfl)
    · exact ⟨info',hinfo',rfl⟩
  · exact h

lemma addState {inherited : StateInfo} {state : UInt64} (hne : p ≠ state) :
    Held cfg p t (s.addState inherited state) := by
  unfold BehaviorSearcher.addState
  split
  · refine h.of_states rfl fun info' hinfo' => ⟨info',?_,rfl⟩
    rwa [Maps.insert_of_ne hne] at hinfo'
  · refine h.of_states rfl fun info' hinfo' => ⟨info',?_,rfl⟩
    rwa [Maps.insertIfNew_of_ne hne] at hinfo'

lemma removeState (state : UInt64) : Held cfg p t (s.removeState state) :=
  h.of_states rfl fun info' hinfo' => ⟨info',(Maps.erase_eq_some.mp hinfo').2,rfl⟩

lemma update {addedStates : List UInt64}
    (hadded : p ∉ addedStates) (hpending : current = some p → p ∉ s.pendingForkStates)
    (removedStates : List UInt64) : Held cfg p t (s.update current addedStates removedStates) := by
  unfold BehaviorSearcher.update
  refine foldlRecOn (motive := Held cfg p t) removedStates _ ?_
    fun _ h state _ => h.removeState state
  exact foldlRecOn (motive := Held cfg p t) addedStates _ (h.attachCurrent hpending)
    fun _ h state hstate => h.addState fun heq => hadded (heq ▸ hstate)

lemma onTimer (yielded : UInt64 → Bool)
    (hwrap : s.timerTicks.toNat+1+cfg.cooldownSeconds.toNat < 2^64) :
    Held cfg p t (s.onTimer cfg yielded).1 := by
  have hnow := onTimer_ticks yielded hwrap
  have hbefore := h.ticks
  refine ⟨by omega,fun info hinfo => ?_⟩
  rcases (onTimer_spec cfg s yielded).2.1 with ⟨-,hsame⟩ | ⟨q,_,info',-,-,hinsert,hcool,-⟩
  · rw [hsame] at hinfo
    exact h.cooling info hinfo
  rw [hinsert] at hinfo
  rcases Maps.insert_eq_some.mp hinfo with ⟨-,rfl⟩ | ⟨-,hinfo⟩
  · rw [hcool,← (onTimer_spec cfg s yielded).1,UInt64.toNat_add,hnow,mod_eq_of_lt hwrap]
    omega
  · exact h.cooling info hinfo

lemma step {e : BehaviorEvent} (he : Undisturbing cfg p s e) : Held cfg p t (s.step cfg e) := by
  cases e with
  | fork traits state newStates branch =>
    simp only [BehaviorSearcher.step,onStateFork]
    split
    · exact h
    · split
      · exact h
      · exact h.of_states rfl fun info hinfo => ⟨info,hinfo,rfl⟩
  | block state nativePc => exact h.onBlockExecute state nativePc
  | covered state => exact h.onNewBlockCovered state
  | update current addedStates removedStates => exact h.update he.1 he.2 removedStates
  | timer yielded => exact h.onTimer yielded he

end
end Held

def Undisturbed (cfg : BehaviorConfig) (p : UInt64) : BehaviorSearcher → List BehaviorEvent → Prop
  | _, [] => True
  | s, e :: events => Undisturbing cfg p s e ∧ Undisturbed cfg p (s.step cfg e) events

lemma Held.run {p : UInt64} {t : Nat} {events : List BehaviorEvent} (h : Held cfg p t s)
    (hevents : Undisturbed cfg p s events) : Held cfg p t (s.run cfg events) := by
  induction events generalizing s with
  | nil => exact h
  | cons e events ih => exact ih (h.step hevents.1) hevents.2

/-- After the timer has preempted `p` and before its cooldown has elapsed, a selection returns
a reachable state that is not cooling down, if there is another such state, and thus not `p`. -/
theorem preemption_effective (cfg : BehaviorConfig) (s : BehaviorSearcher) (p : UInt64)
    (yielded : UInt64 → Bool) (hpreempt : (s.onTimer cfg yielded).2 = some p)
    (hwrap : Undisturbing cfg p s (.timer yielded)) (events : List BehaviorEvent)
    (hevents : Undisturbed cfg p (s.onTimer cfg yielded).1 events)
    (hearly : ((s.onTimer cfg yielded).1.run cfg events).timerTicks.toNat <
      (s.onTimer cfg yielded).1.timerTicks.toNat+cfg.cooldownSeconds.toNat)
    (traits : StateTraits) (draw : Draw) (a : UInt64) (info : StateInfo) :
    let s' := (s.onTimer cfg yielded).1.run cfg events
    a ≠ p → s'.states[a]? = some info → Reachable info → s'.isCoolingDown info = false →
      ∃ q qi s'', s'.selectState cfg traits draw = some (q,s'') ∧ q ≠ p ∧
        s'.states[q]? = some qi ∧ Reachable qi ∧ s'.isCoolingDown qi = false ∧
        (s'.isTargetSaturated info = false → s'.isTargetSaturated qi = false) := by
  intro s' _ ha hreach hcool
  have hheld : Held cfg p (s.onTimer cfg yielded).1.timerTicks.toNat (s.onTimer cfg yielded).1 := by
    refine ⟨Nat.le_refl _,fun info hinfo => ?_⟩
    rcases (onTimer_spec cfg s yielded).2.1 with ⟨hnone,-⟩ | ⟨q,_,info',hsome,-,hinsert,hcool,-⟩
    · rw [hnone] at hpreempt
      cases hpreempt
    obtain rfl := Option.some.inj (hsome.symm.trans hpreempt)
    rw [hinsert] at hinfo
    rcases Maps.insert_eq_some.mp hinfo with ⟨-,rfl⟩ | ⟨hne,-⟩
    · rw [hcool,← (onTimer_spec cfg s yielded).1,UInt64.toNat_add,onTimer_ticks yielded hwrap,
        mod_eq_of_lt hwrap]
    · exact absurd rfl hne
  obtain ⟨q,qi,s'',hsel,hq,hqreach,hqcool,hqsat,-⟩ :=
    selectState_spec cfg traits draw ha hreach hcool
  refine ⟨q,qi,s'',hsel,fun hqp => ?_,hq,hqreach,hqcool,hqsat⟩
  have hcooling := (hheld.run hevents).cooling qi (hqp ▸ hq)
  have hearly : s'.timerTicks.toNat < _ := hearly
  simp only [isCoolingDown,decide_eq_false_iff_not,gt_iff_lt,UInt64.lt_iff_toNat_lt] at hqcool
  omega

def oneTarget : BehaviorConfig where
  distances := [⟨0x10,0x1f,0⟩,⟨0x20,0x3f,1⟩]
  avoidEdges := []
  epsilon := 0
  plateauEpsilon := 0
  distanceSlack := 1
  plateauSeconds := 0
  quantumSeconds := 1
  maxStallSeconds := 0
  hardStallSeconds := 0
  cooldownSeconds := 5
  targetGraceSeconds := 0
  distances_ne := by decide
  ordered := by decide
  sorted := by decide
  epsilon_nonneg := by decide
  epsilon_le := by decide
  plateauEpsilon_le := by decide
  seconds_lt := by simp
  cooldown_pos := by decide
  hardStall_le := by decide

def sameTraits : StateTraits := ⟨fun _ => 0,fun a => a.toNat⟩

def twoStates : BehaviorSearcher :=
  let s := run oneTarget {} [.update (some 1) [1] [],
    .fork sameTraits 1 [1,2] (some ⟨0x40,some 0x20,some 0x30⟩),.update (some 1) [2] []]
  ((s.selectState oneTarget sameTraits ⟨0,0⟩).map Prod.snd).getD s

theorem preemption_effective_twoStates :
    let events := [.fork sameTraits 2 [2,3] none,.update (some 2) [3] []]
    ∃ q s', ((twoStates.onTimer oneTarget fun _ => false).1.run oneTarget events).selectState
      oneTarget sameTraits ⟨0,0⟩ = some (q,s') ∧ q ≠ 1 := by
  intro events
  obtain ⟨q,-,s',hsel,hne,-⟩ := preemption_effective oneTarget twoStates 1 (fun _ => false)
    (by decide +kernel) (by unfold Undisturbing; decide +kernel) events
    ⟨by unfold Undisturbing; decide +kernel,by unfold Undisturbing; decide +kernel,trivial⟩
    (by decide +kernel) sameTraits ⟨0,0⟩ 2
    {distance := 1, bestDistance := 1, locationKnown := true}
    (by decide) (by decide +kernel) (by decide +kernel) (by decide +kernel)
  exact ⟨q,s',hsel,hne⟩

/-- The state 1 forks again, its quantum ends, and the update attaches what was computed at the
fork: it is selected at once, although the state 2 is reachable and not cooling down. -/
theorem preemption_undone :
    let s := run oneTarget twoStates [.fork sameTraits 1 [1,3] (some ⟨0x20,some 0x10,some 0x20⟩)]
    let t := s.onTimer oneTarget fun _ => false
    let s' := run oneTarget t.1 [.update (some 1) [3] []]
    t.2 = some 1 ∧ s'.timerTicks.toNat < t.1.timerTicks.toNat+oneTarget.cooldownSeconds.toNat ∧
      s'.states[(2 : UInt64)]?.any
        (fun info => Reachable info ∧ s'.isCoolingDown info = false) = true ∧
      (s'.selectState oneTarget sameTraits ⟨0,0⟩).map Prod.fst = some 1 := by
  decide +kernel

def Yield.allowedRegression (cfg : BehaviorConfig) : Yield → Option UInt64
  | .quantum => some 0
  | .stall => some cfg.distanceSlack
  | _ => none

def Runnable (cfg : BehaviorConfig) (s : BehaviorSearcher) (p x : UInt64) (info : StateInfo) :
    Prop :=
  Reachable info ∧ (if x = p then s.timerTicks+1+cfg.cooldownSeconds
    else info.cooldownUntilTick) ≤ s.timerTicks+1

section
variable {p : UInt64} {yielded : UInt64 → Bool} (hpreempt : (s.onTimer cfg yielded).2 = some p)
include hpreempt

lemma onTimer_preempted (x : UInt64) :
    let t := (s.onTimer cfg yielded).1
    let Same (xi xi' : StateInfo) := effectiveDistance xi' = effectiveDistance xi ∧
      t.isTargetSaturated xi' = s.isTargetSaturated xi ∧
      (s.Runnable cfg p x xi ↔ Reachable xi' ∧ t.isCoolingDown xi' = false)
    (∀ xi, s.states[x]? = some xi → ∃ xi', t.states[x]? = some xi' ∧ Same xi xi') ∧
      ∀ xi', t.states[x]? = some xi' → ∃ xi, s.states[x]? = some xi ∧ Same xi xi' := by
  obtain ⟨hticks,hstates,-,-,-,htargets⟩ := onTimer_spec cfg s yielded
  obtain ⟨hnone,-⟩ | ⟨q,old,info,hsome,hold,hinsert,huntil,hdist,hsat⟩ := hstates
  · rw [hnone] at hpreempt
    cases hpreempt
  obtain rfl := Option.some.inj (hsome.symm.trans hpreempt)
  simp only [Runnable,hinsert,isCoolingDown,hticks,decide_eq_false_iff_not,UInt64.not_lt]
  by_cases hx : x = q
  · subst hx
    simp [hold,Reachable,huntil,hdist,hsat]
  · simp only [Maps.insert_of_ne hx,if_neg hx,isTargetSaturated,htargets]
    constructor <;> exact fun xi h => ⟨xi,h,rfl,rfl,Iff.rfl⟩

lemma selectState_preempted {x : UInt64} {xi : StateInfo} (traits : StateTraits) (draw : Draw)
    (hx : s.states[x]? = some xi) (hrun : s.Runnable cfg p x xi) :
    let t := (s.onTimer cfg yielded).1
    ∃ q qi qi' t', t.selectState cfg traits draw = some (q,t') ∧ t.states[q]? = some qi' ∧
      s.states[q]? = some qi ∧ effectiveDistance qi' = effectiveDistance qi ∧
      s.Runnable cfg p q qi ∧
      (s.isTargetSaturated xi = false → s.isTargetSaturated qi = false) ∧
      (cfg.plateauEpsilon = 0 → s.isTargetSaturated qi = s.isTargetSaturated xi →
        (effectiveDistance qi).toNat ≤ (effectiveDistance xi).toNat) := by
  intro t
  obtain ⟨xi',hx',hxdist,hxsat,hxrun⟩ := (onTimer_preempted hpreempt x).1 xi hx
  obtain ⟨hreach,hcool⟩ := hxrun.mp hrun
  obtain ⟨q,qi',t',hsel,hq',hqreach,hqcool,hsat,hdist⟩ :=
    selectState_spec cfg traits draw hx' hreach hcool
  obtain ⟨qi,hq,hqdist,hqsat,hqrun⟩ := (onTimer_preempted hpreempt q).2 qi' hq'
  rw [hxsat,hqsat] at hsat
  rw [hxsat,hqsat,hxdist,hqdist] at hdist
  exact ⟨q,qi,qi',t',hsel,hq',hq,hqdist,hqrun.mpr ⟨hqreach,hqcool⟩,hsat,hdist⟩

end

lemma yieldReason_spec {p d : UInt64} {r : Yield}
    (h : yieldReason cfg s p info = some r) (hd : r.allowedRegression cfg = some d)
    (hinfo : s.states[p]? = some info) :
    ∃ a ai, a ≠ p ∧ s.states[a]? = some ai ∧ Reachable ai ∧ s.isCoolingDown ai = false ∧
      (effectiveDistance ai).toNat ≤ (effectiveDistance info).toNat+d.toNat := by
  replace h : s.hasRunnableAlternative p d false := by
    dsimp only [yieldReason] at h
    split_ifs at h with _ _ hstall hquantum <;> cases h <;> cases hd
    · exact hstall.2.2
    · exact hquantum.2.2
  simp only [hasRunnableAlternative,hinfo,any_eq_true,Bool.and_eq_true,bne_iff_ne,
    Bool.not_eq_true',Bool.or_eq_true,beq_iff_eq,decide_eq_true_eq,Bool.not_false,
    Bool.true_and,Bool.false_or] at h
  obtain ⟨⟨a,ai⟩,hmem,⟨⟨hne,hcool⟩,hreach⟩,hnear⟩ := h
  refine ⟨a,ai,hne,Maps.mem_toList.mp hmem,hreach,hcool,?_⟩
  have hai := (effectiveDistance ai).toNat_lt
  rcases hnear with hnear | hnear
  · rw [hnear,show UNREACHABLE.toNat = 2^64-1 from rfl]
    omega
  rw [UInt64.le_iff_toNat_le] at hnear
  split at hnear
  · rw [UInt64.toNat_add] at hnear
    exact hnear.trans (mod_le _ _)
  next hfar =>
    have hmax : effectiveDistance info ≤ UNREACHABLE := UInt64.le_iff_toNat_le.mpr
      (le_of_lt_succ (effectiveDistance info).toNat_lt)
    rw [UInt64.lt_iff_toNat_lt,UInt64.toNat_sub_of_le _ _ hmax,not_and_or,not_not,
      ← UInt64.toNat_inj] at hfar
    have hun : UNREACHABLE.toNat = 2^64-1 := rfl
    omega

/-- After a preemption for the quantum or a stall the next state is no farther away than allowed,
unless the states that can run and are not saturated all are. -/
theorem preempted_distance_iff {p d : UInt64} {info : StateInfo} {r : Yield}
    (yielded : UInt64 → Bool) (traits : StateTraits) (draw : Draw) (heps : cfg.plateauEpsilon = 0)
    (hpreempt : (s.onTimer cfg yielded).2 = some p) (hinfo : s.states[p]? = some info)
    (hreason : yieldReason cfg {s with timerTicks := s.timerTicks+1} p info = some r)
    (hd : r.allowedRegression cfg = some d) :
    let t := (s.onTimer cfg yielded).1
    let limit := (effectiveDistance info).toNat+d.toNat
    let Fresh (x : UInt64) (xi : StateInfo) := s.states[x]? = some xi ∧ s.Runnable cfg p x xi ∧
      s.isTargetSaturated xi = false
    (∃ q qi t', t.selectState cfg traits draw = some (q,t') ∧ t.states[q]? = some qi ∧
        (effectiveDistance qi).toNat ≤ limit) ↔
      ((∃ x xi, Fresh x xi) → ∃ x xi, Fresh x xi ∧ (effectiveDistance xi).toNat ≤ limit) := by
  intro t limit Fresh
  constructor
  · rintro ⟨q,qi',t',hsel,hq',hnear⟩ ⟨x,xi,hx,hrun,hsat⟩
    obtain ⟨_,qi,_,_,hsel',hq,hqi,hdist,hqrun,hqsat,-⟩ :=
      selectState_preempted hpreempt traits draw hx hrun
    cases hsel.symm.trans hsel'
    cases hq'.symm.trans hq
    exact ⟨q,qi,⟨hqi,hqrun,hqsat hsat⟩,by rwa [← hdist]⟩
  · intro h
    by_cases hfresh : ∃ x xi, Fresh x xi
    · obtain ⟨x,xi,⟨hx,hrun,hsat⟩,hnear⟩ := h hfresh
      obtain ⟨q,qi,qi',t',hsel,hq',-,hdist,-,hqsat,hle⟩ :=
        selectState_preempted hpreempt traits draw hx hrun
      refine ⟨q,qi',t',hsel,hq',?_⟩
      rw [hdist]
      exact (hle heps ((hqsat hsat).trans hsat.symm)).trans hnear
    · -- all that can run are saturated, so the alternative is compared by its distance
      have hsat : ∀ x xi, s.states[x]? = some xi → s.Runnable cfg p x xi →
          s.isTargetSaturated xi := by
        intro x xi hx hrun
        by_contra hsat
        exact hfresh ⟨x,xi,hx,hrun,Bool.eq_false_iff.mpr hsat⟩
      obtain ⟨a,ai,hne,ha,hareach,hacool,hanear⟩ := yieldReason_spec hreason hd hinfo
      have harun : s.Runnable cfg p a ai := ⟨hareach,by simpa [hne,isCoolingDown] using hacool⟩
      obtain ⟨q,qi,qi',t',hsel,hq',hq,hdist,hqrun,-,hle⟩ :=
        selectState_preempted hpreempt traits draw ha harun
      refine ⟨q,qi',t',hsel,hq',?_⟩
      rw [hdist]
      exact (hle heps ((hsat q qi hq hqrun).trans (hsat a ai ha harun).symm)).trans hanear

theorem preempted_distance_twoStates :
    let t := (twoStates.onTimer oneTarget fun _ => false).1
    ∃ q qi t', t.selectState oneTarget sameTraits ⟨0,0⟩ = some (q,t') ∧
      t.states[q]? = some qi ∧ (effectiveDistance qi).toNat ≤ 1 :=
  (preempted_distance_iff (r := .quantum) (d := 0) (fun _ => false) sameTraits ⟨0,0⟩ rfl
    (by decide +kernel)
    (by decide +kernel : twoStates.states[(1 : UInt64)]? = some
      {distance := 1, bestDistance := 1, selections := 1, locationKnown := true})
    (by decide +kernel) rfl).mpr fun _ => ⟨2,
      {distance := 1, bestDistance := 1, locationKnown := true},
      ⟨by decide +kernel,by unfold Runnable; decide +kernel,by decide +kernel⟩,by decide⟩

def twoHops : BehaviorConfig :=
  { oneTarget with
    distances := oneTarget.distances ++ [⟨0x40,0x4f,2⟩]
    distances_ne := by decide
    ordered := by decide
    sorted := by decide}

/-- The state 1 is one block away from the target, the state 2 has reached it, and the state 3 is
two blocks away. Then the state 1 is selected. -/
def threeStates : BehaviorSearcher :=
  let s := run twoHops {} [.update none [1,2,3] [],.block 1 0x20,.block 2 0x10,.block 3 0x40]
  ((s.selectState twoHops sameTraits ⟨0,0⟩).map Prod.snd).getD s

/-- The state 2 is the alternative for which the state 1 yields; the state 3 is selected. -/
theorem preempted_for_farther :
    let t := threeStates.onTimer twoHops fun _ => false
    t.2 = some 1 ∧ (threeStates.states[(1 : UInt64)]?.bind (yieldReason twoHops
        {threeStates with timerTicks := threeStates.timerTicks+1} 1) = some .quantum) ∧
      threeStates.states[(1 : UInt64)]?.map effectiveDistance = some 1 ∧
      (t.1.selectState twoHops sameTraits ⟨0,0⟩).map Prod.fst = some 3 ∧
      t.1.states[(3 : UInt64)]?.map effectiveDistance = some 2 := by
  decide +kernel

end BehaviorSearcher
end S2E
