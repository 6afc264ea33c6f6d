import S2E.Lib.Maps

/-!
`klee/Searcher.h` and the two searchers of `Searcher.cpp`: what a searcher stores, and what each
of its methods keeps.
-/

namespace S2E
open List

/-- What selections depend on: the random numbers drawn at each level, and the clock. -/
structure Choices where
  random : Nat → Nat
  now : Int

/-- The methods of `Searcher` on the data of a searcher, over what can be looked up about the
states. They fail where an assertion does, where the process aborts, and where a vector is used
outside its bounds. -/
structure Searcher (E D : Type) where
  create : D
  update : E → D → List UInt64 → List UInt64 → Option D
  empty : D → Bool
  selectState : Choices → D → Option (UInt64 × D)

namespace Searcher
variable {E D : Type} (S : Searcher E D)

def addState (e : E) (t : D) (a : UInt64) : Option D := S.update e t [a] []

def removeState (e : E) (t : D) (a : UInt64) : Option D := S.update e t [] [a]

end Searcher

structure DFSSearcher where
  states : List UInt64 := []
  currentState : Option UInt64 := none

namespace DFSSearcher

def remove (s : DFSSearcher) (es : UInt64) : Option DFSSearcher :=
  let currentState := if s.currentState = some es then none else s.currentState
  if s.states.getLast? = some es then some ⟨s.states.dropLast,currentState⟩
  else if es ∈ s.states then some ⟨s.states.erase es,currentState⟩
  else none

def update (s : DFSSearcher) (added removed : List UInt64) : Option DFSSearcher :=
  let firstTime := s.states.isEmpty
  (removed.foldlM remove {s with states := s.states ++ added}).bind fun s =>
    if firstTime then s.states.head?.map fun a => {s with currentState := some a} else some s

def selectState (s : DFSSearcher) : Option (UInt64 × DFSSearcher) :=
  s.states.getLast?.map fun ret =>
    let currentState := s.currentState.getD ret
    (currentState, {s with currentState := some currentState})

end DFSSearcher

def dfsSearcher (E : Type) : Searcher E DFSSearcher where
  create := {}
  update _ := DFSSearcher.update
  empty s := s.states.isEmpty
  selectState _ := DFSSearcher.selectState

structure RandomSearcher where
  states : List UInt64 := []

namespace RandomSearcher

def remove (s : RandomSearcher) (es : UInt64) : Option RandomSearcher :=
  if es ∈ s.states then some ⟨s.states.erase es⟩ else none

def update (s : RandomSearcher) (added removed : List UInt64) : Option RandomSearcher :=
  removed.foldlM remove ⟨s.states ++ added⟩

def selectState (s : RandomSearcher) (val : Nat) : Option UInt64 := s.states[val%s.states.length]?

end RandomSearcher

def randomSearcher (E : Type) : Searcher E RandomSearcher where
  create := {}
  update _ := RandomSearcher.update
  empty s := s.states.isEmpty
  selectState c s := (s.selectState (c.random 0)).map (·,s)

def UserSearcher : (useRandomSearch : Bool) → Type
  | true => RandomSearcher
  | false => DFSSearcher

def constructUserSearcher (E : Type) :
    (useRandomSearch : Bool) → Searcher E (UserSearcher useRandomSearch)
  | true => randomSearcher E
  | false => dfsSearcher E

/-- The states in the leaves below a searcher, each with the classes on the way to it, and the
classes that are recorded for a state. -/
structure Contents (D : Type) where
  leaves : D → List (List UInt64 × UInt64)
  recorded : D → UInt64 → Option (List UInt64)
  /-- No class below is empty. -/
  Compact : D → Prop

def Contents.Holds {D : Type} (C : Contents D) (t : D) (a : UInt64) : Prop :=
  a ∈ (C.leaves t).map Prod.snd

def Contents.ofStates {D : Type} (states : D → List UInt64) : Contents D where
  leaves t := (states t).map ([],·)
  recorded _ _ := some []
  Compact _ := True

lemma Contents.holds_ofStates {D : Type} {states : D → List UInt64} {t : D} {a : UInt64} :
    (ofStates states).Holds t a ↔ a ∈ states t := by
  simp [Holds,ofStates]

structure Contents.Kept {D : Type} (C : Contents D) (t : D) : Prop where
  nodup : ((C.leaves t).map Prod.snd).Nodup
  recorded : ∀ x ∈ C.leaves t, C.recorded t x.2 = some x.1
  compact : C.Compact t

lemma Contents.kept_ofStates {D : Type} {states : D → List UInt64} {t : D}
    (h : (states t).Nodup) : (ofStates states).Kept t where
  nodup := by simpa [ofStates,Function.comp_def] using h
  recorded x hx := by
    obtain ⟨a,-,rfl⟩ := mem_map.mp hx
    rfl
  compact := trivial

/-- The methods of a searcher do with its contents what they should, under an invariant of its
own. States are added once and only removed when they are there. -/
structure Lawful {E D : Type} (S : Searcher E D) (C : Contents D) where
  Inv : D → Prop
  kept : ∀ {t}, Inv t → C.Kept t
  create : Inv S.create ∧ ∀ a, ¬C.Holds S.create a
  empty : ∀ {t}, Inv t → (S.empty t = true ↔ ∀ a, ¬C.Holds t a)
  add : ∀ {t a} (e), Inv t → ¬C.Holds t a → ∃ t', S.addState e t a = some t' ∧ Inv t' ∧
    ∀ b, C.Holds t' b ↔ b = a ∨ C.Holds t b
  remove : ∀ {t a} (e), Inv t → C.Holds t a → ∃ t', S.removeState e t a = some t' ∧ Inv t' ∧
    ∀ b, C.Holds t' b ↔ b ≠ a ∧ C.Holds t b
  select : ∀ {t a} (c), Inv t → C.Holds t a → ∃ b t', S.selectState c t = some (b,t') ∧ Inv t' ∧
    C.Holds t b ∧ ∀ b, C.Holds t' b ↔ C.Holds t b

structure DFSSearcher.Inv (s : DFSSearcher) : Prop where
  nodup : s.states.Nodup
  current : ∀ a, s.currentState = some a → a ∈ s.states

namespace DFSSearcher
variable {s : DFSSearcher} {a : UInt64}

lemma Inv.addState (h : s.Inv) (ha : a ∉ s.states) :
    ∃ s', s.update [a] [] = some s' ∧ s'.Inv ∧ s'.states = s.states ++ [a] := by
  have hnodup : (s.states ++ [a]).Nodup := by
    rw [← concat_eq_append]
    exact h.nodup.concat ha
  cases hs : s.states with
  | nil =>
    refine ⟨⟨[a],some a⟩,by simp [update,hs],⟨nodup_singleton a,fun b hb => ?_⟩,by simp⟩
    cases hb
    exact mem_singleton_self a
  | cons b rest =>
    refine ⟨{s with states := s.states ++ [a]},by simp [update,hs],⟨hnodup,fun c hc => ?_⟩,
      by rw [hs]⟩
    exact mem_append_left _ (h.current c hc)

lemma remove_eq (h : s.states.Nodup) (ha : a ∈ s.states) : s.remove a = some
      ⟨s.states.erase a,if s.currentState = some a then none else s.currentState⟩ := by
  unfold remove
  dsimp only
  by_cases hlast : s.states.getLast? = some a
  · rw [if_pos hlast]
    obtain ⟨rest,hrest⟩ := getLast?_eq_some_iff.mp hlast
    rw [hrest] at h ⊢
    have hnot : a ∉ rest := fun hmem =>
      disjoint_of_nodup_append h hmem (mem_singleton_self a)
    rw [dropLast_concat,erase_append_right _ hnot,erase_cons_head,append_nil]
  · rw [if_neg hlast,if_pos ha]

lemma Inv.removeState (h : s.Inv) (ha : a ∈ s.states) :
    ∃ s', s.update [] [a] = some s' ∧ s'.Inv ∧ ∀ b, b ∈ s'.states ↔ b ≠ a ∧ b ∈ s.states := by
  have hne : s.states.isEmpty = false := isEmpty_eq_false_iff_exists_mem.mpr ⟨a,ha⟩
  have hmem : ∀ b, b ∈ s.states.erase a ↔ b ≠ a ∧ b ∈ s.states := fun b => h.nodup.mem_erase_iff
  have hupdate : s.update [] [a] = s.remove a := by simp [update,hne]
  refine ⟨_,hupdate.trans (remove_eq h.nodup ha),⟨h.nodup.erase a,fun b hb => ?_⟩,hmem⟩
  dsimp only at hb
  split at hb
  · cases hb
  next hcurrent =>
    exact (hmem b).mpr ⟨fun e => hcurrent (e ▸ hb),h.current b hb⟩

lemma Inv.selectState (h : s.Inv) (ha : a ∈ s.states) :
    ∃ b s', s.selectState = some (b,s') ∧ s'.Inv ∧ b ∈ s.states ∧ s'.states = s.states := by
  have hret := getLast?_eq_some_getLast (ne_nil_of_mem ha)
  have hb : s.currentState.getD (s.states.getLast (ne_nil_of_mem ha)) ∈ s.states := by
    cases hc : s.currentState with
    | none => exact getLast_mem _
    | some b => exact h.current b hc
  refine ⟨_,⟨s.states,some _⟩,by rw [DFSSearcher.selectState,hret,Option.map_some],
    ⟨h.nodup,?_⟩,hb,rfl⟩
  rintro b ⟨⟩
  exact hb

end DFSSearcher

def lawfulDfs (E : Type) : Lawful (dfsSearcher E) (.ofStates DFSSearcher.states) where
  Inv := DFSSearcher.Inv
  kept h := Contents.kept_ofStates h.nodup
  create := ⟨⟨nodup_nil,nofun⟩,nofun⟩
  empty {t} _ := by
    simp only [Contents.holds_ofStates]
    exact isEmpty_iff.trans eq_nil_iff_forall_not_mem
  add {t a} _ h ha := by
    simp only [Contents.holds_ofStates] at ha ⊢
    obtain ⟨t',ht',h',hstates⟩ := h.addState ha
    exact ⟨t',ht',h',fun b => by simp [hstates,or_comm]⟩
  remove {t a} _ h ha := by
    simp only [Contents.holds_ofStates] at ha ⊢
    exact h.removeState ha
  select {t a} _ h ha := by
    simp only [Contents.holds_ofStates] at ha ⊢
    obtain ⟨b,t',ht',h',hb,hstates⟩ := h.selectState ha
    exact ⟨b,t',ht',h',hb,fun b => by rw [hstates]⟩

def lawfulRandom (E : Type) : Lawful (randomSearcher E) (.ofStates RandomSearcher.states) where
  Inv s := s.states.Nodup
  kept h := Contents.kept_ofStates h
  create := ⟨nodup_nil,nofun⟩
  empty {t} _ := by
    simp only [Contents.holds_ofStates]
    exact isEmpty_iff.trans eq_nil_iff_forall_not_mem
  add {t a} _ h ha := by
    simp only [Contents.holds_ofStates] at ha ⊢
    have hnodup : (t.states ++ [a]).Nodup := by
      rw [← concat_eq_append]
      exact h.concat ha
    exact ⟨⟨t.states ++ [a]⟩,rfl,hnodup,fun b => by simp [or_comm]⟩
  remove {t a} _ h ha := by
    simp only [Contents.holds_ofStates] at ha ⊢
    refine ⟨⟨t.states.erase a⟩,?_,h.erase a,fun b => h.mem_erase_iff⟩
    simp [Searcher.removeState,randomSearcher,RandomSearcher.update,RandomSearcher.remove,ha]
  select {t a} c h ha := by
    simp only [Contents.holds_ofStates] at ha ⊢
    have hlt : c.random 0%t.states.length < t.states.length := Nat.mod_lt _ (length_pos_of_mem ha)
    refine ⟨t.states[c.random 0%t.states.length],t,?_,h,getElem_mem hlt,fun b => .rfl⟩
    simp [randomSearcher,RandomSearcher.selectState,getElem?_eq_getElem hlt]

def UserSearcher.contents : (useRandomSearch : Bool) → Contents (UserSearcher useRandomSearch)
  | true => .ofStates RandomSearcher.states
  | false => .ofStates DFSSearcher.states

def UserSearcher.lawful (E : Type) : (useRandomSearch : Bool) →
    Lawful (constructUserSearcher E useRandomSearch) (contents useRandomSearch)
  | true => lawfulRandom E
  | false => lawfulDfs E

end S2E
