import Mathlib

/-!
The objects that plugins attach to execution states. A plugin remembers the last object it was
given by the address of its state, and the address of a deleted state may be used again. Objects
are told apart by a number that is not used again, so that a pointer to a deleted object shows.
-/

namespace S2E
open List Option Function Nat Prod

abbrev StateAddr := Nat

abbrev PluginStateRef := Nat

/-- The plugins that were loaded, and `PluginState::clone` of their objects. -/
structure LoadedPlugins (P V : Type) where
  activePluginsList : List P
  clone : P → V → V

structure PluginCache where
  pluginState : Option PluginStateRef := none
  state : Option StateAddr := none

structure PluginStates (P V : Type) where
  /-- `m_PluginState` of the states that are not deleted. -/
  states : StateAddr → Option (List (P × PluginStateRef)) := fun _ => none
  objects : PluginStateRef → Option V := fun _ => none
  nextObject : PluginStateRef := 0
  caches : P → PluginCache := fun _ => {}

namespace PluginStates
variable {P V : Type}

def allocate (w : PluginStates P V) (v : V) : PluginStateRef × PluginStates P V :=
  (w.nextObject, { w with
    objects := update w.objects w.nextObject (some v)
    nextObject := w.nextObject+1})

def deleteObject (w : PluginStates P V) (o : PluginStateRef) : Option (PluginStates P V) :=
  if (w.objects o).isSome then some {w with objects := update w.objects o none}
  else none

variable [DecidableEq P]

def refresh (w : PluginStates P V) (plugin : P) : PluginStates P V :=
  {w with caches := update w.caches plugin {}}

variable (plugins : LoadedPlugins P V) (w : PluginStates P V)

def refreshPlugins : PluginStates P V :=
  plugins.activePluginsList.foldl refresh w

/-- `S2EExecutionState::getPluginState`. What the factory of the plugin makes is an argument. -/
def stateGetPluginState (plugin : P) (s : StateAddr) (made : V) :
    Option (PluginStateRef × PluginStates P V) := do
  let pluginState ← w.states s
  match pluginState.lookup plugin with
  | some o => some (o,w)
  | none =>
    let (o,w) := w.allocate made
    some (o, {w with states := update w.states s (some ((plugin,o) :: pluginState))})

def getPluginState (plugin : P) (s : StateAddr) (made : V) :
    Option (Option PluginStateRef × PluginStates P V) := do
  if (w.caches plugin).state = some s then some ((w.caches plugin).pluginState,w)
  else
    let (o,w) ← w.stateGetPluginState plugin s made
    some (some o, {w with caches := update w.caches plugin ⟨some o,some s⟩})

def cloneObjects (plugins : LoadedPlugins P V) : List (P × PluginStateRef) → PluginStates P V →
      Option (List (P × PluginStateRef) × PluginStates P V)
  | [], w => some ([],w)
  | (plugin,o) :: rest, w => do
    let v ← w.objects o
    let (copy,w) := w.allocate (plugins.clone plugin v)
    let (copies,w) ← cloneObjects plugins rest w
    some ((plugin,copy) :: copies,w)

def clone (s ret : StateAddr) : Option (PluginStates P V) := do
  let pluginState ← w.states s
  let (copies,w) ← cloneObjects plugins pluginState w
  some {w with states := update w.states ret (some copies)}

def deleteState (s : StateAddr) : Option (PluginStates P V) := do
  let pluginState ← w.states s
  let w ← pluginState.foldlM (fun w it => w.deleteObject it.2) w
  let w := refreshPlugins plugins w
  some {w with states := update w.states s none}

inductive Call (P V : Type) where
  | create (s : StateAddr)
  | get (plugin : P) (s : StateAddr) (made : V)
  | write (plugin : P) (s : StateAddr) (made value : V)
  | clone (s ret : StateAddr)
  | delete (s : StateAddr)

def step : Call P V → Option (PluginStates P V)
  | .create s => some {w with states := update w.states s (some [])}
  | .get plugin s made => (w.getPluginState plugin s made).map Prod.snd
  | .write plugin s made value => do
    let (o,w) ← w.getPluginState plugin s made
    let o ← o
    if (w.objects o).isSome then
      some {w with objects := update w.objects o (some value)}
    else none
  | .clone s ret => w.clone plugins s ret
  | .delete s => w.deleteState plugins s

def Applies : Call P V → Prop
  | .create s => w.states s = none
  | .get plugin s _ => plugin ∈ plugins.activePluginsList ∧ (w.states s).isSome
  | .write plugin s _ _ => plugin ∈ plugins.activePluginsList ∧ (w.states s).isSome
  | .clone s ret => (w.states s).isSome ∧ w.states ret = none
  | .delete s => (w.states s).isSome

instance (plugins : LoadedPlugins P V) (w : PluginStates P V) :
    (call : Call P V) → Decidable (w.Applies plugins call)
  | .create s => inferInstanceAs (Decidable (w.states s = none))
  | .get _ _ _ => inferInstanceAs (Decidable (_ ∧ _))
  | .write _ _ _ _ => inferInstanceAs (Decidable (_ ∧ _))
  | .clone _ _ => inferInstanceAs (Decidable (_ ∧ _))
  | .delete s => inferInstanceAs (Decidable ((w.states s).isSome = true))

def run (plugins : LoadedPlugins P V) : List (Call P V) → PluginStates P V →
    Option (PluginStates P V)
  | [], w => some w
  | call :: calls, w => w.step plugins call >>= run plugins calls

def AllApply (plugins : LoadedPlugins P V) (w : PluginStates P V) : List (Call P V) → Prop
  | [] => True
  | call :: calls => w.Applies plugins call ∧ match w.step plugins call with
    | some w' => w'.AllApply plugins calls
    | none => True

def decideAllApply (plugins : LoadedPlugins P V) :
    (calls : List (Call P V)) → (w : PluginStates P V) → Decidable (w.AllApply plugins calls)
  | [], _ => inferInstanceAs (Decidable True)
  | call :: calls, w =>
    match h : w.step plugins call with
    | some w' =>
      have := decideAllApply plugins calls w'
      decidable_of_iff (w.Applies plugins call ∧ w'.AllApply plugins calls) (by simp [AllApply,h])
    | none => decidable_of_iff (w.Applies plugins call) (by simp [AllApply,h])

instance (plugins : LoadedPlugins P V) (w : PluginStates P V) (calls : List (Call P V)) :
    Decidable (w.AllApply plugins calls) :=
  decideAllApply plugins calls w

end PluginStates

abbrev PluginValues (P V : Type) := StateAddr → Option (P → Option V)

namespace PluginValues
variable {P V : Type} [DecidableEq P]

def set (m : PluginValues P V) (plugin : P) (s : StateAddr) (v : V) : PluginValues P V :=
  update m s ((m s).map fun values => update values plugin (some v))

def value (m : PluginValues P V) (plugin : P) (s : StateAddr) (made : V) : V :=
  ((m s).bind fun values => values plugin).getD made

open PluginStates in
def step (plugins : LoadedPlugins P V) (m : PluginValues P V) : Call P V → PluginValues P V
  | .create s => update m s (some fun _ => none)
  | .get plugin s made => m.set plugin s (m.value plugin s made)
  | .write plugin s _ value => m.set plugin s value
  | .clone s ret => update m ret
      ((m s).map fun values plugin => (values plugin).map (plugins.clone plugin))
  | .delete s => update m s none

end PluginValues

namespace PluginStates
variable {P V : Type} [DecidableEq P]

def Owns (w : PluginStates P V) (s : StateAddr) (p : P) (o : PluginStateRef) : Prop :=
  ∃ ps, w.states s = some ps ∧ (p,o) ∈ ps

/-- Every state has its own objects, with its values, and a plugin remembers an object of a state
that is not deleted. -/
structure Represents (plugins : LoadedPlugins P V) (w : PluginStates P V)
    (m : PluginValues P V) : Prop where
  live : ∀ s, (m s).isSome = (w.states s).isSome
  keys : ∀ {s ps}, w.states s = some ps → (ps.map Prod.fst).Nodup
  values : ∀ {s f}, m s = some f → ∀ p v, f p = some v ↔ ∃ o, w.Owns s p o ∧ w.objects o = some v
  objects : ∀ {s p o}, w.Owns s p o → ∃ v, w.objects o = some v
  owner : ∀ {s t p q o}, w.Owns s p o → w.Owns t q o → s = t ∧ p = q
  fresh : ∀ {s p o}, w.Owns s p o → o < w.nextObject
  cache : ∀ {p s}, (w.caches p).state = some s → p ∈ plugins.activePluginsList ∧
    ∃ o, (w.caches p).pluginState = some o ∧ w.Owns s p o

variable {plugins : LoadedPlugins P V} {w : PluginStates P V} {m : PluginValues P V}
variable {p : P} {s : StateAddr} {ps : List (P × PluginStateRef)} {o : PluginStateRef}

omit [DecidableEq P] in
lemma Represents.values_of_live (h : Represents plugins w m) (hps : w.states s = some ps) :
    ∃ f, m s = some f := by
  have := h.live s
  rw [hps,isSome_some] at this
  exact isSome_iff_exists.mp this

omit [DecidableEq P] in
lemma Represents.object_unique (h : Represents plugins w m) {o' : PluginStateRef}
    (ho : w.Owns s p o) (ho' : w.Owns s p o') : o = o' := by
  obtain ⟨ps,hps,ho⟩ := ho
  obtain ⟨ps',hps',ho'⟩ := ho'
  cases hps.symm.trans hps'
  exact congrArg snd (inj_on_of_nodup_map (h.keys hps) ho ho' rfl)

omit [DecidableEq P] in
lemma owns_iff (hps : w.states s = some ps) : w.Owns s p o ↔ (p,o) ∈ ps := by
  simp [Owns,hps]

variable {w' : PluginStates P V}

omit [DecidableEq P] in
lemma owns_update {new : Option (List (P × PluginStateRef))}
    (hstates : w'.states = update w.states s new) (t : StateAddr) (q : P) (r : PluginStateRef) :
    w'.Owns t q r ↔ t ≠ s ∧ w.Owns t q r ∨ t = s ∧ ∃ ps ∈ new, (q,r) ∈ ps := by
  unfold Owns
  rw [hstates]
  by_cases hts : t = s
  · subst hts
    simp [mem_def]
  · simp [hts]

lemma mem_of_lookup (hl : ps.lookup p = some o) : (p,o) ∈ ps := by
  obtain ⟨l1,l2,rfl,-⟩ := lookup_eq_some_iff.mp hl
  exact mem_append_right _ mem_cons_self

lemma not_mem_of_lookup (hl : ps.lookup p = none) : p ∉ ps.map fst := by
  intro hp
  obtain ⟨e,he,rfl⟩ := mem_map.mp hp
  have := lookup_eq_none_iff.mp hl e he
  simp at this

lemma set_value {f : P → Option V} {v : V} (hf : m s = some f) (hv : f p = some v) :
    m.set p s v = m := by
  have hsame : update f p (some v) = f := hv ▸ update_eq_self p f
  rw [PluginValues.set,hf,map_some,hsame,← hf]
  exact update_eq_self s m

lemma Represents.remember (h : Represents plugins w m) (hp : p ∈ plugins.activePluginsList)
    (ho : w.Owns s p o) :
    Represents plugins {w with caches := update w.caches p ⟨some o,some s⟩} m := by
  refine ⟨h.live,h.keys,h.values,h.objects,h.owner,h.fresh,fun {q t} hq => ?_⟩
  by_cases hqp : q = p
  · subst hqp
    simp only [update_self,some.injEq] at hq ⊢
    exact ⟨hp,o,rfl,hq ▸ ho⟩
  · simp only [update_of_ne hqp] at hq ⊢
    exact h.cache hq

lemma set_apply {t : StateAddr} {v : V} {f' : P → Option V} (hf' : m.set p s v t = some f') :
    ∃ f, m t = some f ∧ ∀ q, f' q = if t = s ∧ q = p then some v else f q := by
  unfold PluginValues.set at hf'
  by_cases hts : t = s
  · subst hts
    rw [update_self] at hf'
    obtain ⟨f,hf,rfl⟩ := map_eq_some_iff.mp hf'
    exact ⟨f,hf,fun q => by simp [update_apply]⟩
  · rw [update_of_ne hts] at hf'
    exact ⟨f',hf',fun q => by simp [hts]⟩

lemma set_isSome (v : V) (t : StateAddr) : (m.set p s v t).isSome = (m t).isSome := by
  unfold PluginValues.set
  by_cases hts : t = s
  · subst hts
    simp
  · rw [update_of_ne hts]

lemma Represents.assign (h : Represents plugins w m) (ho : w.Owns s p o) (v : V) :
    Represents plugins {w with objects := update w.objects o (some v)}
      (m.set p s v) := by
  refine ⟨fun t => (set_isSome v t).trans (h.live t),h.keys,fun {t f'} hf' q v' => ?_,
    fun {t q r} hr => ?_,h.owner,h.fresh,h.cache⟩
  · obtain ⟨f,hf,happly⟩ := set_apply hf'
    rw [happly]
    split
    next heq =>
      obtain ⟨rfl,rfl⟩ := heq
      constructor
      · rintro ⟨⟩
        exact ⟨o,ho,update_self ..⟩
      · rintro ⟨r,hr,hv⟩
        obtain rfl := h.object_unique ho hr
        simpa using hv
    next hne =>
      refine (h.values hf q v').trans (exists_congr fun r => and_congr_right fun hr => ?_)
      have hro : r ≠ o := by
        rintro rfl
        exact hne (h.owner hr ho)
      exact iff_of_eq (congrArg (· = some v') (update_of_ne hro ..).symm)
  · by_cases hro : r = o
    · subst hro
      exact ⟨v,update_self ..⟩
    · obtain ⟨v',hv'⟩ := h.objects hr
      exact ⟨v',(update_of_ne hro ..).trans hv'⟩

def attach (w : PluginStates P V) (s : StateAddr) (p : P) (ps : List (P × PluginStateRef))
    (made : V) : PluginStates P V :=
  { (w.allocate made).2 with
    states := update w.states s (some ((p,w.nextObject) :: ps))}

omit [DecidableEq P] in
lemma owns_attach (hps : w.states s = some ps) (made : V) {t : StateAddr} {q : P}
    {r : PluginStateRef} : (w.attach s p ps made).Owns t q r ↔
      w.Owns t q r ∨ t = s ∧ q = p ∧ r = w.nextObject := by
  rw [owns_update (w := w) rfl]
  by_cases hts : t = s
  · subst hts
    simp [owns_iff hps,or_comm]
  · simp [hts]

section
variable (h : Represents plugins w m)
include h

lemma Represents.attach (hps : w.states s = some ps) (hp : p ∉ ps.map fst) (made : V) :
    Represents plugins (w.attach s p ps made) (m.set p s made) := by
  have howns : ∀ {t q r}, (w.attach s p ps made).Owns t q r ↔
      w.Owns t q r ∨ t = s ∧ q = p ∧ r = w.nextObject := owns_attach hps made
  have hobject : ∀ {t q r}, w.Owns t q r →
      (w.attach s p ps made).objects r = w.objects r := fun hr =>
    update_of_ne (Nat.ne_of_lt (h.fresh hr)) ..
  have hnew : (w.attach s p ps made).objects w.nextObject = some made := update_self ..
  have hnot : ∀ {r}, ¬ w.Owns s p r := fun {r} hr =>
    hp (mem_map_of_mem (f := fst) ((owns_iff hps).mp hr))
  refine ⟨fun t => ?_,fun {t qs} ht => ?_,fun {t f'} hf' q v' => ?_,fun {t q r} hr => ?_,
    fun {t u q q' r} hr hr' => ?_,fun {t q r} hr => ?_,fun {q t} hq => ?_⟩
  · rw [set_isSome,h.live]
    by_cases hts : t = s
    · subst hts
      simp [attach,hps]
    · simp [PluginStates.attach,hts]
  · by_cases hts : t = s
    · subst hts
      simp only [attach,update_self,some.injEq] at ht
      subst ht
      exact nodup_cons.mpr ⟨hp,h.keys hps⟩
    · simp only [PluginStates.attach,update_of_ne hts] at ht
      exact h.keys ht
  · obtain ⟨f,hf,happly⟩ := set_apply hf'
    rw [happly]
    split
    next heq =>
      obtain ⟨rfl,rfl⟩ := heq
      constructor
      · rintro ⟨⟩
        exact ⟨w.nextObject,howns.mpr (.inr ⟨rfl,rfl,rfl⟩),hnew⟩
      · rintro ⟨r,hr,hv⟩
        rcases howns.mp hr with hr | ⟨-,-,rfl⟩
        · exact absurd hr hnot
        · exact hnew.symm.trans hv
    next hne =>
      refine (h.values hf q v').trans (exists_congr fun r => ?_)
      constructor
      · rintro ⟨hr,hv⟩
        exact ⟨howns.mpr (.inl hr),(hobject hr).trans hv⟩
      · rintro ⟨hr,hv⟩
        rcases howns.mp hr with hr | ⟨ht,hq,-⟩
        · exact ⟨hr,(hobject hr).symm.trans hv⟩
        · exact absurd ⟨ht,hq⟩ hne
  · rcases howns.mp hr with hr | ⟨-,-,rfl⟩
    · obtain ⟨v,hv⟩ := h.objects hr
      exact ⟨v,(hobject hr).trans hv⟩
    · exact ⟨made,hnew⟩
  · rcases howns.mp hr with hold | ⟨rfl,rfl,rfl⟩
    · rcases howns.mp hr' with hold' | ⟨-,-,rfl⟩
      · exact h.owner hold hold'
      · exact absurd (h.fresh hold) (Nat.lt_irrefl _)
    · rcases howns.mp hr' with hold' | ⟨rfl,rfl,-⟩
      · exact absurd (h.fresh hold') (Nat.lt_irrefl _)
      · exact ⟨rfl,rfl⟩
  · rcases howns.mp hr with hr | ⟨-,-,rfl⟩
    · exact lt_succ_of_lt (h.fresh hr)
    · exact lt_succ_self _
  · obtain ⟨hactive,r,hcached,hr⟩ := h.cache hq
    exact ⟨hactive,r,hcached,howns.mpr (.inl hr)⟩

lemma Represents.value_of_owns (ho : w.Owns s p o) (made : V) :
    w.objects o = some (m.value p s made) ∧ m.set p s (m.value p s made) = m := by
  obtain ⟨ps,hps,hmem⟩ := ho
  obtain ⟨f,hf⟩ := h.values_of_live hps
  obtain ⟨v,hv⟩ := h.objects ⟨ps,hps,hmem⟩
  have hfp : f p = some v := (h.values hf p v).mpr ⟨o,⟨ps,hps,hmem⟩,hv⟩
  have hvalue : m.value p s made = v := by simp [PluginValues.value,hf,hfp]
  rw [hvalue]
  exact ⟨hv,set_value hf hfp⟩

omit [DecidableEq P] in
lemma Represents.value_of_lookup (hps : w.states s = some ps)
    (hp : p ∉ ps.map fst) (made : V) : m.value p s made = made := by
  obtain ⟨f,hf⟩ := h.values_of_live hps
  have hnone : f p = none := eq_none_iff_forall_ne_some.mpr fun v hv => by
    obtain ⟨o,ho,-⟩ := (h.values hf p v).mp hv
    exact hp (mem_map_of_mem (f := fst) ((owns_iff hps).mp ho))
  simp [PluginValues.value,hf,hnone]

lemma stateGetPluginState_spec (hs : (w.states s).isSome)
    (made : V) : ∃ o w', w.stateGetPluginState p s made = some (o,w') ∧ w'.Owns s p o ∧
      w'.objects o = some (m.value p s made) ∧
      Represents plugins w' (m.set p s (m.value p s made)) := by
  obtain ⟨ps,hps⟩ := isSome_iff_exists.mp hs
  rw [stateGetPluginState,hps,bind_eq_bind,bind_some]
  cases hl : ps.lookup p with
  | some o =>
    have ho : w.Owns s p o := (owns_iff hps).mpr (mem_of_lookup hl)
    obtain ⟨hv,hsame⟩ := h.value_of_owns ho made
    exact ⟨o,w,rfl,ho,hv,hsame.symm ▸ h⟩
  | none =>
    have hnot := not_mem_of_lookup hl
    rw [h.value_of_lookup hps hnot]
    exact ⟨w.nextObject,w.attach s p ps made,rfl,
      (owns_attach hps made).mpr (.inr ⟨rfl,rfl,rfl⟩),update_self ..,
      h.attach hps hnot made⟩

lemma getPluginState_spec (hp : p ∈ plugins.activePluginsList)
    (hs : (w.states s).isSome) (made : V) :
    ∃ o w', w.getPluginState p s made = some (some o,w') ∧ w'.Owns s p o ∧
      w'.objects o = some (m.value p s made) ∧
      Represents plugins w' (m.set p s (m.value p s made)) := by
  unfold getPluginState
  by_cases hcached : (w.caches p).state = some s
  · obtain ⟨-,o,hpointer,ho⟩ := h.cache hcached
    obtain ⟨hv,hsame⟩ := h.value_of_owns ho made
    exact ⟨o,w,by rw [if_pos hcached,hpointer],ho,hv,hsame.symm ▸ h⟩
  · obtain ⟨o,w',hget,ho,hv,h'⟩ := stateGetPluginState_spec (p := p) h hs made
    rw [if_neg hcached,hget,bind_eq_bind,bind_some]
    exact ⟨o,_,rfl,ho,hv,h'.remember hp ho⟩

end

structure Copies (plugins : LoadedPlugins P V) (w w' : PluginStates P V)
    (ps copies : List (P × PluginStateRef)) : Prop where
  states : w'.states = w.states
  caches : w'.caches = w.caches
  next : w.nextObject ≤ w'.nextObject
  objects : ∀ o, o < w.nextObject → w'.objects o = w.objects o
  keys : copies.map Prod.fst = ps.map Prod.fst
  copied : ∀ {p o'}, (p,o') ∈ copies → ∃ o v, (p,o) ∈ ps ∧ w.objects o = some v ∧
    w'.objects o' = some (plugins.clone p v)
  range : ∀ {p o'}, (p,o') ∈ copies → w.nextObject ≤ o' ∧ o' < w'.nextObject
  inj : ∀ {p q o'}, (p,o') ∈ copies → (q,o') ∈ copies → p = q

omit [DecidableEq P] in
lemma Copies.nil (plugins : LoadedPlugins P V) (w : PluginStates P V) :
    Copies plugins w w [] [] :=
  ⟨rfl,rfl,Nat.le_refl _,fun _ _ => rfl,rfl,nofun,nofun,nofun⟩

variable {copies : List (P × PluginStateRef)}

omit [DecidableEq P] in
lemma Copies.cons {v : V} (h : Copies plugins (w.allocate (plugins.clone p v)).2 w' ps copies)
    (hfresh : ∀ {q r}, (q,r) ∈ ps → r < w.nextObject) (ho : w.objects o = some v) :
    Copies plugins w w' ((p,o) :: ps) ((p,w.nextObject) :: copies) := by
  have hlt : w.nextObject < w'.nextObject := h.next
  have hnew : w'.objects w.nextObject = some (plugins.clone p v) :=
    (h.objects _ (lt_succ_self _)).trans (update_self ..)
  have hold : ∀ {r}, r < w.nextObject →
      (w.allocate (plugins.clone p v)).2.objects r = w.objects r := fun hr =>
    update_of_ne (Nat.ne_of_lt hr) ..
  refine ⟨h.states,h.caches,Nat.le_of_lt hlt,fun r hr => ?_,congrArg (p :: ·) h.keys,
    fun {q r'} hr => ?_,fun {q r'} hr => ?_,fun {q q' r'} hr hr' => ?_⟩
  · exact (h.objects r (lt_succ_of_lt hr)).trans (hold hr)
  · rcases mem_cons.mp hr with heq | hr
    · cases heq
      exact ⟨o,v,mem_cons_self,ho,hnew⟩
    · obtain ⟨r,u,hmem,hu,hcopy⟩ := h.copied hr
      exact ⟨r,u,mem_cons_of_mem _ hmem,(hold (hfresh hmem)).symm.trans hu,hcopy⟩
  · rcases mem_cons.mp hr with heq | hr
    · cases heq
      exact ⟨Nat.le_refl _,hlt⟩
    · exact ⟨le_of_succ_le (h.range hr).1,(h.range hr).2⟩
  · rcases mem_cons.mp hr with heq | hr <;> rcases mem_cons.mp hr' with heq' | hr'
    · cases heq
      cases heq'
      rfl
    · cases heq
      exact absurd (h.range hr').1 (not_succ_le_self _)
    · cases heq'
      exact absurd (h.range hr).1 (not_succ_le_self _)
    · exact h.inj hr hr'

omit [DecidableEq P] in
lemma cloneObjects_spec (hobjects : ∀ {q r}, (q,r) ∈ ps → ∃ v, w.objects r = some v)
    (hfresh : ∀ {q r}, (q,r) ∈ ps → r < w.nextObject) :
    ∃ copies w', cloneObjects plugins ps w = some (copies,w') ∧ Copies plugins w w' ps copies := by
  induction ps generalizing w with
  | nil => exact ⟨[],w,rfl,Copies.nil plugins w⟩
  | cons e ps ih =>
    obtain ⟨p,o⟩ := e
    obtain ⟨v,hv⟩ := hobjects mem_cons_self
    have hfresh' : ∀ {q r}, (q,r) ∈ ps → r < w.nextObject := fun hr =>
      hfresh (mem_cons_of_mem _ hr)
    obtain ⟨copies,w',hclone,hcopies⟩ := ih (w := (w.allocate (plugins.clone p v)).2)
      (fun hr => by
        obtain ⟨u,hu⟩ := hobjects (mem_cons_of_mem _ hr)
        exact ⟨u,(update_of_ne (Nat.ne_of_lt (hfresh' hr)) ..).trans hu⟩)
      (fun hr => lt_succ_of_lt (hfresh' hr))
    refine ⟨(p,w.nextObject) :: copies,w',?_,hcopies.cons hfresh' hv⟩
    rw [cloneObjects,hv,bind_eq_bind,bind_some]
    simp only [allocate] at hclone ⊢
    rw [hclone]
    rfl

omit [DecidableEq P] in
lemma Represents.arrive
    (h : Represents plugins w m) (hs : w.states s = none) (hcopies : Copies plugins w w' ps copies)
    (hkeys : (ps.map fst).Nodup) {g : P → Option V}
    (hg : ∀ p v, g p = some v ↔ ∃ o, (p,o) ∈ copies ∧ w'.objects o = some v) :
    Represents plugins {w' with states := update w.states s (some copies)}
      (update m s (some g)) := by
  have howns : ∀ {t q r}, PluginStates.Owns
      {w' with states := update w.states s (some copies)} t q r ↔
      t ≠ s ∧ w.Owns t q r ∨ t = s ∧ (q,r) ∈ copies := fun {t q r} => by
    rw [owns_update (w := w) rfl]
    simp
  have hobject : ∀ {t q r}, w.Owns t q r → w'.objects r = w.objects r := fun hr =>
    hcopies.objects _ (h.fresh hr)
  refine ⟨fun t => ?_,fun {t qs} ht => ?_,fun {t f} hf q v => ?_,fun {t q r} hr => ?_,
    fun {t u q q' r} hr hr' => ?_,fun {t q r} hr => ?_,fun {q t} hq => ?_⟩
  · by_cases hts : t = s
    · subst hts
      simp
    · simpa [hts] using h.live t
  · by_cases hts : t = s
    · subst hts
      simp only [update_self,some.injEq] at ht
      rwa [← ht,hcopies.keys]
    · simp only [update_of_ne hts] at ht
      exact h.keys ht
  · by_cases hts : t = s
    · subst hts
      simp only [update_self,some.injEq] at hf
      subst hf
      simpa [howns] using hg q v
    · rw [update_of_ne hts] at hf
      refine (h.values hf q v).trans (exists_congr fun r => ?_)
      simp only [howns,hts,ne_eq,not_false_eq_true,true_and,false_and,or_false]
      exact and_congr_right fun hr => by rw [hobject hr]
  · rcases howns.mp hr with ⟨-,hr⟩ | ⟨-,hr⟩
    · obtain ⟨v,hv⟩ := h.objects hr
      exact ⟨v,(hobject hr).trans hv⟩
    · obtain ⟨o,v,-,-,hv⟩ := hcopies.copied hr
      exact ⟨_,hv⟩
  · rcases howns.mp hr with ⟨-,hold⟩ | ⟨rfl,hnew⟩
    · rcases howns.mp hr' with ⟨-,hold'⟩ | ⟨-,hnew'⟩
      · exact h.owner hold hold'
      · exact absurd (h.fresh hold) (Nat.not_lt_of_le (hcopies.range hnew').1)
    · rcases howns.mp hr' with ⟨-,hold'⟩ | ⟨rfl,hnew'⟩
      · exact absurd (h.fresh hold') (Nat.not_lt_of_le (hcopies.range hnew).1)
      · exact ⟨rfl,hcopies.inj hnew hnew'⟩
  · rcases howns.mp hr with ⟨-,hr⟩ | ⟨-,hr⟩
    · exact Nat.lt_of_lt_of_le (h.fresh hr) hcopies.next
    · exact (hcopies.range hr).2
  · simp only [hcopies.caches] at hq ⊢
    obtain ⟨hactive,o,hcached,ps',hps',ho⟩ := h.cache hq
    refine ⟨hactive,o,hcached,howns.mpr (.inl ⟨?_,ps',hps',ho⟩)⟩
    rintro rfl
    cases hs.symm.trans hps'

omit [DecidableEq P] in
lemma Represents.create (h : Represents plugins w m) (hs : w.states s = none) :
    Represents plugins {w with states := update w.states s (some [])}
      (update m s (some fun _ => none)) :=
  h.arrive hs (Copies.nil plugins w) nodup_nil fun _ _ => by simp

lemma clone_spec (h : Represents plugins w m) (hps : w.states s = some ps) {ret : StateAddr}
    (hret : w.states ret = none) : ∃ w', w.clone plugins s ret = some w' ∧
      Represents plugins w' (m.step plugins (.clone s ret)) ∧
      ∀ {p o}, w.Owns s p o → ∃ o', w'.Owns ret p o' ∧ o' ≠ o ∧
        w'.objects o' = (w.objects o).map (plugins.clone p) := by
  obtain ⟨f,hf⟩ := h.values_of_live hps
  obtain ⟨copies,w',hclone,hcopies⟩ : ∃ copies w',
      cloneObjects plugins ps w = some (copies,w') ∧ Copies plugins w w' ps copies :=
    cloneObjects_spec (fun hr => h.objects ((owns_iff hps).mpr hr))
      (fun hr => h.fresh ((owns_iff hps).mpr hr))
  -- the entry of a plugin in the one list has its entry in the other
  have hcopied : ∀ {p o}, w.Owns s p o → ∃ o', (p,o') ∈ copies ∧
      w'.objects o' = (w.objects o).map (plugins.clone p) := fun {p o} ho => by
    have hp : p ∈ copies.map fst := by
      rw [hcopies.keys]
      exact mem_map_of_mem (f := fst) ((owns_iff hps).mp ho)
    obtain ⟨⟨_,o'⟩,ho',rfl⟩ := mem_map.mp hp
    obtain ⟨r,v,hr,hv,hcopy⟩ := hcopies.copied ho'
    obtain rfl := h.object_unique ho ((owns_iff hps).mpr hr)
    exact ⟨o',ho',by rw [hcopy,hv,map_some]⟩
  have hvalues : ∀ p v, (f p).map (plugins.clone p) = some v ↔
      ∃ o', (p,o') ∈ copies ∧ w'.objects o' = some v := fun p v => by
    constructor
    · intro hv
      obtain ⟨u,hu,rfl⟩ := map_eq_some_iff.mp hv
      obtain ⟨o,ho,hou⟩ := (h.values hf p u).mp hu
      obtain ⟨o',ho',hcopy⟩ := hcopied ho
      exact ⟨o',ho',by rw [hcopy,hou,map_some]⟩
    · rintro ⟨o',ho',hv⟩
      obtain ⟨r,u,hr,hu,hcopy⟩ := hcopies.copied ho'
      rw [(h.values hf p u).mpr ⟨r,(owns_iff hps).mpr hr,hu⟩,map_some,← hcopy,hv]
  refine ⟨{w' with states := update w.states ret (some copies)},?_,?_,fun {p o} ho => ?_⟩
  · simp [clone,hps,hclone,hcopies.states]
  · rw [PluginValues.step,hf,map_some]
    exact h.arrive hret hcopies (h.keys hps) hvalues
  · obtain ⟨o',ho',hcopy⟩ := hcopied ho
    refine ⟨o',⟨copies,update_self ..,ho'⟩,?_,hcopy⟩
    rintro rfl
    exact absurd (h.fresh ho) (Nat.not_lt_of_le (hcopies.range ho').1)

omit [DecidableEq P] in
lemma deleteObjects_spec (hnodup : (ps.map snd).Nodup)
    (hobjects : ∀ {q r}, (q,r) ∈ ps → ∃ v, w.objects r = some v) :
    ps.foldlM (fun w it => w.deleteObject it.2) w =
      some {w with objects := fun r => if r ∈ ps.map snd then none else w.objects r} := by
  induction ps generalizing w with
  | nil => simp
  | cons e ps ih =>
    obtain ⟨hnot,hnodup⟩ := nodup_cons.mp hnodup
    obtain ⟨v,hv⟩ := hobjects (mem_cons_self (a := e))
    rw [foldlM_cons,deleteObject,if_pos (by simp [hv]),bind_eq_bind,
      bind_some,ih hnodup fun {q r} hr => ?_]
    · refine congrArg (fun f : PluginStateRef → Option V => some {w with objects := f})
        (funext fun r => ?_)
      by_cases hre : r = e.2
      · subst hre
        simp
      · have hmem : r ∈ (e :: ps).map snd ↔ r ∈ ps.map snd := by simp [hre]
        simp only [update_of_ne hre,hmem]
    · have hre : r ≠ e.2 := by
        rintro rfl
        exact hnot (mem_map.mpr ⟨_,hr,rfl⟩)
      simpa [update_of_ne hre] using hobjects (mem_cons_of_mem _ hr)

lemma refreshPlugins_eq (plugins : LoadedPlugins P V) (w : PluginStates P V) :
    w.refreshPlugins plugins =
      {w with caches := fun p => if p ∈ plugins.activePluginsList then {} else w.caches p} := by
  unfold refreshPlugins
  induction plugins.activePluginsList generalizing w with
  | nil => simp
  | cons q active ih =>
    rw [foldl_cons,ih,refresh]
    refine congrArg (fun f => {w with caches := f}) (funext fun p => ?_)
    by_cases hp : p = q
    · subst hp
      simp
    · simp [hp]

lemma delete_spec (h : Represents plugins w m) (hps : w.states s = some ps) :
    ∃ w', w.deleteState plugins s = some w' ∧
      Represents plugins w' (m.step plugins (.delete s)) := by
  have hnodup : (ps.map snd).Nodup :=
    (List.Nodup.of_map _ (h.keys hps)).map_on fun e he e' he' heq => by
      obtain ⟨p,o⟩ := e
      obtain ⟨q,o'⟩ := e'
      obtain rfl : o = o' := heq
      obtain ⟨-,rfl⟩ := h.owner ((owns_iff hps).mpr he) ((owns_iff hps).mpr he')
      rfl
  have hdelete := deleteObjects_spec hnodup fun hr => h.objects ((owns_iff hps).mpr hr)
  simp only [deleteState,hps,hdelete,bind_eq_bind,bind_some,refreshPlugins_eq]
  refine ⟨_,rfl,?_⟩
  have howns : ∀ {objects next caches t q r}, PluginStates.Owns
      (⟨update w.states s none,objects,next,caches⟩ : PluginStates P V) t q r ↔
      t ≠ s ∧ w.Owns t q r := fun {_ _ _ t q r} => by
    rw [owns_update (w := w) rfl]
    simp
  have hkept : ∀ {t q r}, t ≠ s → w.Owns t q r → r ∉ ps.map snd := fun hts hr hin => by
    obtain ⟨⟨q',_⟩,he,rfl⟩ := mem_map.mp hin
    exact hts (h.owner hr ((owns_iff hps).mpr he)).1
  refine ⟨fun t => ?_,fun {t qs} ht => ?_,fun {t f} hf q v => ?_,fun {t q r} hr => ?_,
    fun hr hr' => ?_,fun hr => ?_,fun {q t} hq => ?_⟩
  · by_cases hts : t = s
    · subst hts
      simp [PluginValues.step]
    · simpa [PluginValues.step,hts] using h.live t
  · by_cases hts : t = s
    · subst hts
      simp at ht
    · simp only [update_of_ne hts] at ht
      exact h.keys ht
  · by_cases hts : t = s
    · subst hts
      simp [PluginValues.step] at hf
    · simp only [PluginValues.step,update_of_ne hts] at hf
      refine (h.values hf q v).trans (exists_congr fun r => ?_)
      rw [howns]
      simp only [hts,ne_eq,not_false_eq_true,true_and]
      exact and_congr_right fun hr => by rw [if_neg (hkept hts hr)]
  · obtain ⟨hts,hr⟩ := howns.mp hr
    obtain ⟨v,hv⟩ := h.objects hr
    exact ⟨v,by simp only [if_neg (hkept hts hr),hv]⟩
  · exact h.owner (howns.mp hr).2 (howns.mp hr').2
  · exact h.fresh (howns.mp hr).2
  · -- every plugin that remembers something is active, and was refreshed
    dsimp only at hq
    split at hq
    · cases hq
    next hactive =>
      exact absurd (h.cache hq).1 hactive

lemma step_spec (h : Represents plugins w m) {call : Call P V} (ha : w.Applies plugins call) :
    ∃ w', w.step plugins call = some w' ∧ Represents plugins w' (m.step plugins call) := by
  cases call with
  | create s => exact ⟨_,rfl,h.create ha⟩
  | get p s made =>
    obtain ⟨o,w',hget,-,-,h'⟩ := getPluginState_spec h ha.1 ha.2 made
    exact ⟨w',by rw [step,hget]; rfl,h'⟩
  | write p s made value =>
    obtain ⟨o,w',hget,ho,hv,h'⟩ := getPluginState_spec h ha.1 ha.2 made
    refine ⟨{w' with objects := update w'.objects o (some value)},?_,?_⟩
    · simp [step,hget,hv]
    · have hset : (m.set p s (m.value p s made)).set p s value = m.set p s value := by
        unfold PluginValues.set
        rw [update_self,update_idem,Option.map_map]
        exact congrArg (fun f => update m s ((m s).map f))
          (funext fun f => update_idem ..)
      have hassign := h'.assign ho value
      rw [hset] at hassign
      exact hassign
  | clone s ret =>
    obtain ⟨ps,hps⟩ := isSome_iff_exists.mp ha.1
    obtain ⟨w',hclone,h',-⟩ := clone_spec h hps ha.2
    exact ⟨w',hclone,h'⟩
  | delete s =>
    obtain ⟨ps,hps⟩ := isSome_iff_exists.mp ha
    exact delete_spec h hps

lemma run_spec (h : Represents plugins w m) {calls : List (Call P V)}
    (ha : w.AllApply plugins calls) : ∃ w', run plugins calls w = some w' ∧
      Represents plugins w' (calls.foldl (PluginValues.step plugins) m) := by
  induction calls generalizing w m with
  | nil => exact ⟨w,rfl,h⟩
  | cons call calls ih =>
    obtain ⟨hcall,hrest⟩ := ha
    obtain ⟨w1,hw1,h1⟩ := step_spec h hcall
    rw [hw1] at hrest
    obtain ⟨w',hw',h'⟩ := ih h1 hrest
    exact ⟨w',by rw [run,hw1]; exact hw',h'⟩

omit [DecidableEq P] in
lemma represents_start (plugins : LoadedPlugins P V) :
    Represents plugins ({} : PluginStates P V) fun _ => none := by
  have hnot : ∀ {s p o}, ¬ Owns ({} : PluginStates P V) s p o := by simp [Owns]
  exact ⟨fun _ => rfl,nofun,nofun,fun ho => absurd ho hnot,
    fun ho => absurd ho hnot,fun ho => absurd ho hnot,nofun⟩

/-- After any calls a plugin gets, for a state that is not deleted, an object that is its own in
this state only, is not deleted, and has the value of the plugin in this state. The states of a
clone are copies of those of the state it was made from. -/
theorem plugin_state_per_state (plugins : LoadedPlugins P V) (calls : List (Call P V))
    (h : AllApply plugins {} calls) : ∃ w, run plugins calls {} = some w ∧
      (∀ p ∈ plugins.activePluginsList, ∀ s, (w.states s).isSome → ∀ made,
        ∃ o w', w.getPluginState p s made = some (some o,w') ∧
          (∀ t q, w'.Owns t q o ↔ t = s ∧ q = p) ∧ w'.objects o = some
            (PluginValues.value (calls.foldl (PluginValues.step plugins) fun _ => none) p s made)) ∧
      (∀ s ret, w.Applies plugins (.clone s ret) → ∃ w', w.clone plugins s ret = some w' ∧
        ∀ p o, w.Owns s p o → ∃ o', w'.Owns ret p o' ∧ o' ≠ o ∧
          w'.objects o' = (w.objects o).map (plugins.clone p)) := by
  obtain ⟨w,hw,hrep⟩ := run_spec (represents_start plugins) h
  refine ⟨w,hw,fun p hp s hs made => ?_,fun s ret ha => ?_⟩
  · obtain ⟨o,w',hget,ho,hv,h'⟩ := getPluginState_spec hrep hp hs made
    refine ⟨o,w',hget,fun t q => ⟨fun ht => h'.owner ht ho,?_⟩,hv⟩
    rintro ⟨rfl,rfl⟩
    exact ho
  · obtain ⟨ps,hps⟩ := isSome_iff_exists.mp ha.1
    obtain ⟨w',hclone,-,hcopied⟩ := clone_spec hrep hps ha.2
    exact ⟨w',hclone,fun p o ho => hcopied ho⟩

theorem plugin_state_of_reused_address :
    let plugins : LoadedPlugins Bool Nat := ⟨[false,true],fun _ v => v⟩
    let calls : List (Call Bool Nat) := [.create 64,.write true 64 0 7,.get false 64 1,
      .clone 64 128,.get true 64 0,.delete 64,.create 64]
    ∃ w, run plugins calls {} = some w ∧
      (∃ o w', w.getPluginState true 64 5 = some (some o,w') ∧ w'.objects o = some 5) ∧
      ∃ o w', w.getPluginState true 128 5 = some (some o,w') ∧ w'.objects o = some 7 := by
  intro plugins calls
  have hall : AllApply plugins {} calls := by decide +kernel
  obtain ⟨w,hw,hget,-⟩ := plugin_state_per_state plugins calls hall
  have hlive : ((run plugins calls {}).map fun w => (w.states 64).isSome && (w.states 128).isSome) =
      some true := by decide +kernel
  rw [hw,map_some,some.injEq,Bool.and_eq_true] at hlive
  obtain ⟨o,w',ho,-,hv⟩ := hget true (by decide) 64 hlive.1 5
  obtain ⟨r,w'',hr,-,hu⟩ := hget true (by decide) 128 hlive.2 5
  exact ⟨w,hw,⟨o,w',ho,hv⟩,r,w'',hr,hu⟩

end PluginStates
end S2E
