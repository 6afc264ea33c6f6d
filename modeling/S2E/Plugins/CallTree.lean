import Mathlib

/-!
`CallTree`: the things that were seen in each calling context, with the number of things below
each call. Calls are on a heap, so that a call which was deleted can be told from one that was
not; reading or writing a deleted call is no step of the model.
-/

namespace S2E
open List Option Function Nat

structure CallStackEntry where
  module : String
  functionName : String
  returnAddress : Nat
  functionAddress : Nat

abbrev Frame := Nat × String × Nat

def CallStackEntry.frame (ce : CallStackEntry) : Frame :=
  (ce.returnAddress,ce.module,ce.functionAddress)

abbrev CallStack := List CallStackEntry

def CallStack.frames (cs : CallStack) : List Frame := cs.map CallStackEntry.frame

abbrev Location := String × Nat

abbrev CallRef := Nat

/-- The call sites are in the order in which they were entered. A set of things at a location is
never empty, so that the sets are given by their pairs of a location and a thing. -/
structure FunctionCall (T : Type) where
  parent : Option CallRef
  module : String
  function : Nat
  functionName : String
  callSites : List (Nat × CallRef)
  things : List (Location × T)
  thingsCount : Int

structure CallTree (T : Type) where
  calls : CallRef → Option (FunctionCall T)
  next : CallRef
  thingsLocation : List (T × CallRef)
  removeEmptyCallStacks : Bool

variable {fuel : Nat} {ce : CallStackEntry}

namespace CallTree
variable {T : Type}

def root : CallRef := 0

def start (removeEmptyCallStacks : Bool) : CallTree T where
  calls := update (fun _ => none) root
    (some ⟨none, "system",0, "<unknownfunc>",[],[],0⟩)
  next := 1
  thingsLocation := []
  removeEmptyCallStacks := removeEmptyCallStacks

variable (s : CallTree T)

def set (n : CallRef) (call : FunctionCall T) : CallTree T :=
  {s with calls := update s.calls n (some call)}

lemma ext_calls {s s' : CallTree T} (hnext : s.next = s'.next)
    (hlocation : s.thingsLocation = s'.thingsLocation)
    (hremove : s.removeEmptyCallStacks = s'.removeEmptyCallStacks)
    (hcalls : ∀ n, s.calls n = s'.calls n) : s = s' := by
  obtain ⟨calls,_,_,_⟩ := s
  obtain ⟨calls',_,_,_⟩ := s'
  obtain rfl : calls = calls' := funext hcalls
  cases hnext
  cases hlocation
  cases hremove
  rfl

@[simp] lemma set_calls_self (n : CallRef) (call : FunctionCall T) :
    (s.set n call).calls n = some call :=
  update_self ..

lemma set_calls_of_ne {n m : CallRef} (call : FunctionCall T) (h : m ≠ n) :
    (s.set n call).calls m = s.calls m :=
  update_of_ne h ..

def modify (n : CallRef) (f : FunctionCall T → FunctionCall T) : Option (CallTree T) := do
  let call ← s.calls n
  some (s.set n (f call))

/-- The call and those above it. A call is made after its caller, so that there are no more of
them than calls were made. -/
def updateThingsCount (increment : Int) : Nat → CallRef → CallTree T → Option (CallTree T)
  | 0, _, _ => none
  | fuel+1, fc, s => do
    let call ← s.calls fc
    let s := s.set fc {call with thingsCount := call.thingsCount+increment}
    match call.parent with
    | none => some s
    | some parent => updateThingsCount increment fuel parent s

def get (s : CallTree T) (ce : CallStackEntry) : List (Nat × CallRef) → Option (Option CallRef)
  | [] => some none
  | (callSite,fc) :: callSites =>
    if callSite = ce.returnAddress then do
      let call ← s.calls fc
      if call.module = ce.module ∧ call.function = ce.functionAddress then some (some fc)
      else get s ce callSites
    else get s ce callSites

/-- `FunctionCall::remove(call)`: erases the call site, that is, every call from there. The call
has no call sites of its own, so that deleting it deletes nothing else. -/
def removeCall : Nat → CallRef → CallRef → CallTree T → Option (CallTree T)
  | 0, _, _, _ => none
  | fuel+1, this, call, s => do
    let node ← s.calls this
    let s ← match node.callSites.find? (·.2 = call) with
      | none => some s
      | some (callSite,_) => do
        let called ← s.calls call
        if called.thingsCount = 0 then
          let s := s.set this {node with callSites := node.callSites.filter (·.1 ≠ callSite)}
          some {s with calls := update s.calls call none}
        else none
    let node ← s.calls this
    if node.things = [] ∧ node.callSites = [] then
      match node.parent with
      | none => some s
      | some parent => removeCall fuel parent this s
    else some s

variable [DecidableEq T]

def removeThing (thing : T) (removeParents : Bool) (fc : CallRef) (s : CallTree T) :
    Option (CallTree T) := do
  let call ← s.calls fc
  let s ← (call.things.filter (·.2 = thing)).foldlM
    (fun s _ => updateThingsCount (-1) s.next fc s) s
  let s ← s.modify fc fun call => {call with things := call.things.filter (·.2 ≠ thing)}
  if removeParents then removeCall (s.next+1) fc fc s else some s

def enter : CallStack → CallRef → CallTree T → Option (CallRef × CallTree T)
  | [], current, s => some (current,s)
  | ce :: cs, current, s => do
    let call ← s.calls current
    match ← s.get ce call.callSites with
    | some child => enter cs child s
    | none =>
      let child := s.next
      let s := s.set child ⟨some current,ce.module,ce.functionAddress,ce.functionName,[],[],0⟩
      let callSites := call.callSites ++ [(ce.returnAddress,child)]
      let s := s.set current {call with callSites := callSites}
      enter cs child {s with next := child+1}

variable (s : CallTree T)

def find (thing : T) : Option CallRef :=
  (s.thingsLocation.find? (·.1 = thing)).map Prod.snd

def add (thing : T) (cs : CallStack) (loc : Location) : Option (Bool × CallTree T) := do
  if (s.find thing).isSome then some (false,s)
  else
    let (current,s) ← enter cs root s
    let s ← s.modify current fun call =>
      { call with things := if (loc,thing) ∈ call.things then call.things
          else call.things ++ [(loc,thing)]}
    let s ← updateThingsCount 1 s.next current s
    some (true, {s with thingsLocation := (thing,current) :: s.thingsLocation})

def remove (thing : T) : Option (CallTree T) :=
  match s.find thing with
  | none => some s
  | some fc => do
    let s ← removeThing thing s.removeEmptyCallStacks fc s
    some {s with thingsLocation := s.thingsLocation.filter (·.1 ≠ thing)}

def setRemoveEmptyCallStacks : CallTree T :=
  {s with removeEmptyCallStacks := true}

structure Shape (path : CallRef → List Frame) : Prop where
  lt_next : ∀ {n c}, s.calls n = some c → n < s.next
  root_call : ∃ c, s.calls root = some c ∧ c.parent = none
  root_path : path root = []
  child : ∀ {p P e}, s.calls p = some P → e ∈ P.callSites → ∃ C, s.calls e.2 = some C ∧
    C.parent = some p ∧ path e.2 = path p ++ [(e.1,C.module,C.function)] ∧ p < e.2
  parent : ∀ {n c}, s.calls n = some c → n ≠ root →
    ∃ p P k, c.parent = some p ∧ s.calls p = some P ∧ (k,n) ∈ P.callSites
  path_inj : ∀ {n m c d}, s.calls n = some c → s.calls m = some d → path n = path m → n = m

def skeleton (c : FunctionCall T) : Option CallRef × String × Nat × List (Nat × CallRef) :=
  (c.parent,c.module,c.function,c.callSites)

variable {s s' : CallTree T} {path : CallRef → List Frame} {n m p : CallRef}
  {c d P : FunctionCall T} {k : Nat}

section
omit [DecidableEq T]

section
variable (h : Shape s path)
include h

lemma Shape.congr (hnext : s'.next = s.next)
    (hcalls : ∀ n, (s'.calls n).map skeleton = (s.calls n).map skeleton) : Shape s' path := by
  have hback : ∀ {n c'}, s'.calls n = some c' →
      ∃ c, s.calls n = some c ∧ skeleton c = skeleton c' := fun {n c'} hc => by
    have heq := hcalls n
    rw [hc,map_some] at heq
    exact map_eq_some_iff.mp heq.symm
  have hfwd : ∀ {n c}, s.calls n = some c →
      ∃ c', s'.calls n = some c' ∧ skeleton c' = skeleton c := fun {n c} hc => by
    have heq := hcalls n
    rw [hc,map_some] at heq
    exact map_eq_some_iff.mp heq
  have hfields : ∀ {c d : FunctionCall T}, skeleton c = skeleton d →
      c.parent = d.parent ∧ c.module = d.module ∧ c.function = d.function ∧
        c.callSites = d.callSites := fun h => by simpa [skeleton] using h
  refine ⟨fun hc => ?_,?_,h.root_path,fun hP he => ?_,fun hc hne => ?_,fun hc hd => ?_⟩
  · obtain ⟨c,hc,-⟩ := hback hc
    exact hnext ▸ h.lt_next hc
  · obtain ⟨c,hc,hparent⟩ := h.root_call
    obtain ⟨c',hc',heq⟩ := hfwd hc
    exact ⟨c',hc',(hfields heq).1.trans hparent⟩
  · obtain ⟨P,hP,heq⟩ := hback hP
    obtain ⟨C,hC,hparent,hpath,hlt⟩ := h.child hP ((hfields heq).2.2.2 ▸ he)
    obtain ⟨C',hC',heq'⟩ := hfwd hC
    obtain ⟨h1,h2,h3,-⟩ := hfields heq'
    exact ⟨C',hC',h1.trans hparent,by rw [h2,h3]; exact hpath,hlt⟩
  · obtain ⟨c,hc,heq⟩ := hback hc
    obtain ⟨p,P,k,hparent,hP,he⟩ := h.parent hc hne
    obtain ⟨P',hP',heq'⟩ := hfwd hP
    exact ⟨p,P',k,(hfields heq).1.symm.trans hparent,hP',(hfields heq').2.2.2 ▸ he⟩
  · obtain ⟨c,hc,-⟩ := hback hc
    obtain ⟨d,hd,-⟩ := hback hd
    exact h.path_inj hc hd

section
variable (hc : s.calls n = some c)
include hc

lemma Shape.caller (hn : n ≠ root) :
    ∃ p P k, c.parent = some p ∧ s.calls p = some P ∧ (k,n) ∈ P.callSites ∧
      path n = path p ++ [(k,c.module,c.function)] ∧ p < n := by
  obtain ⟨p,P,k,hparent,hP,he⟩ := h.parent hc hn
  obtain ⟨C,hC,-,hpath,hlt⟩ := h.child hP he
  cases hc.symm.trans hC
  exact ⟨p,P,k,hparent,hP,he,hpath,hlt⟩

lemma Shape.exists_prefix {q : List Frame}
    (hq : q <+: path n) : ∃ m d, s.calls m = some d ∧ path m = q := by
  induction n using Nat.strongRecOn generalizing c with
  | ind n ih =>
    by_cases heq : q = path n
    · exact ⟨n,c,hc,heq.symm⟩
    by_cases hn : n = root
    · subst hn
      rw [h.root_path] at hq heq
      exact absurd (prefix_nil.mp hq) heq
    obtain ⟨p,P,k,-,hP,-,hpath,hlt⟩ := h.caller hc hn
    rw [hpath] at hq heq
    rcases prefix_concat_iff.mp hq with hq | hq
    · exact absurd hq heq
    · exact ih p hlt hP hq

lemma Shape.site_of_path (hd : s.calls m = some d)
    {f : Frame} (hpath : path m = path n ++ [f]) : ∃ k, (k,m) ∈ c.callSites := by
  have hm : m ≠ root := by
    rintro rfl
    rw [h.root_path] at hpath
    simp at hpath
  obtain ⟨p,P,k,-,hP,hmem,hpath',-⟩ := h.caller hd hm
  rw [hpath] at hpath'
  obtain rfl : n = p := h.path_inj hc hP (append_inj_left' hpath' rfl)
  cases hc.symm.trans hP
  exact ⟨k,hmem⟩

lemma Shape.eq_of_leaf (hleaf : c.callSites = [])
    (hd : s.calls m = some d) (hpre : path n <+: path m) : m = n := by
  obtain ⟨rest,hrest⟩ := hpre
  cases rest with
  | nil => exact h.path_inj hd hc (by rw [← hrest,append_nil])
  | cons f rest =>
    -- the next call on the way would be at a call site
    have hpre : path n ++ [f] <+: path m := ⟨rest,by rw [← hrest,append_assoc]; rfl⟩
    obtain ⟨k,e,he,hpath⟩ := h.exists_prefix hd hpre
    obtain ⟨site,hmem⟩ := h.site_of_path hc he hpath
    rw [hleaf] at hmem
    cases hmem

end

def bump (s : CallTree T) (path : CallRef → List Frame) (n : CallRef) (increment : Int) :
    CallTree T :=
  { s with calls := fun m => (s.calls m).map fun c =>
      if path m <+: path n then {c with thingsCount := c.thingsCount+increment} else c}

lemma Shape.bump (n : CallRef) (increment : Int) : Shape (s.bump path n increment) path := by
  refine h.congr rfl fun m => ?_
  show ((s.calls m).map _).map skeleton = _
  rw [Option.map_map]
  refine congrArg (fun f => (s.calls m).map f) (funext fun c => ?_)
  show skeleton (if _ then _ else _) = _
  split <;> rfl

lemma Shape.set (hc : s.calls n = some c) (hd : skeleton d = skeleton c) :
    Shape (s.set n d) path := by
  refine h.congr rfl fun m => ?_
  by_cases hm : m = n
  · subst hm
    rw [set_calls_self,hc,map_some,map_some,hd]
  · rw [set_calls_of_ne s d hm]

lemma updateThingsCount_eq (hc : s.calls n = some c) (increment : Int) (hfuel : n < fuel) :
    updateThingsCount increment fuel n s = some (s.bump path n increment) := by
  induction n using Nat.strongRecOn generalizing s c fuel with
  | ind n ih =>
  cases fuel with
  | zero => exact absurd hfuel (not_lt_zero n)
  | succ fuel =>
    rw [updateThingsCount,hc,bind_eq_bind,bind_some]
    by_cases hn : n = root
    · subst hn
      obtain ⟨c',hc',hparent⟩ := h.root_call
      cases hc.symm.trans hc'
      simp only [hparent]
      refine congrArg some (ext_calls rfl rfl rfl fun m => ?_)
      by_cases hm : m = root
      · subst hm
        simp [bump,hc,hparent]
      rw [set_calls_of_ne s _ hm,bump]
      cases hd : s.calls m with
      | none => simp [hd]
      | some d =>
        have hpre : ¬ path m <+: path root := by
          rw [h.root_path,prefix_nil,← h.root_path]
          exact fun heq => hm (h.path_inj hd hc heq)
        simp [hpre,hd]
    · obtain ⟨p,P,k,hparent,hP,-,hpath,hlt⟩ := h.caller hc hn
      simp only [hparent]
      rw [← hparent]
      have hshape : Shape (s.set n {c with thingsCount := c.thingsCount+increment}) path :=
        h.set hc rfl
      rw [ih p hlt hshape ((set_calls_of_ne s _ (Nat.ne_of_lt hlt)).trans hP)
        (lt_of_lt_of_le hlt (le_of_lt_succ hfuel))]
      refine congrArg some (ext_calls rfl rfl rfl fun m => ?_)
      simp only [bump]
      by_cases hm : m = n
      · subst hm
        have hpre : ¬ path m <+: path p := fun hpre => by
          have := hpre.length_le
          rw [hpath,length_append,length_singleton] at this
          omega
        simp [hc,hpre]
      · rw [set_calls_of_ne s _ hm]
        cases hd : s.calls m with
        | none => rfl
        | some d =>
          have hiff : path m <+: path n ↔ path m <+: path p := by
            rw [hpath,prefix_concat_iff]
            refine or_iff_right fun heq => hm ?_
            exact h.path_inj hd hc (heq.trans hpath.symm)
          simp [hiff]

lemma get_spec (hP : s.calls n = some c) (ce : CallStackEntry)
    {callSites : List (Nat × CallRef)} (hsub : ∀ e ∈ callSites, e ∈ c.callSites) :
    ∃ r, s.get ce callSites = some r ∧
      (∀ m ∈ r, (∃ d, s.calls m = some d) ∧ path m = path n ++ [ce.frame]) ∧
      (r = none → ∀ e ∈ callSites, path e.2 ≠ path n ++ [ce.frame]) := by
  induction callSites with
  | nil => exact ⟨none,rfl,nofun,nofun⟩
  | cons e callSites ih =>
    obtain ⟨C,hC,-,hpath,-⟩ := h.child hP (hsub e mem_cons_self)
    obtain ⟨r,hr,hfound,hnone⟩ := ih fun e he => hsub e (mem_cons_of_mem _ he)
    have hskip : path e.2 ≠ path n ++ [ce.frame] → ∃ r, s.get ce callSites = some r ∧
        (∀ m ∈ r, (∃ d, s.calls m = some d) ∧ path m = path n ++ [ce.frame]) ∧
        (r = none → ∀ e' ∈ e :: callSites, path e'.2 ≠ path n ++ [ce.frame]) := fun hne =>
      ⟨r,hr,hfound,fun heq e' he' => by
        rcases mem_cons.mp he' with rfl | he'
        · exact hne
        · exact hnone heq e' he'⟩
    rw [get]
    by_cases hsite : e.1 = ce.returnAddress
    · rw [if_pos hsite,hC,bind_eq_bind,bind_some]
      by_cases hname : C.module = ce.module ∧ C.function = ce.functionAddress
      · rw [if_pos hname]
        refine ⟨_,rfl,fun m hm => ?_,nofun⟩
        cases hm
        rw [hsite,hname.1,hname.2] at hpath
        exact ⟨⟨C,hC⟩,hpath⟩
      · rw [if_neg hname]
        refine hskip fun heq => hname ?_
        have := append_cancel_left (hpath.symm.trans heq)
        simp only [CallStackEntry.frame,cons.injEq,Prod.mk.injEq] at this
        exact this.1.2
    · rw [if_neg hsite]
      refine hskip fun heq => hsite ?_
      have := append_cancel_left (hpath.symm.trans heq)
      simp only [CallStackEntry.frame,cons.injEq,Prod.mk.injEq] at this
      exact this.1.1

lemma get_none (hc : s.calls n = some c)
    (hget : s.get ce c.callSites = some none) (hd : s.calls m = some d) :
    path m ≠ path n ++ [ce.frame] := by
  intro hpath
  obtain ⟨r,hr,-,hnone⟩ := get_spec h hc ce fun e he => he
  obtain rfl : none = r := some.inj (hget.symm.trans hr)
  obtain ⟨k,hk⟩ := h.site_of_path hc hd hpath
  exact hnone rfl _ hk hpath

end
end

structure Item (T : Type) where
  thing : T
  stack : CallStack
  location : Location

def Item.place (e : Item T) : List Frame := e.stack.frames

structure Tracks (s : CallTree T) (path : CallRef → List Frame) (items : List (Item T)) : Prop where
  shape : Shape s path
  things : ∀ {n c l t}, s.calls n = some c → ((l,t) ∈ c.things ↔
    ∃ e ∈ items, e.thing = t ∧ e.location = l ∧ e.place = path n)
  nodup : ∀ {n c}, s.calls n = some c → c.things.Nodup
  keys : (items.map Item.thing).Nodup
  placed : ∀ e ∈ items, ∃ n c, s.calls n = some c ∧ path n = e.place
  count : ∀ {n c}, s.calls n = some c → c.thingsCount = items.countP fun e => path n <+: e.place

variable {items : List (Item T)}

section
omit [DecidableEq T]

lemma Tracks.of_calls {s' : CallTree T} (h : Tracks s path items) (hcalls : s'.calls = s.calls)
    (hnext : s'.next = s.next) : Tracks s' path items where
  shape := h.shape.congr hnext fun n => by rw [hcalls]
  things hc := h.things (hcalls ▸ hc)
  nodup hc := h.nodup (hcalls ▸ hc)
  keys := h.keys
  placed e he := by rw [hcalls]; exact h.placed e he
  count hc := h.count (hcalls ▸ hc)

def makeCall (s : CallTree T) (n : CallRef) (call : FunctionCall T) (ce : CallStackEntry) :
    CallTree T :=
  let child := s.next
  let s := s.set child ⟨some n,ce.module,ce.functionAddress,ce.functionName,[],[],0⟩
  let s := s.set n {call with callSites := call.callSites ++ [(ce.returnAddress,child)]}
  {s with next := child+1}

def atSite (s : CallTree T) (n : CallRef) (ce : CallStackEntry) (m : CallRef)
    (call : FunctionCall T) : FunctionCall T :=
  {call with callSites := call.callSites ++ if m = n then [(ce.returnAddress,s.next)] else []}

section
variable (h : Shape s path) (hc : s.calls n = some c)
include h hc

lemma makeCall_old (ce : CallStackEntry) (hd : s.calls m = some d) :
    (s.makeCall n c ce).calls m = some (s.atSite n ce m d) := by
  unfold makeCall atSite
  by_cases hm : m = n
  · subst hm
    cases hc.symm.trans hd
    simp [set_calls_self]
  · have hnext : m ≠ s.next := Nat.ne_of_lt (h.lt_next hd)
    simp [set_calls_of_ne _ _ hm,set_calls_of_ne _ _ hnext,hd,hm]

lemma makeCall_new (ce : CallStackEntry) : (s.makeCall n c ce).calls s.next =
      some ⟨some n,ce.module,ce.functionAddress,ce.functionName,[],[],0⟩ := by
  have hne : s.next ≠ n := (Nat.ne_of_lt (h.lt_next hc)).symm
  exact (set_calls_of_ne _ _ hne).trans (set_calls_self ..)

lemma makeCall_inv (hd : (s.makeCall n c ce).calls m = some d) :
    m = s.next ∧ d = ⟨some n,ce.module,ce.functionAddress,ce.functionName,[],[],0⟩ ∨
      m ≠ s.next ∧ ∃ d', s.calls m = some d' ∧ d = s.atSite n ce m d' := by
  by_cases hm : m = s.next
  · subst hm
    exact .inl ⟨rfl,some.inj (hd.symm.trans (makeCall_new h hc ce))⟩
  cases hd' : s.calls m with
  | some d' =>
    exact .inr ⟨hm,d',rfl,some.inj (hd.symm.trans (makeCall_old h hc ce hd'))⟩
  | none =>
    have hn : m ≠ n := by
      rintro rfl
      cases hc.symm.trans hd'
    have hnone : (s.makeCall n c ce).calls m = none :=
      (set_calls_of_ne _ _ hn).trans ((set_calls_of_ne s _ hm).trans hd')
    cases hd.symm.trans hnone

def pathOf (s : CallTree T) (path : CallRef → List Frame) (n : CallRef) (ce : CallStackEntry) :
    CallRef → List Frame :=
  update path s.next (path n ++ [ce.frame])

omit hc in
lemma pathOf_old (hd : s.calls m = some d) (ce : CallStackEntry) :
    s.pathOf path n ce m = path m :=
  update_of_ne (Nat.ne_of_lt (h.lt_next hd)) ..

omit h hc in
lemma pathOf_new (ce : CallStackEntry) : s.pathOf path n ce s.next = path n ++ [ce.frame] :=
  update_self ..

lemma Shape.makeCall (hnone : ∀ {m d}, s.calls m = some d → path m ≠ path n ++ [ce.frame]) :
    Shape (s.makeCall n c ce) (s.pathOf path n ce) := by
  refine ⟨fun hd => ?_,?_,?_,fun {p P e} hP he => ?_,fun {m d} hd hm => ?_,
    fun {m k d e} hd he heq => ?_⟩
  · rcases makeCall_inv h hc hd with ⟨rfl,-⟩ | ⟨-,d',hd',-⟩
    · exact lt_succ_self _
    · exact lt_succ_of_lt (h.lt_next hd')
  · obtain ⟨r,hr,hparent⟩ := h.root_call
    exact ⟨_,makeCall_old h hc ce hr,hparent⟩
  · obtain ⟨r,hr,-⟩ := h.root_call
    rw [pathOf_old h hr,h.root_path]
  · rcases makeCall_inv h hc hP with ⟨-,rfl⟩ | ⟨-,P',hP',rfl⟩
    · cases he
    · rcases mem_append.mp he with hmem | hmem
      · obtain ⟨C,hC,hparent,hpath,hlt⟩ := h.child hP' hmem
        refine ⟨_,makeCall_old h hc ce hC,hparent,?_,hlt⟩
        rw [pathOf_old h hC,pathOf_old h hP',hpath]
        rfl
      · split at hmem
        next hpn =>
          subst hpn
          obtain rfl := mem_singleton.mp hmem
          refine ⟨_,makeCall_new h hc ce,rfl,?_,h.lt_next hc⟩
          rw [pathOf_new,pathOf_old h hc]
          rfl
        · cases hmem
  · rcases makeCall_inv h hc hd with ⟨rfl,rfl⟩ | ⟨-,d',hd',rfl⟩
    · refine ⟨n,_,ce.returnAddress,rfl,makeCall_old h hc ce hc,?_⟩
      simp [atSite]
    · obtain ⟨p,P,k,hparent,hP,he⟩ := h.parent hd' hm
      exact ⟨p,_,k,hparent,makeCall_old h hc ce hP,mem_append_left _ he⟩
  · rcases makeCall_inv h hc hd with ⟨rfl,-⟩ | ⟨-,d',hd',-⟩ <;>
      rcases makeCall_inv h hc he with ⟨rfl,-⟩ | ⟨-,e',he',-⟩
    · rfl
    · rw [pathOf_new,pathOf_old h he'] at heq
      exact absurd heq.symm (hnone he')
    · rw [pathOf_new,pathOf_old h hd'] at heq
      exact absurd heq (hnone hd')
    · rw [pathOf_old h hd',pathOf_old h he'] at heq
      exact h.path_inj hd' he' heq

end

lemma Tracks.makeCall (h : Tracks s path items) (hc : s.calls n = some c)
    (hnone : ∀ {m d}, s.calls m = some d → path m ≠ path n ++ [ce.frame]) :
    Tracks (s.makeCall n c ce) (s.pathOf path n ce) items := by
  -- no item is at the new call or below it, since every place of an item has its calls
  have hbelow : ∀ e ∈ items, ¬ path n ++ [ce.frame] <+: e.place := fun e he hpre => by
    obtain ⟨m,d,hd,hpath⟩ := h.placed e he
    obtain ⟨k,b,hb,hpath⟩ := h.shape.exists_prefix hd (hpath ▸ hpre)
    exact hnone hb hpath
  refine ⟨h.shape.makeCall hc hnone,fun {m d l t} hd => ?_,fun hd => ?_,h.keys,fun e he => ?_,
    fun {m d} hd => ?_⟩
  · rcases makeCall_inv h.shape hc hd with ⟨rfl,rfl⟩ | ⟨-,d',hd',rfl⟩
    · refine ⟨nofun,?_⟩
      rintro ⟨e,he,-,-,hplace⟩
      rw [pathOf_new] at hplace
      exact absurd (hplace ▸ prefix_rfl) (hbelow e he)
    · rw [pathOf_old h.shape hd',← h.things hd']
      rfl
  · rcases makeCall_inv h.shape hc hd with ⟨rfl,rfl⟩ | ⟨-,d',hd',rfl⟩
    · exact nodup_nil
    · exact (h.nodup hd' :)
  · obtain ⟨m,d,hd,hpath⟩ := h.placed e he
    exact ⟨m,_,makeCall_old h.shape hc ce hd,(pathOf_old h.shape hd ce).trans hpath⟩
  · rcases makeCall_inv h.shape hc hd with ⟨rfl,rfl⟩ | ⟨-,d',hd',rfl⟩
    · rw [pathOf_new,countP_eq_zero.mpr fun e he => by simpa using hbelow e he]
      rfl
    · rw [pathOf_old h.shape hd',← h.count hd']
      rfl

structure Grows (s : CallTree T) (path : CallRef → List Frame) (s' : CallTree T)
    (path' : CallRef → List Frame) : Prop where
  location : s'.thingsLocation = s.thingsLocation
  remove : s'.removeEmptyCallStacks = s.removeEmptyCallStacks
  live : ∀ {n c}, s.calls n = some c → ∃ c', s'.calls n = some c'
  path : ∀ {n c}, s.calls n = some c → path' n = path n

lemma Grows.refl (s : CallTree T) (path : CallRef → List Frame) : Grows s path s path :=
  ⟨rfl,rfl,fun h => ⟨_,h⟩,fun _ => rfl⟩

lemma Grows.trans {s1 s2 : CallTree T} {path1 path2 : CallRef → List Frame}
    (h1 : Grows s path s1 path1) (h2 : Grows s1 path1 s2 path2) : Grows s path s2 path2 where
  location := h2.location.trans h1.location
  remove := h2.remove.trans h1.remove
  live h := let ⟨_,h⟩ := h1.live h; h2.live h
  path h := let ⟨_,h'⟩ := h1.live h; (h2.path h').trans (h1.path h)

end

omit [DecidableEq T] in
lemma enter_spec (h : Tracks s path items) (hc : s.calls n = some c) (cs : CallStack) :
    ∃ m d s' path', enter cs n s = some (m,s') ∧ Tracks s' path' items ∧
      s'.calls m = some d ∧ path' m = path n ++ cs.frames ∧ Grows s path s' path' := by
  induction cs generalizing s path n c with
  | nil => exact ⟨n,c,s,path,rfl,h,hc,(append_nil _).symm,Grows.refl s path⟩
  | cons ce cs ih =>
    obtain ⟨r,hr,hfound,-⟩ := get_spec h.shape hc ce fun e he => he
    cases r with
    | some child =>
      obtain ⟨⟨C,hC⟩,hpath⟩ := hfound child rfl
      obtain ⟨m,d,s',path',henter,h',hd,hpath',hgrows⟩ := ih h hC
      refine ⟨m,d,s',path',?_,h',hd,?_,hgrows⟩
      · rw [enter,hc,bind_eq_bind,bind_some,hr,bind_eq_bind,bind_some]
        exact henter
      · rw [hpath',hpath,append_assoc]
        rfl
    | none =>
      have hnone : ∀ {m d}, s.calls m = some d → path m ≠ path n ++ [ce.frame] := fun hd =>
        get_none h.shape hc hr hd
      have hnew := makeCall_new h.shape hc ce
      obtain ⟨m,d,s',path',henter,h',hd,hpath',hgrows⟩ := ih (h.makeCall hc hnone) hnew
      have hgrow : Grows s path (s.makeCall n c ce) (s.pathOf path n ce) :=
        ⟨rfl,rfl,fun hb => ⟨_,makeCall_old h.shape hc ce hb⟩,fun hb => pathOf_old h.shape hb ce⟩
      refine ⟨m,d,s',path',?_,h',hd,?_,hgrow.trans hgrows⟩
      · rw [enter,hc,bind_eq_bind,bind_some,hr,bind_eq_bind,bind_some]
        exact henter
      · rw [hpath',pathOf_new,append_assoc]
        rfl

variable {e : Item T}

section
omit [DecidableEq T]

def hold (s : CallTree T) (path : CallRef → List Frame) (n : CallRef) (call : FunctionCall T)
    (things : List (Location × T)) (increment : Int) : CallTree T :=
  (s.set n {call with things := things}).bump path n increment

lemma hold_calls (hc : s.calls n = some c) (things : List (Location × T)) (increment : Int)
    (m : CallRef) : (s.hold path n c things increment).calls m = (s.calls m).map fun d =>
      { d with
        things := if m = n then things else d.things
        thingsCount := d.thingsCount+if path m <+: path n then increment else 0} := by
  unfold hold bump
  by_cases hm : m = n
  · subst hm
    simp [hc]
  · simp only [set_calls_of_ne _ _ hm,if_neg hm]
    refine congrArg (fun f => (s.calls m).map f) (funext fun d => ?_)
    split <;> simp

lemma Shape.hold (h : Shape s path) (hc : s.calls n = some c) (things : List (Location × T))
    (increment : Int) : Shape (s.hold path n c things increment) path :=
  (h.set hc (d := {c with things := things}) rfl).bump n increment

lemma hold_inv (hc : s.calls n = some c) {things : List (Location × T)} {increment : Int}
    (hd : (s.hold path n c things increment).calls m = some d) : ∃ d', s.calls m = some d' ∧
      d.things = (if m = n then things else d'.things) ∧
      d.thingsCount = d'.thingsCount+if path m <+: path n then increment else 0 := by
  rw [hold_calls hc] at hd
  obtain ⟨d',hd',rfl⟩ := map_eq_some_iff.mp hd
  exact ⟨d',hd',rfl,rfl⟩

lemma Tracks.add (h : Tracks s path items) (hc : s.calls n = some c)
    (hplace : e.place = path n) (hnew : e.thing ∉ items.map Item.thing) :
    Tracks (s.hold path n c (c.things ++ [(e.location,e.thing)]) 1) path (e :: items) := by
  refine ⟨h.shape.hold hc _ _,fun {m d l t} hd => ?_,fun {m d} hd => ?_,
    nodup_cons.mpr ⟨hnew,h.keys⟩,fun b hb => ?_,fun {m d} hd => ?_⟩
  · obtain ⟨d',hd',hthings,-⟩ := hold_inv hc hd
    rw [hthings]
    by_cases hm : m = n
    · subst hm
      rw [if_pos rfl,mem_append,h.things hc,mem_singleton,Prod.mk.injEq]
      constructor
      · rintro (⟨b,hb,hat⟩ | ⟨rfl,rfl⟩)
        · exact ⟨b,mem_cons_of_mem _ hb,hat⟩
        · exact ⟨e,mem_cons_self,rfl,rfl,hplace⟩
      · rintro ⟨b,hb,hat⟩
        rcases mem_cons.mp hb with rfl | hb
        · exact .inr ⟨hat.2.1.symm,hat.1.symm⟩
        · exact .inl ⟨b,hb,hat⟩
    · rw [if_neg hm,h.things hd']
      constructor
      · rintro ⟨b,hb,hat⟩
        exact ⟨b,mem_cons_of_mem _ hb,hat⟩
      · rintro ⟨b,hb,hat⟩
        rcases mem_cons.mp hb with rfl | hb
        · exact absurd (h.shape.path_inj hd' hc (hat.2.2.symm.trans hplace)) hm
        · exact ⟨b,hb,hat⟩
  · obtain ⟨d',hd',hthings,-⟩ := hold_inv hc hd
    rw [hthings]
    split
    · refine (h.nodup hc).append (nodup_singleton _) fun x hx hx' => hnew ?_
      obtain rfl := mem_singleton.mp hx'
      obtain ⟨b,hb,hat,-⟩ := (h.things hc).mp hx
      exact hat ▸ mem_map_of_mem hb
    · exact h.nodup hd'
  · rcases mem_cons.mp hb with rfl | hb
    · exact ⟨n,_,(hold_calls hc _ _ n).trans (congrArg _ hc),hplace.symm⟩
    · obtain ⟨m,d,hd,hpath⟩ := h.placed b hb
      exact ⟨m,_,(hold_calls hc _ _ m).trans (congrArg _ hd),hpath⟩
  · obtain ⟨d',hd',-,hcount⟩ := hold_inv hc hd
    rw [hcount,h.count hd',countP_cons,hplace]
    split <;> simp_all

end

lemma perm_cons_filter (hkeys : (items.map Item.thing).Nodup) (he : e ∈ items) :
    items.Perm (e :: items.filter (·.thing ≠ e.thing)) := by
  induction items with
  | nil => cases he
  | cons b items ih =>
    obtain ⟨hb,hkeys⟩ := nodup_cons.mp hkeys
    rcases mem_cons.mp he with rfl | he
    · have hall : items.filter (·.thing ≠ e.thing) = items := filter_eq_self.mpr fun a ha => by
          simpa using fun heq : a.thing = e.thing => hb (heq ▸ mem_map_of_mem ha)
      rw [filter_cons_of_neg (by simp),hall]
    · have hne : b.thing ≠ e.thing := fun heq => hb (heq ▸ mem_map_of_mem he)
      rw [filter_cons_of_pos (by simpa using hne)]
      exact ((ih hkeys he).cons b).trans (List.Perm.swap ..)

lemma Tracks.eq_of_thing (h : Tracks s path items) {b : Item T} (he : e ∈ items)
    (hb : b ∈ items) (heq : b.thing = e.thing) : b = e := by
  have hperm := perm_cons_filter h.keys he
  rcases mem_cons.mp (hperm.mem_iff.mp hb) with rfl | hb
  · rfl
  · have := (mem_filter.mp hb).2
    simp [heq] at this

lemma Tracks.remove (h : Tracks s path items) (hc : s.calls n = some c)
    (he : e ∈ items) (hplace : e.place = path n) :
    Tracks (s.hold path n c (c.things.filter (·.2 ≠ e.thing)) (-1)) path
      (items.filter (·.thing ≠ e.thing)) := by
  have hother : ∀ {b : Item T}, b ∈ items.filter (·.thing ≠ e.thing) ↔
      b ∈ items ∧ b.thing ≠ e.thing := by simp
  refine ⟨h.shape.hold hc _ _,fun {m d l t} hd => ?_,fun {m d} hd => ?_,
    h.keys.sublist (filter_sublist.map _),fun b hb => ?_,fun {m d} hd => ?_⟩
  · obtain ⟨d',hd',hthings,-⟩ := hold_inv hc hd
    rw [hthings]
    by_cases hm : m = n
    · subst hm
      rw [if_pos rfl,mem_filter,h.things hc]
      constructor
      · rintro ⟨⟨b,hb,rfl,hat⟩,hne⟩
        exact ⟨b,hother.mpr ⟨hb,by simpa using hne⟩,rfl,hat⟩
      · rintro ⟨b,hb,rfl,hat⟩
        exact ⟨⟨b,(hother.mp hb).1,rfl,hat⟩,by simpa using (hother.mp hb).2⟩
    · rw [if_neg hm,h.things hd']
      constructor
      · rintro ⟨b,hb,hat⟩
        refine ⟨b,hother.mpr ⟨hb,fun heq => hm ?_⟩,hat⟩
        obtain rfl := h.eq_of_thing he hb heq
        exact h.shape.path_inj hd' hc (hat.2.2.symm.trans hplace)
      · rintro ⟨b,hb,hat⟩
        exact ⟨b,(hother.mp hb).1,hat⟩
  · obtain ⟨d',hd',hthings,-⟩ := hold_inv hc hd
    rw [hthings]
    split
    · exact (h.nodup hc).filter _
    · exact h.nodup hd'
  · obtain ⟨m,d,hd,hpath⟩ := h.placed b (hother.mp hb).1
    exact ⟨m,_,(hold_calls hc _ _ m).trans (congrArg _ hd),hpath⟩
  · obtain ⟨d',hd',-,hcount⟩ := hold_inv hc hd
    rw [hcount,h.count hd',(perm_cons_filter h.keys he).countP_eq,countP_cons,hplace]
    by_cases hpre : path m <+: path n
    · simp only [hpre,if_true,decide_true]
      omega
    · simp [hpre]

lemma Tracks.filter_thing (h : Tracks s path items) (hc : s.calls n = some c)
    (he : e ∈ items) (hplace : e.place = path n) :
    c.things.filter (·.2 = e.thing) = [(e.location,e.thing)] := by
  have hmem : (e.location,e.thing) ∈ c.things.filter (·.2 = e.thing) :=
    mem_filter.mpr ⟨(h.things hc).mpr ⟨e,he,rfl,rfl,hplace⟩,by simp⟩
  have hall : ∀ x ∈ c.things.filter (·.2 = e.thing), x = (e.location,e.thing) := by
    rintro ⟨l,t⟩ hx
    obtain ⟨hx,ht⟩ := mem_filter.mp hx
    obtain ⟨b,hb,rfl,rfl,-⟩ := (h.things hc).mp hx
    obtain rfl := h.eq_of_thing he hb (by simpa using ht)
    rfl
  have hrep := eq_replicate_of_mem hall
  have hnodup := (h.nodup hc).filter (·.2 = e.thing)
  rw [hrep,nodup_replicate] at hnodup
  have hpos := length_pos_of_mem hmem
  rw [hrep,le_antisymm hnodup hpos]
  rfl

def Alone (s : CallTree T) (n : CallRef) : Prop :=
  ∀ c ∈ s.calls n, ∀ p ∈ c.parent, ∀ P ∈ s.calls p,
    ∀ e ∈ P.callSites, (e.1,n) ∈ P.callSites → e.2 = n

instance (s : CallTree T) (n : CallRef) : Decidable (s.Alone n) :=
  inferInstanceAs (Decidable (∀ c ∈ s.calls n, _))

section
omit [DecidableEq T]

structure Shrinks (s s' : CallTree T) : Prop where
  next : s'.next = s.next
  location : s'.thingsLocation = s.thingsLocation
  remove : s'.removeEmptyCallStacks = s.removeEmptyCallStacks
  calls : ∀ {n c'}, s'.calls n = some c' → ∃ c, s.calls n = some c ∧ c'.parent = c.parent ∧
    c'.thingsCount = c.thingsCount ∧ ∀ e ∈ c'.callSites, e ∈ c.callSites

lemma Shrinks.refl (s : CallTree T) : Shrinks s s :=
  ⟨rfl,rfl,rfl,fun h => ⟨_,h,rfl,rfl,fun _ h => h⟩⟩

lemma Shrinks.trans {s1 s2 : CallTree T} (h1 : Shrinks s s1) (h2 : Shrinks s1 s2) :
    Shrinks s s2 where
  next := h2.next.trans h1.next
  location := h2.location.trans h1.location
  remove := h2.remove.trans h1.remove
  calls h := by
    obtain ⟨c1,h1',hparent1,hcount1,hsites1⟩ := h2.calls h
    obtain ⟨c,h,hparent,hcount,hsites⟩ := h1.calls h1'
    exact ⟨c,h,hparent1.trans hparent,hcount1.trans hcount,fun e he => hsites e (hsites1 e he)⟩

lemma Shrinks.alone (h : Shrinks s s') (ha : s.Alone n) : s'.Alone n := by
  intro c' hc' p hp P' hP' e he hmem
  obtain ⟨c,hc,hparent,-⟩ := h.calls hc'
  obtain ⟨P,hP,-,-,hsites⟩ := h.calls hP'
  exact ha c hc p (hparent ▸ hp) P hP e (hsites e he) (hsites _ hmem)

def Exclusive (s : CallTree T) (path : CallRef → List Frame) (n : CallRef) : Prop :=
  ∀ {m d}, s.calls m = some d → path m <+: path n → d.thingsCount = 0 → s.Alone m

lemma Shrinks.exclusive (h : Shrinks s s') (ha : s.Exclusive path n) : s'.Exclusive path n := by
  intro m d' hd' hpre hzero
  obtain ⟨d,hd,-,hcount,-⟩ := h.calls hd'
  exact h.alone (ha hd hpre (hcount ▸ hzero))

def dropCall (s : CallTree T) (p : CallRef) (P : FunctionCall T) (k : Nat) (n : CallRef) :
    CallTree T :=
  let s := s.set p {P with callSites := P.callSites.filter (·.1 ≠ k)}
  {s with calls := update s.calls n none}

lemma dropCall_calls (hP : s.calls p = some P) (hm : m ≠ n) :
    (s.dropCall p P k n).calls m = (s.calls m).map fun d =>
      {d with callSites := if m = p then d.callSites.filter (·.1 ≠ k) else d.callSites} := by
  refine (update_of_ne hm ..).trans ?_
  by_cases hmp : m = p
  · subst hmp
    simp [hP]
  · rw [set_calls_of_ne _ _ hmp]
    simp [hmp]

lemma dropCall_inv (hP : s.calls p = some P) (hd : (s.dropCall p P k n).calls m = some d) :
    m ≠ n ∧ ∃ d', s.calls m = some d' ∧ d = { d' with
      callSites := if m = p then d'.callSites.filter (·.1 ≠ k) else d'.callSites} := by
  have hm : m ≠ n := by
    rintro rfl
    have hnone : (s.dropCall p P k m).calls m = none := update_self ..
    cases hd.symm.trans hnone
  rw [dropCall_calls hP hm] at hd
  obtain ⟨d',hd',rfl⟩ := map_eq_some_iff.mp hd
  exact ⟨hm,d',hd',rfl⟩

lemma Shrinks.dropCall (hP : s.calls p = some P) : Shrinks s (s.dropCall p P k n) := by
  refine ⟨rfl,rfl,rfl,fun hd => ?_⟩
  obtain ⟨-,d',hd',rfl⟩ := dropCall_inv hP hd
  refine ⟨d',hd',rfl,rfl,fun e he => ?_⟩
  dsimp only at he
  split at he
  · exact (mem_filter.mp he).1
  · exact he

lemma Shape.dropCall (h : Shape s path) (hc : s.calls n = some c) (hleaf : c.callSites = [])
    (hP : s.calls p = some P) (hmem : (k,n) ∈ P.callSites)
    (halone : ∀ e ∈ P.callSites, e.1 = k → e.2 = n) : Shape (s.dropCall p P k n) path := by
  obtain ⟨C,hC,hparent,hpath,hlt⟩ := h.child hP hmem
  cases hc.symm.trans hC
  have hshrinks : Shrinks s (s.dropCall p P k n) := Shrinks.dropCall hP
  have hlive : ∀ {m d}, m ≠ n → s.calls m = some d → _ := fun hm hd =>
    (dropCall_calls (k := k) hP hm).trans (congrArg _ hd)
  refine ⟨fun hd => ?_,?_,h.root_path,fun {q Q e} hQ he => ?_,fun {m d} hd hm => ?_,fun hd he => ?_⟩
  · obtain ⟨d,hd,-⟩ := hshrinks.calls hd
    exact h.lt_next hd
  · obtain ⟨r,hr,hnone⟩ := h.root_call
    have hne : root ≠ n := by
      rintro rfl
      cases hc.symm.trans hr
      cases hparent.symm.trans hnone
    exact ⟨_,hlive hne hr,hnone⟩
  · obtain ⟨-,Q',hQ',rfl⟩ := dropCall_inv hP hQ
    have he' : e ∈ Q'.callSites := by
      obtain ⟨Q'',hQ'',-,-,hsites⟩ := hshrinks.calls hQ
      cases hQ'.symm.trans hQ''
      exact hsites e he
    obtain ⟨C,hC,hparent',hpath',hlt'⟩ := h.child hQ' he'
    -- the entry of the deleted call was at its call site, which is gone
    have hne : e.2 ≠ n := by
      intro heq
      rw [heq] at hC hpath'
      cases hc.symm.trans hC
      cases hparent.symm.trans hparent'
      cases hP.symm.trans hQ'
      have hk := append_cancel_left (hpath.symm.trans hpath')
      simp only [cons.injEq,Prod.mk.injEq] at hk
      simp [hk.1.1] at he
    exact ⟨_,hlive hne hC,hparent',hpath',hlt'⟩
  · obtain ⟨hmn,d',hd',rfl⟩ := dropCall_inv hP hd
    obtain ⟨q,Q,j,hparent',hQ,he⟩ := h.parent hd' hm
    have hne : q ≠ n := by
      rintro rfl
      cases hc.symm.trans hQ
      rw [hleaf] at he
      cases he
    refine ⟨q,_,j,hparent',hlive hne hQ,?_⟩
    dsimp only
    split
    next hqp =>
      subst hqp
      cases hP.symm.trans hQ
      refine mem_filter.mpr ⟨he,?_⟩
      simpa using fun heq => hmn (halone _ he heq)
    · exact he
  · obtain ⟨d,hd,-⟩ := hshrinks.calls hd
    obtain ⟨e,he,-⟩ := hshrinks.calls he
    exact h.path_inj hd he

lemma Tracks.dropCall (h : Tracks s path items) (hc : s.calls n = some c)
    (hleaf : c.callSites = []) (hempty : c.things = []) (hP : s.calls p = some P)
    (hmem : (k,n) ∈ P.callSites) (halone : ∀ e ∈ P.callSites, e.1 = k → e.2 = n) :
    Tracks (s.dropCall p P k n) path items := by
  refine ⟨h.shape.dropCall hc hleaf hP hmem halone,fun hd => ?_,fun hd => ?_,h.keys,
    fun e he => ?_,fun hd => ?_⟩
  · obtain ⟨-,d',hd',rfl⟩ := dropCall_inv hP hd
    rw [← h.things hd']
  · obtain ⟨-,d',hd',rfl⟩ := dropCall_inv hP hd
    exact (h.nodup hd' :)
  · obtain ⟨m,d,hd,hpath⟩ := h.placed e he
    have hm : m ≠ n := by
      rintro rfl
      cases hc.symm.trans hd
      have := (h.things hc).mpr ⟨e,he,rfl,rfl,hpath.symm⟩
      rw [hempty] at this
      cases this
    exact ⟨m,_,(dropCall_calls hP hm).trans (congrArg _ hd),hpath⟩
  · obtain ⟨-,d',hd',rfl⟩ := dropCall_inv hP hd
    exact (h.count hd' :)

lemma Tracks.count_zero (h : Tracks s path items) (hc : s.calls n = some c)
    (hleaf : c.callSites = []) (hempty : c.things = []) : c.thingsCount = 0 := by
  rw [h.count hc,countP_eq_zero.mpr fun e he => ?_]
  · rfl
  · obtain ⟨m,d,hd,hpath⟩ := h.placed e he
    simp only [decide_eq_true_eq]
    intro hpre
    obtain rfl := h.shape.eq_of_leaf hc hleaf hd (hpath ▸ hpre)
    have := (h.things hc).mpr ⟨e,he,rfl,rfl,hpath.symm⟩
    rw [hempty] at this
    cases this

lemma Shape.find_site (h : Shape s path) (hc : s.calls n = some c) (hP : s.calls p = some P)
    (hmem : (k,n) ∈ P.callSites) : P.callSites.find? (·.2 = n) = some (k,n) := by
  obtain ⟨C,hC,-,hpath,-⟩ := h.child hP hmem
  cases hc.symm.trans hC
  cases hf : P.callSites.find? (·.2 = n) with
  | none => exact absurd (by simp) (find?_eq_none.mp hf _ hmem)
  | some e =>
    have hen : e.2 = n := by simpa using find?_some hf
    obtain ⟨C,hC,-,hpath',-⟩ := h.child hP (mem_of_find?_eq_some hf)
    rw [hen] at hC hpath'
    cases hc.symm.trans hC
    have hk := append_cancel_left (hpath.symm.trans hpath')
    simp only [cons.injEq,Prod.mk.injEq] at hk
    exact congrArg some (Prod.ext hk.1.1.symm hen)

def collapse (fuel : Nat) (this : CallRef) (s : CallTree T) : Option (CallTree T) := do
  let node ← s.calls this
  if node.things = [] ∧ node.callSites = [] then
    match node.parent with
    | none => some s
    | some parent => removeCall fuel parent this s
  else some s

lemma collapse_spec (h : Tracks s path items) (hc : s.calls n = some c)
    (ha : s.Exclusive path n) (hfuel : n ≤ fuel) :
    ∃ s', collapse fuel n s = some s' ∧ Tracks s' path items ∧ Shrinks s s' := by
  induction n using Nat.strongRecOn generalizing s c fuel with
  | ind n ih =>
  rw [collapse,hc,bind_eq_bind,bind_some]
  by_cases hempty : c.things = [] ∧ c.callSites = []
  · rw [if_pos hempty]
    by_cases hn : n = root
    · subst hn
      obtain ⟨c',hc',hparent⟩ := h.shape.root_call
      cases hc.symm.trans hc'
      rw [hparent]
      exact ⟨s,rfl,h,Shrinks.refl s⟩
    · obtain ⟨p,P,k,hparent,hP,hmem,hpath,hlt⟩ := h.shape.caller hc hn
      rw [hparent]
      cases fuel with
      | zero => exact absurd (lt_of_lt_of_le hlt hfuel) (not_lt_zero p)
      | succ fuel =>
        have hzero := h.count_zero hc hempty.2 hempty.1
        have halone : ∀ e ∈ P.callSites, e.1 = k → e.2 = n := fun e he heq =>
          ha hc prefix_rfl hzero c hc p hparent P hP e he (heq ▸ hmem)
        have hfind := h.shape.find_site hc hP hmem
        have hdrop := h.dropCall hc hempty.2 hempty.1 hP hmem halone
        have hshrinks : Shrinks s (s.dropCall p P k n) := Shrinks.dropCall hP
        have hP' := (dropCall_calls (k := k) hP (Nat.ne_of_lt hlt)).trans (congrArg _ hP)
        obtain ⟨s',hs',h',hshrinks'⟩ := ih p hlt hdrop hP'
          (hshrinks.exclusive fun hd hpre => ha hd (hpre.trans (hpath ▸ prefix_append ..)))
          (le_of_lt_succ (lt_of_lt_of_le hlt hfuel))
        refine ⟨s',?_,h',hshrinks.trans hshrinks'⟩
        rw [← hs']
        simp only [removeCall,hP,hfind,hc,hzero,bind_eq_bind,bind_some,if_true]
        rfl
  · rw [if_neg hempty]
    exact ⟨s,rfl,h,Shrinks.refl s⟩

end

section
omit [DecidableEq T]

lemma modify_bump (hc : s.calls n = some c) (increment : Int)
    (f : List (Location × T) → List (Location × T)) :
    (s.bump path n increment).modify n (fun call => {call with things := f call.things}) =
      some (s.hold path n c (f c.things) increment) := by
  have hc' : (s.bump path n increment).calls n =
      some {c with thingsCount := c.thingsCount+increment} := by
    simp [bump,hc]
  rw [modify,hc',bind_eq_bind,bind_some]
  refine congrArg some (ext_calls rfl rfl rfl fun m => ?_)
  rw [hold_calls hc]
  by_cases hm : m = n
  · subst hm
    simp [hc]
  rw [set_calls_of_ne _ _ hm]
  simp only [bump,if_neg hm]
  refine congrArg (fun f => (s.calls m).map f) (funext fun d => ?_)
  split <;> simp

lemma Alone.hold (hc : s.calls n = some c) (things : List (Location × T)) (increment : Int)
    (h : s.Alone m) : (s.hold path n c things increment).Alone m := by
  intro d hd p hp P hP e he hmem
  rw [mem_def,hold_calls hc] at hd hP
  obtain ⟨d',hd',rfl⟩ := map_eq_some_iff.mp hd
  obtain ⟨P',hP',rfl⟩ := map_eq_some_iff.mp hP
  exact h d' hd' p hp P' hP' e he hmem

lemma Exclusive.hold (hc : s.calls n = some c) (things : List (Location × T))
    (ha : ∀ {m d}, s.calls m = some d → path m <+: path n → d.thingsCount = 1 → s.Alone m) :
    (s.hold path n c things (-1)).Exclusive path n := by
  intro m d hd hpre hzero
  obtain ⟨d',hd',-,hcount⟩ := hold_inv hc hd
  rw [if_pos hpre] at hcount
  exact (ha hd' hpre (by omega)).hold hc things (-1)

lemma removeCall_self (h : Shape s path) (hc : s.calls n = some c) (fuel : Nat) :
    removeCall (fuel+1) n n s = collapse fuel n s := by
  have hfind : c.callSites.find? (·.2 = n) = none := by
    refine find?_eq_none.mpr fun e he => ?_
    obtain ⟨C,-,-,-,hlt⟩ := h.child hc he
    simpa using (Nat.ne_of_lt hlt).symm
  simp only [removeCall,collapse,hc,hfind,bind_eq_bind,bind_some]

end

lemma removeThing_spec (h : Tracks s path items) (hc : s.calls n = some c)
    (he : e ∈ items) (hplace : e.place = path n) {removeParents : Bool}
    (ha : removeParents → ∀ {m d}, s.calls m = some d → path m <+: path n →
      d.thingsCount = 1 → s.Alone m) : ∃ s', removeThing e.thing removeParents n s = some s' ∧
      Tracks s' path (items.filter (·.thing ≠ e.thing)) ∧ s'.thingsLocation = s.thingsLocation ∧
      s'.removeEmptyCallStacks = s.removeEmptyCallStacks ∧
      ∀ {m d'}, s'.calls m = some d' → ∃ d, s.calls m = some d := by
  have hloop : (c.things.filter (·.2 = e.thing)).foldlM
      (fun s _ => updateThingsCount (-1) s.next n s) s = some (s.bump path n (-1)) := by
    rw [h.filter_thing hc he hplace,foldlM_cons,
      updateThingsCount_eq h.shape hc (-1) (h.shape.lt_next hc)]
    rfl
  have hmodify : (s.bump path n (-1)).modify n _ = _ :=
    modify_bump hc (-1) (filter (·.2 ≠ e.thing))
  have h1 := h.remove hc he hplace
  have hc1 : (s.hold path n c (c.things.filter (·.2 ≠ e.thing)) (-1)).calls n = _ :=
    (hold_calls hc _ (-1) n).trans (congrArg _ hc)
  have hlive : ∀ {m d'},
      (s.hold path n c (c.things.filter (·.2 ≠ e.thing)) (-1)).calls m = some d' →
      ∃ d, s.calls m = some d := fun hd => (hold_inv hc hd).imp fun _ h => h.1
  simp only [removeThing,hc,hloop,hmodify,bind_eq_bind,bind_some]
  cases removeParents with
  | false => exact ⟨_,rfl,h1,rfl,rfl,hlive⟩
  | true =>
    obtain ⟨s',hs',h',hshrinks⟩ := collapse_spec h1 hc1 (Exclusive.hold hc _ (ha rfl))
      (le_of_lt (h1.shape.lt_next hc1))
    refine ⟨s',?_,h',hshrinks.location,hshrinks.remove,fun hd => ?_⟩
    · rw [if_pos rfl,removeCall_self h1.shape hc1]
      exact hs'
    · obtain ⟨d,hd,-⟩ := hshrinks.calls hd
      exact hlive hd

structure Tracked (s : CallTree T) (path : CallRef → List Frame) (items : List (Item T)) : Prop
    extends Tracks s path items where
  location : s.thingsLocation.map (fun e => (e.1,path e.2)) = items.map fun e => (e.thing,e.place)
  live : ∀ {e}, e ∈ s.thingsLocation → ∃ c, s.calls e.2 = some c

inductive Op (T : Type) where
  | add (thing : T) (cs : CallStack) (loc : Location)
  | remove (thing : T)
  | setRemoveEmptyCallStacks

def step (s : CallTree T) : Op T → Option (CallTree T)
  | .add thing cs loc => (s.add thing cs loc).map Prod.snd
  | .remove thing => s.remove thing
  | .setRemoveEmptyCallStacks => some s.setRemoveEmptyCallStacks

def track (items : List (Item T)) : Op T → List (Item T)
  | .add thing cs loc =>
    if thing ∈ items.map Item.thing then items else ⟨thing,cs,loc⟩ :: items
  | .remove thing => items.filter (·.thing ≠ thing)
  | .setRemoveEmptyCallStacks => items

def stack (s : CallTree T) : Nat → CallRef → List CallRef
  | 0, _ => []
  | fuel+1, n => n :: match (s.calls n).bind FunctionCall.parent with
    | none => []
    | some parent => stack s fuel parent

/-- A removal that leaves calls empty, where another call has the call site of one of them, is not
allowed. -/
def Allowed (s : CallTree T) : Op T → Prop
  | .remove thing => s.removeEmptyCallStacks = true → ∀ fc ∈ s.find thing,
      ∀ n ∈ s.stack s.next fc, ∀ c ∈ s.calls n, c.thingsCount = 1 → s.Alone n
  | _ => True

omit [DecidableEq T] in
lemma mem_stack (h : Shape s path) (hc : s.calls n = some c) (hfuel : n < fuel) :
    m ∈ s.stack fuel n ↔ (∃ d, s.calls m = some d) ∧ path m <+: path n := by
  induction n using Nat.strongRecOn generalizing c fuel with
  | ind n ih =>
  cases fuel with
  | zero => exact absurd hfuel (not_lt_zero n)
  | succ fuel =>
    rw [stack,hc,bind_some,mem_cons]
    by_cases hn : n = root
    · subst hn
      obtain ⟨c',hc',hparent⟩ := h.root_call
      cases hc.symm.trans hc'
      simp only [hparent,not_mem_nil,or_false,h.root_path,prefix_nil]
      constructor
      · rintro rfl
        exact ⟨⟨c,hc⟩,h.root_path⟩
      · rintro ⟨⟨d,hd⟩,heq⟩
        exact h.path_inj hd hc (heq.trans h.root_path.symm)
    · obtain ⟨p,P,k,hparent,hP,-,hpath,hlt⟩ := h.caller hc hn
      simp only [hparent]
      rw [ih p hlt hP (lt_of_lt_of_le hlt (le_of_lt_succ hfuel))]
      constructor
      · rintro (rfl | ⟨hd,hpre⟩)
        · exact ⟨⟨c,hc⟩,prefix_rfl⟩
        · exact ⟨hd,hpre.trans (hpath ▸ prefix_append ..)⟩
      · rintro ⟨⟨d,hd⟩,hpre⟩
        rw [hpath,prefix_concat_iff] at hpre
        rcases hpre with heq | hpre
        · exact .inl (h.path_inj hd hc (heq.trans hpath.symm))
        · exact .inr ⟨⟨d,hd⟩,hpre⟩

section
variable (h : Tracked s path items)
include h

lemma Tracked.find_eq_none {thing : T} : s.find thing = none ↔ thing ∉ items.map Item.thing := by
  have hkeys : s.thingsLocation.map Prod.fst = items.map Item.thing := by
    have := congrArg (map Prod.fst) h.location
    simpa [comp_def] using this
  rw [← hkeys,find,map_eq_none_iff,find?_eq_none]
  simp only [decide_eq_true_eq,List.mem_map,not_exists,not_and]

lemma Tracked.find_eq_some {thing : T} (hfind : s.find thing = some n) :
    (∃ c, s.calls n = some c) ∧ ∃ e ∈ items, e.thing = thing ∧ e.place = path n := by
  obtain ⟨⟨t,n'⟩,hf,rfl⟩ := map_eq_some_iff.mp hfind
  have ht : t = thing := by simpa using find?_some hf
  subst ht
  have hmem := mem_of_find?_eq_some hf
  refine ⟨h.live hmem,?_⟩
  have : (t,path n') ∈ items.map fun e => (e.thing,e.place) :=
    h.location ▸ mem_map_of_mem (f := fun e => (e.1,path e.2)) hmem
  obtain ⟨e,he,heq⟩ := mem_map.mp this
  exact ⟨e,he,congrArg Prod.fst heq,congrArg Prod.snd heq⟩

lemma add_spec (thing : T) (cs : CallStack) (loc : Location) :
    ∃ b s' path', s.add thing cs loc = some (b,s') ∧
      Tracked s' path' (track items (.add thing cs loc)) := by
  by_cases hmem : thing ∈ items.map Item.thing
  · have hfind : (s.find thing).isSome := by
      rw [isSome_iff_ne_none]
      exact fun hnone => h.find_eq_none.mp hnone hmem
    refine ⟨false,s,path,?_,?_⟩
    · rw [add,if_pos hfind]
    · rwa [track,if_pos hmem]
  · have hfind : ¬ (s.find thing).isSome := by
      rw [h.find_eq_none.mpr hmem]
      simp
    obtain ⟨r,hr,-⟩ := h.shape.root_call
    obtain ⟨n,c,s1,path',henter,h1,hc,hpath,hgrows⟩ := enter_spec h.toTracks hr cs
    rw [h.shape.root_path,nil_append] at hpath
    have hthings : (loc,thing) ∉ c.things := fun hin => by
      obtain ⟨e,he,rfl,-⟩ := (h1.things hc).mp hin
      exact hmem (mem_map_of_mem he)
    have hcount := updateThingsCount_eq
      (h1.shape.set hc (d := {c with things := c.things ++ [(loc,thing)]}) rfl)
      (set_calls_self ..) 1 (h1.shape.lt_next hc)
    have h2 := h1.add hc (e := ⟨thing,cs,loc⟩) hpath.symm hmem
    refine ⟨true, { s1.hold path' n c (c.things ++ [(loc,thing)]) 1 with
      thingsLocation := (thing,n) :: s1.thingsLocation},path',?_,?_⟩
    · simp only [add,hfind,henter,modify,hc,hthings,bind_eq_bind,bind_some,if_false]
      rw [show (s1.set n _).next = s1.next from rfl,hcount]
      rfl
    · rw [track,if_neg hmem]
      refine ⟨h2.of_calls rfl rfl,?_,fun {e} he => ?_⟩
      · have hsame : s1.thingsLocation.map (fun e => (e.1,path' e.2)) =
            s.thingsLocation.map fun e => (e.1,path e.2) := by
          rw [hgrows.location]
          refine map_congr_left fun e he => ?_
          obtain ⟨d,hd⟩ := h.live he
          rw [hgrows.path hd]
        rw [map_cons,map_cons,hsame,h.location,hpath]
        rfl
      · have hlive : ∀ {m d}, s1.calls m = some d → ∃ d',
            (s1.hold path' n c (c.things ++ [(loc,thing)]) 1).calls m = some d' :=
          fun hd => ⟨_,(hold_calls hc _ _ _).trans (congrArg _ hd)⟩
        rcases mem_cons.mp he with rfl | he
        · exact hlive hc
        · obtain ⟨d,hd⟩ := h.live (hgrows.location ▸ he)
          obtain ⟨d1,hd1⟩ := hgrows.live hd
          exact hlive hd1

lemma remove_spec (thing : T) (ha : s.Allowed (.remove thing)) :
    ∃ s', s.remove thing = some s' ∧ Tracked s' path (track items (.remove thing)) := by
  unfold remove
  cases hfind : s.find thing with
  | none =>
    have hmem := h.find_eq_none.mp hfind
    have hall : track items (.remove thing) = items := filter_eq_self.mpr fun e he => by
        simpa using fun heq : e.thing = thing => hmem (heq ▸ mem_map_of_mem he)
    exact ⟨s,rfl,by rwa [hall]⟩
  | some n =>
    obtain ⟨⟨c,hc⟩,e,he,rfl,hplace⟩ := h.find_eq_some hfind
    have halone : s.removeEmptyCallStacks → ∀ {m d}, s.calls m = some d →
        path m <+: path n → d.thingsCount = 1 → s.Alone m := fun hflag _ d hd hpre hone =>
      ha hflag n hfind _ ((mem_stack h.shape hc (h.shape.lt_next hc)).mpr ⟨⟨d,hd⟩,hpre⟩) d hd hone
    obtain ⟨s1,hs1,h1,hlocation,-,hlive⟩ := removeThing_spec h.toTracks hc he hplace halone
    refine ⟨{s1 with thingsLocation := s1.thingsLocation.filter (·.1 ≠ e.thing)},?_,?_⟩
    · simp only [hs1,bind_eq_bind,bind_some]
    · have hmap : (s1.thingsLocation.filter (·.1 ≠ e.thing)).map (fun e => (e.1,path e.2)) =
          (items.filter (·.thing ≠ e.thing)).map fun e => (e.thing,e.place) := by
        have := congrArg (filter (·.1 ≠ e.thing)) h.location
        rw [List.filter_map,List.filter_map] at this
        rw [hlocation]
        exact this
      refine ⟨h1.of_calls rfl rfl,hmap,fun {b} hb => ?_⟩
      -- a call in the table has an item, and the place of the item has its call
      have hin : (b.1,path b.2) ∈
          (items.filter (·.thing ≠ e.thing)).map fun e => (e.thing,e.place) :=
        hmap ▸ mem_map_of_mem (f := fun e => (e.1,path e.2)) hb
      obtain ⟨a,ha,heq⟩ := mem_map.mp hin
      obtain ⟨m,d,hd,hpath⟩ := h1.placed a ha
      obtain ⟨d',hd'⟩ := hlive hd
      obtain ⟨b',hb'⟩ := h.live (hlocation ▸ (mem_filter.mp hb).1)
      obtain rfl := h.shape.path_inj hd' hb' (hpath.trans (congrArg Prod.snd heq))
      exact ⟨d,hd⟩

lemma step_spec (op : Op T) (ha : s.Allowed op) :
    ∃ s' path', s.step op = some s' ∧ Tracked s' path' (track items op) := by
  cases op with
  | add thing cs loc =>
    obtain ⟨b,s',path',hs',h'⟩ := add_spec h thing cs loc
    exact ⟨s',path',congrArg (Option.map Prod.snd) hs',h'⟩
  | remove thing =>
    obtain ⟨s',hs',h'⟩ := remove_spec h thing ha
    exact ⟨s',path,hs',h'⟩
  | setRemoveEmptyCallStacks =>
    exact ⟨_,path,rfl,h.toTracks.of_calls rfl rfl,h.location,h.live⟩

def run : List (Op T) → CallTree T → Option (CallTree T)
  | [], s => some s
  | op :: ops, s => s.step op >>= run ops

def AllAllowed (s : CallTree T) : List (Op T) → Prop
  | [] => True
  | op :: ops => s.Allowed op ∧ match s.step op with
    | some s' => s'.AllAllowed ops
    | none => True

instance (s : CallTree T) : (op : Op T) → Decidable (s.Allowed op)
  | .add _ _ _ => inferInstanceAs (Decidable True)
  | .remove thing => inferInstanceAs (Decidable (_ → ∀ fc ∈ s.find thing, _))
  | .setRemoveEmptyCallStacks => inferInstanceAs (Decidable True)

def decideAllAllowed : (ops : List (Op T)) → (s : CallTree T) → Decidable (s.AllAllowed ops)
  | [], _ => inferInstanceAs (Decidable True)
  | op :: ops, s =>
    match h : s.step op with
    | some s' =>
      have := decideAllAllowed ops s'
      decidable_of_iff (s.Allowed op ∧ s'.AllAllowed ops) (by simp [AllAllowed,h])
    | none => decidable_of_iff (s.Allowed op) (by simp [AllAllowed,h])

instance (s : CallTree T) (ops : List (Op T)) : Decidable (s.AllAllowed ops) :=
  decideAllAllowed ops s

lemma run_spec (ops : List (Op T)) (ha : s.AllAllowed ops) :
    ∃ s' path', run ops s = some s' ∧ Tracked s' path' (ops.foldl track items) := by
  induction ops generalizing s path items with
  | nil => exact ⟨s,path,rfl,h⟩
  | cons op ops ih =>
    obtain ⟨hop,hrest⟩ := ha
    obtain ⟨s1,path1,hs1,h1⟩ := step_spec h op hop
    rw [hs1] at hrest
    obtain ⟨s',path',hs',h'⟩ := ih h1 hrest
    refine ⟨s',path',?_,h'⟩
    rw [run,hs1]
    exact hs'

end

omit [DecidableEq T] in
lemma start_tracked (flag : Bool) : Tracked (start flag : CallTree T) (fun _ => []) [] := by
  have hroot : ∀ {n} {c : FunctionCall T}, (start flag : CallTree T).calls n = some c →
      n = root ∧ c = ⟨none, "system",0, "<unknownfunc>",[],[],0⟩ := fun {n c} hc => by
    unfold start at hc
    by_cases hn : n = root
    · subst hn
      exact ⟨rfl,by simpa using hc.symm⟩
    · simp [update_of_ne hn] at hc
  refine ⟨⟨⟨fun hc => ?_,⟨_,rfl,rfl⟩,rfl,fun hP he => ?_,fun hc hn => ?_,fun hc hd _ => ?_⟩,
    fun hc => ?_,fun hc => ?_,nodup_nil,nofun,fun hc => ?_⟩,rfl,
    nofun⟩
  · rw [(hroot hc).1]
    exact Nat.zero_lt_one
  · rw [(hroot hP).2] at he
    cases he
  · exact absurd (hroot hc).1 hn
  · rw [(hroot hc).1,(hroot hd).1]
  · rw [(hroot hc).2]
    simp
  · rw [(hroot hc).2]
    exact nodup_nil
  · rw [(hroot hc).2]
    rfl

def reach (s : CallTree T) : CallStack → CallRef → Option CallRef
  | [], n => some n
  | ce :: cs, n => do
    let call ← s.calls n
    let child ← ← s.get ce call.callSites
    reach s cs child

/-- Every item is at the end of its call stack, every call counts the items of the calls at or
below it, and no call that was deleted is referred to. -/
structure Consistent (s : CallTree T) (items : List (Item T)) : Prop where
  reached : ∀ e ∈ items, ∃ n c, s.reach e.stack root = some n ∧ s.calls n = some c ∧
    (e.location,e.thing) ∈ c.things ∧ s.find e.thing = some n
  things : ∀ n c, s.calls n = some c → ∀ x ∈ c.things, (x.2,n) ∈ s.thingsLocation
  count : ∀ n c, s.calls n = some c →
    c.thingsCount = s.thingsLocation.countP fun e => n ∈ s.stack s.next e.2
  root_count : ∃ c, s.calls root = some c ∧ c.thingsCount = items.length
  location_live : ∀ e ∈ s.thingsLocation, (s.calls e.2).isSome
  parent_live : ∀ n c, s.calls n = some c → ∀ p ∈ c.parent, (s.calls p).isSome
  site_live : ∀ n c, s.calls n = some c → ∀ e ∈ c.callSites, (s.calls e.2).isSome

section
omit [DecidableEq T]

lemma reach_eq (h : Shape s path) (hc : s.calls n = some c) (hd : s.calls m = some d)
    {cs : CallStack} (hpath : path m = path n ++ cs.frames) : s.reach cs n = some m := by
  induction cs generalizing n c with
  | nil =>
    obtain rfl := h.path_inj hd hc (hpath.trans (append_nil _))
    rfl
  | cons ce cs ih =>
    have hcons : path m = (path n ++ [ce.frame]) ++ CallStack.frames cs := by
      rw [hpath,append_assoc]
      rfl
    obtain ⟨r,hr,hfound,-⟩ := get_spec h hc ce fun e he => he
    cases r with
    | none =>
      obtain ⟨k,b,hb,hpath'⟩ := h.exists_prefix hd (q := path n ++ [ce.frame]) ⟨_,hcons.symm⟩
      exact absurd hpath' (get_none h hc hr hb)
    | some child =>
      obtain ⟨⟨C,hC⟩,hpath'⟩ := hfound child rfl
      simp only [reach,hc,hr,bind_eq_bind,bind_some]
      exact ih hC (hpath' ▸ hcons)

end

lemma Tracked.consistent (h : Tracked s path items) : s.Consistent items := by
  obtain ⟨r,hr,hnone⟩ := h.shape.root_call
  have hcount : ∀ q : List Frame, (s.thingsLocation.countP fun e => q <+: path e.2) =
      items.countP fun e => q <+: e.place := fun q => by
    have := congrArg (countP fun e => q <+: e.2) h.location
    rwa [countP_map,countP_map] at this
  refine ⟨fun e he => ?_,fun n c hc x hx => ?_,fun n c hc => ?_,⟨r,hr,?_⟩,fun e he => ?_,
    fun n c hc p hp => ?_,fun n c hc e he => ?_⟩
  · obtain ⟨n,c,hc,hpath⟩ := h.placed e he
    have hthing := (h.things hc).mpr ⟨e,he,rfl,rfl,hpath.symm⟩
    refine ⟨n,c,reach_eq h.shape hr hc ?_,hc,hthing,?_⟩
    · rw [h.shape.root_path,hpath]
      rfl
    · cases hfind : s.find e.thing with
      | none => exact absurd (mem_map_of_mem he) (h.find_eq_none.mp hfind)
      | some m =>
        obtain ⟨⟨d,hd⟩,b,hb,hthing,hplace⟩ := h.find_eq_some hfind
        obtain rfl := h.eq_of_thing he hb hthing
        exact congrArg some (h.shape.path_inj hd hc (hplace.symm.trans hpath.symm))
  · obtain ⟨e,he,hthing,-,hplace⟩ := (h.things hc).mp (show (x.1,x.2) ∈ c.things from hx)
    have hmem : (x.2,path n) ∈ s.thingsLocation.map fun e => (e.1,path e.2) := by
      rw [h.location,← hthing,← hplace]
      exact mem_map_of_mem (f := fun e : Item T => (e.thing,e.place)) he
    obtain ⟨b,hb,heq⟩ := mem_map.mp hmem
    obtain ⟨d,hd⟩ := h.live hb
    have hbn : b.2 = n := h.shape.path_inj hd hc (congrArg Prod.snd heq)
    have hbx : b.1 = x.2 := congrArg Prod.fst heq
    exact (Prod.ext hbx hbn : b = (x.2,n)) ▸ hb
  · rw [h.count hc,← hcount]
    refine congrArg Int.ofNat (countP_congr fun e he => ?_)
    obtain ⟨d,hd⟩ := h.live he
    simp only [decide_eq_true_eq,mem_stack h.shape hd (h.shape.lt_next hd)]
    exact ⟨fun hpre => ⟨⟨c,hc⟩,hpre⟩,fun hpre => hpre.2⟩
  · rw [h.count hr,h.shape.root_path]
    exact congrArg Int.ofNat (countP_eq_length.mpr fun e _ => by simp)
  · obtain ⟨d,hd⟩ := h.live he
    simp [hd]
  · have hn : n ≠ root := by
      rintro rfl
      cases hr.symm.trans hc
      cases hnone.symm.trans hp
    obtain ⟨q,P,-,hparent,hP,-⟩ := h.shape.caller hc hn
    cases hparent.symm.trans hp
    simp [hP]
  · obtain ⟨C,hC,-⟩ := h.shape.child hc he
    simp [hC]

/-- As long as no removal empties a call whose call site is that of another call, the tree is
consistent with the items that were added and not removed. -/
theorem run_consistent (removeEmptyCallStacks : Bool) (ops : List (Op T))
    (h : (start removeEmptyCallStacks).AllAllowed ops) :
    ∃ s, run ops (start removeEmptyCallStacks) = some s ∧ s.Consistent (ops.foldl track []) := by
  obtain ⟨s,path,hs,htracked⟩ := run_spec (start_tracked removeEmptyCallStacks) ops h
  exact ⟨s,hs,htracked.consistent⟩

theorem run_consistent_two_calls :
    let f : CallStackEntry := ⟨"driver", "f",0x10,0x100⟩
    let g : CallStackEntry := ⟨"driver", "g",0x20,0x200⟩
    let ops : List (Op Nat) := [.add 1 [f] ("driver",0x110),.add 2 [f,g] ("driver",0x210),
      .add 3 [g] ("driver",0x220),.remove 2,.remove 1]
    ∃ s, run ops (start true) = some s ∧ s.Consistent (ops.foldl track []) :=
  run_consistent true _ (by decide +kernel)

/-- Two functions that are called from the same place: when the one is removed, the other is
still tracked, but cannot be reached. -/
theorem sibling_unreachable :
    let f : CallStackEntry := ⟨"driver", "f",0x10,0x100⟩
    let g : CallStackEntry := ⟨"driver", "g",0x10,0x200⟩
    let ops : List (Op Nat) :=
      [.add 1 [f] ("driver",0x110),.add 2 [g] ("driver",0x210),.remove 1]
    ∃ s, run ops (start true) = some s ∧ (s.find 2).isSome ∧ s.reach [g] root = none ∧
      ¬ s.Consistent (ops.foldl track []) := by
  intro f g ops
  have heval : (run ops (start true)).map (fun s => ((s.find 2).isSome,s.reach [g] root)) =
      some (true,none) := by
    decide +kernel
  obtain ⟨s,hs,hpair⟩ := map_eq_some_iff.mp heval
  have hreach : s.reach [g] root = none := congrArg Prod.snd hpair
  refine ⟨s,hs,congrArg Prod.fst hpair,hreach,fun h => ?_⟩
  have hitems : ops.foldl track [] = [⟨2,[g],("driver",0x210)⟩] := rfl
  rw [hitems] at h
  obtain ⟨n,-,hn,-⟩ := h.reached _ mem_cons_self
  cases hreach.symm.trans hn

end CallTree
end S2E
