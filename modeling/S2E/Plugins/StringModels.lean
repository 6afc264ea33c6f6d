import S2E.Core.Executor
import S2E.Lib.Stateful

/-!
`BaseFunctionModels`: the models of the C string functions that only ask about memory. A
model that gives up returns nothing; a failed assertion and a search without end stop the run.
-/

namespace S2E
open Stateful List Function Executor ConstantExpr

structure GuestEnv (σ : Type) extends Services σ where
  mustBeTrue : List Expr → Expr → σ → Option Bool × σ
  translate : UInt64 → Option UInt64
  readOnly : UInt64 → Bool
  image : UInt64 → Option (BitVec 8)
  pointerSize : Nat

structure GuestState (σ : Type) where
  exec : ExecutionState
  solver : σ
  bytes : UInt64 → Option Expr

abbrev GuestM (σ : Type) := OptionT (StateT (GuestState σ) Option)

variable {σ : Type}

def maxStrlen : Nat := 4096

variable {width : Nat}

namespace GuestEnv
variable (env : GuestEnv σ) (addr : UInt64)

def memRead (size : Nat) : GuestM σ Expr := do
  let s ← get
  match (range size).mapM fun i => (env.translate (addr+.ofNat i)).bind s.bytes with
  | some (b :: bs) => expect (bs.foldlM (fun ret byte => ConcatExpr.create byte ret) b)
  | _ => failure

/-- `MemUtils::read`: what is not mapped may be in the image of the module. -/
def read (size : Nat) : GuestM σ Expr := do
  match ← attempt (env.memRead addr size) with
  | some e => pure e
  | none =>
    match (range size).mapM fun i => env.image (addr+.ofNat i) with
    | some vs =>
      pure (alloc (vs.foldr (fun b v => b.toNat+256*v) 0) (8*size))
    | none => failure

def writeByte (v : Nat) : GuestM σ Unit := do
  let s ← get
  match env.translate addr with
  | some host =>
    if (s.bytes host).isSome && !env.readOnly host then
      set {s with bytes := update s.bytes host (some (alloc v 8))}
    else failure
  | none => failure

def writeZeros (size : Nat) : GuestM σ Unit :=
  (range size).foldlM (fun _ i => env.writeByte (addr+.ofNat i) 0) ()

def readConcrete : GuestM σ Nat := do
  let e ← env.memRead addr 1
  let s ← get
  match ← expect (s.exec.toConstant env.toServices e s.solver) with
  | (.constant c,exec,solver) =>
    set {s with exec, solver}
    env.writeByte addr c.value
    pure c.value
  | _ => expect none

def isNull (e : Expr) : GuestM σ Bool := do
  let s ← get
  let (truth,solver) := env.mustBeTrue s.exec.constraints e s.solver
  set {s with solver}
  pure (truth == some true)

/-- The loop of `findNullCharWithWidth`: the length, and whether a character must be null. -/
def searchNull (addr : UInt64) (width : Nat) : Nat → Nat → GuestM σ (Nat × Bool)
  | 0, _ => expect none
  | fuel+1, len =>
    if len < maxStrlen then do
      expect (guard (addr.toNat ≤ 2^64-1-len))
      let charExpr ← env.read (addr+.ofNat len) width
      let e ← expect (EqExpr.create charExpr (alloc 0 (8*width)))
      if ← env.isNull e then pure (len,true) else searchNull addr width fuel (len+width)
    else pure (len,false)

/-- `findNullChar` is the case of width one. `allSymbolic` is only cleared by a null
character. -/
def findNullChar (width : Nat) : GuestM σ Nat := do
  expect (guard (addr ≠ 0))
  let (len,found) ← env.searchNull addr width (maxStrlen+1) 0
  if !found && len == maxStrlen then
    env.writeZeros (addr+.ofNat (len-width)) width
  pure len

def strlenHelper : GuestM σ Expr := do
  if addr = 0 then failure
  let len ← env.findNullChar addr 1
  let width := 8*env.pointerSize
  (range len).reverse.foldlM (fun ret nr => do
    let charExpr ← env.read (addr+.ofNat nr) 1
    let e ← expect (EqExpr.create charExpr (alloc 0 8))
    expect (SelectExpr.create e (alloc nr width) ret)) (alloc len width)

variable (addrs : UInt64 × UInt64)

def compareChar (width memSize : Nat) (ret : Expr) (nr : Nat) : GuestM σ Expr := do
  let null := alloc 0 (8*width)
  let zero := alloc 0 32
  let x ← env.read (addrs.1+.ofNat (nr*width)) width
  let y ← env.read (addrs.2+.ofNat (nr*width)) width
  expect do
    let subRes ← SubExpr.create (← ZExtExpr.create x 32) (← ZExtExpr.create y 32)
    let ret ← if nr = memSize-1 then pure zero
      else
        let bothNull := AndExpr.create (← EqExpr.create x null) (← EqExpr.create y null)
        SelectExpr.create bothNull zero ret
    let ret ← SelectExpr.create (← UgtExpr.create x y) subRes ret
    SelectExpr.create (← UltExpr.create x y) subRes ret

def strcmpHelperCommon (width memSize : Nat) : GuestM σ Expr := do
  if addrs.1 = 0 ∨ addrs.2 = 0 then failure
  if memSize = 0 then pure (alloc 0 8)
  else
    (range memSize).reverse.foldlM (env.compareChar addrs width memSize)
      (alloc 0 32)

def strcmpWithWidthHelper (width : Nat) : GuestM σ Expr := do
  let len1 ← env.findNullChar addrs.1 width
  let len2 ← env.findNullChar addrs.2 width
  env.strcmpHelperCommon addrs width (min len1 len2+1)

def strcmpHelper : GuestM σ Expr := env.strcmpWithWidthHelper addrs 1

def strncmpHelper (size : Nat) : GuestM σ Expr := do
  let len1 ← env.findNullChar addrs.1 1
  let len2 ← env.findNullChar addrs.2 1
  env.strcmpHelperCommon addrs 1 (min (min len1 len2+1) size)

def memcmpHelper (numBytes : Nat) : GuestM σ Expr := do
  if addrs.1 = 0 ∨ addrs.2 = 0 ∨ numBytes = 0 ∨ maxStrlen < numBytes then failure
  let width := 8*env.pointerSize
  (range numBytes).reverse.foldlM (fun ret nr => do
    let x ← env.read (addrs.1+.ofNat nr) 1
    let y ← env.read (addrs.2+.ofNat nr) 1
    expect do
      let difference ← SubExpr.create (← ZExtExpr.create x width) (← ZExtExpr.create y width)
      SelectExpr.create (NotExpr.create (← EqExpr.create x y)) difference ret)
    (alloc 0 width)

def skipTable (needle : UInt64) (width needleLen : Nat) : GuestM σ (Nat → UInt64) :=
  (range (needleLen-1)).foldlM (fun skip k => do
    let c ← env.readConcrete (needle+.ofNat (k*width*width))
    pure (update skip c
      (.ofNat width*(.ofNat needleLen-1-.ofNat (k*width))))) fun _ => .ofNat needleLen

def strstrLoop (haystack needle : UInt64) (width haystackLen needleLen : Nat)
    (skip : Nat → UInt64) : Nat → UInt64 → Expr → GuestM σ Expr
  | 0, _, _ => expect none
  | fuel+1, i, final =>
    if i ≤ .ofNat haystackLen-.ofNat needleLen then do
      let current := haystack+i*.ofNat width
      let final ← match ← attempt (env.strncmpHelper (current,needle) needleLen) with
        | some cmp => expect do
          SelectExpr.create (← EqExpr.create cmp (alloc 0 32))
            (alloc current.toNat (8*env.pointerSize)) final
        | none => pure final
      let next := match ← attempt (env.readConcrete (current+.ofNat (needleLen*width))) with
        | some c => i+skip c
        | none => i+.ofNat width
      strstrLoop haystack needle width haystackLen needleLen skip fuel next final
    else pure final

def strstrHelper (haystack needle : UInt64) (width fuel : Nat) : GuestM σ Expr := do
  let haystackLen ← env.findNullChar haystack width
  let needleLen ← env.findNullChar needle width
  if needleLen = 0 then pure (alloc haystack.toNat (8*env.pointerSize))
  else
    let skip ← env.skipTable needle width needleLen
    env.strstrLoop haystack needle width haystackLen needleLen skip fuel 0
      (alloc 0 (8*env.pointerSize))

end GuestEnv

namespace GuestState

def value (s : GuestState σ) (host : UInt64) (a : Assignment) : Option Nat :=
  (s.bytes host).map fun e => e.eval a

structure Sane (s : GuestState σ) : Prop where
  ok : s.exec.Ok
  byte : ∀ host e, s.bytes host = some e →
    Admissible s.exec.symbolics s.exec.constraints e ∧ e.width = 8

structure Extends (nulls : UInt64 → Prop) (s s' : GuestState σ) : Prop where
  sane : s'.Sane
  satisfies : ∀ a : Assignment, a.Satisfies s'.exec.constraints → a.Satisfies s.exec.constraints
  value : ∀ a : Assignment, a.Satisfies s'.exec.constraints → ∀ host,
    s'.value host a = s.value host a ∨ (s'.value host a = some 0 ∧ nulls host)

variable {nulls : UInt64 → Prop} {s t u : GuestState σ}

lemma Extends.refl (hs : s.Sane) : s.Extends nulls s := ⟨hs,fun _ ha => ha,fun _ _ _ => .inl rfl⟩

lemma Extends.mono {nulls' : UInt64 → Prop} (h : s.Extends nulls t)
    (hn : ∀ host, nulls host → nulls' host) : s.Extends nulls' t :=
  ⟨h.sane,h.satisfies,fun a ha host => (h.value a ha host).imp id (And.imp id (hn host))⟩

lemma Extends.trans (h : s.Extends nulls t) (h' : t.Extends nulls u) : s.Extends nulls u where
  sane := h'.sane
  satisfies a ha := h.satisfies a (h'.satisfies a ha)
  value a ha host := by
    rcases h'.value a ha host with hu | hu
    · rw [hu]
      exact h.value a (h'.satisfies a ha) host
    · exact .inr hu

lemma Sane.concretized (hs : s.Sane) {exec : ExecutionState} {e : Expr} {c : APInt}
    (h : s.exec.Concretized exec e c) {solver : σ} : s.Extends nulls {s with exec, solver} where
  sane :=
    { ok := h.ok
      byte := fun host b hb => by
        obtain ⟨hadm,hw⟩ := hs.byte host b hb
        refine ⟨⟨hadm.wf,fun a ha => ?_⟩,hw⟩
        dsimp only
        rw [h.symbolics]
        exact hadm.defined a ((h.models a).mp ha).1}
  satisfies a ha := ((h.models a).mp ha).1
  value _ _ _ := .inl rfl

lemma Sane.of_bytes (hs : s.Sane) {s' : GuestState σ} (hexec : s'.exec = s.exec)
    (hbytes : ∀ host, s'.bytes host = s.bytes host ∨
      ∃ v, s'.bytes host = some (alloc v 8)) : s'.Sane where
  ok := hexec ▸ hs.ok
  byte host e he := by
    rw [hexec]
    rcases hbytes host with h | ⟨v,h⟩
    · exact hs.byte host e (h.symm.trans he)
    · cases h.symm.trans he
      exact ⟨⟨⟨Nat.succ_pos 7,by change 8 < _; decide⟩,fun _ _ => trivial⟩,rfl⟩

end GuestState

namespace GuestEnv
variable (env : GuestEnv σ)

/-- The search for the null character reads the whole string and finds none. -/
def Overruns (s : GuestState σ) (p : UInt64 × Nat) : Prop :=
  ∃ t s', (env.searchNull p.1 p.2 (maxStrlen+1) 0).run {s with solver := t} =
    some (some (maxStrlen,false),s')

def LastChar (p : UInt64 × Nat) (host : UInt64) : Prop :=
  ∃ i < p.2, env.translate (p.1+.ofNat (maxStrlen-p.2)+.ofNat i) = some host

/-- At most, the last character of the string has become null. -/
structure Terminated (p : UInt64 × Nat) (s s' : GuestState σ) : Prop where
  exec : s'.exec = s.exec
  bytes : ∀ host, s'.bytes host = s.bytes host ∨
    (s'.bytes host = some (alloc 0 8) ∧ env.LastChar p host)

/-- What is done to a state, step by step: a string that is open when it is searched is terminated,
and, if allowed, bytes are made concrete. -/
inductive Changes (strings : UInt64 × Nat → Prop) (concretizes : Prop) (s : GuestState σ) :
    GuestState σ → Prop
  | refl : Changes strings concretizes s s
  | silent {t u : GuestState σ} : Changes strings concretizes s t → u.exec = t.exec →
      u.bytes = t.bytes → Changes strings concretizes s u
  | terminate {t u : GuestState σ} {p : UInt64 × Nat} : Changes strings concretizes s t →
      strings p → env.Overruns t p → env.Terminated p t u → Changes strings concretizes s u
  | concretize {t u : GuestState σ} : Changes strings concretizes s t → concretizes →
      (env.toServices.Sound → t.Sane → t.Extends (fun _ => False) u) →
      Changes strings concretizes s u

/-- The byte belongs to the last character of a string that is open when it is searched. -/
def Opened (strings : UInt64 × Nat → Prop) (concretizes : Prop) (s : GuestState σ)
    (host : UInt64) : Prop :=
  ∃ t p, env.Changes strings concretizes s t ∧ strings p ∧ env.Overruns t p ∧ env.LastChar p host

def Lengths (s : GuestState σ) (addrs : UInt64 × UInt64) (width len1 len2 : Nat) : Prop :=
  ∃ t u, (env.findNullChar addrs.1 width).run s = some (some len1,t) ∧
    (env.findNullChar addrs.2 width).run t = some (some len2,u)

structure FrameRule (strings : UInt64 × Nat → Prop) (R : GuestState σ → GuestState σ → Prop) :
    Prop where
  silent : ∀ s s', s'.exec = s.exec → s'.bytes = s.bytes → R s s'
  trans : ∀ s t u, R s t → R t u → R s u
  terminate : ∀ s s' p, strings p → env.Overruns s p → env.Terminated p s s' → R s s'

variable {env} {strings : UInt64 × Nat → Prop} {concretizes : Prop}
  {R : GuestState σ → GuestState σ → Prop} {s s' t u : GuestState σ} {p : UInt64 × Nat}

lemma Terminated.refl (p : UInt64 × Nat) (s : GuestState σ) : env.Terminated p s s :=
  ⟨rfl,fun _ => .inl rfl⟩

lemma Terminated.trans (h : env.Terminated p s t) (h' : env.Terminated p t u) :
    env.Terminated p s u := by
  refine ⟨h'.exec.trans h.exec,fun host => ?_⟩
  rcases h'.bytes host with hu | hu
  · rw [hu]
    exact h.bytes host
  · exact .inr hu

lemma Changes.trans (h : env.Changes strings concretizes s t)
    (h' : env.Changes strings concretizes t u) : env.Changes strings concretizes s u := by
  induction h' with
  | refl => exact h
  | silent _ hexec hbytes ih => exact .silent ih hexec hbytes
  | terminate _ hp hopen ht ih => exact .terminate ih hp hopen ht
  | concretize _ hc hext ih => exact .concretize ih hc hext

lemma Changes.bytes (h : env.Changes strings False s s') : s'.exec = s.exec ∧ ∀ host,
    s'.bytes host = s.bytes host ∨
      (s'.bytes host = some (alloc 0 8) ∧ env.Opened strings False s host) := by
  induction h with
  | refl => exact ⟨rfl,fun _ => .inl rfl⟩
  | silent _ hexec hbytes ih => exact ⟨hexec.trans ih.1,fun host => hbytes ▸ ih.2 host⟩
  | terminate hst hp hopen ht ih =>
    refine ⟨ht.exec.trans ih.1,fun host => ?_⟩
    rcases ht.bytes host with hu | ⟨hu,hlast⟩
    · rw [hu]
      exact ih.2 host
    · exact .inr ⟨hu,_,_,hst,hp,hopen,hlast⟩
  | concretize _ hc => exact hc.elim

lemma Changes.extends (hsvc : env.toServices.Sound) (hs : s.Sane)
    (h : env.Changes strings concretizes s s') :
    s.Extends (env.Opened strings concretizes s) s' := by
  induction h with
  | refl => exact .refl hs
  | silent _ hexec hbytes ih =>
    refine ih.trans ⟨ih.sane.of_bytes hexec fun host => .inl (congrFun hbytes host),
      fun a ha => hexec ▸ ha,fun a _ host => .inl ?_⟩
    rw [GuestState.value,hbytes,GuestState.value]
  | terminate hst hp hopen ht ih =>
    refine ih.trans ⟨ih.sane.of_bytes ht.exec fun host => (ht.bytes host).imp id fun hh => ⟨0,hh.1⟩,
      fun a ha => ht.exec ▸ ha,fun a _ host => ?_⟩
    rcases ht.bytes host with hb | ⟨hb,hlast⟩
    · exact .inl (by rw [GuestState.value,hb,GuestState.value])
    · exact .inr ⟨by rw [GuestState.value,hb]; rfl,_,_,hst,hp,hopen,hlast⟩
  | concretize _ _ hext ih => exact ih.trans ((hext hsvc ih.sane).mono fun _ => False.elim)

lemma changes_frameRule : env.FrameRule strings (env.Changes strings concretizes) where
  silent _ _ := .silent .refl
  trans _ _ _ := .trans
  terminate _ _ _ := .terminate .refl

lemma same_frameRule : env.FrameRule (fun _ => False) fun s s' =>
    s'.exec = s.exec ∧ s'.bytes = s.bytes where
  silent _ _ := .intro
  trans _ _ _ h h' := ⟨h'.1.trans h.1,h'.2.trans h.2⟩
  terminate _ _ _ hp := hp.elim

lemma writeByte_ends (s : GuestState σ) (addr : UInt64) (v : Nat) :
    Ends (env.writeByte addr v) s fun _ t => t = s ∨ ∃ host, env.translate addr = some host ∧
      t = {s with bytes := update s.bytes host (some (alloc v 8))} := by
  refine .get_bind ?_
  split
  next host haddr =>
    split
    · rintro _ _ ⟨⟩
      exact .inr ⟨host,haddr,rfl⟩
    · exact .failure (.inl rfl)
  · exact .failure (.inl rfl)

lemma writeByte_terminated {addr : UInt64}
    (h : ∀ host, env.translate addr = some host → env.LastChar p host) :
    Moves (env.Terminated p) (env.writeByte addr 0) := by
  intro s o s' hrun
  rcases writeByte_ends s addr 0 o s' hrun with rfl | ⟨host,haddr,rfl⟩
  · exact .refl _ _
  · refine ⟨rfl,fun other => ?_⟩
    by_cases hother : other = host
    · subst hother
      exact .inr ⟨update_self ..,h _ haddr⟩
    · exact .inl (update_of_ne hother ..)

namespace FrameRule
variable (h : env.FrameRule strings R)
include h

lemma refl (s : GuestState σ) : R s s := h.silent s s rfl rfl

lemma memRead (addr : UInt64) (size : Nat) : Moves R (env.memRead addr size) := by
  refine fun s => .get_bind ?_
  split
  · exact .expect fun _ _ => h.refl s
  · exact .failure (h.refl s)

lemma read (addr : UInt64) (size : Nat) : Moves R (env.read addr size) := by
  refine .bind h.trans (.attempt (h.memRead addr size)) fun r => ?_
  cases r with
  | some e => exact .pure h.refl e
  | none =>
    dsimp only
    split
    · exact .pure h.refl _
    · exact .failure h.refl

lemma isNull (e : Expr) : Moves R (env.isNull e) := by
  refine fun s => .get_bind (.set_bind (.pure ?_))
  exact h.silent _ _ rfl rfl

lemma searchNull (addr : UInt64) (width fuel len : Nat) :
    Moves R (env.searchNull addr width fuel len) := by
  induction fuel generalizing len with
  | zero => exact .expect h.refl none
  | succ fuel ih =>
    rw [GuestEnv.searchNull]
    split
    · refine .bind h.trans (.expect h.refl _) fun _ => .bind h.trans (h.read _ _) fun _ =>
        .bind h.trans (.expect h.refl _) fun e => .bind h.trans (h.isNull e) fun b => ?_
      cases b with
      | true => exact .pure h.refl _
      | false => exact ih _
    · exact .pure h.refl _

lemma findNullChar {addr : UInt64} (hp : strings (addr,width)) :
    Moves R (env.findNullChar addr width) := by
  refine .bind h.trans (.expect h.refl _) fun _ s => ?_
  refine Ends.bind (P := fun r t =>
    (env.searchNull addr width (maxStrlen+1) 0).run s = some (r,t)) (fun _ _ ht => ht) ?_
    fun t ht => h.searchNull _ _ _ _ s _ t ht
  rintro ⟨len,found⟩ t ht
  dsimp only
  split
  next hopen =>
    obtain ⟨rfl,rfl⟩ : found = false ∧ len = maxStrlen := by simpa using hopen
    have hwrite : Moves (env.Terminated (addr,width))
        (env.writeZeros (addr+.ofNat (maxStrlen-width)) width >>= fun _ => pure maxStrlen) := by
      have htrans : ∀ s t u, env.Terminated (addr,width) s t → env.Terminated (addr,width) t u →
          env.Terminated (addr,width) s u := fun _ _ _ => .trans
      refine .bind htrans (.foldlM (.refl _) htrans (fun _ i hi => ?_) ()) fun _ =>
        .pure (.refl _) _
      exact writeByte_terminated fun host hh => ⟨i,mem_range.mp hi,hh⟩
    -- the search changes nothing, so the string is open in the state before it
    obtain ⟨hexec,hbytes⟩ := same_frameRule.searchNull _ _ _ _ s _ t ht
    exact fun o u hu => h.terminate s u _ hp ⟨s.solver,t,ht⟩
      (.trans ⟨hexec,fun host => .inl (congrFun hbytes host)⟩ (hwrite t o u hu))
  · exact .pure (h.searchNull _ _ _ _ s _ t ht)

lemma strlenHelper {addr : UInt64} (hp : strings (addr,1)) : Moves R (env.strlenHelper addr) := by
  rw [GuestEnv.strlenHelper]
  split
  · exact .failure h.refl
  · refine .bind h.trans (h.findNullChar hp) fun len => .foldlM h.refl h.trans (fun _ _ _ => ?_) _
    exact .bind h.trans (h.read _ _) fun _ => .bind h.trans (.expect h.refl _) fun _ =>
      .expect h.refl _

lemma strcmpHelperCommon (addrs : UInt64 × UInt64) (width memSize : Nat) :
    Moves R (env.strcmpHelperCommon addrs width memSize) := by
  rw [GuestEnv.strcmpHelperCommon]
  split
  · exact .failure h.refl
  · split
    · exact .pure h.refl _
    · refine .foldlM h.refl h.trans (fun _ _ _ => ?_) _
      exact .bind h.trans (h.read _ _) fun _ => .bind h.trans (h.read _ _) fun _ =>
        .expect h.refl _

variable {a b haystack needle : UInt64}

lemma strcmpWithWidthHelper (ha : strings (a,width))
    (hb : strings (b,width)) : Moves R (env.strcmpWithWidthHelper (a,b) width) :=
  .bind h.trans (h.findNullChar ha) fun _ => .bind h.trans (h.findNullChar hb) fun _ =>
    h.strcmpHelperCommon _ _ _

lemma strncmpHelper (size : Nat) (ha : strings (a,1)) (hb : strings (b,1)) :
    Moves R (env.strncmpHelper (a,b) size) :=
  .bind h.trans (h.findNullChar ha) fun _ => .bind h.trans (h.findNullChar hb) fun _ =>
    h.strcmpHelperCommon _ _ _

lemma memcmpHelper (addrs : UInt64 × UInt64) (numBytes : Nat) :
    Moves R (env.memcmpHelper addrs numBytes) := by
  rw [GuestEnv.memcmpHelper]
  split
  · exact .failure h.refl
  · refine .foldlM h.refl h.trans (fun _ _ _ => ?_) _
    exact .bind h.trans (h.read _ _) fun _ => .bind h.trans (h.read _ _) fun _ =>
      .expect h.refl _

lemma strstrLoop (hconcrete : ∀ addr, Moves R (env.readConcrete addr))
    {haystackLen needleLen : Nat} (hhaystack : ∀ i : UInt64,
      i ≤ .ofNat haystackLen-.ofNat needleLen → strings (haystack+i*.ofNat width,1))
    (hneedle : strings (needle,1)) (skip : Nat → UInt64) (fuel : Nat) (i : UInt64)
    (final : Expr) :
    Moves R (env.strstrLoop haystack needle width haystackLen needleLen skip fuel i final) := by
  induction fuel generalizing i final with
  | zero => exact .expect h.refl none
  | succ fuel ih =>
    rw [GuestEnv.strstrLoop]
    split
    next hi =>
      refine .bind h.trans (.attempt (h.strncmpHelper _ (hhaystack i hi) hneedle)) fun r => ?_
      cases r with
      | some cmp =>
        exact .bind h.trans (.expect h.refl _) fun final =>
          .bind h.trans (.attempt (hconcrete _)) fun _ => ih _ final
      | none =>
        exact .bind h.trans (.pure h.refl _) fun final =>
          .bind h.trans (.attempt (hconcrete _)) fun _ => ih _ final
    · exact .pure h.refl _

lemma strstrHelper (hconcrete : ∀ addr, Moves R (env.readConcrete addr))
    (hhaystack : strings (haystack,width)) (hneedle : strings (needle,width)) {s : GuestState σ}
    (hsearch : ∀ haystackLen needleLen,
      env.Lengths s (haystack,needle) width haystackLen needleLen → strings (needle,1) ∧
        ∀ i : UInt64, i ≤ .ofNat haystackLen-.ofNat needleLen →
          strings (haystack+i*.ofNat width,1)) (fuel : Nat) :
    Ends (env.strstrHelper haystack needle width fuel) s fun _ => R s := by
  refine Ends.bind (P := fun r t => (env.findNullChar haystack width).run s = some (r,t))
    (fun _ _ ht => ht) ?_ fun t ht => h.findNullChar hhaystack s _ t ht
  intro haystackLen t ht
  have hst := h.findNullChar hhaystack s _ t ht
  refine Ends.bind (P := fun r u => (env.findNullChar needle width).run t = some (r,u))
    (fun _ _ hu => hu) ?_ fun u hu => h.trans s t u hst (h.findNullChar hneedle t _ u hu)
  intro needleLen u hu
  have hsu := h.trans s t u hst (h.findNullChar hneedle t _ u hu)
  obtain ⟨hneedle1,hhaystack₁⟩ := hsearch haystackLen needleLen ⟨t,u,ht,hu⟩
  split
  · exact .pure hsu
  · have hrest : Moves R (env.skipTable needle width needleLen >>= fun skip =>
        env.strstrLoop haystack needle width haystackLen needleLen skip fuel 0
          (alloc 0 (8*env.pointerSize))) := by
      refine .bind h.trans (.foldlM h.refl h.trans (fun _ _ _ => ?_) _) fun skip =>
        h.strstrLoop hconcrete hhaystack₁ hneedle1 _ _ _ _
      exact .bind h.trans (hconcrete _) fun _ => .pure h.refl _
    exact fun o v hv => h.trans s u v hsu (hrest u o v hv)

end FrameRule

lemma unchanged_frameRule : env.FrameRule strings fun s s' =>
    (∀ p, strings p → ¬env.Overruns s p) → s'.exec = s.exec ∧ s'.bytes = s.bytes where
  silent _ _ hexec hbytes _ := ⟨hexec,hbytes⟩
  trans s t u h h' hclosed := by
    obtain ⟨hexec,hbytes⟩ := h hclosed
    have ht : ∀ p, strings p → ¬env.Overruns t p := by
      intro p hp
      rw [Overruns,hexec,hbytes]
      exact hclosed p hp
    rw [← hexec,← hbytes]
    exact h' ht
  terminate _ _ p hp hopen _ hclosed := absurd hopen (hclosed p hp)

end GuestEnv

namespace GuestEnv
variable {env : GuestEnv σ} {strings : UInt64 × Nat → Prop} {nulls : UInt64 → Prop}

def byte (env : GuestEnv σ) (s : GuestState σ) (addr : UInt64) : Option Expr :=
  ((env.translate addr).bind s.bytes).or
    ((env.image addr).map fun b => alloc b.toNat 8)

variable {s : GuestState σ} {addr : UInt64}

lemma memRead_run : (env.memRead addr 1).run s = some ((env.translate addr).bind s.bytes,s) := by
  have haddr : addr+.ofNat 0 = addr := UInt64.add_zero addr
  change ((match (range 1).mapM fun i => (env.translate (addr+.ofNat i)).bind s.bytes with
    | some (b :: bs) => expect (bs.foldlM (fun ret byte => ConcatExpr.create byte ret) b)
    | _ => failure : GuestM σ Expr)).run s = _
  rw [range_one,mapM_cons,haddr]
  cases (env.translate addr).bind s.bytes <;> rfl

lemma read_run : (env.read addr 1).run s = some (env.byte s addr,s) := by
  have hattempt : (attempt (env.memRead addr 1)).run s =
      some (some ((env.translate addr).bind s.bytes),s) := by
    change ((env.memRead addr 1).run s).bind _ = _
    rw [memRead_run]
    rfl
  refine (run_bind_of_eq hattempt _).trans ?_
  rw [byte]
  cases (env.translate addr).bind s.bytes with
  | some e => rfl
  | none =>
    have haddr : addr+.ofNat 0 = addr := UInt64.add_zero addr
    rw [Option.elim_some,range_one,mapM_cons,haddr]
    cases env.image addr <;> rfl

lemma readConcrete_extends (hsvc : env.toServices.Sound) (addr : UInt64) :
    Moves (fun s s' => s.Sane → s.Extends nulls s') (env.readConcrete addr) := by
  intro s o s' hrun hs
  revert o s'
  refine Ends.bind (P := fun r t => t = s ∧ r = (env.translate addr).bind s.bytes) ?_ ?_
    (by rintro _ ⟨rfl,-⟩; exact .refl hs)
  · rintro _ _ hread
    obtain ⟨⟩ := memRead_run.symm.trans hread
    exact ⟨rfl,rfl⟩
  rintro e t ⟨ht,he⟩
  subst t
  obtain ⟨host,haddr,hhost⟩ := Option.bind_eq_some_iff.mp he.symm
  obtain ⟨hadm,hw⟩ := hs.byte host e hhost
  obtain ⟨c,exec,solver,hconst,hc⟩ := ExecutionState.toConstant_spec hsvc hs.ok hadm s.solver
  have hext : s.Extends nulls {s with exec, solver} := hs.concretized hc
  refine .get_bind ?_
  rw [hconst]
  change Ends (set ({s with exec, solver} : GuestState σ) >>= fun _ =>
    env.writeByte addr c.value >>= fun _ => pure c.value) s _
  suffices hwrite : Ends (env.writeByte addr c.value) {s with exec, solver} fun _ =>
      s.Extends nulls from .set_bind (hwrite.bind (fun _ _ ht => .pure ht) fun _ ht => ht)
  refine (writeByte_ends _ addr c.value).mono fun _ t ht => ?_
  rcases ht with rfl | ⟨host',haddr',rfl⟩
  · exact hext
  obtain rfl : host = host' := Option.some.inj (haddr.symm.trans haddr')
  refine hext.trans
    { sane := hext.sane.of_bytes rfl fun other => ?_
      satisfies := fun _ ha => ha
      value := fun a ha other => .inl ?_}
  all_goals by_cases hother : other = host
  · subst hother
    exact .inr ⟨_,update_self ..⟩
  · exact .inl (update_of_ne hother ..)
  · subst hother
    have heval : e.eval a = c.value := ((hc.models a).mp ha).2
    have hlt : c.value < 2^8 := by
      rw [← heval,← hw]
      exact e.eval_lt a hadm.wf
    simp only [GuestState.value,update_self,hhost,Option.map_some,heval]
    exact congrArg some (Nat.mod_eq_of_lt hlt)
  · simp only [GuestState.value,update_of_ne hother]

end GuestEnv

inductive StringQuery where
  | strlen (addr : UInt64)
  | strcmp (a b : UInt64)
  | strncmp (a b : UInt64) (size : Nat)
  | strcmpWithWidth (a b : UInt64) (width : Nat)
  | memcmp (a b : UInt64) (numBytes : Nat)
  | strstr (haystack needle : UInt64) (width : Nat)

namespace StringQuery

def run (env : GuestEnv σ) (fuel : Nat) : StringQuery → GuestM σ Expr
  | .strlen addr => env.strlenHelper addr
  | .strcmp a b => env.strcmpHelper (a,b)
  | .strncmp a b size => env.strncmpHelper (a,b) size
  | .strcmpWithWidth a b width => env.strcmpWithWidthHelper (a,b) width
  | .memcmp a b numBytes => env.memcmpHelper (a,b) numBytes
  | .strstr haystack needle width => env.strstrHelper haystack needle width fuel

/-- The strings whose null character is searched. For `strstr` these are the needle and the
haystack, and the haystack from each position on to which the loop may come. -/
def Searches (env : GuestEnv σ) (s : GuestState σ) : StringQuery → UInt64 × Nat → Prop
  | .strlen addr, p => p = (addr,1)
  | .strcmp a b, p => p = (a,1) ∨ p = (b,1)
  | .strncmp a b _, p => p = (a,1) ∨ p = (b,1)
  | .strcmpWithWidth a b width, p => p = (a,width) ∨ p = (b,width)
  | .memcmp .., _ => False
  | .strstr haystack needle width, p => p = (haystack,width) ∨ p = (needle,width) ∨
      ∃ haystackLen needleLen, env.Lengths s (haystack,needle) width haystackLen needleLen ∧
        (p = (needle,1) ∨ ∃ i : UInt64, i ≤ .ofNat haystackLen-.ofNat needleLen ∧
          p = (haystack+i*.ofNat width,1))

def readsOnly : StringQuery → Bool
  | .strstr .. => false
  | _ => true

lemma run_moves {env : GuestEnv σ} (q : StringQuery) (fuel : Nat) (s : GuestState σ)
    {R : GuestState σ → GuestState σ → Prop} (h : env.FrameRule (q.Searches env s) R)
    (hconcrete : q.readsOnly ∨ ∀ addr, Moves R (env.readConcrete addr)) :
    Ends (q.run env fuel) s fun _ => R s := by
  cases q with
  | strlen addr => exact h.strlenHelper rfl s
  | strcmp a b => exact h.strcmpWithWidthHelper (.inl rfl) (.inr rfl) s
  | strncmp a b size => exact h.strncmpHelper size (.inl rfl) (.inr rfl) s
  | strcmpWithWidth a b width => exact h.strcmpWithWidthHelper (.inl rfl) (.inr rfl) s
  | memcmp a b numBytes => exact h.memcmpHelper _ _ s
  | strstr haystack needle width =>
    exact h.strstrHelper (hconcrete.resolve_left nofun) (.inl rfl) (.inr (.inl rfl))
      (fun m n hlen => ⟨.inr (.inr ⟨m,n,hlen,.inl rfl⟩),
        fun i hi => .inr (.inr ⟨m,n,hlen,.inr ⟨i,hi,rfl⟩⟩)⟩) fuel

end StringQuery

noncomputable def openEnv : GuestEnv Unit where
  toServices := idealServices
  mustBeTrue _ e s := (some e.isTrue,s)
  translate addr := if addr < 4096 then none else some addr
  readOnly _ := false
  image _ := none
  pointerSize := 8

def openState : GuestState Unit := ⟨probeState,(),fun _ => some probeByte⟩

lemma openEnv_read {addr : UInt64} (h : ¬addr < 4096) :
    (openEnv.read addr 1).run openState = some (some probeByte,openState) := by
  have haddr : openEnv.translate addr = some addr := if_neg h
  rw [GuestEnv.read_run,GuestEnv.byte,haddr]
  rfl

lemma openEnv_searchNull (fuel len : Nat) (h : len+fuel = maxStrlen) :
    (openEnv.searchNull 4096 1 (fuel+1) len).run openState =
      some (some (maxStrlen,false),openState) := by
  induction fuel generalizing len with
  | zero =>
    obtain rfl : len = maxStrlen := h
    rfl
  | succ fuel ih =>
    have hlen : len < maxStrlen := by omega
    have hguard : (expect (guard ((4096 : UInt64).toNat ≤ 2^64-1-len))).run openState =
        some (some (),openState) := by
      rw [guard,if_pos (by rw [maxStrlen] at hlen; simp only [UInt64.reduceToNat]; omega)]
      rfl
    have hread : (openEnv.read (4096+.ofNat len) 1).run openState =
        some (some probeByte,openState) := by
      refine openEnv_read ?_
      rw [maxStrlen] at hlen
      simp only [UInt64.lt_iff_toNat_lt,UInt64.toNat_add,UInt64.toNat_ofNat',UInt64.reduceToNat]
      omega
    have hnull : (expect (EqExpr.create probeByte (alloc 0 (8*1)))).run
        openState = some (some (probeIs 0),openState) := by
      rw [show EqExpr.create probeByte (alloc 0 (8*1)) = some (probeIs 0) by decide +kernel]
      rfl
    rw [GuestEnv.searchNull,if_pos hlen]
    refine (run_bind_of_eq hguard _).trans ((run_bind_of_eq hread _).trans
      ((run_bind_of_eq hnull _).trans ?_))
    exact ih (len+1) (by omega)

def closedState : GuestState Unit :=
  { openState with
    bytes := update openState.bytes 8191 (some (alloc 0 8))}

lemma openEnv_strcmp :
    ((StringQuery.strcmp 4096 1).run openEnv 0).run openState = some (none,closedState) := by
  have hguard : (expect (guard ((4096 : UInt64) ≠ 0))).run openState =
      some (some (),openState) := rfl
  have hfirst : (openEnv.findNullChar 4096 1).run openState =
      some (some maxStrlen,closedState) := by
    have hsearch := openEnv_searchNull maxStrlen 0 (Nat.zero_add _)
    rw [GuestEnv.findNullChar,run_bind_of_eq hguard,Option.elim_some,run_bind_of_eq hsearch,
      Option.elim_some]
    rfl
  have hsecond : (openEnv.findNullChar 1 1).run closedState = some (none,closedState) := rfl
  rw [StringQuery.run,GuestEnv.strcmpHelper,GuestEnv.strcmpWithWidthHelper,
    run_bind_of_eq hfirst,Option.elim_some,run_bind_of_eq hsecond]
  rfl

end S2E
