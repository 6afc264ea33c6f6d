import S2E.Plugins.ManagedBindings

/-!
`ManagedRuntime.cpp`: the plugin's part in each execution state. A fork copies it, so every
state has a history of its own.
-/

namespace S2E
open Std ManagedBindings List Option

/-- One entry of `methods`. The offsets are what the stream yields, and `eof` tells whether it
was read to its end. -/
structure ManagedMethodConfig where
  original : Bytes
  offsets : List UInt32
  eof : Bool
  token : Int

structure ManagedConfig where
  session : Bytes
  mvid : Bytes
  plan : Bytes
  maxForks : Int := 8
  boundForks : Bool := true
  booleanSourceToken : Int := 0
  booleanSourceSeed : Int := 0
  methods : List ManagedMethodConfig
  journalOpens : Bool

def isMethodDef (token : Int) : Bool := 0x06000001 ≤ token && token ≤ 0x06ffffff

def addMethod (methods : TreeMap UInt32 ManagedExpectedMethod) (m : ManagedMethodConfig) :
    Option (TreeMap UInt32 ManagedExpectedMethod) :=
  if !m.eof || !hash m.original || m.offsets.isEmpty || m.offsets.length > 256 ||
      !decide (m.offsets.Pairwise (· < ·)) then none
  else
    let token := UInt32.ofNat m.token.toNat
    if !isMethodDef m.token || methods.contains token then none
    else some (methods.insert token ⟨m.original,m.offsets⟩)

def initializePolicy (cfg : ManagedConfig) : Option ManagedPolicy := do
  if cfg.maxForks < 0 || cfg.maxForks > 16 || cfg.booleanSourceSeed < 0 ||
      cfg.booleanSourceSeed > 1 ||
      (cfg.booleanSourceToken != 0 && !isMethodDef cfg.booleanSourceToken) then none
  else
    let methods ← cfg.methods.foldlM addMethod ∅
    let token := UInt32.ofNat cfg.booleanSourceToken.toNat
    if cfg.session.length != 32 || cfg.mvid.length != 36 || !hash cfg.plan || methods.isEmpty ||
        methods.size > 64 ||
        (token != 0 && !(methods[token]?.any fun m => m.probes.head? == some 0)) ||
        !cfg.journalOpens then none
    else some {
      session := cfg.session
      mvid := cfg.mvid
      plan := cfg.plan
      methods := methods
      booleanSourceToken := token
      booleanSourceSeed := UInt32.ofNat cfg.booleanSourceSeed.toNat}

structure ManagedRuntimeState where
  bindings : ManagedBindings := {}
  pageDir : UInt64 := 0

/-- What the engine tells the plugin on an invocation: the packet, if the guest gave one that
can be read, the process, and how the steps of a Boolean source would go. -/
structure Invocation where
  packet : Option ManagedCommand
  pid : UInt64
  tracked : Bool
  pageDir : UInt64
  seed : Option UInt32
  constrained : Bool
  written : Bool
  logged : Bool

namespace ManagedRuntimeState

def receive (policy : ManagedPolicy) (s : ManagedRuntimeState) (i : Invocation) :
    Option ManagedError × ManagedRuntimeState :=
  match i.packet with
  | none => (some .invalidPacket,s)
  | some c =>
    if !i.tracked then (some .untrackedProcess,s)
    else if s.bindings.active ∧ s.pageDir ≠ i.pageDir then (some .addressSpace,s)
    else
      let (error,b) := s.bindings.accept c i.pid policy
      (error, { bindings := b
                pageDir := if error = none ∧ c.Is .start then i.pageDir else s.pageDir})

def finish (c : ManagedCommand) (i : Invocation) : Option String :=
  if c.Is .booleanSource ∧ i.seed ≠ some c.offset then some "source_seed_mismatch"
  else if c.Is .booleanSource ∧ !i.constrained then some "source_constraint_failed"
  else if c.Is .booleanSource ∧ !i.written then some "source_write_failed"
  else if !i.logged then some "journal_write_failed"
  else none

def handleOpcodeInvocation (policy : ManagedPolicy) (s : ManagedRuntimeState) (i : Invocation) :
    Option String × ManagedRuntimeState :=
  match s.receive policy i, i.packet with
  | (some error,s), _ => (some ("ManagedRuntime: " ++ error.text),s)
  | (none,s), some c => ((finish c i).map ("ManagedRuntime: " ++ ·),s)
  | (none,s), none => (none,s)

def onModuleUnload (s : ManagedRuntimeState) (pid : UInt64) (trackedModule : Bool) :
    ManagedRuntimeState :=
  if s.bindings.active ∧ s.bindings.pid.toUInt64 = pid ∧ trackedModule then
    {s with bindings := s.bindings.retire fun _ => true}
  else s

def onProcessUnload (s : ManagedRuntimeState) (pid : UInt64) : ManagedRuntimeState :=
  if s.bindings.pid.toUInt64 ≠ pid then s
  else {s with bindings := {s.bindings with active := false, methods := ∅, ended := true}}

def onFork (s : ManagedRuntimeState) : ManagedRuntimeState :=
  if s.bindings.active then {s with bindings.forks := s.bindings.forks+1} else s

end ManagedRuntimeState

structure Evidence where
  command : ManagedCommand
  pid : UInt64
  pageDir : UInt64
  before : ManagedBindings

structure ManagedPath where
  state : ManagedRuntimeState := {}
  alive : Bool := true
  accepted : List Evidence := []

inductive ManagedEvent where
  | packet (i : Invocation)
  | moduleUnload (pid : UInt64) (trackedModule : Bool)
  | processUnload (pid : UInt64)

namespace ManagedPath
variable (policy : ManagedPolicy)

def record (p : ManagedPath) (i : Invocation) : List Evidence :=
  match p.state.receive policy i, i.packet with
  | (none,_), some c => ⟨c,i.pid,i.pageDir,p.state.bindings⟩ :: p.accepted
  | _, _ => p.accepted

def step (p : ManagedPath) : ManagedEvent → ManagedPath
  | .packet i =>
    let (reason,s) := p.state.handleOpcodeInvocation policy i
    {state := s, alive := reason.isNone, accepted := p.record policy i}
  | .moduleUnload pid tracked => {p with state := p.state.onModuleUnload pid tracked}
  | .processUnload pid => {p with state := p.state.onProcessUnload pid}

def forked (p : ManagedPath) : ManagedPath := {p with state := p.state.onFork}

end ManagedPath

inductive ManagedAction where
  | event (state : Nat) (e : ManagedEvent)
  | fork (state copies : Nat)

def actManaged (policy : ManagedPolicy) (states : List ManagedPath) :
    ManagedAction → List ManagedPath
  | .event k e => states.modify k fun p => if p.alive then p.step policy e else p
  | .fork k copies =>
    match states[k]? with
    | some p => if p.alive then states.set k p.forked ++ replicate copies p.forked else states
    | none => states

def exploreManaged (policy : ManagedPolicy) (actions : List ManagedAction) : List ManagedPath :=
  actions.foldl (actManaged policy) [{}]

structure Grounded (past : List Evidence) (b : ManagedBindings) : Prop where
  next : b.next.toNat = past.length
  started : b.active = true → past ≠ []
  process : ∀ e ∈ past, e.command.pid = b.pid ∧ e.command.processStart = b.processStart
  registered : ∀ (f : UInt32) m, b.methods[f]? = some m →
    ∃ r ∈ past, r.command.Is .register ∧ r.command.function = f ∧ m = r.command.binding
  spent : b.active = true → ∀ r ∈ past, r.command.Is .register →
    r.command.function ∈ b.methods ∨ r.command.function ∈ b.retired
  publishedTokens : ∀ r ∈ past, r.command.Is .register → r.command.token ∈ b.publishedTokens
  observed : ∀ f o, o ∈ b.observed.getD f ∅ →
    ∃ e ∈ past, e.command.Is .probe ∧ e.command.function = f ∧ e.command.offset = o
  sourceConsumed : ∀ e ∈ past, e.command.Is .booleanSource → b.sourceConsumed = true

namespace Grounded
variable {policy : ManagedPolicy} {past : List Evidence} {b b' : ManagedBindings}

lemma initial : Grounded [] {} where
  next := rfl
  started ha := absurd ha Bool.false_ne_true
  process _ he := absurd he not_mem_nil
  registered _ _ hf := absurd hf Maps.empty_ne_some
  spent ha := absurd ha Bool.false_ne_true
  publishedTokens _ hr := absurd hr not_mem_nil
  observed f o ho := by simp at ho
  sourceConsumed _ he := absurd he not_mem_nil

lemma loses (h : Grounded past b) (hl : Loses b b') : Grounded past b' where
  next := by rw [hl.next]; exact h.next
  started ha := h.started (hl.active ha)
  process := by rw [hl.pid,hl.processStart]; exact h.process
  registered f m hf := h.registered f m (hl.methods f m hf)
  spent ha r hr hreg := hl.spent ha _ (h.spent (hl.active ha) r hr hreg)
  publishedTokens := by rw [hl.publishedTokens]; exact h.publishedTokens
  observed f o ho := h.observed f o (hl.observed f o ho)
  sourceConsumed := by rw [hl.sourceConsumed]; exact h.sourceConsumed

lemma eq_nil (h : Grounded past b) (hnext : b.next = 0) : past = [] := by
  have hlen := h.next
  rw [hnext] at hlen
  exact length_eq_zero_iff.mp hlen.symm

lemma accept {c : ManagedCommand} {pid pageDir : UInt64} (h : Grounded past b)
    (hframe : b.WellFramed c pid) (hstep : Step policy b c b') :
    Grounded (⟨c,pid,pageDir,b⟩ :: past) {b' with next := b.next+1} := by
  obtain ⟨horigin,hpid,hprocess⟩ := hstep.origin
  have hadds := hstep.adds
  constructor
  · have hlast : b.next ≠ 0xffffffff := hframe.2.2.2.2.1
    have hlen := h.next
    have hlt : b.next.toNat < 2^32-1 := by
      have hne : b.next.toNat ≠ 2^32-1 := fun heq => hlast (UInt32.toNat_inj.mp heq)
      have := b.next.toNat_lt
      omega
    simp only [UInt32.toNat_add,UInt32.toNat_ofNat,length_cons]
    omega
  · exact fun _ => cons_ne_nil _ _
  · intro e he
    rcases mem_cons.mp he with rfl | he
    · exact ⟨hpid.symm,hprocess.symm⟩
    rcases horigin with ⟨-,hnext⟩ | ⟨-,hcur⟩
    · rw [h.eq_nil hnext] at he
      cases he
    · obtain ⟨hp,hs⟩ := h.process e he
      exact ⟨hp.trans (hcur.pid.symm.trans hpid.symm),
        hs.trans (hcur.processStart.symm.trans hprocess.symm)⟩
  · intro f m hf
    rcases hadds.methods f m hf with hf | ⟨hreg,hfun,hm⟩
    · obtain ⟨r,hr,hfacts⟩ := h.registered f m hf
      exact ⟨r,mem_cons_of_mem _ hr,hfacts⟩
    · exact ⟨_,mem_cons_self,hreg,hfun,hm⟩
  · intro ha r hr hreg
    refine hadds.spent ha _ ?_
    rcases mem_cons.mp hr with rfl | hr
    · exact .inr (.inr ⟨hreg,rfl⟩)
    rcases horigin with ⟨-,hnext⟩ | ⟨-,hcur⟩
    · rw [h.eq_nil hnext] at hr
      cases hr
    · exact (h.spent hcur.active r hr hreg).imp_right .inl
  · intro r hr hreg
    refine hadds.publishedTokens _ ?_
    rcases mem_cons.mp hr with rfl | hr
    · exact .inr ⟨hreg,rfl⟩
    · exact .inl (h.publishedTokens r hr hreg)
  · intro f o ho
    rcases hadds.observed f o ho with ho | hprobe
    · obtain ⟨e,he,hfacts⟩ := h.observed f o ho
      exact ⟨e,mem_cons_of_mem _ he,hfacts⟩
    · exact ⟨_,mem_cons_self,hprobe⟩
  · intro e he hsource
    refine hadds.sourceConsumed ?_
    rcases mem_cons.mp he with rfl | he
    · exact .inr hsource
    · exact .inl (h.sourceConsumed e he hsource)

end Grounded

inductive Trail (policy : ManagedPolicy) : List Evidence → Prop
  | nil : Trail policy []
  | cons {e : Evidence} {past : List Evidence} {b' : ManagedBindings} :
      Trail policy past → Grounded past e.before → e.before.WellFramed e.command e.pid →
      Step policy e.before e.command b' → Trail policy (e :: past)

variable {r : Evidence} {f t : UInt32}

namespace Trail
variable {policy : ManagedPolicy} {accepted later past : List Evidence} {e : Evidence}

def registrations (accepted : List Evidence) (f : UInt32) : List Evidence :=
  accepted.filter fun r => r.command.Is .register ∧ r.command.function = f

lemma mem_registrations : r ∈ registrations accepted f ↔
      r ∈ accepted ∧ r.command.Is .register ∧ r.command.function = f := by
  simp [registrations]

lemma split (h : Trail policy (later ++ e :: past)) :
    Trail policy past ∧ Grounded past e.before ∧ e.before.WellFramed e.command e.pid ∧
      ∃ b', Step policy e.before e.command b' := by
  induction later with
  | nil =>
    cases h with
    | cons htrail hground hframe hstep => exact ⟨htrail,hground,hframe,_,hstep⟩
  | cons _ later ih =>
    cases h with
    | cons htrail => exact ih htrail

lemma split_of_mem (h : Trail policy accepted) (he : e ∈ accepted) :
    ∃ later past, accepted = later ++ e :: past ∧ Trail policy past ∧ Grounded past e.before ∧
      e.before.WellFramed e.command e.pid ∧ ∃ b', Step policy e.before e.command b' := by
  obtain ⟨later,past,rfl⟩ := append_of_mem he
  exact ⟨later,past,rfl,h.split⟩

lemma sequence (h : Trail policy (later ++ e :: past)) :
    e.command.sequence.toNat = past.length ∧ (e.command.Is .start ↔ past = []) := by
  obtain ⟨-,hground,hframe,b',hstep⟩ := h.split
  have hseq : e.command.sequence = e.before.next := hframe.2.2.2.1
  refine ⟨hseq ▸ hground.next,?_⟩
  rcases hstep.origin.1 with ⟨hstart,hnext⟩ | ⟨hother,hcur⟩
  · exact iff_of_true hstart (hground.eq_nil hnext)
  · exact iff_of_false hother (hground.started hcur.active)

section
variable (h : Trail policy accepted)
include h

lemma registrations_length_le (f : UInt32) : (registrations accepted f).length ≤ 1 := by
  induction h with
  | nil => exact Nat.zero_le 1
  | @cons e past b' htrail hground hframe hstep ih =>
    by_cases hreg : e.command.Is .register ∧ e.command.function = f
    · obtain ⟨hop,rfl⟩ := hreg
      have hnone : registrations past e.command.function = [] := by
        rw [eq_nil_iff_forall_not_mem]
        intro r hr
        obtain ⟨hr,hrop,hrf⟩ := mem_registrations.mp hr
        obtain ⟨hcur,-,-,-,-,-,-,-,hlive,hretired,-⟩ := hstep.checked.1 hop
        have hspent := hground.spent hcur.active r hr hrop
        rw [hrf] at hspent
        exact hspent.elim hlive hretired
      have hcons : registrations (e :: past) e.command.function =
          e :: registrations past e.command.function :=
        filter_cons_of_pos (by simp [hop])
      rw [hcons,hnone]
      exact Nat.le_refl 1
    · have hcons : registrations (e :: past) f = registrations past f :=
        filter_cons_of_neg (by simpa using hreg)
      rw [hcons]
      exact ih

lemma registrations_eq
    (hr : r ∈ accepted) (hop : r.command.Is .register) (hf : r.command.function = f) :
    registrations accepted f = [r] := by
  have hmem := mem_registrations.mpr ⟨hr,hop,hf⟩
  match hl : registrations accepted f, h.registrations_length_le f with
  | [r'], _ =>
    rw [hl,mem_singleton] at hmem
    rw [hmem]
  | [], _ =>
    rw [hl] at hmem
    cases hmem

def tokens (accepted : List Evidence) : List UInt32 :=
  (accepted.filter fun r => r.command.Is .register).map (·.command.token)

lemma tokens_nodup : (tokens accepted).Nodup := by
  induction h with
  | nil => exact nodup_nil
  | @cons e past b' htrail hground hframe hstep ih =>
    by_cases hop : e.command.Is .register
    · have hcons : tokens (e :: past) = e.command.token :: tokens past := by
        simp [tokens,hop]
      rw [hcons,nodup_cons]
      refine ⟨fun hmem => ?_,ih⟩
      obtain ⟨r,hr,htoken⟩ := mem_map.mp hmem
      obtain ⟨hr,hrop⟩ := mem_filter.mp hr
      obtain ⟨-,-,-,-,-,-,-,-,-,-,hfresh⟩ := hstep.checked.1 hop
      rw [← htoken] at hfresh
      exact hfresh (hground.publishedTokens r hr (of_decide_eq_true hrop))
    · have hcons : tokens (e :: past) = tokens past := by simp [tokens,hop]
      rw [hcons]
      exact ih

def sources (accepted : List Evidence) : List Evidence :=
  accepted.filter fun e => e.command.Is .booleanSource

lemma sources_length_le : (sources accepted).length ≤ 1 := by
  induction h with
  | nil => exact Nat.zero_le 1
  | @cons e past b' htrail hground hframe hstep ih =>
    by_cases hop : e.command.Is .booleanSource
    · have hnone : sources past = [] := by
        rw [sources,filter_eq_nil_iff]
        intro q hq hqop
        obtain ⟨-,hfresh,-⟩ := hstep.checked.2.2 hop
        rw [hground.sourceConsumed q hq (of_decide_eq_true hqop)] at hfresh
        cases hfresh
      have hcons : sources (e :: past) = e :: sources past :=
        filter_cons_of_pos (decide_eq_true hop)
      rw [hcons,hnone]
      exact Nat.le_refl 1
    · have hcons : sources (e :: past) = sources past := filter_cons_of_neg (by simpa using hop)
      rw [hcons]
      exact ih

lemma probe_live (he : e ∈ accepted) (hop : e.command.Is .probe) :
    ∃ later past r, accepted = later ++ e :: past ∧ r ∈ past ∧
      registrations accepted e.command.function = [r] ∧
      e.before.methods[e.command.function]? = some r.command.binding ∧
      ∃ m, policy.methods[r.command.token]? = some m ∧ e.command.offset ∈ m.probes := by
  obtain ⟨later,past,hsplit,htrail,hground,-,b',hstep⟩ := h.split_of_mem he
  obtain ⟨m,hm,hoff⟩ := hstep.checked.2.1 hop
  obtain ⟨r,hr,hreg,hf,rfl⟩ := hground.registered _ m hm
  have hmem : r ∈ accepted := by
    rw [hsplit]
    exact mem_append_right _ (mem_cons_of_mem _ hr)
  refine ⟨later,past,r,hsplit,hr,h.registrations_eq hmem hreg hf,hm,?_⟩
  obtain ⟨-,-,-,-,-,-,b'',hrstep⟩ := htrail.split_of_mem hr
  obtain ⟨-,-,-,-,-,-,-,⟨x,hx,-,-,-,-,hplanned⟩,-⟩ := hrstep.checked.1 hreg
  refine ⟨x,hx,?_⟩
  rw [hplanned]
  simpa [ManagedCommand.binding,TreeSet.mem_ofList] using hoff

end

lemma source_probed (h : Trail policy (later ++ e :: past)) (hop : e.command.Is .booleanSource) :
    policy.booleanSourceToken ≠ 0 ∧ e.command.offset = policy.booleanSourceSeed ∧
      ∃ m, e.before.methods[e.command.function]? = some m ∧ m.token = policy.booleanSourceToken ∧
        ∃ q ∈ past, q.command.Is .probe ∧ q.command.function = e.command.function ∧
          q.command.offset = 0 ∧ q.before.methods[e.command.function]? = some m := by
  obtain ⟨htrail,hground,-,b',hstep⟩ := h.split
  obtain ⟨htoken,-,⟨m,hm,hmtoken⟩,-,hzero,hseed,-⟩ := hstep.checked.2.2 hop
  refine ⟨htoken,hseed,m,hm,hmtoken,?_⟩
  obtain ⟨q,hq,hqop,hqf,hqo⟩ := hground.observed _ _ hzero
  obtain ⟨r,hr,hreg,hrf,rfl⟩ := hground.registered _ m hm
  obtain ⟨-,-,r',-,-,hone,hlive,-⟩ := htrail.probe_live hq hqop
  rw [hqf,htrail.registrations_eq hr hreg hrf] at hone
  obtain rfl : r = r' := (cons.inj hone).1
  rw [hqf] at hlive
  exact ⟨q,hq,hqop,hqf,hqo,hlive⟩

end Trail

namespace ManagedRuntimeState
variable {policy : ManagedPolicy} {s s' : ManagedRuntimeState} {i : Invocation}

lemma receive_accepted (h : s.receive policy i = (none,s')) :
    ∃ c, i.packet = some c ∧ (s.bindings.active → s.pageDir = i.pageDir) ∧
      s.bindings.accept c i.pid policy = (none,s'.bindings) ∧
      s'.pageDir = if c.Is .start then i.pageDir else s.pageDir := by
  unfold receive at h
  split at h
  · cases h
  rename_i c hpacket
  split at h
  · cases h
  split at h
  · cases h
  rename_i hdir
  cases hacc : s.bindings.accept c i.pid policy with
  | mk error b =>
    simp only [hacc,Prod.mk.injEq] at h
    obtain ⟨rfl,rfl⟩ := h
    refine ⟨c,hpacket,fun ha => ?_,hacc,by simp⟩
    exact not_not.mp fun hne => hdir ⟨ha,hne⟩

lemma receive_rejected {error : ManagedError} (h : s.receive policy i = (some error,s')) :
    s' = s ∨ ∃ f, s' = { s with
      bindings := {s.bindings with observed := s.bindings.observed.insertIfNew f ∅}} := by
  unfold receive at h
  split at h
  · exact .inl (Prod.ext_iff.mp h).2.symm
  rename_i c hpacket
  split at h
  · exact .inl (Prod.ext_iff.mp h).2.symm
  split at h
  · exact .inl (Prod.ext_iff.mp h).2.symm
  cases hacc : s.bindings.accept c i.pid policy with
  | mk error' b =>
    simp only [hacc,Prod.mk.injEq] at h
    obtain ⟨rfl,rfl⟩ := h
    rcases accept_rejected hacc with rfl | rfl
    · exact .inl rfl
    · exact .inr ⟨c.function,rfl⟩

lemma handleOpcodeInvocation_snd (policy : ManagedPolicy) (s : ManagedRuntimeState)
    (i : Invocation) : (s.handleOpcodeInvocation policy i).2 = (s.receive policy i).2 := by
  unfold handleOpcodeInvocation
  split <;> simp_all

end ManagedRuntimeState

namespace ManagedPath

structure Sound (policy : ManagedPolicy) (p : ManagedPath) : Prop where
  grounded : Grounded p.accepted p.state.bindings
  trail : Trail policy p.accepted
  pageDir : ∀ e ∈ p.accepted, e.pageDir = p.state.pageDir
  consistent : Consistent policy p.state.bindings

namespace Sound
variable {policy : ManagedPolicy} {p : ManagedPath}

lemma initial : Sound policy {} :=
  ⟨.initial,.nil,fun _ he => absurd he not_mem_nil,.of_empty rfl⟩

lemma loses (h : Sound policy p) {b : ManagedBindings} (alive : Bool)
    (hl : Loses p.state.bindings b) (hc : Consistent policy b) :
    Sound policy {p with state := {p.state with bindings := b}, alive := alive} :=
  ⟨h.grounded.loses hl,h.trail,h.pageDir,hc⟩

lemma packet (h : Sound policy p) (i : Invocation) : Sound policy (p.step policy (.packet i)) := by
  have hsnd := ManagedRuntimeState.handleOpcodeInvocation_snd policy p.state i
  simp only [step,hsnd,record]
  cases hrec : p.state.receive policy i with
  | mk error s =>
    cases error with
    | some error =>
      rcases ManagedRuntimeState.receive_rejected hrec with rfl | ⟨f,rfl⟩
      · exact h.loses _ (.refl _) h.consistent
      · exact h.loses _ (.observed_insertIfNew _ f) (h.consistent.of_eq rfl rfl rfl)
    | none =>
      obtain ⟨c,hpacket,hdir,hacc,hpage⟩ := ManagedRuntimeState.receive_accepted hrec
      obtain ⟨hframe,b',hstep,hb⟩ := accept_step hacc
      rw [hpacket]
      refine ⟨?_,.cons h.trail h.grounded hframe hstep,?_,?_⟩
      · rw [hb]
        exact h.grounded.accept hframe hstep
      · rcases hstep.origin.1 with ⟨hstart,hnext⟩ | ⟨hother,hcur⟩
        · rw [h.grounded.eq_nil hnext,hpage,if_pos hstart]
          simp
        · intro e he
          rw [hpage,if_neg hother]
          rcases mem_cons.mp he with rfl | he
          · exact (hdir hcur.active).symm
          · exact h.pageDir e he
      · rw [hb]
        exact (h.consistent.step hstep).of_eq rfl rfl rfl

lemma step (h : Sound policy p) (e : ManagedEvent) : Sound policy (p.step policy e) := by
  cases e with
  | packet i => exact h.packet i
  | moduleUnload pid tracked =>
    simp only [ManagedPath.step,ManagedRuntimeState.onModuleUnload]
    split
    · exact h.loses _ (.retire _ _) (h.consistent.retire _)
    · exact h
  | processUnload pid =>
    simp only [ManagedPath.step,ManagedRuntimeState.onProcessUnload]
    split
    · exact h
    · exact h.loses _ (.ended _) (.of_empty rfl)

lemma forked (h : Sound policy p) : Sound policy p.forked := by
  simp only [ManagedPath.forked,ManagedRuntimeState.onFork]
  split
  · exact h.loses _ (.forks _ _) (h.consistent.of_eq rfl rfl rfl)
  · exact h

end Sound
end ManagedPath

lemma sound_actManaged {policy : ManagedPolicy} {states : List ManagedPath}
    (h : ∀ p ∈ states, p.Sound policy) (a : ManagedAction) :
    ∀ p ∈ actManaged policy states a, p.Sound policy := by
  intro p hp
  cases a with
  | event k e =>
    rw [actManaged,mem_iff_getElem?] at hp
    obtain ⟨n,hn⟩ := hp
    rw [getElem?_modify] at hn
    obtain ⟨q,hq,rfl⟩ := map_eq_some_iff.mp hn
    have hsound := h q (mem_of_getElem? hq)
    split
    · split
      · exact hsound.step e
      · exact hsound
    · exact hsound
  | fork k copies =>
    simp only [actManaged] at hp
    split at hp
    next q hq =>
      have hsound := h q (mem_of_getElem? hq)
      split at hp
      · rcases mem_append.mp hp with hp | hp
        · rcases mem_or_eq_of_mem_set hp with hp | rfl
          · exact h p hp
          · exact hsound.forked
        · rw [eq_of_mem_replicate hp]
          exact hsound.forked
      · exact h p hp
    · exact h p hp

lemma sound_exploreManaged (policy : ManagedPolicy) (actions : List ManagedAction) :
    ∀ p ∈ exploreManaged policy actions, p.Sound policy := by
  have hstart : ∀ p ∈ [({} : ManagedPath)], p.Sound policy := by
    intro p hp
    rw [mem_singleton.mp hp]
    exact .initial
  exact foldlRecOn (motive := fun states => ∀ p ∈ states, p.Sound policy) actions
    (actManaged policy) hstart fun _ h a _ => sound_actManaged h a

lemma addMethod_eq_some {methods methods' : TreeMap UInt32 ManagedExpectedMethod}
    {m : ManagedMethodConfig} (h : addMethod methods m = some methods') : isMethodDef m.token ∧
      methods' = methods.insert (UInt32.ofNat m.token.toNat) ⟨m.original,m.offsets⟩ := by
  unfold addMethod at h
  split at h
  · cases h
  · simp only [ite_none_left_eq_some,Bool.or_eq_true,not_or,Bool.not_eq_true',
      Bool.not_eq_false] at h
    exact ⟨h.1.1,(some.inj h.2).symm⟩

lemma isMethodDef_toNat {token : Int} (h : isMethodDef token) :
    ((UInt32.ofNat token.toNat).toNat : Int) = token := by
  simp only [isMethodDef,Bool.and_eq_true,decide_eq_true_eq] at h
  rw [UInt32.toNat_ofNat']
  omega

variable {x : ManagedExpectedMethod}

lemma foldlM_addMethod {ms : List ManagedMethodConfig}
    {acc acc' : TreeMap UInt32 ManagedExpectedMethod} (h : ms.foldlM addMethod acc = some acc')
    (ht : acc'[t]? = some x) :
    acc[t]? = some x ∨ ∃ m ∈ ms, m.token = t.toNat ∧ x = ⟨m.original,m.offsets⟩ := by
  induction ms generalizing acc with
  | nil =>
    cases h
    exact .inl ht
  | cons m ms ih =>
    rw [foldlM_cons] at h
    obtain ⟨acc₁,hadd,hrest⟩ := bind_eq_some_iff.mp h
    obtain ⟨hdef,rfl⟩ := addMethod_eq_some hadd
    rcases ih hrest with ht | ⟨m',hm',hfacts⟩
    · rcases Maps.insert_eq_some.mp ht with ⟨rfl,rfl⟩ | ⟨-,ht⟩
      · exact .inr ⟨m,mem_cons_self,(isMethodDef_toNat hdef).symm,rfl⟩
      · exact .inl ht
    · exact .inr ⟨m',mem_cons_of_mem _ hm',hfacts⟩

lemma initializePolicy_methods {cfg : ManagedConfig} {policy : ManagedPolicy}
    (h : initializePolicy cfg = some policy) (hx : policy.methods[t]? = some x) :
    ∃ m ∈ cfg.methods, m.token = t.toNat ∧ x = ⟨m.original,m.offsets⟩ := by
  unfold initializePolicy at h
  split at h
  · cases h
  obtain ⟨methods,hmethods,hpolicy⟩ := bind_eq_some_iff.mp h
  obtain ⟨-,hpolicy⟩ := ite_none_left_eq_some.mp hpolicy
  cases hpolicy
  exact (foldlM_addMethod hmethods hx).resolve_left Maps.empty_ne_some

/-- In every state of every exploration the live methods are consistent and are methods of the
configuration, and no token was published twice on the way there. -/
theorem managed_bindings_consistent {cfg : ManagedConfig} {policy : ManagedPolicy}
    (h : initializePolicy cfg = some policy) (actions : List ManagedAction) :
    ∀ p ∈ exploreManaged policy actions,
      Consistent policy p.state.bindings ∧ (Trail.tokens p.accepted).Nodup ∧
        ∀ (f : UInt32) b, p.state.bindings.methods[f]? = some b →
          ∃ m ∈ cfg.methods, m.token = b.token.toNat ∧ b.original = m.original ∧
            ∀ o, o ∈ b.probes ↔ o ∈ m.offsets := by
  intro p hp
  have hsound := sound_exploreManaged policy actions p hp
  refine ⟨hsound.consistent,hsound.trail.tokens_nodup,fun f b hf => ?_⟩
  obtain ⟨x,hx,horiginal,hprobes⟩ := hsound.consistent.planned f b hf
  obtain ⟨m,hm,htoken,rfl⟩ := initializePolicy_methods h hx
  exact ⟨m,hm,htoken,horiginal,hprobes⟩

def oneMethod : ManagedConfig where
  session := replicate 32 48
  mvid := replicate 36 48
  plan := replicate 64 48
  methods := [⟨replicate 64 48,[0],true,0x06000001⟩]
  journalOpens := true

def onePacket (op : ManagedOperation) (sequence : UInt32) : Invocation where
  packet := some {
    version := 1
    operation := op.code
    sequence := sequence
    pid := 4
    processStart := 1
    module := 1
    function := 7
    token := 0x06000001
    start := 0x1000
    size := 0x10
    offset := 0
    probeCount := 1
    probes := .replicate 256 0
    session := (Vector.replicate 33 48).set 32 0
    mvid := (Vector.replicate 37 48).set 36 0
    plan := (Vector.replicate 65 48).set 64 0
    original := (Vector.replicate 65 48).set 64 0
    instrumented := (Vector.replicate 65 48).set 64 0
    event := .replicate 512 0}
  pid := 4
  tracked := true
  pageDir := 0x2000
  seed := none
  constrained := true
  written := true
  logged := true

lemma oneMethod_reaches {actions : List ManagedAction} {P : ManagedPolicy → ManagedPath → Prop}
    (reached : ManagedPath → Bool)
    (h : (initializePolicy oneMethod).any fun policy => (exploreManaged policy actions).any reached)
    (hP : ∀ policy, initializePolicy oneMethod = some policy →
      ∀ p ∈ exploreManaged policy actions, reached p → P policy p) :
    ∃ policy, initializePolicy oneMethod = some policy ∧
      ∃ p ∈ exploreManaged policy actions, P policy p := by
  obtain ⟨policy,hpolicy,hany⟩ := (any_eq_true _ _).mp h
  obtain ⟨p,hp,hreached⟩ := any_eq_true.mp hany
  exact ⟨policy,hpolicy,p,hp,hP policy hpolicy p hp hreached⟩

theorem managed_bindings_consistent_oneMethod : ∃ policy, initializePolicy oneMethod = some policy ∧
      ∃ p ∈ exploreManaged policy [.event 0 (.packet (onePacket .start 0)),
          .event 0 (.packet (onePacket .register 1)),.fork 0 1],
        7 ∈ p.state.bindings.methods ∧ Consistent policy p.state.bindings ∧
          (Trail.tokens p.accepted).Nodup := by
  refine oneMethod_reaches (·.state.bindings.methods.contains 7) (by decide +kernel)
    fun policy hpolicy p hp hmem => ?_
  obtain ⟨hcons,hnodup,-⟩ := managed_bindings_consistent hpolicy _ p hp
  exact ⟨hmem,hcons,hnodup⟩

structure Provenance (policy : ManagedPolicy) (p : ManagedPath) : Prop where
  /-- Sequence numbers count the packets from the first, and only the first is a start. -/
  sequence : ∀ later e past, p.accepted = later ++ e :: past →
    e.command.sequence.toNat = past.length ∧ (e.command.Is .start ↔ past = [])
  process : ∀ e ∈ p.accepted, e.command.pid.toUInt64 = e.pid ∧ ∀ e' ∈ p.accepted,
    e.pid = e'.pid ∧ e.command.processStart = e'.command.processStart ∧ e.pageDir = e'.pageDir
  observed : ∀ f o, o ∈ p.state.bindings.observed.getD f ∅ →
    ∃ later e past r, p.accepted = later ++ e :: past ∧ r ∈ past ∧
      Trail.registrations p.accepted f = [r] ∧
      e.command.Is .probe ∧ e.command.function = f ∧ e.command.offset = o ∧
      e.before.methods[f]? = some r.command.binding ∧
      ∃ m, policy.methods[r.command.token]? = some m ∧ o ∈ m.probes
  oneSource : (Trail.sources p.accepted).length ≤ 1
  source : ∀ later e past, p.accepted = later ++ e :: past → e.command.Is .booleanSource →
    policy.booleanSourceToken ≠ 0 ∧ e.command.offset = policy.booleanSourceSeed ∧
      ∃ m, e.before.methods[e.command.function]? = some m ∧ m.token = policy.booleanSourceToken ∧
        ∃ q ∈ past, q.command.Is .probe ∧ q.command.function = e.command.function ∧
          q.command.offset = 0 ∧ q.before.methods[e.command.function]? = some m

theorem managed_provenance (policy : ManagedPolicy) (actions : List ManagedAction) :
    ∀ p ∈ exploreManaged policy actions, Provenance policy p := by
  intro p hp
  obtain ⟨hground,htrail,hdir,-⟩ := sound_exploreManaged policy actions p hp
  have hpid : ∀ e ∈ p.accepted, e.command.pid.toUInt64 = e.pid := by
    intro e he
    obtain ⟨-,-,-,-,-,hframe,-⟩ := htrail.split_of_mem he
    exact hframe.2.2.1
  refine ⟨fun later e past hsplit => ?_,fun e he => ⟨hpid e he,fun e' he' => ?_⟩,
    fun f o ho => ?_,htrail.sources_length_le,fun later e past hsplit => ?_⟩
  · rw [hsplit] at htrail
    exact htrail.sequence
  · obtain ⟨hp,hs⟩ := hground.process e he
    obtain ⟨hp',hs'⟩ := hground.process e' he'
    refine ⟨?_,hs.trans hs'.symm,(hdir e he).trans (hdir e' he').symm⟩
    rw [← hpid e he,← hpid e' he',hp,hp']
  · obtain ⟨e,he,hop,rfl,rfl⟩ := hground.observed f o ho
    obtain ⟨later,past,r,hsplit,hr,hone,hlive,hplanned⟩ := htrail.probe_live he hop
    exact ⟨later,e,past,r,hsplit,hr,hone,hop,rfl,rfl,hlive,hplanned⟩
  · rw [hsplit] at htrail
    exact htrail.source_probed

theorem managed_provenance_oneMethod : ∃ policy, initializePolicy oneMethod = some policy ∧
      ∃ p ∈ exploreManaged policy [.event 0 (.packet (onePacket .start 0)),.fork 0 1,
          .event 1 (.packet (onePacket .register 1)),.event 1 (.packet (onePacket .probe 2))],
        0 ∈ p.state.bindings.observed.getD 7 ∅ ∧ Provenance policy p := by
  refine oneMethod_reaches (fun p => (p.state.bindings.observed.getD 7 ∅).contains 0)
    (by decide +kernel) fun policy _ p hp hmem => ?_
  exact ⟨hmem,managed_provenance policy _ p hp⟩

end S2E
