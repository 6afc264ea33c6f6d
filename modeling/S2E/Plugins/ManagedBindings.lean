import S2E.Lib.Maps

/-!
`ManagedBindings.h` and the packet of `managed.h`: what one state of a managed process has
published to the engine, and how a packet changes it.
-/

namespace S2E
open Std Maps

abbrev Bytes := List UInt8

def cString {n : Nat} (s : Vector UInt8 n) : Bytes := s.toList.takeWhile (· != 0)

inductive ManagedOperation where
  | start | register | probe | invalidateFunction | invalidateModule | stop | event
  | booleanSource
  deriving DecidableEq, Repr

def ManagedOperation.code : ManagedOperation → UInt32
  | start => 1
  | register => 2
  | probe => 3
  | invalidateFunction => 4
  | invalidateModule => 5
  | stop => 6
  | event => 7
  | booleanSource => 8

structure ManagedCommand where
  version : UInt32
  operation : UInt32
  sequence : UInt32
  pid : UInt32
  processStart : UInt64
  module : UInt32
  function : UInt32
  token : UInt32
  start : UInt32
  size : UInt32
  offset : UInt32
  probeCount : UInt32
  probes : Vector UInt32 256
  session : Vector UInt8 33
  mvid : Vector UInt8 37
  plan : Vector UInt8 65
  original : Vector UInt8 65
  instrumented : Vector UInt8 65
  event : Vector UInt8 512

inductive ManagedError where
  | invalidPacket | untrackedProcess | addressSpace | wireIdentityOrSequence | sessionOrPlan
  | duplicateOrInvalidStart | inactiveProcess | invalidBinding | overlappingBinding
  | unpublishedOrUnplannedProbe | invalidBooleanSource | unknownOperation
  deriving DecidableEq, Repr

def ManagedError.text : ManagedError → String
  | invalidPacket => "invalid_packet"
  | untrackedProcess => "untracked_process"
  | addressSpace => "address_space"
  | wireIdentityOrSequence => "wire_identity_or_sequence"
  | sessionOrPlan => "session_or_plan"
  | duplicateOrInvalidStart => "duplicate_or_invalid_start"
  | inactiveProcess => "inactive_process"
  | invalidBinding => "invalid_binding"
  | overlappingBinding => "overlapping_binding"
  | unpublishedOrUnplannedProbe => "unpublished_or_unplanned_probe"
  | invalidBooleanSource => "invalid_boolean_source"
  | unknownOperation => "unknown_operation"

structure ManagedExpectedMethod where
  original : Bytes
  probes : List UInt32

structure ManagedPolicy where
  session : Bytes
  mvid : Bytes
  plan : Bytes
  methods : TreeMap UInt32 ManagedExpectedMethod
  booleanSourceToken : UInt32
  booleanSourceSeed : UInt32

structure ManagedBinding where
  module : UInt32
  token : UInt32
  start : UInt32
  size : UInt32
  original : Bytes
  instrumented : Bytes
  probes : TreeSet UInt32

structure ManagedBindings where
  active : Bool := false
  ended : Bool := false
  pid : UInt32 := 0
  next : UInt32 := 0
  processStart : UInt64 := 0
  methods : TreeMap UInt32 ManagedBinding := ∅
  retired : TreeSet UInt32 := ∅
  publishedTokens : TreeSet UInt32 := ∅
  observed : TreeMap UInt32 (TreeSet UInt32) := ∅
  forks : UInt32 := 0
  sourceConsumed : Bool := false

def ManagedBinding.limit (m : ManagedBinding) : Nat := m.start.toNat+m.size.toNat

variable {c : ManagedCommand}

namespace ManagedCommand

def Is (c : ManagedCommand) (op : ManagedOperation) : Prop := c.operation = op.code

instance (c : ManagedCommand) (op : ManagedOperation) : Decidable (c.Is op) :=
  inferInstanceAs (Decidable (c.operation = op.code))

lemma Is.unique {op op' : ManagedOperation} (h : c.Is op) (h' : c.Is op') : op = op' := by
  have hcode : op.code = op'.code := h.symm.trans h'
  cases op <;> cases op' <;> first | rfl | exact absurd hcode (by decide)

def planned (c : ManagedCommand) : List UInt32 := c.probes.toList.take c.probeCount.toNat

def binding (c : ManagedCommand) : ManagedBinding where
  module := c.module
  token := c.token
  start := c.start
  size := c.size
  original := cString c.original
  instrumented := cString c.instrumented
  probes := .ofList c.planned

end ManagedCommand

namespace ManagedBindings

def terminated {n : Nat} (s : Vector UInt8 n) : Bool := s.toList.contains 0

def hash (s : Bytes) : Bool :=
  s.length == 64 && s.all fun c => (48 ≤ c && c ≤ 57) || (97 ≤ c && c ≤ 102)

variable (b : ManagedBindings)

def WellFramed (c : ManagedCommand) (callerPid : UInt64) : Prop :=
  c.version = 1 ∧ c.pid ≠ 0 ∧ c.pid.toUInt64 = callerPid ∧ c.sequence = b.next ∧
    b.next ≠ 0xffffffff ∧ terminated c.session ∧ terminated c.mvid ∧ terminated c.plan ∧
    terminated c.original ∧ terminated c.instrumented ∧ terminated c.event

def contains (pc : UInt64) : Bool :=
  b.methods.toList.any fun (_,m) => m.start.toUInt64 ≤ pc && pc-m.start.toUInt64 < m.size.toUInt64

def ValidBinding (c : ManagedCommand) (policy : ManagedPolicy) : Prop :=
  c.module ≠ 0 ∧ c.function ≠ 0 ∧ c.start ≠ 0 ∧ c.size ≠ 0 ∧
    c.start.toNat+c.size.toNat ≤ 2^32 ∧ policy.mvid = cString c.mvid ∧
    (∃ expected ∈ policy.methods[c.token]?, expected.original = cString c.original ∧
      hash (cString c.instrumented) ∧ c.probeCount.toNat = expected.probes.length ∧
      c.probeCount ≤ 256 ∧ expected.probes = c.planned) ∧
    c.function ∉ b.methods ∧ c.function ∉ b.retired ∧ c.token ∉ b.publishedTokens

def Conflicts (c : ManagedCommand) (m : ManagedBinding) : Prop :=
  m.token = c.token ∨ (c.start.toNat < m.limit ∧ m.start.toNat < c.start.toNat+c.size.toNat)

def ValidSource (c : ManagedCommand) (policy : ManagedPolicy) : Prop :=
  policy.booleanSourceToken ≠ 0 ∧ b.sourceConsumed = false ∧
    (∃ m ∈ b.methods[c.function]?, m.token = policy.booleanSourceToken) ∧
    c.token = policy.booleanSourceToken ∧ 0 ∈ b.observed.getD c.function ∅ ∧
    c.offset = policy.booleanSourceSeed ∧ c.offset ≤ 1 ∧ c.start ≠ 0 ∧ c.size = 4 ∧
    c.start.toNat+4 ≤ 2^32

instance (b : ManagedBindings) (c : ManagedCommand) (callerPid : UInt64) :
    Decidable (b.WellFramed c callerPid) := inferInstanceAs (Decidable (_ ∧ _))

instance (b : ManagedBindings) (c : ManagedCommand) (policy : ManagedPolicy) :
    Decidable (b.ValidBinding c policy) := inferInstanceAs (Decidable (_ ∧ _))

instance (c : ManagedCommand) (m : ManagedBinding) : Decidable (Conflicts c m) :=
  inferInstanceAs (Decidable (_ ∨ _))

instance (b : ManagedBindings) (c : ManagedCommand) (policy : ManagedPolicy) :
    Decidable (b.ValidSource c policy) := inferInstanceAs (Decidable (_ ∧ _))

def register (c : ManagedCommand) (policy : ManagedPolicy) :
    Option ManagedError × ManagedBindings :=
  if ¬b.ValidBinding c policy then (some .invalidBinding,b)
  else if b.methods.toList.any fun m => Conflicts c m.2 then (some .overlappingBinding,b)
  else (none, { b with
    methods := b.methods.insert c.function c.binding
    publishedTokens := b.publishedTokens.insert c.token})

def probe (c : ManagedCommand) : Option ManagedError × ManagedBindings :=
  match b.methods[c.function]? with
  | none => (some .unpublishedOrUnplannedProbe,b)
  | some m =>
    if c.offset ∉ m.probes then (some .unpublishedOrUnplannedProbe,b)
    else (none, { b with
      observed := b.observed.insert c.function ((b.observed.getD c.function ∅).insert c.offset)})

def look (c : ManagedCommand) (policy : ManagedPolicy) : ManagedBindings :=
  if policy.booleanSourceToken ≠ 0 ∧ b.sourceConsumed = false ∧
      (∃ m ∈ b.methods[c.function]?, m.token = policy.booleanSourceToken) ∧
      c.token = policy.booleanSourceToken then
    {b with observed := b.observed.insertIfNew c.function ∅}
  else b

def booleanSource (c : ManagedCommand) (policy : ManagedPolicy) :
    Option ManagedError × ManagedBindings :=
  if ¬b.ValidSource c policy then (some .invalidBooleanSource,b.look c policy)
  else (none, {b with sourceConsumed := true})

def invalidateFunction (function : UInt32) : ManagedBindings :=
  {b with methods := b.methods.erase function, retired := b.retired.insert function}

def retire (drop : ManagedBinding → Bool) : ManagedBindings :=
  { b with
    methods := b.methods.filter fun _ m => !drop m
    retired := b.retired.insertMany (b.methods.toList.filter (drop ·.2) |>.map Prod.fst)}

def execute (c : ManagedCommand) (policy : ManagedPolicy) : Option ManagedError × ManagedBindings :=
  if c.Is .start then
    if b.active ∨ b.ended ∨ b.next ≠ 0 ∨ c.processStart = 0 then
      (some .duplicateOrInvalidStart,b)
    else (none, {b with active := true, pid := c.pid, processStart := c.processStart})
  else if ¬b.active ∨ c.pid ≠ b.pid ∨ c.processStart ≠ b.processStart then
    (some .inactiveProcess,b)
  else if c.Is .register then b.register c policy
  else if c.Is .probe then b.probe c
  else if c.Is .booleanSource then b.booleanSource c policy
  else if c.Is .invalidateFunction then (none,b.invalidateFunction c.function)
  else if c.Is .invalidateModule then (none,b.retire (·.module == c.module))
  else if c.Is .stop then (none, {b with active := false, ended := true, methods := ∅})
  else if c.Is .event then (none,b)
  else (some .unknownOperation,b)

def accept (c : ManagedCommand) (callerPid : UInt64)
    (policy : ManagedPolicy) : Option ManagedError × ManagedBindings :=
  if ¬b.WellFramed c callerPid then (some .wireIdentityOrSequence,b)
  else if policy.session ≠ cString c.session ∨ policy.plan ≠ cString c.plan then
    (some .sessionOrPlan,b)
  else
    let (error,b') := b.execute c policy
    (error,if error.isNone then {b' with next := b'.next+1} else b')

structure Current (c : ManagedCommand) : Prop where
  active : b.active = true
  pid : c.pid = b.pid
  processStart : c.processStart = b.processStart

inductive Step (policy : ManagedPolicy) (b : ManagedBindings) (c : ManagedCommand) :
    ManagedBindings → Prop
  | start : c.Is .start → b.active = false → b.ended = false → b.next = 0 →
      Step policy b c {b with active := true, pid := c.pid, processStart := c.processStart}
  | register : c.Is .register → Current b c → b.ValidBinding c policy →
      (∀ (f : UInt32) m, b.methods[f]? = some m → ¬Conflicts c m) →
      Step policy b c { b with
        methods := b.methods.insert c.function c.binding
        publishedTokens := b.publishedTokens.insert c.token}
  | probe {m : ManagedBinding} : c.Is .probe → Current b c →
      b.methods[c.function]? = some m → c.offset ∈ m.probes →
      Step policy b c { b with
        observed := b.observed.insert c.function
          ((b.observed.getD c.function ∅).insert c.offset)}
  | booleanSource : c.Is .booleanSource → Current b c → b.ValidSource c policy →
      Step policy b c {b with sourceConsumed := true}
  | invalidateFunction : c.Is .invalidateFunction → Current b c →
      Step policy b c (b.invalidateFunction c.function)
  | invalidateModule : c.Is .invalidateModule → Current b c →
      Step policy b c (b.retire (·.module == c.module))
  | stop : c.Is .stop → Current b c →
      Step policy b c {b with active := false, ended := true, methods := ∅}
  | event : c.Is .event → Current b c → Step policy b c b

section
variable {policy : ManagedPolicy} {b b' : ManagedBindings} {c : ManagedCommand}

lemma register_step (hop : c.Is .register) (hcur : Current b c)
    (h : b.register c policy = (none,b')) : Step policy b c b' := by
  unfold register at h
  by_cases hvalid : b.ValidBinding c policy
  · rw [if_neg (not_not.mpr hvalid)] at h
    split at h
    · cases h
    rename_i hfree
    cases h
    refine .register hop hcur hvalid fun f m hm hconf => hfree ?_
    exact List.any_eq_true.mpr ⟨(f,m),mem_toList.mpr hm,decide_eq_true hconf⟩
  · rw [if_pos hvalid] at h
    cases h

lemma probe_step (hop : c.Is .probe) (hcur : Current b c) (h : b.probe c = (none,b')) :
    Step policy b c b' := by
  unfold probe at h
  split at h
  · cases h
  rename_i m hm
  split at h
  · cases h
  next hoff =>
    cases h
    exact .probe hop hcur hm (not_not.mp hoff)

lemma booleanSource_step (hop : c.Is .booleanSource) (hcur : Current b c)
    (h : b.booleanSource c policy = (none,b')) : Step policy b c b' := by
  unfold booleanSource at h
  by_cases hvalid : b.ValidSource c policy
  · rw [if_neg (not_not.mpr hvalid)] at h
    cases h
    exact .booleanSource hop hcur hvalid
  · rw [if_pos hvalid] at h
    cases h

lemma execute_step (h : b.execute c policy = (none,b')) : Step policy b c b' := by
  unfold execute at h
  split at h
  next hstart =>
    split at h
    · cases h
    rename_i hidle
    simp only [not_or,Bool.not_eq_true,not_not] at hidle
    cases h
    exact .start hstart hidle.1 hidle.2.1 hidle.2.2.1
  split at h
  · cases h
  rename_i hcur
  simp only [not_or,not_not] at hcur
  have hcur : Current b c := ⟨hcur.1,hcur.2.1,hcur.2.2⟩
  split at h
  next hop =>
    exact register_step hop hcur h
  split at h
  next hop =>
    exact probe_step hop hcur h
  split at h
  next hop =>
    exact booleanSource_step hop hcur h
  split at h
  next hop =>
    cases h
    exact .invalidateFunction hop hcur
  split at h
  next hop =>
    cases h
    exact .invalidateModule hop hcur
  split at h
  next hop =>
    cases h
    exact .stop hop hcur
  split at h
  next hop =>
    cases h
    exact .event hop hcur
  · cases h

end

namespace Step
variable {policy : ManagedPolicy} {b b' : ManagedBindings} {c : ManagedCommand}

section
variable (h : Step policy b c b')
include h

lemma next : b'.next = b.next := by
  cases h <;> rfl

lemma origin : (c.Is .start ∧ b.next = 0 ∨ ¬c.Is .start ∧ Current b c) ∧
      b'.pid = c.pid ∧ b'.processStart = c.processStart := by
  have hcurrent : ∀ {op : ManagedOperation}, c.Is op → op ≠ .start → Current b c →
      (c.Is .start ∧ b.next = 0 ∨ ¬c.Is .start ∧ Current b c) ∧
        b.pid = c.pid ∧ b.processStart = c.processStart := fun hop hne hcur =>
    ⟨.inr ⟨fun hs => hne (hop.unique hs),hcur⟩,hcur.pid.symm,hcur.processStart.symm⟩
  cases h with
  | start hop _ _ hnext => exact ⟨.inl ⟨hop,hnext⟩,rfl,rfl⟩
  | register hop hcur | probe hop hcur | booleanSource hop hcur | invalidateFunction hop hcur
  | invalidateModule hop hcur | stop hop hcur | event hop hcur => exact hcurrent hop nofun hcur

lemma checked : (c.Is .register → Current b c ∧ b.ValidBinding c policy) ∧
    (c.Is .probe → ∃ m, b.methods[c.function]? = some m ∧ c.offset ∈ m.probes) ∧
    (c.Is .booleanSource → b.ValidSource c policy) := by
  cases h with
  | register hop hcur hvalid =>
    exact ⟨fun _ => ⟨hcur,hvalid⟩,fun h => (nomatch hop.unique h),fun h => nomatch hop.unique h⟩
  | probe hop _ hm hoff =>
    exact ⟨fun h => (nomatch hop.unique h),fun _ => ⟨_,hm,hoff⟩,fun h => nomatch hop.unique h⟩
  | booleanSource hop _ hvalid =>
    exact ⟨fun h => (nomatch hop.unique h),fun h => (nomatch hop.unique h),fun _ => hvalid⟩
  | start hop | invalidateFunction hop | invalidateModule hop | stop hop | event hop =>
    refine ⟨fun h => ?_,fun h => ?_,fun h => ?_⟩ <;> exact nomatch hop.unique h

end
end Step

variable {policy : ManagedPolicy} {b b' : ManagedBindings}

lemma accept_step {callerPid : UInt64} (h : b.accept c callerPid policy = (none,b')) :
    b.WellFramed c callerPid ∧ ∃ b₁, Step policy b c b₁ ∧ b' = {b₁ with next := b.next+1} := by
  unfold accept at h
  split at h
  · cases h
  rename_i hframe
  split at h
  · cases h
  cases hex : b.execute c policy with
  | mk error b₁ =>
    rw [hex] at h
    obtain ⟨rfl,hb⟩ := Prod.ext_iff.mp h
    have hstep := execute_step hex
    exact ⟨not_not.mp hframe,b₁,hstep,by rw [← hstep.next]; exact hb.symm⟩

lemma look_eq (b : ManagedBindings) (c : ManagedCommand) (policy : ManagedPolicy) :
    b.look c policy = b ∨
      b.look c policy = {b with observed := b.observed.insertIfNew c.function ∅} := by
  unfold look
  split
  · exact .inr rfl
  · exact .inl rfl

lemma accept_rejected {callerPid : UInt64} {e : ManagedError}
    (h : b.accept c callerPid policy = (some e,b')) :
    b' = b ∨ b' = {b with observed := b.observed.insertIfNew c.function ∅} := by
  have hlook := b.look_eq c policy
  have hexec : ∀ error b₁, b.execute c policy = (error,b₁) → error.isSome →
      b₁ = b ∨ b₁ = {b with observed := b.observed.insertIfNew c.function ∅} := by
    intro error b₁ hex herror
    unfold execute register probe booleanSource at hex
    grind
  unfold accept at h
  split at h
  · exact .inl (Prod.ext_iff.mp h).2.symm
  split at h
  · exact .inl (Prod.ext_iff.mp h).2.symm
  cases hex : b.execute c policy with
  | mk error b₁ =>
    rw [hex] at h
    obtain ⟨rfl,hb⟩ := Prod.ext_iff.mp h
    obtain rfl : b₁ = b' := hb
    exact hexec _ _ hex rfl

def Alike (b b' : ManagedBindings) : Prop :=
  ∃ observed, b' = {b with observed} ∧ ∀ f : UInt32, observed.getD f ∅ = b.observed.getD f ∅

namespace Alike
variable {b b' b'' : ManagedBindings}

lemma symm (h : Alike b b') : Alike b' b := by
  obtain ⟨o,rfl,ho⟩ := h
  exact ⟨b.observed,rfl,fun f => (ho f).symm⟩

lemma trans (h : Alike b b') (h' : Alike b' b'') : Alike b b'' := by
  obtain ⟨o,rfl,ho⟩ := h
  obtain ⟨o',rfl,ho'⟩ := h'
  exact ⟨o',rfl,fun f => (ho' f).trans (ho f)⟩

lemma of_eq {f : UInt32}
    (h : b' = b ∨ b' = {b with observed := b.observed.insertIfNew f ∅}) : Alike b b' := by
  rcases h with rfl | rfl
  · exact ⟨_,rfl,fun _ => rfl⟩
  refine ⟨_,rfl,fun f' => ?_⟩
  rw [TreeMap.getD_insertIfNew]
  split
  next hf =>
    rw [← compare_eq_iff_eq.mp hf.1,TreeMap.getD_eq_fallback hf.2]
  · rfl

variable (h : Alike b b') (c : ManagedCommand) (policy : ManagedPolicy)
include h

lemma register : (b'.register c policy).1 = (b.register c policy).1 ∧
      Alike (b.register c policy).2 (b'.register c policy).2 := by
  obtain ⟨o,rfl,ho⟩ := h
  have hvalid : ValidBinding {b with observed := o} c policy ↔ b.ValidBinding c policy := .rfl
  simp only [register,hvalid]
  split_ifs <;> exact ⟨rfl,o,rfl,ho⟩

lemma probe : (b'.probe c).1 = (b.probe c).1 ∧ Alike (b.probe c).2 (b'.probe c).2 := by
  obtain ⟨o,rfl,ho⟩ := h
  simp only [probe,ho]
  split
  · exact ⟨rfl,o,rfl,ho⟩
  split
  · exact ⟨rfl,o,rfl,ho⟩
  · refine ⟨rfl,_,rfl,fun f => ?_⟩
    simp only [TreeMap.getD_insert,ho]

lemma booleanSource : (b'.booleanSource c policy).1 = (b.booleanSource c policy).1 ∧
      Alike (b.booleanSource c policy).2 (b'.booleanSource c policy).2 := by
  have hlook := (of_eq (b.look_eq c policy)).symm.trans (h.trans (of_eq (b'.look_eq c policy)))
  obtain ⟨o,rfl,ho⟩ := h
  have hvalid : ValidSource {b with observed := o} c policy ↔ b.ValidSource c policy := by
    simp only [ValidSource,ho]
  simp only [booleanSource,hvalid]
  split_ifs
  · exact ⟨rfl,o,rfl,ho⟩
  · exact ⟨rfl,hlook⟩

lemma execute : (b'.execute c policy).1 = (b.execute c policy).1 ∧
      Alike (b.execute c policy).2 (b'.execute c policy).2 := by
  have hregister := h.register c policy
  have hprobe := h.probe c
  have hsource := h.booleanSource c policy
  obtain ⟨o,rfl,ho⟩ := h
  unfold ManagedBindings.execute
  dsimp only at *
  split_ifs <;> first | exact hregister | exact hprobe | exact hsource | exact ⟨rfl,o,rfl,ho⟩

lemma accept (callerPid : UInt64) :
    (b'.accept c callerPid policy).1 = (b.accept c callerPid policy).1 ∧
      Alike (b.accept c callerPid policy).2 (b'.accept c callerPid policy).2 := by
  obtain ⟨herror,o',hb,ho'⟩ := h.execute c policy
  obtain ⟨o,rfl,ho⟩ := h
  have hframe : WellFramed {b with observed := o} c callerPid ↔ b.WellFramed c callerPid := .rfl
  simp only [accept,hframe,herror,hb]
  split_ifs <;> first | exact ⟨rfl,o,rfl,ho⟩ | exact ⟨rfl,o',rfl,ho'⟩

end Alike

structure Loses (b b' : ManagedBindings) : Prop where
  next : b'.next = b.next
  pid : b'.pid = b.pid
  processStart : b'.processStart = b.processStart
  active : b'.active = true → b.active = true
  methods : ∀ (f : UInt32) m, b'.methods[f]? = some m → b.methods[f]? = some m
  spent : b'.active = true → ∀ f, f ∈ b.methods ∨ f ∈ b.retired → f ∈ b'.methods ∨ f ∈ b'.retired
  publishedTokens : b'.publishedTokens = b.publishedTokens
  observed : ∀ f o, o ∈ b'.observed.getD f ∅ → o ∈ b.observed.getD f ∅
  sourceConsumed : b'.sourceConsumed = b.sourceConsumed

namespace Loses
variable (b : ManagedBindings)

lemma refl : Loses b b :=
  ⟨rfl,rfl,rfl,id,fun _ _ => id,fun _ _ => id,rfl,fun _ _ => id,rfl⟩

lemma invalidateFunction (function : UInt32) : Loses b (b.invalidateFunction function) where
  __ := refl b
  methods f m hf := (erase_eq_some.mp hf).2
  spent _ f hf := by
    simp only [ManagedBindings.invalidateFunction,TreeMap.mem_erase,TreeSet.mem_insert]
    tauto

lemma retire (drop : ManagedBinding → Bool) : Loses b (b.retire drop) where
  __ := refl b
  methods f m hf := (filter_eq_some.mp hf).1
  spent _ f hf := by
    simp only [ManagedBindings.retire,TreeSet.mem_insertMany_list,List.contains_iff_mem,
      List.mem_map,List.mem_filter]
    rcases hf with hf | hf
    · obtain ⟨m,hm⟩ := mem_iff.mp hf
      cases hdrop : drop m with
      | false => exact .inl (mem_iff.mpr ⟨m,filter_eq_some.mpr ⟨hm,by simp [hdrop]⟩⟩)
      | true => exact .inr (.inr ⟨(f,m),⟨mem_toList.mpr hm,hdrop⟩,rfl⟩)
    · exact .inr (.inl hf)

lemma ended : Loses b {b with active := false, ended := true, methods := ∅} where
  __ := refl b
  active := nofun
  methods _ _ hf := absurd hf empty_ne_some
  spent := nofun

lemma forks (n : UInt32) : Loses b {b with forks := n} := {refl b with}

lemma observed_insertIfNew (function : UInt32) :
    Loses b {b with observed := b.observed.insertIfNew function ∅} := by
  refine ⟨rfl,rfl,rfl,id,fun _ _ => id,fun _ _ => id,rfl,fun f o ho => ?_,rfl⟩
  rw [TreeMap.getD_insertIfNew] at ho
  split at ho
  · exact absurd ho (by simp)
  · exact ho

end Loses

structure Adds (b : ManagedBindings) (c : ManagedCommand) (b' : ManagedBindings) : Prop where
  methods : ∀ (f : UInt32) m, b'.methods[f]? = some m →
    b.methods[f]? = some m ∨ c.Is .register ∧ c.function = f ∧ m = c.binding
  spent : b'.active = true → ∀ f, f ∈ b.methods ∨ f ∈ b.retired ∨ c.Is .register ∧ c.function = f →
      f ∈ b'.methods ∨ f ∈ b'.retired
  publishedTokens : ∀ t, t ∈ b.publishedTokens ∨ c.Is .register ∧ c.token = t →
    t ∈ b'.publishedTokens
  observed : ∀ f o, o ∈ b'.observed.getD f ∅ →
    o ∈ b.observed.getD f ∅ ∨ c.Is .probe ∧ c.function = f ∧ c.offset = o
  sourceConsumed : b.sourceConsumed = true ∨ c.Is .booleanSource → b'.sourceConsumed = true

lemma Loses.adds {b b' : ManagedBindings} {op : ManagedOperation}
    (h : Loses b b') (hop : c.Is op) (hr : op ≠ .register) (hs : op ≠ .booleanSource) :
    Adds b c b' where
  methods f m hf := .inl (h.methods f m hf)
  spent ha f hf := by
    refine h.spent ha f ?_
    rcases hf with hf | hf | ⟨hreg,-⟩
    · exact .inl hf
    · exact .inr hf
    · exact absurd (hop.unique hreg) hr
  publishedTokens t ht := by
    rw [h.publishedTokens]
    exact ht.resolve_right fun hreg => hr (hop.unique hreg.1)
  observed f o ho := .inl (h.observed f o ho)
  sourceConsumed hsrc := by
    rw [h.sourceConsumed]
    exact hsrc.resolve_right fun hsource => hs (hop.unique hsource)

lemma Step.adds (h : Step policy b c b') : Adds b c b' := by
  cases h with
  | start hop =>
    refine {(Loses.refl b).adds hop nofun nofun with spent _ f hf := ?_}
    exact hf.imp_right (·.resolve_right fun hreg => nomatch hop.unique hreg.1)
  | register hop hcur hvalid hfree =>
    refine ⟨fun f m hf => ?_,fun _ f hf => ?_,fun t ht => ?_,fun _ _ => .inl,fun hs => ?_⟩
    · rcases insert_eq_some.mp hf with ⟨rfl,rfl⟩ | ⟨-,hf⟩
      · exact .inr ⟨hop,rfl,rfl⟩
      · exact .inl hf
    · rw [TreeMap.mem_insert,Std.compare_eq_iff_eq]
      tauto
    · rw [TreeSet.mem_insert,Std.compare_eq_iff_eq]
      tauto
    · exact hs.resolve_right fun hsource => nomatch hop.unique hsource
  | probe hop hcur hm hoff =>
    refine {(Loses.refl b).adds hop nofun nofun with observed f o ho := ?_}
    rw [TreeMap.getD_insert] at ho
    split at ho
    next hf =>
      obtain rfl := compare_eq_iff_eq.mp hf
      rw [TreeSet.mem_insert,Std.compare_eq_iff_eq] at ho
      exact ho.elim (fun ho => .inr ⟨hop,rfl,ho⟩) .inl
    · exact .inl ho
  | booleanSource hop =>
    refine ⟨fun _ _ => .inl,fun _ f hf => ?_,fun t ht => ?_,fun _ _ => .inl,fun _ => rfl⟩
    · exact hf.imp_right (·.resolve_right fun hreg => nomatch hop.unique hreg.1)
    · exact ht.resolve_right fun hreg => nomatch hop.unique hreg.1
  | invalidateFunction hop => exact (Loses.invalidateFunction b _).adds hop nofun nofun
  | invalidateModule hop => exact (Loses.retire b _).adds hop nofun nofun
  | stop hop => exact (Loses.ended b).adds hop nofun nofun
  | event hop => exact (Loses.refl b).adds hop nofun nofun

structure Consistent (policy : ManagedPolicy) (b : ManagedBindings) : Prop where
  range : ∀ (f : UInt32) m, b.methods[f]? = some m → 0 < m.size.toNat ∧ m.limit ≤ 2^32
  disjoint : ∀ (f f' : UInt32) m m', b.methods[f]? = some m → b.methods[f']? = some m' →
    f ≠ f' → m.limit ≤ m'.start.toNat ∨ m'.limit ≤ m.start.toNat
  token : ∀ (f f' : UInt32) m m', b.methods[f]? = some m → b.methods[f']? = some m' →
    f ≠ f' → m.token ≠ m'.token
  retired : ∀ f ∈ b.methods, f ∉ b.retired
  planned : ∀ (f : UInt32) m, b.methods[f]? = some m → ∃ e, policy.methods[m.token]? = some e ∧
    m.original = e.original ∧ ∀ o, o ∈ m.probes ↔ o ∈ e.probes
  active : ∀ f ∈ b.methods, b.active = true

namespace Consistent
variable {policy : ManagedPolicy} {b b' : ManagedBindings}

lemma of_empty (hm : b.methods = ∅) : Consistent policy b := by
  have hnone : ∀ (f : UInt32) m, b.methods[f]? ≠ some m := fun f m => hm ▸ empty_ne_some
  have hmem : ∀ f, f ∉ b.methods := fun f hf =>
    let ⟨m,h⟩ := mem_iff.mp hf
    hnone f m h
  exact ⟨fun f m h => absurd h (hnone f m),fun f _ m _ h => absurd h (hnone f m),
    fun f _ m _ h => absurd h (hnone f m),fun f h => absurd h (hmem f),
    fun f m h => absurd h (hnone f m),fun f h => absurd h (hmem f)⟩

section
variable (h : Consistent policy b)
include h

lemma of_methods (hm : ∀ (f : UInt32) m, b'.methods[f]? = some m → b.methods[f]? = some m)
    (hr : ∀ f ∈ b'.methods, f ∉ b'.retired) (ha : ∀ f ∈ b'.methods, b'.active) :
    Consistent policy b' where
  range f m hf := h.range f m (hm f m hf)
  disjoint f f' m m' hf hf' := h.disjoint f f' m m' (hm f m hf) (hm f' m' hf')
  token f f' m m' hf hf' := h.token f f' m m' (hm f m hf) (hm f' m' hf')
  retired := hr
  planned f m hf := h.planned f m (hm f m hf)
  active := ha

lemma of_eq (hm : b'.methods = b.methods)
    (hr : b'.retired = b.retired) (ha : b'.active = b.active) : Consistent policy b' :=
  h.of_methods (fun _ _ => hm ▸ id) (hm ▸ hr ▸ h.retired) (hm ▸ ha ▸ h.active)

lemma invalidateFunction (f : UInt32) : Consistent policy (b.invalidateFunction f) := by
  refine h.of_methods (fun f' m hf => ?_) (fun f' hf => ?_) (fun f' hf => ?_)
  · exact (erase_eq_some.mp hf).2
  · simp only [ManagedBindings.invalidateFunction,TreeMap.mem_erase,TreeSet.mem_insert] at hf ⊢
    exact not_or.mpr ⟨hf.1,h.retired f' hf.2⟩
  · simp only [ManagedBindings.invalidateFunction,TreeMap.mem_erase] at hf ⊢
    exact h.active f' hf.2

lemma retire (drop : ManagedBinding → Bool) : Consistent policy (b.retire drop) := by
  have hsub : ∀ (f : UInt32) m, (b.retire drop).methods[f]? = some m →
      b.methods[f]? = some m ∧ drop m = false := by
    intro f m hf
    simpa using filter_eq_some.mp hf
  have hmem : ∀ f ∈ (b.retire drop).methods, ∃ m, b.methods[f]? = some m ∧ drop m = false := by
    intro f hf
    obtain ⟨m,hm⟩ := mem_iff.mp hf
    exact ⟨m,hsub f m hm⟩
  refine h.of_methods (fun f m hf => (hsub f m hf).1) (fun f hf => ?_) (fun f hf => ?_)
  · obtain ⟨m,hm,hdrop⟩ := hmem f hf
    have hlive : f ∈ b.methods := mem_iff.mpr ⟨m,hm⟩
    simp only [ManagedBindings.retire,TreeSet.mem_insertMany_list,List.contains_iff_mem,
      List.mem_map,List.mem_filter,not_or,not_exists,not_and]
    refine ⟨h.retired f hlive,fun p hp heq => ?_⟩
    obtain ⟨f',m'⟩ := p
    obtain rfl : f' = f := heq
    rw [mem_toList,hm] at hp
    obtain ⟨hm',hdrop'⟩ := hp
    obtain rfl := Option.some.inj hm'
    rw [hdrop] at hdrop'
    cases hdrop'
  · obtain ⟨m,hm,-⟩ := hmem f hf
    exact h.active f (mem_iff.mpr ⟨m,hm⟩)

lemma register (hcur : Current b c) (hvalid : b.ValidBinding c policy)
    (hfree : ∀ (f : UInt32) m, b.methods[f]? = some m → ¬Conflicts c m) : Consistent policy { b with
      methods := b.methods.insert c.function c.binding
      publishedTokens := b.publishedTokens.insert c.token} := by
  obtain ⟨-,-,-,hsize,hlimit,-,⟨e,he,horig,-,-,-,hprobes⟩,-,hret,-⟩ := hvalid
  have hapart : ∀ (f : UInt32) m, b.methods[f]? = some m →
      (m.limit ≤ c.start.toNat ∨ c.binding.limit ≤ m.start.toNat) ∧ m.token ≠ c.token := by
    intro f m hm
    have := hfree f m hm
    simp only [Conflicts,not_or,not_and,Nat.not_lt] at this
    refine ⟨?_,this.1⟩
    rcases Nat.lt_or_ge c.start.toNat m.limit with hlt | hge
    · exact .inr (this.2 hlt)
    · exact .inl hge
  constructor
  · intro f m hf
    rcases insert_eq_some.mp hf with ⟨rfl,rfl⟩ | ⟨-,hf⟩
    · exact ⟨Nat.pos_of_ne_zero fun hz => hsize (UInt32.toNat_inj.mp hz),hlimit⟩
    · exact h.range f m hf
  · intro f f' m m' hf hf' hne
    rcases insert_eq_some.mp hf with ⟨rfl,rfl⟩ | ⟨-,hf⟩ <;>
      rcases insert_eq_some.mp hf' with ⟨rfl,rfl⟩ | ⟨-,hf'⟩
    · exact absurd rfl hne
    · exact (hapart f' m' hf').1.symm
    · exact (hapart f m hf).1
    · exact h.disjoint f f' m m' hf hf' hne
  · intro f f' m m' hf hf' hne
    rcases insert_eq_some.mp hf with ⟨rfl,rfl⟩ | ⟨-,hf⟩ <;>
      rcases insert_eq_some.mp hf' with ⟨rfl,rfl⟩ | ⟨-,hf'⟩
    · exact absurd rfl hne
    · exact (hapart f' m' hf').2.symm
    · exact (hapart f m hf).2
    · exact h.token f f' m m' hf hf' hne
  · intro f hf
    rw [TreeMap.mem_insert,Std.compare_eq_iff_eq] at hf
    rcases hf with rfl | hf
    · exact hret
    · exact h.retired f hf
  · intro f m hf
    rcases insert_eq_some.mp hf with ⟨rfl,rfl⟩ | ⟨-,hf⟩
    · refine ⟨e,he,horig.symm,fun o => ?_⟩
      rw [hprobes]
      simp [ManagedCommand.binding,TreeSet.mem_ofList]
    · exact h.planned f m hf
  · exact fun f _ => hcur.active

lemma step (hs : Step policy b c b') : Consistent policy b' := by
  cases hs with
  | start _ hidle _ _ =>
    refine h.of_methods (fun _ _ => id) h.retired fun f hf => ?_
    rfl
  | register _ hcur hvalid hfree => exact h.register hcur hvalid hfree
  | probe => exact h.of_eq rfl rfl rfl
  | booleanSource => exact h.of_eq rfl rfl rfl
  | invalidateFunction => exact h.invalidateFunction _
  | invalidateModule => exact h.retire _
  | stop => exact .of_empty rfl
  | event => exact h

end
end Consistent
end ManagedBindings
end S2E
