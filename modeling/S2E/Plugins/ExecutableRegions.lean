import S2E.Plugins.ExecutableRegionMonitor

/-!
The regions of `ExecutableRegionMonitor` against the bytes they stand for: where they lie, and
which executions are reported.
-/

namespace S2E
open Std List UInt64

structure GuestMemory where
  /-- An accepted allocation since the last unload of the process contains the byte. -/
  allocated : UInt64 → UInt64 → Bool := fun _ _ => false
  obtained : UInt64 → UInt64 → Bool := fun _ _ => false
  /-- The second byte came with an allocation that contains the first one. -/
  together : UInt64 → UInt64 → UInt64 → Bool := fun _ _ _ => false
  /-- The execution of a region with the byte was reported since the byte was obtained. -/
  recorded : UInt64 → UInt64 → Bool := fun _ _ => false

namespace GuestMemory
variable (m : GuestMemory)

def allocate (c : VmCall) : GuestMemory where
  allocated p b := m.allocated p b || decide (p = c.pid ∧ c.InRange b)
  obtained p b := m.obtained p b || decide (p = c.pid ∧ c.InRange b)
  together p a b :=
    decide (p = c.pid ∧ c.InRange a ∧ c.InRange b) || (m.obtained p a && m.together p a b)
  recorded p b := m.obtained p b && m.recorded p b

def freed (c : VmCall) (p b : UInt64) : Bool :=
  p == c.pid && if c.size = 0 then m.together p c.base b else c.InRange b

def free (c : VmCall) : GuestMemory :=
  {m with obtained := fun p b => m.obtained p b && !m.freed c p b}

def unload (pid : UInt64) : GuestMemory :=
  { m with
    allocated := fun p b => p != pid && m.allocated p b
    obtained := fun p b => p != pid && m.obtained p b}

def report : RegionEffect → GuestMemory
  | .executeAllocatedMemory _ pid _ base size _ _ =>
    { m with
      recorded := fun p b => m.recorded p b ||
        decide (p = pid ∧ base.toNat ≤ b.toNat ∧ b.toNat < base.toNat+size.toNat)}
  | _ => m

end GuestMemory

structure Monitored where
  state : ExecutableRegionMonitorState := {}
  memory : GuestMemory := {}

namespace Monitored
variable (cfg : RegionConfig)

/-- What an event does to the memory. Any successful free frees, whatever the monitor thinks
of the thread. -/
def observe (m : Monitored) : RegionEvent → GuestMemory
  | .allocate c _ _ => if m.state.accepts cfg c then m.memory.allocate c else m.memory
  | .free c => if ntSuccess c.status && c.base != 0 then m.memory.free c else m.memory
  | .processUnload pid => m.memory.unload pid
  | _ => m.memory

def step (m : Monitored) (e : RegionEvent) : Monitored where
  state := (m.state.step cfg e).2
  memory := (m.state.step cfg e).1.foldl GuestMemory.report (m.observe cfg e)

def run (events : List RegionEvent) : Monitored := events.foldl (step cfg) {}

end Monitored

variable {r : ExecutableRegion} {b : UInt64}

namespace ExecutableRegion

lemma covers_iff : r.Covers b ↔ r.start.toNat ≤ b.toNat ∧ b.toNat < r.stop.toNat := by
  rw [Covers,le_iff_toNat_le,lt_iff_toNat_lt]

lemma overlaps_iff {start stop : UInt64} :
    r.Overlaps start stop ↔ start.toNat < r.stop.toNat ∧ r.start.toNat < stop.toNat := by
  rw [Overlaps,lt_iff_toNat_lt,lt_iff_toNat_lt]

def Apart (r r' : ExecutableRegion) : Prop :=
  r.pid = r'.pid → ∀ b, ¬(r.Covers b ∧ r'.Covers b)

instance : Std.Symm Apart where
  symm _ _ h hpid b hb := h hpid.symm b hb.symm

def place (r : ExecutableRegion) : UInt64 × UInt64 × UInt64 := (r.pid,r.start,r.stop)

end ExecutableRegion

lemma VmCall.stop_toNat (c : VmCall) (hsize : c.size ≠ 0) :
    c.stop.toNat = min (c.base.toNat+c.size.toNat) (2^64-1) := by
  have hbase := c.base.toNat_lt
  have hsz := c.size.toNat_lt
  have hle : c.base ≤ 0xffffffffffffffff := by
    rw [le_iff_toNat_le]
    exact Nat.le_of_lt_succ hbase
  have hsub : (0xffffffffffffffff-c.base).toNat = 2^64-1-c.base.toNat :=
    UInt64.toNat_sub_of_le _ _ hle
  unfold VmCall.stop exclusiveEnd
  split
  next h =>
    have hlt := lt_iff_toNat_lt.mp (h.resolve_left hsize)
    rw [hsub] at hlt
    have hlast : (0xffffffffffffffff : UInt64).toNat = 2^64-1 := rfl
    omega
  next h =>
    have hle := Nat.le_of_not_lt fun hlt => h (.inr (lt_iff_toNat_lt.mpr hlt))
    rw [hsub] at hle
    rw [UInt64.toNat_add]
    omega

namespace ExecutableRegion

lemma absorb_covers {region it : ExecutableRegion} {lo hi : Nat}
    (hlo : region.start.toNat ≤ lo) (hhi : hi ≤ region.stop.toNat)
    (hit : lo < it.stop.toNat ∧ it.start.toNat < hi) (b : UInt64) :
    (region.absorb it).Covers b ↔ region.Covers b ∨ it.Covers b := by
  simp only [covers_iff,absorb,lt_iff_toNat_lt]
  split <;> split <;> omega

lemma absorb_start_le (region it : ExecutableRegion) :
    (region.absorb it).start.toNat ≤ region.start.toNat := by
  simp only [absorb,lt_iff_toNat_lt]
  split <;> omega

lemma stop_le_absorb (region it : ExecutableRegion) :
    region.stop.toNat ≤ (region.absorb it).stop.toNat := by
  simp only [absorb,lt_iff_toNat_lt]
  split <;> omega

end ExecutableRegion

open ExecutableRegion
section
variable (c : VmCall) (region : ExecutableRegion) (l : List ExecutableRegion)

lemma coalesce_snd : (coalesce c region l).2 = l.filter fun r => ¬r.Touched c := by
  induction l generalizing region with
  | nil => rfl
  | cons it rest ih =>
    by_cases h : it.Touched c
    · simp [coalesce,h,ih]
    · simp [coalesce,h,ih]

lemma coalesce_pid : (coalesce c region l).1.pid = region.pid := by
  induction l generalizing region with
  | nil => rfl
  | cons it rest ih =>
    by_cases h : it.Touched c
    · simp [coalesce,h,ih,absorb]
    · simp [coalesce,h,ih]

lemma coalesce_executed : (coalesce c region l).1.executed ↔
    region.executed ∨ ∃ r ∈ l, r.Touched c ∧ r.executed := by
  induction l generalizing region with
  | nil => simp [coalesce]
  | cons it rest ih =>
    by_cases h : it.Touched c
    · simp [coalesce,h,ih,absorb,or_assoc]
    · simp [coalesce,h,ih]

lemma coalesce_covers (hstart : region.start.toNat ≤ c.base.toNat)
    (hstop : c.stop.toNat ≤ region.stop.toNat) (b : UInt64) : (coalesce c region l).1.Covers b ↔
      region.Covers b ∨ ∃ r ∈ l, r.Touched c ∧ r.Covers b := by
  induction l generalizing region with
  | nil => simp [coalesce]
  | cons it rest ih =>
    by_cases h : it.Touched c
    · have hrest := ih (region.absorb it) ((region.absorb_start_le it).trans hstart)
        (hstop.trans (region.stop_le_absorb it))
      have hmerge := absorb_covers hstart hstop
        (overlaps_iff.mp h.2) b
      simp [coalesce,h,hrest,hmerge,or_assoc]
    · simp [coalesce,h,ih region hstart hstop]

end

namespace GuestMemory

lemma foldl_report (m : GuestMemory) (effects : List RegionEffect) :
    (effects.foldl report m).allocated = m.allocated ∧
      (effects.foldl report m).obtained = m.obtained ∧
      ∀ p b, m.recorded p b → (effects.foldl report m).recorded p b := by
  induction effects generalizing m with
  | nil => exact ⟨rfl,rfl,fun _ _ => id⟩
  | cons e effects ih =>
    obtain ⟨hall,hobt,hrec⟩ := ih (m.report e)
    have hstep : (m.report e).allocated = m.allocated ∧ (m.report e).obtained = m.obtained ∧
        ∀ p b, m.recorded p b → (m.report e).recorded p b := by
      cases e with
      | executeAllocatedMemory => exact ⟨rfl,rfl,fun p b h => by simp [report,h]⟩
      | virtualAlloc | writableToExecutable | virtualProtect | childProcess =>
        exact ⟨rfl,rfl,fun _ _ => id⟩
    exact ⟨hall.trans hstep.1,hobt.trans hstep.2.1,fun p b h => hrec p b (hstep.2.2 p b h)⟩

end GuestMemory

variable {f : ExecutableRegion → ExecutableRegion}

lemma updateFirst_place {p : ExecutableRegion → Bool}
    (hf : ∀ r, (f r).place = r.place) (l : List ExecutableRegion) :
    (updateFirst p f l).map place = l.map place := by
  induction l with
  | nil => rfl
  | cons r rest ih =>
    by_cases h : p r
    · simp [updateFirst,h,hf]
    · simp [updateFirst,h,ih]

variable {tracked : Bool} {module : Option (List UInt8)} {p pc pid t tid : UInt64}

namespace ExecutableRegionMonitorState
variable {cfg : RegionConfig} {s s' : ExecutableRegionMonitorState}

lemma activate_regions
    (h : s.activate cfg pid tid pc tracked module = some s') : s'.regions = s.regions := by
  unfold activate at h
  grind

lemma armed_or_tracked_of_activate (h : s.activate cfg pid tid pc tracked module = some s') :
    s.armedPids.contains pid ∨ tracked := by
  unfold activate at h
  grind

lemma armed_of_activate
    (h : s.activate cfg pid tid pc tracked module = none) : s.armedPids.contains pid = false := by
  unfold activate at h
  grind

lemma onBlockExecute_cases (cfg : RegionConfig) (s : ExecutableRegionMonitorState)
    (pid tid pc : UInt64) (tracked : Bool) (module : Option (List UInt8)) :
    let out := s.onBlockExecute cfg pid tid pc tracked module
    (out.2.regions = s.regions ∧ (out.2.armedPids.contains pid → out.2.trusts cfg pid tid →
        ∀ it, s.regions.find? (·.isAt pid pc) = some it → it.executed)) ∨
    ∃ it, (s.armedPids.contains pid ∨ tracked) ∧
      s.regions.find? (·.isAt pid pc) = some it ∧ it.executed = false ∧
      out.2.regions = updateFirst (·.isAt pid pc) (markExecuted cfg module) s.regions ∧
      out.1 = if module.isSome then []
        else [.executeAllocatedMemory it.sourcePid pid pc it.start (it.stop-it.start)
          it.protection it.remote] := by
  unfold onBlockExecute
  cases hact : s.activate cfg pid tid pc tracked module with
  | none =>
    refine .inl ⟨rfl,fun harmed => ?_⟩
    rw [armed_of_activate hact] at harmed
    cases harmed
  | some s' =>
    have hreg := activate_regions hact
    dsimp only
    by_cases htrust : s'.trusts cfg pid tid
    · rw [if_pos htrust,execute,hreg]
      cases hfind : s.regions.find? (·.isAt pid pc) with
      | none => exact .inl ⟨hreg,fun _ _ _ hit => by cases hit⟩
      | some it =>
        dsimp only
        by_cases hex : it.executed
        · rw [if_pos hex]
          refine .inl ⟨hreg,fun _ _ q hq => ?_⟩
          obtain rfl := Option.some.inj hq
          exact hex
        · rw [if_neg hex]
          exact .inr ⟨it,armed_or_tracked_of_activate hact,rfl,Bool.eq_false_iff.mpr hex,rfl,rfl⟩
    · rw [if_neg htrust]
      exact .inl ⟨hreg,fun _ h => absurd h htrust⟩

lemma onProcessLoad_regions (pid parentPid : UInt64) (imageName : List UInt8) :
    (s.onProcessLoad cfg pid parentPid imageName).2.regions = s.regions := by
  unfold onProcessLoad
  grind

lemma onThreadCreate_regions (pid tid : UInt64) :
    (s.onThreadCreate cfg pid tid).regions = s.regions := by
  unfold onThreadCreate
  grind

lemma onThreadExit_regions (pid tid : UInt64) :
    (s.onThreadExit cfg pid tid).regions = s.regions := by
  unfold onThreadExit
  grind

lemma handleOpcodeInvocation_regions (request : Option ExecutableRegionCommand) :
    (s.handleOpcodeInvocation request).regions = s.regions := by
  unfold handleOpcodeInvocation
  grind

lemma onNtProtectVirtualMemory_place (cfg : RegionConfig) (s : ExecutableRegionMonitorState)
    (c : VmCall) (oldProtection newProtection : UInt64) :
    (s.onNtProtectVirtualMemory cfg c oldProtection newProtection).2.regions.map
      place = s.regions.map place := by
  unfold onNtProtectVirtualMemory
  split
  · rw [map_map]
    refine map_congr_left fun r _ => ?_
    simp only [Function.comp_apply]
    split <;> rfl
  · rfl

lemma onBlockExecute_place (cfg : RegionConfig) (s : ExecutableRegionMonitorState)
    (pid tid pc : UInt64) (tracked : Bool) (module : Option (List UInt8)) :
    (s.onBlockExecute cfg pid tid pc tracked module).2.regions.map place = s.regions.map place := by
  rcases onBlockExecute_cases cfg s pid tid pc tracked module with
    ⟨hreg,-⟩ | ⟨it,-,-,-,hreg,-⟩
  · rw [hreg]
  · rw [hreg]
    exact updateFirst_place (f := markExecuted cfg module) (fun _ => rfl) _

lemma step_place (e : RegionEvent) (he : ∀ c t p, e = .allocate c t p → s.accepts cfg c = false) :
    ((s.step cfg e).2.regions.map place).Sublist (s.regions.map place) := by
  have hsame : ∀ {l : List ExecutableRegion}, l.map place = s.regions.map place →
      (l.map place).Sublist (s.regions.map place) :=
    fun h => h ▸ List.Sublist.refl _
  cases e with
  | allocate c t p => simp [step,onNtAllocateVirtualMemory,he c t p rfl]
  | protect c old new => exact hsame (onNtProtectVirtualMemory_place cfg s c old new)
  | free c =>
    simp only [step,onNtFreeVirtualMemory]
    split
    · exact filter_sublist.map _
    · exact List.Sublist.refl _
  | block pid tid pc tracked module =>
    exact hsame (onBlockExecute_place cfg s pid tid pc tracked module)
  | processLoad pid parent name => exact hsame (congrArg _ (onProcessLoad_regions pid parent name))
  | processUnload pid => exact filter_sublist.map _
  | threadCreate pid tid => exact hsame (congrArg _ (onThreadCreate_regions pid tid))
  | threadExit pid tid => exact hsame (congrArg _ (onThreadExit_regions pid tid))
  | command request => exact hsame (congrArg _ (handleOpcodeInvocation_regions request))

lemma size_ne_of_accepts {c : VmCall} (h : s.accepts cfg c) : c.size ≠ 0 := by
  simp only [accepts,Bool.and_eq_true,bne_iff_ne] at h
  exact h.1.1.1.2

lemma allocate_regions {c : VmCall} (hacc : s.accepts cfg c)
    (hbound : s.regions.length ≤ cfg.maxRegions) :
    ∃ kept region, (s.step cfg (.allocate c t p)).2.regions = kept ++ [region] ∧
      kept.Sublist (s.regions.filter fun r => ¬r.Touched c) ∧ kept.length < cfg.maxRegions ∧
      (s.regions.length < cfg.maxRegions → kept = s.regions.filter fun r => ¬r.Touched c) ∧
      region.pid = c.pid ∧ (∀ b, region.Covers b ↔
        (c.base ≤ b ∧ b < c.stop) ∨ ∃ r ∈ s.regions, r.Touched c ∧ r.Covers b) ∧
      (region.executed ↔ ∃ r ∈ s.regions, r.Touched c ∧ r.executed) := by
  simp only [step,onNtAllocateVirtualMemory,hacc,if_true]
  refine ⟨_,_,rfl,?_,?_,?_,coalesce_pid _ _ _,coalesce_covers _ _ _ ?_ ?_,?_⟩
  · rw [coalesce_snd]
    split
    · exact tail_sublist _
    · exact List.Sublist.refl _
  · rw [coalesce_snd]
    have hlen := (length_filter_le (fun r => decide ¬r.Touched c) s.regions).trans hbound
    have hpos := cfg.maxRegions_pos
    split
    · rw [length_tail]
      omega
    · omega
  · intro hlt
    rw [coalesce_snd]
    have hlen := length_filter_le (fun r => decide ¬r.Touched c) s.regions
    exact if_neg (by omega)
  · exact Nat.le_refl _
  · exact Nat.le_refl _
  · rw [coalesce_executed]
    simp

end ExecutableRegionMonitorState

open ExecutableRegionMonitorState

structure Tidy (cfg : RegionConfig) (m : Monitored) : Prop where
  disjoint : m.state.regions.Pairwise ExecutableRegion.Apart
  bounded : m.state.regions.length ≤ cfg.maxRegions
  allocated : ∀ r ∈ m.state.regions, ∀ b, r.Covers b → m.memory.allocated r.pid b = true

namespace Tidy
variable {cfg : RegionConfig} {m m' : Monitored}

lemma of_place (h : Tidy cfg m) (hsub : (m'.state.regions.map place).Sublist
      (m.state.regions.map place)) (hmem : ∀ r ∈ m'.state.regions, ∀ b, m.memory.allocated r.pid b →
      m'.memory.allocated r.pid b) : Tidy cfg m' := by
  -- Both properties of a region depend on its place only.
  have hplace : ∀ {r q : ExecutableRegion}, q.place = r.place →
      q.pid = r.pid ∧ ∀ b, q.Covers b ↔ r.Covers b := by
    intro r q hq
    simp only [place,Prod.mk.injEq] at hq
    simp [Covers,hq]
  refine ⟨?_,?_,fun r hr b hb => ?_⟩
  · have hpairs : (m.state.regions.map place).Pairwise fun x y =>
        ∀ r q : ExecutableRegion, r.place = x → q.place = y → r.Apart q := by
      rw [pairwise_map]
      refine h.disjoint.imp fun hapart r q hr hq hpid b hb => ?_
      obtain ⟨hrpid,hrb⟩ := hplace hr
      obtain ⟨hqpid,hqb⟩ := hplace hq
      exact hapart (hrpid.symm.trans (hpid.trans hqpid)) b ⟨(hrb b).mp hb.1,(hqb b).mp hb.2⟩
    have hpairs' := hpairs.sublist hsub
    rw [pairwise_map] at hpairs'
    exact hpairs'.imp fun hapart => hapart _ _ rfl rfl
  · have hlen := hsub.length_le
    simp only [length_map] at hlen
    exact hlen.trans h.bounded
  · obtain ⟨q,hq,hqr⟩ := mem_map.mp (hsub.subset (mem_map_of_mem hr))
    obtain ⟨hpid,hcov⟩ := hplace hqr.symm
    refine hmem r hr b ?_
    rw [hpid]
    exact h.allocated q hq b ((hcov b).mp hb)

lemma allocate (h : Tidy cfg m) {c : VmCall} (hacc : m.state.accepts cfg c) :
    Tidy cfg (m.step cfg (.allocate c t p)) := by
  obtain ⟨kept,region,hregions,hsub,hlen,-,hpid,hcovers,-⟩ :=
    allocate_regions (t := t) (p := p) hacc h.bounded
  have hkept : ∀ r ∈ kept, r ∈ m.state.regions ∧ ¬r.Touched c := by
    intro r hr
    simpa using hsub.subset hr
  have hmemory : ∀ pid b, (m.step cfg (.allocate c t p)).memory.allocated pid b =
      (m.memory.allocated pid b || decide (pid = c.pid ∧ c.InRange b)) := by
    intro pid b
    simp [Monitored.step,(GuestMemory.foldl_report _ _).1,Monitored.observe,hacc,
      GuestMemory.allocate]
  refine ⟨?_,?_,fun r hr b hb => ?_⟩
  · rw [Monitored.step,hregions,pairwise_append]
    refine ⟨(h.disjoint.filter _).sublist hsub,pairwise_singleton _ _,?_⟩
    intro r hr q hq
    rw [mem_singleton.mp hq]
    obtain ⟨hr,hrt⟩ := hkept r hr
    intro hrpid b ⟨hrb,hb⟩
    rw [hpid] at hrpid
    rcases (hcovers b).mp hb with ⟨hlo,hhi⟩ | ⟨q,hq,hqt,hqb⟩
    -- The bytes of the call are no bytes of a region it does not touch.
    · refine hrt ⟨hrpid,?_,?_⟩
      · exact lt_of_le_of_lt hlo hrb.2
      · exact lt_of_le_of_lt hrb.1 hhi
    · have hne : r ≠ q := fun heq => hrt (heq ▸ hqt)
      exact h.disjoint.forall hr hq hne (hrpid.trans hqt.1.symm) b ⟨hrb,hqb⟩
  · rw [Monitored.step,hregions,length_append]
    exact hlen
  · rw [hmemory,Bool.or_eq_true,decide_eq_true_eq]
    rw [Monitored.step,hregions] at hr
    rcases mem_append.mp hr with hr | hr
    · exact .inl (h.allocated r (hkept r hr).1 b hb)
    rw [mem_singleton.mp hr] at hb ⊢
    rw [hpid]
    rcases (hcovers b).mp hb with ⟨hlo,hhi⟩ | ⟨q,hq,hqt,hqb⟩
    · refine .inr ⟨rfl,le_iff_toNat_le.mp hlo,?_⟩
      have hstop := c.stop_toNat (size_ne_of_accepts hacc)
      have hlt := lt_iff_toNat_lt.mp hhi
      omega
    · exact .inl (hqt.1 ▸ h.allocated q hq b hqb)

lemma step (h : Tidy cfg m) (e : RegionEvent) : Tidy cfg (m.step cfg e) := by
  by_cases he : ∃ c t p, e = .allocate c t p ∧ m.state.accepts cfg c
  · obtain ⟨c,t,p,rfl,hacc⟩ := he
    exact h.allocate hacc
  refine h.of_place (m.state.step_place e fun c t p hc => ?_) fun r hr b hb => ?_
  · exact Bool.eq_false_iff.mpr fun hacc => he ⟨c,t,p,hc,hacc⟩
  · simp only [Monitored.step,(GuestMemory.foldl_report _ _).1]
    cases e with
    | allocate c t p =>
      simp only [Monitored.observe]
      split
      · simp [GuestMemory.allocate,hb]
      · exact hb
    | free c =>
      simp only [Monitored.observe]
      split <;> exact hb
    | processUnload pid =>
      have hne : r.pid ≠ pid := by
        have := (mem_filter.mp hr).2
        simpa using this
      simp [Monitored.observe,GuestMemory.unload,hne,hb]
    | protect | block | processLoad | threadCreate | threadExit | command => exact hb

lemma run (cfg : RegionConfig) (events : List RegionEvent) :
    Tidy cfg (Monitored.run cfg events) := by
  have hstart : Tidy cfg {} := ⟨.nil,Nat.zero_le _,fun _ hr => absurd hr not_mem_nil⟩
  exact foldlRecOn (motive := Tidy cfg) events (Monitored.step cfg) hstart
    fun _ h e _ => h.step e

end Tidy

/-- After any events the regions of a process are disjoint, there are at most `maxRegions`, and
each byte of one is in the range of an accepted allocation of its process since its last
unload. -/
theorem regions_disjoint_bounded (cfg : RegionConfig) (events : List RegionEvent) :
    let m := Monitored.run cfg events
    m.state.regions.Pairwise ExecutableRegion.Apart ∧ m.state.regions.length ≤ cfg.maxRegions ∧
      ∀ r ∈ m.state.regions, ∀ b, r.Covers b → m.memory.allocated r.pid b = true :=
  ⟨(Tidy.run cfg events).disjoint,(Tidy.run cfg events).bounded,(Tidy.run cfg events).allocated⟩

def Calm (cfg : RegionConfig) (m : Monitored) : RegionEvent → Prop
  -- The range ends below the last byte, and if it touches a region that was executed, all of it
  -- is memory that was obtained before and lies in such regions.
  | .allocate c _ _ => m.state.accepts cfg c = true → c.base.toNat+c.size.toNat < 2^64 ∧
      ((∃ r ∈ m.state.regions, r.Touched c ∧ r.executed = true) → ∀ b, c.InRange b →
        m.memory.obtained c.pid b = true ∧
          ∃ r ∈ m.state.regions, r.pid = c.pid ∧ r.executed = true ∧ r.Covers b)
  -- All bytes of the regions that are dropped are freed.
  | .free c => m.state.trusts cfg c.sourcePid c.tid = true →
      ∀ r ∈ m.state.regions, r.Dropped c → ∀ b, r.Covers b → m.memory.freed c r.pid b = true
  -- A module runs only in regions that were executed before.
  | .block pid _ pc tracked module => module.isSome = true →
      m.state.armedPids.contains pid = true ∨ tracked = true →
      ∀ r ∈ m.state.regions, r.isAt pid pc = true → r.executed = true
  | _ => True

/-- Every byte the guest has is in a region, and a region that is marked was reported for every
byte of it that the guest has. -/
structure Watched (m : Monitored) : Prop where
  covered : ∀ p b, m.memory.obtained p b = true → ∃ r ∈ m.state.regions, r.pid = p ∧ r.Covers b
  flagged : ∀ r ∈ m.state.regions, r.executed = true → ∀ b, r.Covers b →
    m.memory.obtained r.pid b = true → m.memory.recorded r.pid b = true

lemma ExecutableRegion.isAt_iff : r.isAt pid pc ↔ r.pid = pid ∧ r.Covers pc := by
  simp [isAt]

lemma ExecutableRegion.common_byte {c : VmCall}
    (ht : r.Touched c) (hb : r.Covers b) (hlt : c.base < c.stop) :
    ∃ x, r.Covers x ∧ c.base ≤ x ∧ x < c.stop := by
  have hnonempty := lt_of_le_of_lt hb.1 hb.2
  rcases UInt64.le_total r.start c.base with h | h
  · exact ⟨c.base,⟨h,ht.2.1⟩,le_refl _,hlt⟩
  · exact ⟨r.start,⟨le_refl _,hnonempty⟩,h,ht.2.2⟩

lemma mem_updateFirst {p : ExecutableRegion → Bool}
    {l : List ExecutableRegion} (h : r ∈ updateFirst p f l) :
    r ∈ l ∨ ∃ q, l.find? p = some q ∧ r = f q := by
  induction l with
  | nil => cases h
  | cons x rest ih =>
    by_cases hx : p x
    · simp only [updateFirst,hx,if_true,mem_cons] at h
      rcases h with rfl | h
      · exact .inr ⟨x,by simp [hx],rfl⟩
      · exact .inl (mem_cons_of_mem _ h)
    · rw [updateFirst,if_neg hx] at h
      rcases mem_cons.mp h with rfl | h
      · exact .inl mem_cons_self
      · rcases ih h with h | ⟨q,hq,rfl⟩
        · exact .inl (mem_cons_of_mem _ h)
        · exact .inr ⟨q,by simp [hx,hq],rfl⟩

namespace Watched
variable {cfg : RegionConfig} {m m' : Monitored}

lemma of_place (h : Watched m) (hcov : ∀ p b, m'.memory.obtained p b → m.memory.obtained p b ∧
      ∀ r ∈ m.state.regions, r.pid = p → r.Covers b → ∃ r' ∈ m'.state.regions, r'.place = r.place)
    (hflag : ∀ r' ∈ m'.state.regions, r'.executed →
      ∃ r ∈ m.state.regions, r.executed ∧ r'.place = r.place)
    (hrec : ∀ p b, m.memory.recorded p b → m'.memory.recorded p b) : Watched m' := by
  refine ⟨fun p b hb => ?_,fun r' hr' hex b hb hobt => ?_⟩
  · obtain ⟨hb,hkept⟩ := hcov p b hb
    obtain ⟨r,hr,hpid,hrb⟩ := h.covered p b hb
    obtain ⟨r',hr',hplace⟩ := hkept r hr hpid hrb
    simp only [place,Prod.mk.injEq] at hplace
    refine ⟨r',hr',hplace.1.trans hpid,?_⟩
    rwa [Covers,hplace.2.1,hplace.2.2]
  · obtain ⟨r,hr,hrex,hplace⟩ := hflag r' hr' hex
    simp only [place,Prod.mk.injEq] at hplace
    rw [hplace.1] at hobt ⊢
    refine hrec _ _ (h.flagged r hr hrex b ?_ (hcov _ _ hobt).1)
    rwa [Covers,← hplace.2.1,← hplace.2.2]

lemma of_regions (h : Watched m) (hreg : m'.state.regions = m.state.regions)
    (hobt : m'.memory.obtained = m.memory.obtained)
    (hrec : ∀ p b, m.memory.recorded p b → m'.memory.recorded p b) : Watched m' := by
  refine h.of_place (fun p b hb => ⟨hobt ▸ hb,fun r hr _ _ => ?_⟩) (fun r' hr' hex => ?_) hrec
  · exact ⟨r,hreg ▸ hr,rfl⟩
  · exact ⟨r',hreg ▸ hr',hex,rfl⟩

lemma allocate (h : Watched m) (ht : Tidy cfg m) {c : VmCall}
    (hacc : m.state.accepts cfg c) (hcalm : Calm cfg m (.allocate c t p))
    (hfew : m.state.regions.length < cfg.maxRegions) : Watched (m.step cfg (.allocate c t p)) := by
  obtain ⟨hlast,hmark⟩ := hcalm hacc
  obtain ⟨kept,region,hregions,-,-,hkept,hpid,hcovers,hexec⟩ :=
    allocate_regions (t := t) (p := p) hacc ht.bounded
  have hmem : ∀ r, r ∈ (m.step cfg (.allocate c t p)).state.regions ↔
      (r ∈ m.state.regions ∧ ¬r.Touched c) ∨ r = region := by
    intro r
    rw [Monitored.step,hregions,hkept hfew]
    simp
  have hmemory : (m.step cfg (.allocate c t p)).memory = m.memory.allocate c := by
    simp only [Monitored.step,Monitored.observe,hacc,if_true,step,onNtAllocateVirtualMemory]
    rfl
  have hstop : c.stop.toNat = c.base.toNat+c.size.toNat := by
    have := c.stop_toNat (size_ne_of_accepts hacc)
    omega
  have hrange : ∀ b, c.InRange b ↔ c.base ≤ b ∧ b < c.stop := by
    intro b
    rw [VmCall.InRange,le_iff_toNat_le,lt_iff_toNat_lt,hstop]
  have hlt : c.base < c.stop := by
    have hpos : c.size.toNat ≠ 0 := fun hz =>
      size_ne_of_accepts hacc (UInt64.toNat_inj.mp hz)
    rw [lt_iff_toNat_lt,hstop]
    omega
  refine ⟨fun q b hb => ?_,fun r hr hex b hb hobt => ?_⟩
  · rw [hmemory] at hb
    simp only [GuestMemory.allocate,Bool.or_eq_true,decide_eq_true_eq] at hb
    rcases hb with hb | ⟨rfl,hb⟩
    · obtain ⟨r,hr,rfl,hrb⟩ := h.covered q b hb
      by_cases hrt : r.Touched c
      · exact ⟨region,(hmem _).mpr (.inr rfl),hpid.trans hrt.1.symm,
          (hcovers b).mpr (.inr ⟨r,hr,hrt,hrb⟩)⟩
      · exact ⟨r,(hmem r).mpr (.inl ⟨hr,hrt⟩),rfl,hrb⟩
    · exact ⟨region,(hmem _).mpr (.inr rfl),hpid,(hcovers b).mpr (.inl ((hrange b).mp hb))⟩
  · rw [hmemory] at hobt ⊢
    simp only [GuestMemory.allocate,Bool.or_eq_true,Bool.and_eq_true,decide_eq_true_eq] at hobt ⊢
    rcases (hmem r).mp hr with ⟨hr,hrt⟩ | rfl
    · -- The region was not touched, so the byte is none of the call.
      have hold : m.memory.obtained r.pid b := by
        refine hobt.resolve_right fun ⟨hrpid,hin⟩ => hrt ⟨hrpid,?_⟩
        obtain ⟨hlo,hhi⟩ := (hrange b).mp hin
        exact ⟨lt_of_le_of_lt hlo hb.2,lt_of_le_of_lt hb.1 hhi⟩
      exact ⟨hold,h.flagged r hr hex b hb hold⟩
    · rw [hpid] at hobt ⊢
      have hmark := hmark (hexec.mp hex)
      have hin : ∀ b, c.InRange b → m.memory.obtained c.pid b ∧ m.memory.recorded c.pid b := by
        intro b hb
        obtain ⟨hold,q,hq,hqpid,hqex,hqb⟩ := hmark b hb
        exact ⟨hold,hqpid ▸ h.flagged q hq hqex b hqb (hqpid ▸ hold)⟩
      rcases (hcovers b).mp hb with hb | ⟨q,hq,hqt,hqb⟩
      · exact hin b ((hrange b).mpr hb)
      have hold : m.memory.obtained c.pid b := hobt.elim id fun hb => (hin b hb.2).1
      refine ⟨hold,?_⟩
      have hqex : q.executed := by
        obtain ⟨x,hxq,hxc⟩ := common_byte hqt hqb hlt
        obtain ⟨-,q',hq',hq'pid,hq'ex,hq'x⟩ := hmark x ((hrange x).mpr hxc)
        by_contra hne
        have hneq : q ≠ q' := fun heq => hne (heq ▸ hq'ex)
        exact ht.disjoint.forall hq hq' hneq (hqt.1.trans hq'pid.symm) x ⟨hxq,hq'x⟩
      exact hqt.1 ▸ h.flagged q hq hqex b hqb (hqt.1 ▸ hold)

lemma protect (h : Watched m) (c : VmCall) (old new : UInt64) :
    Watched (m.step cfg (.protect c old new)) := by
  have hplace := onNtProtectVirtualMemory_place cfg m.state c old new
  obtain ⟨-,hobt,hrec⟩ :=
    GuestMemory.foldl_report m.memory (m.state.step cfg (.protect c old new)).1
  refine h.of_place (fun p b hb => ⟨hobt ▸ hb,fun r hr _ _ => ?_⟩) (fun r' hr' hex => ?_) hrec
  · have hmem : r.place ∈ m.state.regions.map place := mem_map_of_mem hr
    rw [← hplace] at hmem
    exact mem_map.mp hmem
  · simp only [Monitored.step,step,onNtProtectVirtualMemory] at hr'
    split at hr'
    · obtain ⟨r,hr,rfl⟩ := mem_map.mp hr'
      refine ⟨r,hr,?_,?_⟩
      · split at hex <;> exact hex
      · split <;> rfl
    · exact ⟨r',hr',hex,rfl⟩

lemma free (h : Watched m) {c : VmCall} (hcalm : Calm cfg m (.free c)) :
    Watched (m.step cfg (.free c)) := by
  have hflag : ∀ r' ∈ (m.step cfg (.free c)).state.regions, r' ∈ m.state.regions := by
    intro r' hr'
    simp only [Monitored.step,step,onNtFreeVirtualMemory] at hr'
    split at hr'
    · exact (mem_filter.mp hr').1
    · exact hr'
  refine h.of_place (fun p b hb => ?_) (fun r' hr' hex => ⟨r',hflag r' hr',hex,rfl⟩)
    fun p b hb => ?_
  · simp only [Monitored.step,Monitored.observe,step,onNtFreeVirtualMemory,foldl_nil] at hb ⊢
    by_cases hok : (ntSuccess c.status && c.base != 0)
    · simp only [hok,if_true,Bool.true_and,GuestMemory.free,Bool.and_eq_true,
        Bool.not_eq_true'] at hb ⊢
      refine ⟨hb.1,fun r hr hpid hrb => ?_⟩
      split
      next htrust =>
        have hkept : ¬r.Dropped c := by
          intro hdrop
          have hfreed := hcalm htrust r hr hdrop b hrb
          rw [hpid,hb.2] at hfreed
          cases hfreed
        exact ⟨r,mem_filter.mpr ⟨hr,decide_eq_true hkept⟩,rfl⟩
      · exact ⟨r,hr,rfl⟩
    · simp only [hok,Bool.false_and] at hb ⊢
      exact ⟨hb,fun r hr _ _ => ⟨r,hr,rfl⟩⟩
  · simp only [Monitored.step,Monitored.observe,step,foldl_nil]
    split <;> exact hb

lemma unload (h : Watched m) (pid : UInt64) : Watched (m.step cfg (.processUnload pid)) := by
  refine h.of_place (fun p b hb => ?_) (fun r' hr' hex => ?_) fun _ _ => id
  · simp only [Monitored.step,Monitored.observe,step,
      foldl_nil,GuestMemory.unload,Bool.and_eq_true,bne_iff_ne] at hb
    refine ⟨hb.2,fun r hr hpid _ => ⟨r,mem_filter.mpr ⟨hr,?_⟩,rfl⟩⟩
    simpa [hpid] using hb.1
  · exact ⟨r',(mem_filter.mp hr').1,hex,rfl⟩

lemma recorded_of_report {memory : GuestMemory}
    {source protection : UInt64} {remote : Bool} (hb : r.Covers b) :
    (memory.report (.executeAllocatedMemory source pid pc r.start (r.stop-r.start) protection
      remote)).recorded pid b := by
  have hle : r.start ≤ r.stop := by
    have := covers_iff.mp hb
    rw [UInt64.le_iff_toNat_le]
    omega
  have hsize := UInt64.toNat_sub_of_le _ _ hle
  obtain ⟨hlo,hhi⟩ := covers_iff.mp hb
  simp only [GuestMemory.report,Bool.or_eq_true,decide_eq_true_eq]
  exact .inr ⟨trivial,hlo,by omega⟩

lemma block (h : Watched m) (hcalm : Calm cfg m (.block pid tid pc tracked module)) :
    Watched (m.step cfg (.block pid tid pc tracked module)) := by
  have hplace := onBlockExecute_place cfg m.state pid tid pc
    tracked module
  obtain ⟨-,hobt,hrec⟩ :=
    GuestMemory.foldl_report m.memory (m.state.step cfg (.block pid tid pc tracked module)).1
  refine ⟨fun p b hb => ?_,fun r hr hex b hb hrobt => ?_⟩
  · obtain ⟨r,hr,hpid,hrb⟩ := h.covered p b (hobt ▸ hb)
    have hmem : r.place ∈ m.state.regions.map place := mem_map_of_mem hr
    rw [← hplace] at hmem
    obtain ⟨r',hr',hsame⟩ := mem_map.mp hmem
    simp only [place,Prod.mk.injEq] at hsame
    refine ⟨r',hr',hsame.1.trans hpid,?_⟩
    rwa [Covers,hsame.2.1,hsame.2.2]
  · have hold : r ∈ m.state.regions →
      (m.step cfg (.block pid tid pc tracked module)).memory.recorded
        r.pid b := fun hr => hrec _ _ (h.flagged r hr hex b hb (hobt ▸ hrobt))
    rcases m.state.onBlockExecute_cases cfg pid tid pc tracked module with
      ⟨hreg,-⟩ | ⟨it,hactive,hfind,hmark,hreg,hout⟩
    · exact hold (hreg ▸ hr)
    have hat : it.isAt pid pc := by simpa using find?_some hfind
    rcases mem_updateFirst (hreg ▸ hr) with hr | ⟨q,hq,rfl⟩
    · exact hold hr
    obtain rfl := Option.some.inj (hfind.symm.trans hq)
    cases hmod : module.isSome with
    | true =>
      have := hcalm hmod hactive it (mem_of_find?_eq_some hfind) hat
      rw [hmark] at this
      cases this
    | false =>
      have hpid : it.pid = pid := (isAt_iff.mp hat).1
      rw [hmod,if_neg Bool.false_ne_true] at hout
      simp only [Monitored.step,step,hout,foldl_cons,foldl_nil,markExecuted,hpid]
      exact recorded_of_report hb

lemma step (h : Watched m) (ht : Tidy cfg m) {e : RegionEvent} (hcalm : Calm cfg m e)
    (hfew : m.state.regions.length < cfg.maxRegions) : Watched (m.step cfg e) := by
  -- The memory stays and the log may only grow.
  have hquiet : (m.state.step cfg e).2.regions = m.state.regions → m.observe cfg e = m.memory →
      Watched (m.step cfg e) := by
    intro hreg hmem
    obtain ⟨-,hobt,hrec⟩ := GuestMemory.foldl_report (m.observe cfg e) (m.state.step cfg e).1
    rw [hmem] at hobt hrec
    exact h.of_regions hreg (by rw [Monitored.step,hmem]; exact hobt)
      (by rw [Monitored.step,hmem]; exact hrec)
  cases e with
  | allocate c t p =>
    by_cases hacc : m.state.accepts cfg c
    · exact h.allocate ht hacc hcalm hfew
    refine hquiet ?_ ?_
    · simp [ExecutableRegionMonitorState.step,onNtAllocateVirtualMemory,hacc]
    · simp [Monitored.observe,hacc]
  | protect c old new => exact h.protect c old new
  | free c => exact h.free hcalm
  | block pid tid pc tracked module => exact h.block hcalm
  | processUnload pid => exact h.unload pid
  | processLoad pid parent name =>
    exact hquiet (onProcessLoad_regions pid parent name) rfl
  | threadCreate pid tid =>
    exact hquiet (onThreadCreate_regions pid tid) rfl
  | threadExit pid tid =>
    exact hquiet (onThreadExit_regions pid tid) rfl
  | command request =>
    exact hquiet (handleOpcodeInvocation_regions request) rfl

end Watched

inductive CalmRun (cfg : RegionConfig) : Monitored → Prop
  | start : CalmRun cfg {}
  | step {m : Monitored} {e : RegionEvent} : CalmRun cfg m → Calm cfg m e →
      (m.step cfg e).state.regions.length < cfg.maxRegions → CalmRun cfg (m.step cfg e)

lemma CalmRun.watched {cfg : RegionConfig} {m : Monitored} (h : CalmRun cfg m) :
    Tidy cfg m ∧ Watched m ∧ m.state.regions.length < cfg.maxRegions := by
  induction h with
  | start =>
    exact ⟨Tidy.run cfg [],⟨nofun,fun _ hr => absurd hr not_mem_nil⟩,cfg.maxRegions_pos⟩
  | step _ hcalm hfew ih => exact ⟨ih.1.step _,ih.2.1.step ih.1 hcalm ih.2.2,hfew⟩

/-- When a trusted thread of an armed process runs outside the modules in memory that the guest
has, the execution of a region with that byte was reported since the byte was obtained. -/
theorem execution_reported {cfg : RegionConfig} {m : Monitored} (h : CalmRun cfg m)
    (pid tid pc : UInt64) (tracked : Bool)
    (harmed : (m.step cfg (.block pid tid pc tracked none)).state.armedPids.contains pid = true)
    (htrust : (m.step cfg (.block pid tid pc tracked none)).state.trusts cfg pid tid = true)
    (hobt : m.memory.obtained pid pc = true) :
    (m.step cfg (.block pid tid pc tracked none)).memory.recorded pid pc = true := by
  obtain ⟨-,hwatch,-⟩ := h.watched
  obtain ⟨r,hr,hpid,hpc⟩ := hwatch.covered pid pc hobt
  have hsome : (m.state.regions.find? (·.isAt pid pc)).isSome :=
    find?_isSome.mpr ⟨r,hr,isAt_iff.mpr ⟨hpid,hpc⟩⟩
  obtain ⟨it,hit⟩ := Option.isSome_iff_exists.mp hsome
  have hat : it.isAt pid pc := by simpa using find?_some hit
  obtain ⟨rfl,hitpc⟩ := isAt_iff.mp hat
  rcases m.state.onBlockExecute_cases cfg it.pid tid pc tracked none with
    ⟨-,hmarked⟩ | ⟨q,-,hfind,-,-,hout⟩
  · have hex := hmarked harmed htrust it hit
    have hrec := hwatch.flagged it (mem_of_find?_eq_some hit) hex pc hitpc hobt
    exact (GuestMemory.foldl_report m.memory _).2.2 _ _ hrec
  obtain rfl := Option.some.inj (hit.symm.trans hfind)
  simp only [Monitored.step,step,hout,Option.isSome_none,
    if_neg Bool.false_ne_true,foldl_cons,foldl_nil]
  exact Watched.recorded_of_report hitpc

def watchSample : RegionConfig where
  moduleName := [115]
  dumpOnExecute := true
  trackChildProcesses := true
  requireInstrumentationReady := false
  maxDumpBytes := 1024*1024
  maxRegions := 1024
  maxChildDepth := 4
  maxChildren := 64
  moduleName_ne := by decide
  maxDumpBytes_le := by decide
  maxRegions_pos := by decide
  maxRegions_le := by decide
  maxChildDepth_pos := by decide
  maxChildDepth_le := by decide
  maxChildren_pos := by decide
  maxChildren_le := by decide

def sampleAllocates : List RegionEvent :=
  [.block 4 1 0x400000 true (some [115]),.allocate ⟨0,4,0,1,0x10000,0x2000⟩ 0x3000 0x40]

theorem execution_reported_twoPages : (((Monitored.run watchSample sampleAllocates).step watchSample
      (.block 4 1 0x11000 true none)).memory.recorded 4 0x11000) = true := by
  have hrun : CalmRun watchSample (Monitored.run watchSample sampleAllocates) := by
    refine .step (.step .start ?_ (by decide +kernel)) ?_ (by decide +kernel)
    · exact fun _ _ r hr => absurd hr not_mem_nil
    · refine fun _ => ⟨by decide,fun ⟨r,hr,_⟩ => ?_⟩
      have hnone : ((({} : Monitored).step watchSample
          (.block 4 1 0x400000 true (some [115]))).state.regions) = [] :=
        isEmpty_iff.mp (by decide +kernel)
      rw [hnone] at hr
      cases hr
  exact execution_reported hrun 4 1 0x11000 true (by decide +kernel) (by decide +kernel)
    (by decide +kernel)

/-- A module runs in the first page, then other code in the second one; there is no report. -/
theorem execution_missed :
    let events := sampleAllocates ++ [.block 4 1 0x10000 true (some [100])]
    let m := Monitored.run watchSample events
    let m' := m.step watchSample (.block 4 1 0x11000 true none)
    (∀ k < 4, (Monitored.run watchSample (events.take k)).state.regions.length <
        watchSample.maxRegions) ∧
      m'.state.armedPids.contains 4 = true ∧ m'.state.trusts watchSample 4 1 = true ∧
      m.memory.obtained 4 0x11000 = true ∧ m'.memory.recorded 4 0x11000 = false := by
  decide +kernel

end S2E
