import S2E.Lib.Maps

/-!
`ExecutableRegionMonitor.cpp`: the virtual allocations of the processes under analysis, and
the reports about code that runs in them.
-/

namespace S2E
open Std

structure RegionConfig where
  moduleName : List UInt8
  dumpOnExecute : Bool
  trackChildProcesses : Bool
  requireInstrumentationReady : Bool
  maxDumpBytes : UInt64
  maxRegions : Nat
  maxChildDepth : Nat
  maxChildren : Nat
  moduleName_ne : moduleName ≠ []
  maxDumpBytes_le : maxDumpBytes ≤ 16*1024*1024
  maxRegions_pos : 0 < maxRegions
  maxRegions_le : maxRegions ≤ 65536
  maxChildDepth_pos : 0 < maxChildDepth
  maxChildDepth_le : maxChildDepth ≤ 64
  maxChildren_pos : 0 < maxChildren
  maxChildren_le : maxChildren ≤ 4096

structure ExecutableRegion where
  pid : UInt64
  sourcePid : UInt64
  start : UInt64
  stop : UInt64
  allocationType : UInt64
  protection : UInt64
  everWritable : Bool
  remote : Bool
  executed : Bool := false
  dumped : Bool := false

structure DescendantProcess where
  parentPid : UInt64
  depth : Nat
  imageName : List UInt8

structure ExecutableRegionMonitorState where
  regions : List ExecutableRegion := []
  armedPids : TreeSet UInt64 := ∅
  readyPids : TreeSet UInt64 := ∅
  trustedThreads : TreeMap UInt64 (TreeSet UInt64) := ∅
  descendants : TreeMap UInt64 DescendantProcess := ∅

structure ExecutableRegionCommand where
  magic : UInt64
  version : UInt64
  command : UInt64
  pid : UInt64
  tid : UInt64

/-- A system call on virtual memory as `WindowsMonitor` reports it. The target is zero when
the handle is unknown. -/
structure VmCall where
  status : UInt64
  sourcePid : UInt64
  targetPid : UInt64
  tid : UInt64
  base : UInt64
  size : UInt64

inductive RegionEvent where
  | allocate (call : VmCall) (allocationType protection : UInt64)
  | protect (call : VmCall) (oldProtection newProtection : UInt64)
  | free (call : VmCall)
  | block (pid tid pc : UInt64) (tracked : Bool) (module : Option (List UInt8))
  | processLoad (pid parentPid : UInt64) (imageName : List UInt8)
  | processUnload (pid : UInt64)
  | threadCreate (pid tid : UInt64)
  | threadExit (pid tid : UInt64)
  /-- The request is missing when its size is wrong or the guest memory cannot be read. -/
  | command (request : Option ExecutableRegionCommand)

inductive RegionEffect where
  | virtualAlloc (sourcePid pid base size allocationType protection : UInt64) (remote : Bool)
  | writableToExecutable (sourcePid pid base size oldProtection newProtection : UInt64)
      (remote : Bool)
  | virtualProtect (sourcePid pid base size oldProtection newProtection : UInt64) (remote : Bool)
  | executeAllocatedMemory (sourcePid pid pc base size protection : UInt64) (remote : Bool)
  | childProcess (parentPid pid : UInt64) (imageName : List UInt8) (depth : Nat)

def ntSuccess (status : UInt64) : Bool := status.toUInt32 &&& 0x80000000 == 0

def isWritable (protection : UInt64) : Bool :=
  [0x04,0x08,0x40,0x80].contains (protection &&& 0xff)

def isExecutable (protection : UInt64) : Bool :=
  [0x10,0x20,0x40,0x80].contains (protection &&& 0xff)

def exclusiveEnd (start size : UInt64) : UInt64 :=
  if size = 0 ∨ size > 0xffffffffffffffff-start then 0xffffffffffffffff else start+size

def lowerCase (s : List UInt8) : List UInt8 :=
  s.map fun c => if 65 ≤ c ∧ c ≤ 90 then c+32 else c

namespace VmCall

def pid (c : VmCall) : UInt64 := if c.targetPid ≠ 0 then c.targetPid else c.sourcePid

def remote (c : VmCall) : Bool := c.pid != c.sourcePid

def stop (c : VmCall) : UInt64 := exclusiveEnd c.base c.size

def InRange (c : VmCall) (b : UInt64) : Prop :=
  c.base.toNat ≤ b.toNat ∧ b.toNat < c.base.toNat+c.size.toNat

instance (c : VmCall) (b : UInt64) : Decidable (c.InRange b) :=
  inferInstanceAs (Decidable (_ ∧ _))

end VmCall

namespace ExecutableRegion
variable (r : ExecutableRegion)

def Overlaps (start stop : UInt64) : Prop :=
  start < r.stop ∧ r.start < stop

instance (start stop : UInt64) : Decidable (r.Overlaps start stop) :=
  inferInstanceAs (Decidable (_ ∧ _))

def Covers (b : UInt64) : Prop := r.start ≤ b ∧ b < r.stop

instance (b : UInt64) : Decidable (r.Covers b) :=
  inferInstanceAs (Decidable (_ ∧ _))

def isAt (pid pc : UInt64) : Bool := r.pid == pid && decide (r.Covers pc)

def absorb (region it : ExecutableRegion) : ExecutableRegion :=
  { region with
    start := if it.start < region.start then it.start else region.start
    stop := if region.stop < it.stop then it.stop else region.stop
    everWritable := region.everWritable || it.everWritable
    executed := region.executed || it.executed
    dumped := region.dumped || it.dumped}

def Touched (c : VmCall) : Prop :=
  r.pid = c.pid ∧ r.Overlaps c.base c.stop

instance (c : VmCall) : Decidable (r.Touched c) :=
  inferInstanceAs (Decidable (_ ∧ _))

/-- A free of size zero is about all of the allocation that contains the base. -/
def Dropped (c : VmCall) : Prop :=
  r.pid = c.pid ∧
    if c.size ≠ 0 then r.Overlaps c.base c.stop
    else r.start = c.base ∨ (r.start < c.base ∧ c.base < r.stop)

instance (c : VmCall) : Decidable (r.Dropped c) :=
  inferInstanceAs (Decidable (_ ∧ _))

def protect (c : VmCall) (oldProtection newProtection : UInt64) :
    List RegionEffect × ExecutableRegion :=
  let old := if r.protection ≠ 0 then r.protection else oldProtection
  let writableBefore := r.everWritable || isWritable old
  let becameExecutable := !isExecutable old && isExecutable newProtection
  (if writableBefore && becameExecutable then
      [.writableToExecutable c.sourcePid c.pid r.start (r.stop-r.start) old newProtection
        c.remote]
    else [],
   { r with
      everWritable := writableBefore || isWritable newProtection
      protection := newProtection})

end ExecutableRegion

/-- The loop over the regions in an allocation: those that overlap the range are merged into
the new region, the others stay. -/
def coalesce (c : VmCall) (region : ExecutableRegion) :
    List ExecutableRegion → ExecutableRegion × List ExecutableRegion
  | [] => (region,[])
  | it :: rest =>
    if it.Touched c then coalesce c (region.absorb it) rest
    else
      let (region,kept) := coalesce c region rest
      (region,it :: kept)

def updateFirst (p : ExecutableRegion → Bool) (f : ExecutableRegion → ExecutableRegion) :
    List ExecutableRegion → List ExecutableRegion
  | [] => []
  | r :: rest => if p r then f r :: rest else r :: updateFirst p f rest

namespace ExecutableRegionMonitorState
variable (cfg : RegionConfig) (s : ExecutableRegionMonitorState)

def isTrustedThread (pid tid : UInt64) : Bool :=
  s.trustedThreads[pid]?.any (·.contains tid)

def trusts (pid tid : UInt64) : Bool :=
  !cfg.requireInstrumentationReady || s.isTrustedThread pid tid

def accepts (c : VmCall) : Bool :=
  let sourceArmed := s.armedPids.contains c.sourcePid
  let targetArmed := s.armedPids.contains c.pid
  ntSuccess c.status && c.base != 0 && c.size != 0 && (sourceArmed || targetArmed) &&
    (!c.remote || sourceArmed) && s.trusts cfg c.sourcePid c.tid

def onNtAllocateVirtualMemory (c : VmCall)
    (allocationType protection : UInt64) : List RegionEffect × ExecutableRegionMonitorState :=
  if s.accepts cfg c then
    let (region,kept) := coalesce c {
      pid := c.pid
      sourcePid := c.sourcePid
      start := c.base
      stop := c.stop
      allocationType := allocationType
      protection := protection
      everWritable := isWritable protection
      remote := c.remote} s.regions
    let kept := if kept.length ≥ cfg.maxRegions then kept.tail else kept
    ([.virtualAlloc c.sourcePid c.pid c.base c.size allocationType protection c.remote],
      {s with regions := kept ++ [region]})
  else ([],s)

def onNtProtectVirtualMemory (c : VmCall)
    (oldProtection newProtection : UInt64) : List RegionEffect × ExecutableRegionMonitorState :=
  if s.accepts cfg c then
    let matched := s.regions.filter fun r => r.Touched c
    let changed := oldProtection &&& 0xff != newProtection &&& 0xff
    let relevant := isExecutable oldProtection || isExecutable newProtection
    (matched.flatMap (fun r => (r.protect c oldProtection newProtection).1) ++
      (if !matched.isEmpty && changed && relevant then
        [.virtualProtect c.sourcePid c.pid c.base c.size oldProtection newProtection c.remote]
      else []),
     { s with regions := s.regions.map fun r =>
        if r.Touched c then (r.protect c oldProtection newProtection).2 else r})
  else ([],s)

def onNtFreeVirtualMemory (c : VmCall) : ExecutableRegionMonitorState :=
  if ntSuccess c.status && c.base != 0 && s.trusts cfg c.sourcePid c.tid then
    {s with regions := s.regions.filter fun r => ¬r.Dropped c}
  else s

def activate (pid tid pc : UInt64) (tracked : Bool)
    (module : Option (List UInt8)) : Option ExecutableRegionMonitorState :=
  if s.armedPids.contains pid then some s
  else if !tracked then none
  else match s.descendants[pid]? with
    | some descendant =>
      let injected := s.regions.any (·.isAt pid pc)
      if injected || module.any (lowerCase · == descendant.imageName) then
        some { s with
          armedPids := s.armedPids.insert pid
          trustedThreads := s.trustedThreads.insert pid ((s.trustedThreads.getD pid ∅).insert tid)}
      else none
    | none =>
      if cfg.requireInstrumentationReady && !s.readyPids.contains pid then none
      else if module = some cfg.moduleName then
        some {s with armedPids := s.armedPids.insert pid}
      else none

def markExecuted (module : Option (List UInt8)) (r : ExecutableRegion) : ExecutableRegion :=
  { r with
    executed := true
    dumped := r.dumped || (module.isNone && cfg.dumpOnExecute && cfg.maxDumpBytes != 0)}

def execute (pid pc : UInt64) (module : Option (List UInt8)) :
    List RegionEffect × ExecutableRegionMonitorState :=
  match s.regions.find? (·.isAt pid pc) with
  | none => ([],s)
  | some it =>
    if it.executed then ([],s)
    else
      (if module.isSome then []
        else [.executeAllocatedMemory it.sourcePid pid pc it.start (it.stop-it.start)
          it.protection it.remote],
       {s with regions := updateFirst (·.isAt pid pc) (markExecuted cfg module) s.regions})

def onBlockExecute (pid tid pc : UInt64) (tracked : Bool)
    (module : Option (List UInt8)) : List RegionEffect × ExecutableRegionMonitorState :=
  match s.activate cfg pid tid pc tracked module with
  | none => ([],s)
  | some s => if s.trusts cfg pid tid then s.execute cfg pid pc module else ([],s)

def onProcessLoad (pid parentPid : UInt64)
    (imageName : List UInt8) : List RegionEffect × ExecutableRegionMonitorState :=
  if !cfg.trackChildProcesses || pid == 0 || !s.armedPids.contains parentPid then ([],s)
  else
    let depth := match s.descendants[parentPid]? with
      | some parent => parent.depth+1
      | none => 1
    if depth > cfg.maxChildDepth then ([],s)
    else if !s.descendants.contains pid && s.descendants.size ≥ cfg.maxChildren then ([],s)
    else
      ([.childProcess parentPid pid (lowerCase imageName) depth], { s with
          descendants := s.descendants.insert pid ⟨parentPid,depth,lowerCase imageName⟩
          armedPids := s.armedPids.erase pid})

def onProcessUnload (pid : UInt64) : ExecutableRegionMonitorState where
  regions := s.regions.filter fun r => r.pid ≠ pid
  armedPids := s.armedPids.erase pid
  readyPids := s.readyPids.erase pid
  trustedThreads := s.trustedThreads.erase pid
  descendants := s.descendants.erase pid

def onThreadCreate (pid tid : UInt64) : ExecutableRegionMonitorState :=
  if !cfg.requireInstrumentationReady || pid == 0 || tid == 0 ||
      !(s.readyPids.contains pid || s.armedPids.contains pid) then s
  else { s with
    trustedThreads := s.trustedThreads.insert pid ((s.trustedThreads.getD pid ∅).insert tid)}

def onThreadExit (pid tid : UInt64) : ExecutableRegionMonitorState :=
  if !cfg.requireInstrumentationReady || pid == 0 || tid == 0 then s
  else match s.trustedThreads[pid]? with
    | none => s
    | some threads =>
      let threads := threads.erase tid
      { s with
        trustedThreads :=
          if threads.isEmpty then s.trustedThreads.erase pid
          else s.trustedThreads.insert pid threads}

def handleOpcodeInvocation
    (request : Option ExecutableRegionCommand) : ExecutableRegionMonitorState :=
  match request with
  | none => s
  | some c =>
    if c.magic != 0x4558524d || c.version != 1 || c.command != 1 || c.pid == 0 || c.tid == 0 then s
    else { s with
      readyPids := s.readyPids.insert c.pid
      trustedThreads :=
        s.trustedThreads.insert c.pid ((s.trustedThreads.getD c.pid ∅).insert c.tid)}

def step : RegionEvent → List RegionEffect × ExecutableRegionMonitorState
  | .allocate c allocationType protection =>
    s.onNtAllocateVirtualMemory cfg c allocationType protection
  | .protect c oldProtection newProtection =>
    s.onNtProtectVirtualMemory cfg c oldProtection newProtection
  | .free c => ([],s.onNtFreeVirtualMemory cfg c)
  | .block pid tid pc tracked module => s.onBlockExecute cfg pid tid pc tracked module
  | .processLoad pid parentPid imageName => s.onProcessLoad cfg pid parentPid imageName
  | .processUnload pid => ([],s.onProcessUnload pid)
  | .threadCreate pid tid => ([],s.onThreadCreate cfg pid tid)
  | .threadExit pid tid => ([],s.onThreadExit cfg pid tid)
  | .command request => ([],s.handleOpcodeInvocation request)

end ExecutableRegionMonitorState
end S2E
