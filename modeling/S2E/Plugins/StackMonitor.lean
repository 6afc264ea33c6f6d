import S2E.Lib.Runs

/-! `StackMonitor.cpp`: the frames of one stack, and the signals about them. -/

namespace S2E.StackMonitor
open List

structure StackFrame where
  pc : UInt64
  top : UInt64
  size : UInt64
  deriving DecidableEq

def StackFrame.bottom (f : StackFrame) : UInt64 := f.top-f.size

structure Stack where
  stackBound : UInt64
  frames : List StackFrame

inductive StackEffect where
  | create (bottom top : UInt64)
  | delete (oldBottom oldTop newBottom newTop : UInt64)
  | grow (oldBottom newBottom top : UInt64)
  | shrink (oldBottom newBottom top : UInt64)

inductive StackOp where
  | newFrame (pc sp : UInt64) (initialFrameSize : UInt32)
  | update (sp : UInt64)

namespace Stack
variable (pointerSize : UInt64)

def start (stackBound sp pc : UInt64) : Stack where
  stackBound := stackBound
  frames := [⟨pc,stackBound,stackBound-sp+pointerSize⟩]

variable (s : Stack)

def newFrame (pc sp : UInt64) (initialFrameSize : UInt32) : Option (List StackEffect × Stack) :=
  if ∀ last ∈ s.frames.head?, sp < last.top+last.size then
    let frame : StackFrame := ⟨pc,sp,initialFrameSize.toUInt64⟩
    some ([.create frame.bottom frame.top], {s with frames := frame :: s.frames})
  else none

def unwind (sp : UInt64) : List StackFrame → List StackEffect × List StackFrame
  | [] => ([],[])
  | last :: frames =>
    if sp > last.top then
      let (bottom,top) := match frames with
        | [] => (0,0)
        | last :: _ => (last.bottom,last.top)
      let (effects,kept) := unwind sp frames
      (.delete last.bottom last.top bottom top :: effects,kept)
    else ([],last :: frames)

def update (sp : UInt64) : Option (List StackEffect × Stack) :=
  if s.frames = [] then none
  else
    let stackBound := if sp ≥ s.stackBound then sp else s.stackBound
    let (effects,frames) := unwind sp s.frames
    match frames with
    | [] => some (effects,⟨stackBound,[]⟩)
    | last :: frames =>
      let newSize := last.top-sp+pointerSize
      let resized := if last.size = newSize then []
        else if newSize > last.size then [.grow last.bottom (last.top-newSize) last.top]
        else [.shrink last.bottom (last.top-newSize) last.top]
      some (effects ++ resized,⟨stackBound, {last with size := newSize} :: frames⟩)

def step (s : Stack) : StackOp → Option Stack
  | .newFrame pc sp size => (s.newFrame pc sp size).map Prod.snd
  | .update sp => (s.update pointerSize sp).map Prod.snd

def Sorted : Prop := s.frames.Pairwise fun f f' => f.top < f'.top

def Below : StackOp → Prop
  | .newFrame _ sp _ => ∀ last ∈ s.frames.head?, sp < last.top
  | .update _ => True

end Stack

def StackEffect.deleted : StackEffect → Option (UInt64 × UInt64)
  | .delete bottom top _ _ => some (bottom,top)
  | _ => none

open Stack

def Stack.Unwound (pointerSize sp : UInt64) (s : Stack) (out : List StackEffect × Stack) : Prop :=
  out.2.frames = (s.frames.filter fun f => ¬f.top < sp).modifyHead
      (fun last => {last with size := last.top-sp+pointerSize}) ∧
    out.1.filterMap StackEffect.deleted =
      (s.frames.filter (·.top < sp)).map fun f => (f.bottom,f.top)

variable {pointerSize sp : UInt64} {s s' : Stack} {l : List StackFrame}

lemma unwind_spec (sp : UInt64) (h : l.Pairwise fun f f' => f.top < f'.top) :
    (unwind sp l).2 = l.filter (fun f => ¬f.top < sp) ∧
      (unwind sp l).1.filterMap StackEffect.deleted =
        (l.filter (·.top < sp)).map fun f => (f.bottom,f.top) := by
  induction l with
  | nil => exact ⟨rfl,rfl⟩
  | cons last frames ih =>
    obtain ⟨hlast,hframes⟩ := pairwise_cons.mp h
    obtain ⟨hkept,hdeleted⟩ := ih hframes
    by_cases hsp : last.top < sp
    · simp [unwind,hsp,hkept,hdeleted,StackEffect.deleted]
    · have habove : ∀ f ∈ frames, ¬f.top < sp := fun f hf => by
        have := hlast f hf
        grind
      simp only [unwind,gt_iff_lt,hsp,if_false]
      refine ⟨(filter_eq_self.mpr fun f hf => ?_).symm,?_⟩
      · rcases mem_cons.mp hf with rfl | hf
        · exact decide_eq_true hsp
        · exact decide_eq_true (habove f hf)
      · rw [filter_eq_nil_iff.mpr fun f hf => ?_]
        · rfl
        · rcases mem_cons.mp hf with rfl | hf
          · simpa using hsp
          · simpa using habove f hf

lemma update_frames (h : s.Sorted) {out : List StackEffect × Stack}
    (hout : s.update pointerSize sp = some out) : s.Unwound pointerSize sp out := by
  obtain ⟨hkept,hdeleted⟩ := unwind_spec sp h
  rw [Unwound,← hkept,← hdeleted]
  simp only [update] at hout
  split at hout
  · cases hout
  split at hout
  next hframes =>
    cases hout
    simp [hframes]
  next last frames hframes =>
    cases hout
    refine ⟨by simp [hframes],?_⟩
    rw [filterMap_append]
    split
    · simp
    · split <;> simp [StackEffect.deleted]

lemma step_sorted {op : StackOp} (h : s.Sorted) (hop : s.Below op)
    (hs : s.step pointerSize op = some s') : s'.Sorted := by
  cases op with
  | newFrame pc sp size =>
    obtain ⟨out,hout,rfl⟩ := Option.map_eq_some_iff.mp hs
    obtain ⟨-,hout⟩ := Option.ite_none_right_eq_some.mp hout
    cases hout
    refine pairwise_cons.mpr ⟨fun f hf => ?_,h⟩
    cases hframes : s.frames with
    | nil => simp [hframes] at hf
    | cons last frames =>
      have hlast : sp < last.top := hop last (by simp [hframes])
      rw [Sorted,hframes,pairwise_cons] at h
      rcases mem_cons.mp (hframes ▸ hf) with rfl | hf
      · exact hlast
      · exact UInt64.lt_trans hlast (h.1 f hf)
  | update sp =>
    obtain ⟨out,hout,rfl⟩ := Option.map_eq_some_iff.mp hs
    rw [Sorted,(update_frames h hout).1]
    have hkept := h.filter fun f => ¬f.top < sp
    generalize s.frames.filter _ = l at hkept
    cases l with
    | nil => exact .nil
    | cons last frames => simpa using hkept

/-- When every new frame starts below the last one, the frames are sorted, and are unwound right. -/
theorem frames_sorted_unwound (h : Runs.Reached (step pointerSize) Below
      (fun s => ∃ bound sp pc, s = start pointerSize bound sp pc) s) :
    s.Sorted ∧ ∀ sp, ∀ out ∈ s.update pointerSize sp, s.Unwound pointerSize sp out := by
  have hsorted : s.Sorted := h.invariant (fun ⟨_,_,_,hs⟩ => hs ▸ pairwise_singleton _ _)
    fun h hop hs => step_sorted h hop hs
  exact ⟨hsorted,fun _ _ hout => update_frames hsorted hout⟩

theorem frames_sorted_unwound_one : ∃ s, (start 8 0x8000 0x7000 0).step 8
    (.newFrame 0 0x6ff8 8) = some s ∧ s.Sorted := by
  have hstep : Below (start 8 0x8000 0x7000 0) (.newFrame 0 0x6ff8 8) := by
    simp only [Below,start]
    decide
  exact ⟨_,rfl,(frames_sorted_unwound (.step (.start ⟨_,_,_,rfl⟩) hstep rfl)).1⟩

/-- A frame above the last one is accepted, and an update then misses the frames that it hides. -/
theorem frames_out_of_order : ∃ s ∈ (start 8 0x8000 0x7000 0).step 8 (.newFrame 0 0x8800 8),
    ¬s.Sorted ∧ ∃ out ∈ s.update 8 0x8400, out.1.filterMap StackEffect.deleted = [] ∧
      s.frames.any (·.top < 0x8400) := by
  refine ⟨_,rfl,?_,_,rfl,?_⟩
  · simp [Sorted,start]
  · decide

end S2E.StackMonitor
