import Mathlib

/-!
`ControlFlowGraph.cpp`: the basic blocks of a module, which addresses lead to which, and where
a chain of jumps ends.
-/

namespace S2E
open List Relation

structure BasicBlock where
  startPc : UInt64
  size : UInt32
  successors : List UInt64 := []
  deriving DecidableEq

namespace BasicBlock
variable (bb bb' : BasicBlock)

def stop : UInt64 := bb.startPc+bb.size.toUInt64

def Less : Prop := bb.stop ≤ bb'.startPc

def Contains (pc : UInt64) : Prop := bb.startPc ≤ pc ∧ pc < bb.stop

instance : Decidable (bb.Less bb') := inferInstanceAs (Decidable (_ ≤ _))

instance (pc : UInt64) : Decidable (bb.Contains pc) := inferInstanceAs (Decidable (_ ∧ _))

end BasicBlock

structure BasicBlocks where
  blocks : List BasicBlock
  apart : blocks.Pairwise fun bb bb' => bb.Less bb' ∨ bb'.Less bb

namespace BasicBlocks
variable (bbs : BasicBlocks)

def findBasicBlock (pc : UInt64) : Option BasicBlock :=
  let toFind : BasicBlock := {startPc := pc, size := 1}
  bbs.blocks.find? fun bb => ¬bb.Less toFind ∧ ¬toFind.Less bb

/-- The loop of `isReachable` over the stack and the visited addresses. Without a value inside,
it returns false. -/
def search (dest : UInt64) : Nat → List UInt64 → List UInt64 → Option (Option Bool)
  | 0, _, _ => none
  | _+1, [], _ => some (some false)
  | n+1, pc :: stk, visited =>
    match bbs.findBasicBlock pc with
    | none => some none
    | some bb =>
      if bb.Contains dest then some (some true)
      else if pc ∈ visited then search dest n stk visited
      else search dest n (bb.successors.reverse ++ stk) (pc :: visited)

def isReachable (n : Nat) (source dest : UInt64) : Option (Option Bool) :=
  bbs.search dest n [source] []

inductive ChainEnd where
  | returned (result : Option UInt64)
  | nullDereference
  deriving DecidableEq

def followChain (savedStart : UInt64) : Nat → UInt64 → Option ChainEnd
  | 0, _ => none
  | n+1, start =>
    match bbs.findBasicBlock start with
    | none => some .nullDereference
    | some bb =>
      match bb.successors with
      | [next] => if next = savedStart then some (.returned none) else followChain savedStart n next
      | _ => some (.returned (some bb.startPc))

def getFinalSuccessor (n : Nat) (start : UInt64) : Option ChainEnd :=
  bbs.followChain start n start

def Jump (pc pc' : UInt64) : Prop :=
  ∃ bb ∈ bbs.blocks, bb.Contains pc ∧ pc' ∈ bb.successors

def Path (source dest : UInt64) : Prop :=
  ∃ pc, ReflTransGen bbs.Jump source pc ∧ ∃ bb ∈ bbs.blocks, bb.Contains pc ∧ bb.Contains dest

def Right (source dest : UInt64) : Option Bool → Prop
  | some true => bbs.Path source dest
  | some false => ¬bbs.Path source dest
  | none => ∃ pc, ReflTransGen bbs.Jump source pc ∧ ∀ bb ∈ bbs.blocks, ¬bb.Contains pc

def Next (pc pc' : UInt64) : Prop :=
  ∃ bb ∈ bbs.blocks, bb.Contains pc ∧ bb.successors = [pc']

def Final (start : UInt64) (bb : BasicBlock) : Prop :=
  ∃ pc, ReflTransGen bbs.Next start pc ∧ bb ∈ bbs.blocks ∧ bb.Contains pc ∧
    bb.successors.length ≠ 1

def RightEnd (start : UInt64) : Option UInt64 → Prop
  | some pc => ∃ bb, bbs.Final start bb ∧ bb.startPc = pc
  | none => ∀ bb, ¬bbs.Final start bb

variable {bbs} {bb bb' : BasicBlock} {pc dest source : UInt64}

lemma equivalent_iff : (¬bb.Less {startPc := pc, size := 1} ∧
    ¬BasicBlock.Less {startPc := pc, size := 1} bb) ↔ bb.Contains pc := by
  have hone : (1 : UInt32).toUInt64.toNat = 1 := rfl
  have hpc := pc.toNat_lt
  simp only [BasicBlock.Less,BasicBlock.Contains,BasicBlock.stop,UInt64.le_iff_toNat_le,
    UInt64.lt_iff_toNat_lt,UInt64.toNat_add,hone]
  omega

lemma contains_unique (hbb : bb ∈ bbs.blocks) (hbb' : bb' ∈ bbs.blocks) (h : bb.Contains pc)
    (h' : bb'.Contains pc) : bb = bb' := by
  have : Std.Symm fun bb bb' : BasicBlock => bb.Less bb' ∨ bb'.Less bb := ⟨fun _ _ => Or.symm⟩
  by_contra hne
  have hless := bbs.apart.forall hbb hbb' hne
  unfold BasicBlock.Less BasicBlock.Contains at *
  grind

lemma findBasicBlock_eq_some :
    bbs.findBasicBlock pc = some bb ↔ bb ∈ bbs.blocks ∧ bb.Contains pc := by
  simp only [findBasicBlock,equivalent_iff]
  constructor
  · intro h
    exact ⟨mem_of_find?_eq_some h,by simpa using find?_some h⟩
  · rintro ⟨hbb,h⟩
    cases hfind : bbs.blocks.find? fun bb => decide (bb.Contains pc) with
    | none => simpa [h] using find?_eq_none.mp hfind bb hbb
    | some bb' =>
      have h' : bb'.Contains pc := by simpa using find?_some hfind
      rw [contains_unique (mem_of_find?_eq_some hfind) hbb h' h]

lemma findBasicBlock_eq_none :
    bbs.findBasicBlock pc = none ↔ ∀ bb ∈ bbs.blocks, ¬bb.Contains pc := by
  simp [findBasicBlock,equivalent_iff]

def targets (bbs : BasicBlocks) (source : UInt64) : List UInt64 :=
  source :: bbs.blocks.flatMap BasicBlock.successors

def work (bbs : BasicBlocks) (source : UInt64) (stk visited : List UInt64) : Nat :=
  ((bbs.targets source).toFinset \ visited.toFinset).card*((bbs.targets source).length+1) +
    stk.length

structure Searched (bbs : BasicBlocks) (source dest : UInt64) (stk visited : List UInt64) :
    Prop where
  source_mem : source ∈ visited ∨ source ∈ stk
  reached : ∀ pc ∈ stk, ReflTransGen bbs.Jump source pc ∧ pc ∈ bbs.targets source
  closed : ∀ pc ∈ visited, ∃ bb ∈ bbs.blocks, bb.Contains pc ∧ ¬bb.Contains dest ∧
    ∀ pc' ∈ bb.successors, pc' ∈ visited ∨ pc' ∈ stk

namespace Searched
variable {stk visited : List UInt64}

lemma no_path (h : Searched bbs source dest [] visited) : ¬bbs.Path source dest := by
  have hvisited : ∀ pc, ReflTransGen bbs.Jump source pc → pc ∈ visited := by
    intro pc hpath
    induction hpath with
    | refl => simpa using h.source_mem
    | tail _ hjump ih =>
      obtain ⟨bb,hbb,hpc,hnext⟩ := hjump
      obtain ⟨bb',hbb',hpc',-,hclosed⟩ := h.closed _ ih
      rw [contains_unique hbb hbb' hpc hpc'] at hnext
      simpa using hclosed _ hnext
  rintro ⟨pc,hpath,bb,hbb,hpc,hdest⟩
  obtain ⟨bb',hbb',hpc',hno,-⟩ := h.closed pc (hvisited pc hpath)
  exact hno (contains_unique hbb hbb' hpc hpc' ▸ hdest)

lemma skip (h : Searched bbs source dest (pc :: stk) visited) (hpc : pc ∈ visited) :
    Searched bbs source dest stk visited := by
  refine ⟨?_,fun x hx => h.reached x (mem_cons_of_mem _ hx),fun x hx => ?_⟩
  · have := h.source_mem
    grind
  · obtain ⟨bb,hbb,hx,hdest,hclosed⟩ := h.closed x hx
    exact ⟨bb,hbb,hx,hdest,by grind⟩

lemma visit (h : Searched bbs source dest (pc :: stk) visited) (hbb : bb ∈ bbs.blocks)
    (hpc : bb.Contains pc) (hdest : ¬bb.Contains dest) :
    Searched bbs source dest (bb.successors.reverse ++ stk) (pc :: visited) := by
  refine ⟨?_,fun x hx => ?_,fun x hx => ?_⟩
  · have := h.source_mem
    grind
  · rcases mem_append.mp hx with hx | hx
    · have hx := mem_reverse.mp hx
      have hmem := mem_cons_of_mem source (mem_flatMap.mpr ⟨bb,hbb,hx⟩)
      exact ⟨(h.reached pc mem_cons_self).1.tail ⟨bb,hbb,hpc,hx⟩,hmem⟩
    · exact h.reached x (mem_cons_of_mem _ hx)
  · rcases mem_cons.mp hx with rfl | hx
    · exact ⟨bb,hbb,hpc,hdest,by simp +contextual⟩
    · obtain ⟨bb',hbb',hx,hdest',hclosed⟩ := h.closed x hx
      exact ⟨bb',hbb',hx,hdest',by grind⟩

lemma work_visit (h : Searched bbs source dest (pc :: stk) visited) (hbb : bb ∈ bbs.blocks)
    (hpc : pc ∉ visited) : bbs.work source (bb.successors.reverse ++ stk) (pc :: visited) <
      bbs.work source (pc :: stk) visited := by
  have hlen : bb.successors.length ≤ (bbs.targets source).length := by
    have := (sublist_flatten_of_mem (mem_map_of_mem (f := BasicBlock.successors) hbb)).length_le
    simp only [targets,length_cons,flatMap]
    omega
  have hmem : pc ∈ (bbs.targets source).toFinset \ visited.toFinset := by
    simp [(h.reached pc mem_cons_self).2,hpc]
  have hcard := Finset.card_erase_of_mem hmem
  have hpos := Finset.card_pos.mpr ⟨pc,hmem⟩
  simp only [work,toFinset_cons,Finset.sdiff_insert,hcard,length_append,length_reverse,length_cons]
  obtain ⟨k,hk⟩ := Nat.exists_eq_add_of_lt hpos
  rw [hk]
  simp only [Nat.zero_add,Nat.add_sub_cancel,Nat.succ_mul]
  omega

end Searched

lemma search_right {stk visited : List UInt64} {n : Nat}
    (h : Searched bbs source dest stk visited) (hn : bbs.work source stk visited < n) :
    ∃ r, bbs.search dest n stk visited = some r ∧ bbs.Right source dest r := by
  induction n generalizing stk visited with
  | zero => omega
  | succ n ih =>
    cases stk with
    | nil => exact ⟨some false,rfl,h.no_path⟩
    | cons pc stk =>
      have hreach := (h.reached pc mem_cons_self).1
      cases hfind : bbs.findBasicBlock pc with
      | none => exact ⟨none,by rw [search,hfind],pc,hreach,findBasicBlock_eq_none.mp hfind⟩
      | some bb =>
        obtain ⟨hbb,hpc⟩ := findBasicBlock_eq_some.mp hfind
        by_cases hdest : bb.Contains dest
        · exact ⟨some true,by simp [search,hfind,hdest],pc,hreach,bb,hbb,hpc,hdest⟩
        by_cases hvisited : pc ∈ visited
        · have hwork : bbs.work source stk visited < n := by
            simp only [work,length_cons] at hn ⊢
            omega
          obtain ⟨r,hr,hright⟩ := ih (h.skip hvisited) hwork
          exact ⟨r,by simpa [search,hfind,hdest,hvisited] using hr,hright⟩
        · have hwork := h.work_visit hbb hvisited
          obtain ⟨r,hr,hright⟩ := ih (h.visit hbb hpc hdest) (by omega)
          exact ⟨r,by simpa [search,hfind,hdest,hvisited] using hr,hright⟩

variable {start next next' : UInt64}

lemma Next.unique (h : bbs.Next pc next) (h' : bbs.Next pc next') : next = next' := by
  obtain ⟨bb,hbb,hpc,ha⟩ := h
  obtain ⟨bb',hbb',hpc',hb⟩ := h'
  rw [contains_unique hbb hbb' hpc hpc',hb] at ha
  exact (cons.inj ha).1.symm

lemma no_final (h : TransGen bbs.Next start start) (bb : BasicBlock) : ¬bbs.Final start bb := by
  have hback : ∀ pc, ReflTransGen bbs.Next start pc → TransGen bbs.Next pc start := by
    intro pc hpath
    induction hpath with
    | refl => exact h
    | tail _ hnext ih =>
      obtain ⟨next,hnext',hrest⟩ := TransGen.head'_iff.mp ih
      obtain rfl := hnext.unique hnext'
      exact (reflTransGen_iff_eq_or_transGen.mp hrest).elim (· ▸ h) id
  rintro ⟨pc,hpath,hbb,hpc,hlen⟩
  obtain ⟨next,⟨bb',hbb',hpc',hsucc⟩,-⟩ := TransGen.head'_iff.mp (hback pc hpath)
  rw [contains_unique hbb hbb' hpc hpc',hsucc] at hlen
  exact hlen rfl

lemma followChain_next (hnext : bbs.Next pc next) (n : Nat) : bbs.followChain start (n+1) pc =
    if next = start then some (.returned none) else bbs.followChain start n next := by
  obtain ⟨bb,hbb,hpc,hsucc⟩ := hnext
  simp only [followChain,findBasicBlock_eq_some.mpr ⟨hbb,hpc⟩,hsucc]

lemma followChain_final (h : bbs.Final start bb) :
    ∃ n, bbs.getFinalSuccessor n start = some (.returned (some bb.startPc)) := by
  obtain ⟨pc,hpath,hbb,hpc,hlen⟩ := h
  have hloop : ∀ x, ReflTransGen bbs.Next start x → ReflTransGen bbs.Next x pc →
      ∃ n, bbs.followChain start n x = some (.returned (some bb.startPc)) := by
    intro x hx hpath
    induction hpath using ReflTransGen.head_induction_on with
    | refl =>
      refine ⟨1,?_⟩
      simp only [followChain,findBasicBlock_eq_some.mpr ⟨hbb,hpc⟩]
      grind
    | head hnext hrest ih =>
      obtain ⟨n,hn⟩ := ih (hx.tail hnext)
      refine ⟨n+1,?_⟩
      rw [followChain_next hnext,if_neg,hn]
      rintro rfl
      exact no_final (.tail' hx hnext) bb ⟨pc,hrest,hbb,hpc,hlen⟩
  exact hloop start .refl hpath

lemma followChain_cycle (h : TransGen bbs.Next pc start) :
    ∃ n, bbs.followChain start n pc = some (.returned none) := by
  induction h using TransGen.head_induction_on with
  | single hnext => exact ⟨1,by rw [followChain_next hnext,if_pos rfl]⟩
  | head hnext _ ih =>
    obtain ⟨n,hn⟩ := ih
    refine ⟨n+1,?_⟩
    rw [followChain_next hnext,hn,ite_self]

lemma cycle_of_returned {n : Nat} (hpath : ReflTransGen bbs.Next start pc)
    (h : bbs.followChain start n pc = some (.returned none)) : TransGen bbs.Next start start := by
  induction n generalizing pc with
  | zero => cases h
  | succ n ih =>
    rw [followChain] at h
    split at h
    · cases h
    next bb hfind =>
      obtain ⟨hbb,hpc⟩ := findBasicBlock_eq_some.mp hfind
      split at h
      next next hsucc =>
        have hnext : bbs.Next pc next := ⟨bb,hbb,hpc,hsucc⟩
        split at h
        next heq => exact .tail' hpath (heq ▸ hnext)
        · exact ih (hpath.tail hnext) h
      · cases h

def twoBlocks (last : UInt64) : BasicBlocks where
  blocks := [⟨0x1000,16,[0x2000]⟩,⟨0x2000,16,[last]⟩]
  apart := pairwise_pair.mpr (.inl (by decide : (0x1000 : UInt64)+16 ≤ 0x2000))

end BasicBlocks
end S2E
