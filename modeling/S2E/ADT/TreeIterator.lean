import S2E.ADT.TreeNodes

/-!
The iterator of `ImmutableTree.h`: the path from the root to a node, on a stack with as many
places as the root is high. Both directions of a walk are treated at once.
-/

namespace S2E
open List Prod

structure FixedStack where
  max : Nat
  elts : List NodePtr
deriving DecidableEq

def FixedStack.pushBack (s : FixedStack) (a : NodePtr) : Option FixedStack :=
  if s.elts.length < s.max then some ⟨s.max,a :: s.elts⟩ else none

inductive Side where
  | left
  | right
deriving DecidableEq

def Side.flip : Side → Side
  | .left => .right
  | .right => .left

def Side.pick {α : Type} (l r : α) : Side → α
  | .left => l
  | .right => r

def Node.child {V : Type} (n : Node V) (side : Side) : NodePtr := side.pick n.left n.right

structure Iterator where
  root : NodePtr
  stack : FixedStack
deriving DecidableEq

namespace Nodes
variable {V : Type} (m : Nodes V)

def descend (side : Side) : Nat → NodePtr → FixedStack → Option FixedStack
  | 0, _, _ => none
  | fuel+1, a, stack =>
    if a = 0 then some stack
    else do
      let stack ← stack.pushBack a
      let n ← node? m a
      descend side fuel (n.child side) stack

def climb (side : Side) : NodePtr → List NodePtr → Option (List NodePtr)
  | _, [] => some []
  | prev, a :: s => do
    let n ← node? m a
    if prev = n.child side then some (a :: s) else climb side a s

def advance (side : Side) (it : Iterator) : Option Iterator :=
  match it.stack.elts with
  | [] => none
  | a :: s => do
    let n ← node? m a
    if n.child side = 0 then
      let s ← climb m side.flip a s
      pure {it with stack := ⟨it.stack.max,s⟩}
    else
      let stack ← it.stack.pushBack (n.child side)
      let c ← node? m (n.child side)
      let stack ← descend m side.flip (it.stack.max+1) (c.child side.flip) stack
      pure {it with stack := stack}

def beginIter (root : NodePtr) : Option Iterator := do
  let h ← height? m root
  let stack ← descend m .left (h.toNat+1) root ⟨h.toNat,[]⟩
  pure ⟨root,stack⟩

def endIter (root : NodePtr) : Option Iterator := do
  let h ← height? m root
  pure ⟨root,⟨h.toNat,[]⟩⟩

def increment (it : Iterator) : Option Iterator := advance m .right it

def decrement (it : Iterator) : Option Iterator :=
  if it.stack.elts = [] then do
    let stack ← descend m .right (it.stack.max+1) it.root it.stack
    pure {it with stack := stack}
  else advance m .left it

def deref (it : Iterator) : Option V := do
  let a ← it.stack.elts.head?
  let n ← node? m a
  pure n.value

variable {K : Type} (kov : V → K) (lt : K → K → Bool)

def lowerBoundFrom (k : K) : Nat → NodePtr → FixedStack → Option (Bool × FixedStack)
  | 0, _, _ => none
  | fuel+1, a, stack =>
    if a = 0 then some (false,stack)
    else do
      let stack ← stack.pushBack a
      let n ← node? m a
      if lt k (kov n.value) then lowerBoundFrom k fuel n.left stack
      else if lt (kov n.value) k then lowerBoundFrom k fuel n.right stack
      else some (true,stack)

def lowerBound (k : K) (root : NodePtr) : Option Iterator := do
  let it ← endIter m root
  let (found,stack) ← lowerBoundFrom m kov lt k (it.stack.max+1) root it.stack
  let it := {it with stack := stack}
  if found then pure it
  else
    match stack.elts with
    | [] => pure it
    | a :: _ => do
      let last ← node? m a
      if lt (kov last.value) k then increment m it else pure it

def find (k : K) (root : NodePtr) : Option Iterator := do
  let fin ← endIter m root
  let it ← lowerBound m kov lt k root
  if it.stack.elts = fin.stack.elts then pure fin
  else do
    let v ← deref m it
    if lt k (kov v) then pure fin else pure it

def upperBound (k : K) (root : NodePtr) : Option Iterator := do
  let fin ← endIter m root
  let it ← lowerBound m kov lt k root
  if it.stack.elts = fin.stack.elts then pure it
  else do
    let v ← deref m it
    if lt k (kov v) then pure it else increment m it

end Nodes

namespace ImmutableTree
variable {E : Type}

def walk (side : Side) : ImmutableTree E → List E
  | .terminator => []
  | .node l e r =>
    match side with
    | .left => r.walk .left ++ e :: l.walk .left
    | .right => l.walk .right ++ e :: r.walk .right

variable (side : Side)

@[simp]
lemma walk_node (l r : ImmutableTree E) (e : E) : walk side (.node l e r) =
      walk side (side.flip.pick l r) ++ e :: walk side (side.pick l r) := by
  cases side <;> rfl

lemma walk_right (t : ImmutableTree E) : walk .right t = t.toList := by
  induction t with
  | terminator => rfl
  | node l e r ihl ihr => simp only [walk,toList,ihl,ihr]

lemma walk_left (t : ImmutableTree E) : walk .left t = t.toList.reverse := by
  induction t with
  | terminator => rfl
  | node l e r ihl ihr =>
    simp only [walk,toList,ihl,ihr,reverse_append,reverse_cons]
    simp

lemma length_walk (t : ImmutableTree E) : (walk side t).length = t.toList.length := by
  cases side with
  | left => simp [walk_left]
  | right => rw [walk_right]

lemma nodup_walk {t : ImmutableTree E} (h : t.toList.Nodup) : (walk side t).Nodup := by
  cases side with
  | left =>
    rw [walk_left]
    exact nodup_reverse.mpr h
  | right =>
    rw [walk_right]
    exact h

lemma length_node (l r : ImmutableTree E) (e : E) : (node l e r).toList.length =
      (side.flip.pick l r).toList.length+1+(side.pick l r).toList.length := by
  rw [← length_walk side,walk_node,length_append,length_cons,length_walk,length_walk]
  omega

lemma height_pick_lt (l r : ImmutableTree E) (e : E) :
    (side.pick l r).height+1 ≤ (node l e r).height := by
  cases side <;> simp only [Side.pick,height] <;> omega

end ImmutableTree

variable {p : Nat} {it : Iterator}

namespace Nodes
open ImmutableTree

variable {V K : Type} (kov : V → K) (m : Nodes V) (side : Side)

/-- The stack leads from the root to the pointer, a walk towards the side passes the stated
entries before it comes to the tree there. -/
inductive Leads (root : NodePtr) (t : ImmutableTree (K × V)) :
    List NodePtr → NodePtr → ImmutableTree (K × V) → List (K × V) → Prop where
  | root : Leads root t [] root t []
  | near {s : List NodePtr} {a : NodePtr} {n : Node V} {l r : ImmutableTree (K × V)} {e : K × V}
      {pre : List (K × V)} (h : Leads root t s a (.node l e r) pre) (hn : node? m a = some n) :
      Leads root t (a :: s) (n.child side.flip) (side.flip.pick l r) pre
  | far {s : List NodePtr} {a : NodePtr} {n : Node V} {l r : ImmutableTree (K × V)} {e : K × V}
      {pre : List (K × V)} (h : Leads root t s a (.node l e r) pre) (hn : node? m a = some n) :
      Leads root t (a :: s) (n.child side) (side.pick l r)
        (pre ++ walk side (side.flip.pick l r) ++ [e])

inductive At (root : NodePtr) (t : ImmutableTree (K × V)) : List NodePtr → Nat → Prop where
  | fin : At root t [] t.toList.length
  | node {s : List NodePtr} {a : NodePtr} {l r : ImmutableTree (K × V)} {e : K × V}
      {pre : List (K × V)} (h : Leads m side root t s a (.node l e r) pre) :
      At root t (a :: s) (pre.length+(side.flip.pick l r).toList.length)

variable {kov m side} {root a : NodePtr} {t sub l r : ImmutableTree (K × V)} {e : K × V}
  {s : List NodePtr} {pre : List (K × V)} {n : Node V}

lemma Holds.child (h : Holds kov m a (.node l e r)) (hn : node? m a = some n) (side : Side) :
    Holds kov m (n.child side) (side.pick l r) := by
  obtain ⟨n',hn',-,-,hl,hr⟩ := h
  cases hn.symm.trans hn'
  cases side with
  | left => exact hl
  | right => exact hr

section
variable (h : Leads m side root t s a sub pre)
include h

lemma Leads.holds (hroot : Holds kov m root t) : Holds kov m a sub := by
  induction h with
  | root => exact hroot
  | near _ hn ih => exact ih.child hn _
  | far _ hn ih => exact ih.child hn _

lemma Leads.depth : s.length+sub.height ≤ t.height := by
  induction h with
  | root => simp
  | @near _ _ _ l r e _ _ _ ih =>
    have hlt := height_pick_lt side.flip l r e
    simp only [length_cons]
    omega
  | @far _ _ _ l r e _ _ _ ih =>
    have hlt := height_pick_lt side l r e
    simp only [length_cons]
    omega

lemma Leads.walk : ∃ post, walk side t = pre ++ walk side sub ++ post := by
  induction h with
  | root => exact ⟨[],by simp⟩
  | near _ _ ih =>
    obtain ⟨post,ih⟩ := ih
    exact ⟨_,by rw [ih,walk_node]; simp; rfl⟩
  | far _ _ ih =>
    obtain ⟨post,ih⟩ := ih
    exact ⟨post,by rw [ih,walk_node]; simp⟩

lemma Leads.flip : ∃ pre', Leads m side.flip root t s a sub pre' ∧
      pre.length+sub.toList.length+pre'.length = t.toList.length := by
  induction h with
  | root => exact ⟨[],.root,by simp⟩
  | @near _ _ _ l r e _ _ hn ih =>
    obtain ⟨pre',h',hlen⟩ := ih
    refine ⟨_,h'.far hn,?_⟩
    rw [length_node side] at hlen
    cases side <;> simp [Side.flip,Side.pick,length_walk] at hlen ⊢ <;> omega
  | @far _ _ _ l r e _ _ hn ih =>
    obtain ⟨pre',h',hlen⟩ := ih
    have hnear := h'.near hn
    rw [length_node side] at hlen
    cases side <;> refine ⟨pre',hnear,?_⟩ <;>
      simp [Side.flip,Side.pick,length_walk] at hlen ⊢ <;> omega

end

lemma At.flip (h : At m side root t s p) (hp : p < t.toList.length) :
    At m side.flip root t s (t.toList.length-1-p) := by
  cases h with
  | fin => exact absurd hp (Nat.lt_irrefl _)
  | @node _ _ l r e pre h =>
    obtain ⟨pre',h',hlen⟩ := h.flip
    have hat := At.node h'
    rw [length_node side] at hlen
    have hpos : pre'.length+(side.flip.flip.pick l r).toList.length =
        t.toList.length-1-(pre.length+(side.flip.pick l r).toList.length) := by
      cases side <;> simp only [Side.flip] at hlen ⊢ <;> omega
    rwa [hpos] at hat

lemma Leads.child_ne (h : Leads m side root t s a (.node l e r) pre)
    (hroot : Holds kov m root t) (hnodup : t.toList.Nodup) (hn : node? m a = some n)
    (hfar : n.child side ≠ 0) : n.child side ≠ n.child side.flip := by
  intro heq
  have hholds := h.holds hroot
  have hside := hholds.child hn side
  have hother := hholds.child hn side.flip
  rw [← heq] at hother
  have hsame := hside.unique hother
  obtain ⟨post,hwalk⟩ := h.walk
  have hnd := nodup_walk side hnodup
  rw [hwalk,walk_node,← hsame] at hnd
  have hnd := (nodup_append.mp (nodup_append.mp hnd).1).2.1
  cases hsub : side.pick l r with
  | terminator => exact hfar (hside.eq_zero_iff.mpr hsub)
  | node l' e' r' =>
    rw [hsub] at hnd
    have hmem : e' ∈ ImmutableTree.walk side (.node l' e' r') := by simp
    exact (nodup_append.mp hnd).2.2 e' hmem e' (mem_cons_of_mem _ hmem) rfl

lemma climb_spec (h : Leads m side root t s a sub pre) (hroot : Holds kov m root t)
    (hnodup : t.toList.Nodup) (ha : a ≠ 0) : ∃ s', climb m side.flip a s = some s' ∧
      At m side root t s' (pre.length+sub.toList.length) := by
  induction h with
  | root => exact ⟨[],rfl,by simpa using At.fin⟩
  | near h hn _ =>
    refine ⟨_,?_,At.node h⟩
    simp [climb,hn]
  | @far s b n l r e pre h hn ih =>
    have hne := h.child_ne hroot hnodup hn ha
    obtain ⟨s',hs',hat⟩ := ih (h.holds hroot).ne_zero
    refine ⟨s',?_,?_⟩
    · simp [climb,hn,hne,hs']
    · rw [length_node side] at hat
      simp only [length_append,length_cons,length_nil,length_walk]
      have heq : pre.length+(side.flip.pick l r).toList.length+(0+1) +
          (side.pick l r).toList.length = pre.length +
          ((side.flip.pick l r).toList.length+1+(side.pick l r).toList.length) := by omega
      rw [heq]
      exact hat

lemma descend_spec (fuel : Nat) (stack : FixedStack)
    (h : Leads m side root t stack.elts a sub pre) (hroot : Holds kov m root t)
    (hmax : stack.max = t.height) (hfuel : sub.height < fuel) (hsub : sub ≠ .terminator) :
    ∃ stack', descend m side.flip fuel a stack = some stack' ∧ stack'.max = stack.max ∧
      At m side root t stack'.elts pre.length := by
  induction fuel generalizing sub a stack with
  | zero => exact absurd hfuel (Nat.not_lt_zero _)
  | succ fuel ih =>
    cases sub with
    | terminator => exact absurd rfl hsub
    | node l e r =>
      have hholds := h.holds hroot
      have hdepth := h.depth
      have hlt := height_pick_lt side.flip l r e
      obtain ⟨n,hn,-⟩ := id hholds
      have hpush : stack.pushBack a = some ⟨stack.max,a :: stack.elts⟩ := by
        rw [FixedStack.pushBack,if_pos (by omega)]
      have hdesc : descend m side.flip (fuel+1) a stack =
          descend m side.flip fuel (n.child side.flip) ⟨stack.max,a :: stack.elts⟩ := by
        simp [descend,hholds.ne_zero,hpush,hn]
      rw [hdesc]
      have hnear := h.near hn
      by_cases hterm : side.flip.pick l r = .terminator
      · refine ⟨⟨stack.max,a :: stack.elts⟩,?_,rfl,?_⟩
        · have hzero := (hnear.holds hroot).eq_zero_iff.mpr hterm
          obtain _ | fuel := fuel
          · omega
          rw [descend,if_pos hzero]
        · have hat := At.node h
          rw [hterm] at hat
          exact hat
      · exact ih ⟨stack.max,a :: stack.elts⟩ hnear hmax (by omega) hterm

structure Points (m : Nodes V) (side : Side) (root : NodePtr) (t : ImmutableTree (K × V))
    (it : Iterator) (p : Nat) : Prop where
  root_eq : it.root = root
  max_eq : it.stack.max = t.height
  at_entry : At m side root t it.stack.elts p

lemma advance_spec (h : Points m side root t it p)
    (hroot : Holds kov m root t) (hnodup : t.toList.Nodup) (hp : p < t.toList.length) :
    ∃ it', advance m side it = some it' ∧ Points m side root t it' (p+1) := by
  obtain ⟨hre,hmax,hat⟩ := h
  generalize helts : it.stack.elts = elts at hat
  cases hat with
  | fin => exact absurd hp (Nat.lt_irrefl _)
  | @node s a l r e pre h =>
    have hholds := h.holds hroot
    obtain ⟨n,hn,-⟩ := id hholds
    have hfar := h.far hn
    by_cases hzero : n.child side = 0
    · obtain ⟨s',hs',hat⟩ := climb_spec h hroot hnodup hholds.ne_zero
      refine ⟨{it with stack := ⟨it.stack.max,s'⟩},?_,hre,hmax,?_⟩
      · simp [advance,helts,hn,hzero,hs']
      · have hterm := (hfar.holds hroot).eq_zero_iff.mp hzero
        rw [length_node side,hterm] at hat
        exact hat
    · have hdepth := h.depth
      have hlt := height_pick_lt side l r e
      have hne : side.pick l r ≠ .terminator :=
        fun h => hzero ((hfar.holds hroot).eq_zero_iff.mpr h)
      have hstack : it.stack = ⟨it.stack.max,a :: s⟩ := by rw [← helts]
      obtain ⟨stack',hd,hmax',hat'⟩ := descend_spec (it.stack.max+2)
        ⟨it.stack.max,a :: s⟩ hfar hroot hmax (by omega) hne
      refine ⟨{it with stack := stack'},?_,hre,hmax'.trans hmax,?_⟩
      · rw [descend,if_neg hzero] at hd
        obtain ⟨pushed,hpush,hd⟩ := Option.bind_eq_some_iff.mp hd
        obtain ⟨c,hc,hd⟩ := Option.bind_eq_some_iff.mp hd
        rw [← hstack] at hpush
        simp [advance,helts,hn,hzero,hpush,hc,hd]
      · simp [length_walk] at hat'
        exact hat'

lemma At.lt_of_cons (h : At m side root t (a :: s) p) : p < t.toList.length := by
  cases h with
  | @node _ _ l r e pre h =>
    obtain ⟨post,hwalk⟩ := h.walk
    rw [← length_walk side t,hwalk,walk_node]
    simp only [length_append,length_cons,length_walk]
    omega

lemma At.eq_nil_iff (h : At m side root t s p) : s = [] ↔ p = t.toList.length := by
  constructor
  · rintro rfl
    cases h
    rfl
  · intro hp
    cases s with
    | nil => rfl
    | cons a s => exact absurd hp (Nat.ne_of_lt h.lt_of_cons)

lemma At.le (h : At m side root t s p) : p ≤ t.toList.length := by
  cases s with
  | nil => exact Nat.le_of_eq (h.eq_nil_iff.mp rfl)
  | cons a s => exact Nat.le_of_lt h.lt_of_cons

lemma At.top (h : At m side root t (a :: s) p) (hroot : Holds kov m root t) :
    ∃ n, node? m a = some n ∧ (walk side t)[p]? = some (entry kov n.value) := by
  cases h with
  | @node _ _ l r e pre h =>
    obtain ⟨n,hn,rfl,-⟩ := h.holds hroot
    obtain ⟨post,hwalk⟩ := h.walk
    refine ⟨n,hn,?_⟩
    rw [hwalk,walk_node,← length_walk side]
    simp

lemma deref_spec (h : Points m .right root t it p)
    (hroot : Holds kov m root t) : (deref m it).map (entry kov) = t.toList[p]? := by
  generalize helts : it.stack.elts = elts
  have hat := h.at_entry
  rw [helts] at hat
  cases elts with
  | nil =>
    rw [hat.eq_nil_iff.mp rfl]
    simp [deref,helts]
  | cons a s =>
    obtain ⟨n,hn,hentry⟩ := hat.top hroot
    rw [← walk_right,hentry]
    simp [deref,helts,hn]

lemma endIter_eq (hroot : Holds kov m root t) : endIter m root = some ⟨root,⟨t.height,[]⟩⟩ := by
  obtain ⟨h,hh,hheight⟩ := hroot.height?
  simp [endIter,hh,hheight]

lemma points_end : Points m side root t ⟨root,⟨t.height,[]⟩⟩ t.toList.length := ⟨rfl,rfl,.fin⟩

lemma descend_root_spec (hroot : Holds kov m root t) (side : Side) :
    ∃ stack, descend m side.flip (t.height+1) root ⟨t.height,[]⟩ = some stack ∧
      stack.max = t.height ∧ At m side root t stack.elts 0 := by
  cases t with
  | terminator => exact ⟨⟨0,[]⟩,by simp [descend,hroot.eq_zero_iff.mpr rfl,height],rfl,.fin⟩
  | node l e r => exact descend_spec _ ⟨_,[]⟩ .root hroot rfl (Nat.lt_succ_self _) nofun

lemma beginIter_spec (hroot : Holds kov m root t) :
    ∃ it, beginIter m root = some it ∧ Points m .right root t it 0 := by
  obtain ⟨h,hh,hheight⟩ := hroot.height?
  obtain ⟨stack,hdesc,hmax,hat⟩ := descend_root_spec hroot .right
  refine ⟨⟨root,stack⟩,?_,rfl,hmax,hat⟩
  simp only [beginIter,hh,hheight,Option.bind_eq_bind,Option.bind_some]
  exact Option.bind_eq_some_iff.mpr ⟨stack,hdesc,rfl⟩

lemma Points.flip (h : Points m side root t it p)
    (hp : p < t.toList.length) : Points m side.flip root t it (t.toList.length-1-p) :=
  ⟨h.root_eq,h.max_eq,h.at_entry.flip hp⟩

lemma decrement_spec (h : Points m .right root t it p)
    (hroot : Holds kov m root t) (hnodup : t.toList.Nodup) : ∃ it', decrement m it = some it' ∧
      Points m .right root t it' (if p = 0 then t.toList.length else p-1) := by
  by_cases hnil : it.stack.elts = []
  · have hp := h.at_entry.eq_nil_iff.mp hnil
    have hstack : it.stack = ⟨t.height,[]⟩ := by rw [← h.max_eq,← hnil]
    obtain ⟨stack,hdesc,hmax,hat⟩ := descend_root_spec hroot .left
    refine ⟨{it with stack := stack},?_,h.root_eq,hmax,?_⟩
    · rw [decrement,if_pos hnil,hstack,h.root_eq]
      exact Option.bind_eq_some_iff.mpr ⟨stack,hdesc,rfl⟩
    · split
      next hzero =>
        have helts := hat.eq_nil_iff.mpr (hzero.symm.trans hp)
        rw [helts]
        exact .fin
      next hpos =>
        have hflip := hat.flip (by omega)
        rw [hp]
        exact hflip
  · have hp : p < t.toList.length := by
      have hle := h.at_entry.le
      have hne := h.at_entry.eq_nil_iff.not.mp hnil
      omega
    obtain ⟨it',hit,hpoints⟩ := advance_spec (h.flip hp) hroot hnodup (by omega)
    refine ⟨it',by rw [decrement,if_neg hnil]; exact hit,hpoints.root_eq,hpoints.max_eq,?_⟩
    have hat := hpoints.at_entry
    split
    next hzero =>
      have helts := hat.eq_nil_iff.mpr (by omega)
      rw [helts]
      exact .fin
    next hpos =>
      have hflip := hat.flip (by omega)
      have heq : t.toList.length-1-(t.toList.length-1-p+1) = p-1 := by omega
      rw [heq] at hflip
      exact hflip

def pathTo (m : Nodes V) : ImmutableTree (K × V) → NodePtr → Nat → List NodePtr
  | .terminator, _, _ => []
  | .node l _ r, a, p =>
    if p < l.toList.length then
      pathTo m l (((node? m a).map (·.left)).getD 0) p ++ [a]
    else if p = l.toList.length then [a]
    else pathTo m r (((node? m a).map (·.right)).getD 0) (p-l.toList.length-1) ++ [a]

lemma Leads.pathTo (h : Leads m .right root t s a sub pre) {q : Nat}
    (hq : q < sub.toList.length) : pathTo m t root (pre.length+q) = pathTo m sub a q ++ s := by
  induction h generalizing q with
  | root => simp
  | @near s b n l r e pre _ hn ih =>
    have hq : q < l.toList.length := hq
    have hq' : q < (node l e r).toList.length := by
      rw [toList,length_append]
      omega
    rw [ih hq',Nodes.pathTo,if_pos hq,hn,append_assoc]
    rfl
  | @far s b n l r e pre _ hn ih =>
    have hq : q < r.toList.length := hq
    have hq' : l.toList.length+1+q < (node l e r).toList.length := by
      rw [toList,length_append,length_cons]
      omega
    have hpos : (pre ++ ImmutableTree.walk .right l ++ [e]).length+q =
        pre.length+(l.toList.length+1+q) := by
      simp only [length_append,length_cons,length_nil,walk_right]
      omega
    have hsub : l.toList.length+1+q-l.toList.length-1 = q := by omega
    show Nodes.pathTo m t root ((pre ++ ImmutableTree.walk .right l ++ [e]).length+q) = _
    rw [hpos,ih hq',Nodes.pathTo,if_neg (by omega),if_neg (by omega),hn,hsub,append_assoc]
    rfl

lemma At.elts_eq_iff {p' : Nat} {s' : List NodePtr} (h : At m .right root t s p)
    (h' : At m .right root t s' p') (hroot : Holds kov m root t) (hnodup : t.toList.Nodup) :
    s = s' ↔ p = p' := by
  have hpath : ∀ {s p}, At m .right root t s p → s = [] ∧ p = t.toList.length ∨
      p < t.toList.length ∧ s = pathTo m t root p := by
    intro s p hat
    cases hat with
    | fin => exact .inl ⟨rfl,rfl⟩
    | @node _ a l r e pre hleads =>
      have hlt := (At.node hleads).lt_of_cons
      refine .inr ⟨hlt,?_⟩
      have hq : l.toList.length < (ImmutableTree.node l e r).toList.length := by
        rw [toList,length_append,length_cons]
        omega
      have heq := hleads.pathTo hq
      rw [pathTo,if_neg (Nat.lt_irrefl _),if_pos rfl] at heq
      exact heq.symm
  constructor
  · rintro rfl
    cases s with
    | nil => rw [h.eq_nil_iff.mp rfl,h'.eq_nil_iff.mp rfl]
    | cons a s =>
      obtain ⟨n,hn,he⟩ := h.top hroot
      obtain ⟨n',hn',he'⟩ := h'.top hroot
      cases hn.symm.trans hn'
      rw [walk_right] at he he'
      exact (getElem?_inj h.lt_of_cons hnodup).mp (he.trans he'.symm)
  · rintro rfl
    rcases hpath h with ⟨rfl,hp⟩ | ⟨hlt,rfl⟩
    · exact (h'.eq_nil_iff.mpr hp).symm
    · rcases hpath h' with ⟨-,hp⟩ | ⟨-,rfl⟩
      · omega
      · rfl

section Bounds
open WeakOrder

variable {lt : K → K → Bool}

lemma Leads.increasing (h : Leads m .right root t s a sub pre)
    (hinc : Increasing lt fst t.toList) : Increasing lt fst sub.toList := by
  obtain ⟨post,hwalk⟩ := h.walk
  rw [walk_right,walk_right] at hwalk
  rw [hwalk,append_assoc] at hinc
  exact (pairwise_append.mp (pairwise_append.mp hinc).2.1).1

variable [IsStrictWeakOrder K fun a b => lt a b = true]

lemma lowerBoundFrom_spec (k : K) (fuel : Nat) (stack : FixedStack)
    (h : Leads m .right root t stack.elts a sub pre) (hroot : Holds kov m root t)
    (hinc : Increasing lt fst t.toList) (hmax : stack.max = t.height)
    (hfuel : sub.height < fuel) (hsub : sub ≠ .terminator) :
    ∃ found b n s p, lowerBoundFrom m kov lt k fuel a stack = some (found,⟨t.height,b :: s⟩) ∧
      node? m b = some n ∧ At m .right root t (b :: s) p ∧
      pre.length+(below lt fst k sub.toList).length =
        if !found && lt (kov n.value) k then p+1 else p := by
  induction sub generalizing fuel stack a pre with
  | terminator => exact absurd rfl hsub
  | node l e r ihl ihr =>
    obtain _ | fuel := fuel
    · omega
    have hholds := h.holds hroot
    have hdepth := h.depth
    have hsubinc := h.increasing hinc
    obtain ⟨n,hn,rfl,-,hl,hr⟩ := id hholds
    have hpush : stack.pushBack a = some ⟨t.height,a :: stack.elts⟩ := by
      rw [FixedStack.pushBack,hmax,if_pos (by grind)]
    have hat : At m .right root t (a :: stack.elts) (pre.length+l.toList.length) := At.node h
    have hloop : lowerBoundFrom m kov lt k (fuel+1) a stack =
        if lt k (kov n.value) then
          lowerBoundFrom m kov lt k fuel n.left ⟨t.height,a :: stack.elts⟩
        else if lt (kov n.value) k then
          lowerBoundFrom m kov lt k fuel n.right ⟨t.height,a :: stack.elts⟩
        else some (true,⟨t.height,a :: stack.elts⟩) := by
      simp [lowerBoundFrom,hholds.ne_zero,hpush,hn]
    rw [hloop,toList]
    cases hkn : lt k (kov n.value) with
    | true =>
      rw [if_pos rfl,((hsubinc.divides k).split_left hkn).1]
      cases l with
      | terminator =>
        obtain _ | fuel := fuel
        · grind
        refine ⟨false,a,n,stack.elts,_,?_,hn,hat,?_⟩
        · rw [lowerBoundFrom,if_pos (hl.eq_zero_iff.mpr rfl)]
        · simp [lt_asymm hkn,toList,below]
      | node ll le lr => exact ihl fuel _ (h.near hn) rfl (by grind) (by simp)
    | false =>
      rw [if_neg Bool.false_ne_true]
      cases hnk : lt (kov n.value) k with
      | true =>
        rw [if_pos rfl,((hsubinc.divides k).split_right hnk).1]
        cases r with
        | terminator =>
          obtain _ | fuel := fuel
          · grind
          refine ⟨false,a,n,stack.elts,_,?_,hn,hat,?_⟩
          · rw [lowerBoundFrom,if_pos (hr.eq_zero_iff.mpr rfl)]
          · simp [hnk,toList,below]
            grind
        | node rl re rr =>
          obtain ⟨found,b,n',s,p,hres,hb,hat',hlen⟩ :=
            ihr fuel ⟨t.height,a :: stack.elts⟩ (h.far hn) rfl (by grind) (by simp)
          refine ⟨found,b,n',s,p,hres,hb,hat',?_⟩
          rw [← hlen]
          simp only [Side.pick,Side.flip,length_append,length_cons,length_nil,length_walk]
          grind
      | false =>
        rw [if_neg Bool.false_ne_true,((hsubinc.divides k).split_at hkn hnk).1]
        exact ⟨true,a,n,stack.elts,_,rfl,hn,hat,rfl⟩

section
variable (hroot : Holds kov m root t)
include hroot

lemma lowerBound_spec (hinc : Increasing lt fst t.toList)
    (k : K) : ∃ it, lowerBound m kov lt k root = some it ∧
      Points m .right root t it (below lt fst k t.toList).length := by
  have hend := endIter_eq hroot
  by_cases hterm : t = .terminator
  · subst hterm
    obtain rfl : root = 0 := hroot
    exact ⟨_,by simp [lowerBound,hend,lowerBoundFrom],points_end⟩
  obtain ⟨found,b,n,s,p,hres,hb,hat,hlen⟩ := lowerBoundFrom_spec k (t.height+1)
    ⟨t.height,[]⟩ .root hroot hinc rfl (Nat.lt_succ_self _) hterm
  rw [length_nil,Nat.zero_add] at hlen
  simp only [lowerBound,hend,Option.bind_eq_bind,Option.bind_some,hres,hb]
  have hpoints : Points m .right root t ⟨root,⟨t.height,b :: s⟩⟩ p := ⟨rfl,rfl,hat⟩
  cases found with
  | true => exact ⟨_,rfl,by rw [hlen]; exact hpoints⟩
  | false =>
    rw [if_neg Bool.false_ne_true]
    cases hlt : lt (kov n.value) k with
    | true =>
      rw [hlt] at hlen
      rw [hlen,if_pos rfl]
      exact advance_spec hpoints hroot hinc.nodup hat.lt_of_cons
    | false =>
      rw [hlt] at hlen
      rw [hlen,if_neg Bool.false_ne_true]
      exact ⟨_,rfl,hpoints⟩

/-- The iterator that a search for a key starts from: at the end, or at an entry that is the
first one not below the key. -/
lemma lowerBound_cases (hinc : Increasing lt fst t.toList)
    (k : K) : ∃ it, lowerBound m kov lt k root = some it ∧
      Points m .right root t it (below lt fst k t.toList).length ∧
      ((it.stack.elts = [] ∧ same lt fst k t.toList = [] ∧
          (below lt fst k t.toList).length = t.toList.length) ∨
        it.stack.elts ≠ [] ∧ (below lt fst k t.toList).length < t.toList.length ∧
          ∃ v, deref m it = some v ∧ (lt k (kov v) = false ∧ (same lt fst k t.toList).length = 1 ∨
              lt k (kov v) ∧ same lt fst k t.toList = [])) := by
  obtain ⟨it,hit,hpoints⟩ := lowerBound_spec hroot hinc k
  refine ⟨it,hit,hpoints,?_⟩
  have hnil := hpoints.at_entry.eq_nil_iff
  have hderef := deref_spec hpoints hroot
  have hlen := congrArg length (hinc.divides k).eq_append
  simp only [length_append] at hlen
  by_cases hfin : it.stack.elts = []
  · have hp := hnil.mp hfin
    exact .inl ⟨hfin,eq_nil_of_length_eq_zero (by omega),hp⟩
  have hp := hnil.not.mp hfin
  have hlt : (below lt fst k t.toList).length < t.toList.length := by omega
  rw [getElem?_eq_getElem hlt] at hderef
  obtain ⟨v,hv,he⟩ := Option.map_eq_some_iff.mp hderef
  have hentry : t.toList[(below lt fst k t.toList).length]? = some (entry kov v) := by
    rw [he,getElem?_eq_getElem hlt]
  refine .inr ⟨hfin,hlt,v,hv,(hinc.head_cases k hentry).imp ?_ id⟩
  rintro ⟨hkv,hs⟩
  exact ⟨hkv,by rw [hs]; rfl⟩

lemma find_spec (hinc : Increasing lt fst t.toList) (k : K) :
    ∃ it, find m kov lt k root = some it ∧ Points m .right root t it
      (if same lt fst k t.toList = [] then t.toList.length
        else (below lt fst k t.toList).length) := by
  obtain ⟨it,hit,hpoints,hcases⟩ := lowerBound_cases hroot hinc k
  simp only [find,endIter_eq hroot,hit,Option.bind_eq_bind,Option.bind_some]
  rcases hcases with ⟨hfin,hs,-⟩ | ⟨hfin,hlt,v,hv,⟨hkv,hs⟩ | ⟨hkv,hs⟩⟩
  · rw [if_pos hfin,if_pos hs]
    exact ⟨_,rfl,points_end⟩
  · have hne : same lt fst k t.toList ≠ [] := by
      intro h
      simp [h] at hs
    rw [if_neg hfin,if_neg hne,hv]
    simp only [Option.bind_some,hkv]
    exact ⟨it,rfl,hpoints⟩
  · rw [if_neg hfin,if_pos hs,hv]
    simp only [Option.bind_some,hkv]
    exact ⟨_,rfl,points_end⟩

lemma upperBound_spec (hinc : Increasing lt fst t.toList)
    (k : K) : ∃ it, upperBound m kov lt k root = some it ∧ Points m .right root t it
      ((below lt fst k t.toList).length+(same lt fst k t.toList).length) := by
  obtain ⟨it,hit,hpoints,hcases⟩ := lowerBound_cases hroot hinc k
  simp only [upperBound,endIter_eq hroot,hit,Option.bind_eq_bind,Option.bind_some]
  rcases hcases with ⟨hfin,hs,-⟩ | ⟨hfin,hlt,v,hv,⟨hkv,hs⟩ | ⟨hkv,hs⟩⟩
  · rw [if_pos hfin,hs]
    exact ⟨it,rfl,hpoints⟩
  · rw [if_neg hfin,hv,hs]
    simp only [Option.bind_some,hkv]
    exact advance_spec hpoints hroot hinc.nodup hlt
  · rw [if_neg hfin,hv,hs]
    simp only [Option.bind_some,hkv]
    exact ⟨it,rfl,hpoints⟩

end
end Bounds
end Nodes
end S2E
