import S2E.ADT.TreeContents
import S2E.Lib.Stateful

/-!
The nodes of `ImmutableTree.h` in memory, with their stored heights. A node is made once and
shared by every tree that reaches it. A node lives as long as something points to it, so the
memory here only grows.
-/

namespace S2E
open ImmutableTree

abbrev NodePtr := Nat

structure Node (V : Type) where
  left : NodePtr
  right : NodePtr
  value : V
  height : UInt32

abbrev Nodes (V : Type) := Array (Node V)

namespace Nodes

abbrev Op (V α : Type) := StateT (Nodes V) Option α

section Memory
variable {V : Type}

def node? (m : Nodes V) : NodePtr → Option (Node V)
  | 0 => none
  | a+1 => m[a]?

def height? (m : Nodes V) (a : NodePtr) : Option UInt32 :=
  if a = 0 then some 0 else (node? m a).map (·.height)

def load (a : NodePtr) : Op V (Node V) := fun m => (node? m a).map (·,m)

def loadHeight (a : NodePtr) : Op V UInt32 := fun m => (height? m a).map (·,m)

def create (left right : NodePtr) (value : V) : Op V NodePtr := do
  let hl ← loadHeight left
  let hr ← loadHeight right
  fun m => some (m.size+1,m.push ⟨left,right,value,max hl hr+1⟩)

def balance (left : NodePtr) (value : V) (right : NodePtr) : Op V NodePtr := do
  let hl ← loadHeight left
  let hr ← loadHeight right
  if hl > hr+2 then
    let n ← load left
    let hll ← loadHeight n.left
    let hlr ← loadHeight n.right
    if hll ≥ hlr then
      let nlr ← create n.right right value
      create n.left nlr n.value
    else
      let lr ← load n.right
      let nll ← create n.left lr.left n.value
      let nlr ← create lr.right right value
      create nll nlr lr.value
  else if hr > hl+2 then
    let n ← load right
    let hrr ← loadHeight n.right
    let hrl ← loadHeight n.left
    if hrr ≥ hrl then
      let nrl ← create left n.left value
      create nrl n.right n.value
    else
      let rl ← load n.left
      let nrl ← create left rl.left value
      let nrr ← create rl.right n.right n.value
      create nrl nrr rl.value
  else create left right value

/-! The recursions take the steps they may still make, which the height of the root bounds.
The terminator's own value is `none`. -/

def popMinFrom : Nat → NodePtr → Op V (Option V × NodePtr)
  | 0, _ => fun _ => none
  | fuel+1, a =>
    if a = 0 then pure (none,0)
    else do
      let n ← load a
      if n.left = 0 then pure (some n.value,n.right)
      else do
        let (min,left) ← popMinFrom fuel n.left
        let res ← balance left n.value n.right
        pure (min,res)

def popMaxFrom : Nat → NodePtr → Op V (Option V × NodePtr)
  | 0, _ => fun _ => none
  | fuel+1, a =>
    if a = 0 then pure (none,0)
    else do
      let n ← load a
      if n.right = 0 then pure (some n.value,n.left)
      else do
        let (max,right) ← popMaxFrom fuel n.right
        let res ← balance n.left n.value right
        pure (max,res)

variable {K : Type} (kov : V → K) (lt : K → K → Bool)

/-- The descent that `insert`, `replace` and `remove` share: what is made at the terminator, and
what is made of the node of the key. -/
def changeFrom (k : K) (missing : Op V NodePtr) (found : Nat → NodePtr → Node V → Op V NodePtr) :
    Nat → NodePtr → Op V NodePtr
  | 0, _ => fun _ => none
  | fuel+1, a =>
    if a = 0 then missing
    else do
      let n ← load a
      if lt k (kov n.value) then
        let left ← changeFrom k missing found fuel n.left
        balance left n.value n.right
      else if lt (kov n.value) k then
        let right ← changeFrom k missing found fuel n.right
        balance n.left n.value right
      else found fuel a n

def insertFrom (v : V) : Nat → NodePtr → Op V NodePtr :=
  changeFrom kov lt (kov v) (create 0 0 v) fun _ a _ => pure a

def replaceFrom (v : V) : Nat → NodePtr → Op V NodePtr :=
  changeFrom kov lt (kov v) (create 0 0 v) fun _ _ n => create n.left n.right v

def removeNode (fuel : Nat) (_ : NodePtr) (n : Node V) : Op V NodePtr :=
  if n.left = 0 then pure n.right
  else if n.right = 0 then pure n.left
  else do
    let (min,nr) ← popMinFrom fuel n.right
    match min with
    | none => fun _ => none
    | some min => balance n.left min nr

def removeFrom (k : K) : Nat → NodePtr → Op V NodePtr :=
  changeFrom kov lt k (pure 0) removeNode

def lookupFrom (m : Nodes V) (k : K) : Nat → NodePtr → Option (Option V)
  | 0, _ => none
  | fuel+1, a =>
    if a = 0 then some none
    else do
      let n ← node? m a
      if lt k (kov n.value) then lookupFrom m k fuel n.left
      else if lt (kov n.value) k then lookupFrom m k fuel n.right
      else some (some n.value)

def lookupPreviousFrom (m : Nodes V) (k : K) (result : Option V) : Nat → NodePtr → Option (Option V)
  | 0, _ => none
  | fuel+1, a =>
    if a = 0 then some result
    else do
      let n ← node? m a
      if lt k (kov n.value) then lookupPreviousFrom m k result fuel n.left
      else if lt (kov n.value) k then lookupPreviousFrom m k (some n.value) fuel n.right
      else some (some n.value)

def fromRoot {α : Type} (f : Nat → NodePtr → Op V α) (a : NodePtr) : Op V α := do
  let h ← loadHeight a
  f (h.toNat+1) a

def popMin : NodePtr → Op V (Option V × NodePtr) := fromRoot popMinFrom

def popMax : NodePtr → Op V (Option V × NodePtr) := fromRoot popMaxFrom

def insert (v : V) : NodePtr → Op V NodePtr := fromRoot (insertFrom kov lt v)

def replace (v : V) : NodePtr → Op V NodePtr := fromRoot (replaceFrom kov lt v)

def remove (k : K) : NodePtr → Op V NodePtr := fromRoot (removeFrom kov lt k)

def lookup (m : Nodes V) (k : K) (a : NodePtr) : Option (Option V) := do
  let h ← height? m a
  lookupFrom kov lt m k (h.toNat+1) a

def lookupPrevious (m : Nodes V) (k : K) (a : NodePtr) : Option (Option V) := do
  let h ← height? m a
  lookupPreviousFrom kov lt m k none (h.toNat+1) a

def entry (v : V) : K × V := (kov v,v)

@[simp]
lemma entry_fst (v : V) : (entry kov v).1 = kov v := rfl

def Holds (m : Nodes V) : NodePtr → ImmutableTree (K × V) → Prop
  | a, .terminator => a = 0
  | a, .node l e r => ∃ n, node? m a = some n ∧ e = entry kov n.value ∧
      n.height.toNat = (node l e r).height ∧ Holds m n.left l ∧ Holds m n.right r

def Extends (m m' : Nodes V) : Prop := ∀ a n, node? m a = some n → node? m' a = some n

def Makes (m : Nodes V) (t : ImmutableTree (K × V)) (a : NodePtr) (m' : Nodes V) : Prop :=
  Extends m m' ∧ Holds kov m' a t

end Memory

section Specs
open Stateful

variable {V K : Type} {kov : V → K} {lt : K → K → Bool} {m m' m'' : Nodes V} {a b : NodePtr}
  {e : K × V} {l r t : ImmutableTree (K × V)} {v : V}

lemma Extends.refl (m : Nodes V) : Extends m m := fun _ _ h => h

lemma Extends.trans (h : Extends m m') (h' : Extends m' m'') : Extends m m'' :=
  fun a n ha => h' a n (h a n ha)

lemma extends_push (m : Nodes V) (n : Node V) : Extends m (m.push n) := by
  intro a n' h
  cases a with
  | zero => cases h
  | succ a =>
    simp only [node?,Array.getElem?_push] at h ⊢
    split
    next heq => simp [heq] at h
    next => exact h

lemma Holds.mono (h : Holds kov m a t) (hext : Extends m m') : Holds kov m' a t := by
  induction t generalizing a with
  | terminator => exact h
  | node l e r ihl ihr =>
    obtain ⟨n,hn,he,hh,hl,hr⟩ := h
    exact ⟨n,hext a n hn,he,hh,ihl hl,ihr hr⟩

lemma Holds.ne_zero (h : Holds kov m a (.node l e r)) : a ≠ 0 := by
  obtain ⟨n,hn,-⟩ := h
  rintro rfl
  cases hn

lemma Holds.eq_zero_iff (h : Holds kov m a t) : a = 0 ↔ t = .terminator := by
  cases t with
  | terminator => simpa [Holds] using h
  | node l e r => simp [h.ne_zero]

variable {t' : ImmutableTree (K × V)}

lemma Holds.unique (h : Holds kov m a t) (h' : Holds kov m a t') : t = t' := by
  induction t generalizing a t' with
  | terminator => exact (h'.eq_zero_iff.mp h).symm
  | node l e r ihl ihr =>
    cases t' with
    | terminator => exact absurd h' h.ne_zero
    | node l' e' r' =>
      obtain ⟨n,hn,rfl,-,hl,hr⟩ := h
      obtain ⟨n',hn',rfl,-,hl',hr'⟩ := h'
      cases hn.symm.trans hn'
      rw [ihl hl hl',ihr hr hr']

lemma Holds.height? (h : Holds kov m a t) : ∃ n, height? m a = some n ∧ n.toNat = t.height := by
  cases t with
  | terminator =>
    cases h
    exact ⟨0,rfl,rfl⟩
  | node l e r =>
    have hne := h.ne_zero
    obtain ⟨n,hn,-,hh,-⟩ := h
    exact ⟨n.height,by rw [height?,if_neg hne,hn]; rfl,hh⟩

section Rules
variable {β : Type} {Q : β → Nodes V → Prop}

lemma Holds.bind_loadHeight {f : UInt32 → Op V β} (h : Holds kov m a t)
    (hf : ∀ n : UInt32, n.toNat = t.height → Returns (f n) m Q) :
    Returns (loadHeight a >>= f) m Q := by
  obtain ⟨n,hn,hh⟩ := h.height?
  refine Returns.bind (P := fun n' m' => n = n' ∧ m = m') ⟨n,m,?_,rfl,rfl⟩ ?_
  · rw [loadHeight,hn]
    rfl
  · rintro _ _ ⟨rfl,rfl⟩
    exact hf n hh

lemma Holds.bind_load {f : Node V → Op V β} (h : Holds kov m a (.node l e r))
    (hf : ∀ n, node? m a = some n → e = entry kov n.value → Holds kov m n.left l →
      Holds kov m n.right r → Returns (f n) m Q) : Returns (load a >>= f) m Q := by
  obtain ⟨n,hn,he,-,hl,hr⟩ := h
  refine Returns.bind (P := fun n' m' => n = n' ∧ m = m') ⟨n,m,?_,rfl,rfl⟩ ?_
  · rw [load,hn]
    rfl
  · rintro _ _ ⟨rfl,rfl⟩
    exact hf n hn he hl hr

lemma Makes.after {c : Op V NodePtr} {f : NodePtr → Op V NodePtr}
    (h : Returns c m (Makes kov m t))
    (hf : ∀ a m', Extends m m' → Holds kov m' a t → Returns (f a) m' (Makes kov m' t')) :
    Returns (c >>= f) m (Makes kov m t') := by
  refine h.bind fun a m' ⟨hext,ha⟩ => ?_
  exact (hf a m' hext ha).mono fun b m'' hb => ⟨hext.trans hb.1,hb.2⟩

end Rules

lemma create_spec (hl : Holds kov m a l) (hr : Holds kov m b r) (v : V)
    (hfit : max l.height r.height+1 < 2^32) :
    Returns (create a b v) m (Makes kov m (.node l (entry kov v) r)) := by
  refine hl.bind_loadHeight fun x hx => hr.bind_loadHeight fun y hy => ?_
  have hext := extends_push m ⟨a,b,v,max x y+1⟩
  have hmax : (max x y).toNat = max l.height r.height := by
    rw [UInt32.max_def]
    split
    next hle =>
      have hle := UInt32.le_iff_toNat_le.mp hle
      omega
    next hgt =>
      have hgt := UInt32.le_iff_toNat_le.not.mp hgt
      omega
  refine ⟨_,_,rfl,hext,⟨⟨a,b,v,max x y+1⟩,?_,rfl,?_,hl.mono hext,hr.mono hext⟩⟩
  · simp [node?]
  · simp only [UInt32.toNat_add,hmax,height]
    exact Nat.mod_eq_of_lt hfit

lemma create_terminator_spec (m : Nodes V) (v : V) :
    Returns (create 0 0 v) m (Makes kov m (.node .terminator (entry kov v) .terminator)) := by
  have h : Holds kov m 0 .terminator := rfl
  exact create_spec h h v (by simp [height])

lemma gt_add_two_iff {x y : UInt32} (h : y.toNat+2 < 2^32) : x > y+2 ↔ x.toNat > y.toNat+2 := by
  have hadd : (y+2).toNat = y.toNat+2 := by
    rw [UInt32.toNat_add]
    exact Nat.mod_eq_of_lt h
  rw [gt_iff_lt,UInt32.lt_iff_toNat_lt,hadd]

lemma balance_spec (hl : Holds kov m a l) (hr : Holds kov m b r) (v : V)
    (hfit : max l.height r.height+2 < 2^32) :
    Returns (balance a v b) m (Makes kov m (ImmutableTree.balance l (entry kov v) r)) := by
  refine hl.bind_loadHeight fun x hx => hr.bind_loadHeight fun y hy => ?_
  simp only [ImmutableTree.balance,gt_add_two_iff (x := x) (y := y) (by omega),
    gt_add_two_iff (x := y) (y := x) (by omega),hx,hy]
  split
  next hgt =>
    cases l with
    | terminator => simp [height] at hgt
    | node ll le lr =>
      refine hl.bind_load fun n _ hle hll hlr => ?_
      subst hle
      refine hll.bind_loadHeight fun x' hx' => hlr.bind_loadHeight fun y' hy' => ?_
      simp only [ge_iff_le,UInt32.le_iff_toNat_le,hx',hy']
      split
      next hge =>
        refine Makes.after (create_spec hlr hr v (by grind)) fun c m' hext hc => ?_
        exact create_spec (hll.mono hext) hc n.value (by grind)
      next hlt =>
        cases lr with
        | terminator => simp [height] at hlt
        | node lrl lre lrr =>
          refine hlr.bind_load fun k _ hke hlrl hlrr => ?_
          subst hke
          refine Makes.after (create_spec hll hlrl n.value (by grind)) fun c m' hext hc => ?_
          refine Makes.after (create_spec (hlrr.mono hext) (hr.mono hext) v (by grind))
            fun d m'' hext' hd => ?_
          exact create_spec (hc.mono hext') hd k.value (by grind)
  next hle =>
    split
    next hgt =>
      cases r with
      | terminator => simp [height] at hgt
      | node rl re rr =>
        refine hr.bind_load fun n _ hre hrl hrr => ?_
        subst hre
        refine hrr.bind_loadHeight fun x' hx' => hrl.bind_loadHeight fun y' hy' => ?_
        simp only [ge_iff_le,UInt32.le_iff_toNat_le,hx',hy']
        split
        next hge =>
          refine Makes.after (create_spec hl hrl v (by grind)) fun c m' hext hc => ?_
          exact create_spec hc (hrr.mono hext) n.value (by grind)
        next hlt =>
          cases rl with
          | terminator => simp [height] at hlt
          | node rll rle rlr =>
            refine hrl.bind_load fun k _ hke hrll hrlr => ?_
            subst hke
            refine Makes.after (create_spec hl hrll v (by grind)) fun c m' hext hc => ?_
            refine Makes.after (create_spec (hrlr.mono hext) (hrr.mono hext) n.value (by grind))
              fun d m'' hext' hd => ?_
            exact create_spec (hc.mono hext') hd k.value
              (by grind)
    next hle' => exact create_spec hl hr v (by grind)

def Fitting (t : ImmutableTree (K × V)) : Prop := t.Balanced ∧ t.height+4 < 2^32

lemma Fitting.left (h : Fitting (.node l e r)) : Fitting l := by
  obtain ⟨⟨hl,-⟩,hfit⟩ := h
  refine ⟨hl,?_⟩
  grind

lemma Fitting.right (h : Fitting (.node l e r)) : Fitting r := by
  obtain ⟨⟨-,hr,-⟩,hfit⟩ := h
  refine ⟨hr,?_⟩
  grind

lemma balance_left_spec {a' : NodePtr} (hfit : Fitting (.node l (entry kov v) r))
    (hr : Holds kov m b r) (ht : Holds kov m a' t) (hnear : Near l.height t) :
    Returns (balance a' v b) m (Makes kov m (ImmutableTree.balance t (entry kov v) r)) := by
  obtain ⟨-,hfit⟩ := hfit
  obtain ⟨-,hle,-⟩ := hnear
  exact balance_spec ht hr v (by grind)

lemma balance_right_spec {b' : NodePtr} (hfit : Fitting (.node l e r)) (hl : Holds kov m a l)
    (ht : Holds kov m b' t) (hnear : Near r.height t) (v : V) :
    Returns (balance a v b') m (Makes kov m (ImmutableTree.balance l (entry kov v) t)) := by
  obtain ⟨-,hfit⟩ := hfit
  obtain ⟨-,hle,-⟩ := hnear
  exact balance_spec hl ht v (by grind)

def Pops (kov : V → K) (m : Nodes V) (out : (K × V) × ImmutableTree (K × V))
    (res : Option V × NodePtr) (m' : Nodes V) : Prop :=
  ∃ v, res.1 = some v ∧ out.1 = entry kov v ∧ Makes kov m out.2 res.2 m'

variable {fuel : Nat}

lemma popMinFrom_spec (h : Holds kov m a (.node l e r))
    (hfit : Fitting (.node l e r)) (hfuel : l.height < fuel) :
    Returns (popMinFrom fuel a) m (Pops kov m (ImmutableTree.popMin l e r)) := by
  induction l generalizing a e r fuel with
  | terminator =>
    obtain _ | fuel := fuel
    · omega
    rw [popMinFrom,if_neg h.ne_zero]
    refine h.bind_load fun n _ he hl hr => ?_
    rw [if_pos (hl.eq_zero_iff.mpr rfl)]
    exact .pure ⟨n.value,rfl,he,Extends.refl m,hr⟩
  | node ll le lr ihl _ =>
    obtain _ | fuel := fuel
    · omega
    rw [popMinFrom,if_neg h.ne_zero]
    refine h.bind_load fun n _ he hl hr => ?_
    subst he
    rw [if_neg hl.ne_zero]
    have hside : ll.height < fuel := by
      grind
    refine (ihl hl hfit.left hside).bind fun (min,left) m' ⟨w,hw,hmin,hext,hleft⟩ => ?_
    have hnear := near_popMin hfit.1.1
    refine (balance_left_spec hfit (hr.mono hext) hleft hnear).bind fun c m'' hc => ?_
    exact .pure ⟨w,hw,hmin,hext.trans hc.1,hc.2⟩

lemma popMaxFrom_spec (h : Holds kov m a (.node l e r))
    (hfit : Fitting (.node l e r)) (hfuel : r.height < fuel) :
    Returns (popMaxFrom fuel a) m (Pops kov m (ImmutableTree.popMax l e r)) := by
  induction r generalizing a e l fuel with
  | terminator =>
    obtain _ | fuel := fuel
    · omega
    rw [popMaxFrom,if_neg h.ne_zero]
    refine h.bind_load fun n _ he hl hr => ?_
    rw [if_pos (hr.eq_zero_iff.mpr rfl)]
    exact .pure ⟨n.value,rfl,he,Extends.refl m,hl⟩
  | node rl re rr _ ihr =>
    obtain _ | fuel := fuel
    · omega
    rw [popMaxFrom,if_neg h.ne_zero]
    refine h.bind_load fun n _ he hl hr => ?_
    subst he
    rw [if_neg hr.ne_zero]
    have hside : rr.height < fuel := by
      grind
    refine (ihr hr hfit.right hside).bind fun (max,right) m' ⟨w,hw,hmax,hext,hright⟩ => ?_
    have hnear := near_popMax hfit.1.2.1
    refine (balance_right_spec hfit (hl.mono hext) hright hnear n.value).bind fun c m'' hc => ?_
    exact .pure ⟨w,hw,hmax,hext.trans hc.1,hc.2⟩

section Change
variable {k : K} {missing : Op V NodePtr} {found : Nat → NodePtr → Node V → Op V NodePtr}
  {change : ImmutableTree (K × V) → ImmutableTree (K × V)}

lemma changeFrom_spec
    (changeNode : ImmutableTree (K × V) → K × V → ImmutableTree (K × V) → ImmutableTree (K × V))
    (hnode : ∀ l e r, change (.node l e r) = if lt k e.1 then ImmutableTree.balance (change l) e r
      else if lt e.1 k then ImmutableTree.balance l e (change r) else changeNode l e r)
    (hnear : ∀ {t : ImmutableTree (K × V)}, t.Balanced → Near t.height (change t))
    (hmissing : ∀ m, Returns missing m (Makes kov m (change .terminator)))
    (hfound : ∀ {m a n fuel l r}, Holds kov m a (.node l (entry kov n.value) r) →
      Holds kov m n.left l → Holds kov m n.right r → Fitting (.node l (entry kov n.value) r) →
      r.height ≤ fuel →
      Returns (found fuel a n) m (Makes kov m (changeNode l (entry kov n.value) r)))
    (h : Holds kov m a t) (hfit : Fitting t) (hfuel : t.height < fuel) :
    Returns (changeFrom kov lt k missing found fuel a) m (Makes kov m (change t)) := by
  induction t generalizing a m fuel with
  | terminator =>
    obtain _ | fuel := fuel
    · omega
    rw [changeFrom,if_pos (h.eq_zero_iff.mpr rfl)]
    exact hmissing m
  | node l e r ihl ihr =>
    obtain _ | fuel := fuel
    · omega
    rw [changeFrom,if_neg h.ne_zero,hnode]
    refine h.bind_load fun n _ he hl hr => ?_
    subst he
    rw [entry_fst]
    by_cases hkn : lt k (kov n.value)
    · rw [if_pos hkn,if_pos hkn]
      refine Makes.after (ihl hl hfit.left (by grind)) fun c m' hext hc => ?_
      exact balance_left_spec hfit (hr.mono hext) hc (hnear hfit.1.1)
    rw [if_neg hkn,if_neg hkn]
    by_cases hnk : lt (kov n.value) k
    · rw [if_pos hnk,if_pos hnk]
      refine Makes.after (ihr hr hfit.right (by grind)) fun c m' hext hc => ?_
      exact balance_right_spec hfit (hl.mono hext) hc (hnear hfit.1.2.1) n.value
    · rw [if_neg hnk,if_neg hnk]
      exact hfound h hl hr hfit (by grind)

end Change

lemma insertFrom_spec (h : Holds kov m a t) (hfit : Fitting t) (hfuel : t.height < fuel) (v : V) :
    Returns (insertFrom kov lt v fuel a) m
      (Makes kov m (ImmutableTree.insert lt (entry kov v) t)) := by
  refine changeFrom_spec .node (fun l e r => rfl)
    (fun hbal => near_insert hbal _) (fun m => ?_) ?_ h hfit hfuel
  · exact create_terminator_spec m v
  · intro m a n fuel l r h _ _ _ _
    exact .pure ⟨Extends.refl m,h⟩

lemma replaceFrom_spec (h : Holds kov m a t) (hfit : Fitting t)
    (hfuel : t.height < fuel) (v : V) : Returns (replaceFrom kov lt v fuel a) m
      (Makes kov m (ImmutableTree.replace lt (entry kov v) t)) := by
  refine changeFrom_spec (fun l _ r => .node l (entry kov v) r) (fun l e r => rfl)
    (fun hbal => near_replace hbal _) (fun m => ?_) ?_ h hfit hfuel
  · exact create_terminator_spec m v
  · intro m a n fuel l r h hl hr hfit _
    refine create_spec hl hr v ?_
    have hheight := hfit.2
    grind

lemma removeNode_spec {n : Node V} (hl : Holds kov m n.left l)
    (hr : Holds kov m n.right r) (hfit : Fitting (.node l (entry kov n.value) r))
    (hfuel : r.height ≤ fuel) : Returns (removeNode fuel a n) m (Makes kov m (joined l r)) := by
  unfold removeNode
  cases l with
  | terminator =>
    rw [if_pos (hl.eq_zero_iff.mpr rfl)]
    exact .pure ⟨Extends.refl m,hr⟩
  | node ll le lr =>
    rw [if_neg hl.ne_zero]
    cases r with
    | terminator =>
      rw [if_pos (hr.eq_zero_iff.mpr rfl)]
      exact .pure ⟨Extends.refl m,hl⟩
    | node rl re rr =>
      rw [if_neg hr.ne_zero]
      refine (popMinFrom_spec hr hfit.right (by grind)).bind ?_
      rintro ⟨_,nr⟩ m' ⟨w,rfl,hmin,hext,hnr⟩
      have hnear := near_popMin hfit.1.2.1
      have hbal := balance_right_spec hfit (hl.mono hext) hnr hnear w
      rw [← hmin] at hbal
      exact hbal.mono fun c m'' hc => ⟨hext.trans hc.1,hc.2⟩

lemma removeFrom_spec (h : Holds kov m a t) (hfit : Fitting t) (hfuel : t.height < fuel) (k : K) :
    Returns (removeFrom kov lt k fuel a) m (Makes kov m (ImmutableTree.remove lt k t)) := by
  refine changeFrom_spec (fun l _ r => joined l r)
    (fun l e r => rfl) (fun hbal => near_remove hbal _) (fun m => ?_) ?_ h hfit hfuel
  · exact .pure ⟨Extends.refl m,rfl⟩
  · intro m a n fuel l r _ hl hr hfit hfuel
    exact removeNode_spec hl hr hfit hfuel

lemma fromRoot_spec {α : Type} {f : Nat → NodePtr → Op V α} {Q : α → Nodes V → Prop}
    (h : Holds kov m a t) (hf : Returns (f (t.height+1) a) m Q) : Returns (fromRoot f a) m Q := by
  refine h.bind_loadHeight fun n hn => ?_
  rw [hn]
  exact hf

lemma lookupFrom_eq (lt : K → K → Bool) (h : Holds kov m a t) (hfuel : t.height < fuel) (k : K) :
    ∃ res, lookupFrom kov lt m k fuel a = some res ∧
      res.map (entry kov) = ImmutableTree.lookup lt k t := by
  induction t generalizing a fuel with
  | terminator =>
    obtain _ | fuel := fuel
    · omega
    exact ⟨none,by rw [lookupFrom,if_pos (h.eq_zero_iff.mpr rfl)],rfl⟩
  | node l e r ihl ihr =>
    obtain _ | fuel := fuel
    · omega
    have hne := h.ne_zero
    obtain ⟨n,hn,rfl,-,hl,hr⟩ := h
    rw [lookupFrom,if_neg hne,hn,ImmutableTree.lookup,entry_fst]
    simp only [Option.bind_eq_bind,Option.bind_some]
    by_cases hkn : lt k (kov n.value)
    · simp only [if_pos hkn]
      exact ihl hl (by grind)
    simp only [if_neg hkn]
    by_cases hnk : lt (kov n.value) k
    · simp only [if_pos hnk]
      exact ihr hr (by grind)
    · exact ⟨some n.value,by rw [if_neg hnk],by rw [if_neg hnk]; rfl⟩

lemma lookupPreviousFrom_eq (lt : K → K → Bool) (h : Holds kov m a t) (hfuel : t.height < fuel)
    (k : K) (result : Option V) : ∃ res, lookupPreviousFrom kov lt m k result fuel a = some res ∧
      res.map (entry kov) = ImmutableTree.lookupPrevious lt k (result.map (entry kov)) t := by
  induction t generalizing a fuel result with
  | terminator =>
    obtain _ | fuel := fuel
    · omega
    exact ⟨result,by rw [lookupPreviousFrom,if_pos (h.eq_zero_iff.mpr rfl)],rfl⟩
  | node l e r ihl ihr =>
    obtain _ | fuel := fuel
    · omega
    have hne := h.ne_zero
    obtain ⟨n,hn,rfl,-,hl,hr⟩ := h
    rw [lookupPreviousFrom,if_neg hne,hn,ImmutableTree.lookupPrevious,entry_fst]
    simp only [Option.bind_eq_bind,Option.bind_some]
    by_cases hkn : lt k (kov n.value)
    · simp only [if_pos hkn]
      exact ihl hl (by grind) result
    simp only [if_neg hkn]
    by_cases hnk : lt (kov n.value) k
    · simp only [if_pos hnk]
      exact ihr hr (by grind) (some n.value)
    · exact ⟨some n.value,by rw [if_neg hnk],by rw [if_neg hnk]; rfl⟩

end Specs
end Nodes
end S2E
