import S2E.Core.ExecutionState

/-!
`ConstraintManager` as it is stored: a manager is a pair of pointers into a tree of
condition nodes that all managers share. A node holds its parent by a shared pointer and
its children by weak ones.
-/

namespace S2E.Trie
open List Option

/-- A node. The root has no parent and no expression; `children` are the weak pointers. -/
structure ConditionNode where
  link : Option (Nat × Expr)
  depth : Nat
  children : List (Expr × Nat)

structure ConstraintManager where
  head : Nat
  root : Nat
  deriving DecidableEq

def ConstraintManager.equals (m m' : ConstraintManager) : Bool := m.head == m'.head

/-- The nodes made so far, by their address, and the variables that hold a manager. An
address is never used twice: an expired pointer is known to be expired by its control
block, and only live nodes are compared. -/
structure World where
  nodes : List ConditionNode
  managers : List (Option ConstraintManager)

namespace World
variable (w : World)

def link (n : Nat) : Option (Nat × Expr) := w.nodes[n]?.bind ConditionNode.link

def children (n : Nat) : List (Expr × Nat) :=
  (w.nodes[n]?.map ConditionNode.children).getD []

def depth (n : Nat) : Nat := (w.nodes[n]?.map ConditionNode.depth).getD 0

def held (w : World) : Nat → Nat → List Nat
  | 0, n => [n]
  | fuel+1, n =>
    match w.link n with
    | some (p,_) => n :: w.held fuel p
    | none => [n]

/-- `!expired()`: some manager holds the node, directly or through its descendants. -/
def alive (n : Nat) : Bool :=
  w.managers.any fun v =>
    match v with
    | some m => n ∈ w.held m.head m.head || n ∈ w.held m.root m.root
    | none => false

def create (n : Nat) (e : Expr) : World :=
  { w with nodes := w.nodes.modify n (fun node =>
      {node with children := (e,w.nodes.length) :: node.children}) ++
        [⟨some (n,e),w.depth n+1,[]⟩]}

def getOrCreate (n : Nat) (e : Expr) : Nat × World :=
  match (w.children n).lookup e with
  | some c => if w.alive c then (c,w) else (w.nodes.length,w.create n e)
  | none => (w.nodes.length,w.create n e)

def setManager (v : Nat) (m : Option ConstraintManager) : World :=
  {w with managers := w.managers.set v m}

def extend (v : Nat) (m : ConstraintManager) (e : Expr) : World :=
  (w.getOrCreate m.head e).2.setManager v (some {m with head := (w.getOrCreate m.head e).1})

def manager (v : Nat) : Option ConstraintManager := w.managers[v]?.join

def addConstraint (w : World) (v : Nat) : Expr → Option World
  | .constant c => if c.isTrue then some w else none
  | .binary .and l r => do
    let w ← w.addConstraint v l
    w.addConstraint v r
  | e => do
    let m ← w.manager v
    some (w.extend v m e)

def walk (w : World) (root : Nat) : Nat → Nat → List Expr
  | 0, _ => []
  | fuel+1, n =>
    if n = root then []
    else
      match w.link n with
      | some (p,e) => e :: w.walk root fuel p
      | none => []

def conditions (m : ConstraintManager) : List Expr :=
  w.walk m.root w.nodes.length m.head

def size (m : ConstraintManager) : Nat := w.depth m.head

end World

open World

inductive Op where
  | construct
  | copy (source : Nat)
  | assign (target source : Nat)
  | addConstraint (v : Nat) (e : Expr)
  | destroy (v : Nat)

def World.step (w : World) : Op → Option World
  | .construct =>
    some { nodes := w.nodes ++ [⟨none,0,[]⟩]
           managers := w.managers ++ [some ⟨w.nodes.length,w.nodes.length⟩]}
  | .copy source => do
    let m ← w.manager source
    some {w with managers := w.managers ++ [some m]}
  | .assign target source => do
    let _ ← w.manager target
    let m ← w.manager source
    some (w.setManager target (some m))
  | .addConstraint v e => do
    let _ ← w.manager v
    w.addConstraint v e
  | .destroy v => do
    let _ ← w.manager v
    some (w.setManager v none)

abbrev History := List (Option (List Expr))

def History.conditions (h : History) (v : Nat) : Option (List Expr) := h[v]?.join

def History.step (h : History) : Op → Option History
  | .construct => some (h ++ [some []])
  | .copy source => do
    let C ← h.conditions source
    some (h ++ [some C])
  | .assign target source => do
    let _ ← h.conditions target
    let C ← h.conditions source
    some (h.set target (some C))
  | .addConstraint v e => do
    let C ← h.conditions v
    if e.hasFalseConjunct then none else some (h.set v (some (e.conjuncts.reverse ++ C)))
  | .destroy v => do
    let _ ← h.conditions v
    some (h.set v none)

def World.run (w : World) (ops : List Op) : Option World := ops.foldlM step w

def History.run (h : History) (ops : List Op) : Option History := ops.foldlM History.step h

inductive Path (w : World) (root : Nat) : Nat → List Expr → Prop
  | root : w.link root = none → Path w root root []
  | cond {n p : Nat} {e : Expr} {C : List Expr} :
      w.link n = some (p,e) → Path w root p C → Path w root n (e :: C)

structure Grown (w : World) : Prop where
  parent_lt : ∀ {n p : Nat} {e : Expr}, w.link n = some (p,e) → p < n
  depth_root : ∀ {n : Nat}, w.link n = none → w.depth n = 0
  depth_cond : ∀ {n p : Nat} {e : Expr}, w.link n = some (p,e) → w.depth n = w.depth p+1

variable {w w' : World} {root n : Nat} {C D : List Expr} {fuel p u : Nat}

lemma World.link_lt {n : Nat} {e : Expr} (h : w.link n = some (p,e)) : n < w.nodes.length := by
  unfold link at h
  by_contra hn
  rw [getElem?_eq_none (by omega)] at h
  cases h

lemma Path.eq_root (h : Path w root n []) : n = root := by
  cases h
  rfl

lemma Path.root_link (h : Path w root n C) : w.link root = none := by
  induction h with
  | root h => exact h
  | cond _ _ ih => exact ih

lemma Path.ne_root {e : Expr} (h : Path w root n (e :: C)) : n ≠ root := by
  rintro rfl
  have hr := h.root_link
  cases h with
  | cond hl _ => rw [hr] at hl; cases hl

lemma Path.depth (hw : Grown w) (h : Path w root n C) : w.depth n = C.length := by
  induction h with
  | root h => exact hw.depth_root h
  | cond hl _ ih => rw [hw.depth_cond hl,ih,length_cons]

lemma Path.walk (hw : Grown w) (hn : n ≤ fuel) (h : Path w root n C) :
    w.walk root (fuel+1) n = C := by
  induction h generalizing fuel with
  | root _ => simp [World.walk]
  | @cond n p e C hl hp ih =>
    have hne : n ≠ root := Path.ne_root (.cond hl hp)
    have hlt := hw.parent_lt hl
    obtain ⟨k,rfl⟩ : ∃ k, fuel = k+1 := ⟨fuel-1,by omega⟩
    rw [World.walk,if_neg hne,hl]
    exact congrArg (e :: ·) (ih (by omega))

lemma Path.conditions (hw : Grown w) {m : ConstraintManager} (hm : m.head < w.nodes.length)
    (h : Path w m.root m.head C) : w.conditions m = C := by
  unfold World.conditions
  obtain ⟨k,hk⟩ : ∃ k, w.nodes.length = k+1 := ⟨w.nodes.length-1,by omega⟩
  rw [hk]
  exact h.walk hw (by omega)

abbrev Holds (w : World) : Nat → Nat → Prop :=
  Relation.ReflTransGen fun m n => ∃ e, w.link m = some (n,e)

lemma World.mem_held (hw : Grown w) {m : Nat} (hm : m ≤ fuel) :
    n ∈ w.held fuel m ↔ Holds w m n := by
  induction fuel generalizing m with
  | zero =>
    obtain rfl : m = 0 := by omega
    constructor
    · intro h
      rw [held,mem_singleton] at h
      exact h ▸ .refl
    · intro h
      rcases h.cases_head with rfl | ⟨p,⟨e,hl⟩,-⟩
      · exact mem_singleton_self _
      · exact absurd (hw.parent_lt hl) (Nat.not_lt_zero p)
  | succ fuel ih =>
    cases hl : w.link m with
    | none =>
      rw [held,hl]
      constructor
      · intro h
        rw [mem_singleton] at h
        exact h ▸ .refl
      · intro h
        rcases h.cases_head with rfl | ⟨p,⟨e,hp⟩,-⟩
        · exact mem_singleton_self _
        · rw [hl] at hp; cases hp
    | some q =>
      obtain ⟨p,e⟩ := q
      have hlt := hw.parent_lt hl
      rw [held,hl]
      constructor
      · intro h
        rcases mem_cons.mp h with rfl | h
        · exact .refl
        · exact .head ⟨e,hl⟩ ((ih (by omega)).mp h)
      · intro h
        rcases h.cases_head with rfl | ⟨p',⟨e',hp⟩,ht⟩
        · exact mem_cons_self
        · rw [hl] at hp
          cases hp
          exact mem_cons_of_mem _ ((ih (by omega)).mpr ht)

def Live (w : World) (n : Nat) : Prop :=
  ∃ (v : Nat) (m : ConstraintManager), w.manager v = some m ∧ (Holds w m.head n ∨ Holds w m.root n)

lemma World.manager_mem {v : Nat} {m : ConstraintManager} (h : w.manager v = some m) :
    some m ∈ w.managers := by
  unfold manager at h
  rw [join_eq_some_iff] at h
  exact mem_of_getElem? h

lemma World.alive_iff (hw : Grown w) : w.alive n ↔ Live w n := by
  unfold alive Live
  rw [List.any_eq_true]
  constructor
  · rintro ⟨v,hv,h⟩
    cases v with
    | none => cases h
    | some m =>
      obtain ⟨i,hi⟩ := mem_iff_getElem?.mp hv
      simp only [Bool.or_eq_true,decide_eq_true_eq,mem_held hw le_rfl] at h
      exact ⟨i,m,by simp [manager,hi],h⟩
  · rintro ⟨v,m,hm,h⟩
    refine ⟨some m,manager_mem hm,?_⟩
    simpa only [Bool.or_eq_true,decide_eq_true_eq,mem_held hw le_rfl] using h

lemma Live.parent {e : Expr} (h : Live w n) (hl : w.link n = some (p,e)) : Live w p := by
  obtain ⟨v,m,hm,h⟩ := h
  exact ⟨v,m,hm,h.imp (·.tail ⟨e,hl⟩) (·.tail ⟨e,hl⟩)⟩

/-- What holds of the shared tree: a live node is the one its parent knows under its
expression, and every manager's head lies below its root. -/
structure Inv (w : World) (h : History) : Prop extends Grown w where
  known : ∀ {n p : Nat} {e : Expr}, Live w n → w.link n = some (p,e) →
    (w.children p).lookup e = some n
  child : ∀ {n p : Nat} {e : Expr}, (w.children p).lookup e = some n → w.link n = some (p,e)
  length : w.managers.length = h.length
  manager : ∀ {v : Nat} {m : ConstraintManager}, w.manager v = some m →
    ∃ C, h.conditions v = some C ∧ Path w m.root m.head C ∧ m.head < w.nodes.length
  history : ∀ {v : Nat} {C : List Expr}, h.conditions v = some C → ∃ m, w.manager v = some m

lemma Inv.path_unique {h : History} (hi : Inv w h) {n' : Nat} (hp : Path w root n C)
    (hp' : Path w root n' C) (hn : Live w n) (hn' : Live w n') : n = n' := by
  induction hp generalizing n' with
  | root _ => exact hp'.eq_root.symm
  | cond hl _ ih =>
    cases hp' with
    | cond hl' hp' =>
      obtain rfl := ih hp' (hn.parent hl) (hn'.parent hl')
      exact some.inj ((hi.known hn hl).symm.trans (hi.known hn' hl'))

lemma Path.conditions_unique (hp : Path w root n C) (hp' : Path w root n D) : C = D := by
  induction hp generalizing D with
  | root hr =>
    cases hp' with
    | root _ => rfl
    | cond hl _ => rw [hr] at hl; cases hl
  | cond hl hp ih =>
    cases hp' with
    | root hr => rw [hr] at hl; cases hl
    | cond hl' hp' =>
      rw [hl] at hl'
      cases hl'
      rw [ih hp']

structure SameNodes (w w' : World) : Prop where
  link : w'.link = w.link
  children : w'.children = w.children
  depth : w'.depth = w.depth
  length : w.nodes.length ≤ w'.nodes.length
  live : ∀ {n p : Nat} {e : Expr}, w.link n = some (p,e) → Live w' n → Live w n

section
variable (h : w'.nodes = w.nodes)
include h

lemma World.link_of_nodes : w'.link = w.link := by
  funext n
  rw [link,h,link]

lemma Holds.of_nodes {m : Nat} (hh : Holds w' m n) : Holds w m n := by
  unfold Holds at hh ⊢
  rwa [link_of_nodes h] at hh

lemma SameNodes.of_nodes (hl : ∀ {n : Nat}, Live w' n → Live w n) : SameNodes w w' where
  link := link_of_nodes h
  children := by funext n; rw [World.children,h,World.children]
  depth := by funext n; rw [World.depth,h,World.depth]
  length := by rw [h]
  live _ := hl

lemma SameNodes.of_managers (hm : ∀ {v : Nat} {m : ConstraintManager}, w'.manager v = some m →
      ∃ u, w.manager u = some m) : SameNodes w w' := by
  refine .of_nodes h fun {n} hl => ?_
  obtain ⟨v,m,hv,hh⟩ := hl
  obtain ⟨u,hu⟩ := hm hv
  exact ⟨u,m,hu,hh.imp (.of_nodes h) (.of_nodes h)⟩

end

lemma Grown.congr (hl : w'.link = w.link) (hd : w'.depth = w.depth) (hw : Grown w) :
    Grown w' := by
  constructor
  · rw [hl]; exact hw.parent_lt
  · rw [hl,hd]; exact hw.depth_root
  · rw [hl,hd]; exact hw.depth_cond

lemma Path.of_links (hl : ∀ n q, w.link n = some q → w'.link n = some q)
    (hr : w'.link root = none) (h : Path w root n C) : Path w' root n C := by
  induction h with
  | root _ => exact .root hr
  | cond he _ ih => exact .cond (hl _ _ he) ih

lemma Path.congr (hl : w'.link = w.link) (hp : Path w root n C) : Path w' root n C :=
  hp.of_links (fun _ _ hn => hl ▸ hn) (hl ▸ hp.root_link)

lemma SameNodes.inv {h h' : History} (hs : SameNodes w w') (hi : Inv w h)
    (hlen : w'.managers.length = h'.length)
    (hm : ∀ {v : Nat} {m : ConstraintManager}, w'.manager v = some m →
      ∃ C, h'.conditions v = some C ∧ Path w m.root m.head C ∧ m.head < w'.nodes.length)
    (hh : ∀ {v : Nat} {C : List Expr}, h'.conditions v = some C → ∃ m, w'.manager v = some m) :
    Inv w' h' where
  toGrown := hi.toGrown.congr hs.link hs.depth
  known hn hl := by
    rw [hs.link] at hl
    rw [hs.children]
    exact hi.known (hs.live hl hn) hl
  child hc := by
    rw [hs.children] at hc
    rw [hs.link]
    exact hi.child hc
  length := hlen
  manager hv := by
    obtain ⟨C,hC,hp,hlt⟩ := hm hv
    exact ⟨C,hC,hp.congr hs.link,hlt⟩
  history := hh

lemma World.manager_append (w : World) (m : Option ConstraintManager) (v : Nat) :
    manager {w with managers := w.managers ++ [m]} v =
      if v = w.managers.length then m else w.manager v := by
  simp only [manager]
  by_cases hv : v = w.managers.length
  · subst hv
    simp
  rw [if_neg hv]
  by_cases hlt : v < w.managers.length
  · rw [getElem?_append_left hlt]
  · rw [getElem?_eq_none (by simp; omega),getElem?_eq_none (by omega)]

lemma World.manager_setManager (w : World) (v : Nat) (m : Option ConstraintManager) (u : Nat)
    (hv : v < w.managers.length) :
    (w.setManager v m).manager u = if u = v then m else w.manager u := by
  simp only [manager,setManager,getElem?_set]
  by_cases hu : v = u
  · subst hu
    simp [hv]
  · rw [if_neg hu,if_neg (Ne.symm hu)]

lemma History.conditions_append (h : History) (C : Option (List Expr)) (v : Nat) :
    History.conditions (h ++ [C]) v = if v = h.length then C else h.conditions v := by
  simp only [conditions]
  by_cases hv : v = h.length
  · subst hv
    simp
  rw [if_neg hv]
  by_cases hlt : v < h.length
  · rw [getElem?_append_left hlt]
  · rw [getElem?_eq_none (by simp; omega),getElem?_eq_none (by omega)]

lemma History.conditions_set (h : History) (v : Nat) (C : Option (List Expr)) (u : Nat)
    (hv : v < h.length) :
    History.conditions (h.set v C) u = if u = v then C else h.conditions u := by
  simp only [conditions,getElem?_set]
  by_cases hu : v = u
  · subst hu
    simp [hv]
  · rw [if_neg hu,if_neg (Ne.symm hu)]

lemma World.manager_lt {v : Nat} {m : ConstraintManager} (h : w.manager v = some m) :
    v < w.managers.length := by
  by_contra hv
  rw [manager,getElem?_eq_none (by omega)] at h
  cases h

section Create
variable {e : Expr}

lemma World.nodes_create (w : World) (n : Nat) (e : Expr) (k : Nat) : (w.create n e).nodes[k]? =
      if k = w.nodes.length then some ⟨some (n,e),w.depth n+1,[]⟩
      else w.nodes[k]?.map fun node =>
        if n = k then {node with children := (e,w.nodes.length) :: node.children} else node := by
  by_cases hk : k = w.nodes.length
  · subst hk
    simp [create]
  rw [if_neg hk,create]
  by_cases hlt : k < w.nodes.length
  · rw [getElem?_append_left (by simpa using hlt),getElem?_modify]
    rfl
  · rw [getElem?_eq_none (by simp; omega),getElem?_eq_none (l := w.nodes) (by omega)]
    rfl

lemma World.link_create (w : World) (n : Nat) (e : Expr) (k : Nat) :
    (w.create n e).link k = if k = w.nodes.length then some (n,e) else w.link k := by
  rw [link,nodes_create]
  by_cases hk : k = w.nodes.length
  · rw [if_pos hk,if_pos hk]
    rfl
  rw [if_neg hk,if_neg hk,link]
  cases w.nodes[k]? with
  | none => rfl
  | some node => by_cases hnk : n = k <;> simp [hnk]

lemma World.depth_create (w : World) (n : Nat) (e : Expr) (k : Nat) :
    (w.create n e).depth k = if k = w.nodes.length then w.depth n+1 else w.depth k := by
  rw [depth,nodes_create]
  by_cases hk : k = w.nodes.length
  · rw [if_pos hk,if_pos hk]
    rfl
  rw [if_neg hk,if_neg hk,depth]
  cases w.nodes[k]? with
  | none => rfl
  | some node => by_cases hnk : n = k <;> simp [hnk]

lemma World.children_create (hn : n < w.nodes.length) (k : Nat) : (w.create n e).children k =
      if k = n then (e,w.nodes.length) :: w.children n else w.children k := by
  rw [children,nodes_create]
  by_cases hk : k = w.nodes.length
  · rw [if_pos hk,if_neg (by omega),children,getElem?_eq_none (by omega)]
    rfl
  rw [if_neg hk]
  by_cases hnk : k = n
  · subst hnk
    simp [children,getElem?_eq_getElem hn]
  rw [if_neg hnk,children]
  cases w.nodes[k]? with
  | none => rfl
  | some node => simp [Ne.symm hnk]

lemma World.length_create (w : World) (n : Nat) (e : Expr) :
    (w.create n e).nodes.length = w.nodes.length+1 := by
  simp [create]

lemma Holds.of_create (hw : Grown w) {m : Nat} (hm : m < w.nodes.length)
    (h : Holds (w.create n e) m root) : Holds w m root := by
  induction h using Relation.ReflTransGen.head_induction_on with
  | refl => exact .refl
  | head hl _ ih =>
    obtain ⟨d,hl⟩ := hl
    rw [link_create,if_neg (by omega)] at hl
    have hlt := hw.parent_lt hl
    exact .head ⟨d,hl⟩ (ih (by omega))

lemma Path.root_le (hw : Grown w) (h : Path w root n C) : root ≤ n := by
  induction h with
  | root _ => exact le_rfl
  | cond hl _ ih => exact le_trans ih (hw.parent_lt hl).le

lemma Path.create (hw : Grown w) (hn : n < w.nodes.length) {k : Nat} (h : Path w root n C) :
    Path (w.create k e) root n C := by
  have hr := h.root_le hw
  refine h.of_links (fun i q hi => ?_) ?_
  · obtain ⟨p,d⟩ := q
    rw [link_create,if_neg (link_lt hi).ne]
    exact hi
  · rw [link_create,if_neg (by omega)]
    exact h.root_link

end Create

variable {h : History} {v : Nat} {m : ConstraintManager} {e : Expr}

section
variable (hi : Inv w h)
include hi

section
variable (hm : w.manager v = some m)
include hm

lemma Inv.lt_length : v < h.length := hi.length ▸ manager_lt hm

lemma Inv.manager_set {head : Nat} (hnodes : w'.managers = w.managers)
    (hold : ∀ {root n : Nat} {C : List Expr}, n < w.nodes.length → Path w root n C →
      Path w' root n C ∧ n < w'.nodes.length)
    (hnew : Path w' m.root head D ∧ head < w'.nodes.length) {m' : ConstraintManager}
    (hu : (w'.setManager v (some {m with head})).manager u = some m') :
    ∃ C, History.conditions (h.set v (some D)) u = some C ∧ Path w' m'.root m'.head C ∧
      m'.head < w'.nodes.length := by
  have hlt := manager_lt hm
  rw [manager_setManager _ _ _ _ (by rw [hnodes]; exact hlt)] at hu
  rw [History.conditions_set _ _ _ _ (hi.lt_length hm)]
  by_cases huv : u = v
  · rw [if_pos huv] at hu ⊢
    cases hu
    exact ⟨D,rfl,hnew⟩
  rw [if_neg huv] at hu ⊢
  rw [World.manager,hnodes] at hu
  obtain ⟨C,hC,hp,hl⟩ := hi.manager hu
  exact ⟨C,hC,hold hl hp⟩

lemma Inv.history_set {m' : ConstraintManager} (hnodes : w'.managers = w.managers)
    (hu : History.conditions (h.set v (some D)) u = some C) :
    ∃ m, (w'.setManager v (some m')).manager u = some m := by
  have hlt := manager_lt hm
  rw [manager_setManager _ _ _ _ (by rw [hnodes]; exact hlt)]
  rw [History.conditions_set _ _ _ _ (hi.lt_length hm)] at hu
  by_cases huv : u = v
  · exact ⟨m',by rw [if_pos huv]⟩
  · rw [if_neg huv] at hu ⊢
    rw [World.manager,hnodes]
    exact hi.history hu

lemma Inv.extend_found {c : Nat} (hc : (w.children m.head).lookup e = some c) (hlive : Live w c)
    (hp : Path w m.root m.head C) :
    Inv (w.setManager v (some {m with head := c})) (h.set v (some (e :: C))) := by
  have hl := hi.child hc
  have hnew : Path w m.root c (e :: C) ∧ c < w.nodes.length := ⟨.cond hl hp,link_lt hl⟩
  have hs : SameNodes w (w.setManager v (some {m with head := c})) := by
    refine .of_nodes rfl fun {n} hn => ?_
    obtain ⟨u,m',hu,hh⟩ := hn
    rw [manager_setManager _ _ _ _ (manager_lt hm)] at hu
    by_cases huv : u = v
    · rw [if_pos huv] at hu
      cases hu
      obtain ⟨u',m',hu',hh'⟩ := hlive
      rcases hh with hh | hh
      · have hh : Holds w c n := Holds.of_nodes rfl hh
        exact ⟨u',m',hu',hh'.imp (·.trans hh) (·.trans hh)⟩
      · exact ⟨v,m,hm,.inr (Holds.of_nodes rfl hh)⟩
    · rw [if_neg huv] at hu
      exact ⟨u,m',hu,hh.imp (Holds.of_nodes rfl) (Holds.of_nodes rfl)⟩
  refine hs.inv hi ?_ (hi.manager_set hm rfl (fun hn hp => ⟨hp,hn⟩) hnew) (hi.history_set hm rfl)
  simpa [setManager] using hi.length

lemma Inv.live_create (hp : Path w m.root m.head C) (hlt : m.head < w.nodes.length)
    (hn : Live ((w.create m.head e).setManager v (some {m with head := w.nodes.length})) n) :
    n = w.nodes.length ∨ Live w n := by
  obtain ⟨u,m',hu,hh⟩ := hn
  have hold : ∀ {k : Nat}, k < w.nodes.length →
      Holds ((w.create m.head e).setManager v (some {m with head := w.nodes.length})) k n →
      Holds w k n :=
    fun hk hh => .of_create hi.toGrown hk (Holds.of_nodes (w := w.create m.head e) rfl hh)
  rw [manager_setManager (w.create m.head e) _ _ _ (manager_lt hm)] at hu
  by_cases huv : u = v
  · rw [if_pos huv] at hu
    cases hu
    rcases hh with hh | hh
    · rcases hh.cases_head with rfl | ⟨p,⟨d,hd⟩,hh⟩
      · exact .inl rfl
      · have hd : (w.create m.head e).link w.nodes.length = some (p,d) := hd
        rw [link_create,if_pos rfl] at hd
        cases hd
        exact .inr ⟨v,m,hm,.inl (hold hlt hh)⟩
    · have hr := hp.root_le hi.toGrown
      exact .inr ⟨v,m,hm,.inr (hold (by omega) hh)⟩
  · rw [if_neg huv] at hu
    have hu : w.manager u = some m' := hu
    obtain ⟨D,-,hp',hlt'⟩ := hi.manager hu
    have hr := hp'.root_le hi.toGrown
    exact .inr ⟨u,m',hu,hh.imp (hold hlt') (hold (by omega))⟩

lemma Inv.extend_created (hnone : ∀ c, (w.children m.head).lookup e = some c → ¬Live w c)
    (hp : Path w m.root m.head C) (hlt : m.head < w.nodes.length) :
    Inv ((w.create m.head e).setManager v (some {m with head := w.nodes.length}))
      (h.set v (some (e :: C))) := by
  have hlink := link_create w m.head e
  have hdepth := depth_create w m.head e
  have hchild := children_create (e := e) hlt
  have hg := hi.toGrown
  have hgrown : Grown (w.create m.head e) := by
    refine ⟨fun {n p d} hl => ?_,fun {n} hl => ?_,fun {n p d} hl => ?_⟩
    · rw [hlink] at hl
      split at hl
      · cases hl
        omega
      · exact hg.parent_lt hl
    · rw [hlink] at hl
      split at hl
      · cases hl
      next hn =>
        rw [hdepth,if_neg hn]
        exact hg.depth_root hl
    · rw [hlink] at hl
      split at hl
      next hn =>
        cases hl
        rw [hdepth,hdepth,if_pos hn,if_neg hlt.ne]
      rename_i hn
      have h1 := link_lt hl
      have h2 := hg.parent_lt hl
      rw [hdepth,hdepth,if_neg hn,if_neg (by omega)]
      exact hg.depth_cond hl
  have hpath : Path (w.create m.head e) m.root w.nodes.length (e :: C) :=
    .cond (by rw [hlink,if_pos rfl]) (hp.create hg hlt)
  have hlen := length_create w m.head e
  have hnode := @link_of_nodes (w.create m.head e)
    ((w.create m.head e).setManager v (some {m with head := w.nodes.length})) rfl
  refine
    { toGrown := Grown.congr (w := w.create m.head e) rfl rfl hgrown
      known := fun {n p d} hn hl => ?_
      child := fun {n p d} hc => ?_
      length := by simpa [setManager,create] using hi.length
      manager := fun hu => ?_
      history := hi.history_set hm rfl}
  · rw [hnode,hlink] at hl
    show ((w.create m.head e).children p).lookup d = some n
    rw [hchild]
    split at hl
    next hn =>
      cases hl
      rw [if_pos rfl,hn]
      simp
    next hne =>
      have hn := (hi.live_create hm hp hlt hn).resolve_left hne
      have hk := hi.known hn hl
      split
      next hpm =>
        subst hpm
        rw [lookup_cons]
        split
        next hde =>
          rw [eq_of_beq hde] at hk
          exact absurd hn (hnone n hk)
        · exact hk
      · exact hk
  · change ((w.create m.head e).children p).lookup d = some n at hc
    rw [hnode,hlink]
    rw [hchild] at hc
    split at hc
    next hpm =>
      subst hpm
      rw [lookup_cons] at hc
      split at hc
      next hde =>
        cases hc
        rw [if_pos rfl,eq_of_beq hde]
      · have hl := hi.child hc
        rw [if_neg (link_lt hl).ne]
        exact hl
    · have hl := hi.child hc
      rw [if_neg (link_lt hl).ne]
      exact hl
  · obtain ⟨D,hD,hp',hl⟩ := hi.manager_set hm (rfl : (w.create m.head e).managers = w.managers)
      (fun hn hp => ⟨hp.create hg hn,by omega⟩) ⟨hpath,by omega⟩ hu
    exact ⟨D,hD,Path.congr (w := w.create m.head e) rfl hp',hl⟩

lemma Inv.extend (hC : h.conditions v = some C) :
    Inv (w.extend v m e) (h.set v (some (e :: C))) := by
  obtain ⟨C',hC',hp,hlt⟩ := hi.manager hm
  obtain rfl : C = C' := some.inj (hC.symm.trans hC')
  unfold World.extend getOrCreate
  cases hc : (w.children m.head).lookup e with
  | none => exact hi.extend_created hm (fun c hc' => by rw [hc] at hc'; cases hc') hp hlt
  | some c =>
    dsimp only
    by_cases ha : w.alive c
    · rw [if_pos ha]
      exact hi.extend_found hm hc ((alive_iff hi.toGrown).mp ha) hp
    rw [if_neg ha]
    refine hi.extend_created hm (fun c' hc' => ?_) hp hlt
    obtain rfl : c = c' := some.inj (hc.symm.trans hc')
    exact fun hl => ha ((alive_iff hi.toGrown).mpr hl)

end

lemma Inv.addConstraint (hC : h.conditions v = some C) (he : e.hasFalseConjunct = false) :
    ∃ w', w.addConstraint v e = some w' ∧ Inv w' (h.set v (some (e.conjuncts.reverse ++ C))) := by
  have hlt : v < h.length := by
    obtain ⟨m,hm⟩ := hi.history hC
    exact hi.lt_length hm
  fun_induction Expr.conjuncts e generalizing w h C with
  | case1 c =>
    have hself : h.set v (some C) = h := by
      apply ext_getElem?
      intro i
      rw [getElem?_set]
      split
      next hiv =>
        subst hiv
        exact (join_eq_some_iff.mp hC).symm
      · rfl
    have hc : c.isTrue := by simpa [Expr.hasFalseConjunct] using he
    refine ⟨w,by rw [addConstraint,if_pos hc],?_⟩
    simpa [hself] using hi
  | case2 l r ihl ihr =>
    rw [Expr.hasFalseConjunct,Bool.or_eq_false_iff] at he
    obtain ⟨w₁,h₁,hi₁⟩ := ihl hi hC he.1 hlt
    have hC₁ : History.conditions (h.set v (some (l.conjuncts.reverse ++ C))) v =
        some (l.conjuncts.reverse ++ C) := by
      rw [History.conditions_set _ _ _ _ hlt,if_pos rfl]
    obtain ⟨w₂,h₂,hi₂⟩ := ihr hi₁ hC₁ he.2 (by simpa using hlt)
    refine ⟨w₂,by rw [addConstraint,h₁]; exact h₂,?_⟩
    simpa [set_set,append_assoc] using hi₂
  | case3 e h1 h2 =>
    obtain ⟨m,hm⟩ := hi.history hC
    refine ⟨w.extend v m e,?_,hi.extend hm hC⟩
    unfold addConstraint
    split
    · exact absurd rfl (h1 _)
    · exact absurd rfl (h2 _ _)
    · rw [hm]
      rfl

variable {op : Op} {h' : History}

lemma Inv.construct :
    Inv { nodes := w.nodes ++ [⟨none,0,[]⟩]
          managers := w.managers ++ [some ⟨w.nodes.length,w.nodes.length⟩]} (h ++ [some []]) := by
  have hget : ∀ n, (w.nodes ++ [⟨none,0,[]⟩])[n]? =
      if n = w.nodes.length then some ⟨none,0,[]⟩ else w.nodes[n]? := by
    intro n
    by_cases hn : n = w.nodes.length
    · subst hn
      simp
    rw [if_neg hn]
    by_cases hlt : n < w.nodes.length
    · rw [getElem?_append_left hlt]
    · rw [getElem?_eq_none (by simp; omega),getElem?_eq_none (by omega)]
  have hout : w.nodes[w.nodes.length]? = none := getElem?_eq_none le_rfl
  have hmgr := manager_append w (some ⟨w.nodes.length,w.nodes.length⟩)
  have hcond := History.conditions_append h (some [])
  have hnone : w.link w.nodes.length = none := by rw [link,hout]; rfl
  generalize hw' : (⟨w.nodes ++ [⟨none,0,[]⟩],
    w.managers ++ [some ⟨w.nodes.length,w.nodes.length⟩]⟩ : World) = w'
  have hnodes : w'.nodes = w.nodes ++ [⟨none,0,[]⟩] := by rw [← hw']
  have hmgr' : ∀ v, w'.manager v =
      if v = w.managers.length then some ⟨w.nodes.length,w.nodes.length⟩ else w.manager v := by
    intro v
    rw [← hw']
    exact hmgr v
  have hlink : w'.link = w.link := by
    funext n
    rw [link,link,hnodes,hget]
    split
    next hn =>
      rw [hn,hout]
      rfl
    · rfl
  refine SameNodes.inv ⟨hlink,?_,?_,by rw [hnodes]; simp,?_⟩ hi ?_ ?_ ?_
  · funext n
    rw [children,children,hnodes,hget]
    split
    next hn =>
      rw [hn,hout]
      rfl
    · rfl
  · funext n
    rw [depth,depth,hnodes,hget]
    split
    next hn =>
      rw [hn,hout]
      rfl
    · rfl
  · intro n p d hl hn
    obtain ⟨v,m,hv,hh⟩ := hn
    simp only [Holds,hlink] at hh
    rw [hmgr'] at hv
    split at hv
    · cases hv
      have hh : Holds w w.nodes.length n := hh.elim id id
      rcases hh.cases_head with rfl | ⟨q,⟨e,he⟩,-⟩
      · rw [hnone] at hl
        cases hl
      · rw [hnone] at he
        cases he
    · exact ⟨v,m,hv,hh⟩
  · rw [← hw']
    simpa using hi.length
  · intro v m hv
    rw [hmgr'] at hv
    rw [hcond,← hi.length]
    split at hv
    next hvl =>
      cases hv
      rw [if_pos hvl]
      exact ⟨[],rfl,.root hnone,by rw [hnodes]; simp⟩
    next hvl =>
      rw [if_neg hvl]
      obtain ⟨C,hC,hp,hlt⟩ := hi.manager hv
      exact ⟨C,hC,hp,by rw [hnodes]; simp; omega⟩
  · intro v C hv
    rw [hmgr']
    rw [hcond,← hi.length] at hv
    split at hv
    next hvl =>
      exact ⟨_,if_pos hvl⟩
    next hvl =>
      rw [if_neg hvl]
      exact hi.history hv

lemma Inv.copy (hm : w.manager v = some m) (hC : h.conditions v = some C) :
    Inv {w with managers := w.managers ++ [some m]} (h ++ [some C]) := by
  have hmgr := manager_append w (some m)
  have hcond := History.conditions_append h (some C)
  refine SameNodes.inv (SameNodes.of_managers (w := w) rfl fun {u m'} hu => ?_) hi ?_
    (fun {u m'} hu => ?_)
    fun {u D} hu => ?_
  · rw [hmgr] at hu
    split at hu
    · exact ⟨v,hu ▸ hm⟩
    · exact ⟨u,hu⟩
  · simpa using hi.length
  · rw [hmgr] at hu
    rw [hcond,← hi.length]
    split at hu
    next hul =>
      cases hu
      rw [if_pos hul]
      obtain ⟨C',hC',hp,hlt⟩ := hi.manager hm
      obtain rfl : C = C' := some.inj (hC.symm.trans hC')
      exact ⟨C,rfl,hp,hlt⟩
    next hul =>
      rw [if_neg hul]
      exact hi.manager hu
  · rw [hmgr]
    rw [hcond,← hi.length] at hu
    split at hu
    next hul =>
      exact ⟨m,if_pos hul⟩
    next hul =>
      rw [if_neg hul]
      exact hi.history hu

lemma Inv.set (hv : v < w.managers.length) {m : Option ConstraintManager}
    {D : Option (List Expr)} (hmD : m.isSome = D.isSome)
    (hm : ∀ m', m = some m' → ∃ u, w.manager u = some m' ∧ h.conditions u = D) :
    Inv (w.setManager v m) (h.set v D) := by
  have hmgr := fun u => manager_setManager w v m u hv
  have hcond := fun u => History.conditions_set h v D u (hi.length ▸ hv)
  refine SameNodes.inv (SameNodes.of_managers (w := w) rfl fun {u m'} hu => ?_) hi ?_
    (fun {u m'} hu => ?_)
    fun {u C} hu => ?_
  · rw [hmgr] at hu
    split at hu
    · obtain ⟨u',hu',-⟩ := hm m' hu
      exact ⟨u',hu'⟩
    · exact ⟨u,hu⟩
  · simpa [setManager] using hi.length
  · rw [hmgr] at hu
    rw [hcond]
    split at hu
    next huv =>
      obtain ⟨u',hu',hD⟩ := hm m' hu
      obtain ⟨C,hC,hp⟩ := hi.manager hu'
      exact ⟨C,by rw [if_pos huv,← hD,hC],hp⟩
    next huv =>
      rw [if_neg huv]
      exact hi.manager hu
  · rw [hmgr]
    rw [hcond] at hu
    split at hu
    next huv =>
      rw [if_pos huv]
      exact isSome_iff_exists.mp (by rw [hmD,hu]; rfl)
    next huv =>
      rw [if_neg huv]
      exact hi.history hu

lemma Inv.step (hs : h.step op = some h') : ∃ w', w.step op = some w' ∧ Inv w' h' := by
  cases op with
  | construct =>
    cases hs
    exact ⟨_,rfl,hi.construct⟩
  | copy source =>
    obtain ⟨C,hC,hs⟩ := bind_eq_some_iff.mp hs
    cases hs
    obtain ⟨m,hm⟩ := hi.history hC
    exact ⟨_,by rw [step,hm]; rfl,hi.copy hm hC⟩
  | assign target source =>
    obtain ⟨D,C,hD,hC,hs⟩ := bind_bind_eq_some hs
    cases hs
    obtain ⟨m,hm⟩ := hi.history hC
    obtain ⟨m₁,hm₁⟩ := hi.history hD
    refine ⟨_,by rw [step,hm₁,hm]; rfl,?_⟩
    refine hi.set (manager_lt hm₁) rfl fun m' hm' => ⟨source,?_,hC⟩
    rw [hm,hm']
  | addConstraint v e =>
    obtain ⟨C,hC,hs⟩ := bind_eq_some_iff.mp hs
    obtain ⟨m,hm⟩ := hi.history hC
    split at hs
    · cases hs
    rename_i he
    cases hs
    obtain ⟨w',hw',hi'⟩ := hi.addConstraint hC (by simpa using he)
    exact ⟨w',by rw [step,hm]; exact hw',hi'⟩
  | destroy v =>
    obtain ⟨C,hC,hs⟩ := bind_eq_some_iff.mp hs
    cases hs
    obtain ⟨m,hm⟩ := hi.history hC
    refine ⟨_,by rw [step,hm]; rfl,?_⟩
    exact hi.set (manager_lt hm) rfl fun m' hm' => by cases hm'

lemma Inv.run {ops : List Op} (hs : h.run ops = some h') :
    ∃ w', w.run ops = some w' ∧ Inv w' h' := by
  induction ops generalizing w h with
  | nil =>
    cases hs
    exact ⟨w,rfl,hi⟩
  | cons op ops ih =>
    obtain ⟨h₁,h1,h2⟩ := bind_eq_some_iff.mp hs
    obtain ⟨w₁,hw₁,hi₁⟩ := hi.step h1
    obtain ⟨w',hw',hi'⟩ := ih hi₁ h2
    exact ⟨w',by rw [run,foldlM_cons,hw₁]; exact hw',hi'⟩

end

lemma Inv.empty : Inv ⟨[],[]⟩ [] where
  parent_lt h := by cases h
  depth_root _ := rfl
  depth_cond h := by cases h
  known _ h := by cases h
  child h := by cases h
  length := rfl
  manager h := by cases h
  history h := by cases h

lemma Live.head (hm : w.manager v = some m) : Live w m.head := ⟨v,m,hm,.inl .refl⟩

/-- Whatever managers are made, copied, assigned, extended and destroyed: a manager
enumerates the conjuncts added along its own history, the newest first; `size` is their
number; and two managers with one root are equal exactly when their conditions are. -/
theorem run_conditions {ops : List Op} (hs : History.run [] ops = some h) :
    ∃ w, run ⟨[],[]⟩ ops = some w ∧ (∀ v, (w.manager v).isSome = (h.conditions v).isSome) ∧
      (∀ v m C, w.manager v = some m → h.conditions v = some C →
        w.conditions m = C ∧ w.size m = C.length) ∧
      ∀ v v' m m' C C', w.manager v = some m → w.manager v' = some m' →
        h.conditions v = some C → h.conditions v' = some C' → m.root = m'.root →
        (m.equals m' = true ↔ C = C') := by
  obtain ⟨w,hw,hi⟩ := Inv.empty.run hs
  have hpath : ∀ {v m C}, w.manager v = some m → h.conditions v = some C →
      Path w m.root m.head C ∧ m.head < w.nodes.length := by
    intro v m C hm hC
    obtain ⟨C',hC',hp⟩ := hi.manager hm
    obtain rfl : C = C' := some.inj (hC.symm.trans hC')
    exact hp
  refine ⟨w,hw,fun v => ?_,fun v m C hm hC => ?_,fun v v' m m' C C' hm hm' hC hC' hr => ?_⟩
  · cases hC : h.conditions v with
    | none =>
      cases hm : w.manager v with
      | none => rfl
      | some m =>
        obtain ⟨C,hC',-⟩ := hi.manager hm
        rw [hC] at hC'
        cases hC'
    | some C =>
      obtain ⟨m,hm⟩ := hi.history hC
      rw [hm]
      rfl
  · obtain ⟨hp,hlt⟩ := hpath hm hC
    exact ⟨hp.conditions hi.toGrown hlt,hp.depth hi.toGrown⟩
  · have hp := (hpath hm hC).1
    have hp' := (hpath hm' hC').1
    rw [← hr] at hp'
    rw [ConstraintManager.equals,beq_iff_eq]
    constructor
    · intro he
      rw [← he] at hp'
      exact hp.conditions_unique hp'
    · rintro rfl
      exact hi.path_unique hp hp' (.head hm) (.head hm')

def byteIs (i v : Nat) : Expr :=
  .binary .eq (ConstantExpr.alloc v 8)
    (.read (.root (.symbolic 0 8 eight_fits)) (ConstantExpr.alloc i 32))

def branchAndJoin : List Op :=
  [.construct,.copy 0,.addConstraint 0 (.binary .and (byteIs 0 1) (byteIs 1 2)),.destroy 0,
    .addConstraint 1 (byteIs 0 1),.copy 1,.addConstraint 2 (byteIs 1 2),.assign 1 2]

def joinedHistory : History :=
  [none,some [byteIs 1 2,byteIs 0 1],some [byteIs 1 2,byteIs 0 1]]

theorem run_conditions_branchAndJoin : History.run [] branchAndJoin = some joinedHistory ∧
    ∃ w, run ⟨[],[]⟩ branchAndJoin = some w ∧
      (∀ v, (w.manager v).isSome = (joinedHistory.conditions v).isSome) ∧
      (∀ v m C, w.manager v = some m → joinedHistory.conditions v = some C →
        w.conditions m = C ∧ w.size m = C.length) ∧
      ∀ v v' m m' C C', w.manager v = some m → w.manager v' = some m' →
        joinedHistory.conditions v = some C → joinedHistory.conditions v' = some C' →
        m.root = m'.root → (m.equals m' = true ↔ C = C') :=
  ⟨rfl,run_conditions (rfl : History.run [] branchAndJoin = some joinedHistory)⟩

end S2E.Trie
