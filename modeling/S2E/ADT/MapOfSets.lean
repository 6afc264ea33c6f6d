import Mathlib

/-!
`MapOfSets`: a map whose keys are finite sets, kept as a tree that is branched by the
elements of the sets in order. It can be searched for a stored subset or superset of a set.

A set is the list of its elements in the order `less`.
-/

namespace S2E.MapOfSets
open Option
open List hiding set

variable {K V : Type}

/-- `std::set::insert`: the element is not added where it would be equivalent to one that is
there. -/
def insertSet (less : K → K → Bool) (x : K) : List K → List K
  | [] => [x]
  | y :: ys =>
    if less x y then x :: y :: ys
    else if less y x then y :: insertSet less x ys
    else y :: ys

lemma mem_insertSet {less : K → K → Bool}
    (hless : ∀ x y, less x y = false → less y x = false → x = y) {x y : K} {l : List K} :
    y ∈ insertSet less x l ↔ y = x ∨ y ∈ l := by
  induction l with
  | nil => simp [insertSet]
  | cons z zs ih =>
    unfold insertSet
    split
    · exact mem_cons
    rename_i hxz
    split
    · rw [mem_cons,ih,mem_cons,or_left_comm]
    next hzx =>
      obtain rfl := hless x z (by simpa using hxz) (by simpa using hzx)
      simp

mutual
inductive Node (K V : Type) where
  | mk (value : Option V) (children : Children K V)

inductive Children (K V : Type) where
  | nil
  | cons (key : K) (node : Node K V) (rest : Children K V)
end

def Node.empty : Node K V := .mk none .nil

def Node.single (v : V) : List K → Node K V
  | [] => .mk (some v) .nil
  | k :: ks => .mk none (.cons k (Node.single v ks) .nil)

section Code
variable [DecidableEq K] (less : K → K → Bool)

mutual
def Node.insert (v : V) : Node K V → List K → Node K V
  | .mk _ children, [] => .mk (some v) children
  | .mk value children, k :: ks => .mk value (children.insert v k ks)

def Children.insert (v : V) : Children K V → K → List K → Children K V
  | .nil, k, ks => .cons k (Node.single v ks) .nil
  | .cons key node rest, k, ks =>
    if k = key then .cons key (node.insert v ks) rest
    else if less k key then .cons k (Node.single v ks) (.cons key node rest)
    else .cons key node (rest.insert v k ks)
end

mutual
def Node.lookup : Node K V → List K → Option V
  | .mk value _, [] => value
  | .mk _ children, k :: ks => children.lookup k ks

def Children.lookup : Children K V → K → List K → Option V
  | .nil, _, _ => none
  | .cons key node rest, k, ks => if k = key then node.lookup ks else rest.lookup k ks
end

mutual
/-- The search for a superset with the property goes through all children before it takes
the child of the first element. -/
def Node.findSuperset (p : V → Bool) : Node K V → List K → Option V
  | .mk value children, [] => (value.filter p).or (children.anySuperset p [])
  | .mk _ children, x :: xs =>
    (children.anySuperset p (x :: xs)).or (children.midSuperset p x xs)

def Children.anySuperset (p : V → Bool) : Children K V → List K → Option V
  | .nil, _ => none
  | .cons _ node rest, set => (node.findSuperset p set).or (rest.anySuperset p set)

def Children.midSuperset (p : V → Bool) : Children K V → K → List K → Option V
  | .nil, _, _ => none
  | .cons key node rest, x, xs =>
    if less key x then rest.midSuperset p x xs
    else if x = key then node.findSuperset p xs
    else none
end

def orElse {σ : Type} (m m' : StateT σ Option (Option V)) : StateT σ Option (Option V) := do
  match ← m with
  | some v => pure (some v)
  | none => m'

mutual
def Node.findSubset {σ : Type} (p : V → StateT σ Option Bool) :
    Node K V → List K → StateT σ Option (Option V)
  | .mk value children, set =>
    match value with
    | some v => do
      if ← p v then pure (some v) else children.findSubset p set
    | none => children.findSubset p set

/-- The loop over the children and over the elements of the set, both in order. Children
before the first element, which the source skips with `lower_bound`, are skipped here too. -/
def Children.findSubset {σ : Type} (p : V → StateT σ Option Bool) :
    Children K V → List K → StateT σ Option (Option V)
  | .nil, _ => pure none
  | .cons key node rest, set =>
    match set.dropWhile (less · key) with
    | [] => pure none
    | x :: xs =>
      if x = key then
        orElse (node.findSubset p xs) (if xs.isEmpty then pure none else rest.findSubset p xs)
      else rest.findSubset p (x :: xs)
end
end Code

mutual
def Node.Stored : Node K V → List K → V → Prop
  | .mk value _, [], v => value = some v
  | .mk _ children, k :: ks, v => children.Stored k ks v

def Children.Stored : Children K V → K → List K → V → Prop
  | .nil, _, _, _ => False
  | .cons key node rest, k, ks, v => (k = key ∧ node.Stored ks v) ∨ rest.Stored k ks v
end

lemma Node.not_stored_empty (set : List K) (v : V) : ¬(Node.empty : Node K V).Stored set v := by
  cases set with
  | nil => exact nofun
  | cons k ks => exact fun h => h

lemma Node.single_stored {v w : V} : {ks set : List K} →
    ((Node.single v ks).Stored set w ↔ set = ks ∧ v = w)
  | [], [] => by simp [Node.single,Node.Stored]
  | [], _ :: _ => by simp [Node.single,Node.Stored,Children.Stored]
  | _ :: _, [] => by simp [Node.single,Node.Stored]
  | k :: ks, x :: xs => by
    simp [Node.single,Node.Stored,Children.Stored,@Node.single_stored v w ks,and_assoc]

section Spec
variable [DecidableEq K] {less : K → K → Bool}

mutual
theorem Node.stored_insert {v w : V} : (n : Node K V) → {ks set : List K} →
    (n.insert less v ks).Stored set w → (set = ks ∧ w = v) ∨ n.Stored set w
  | .mk value children, [], [], h => .inl ⟨rfl,(some.inj h).symm⟩
  | .mk value children, [], x :: xs, h => .inr h
  | .mk value children, k :: ks, [], h => .inr h
  | .mk value children, k :: ks, x :: xs, h => by
    rcases children.stored_insert h with ⟨rfl,rfl,rfl⟩ | h
    · exact .inl ⟨rfl,rfl⟩
    · exact .inr h

theorem Children.stored_insert {v w : V} : (ch : Children K V) → {k x : K} → {ks xs : List K} →
    (ch.insert less v k ks).Stored x xs w → (x = k ∧ xs = ks ∧ w = v) ∨ ch.Stored x xs w
  | .nil, k, x, ks, xs, h => by
    rcases h with ⟨rfl,h⟩ | h
    · obtain ⟨rfl,rfl⟩ := Node.single_stored.mp h
      exact .inl ⟨rfl,rfl,rfl⟩
    · exact h.elim
  | .cons key node rest, k, x, ks, xs, h => by
    unfold Children.insert at h
    split at h
    next hk =>
      rcases h with ⟨rfl,h⟩ | h
      · rcases node.stored_insert h with ⟨rfl,rfl⟩ | h
        · exact .inl ⟨hk.symm,rfl,rfl⟩
        · exact .inr (.inl ⟨rfl,h⟩)
      · exact .inr (.inr h)
    · split at h
      · rcases h with ⟨rfl,h⟩ | h
        · obtain ⟨rfl,rfl⟩ := Node.single_stored.mp h
          exact .inl ⟨rfl,rfl,rfl⟩
        · exact .inr h
      · rcases h with ⟨rfl,h⟩ | h
        · exact .inr (.inl ⟨rfl,h⟩)
        · rcases rest.stored_insert h with h | h
          · exact .inl h
          · exact .inr (.inr h)
end

mutual
theorem Node.stored_of_lookup {v : V} : (n : Node K V) → {set : List K} →
    n.lookup set = some v → n.Stored set v
  | .mk _ _, [], h => h
  | .mk _ children, _ :: _, h => children.stored_of_lookup h

theorem Children.stored_of_lookup {v : V} : (ch : Children K V) → {k : K} → {ks : List K} →
    ch.lookup k ks = some v → ch.Stored k ks v
  | .nil, _, _, h => nomatch h
  | .cons key node rest, k, ks, h => by
    unfold Children.lookup at h
    split at h
    next hk =>
      exact .inl ⟨hk,node.stored_of_lookup h⟩
    · exact .inr (rest.stored_of_lookup h)
end

mutual
theorem Node.findSuperset_stored {p : V → Bool} {v : V} : (n : Node K V) → {set : List K} →
    n.findSuperset less p set = some v → p v ∧ ∃ path, n.Stored path v ∧ set ⊆ path
  | .mk value children, [], h => by
    rw [Node.findSuperset,or_eq_some_iff] at h
    rcases h with h | ⟨-,h⟩
    · obtain ⟨hv,hp⟩ := filter_eq_some_iff.mp h
      exact ⟨hp,[],hv,Subset.refl _⟩
    · obtain ⟨hp,k,ks,hs,-⟩ := children.anySuperset_stored h
      exact ⟨hp,k :: ks,hs,nil_subset _⟩
  | .mk value children, x :: xs, h => by
    rw [Node.findSuperset,or_eq_some_iff] at h
    rcases h with h | ⟨-,h⟩
    · obtain ⟨hp,k,ks,hs,hsub⟩ := children.anySuperset_stored h
      exact ⟨hp,k :: ks,hs,subset_cons_of_subset k hsub⟩
    · obtain ⟨hp,ks,hs,hsub⟩ := children.midSuperset_stored h
      exact ⟨hp,x :: ks,hs,cons_subset_cons x hsub⟩

theorem Children.anySuperset_stored {p : V → Bool} {v : V} : (ch : Children K V) →
    {set : List K} → ch.anySuperset less p set = some v → p v ∧ ∃ k ks, ch.Stored k ks v ∧ set ⊆ ks
  | .nil, _, h => nomatch h
  | .cons key node rest, set, h => by
    rw [Children.anySuperset,or_eq_some_iff] at h
    rcases h with h | ⟨-,h⟩
    · obtain ⟨hp,path,hs,hsub⟩ := node.findSuperset_stored h
      exact ⟨hp,key,path,.inl ⟨rfl,hs⟩,hsub⟩
    · obtain ⟨hp,k,ks,hs,hsub⟩ := rest.anySuperset_stored h
      exact ⟨hp,k,ks,.inr hs,hsub⟩

theorem Children.midSuperset_stored {p : V → Bool} {v : V} : (ch : Children K V) → {x : K} →
    {xs : List K} → ch.midSuperset less p x xs = some v → p v ∧ ∃ ks, ch.Stored x ks v ∧ xs ⊆ ks
  | .nil, _, _, h => nomatch h
  | .cons key node rest, x, xs, h => by
    unfold Children.midSuperset at h
    split at h
    · obtain ⟨hp,ks,hs,hsub⟩ := rest.midSuperset_stored h
      exact ⟨hp,ks,.inr hs,hsub⟩
    split at h
    next hx =>
      obtain ⟨hp,path,hs,hsub⟩ := node.findSuperset_stored h
      exact ⟨hp,path,.inl ⟨hx,hs⟩,hsub⟩
    · cases h
end

def Finds {σ : Type} (I : σ → Prop) (m : StateT σ Option (Option V)) (Q : V → Prop) : Prop :=
  ∀ s, I s → ∃ res s', m s = some (res,s') ∧ I s' ∧ ∀ v, res = some v → Q v

section Finds

omit [DecidableEq K]

variable {σ : Type} {I : σ → Prop} {Q R : V → Prop}

lemma Finds.nothing : Finds I (pure none) Q :=
  fun s hs => ⟨none,s,rfl,hs,nofun⟩

variable {m : StateT σ Option (Option V)}

lemma Finds.mono (h : Finds I m Q) (hqr : ∀ v, Q v → R v) : Finds I m R := by
  intro s hs
  obtain ⟨res,s',hm,hs',hres⟩ := h s hs
  exact ⟨res,s',hm,hs',fun v hv => hqr v (hres v hv)⟩

lemma Finds.orElse {m' : StateT σ Option (Option V)} (h : Finds I m Q) (h' : Finds I m' Q) :
    Finds I (MapOfSets.orElse m m') Q := by
  intro s hs
  unfold MapOfSets.orElse
  obtain ⟨res,s₁,hm,hs₁,hres⟩ := h s hs
  cases res with
  | some v => exact ⟨some v,s₁,by simp [bind,StateT.bind,hm]; rfl,hs₁,hres⟩
  | none =>
    obtain ⟨res',s₂,hm',hs₂,hres'⟩ := h' s₁ hs₁
    exact ⟨res',s₂,by simp [bind,StateT.bind,hm,hm'],hs₂,hres'⟩

lemma Finds.test {p : V → StateT σ Option Bool} {v : V}
    (hp : ∀ s, I s → ∃ b s', p v s = some (b,s') ∧ I s' ∧ (b → Q v)) (h : Finds I m Q) :
    Finds I (do if ← p v then pure (some v) else m) Q := by
  intro s hs
  obtain ⟨b,s₁,hb,hs₁,hq⟩ := hp s hs
  cases b with
  | true =>
    refine ⟨some v,s₁,by simp [bind,StateT.bind,hb]; rfl,hs₁,fun w hw => ?_⟩
    cases some.inj hw
    exact hq rfl
  | false =>
    obtain ⟨res,s₂,hm,hs₂,hres⟩ := h s₁ hs₁
    exact ⟨res,s₂,by simp [bind,StateT.bind,hb,hm],hs₂,hres⟩

end Finds

def Tests {σ : Type} (I : σ → Prop) (p : V → StateT σ Option Bool) (P : V → Prop) (v : V) : Prop :=
  ∀ s, I s → ∃ b s', p v s = some (b,s') ∧ I s' ∧ (b = true → P v)

mutual
theorem Node.findSubset_stored {σ : Type} {I : σ → Prop} {p : V → StateT σ Option Bool}
    {P : V → Prop} : (n : Node K V) → (∀ path v, n.Stored path v → Tests I p P v) →
    (set : List K) → Finds I (n.findSubset less p set)
      fun v => P v ∧ ∃ path, n.Stored path v ∧ path ⊆ set
  | .mk value children, hp, set => by
    have hch := children.findSubset_stored (fun k ks v hs => hp (k :: ks) v hs) set
    have hch' := hch.mono (R := fun v => P v ∧ ∃ path, (Node.mk value children).Stored path v ∧
        path ⊆ set) fun v ⟨hv,k,ks,hs,hsub⟩ => ⟨hv,k :: ks,hs,hsub⟩
    cases value with
    | none => exact hch'
    | some v =>
      refine Finds.test (fun s hs => ?_) hch'
      obtain ⟨b,s',hb,hs',hq⟩ := hp [] v rfl s hs
      exact ⟨b,s',hb,hs',fun h => ⟨hq h,[],rfl,nil_subset _⟩⟩

theorem Children.findSubset_stored {σ : Type} {I : σ → Prop} {p : V → StateT σ Option Bool}
    {P : V → Prop} : (ch : Children K V) → (∀ k ks v, ch.Stored k ks v → Tests I p P v) →
    (set : List K) → Finds I (ch.findSubset less p set)
      fun v => P v ∧ ∃ k ks, ch.Stored k ks v ∧ k :: ks ⊆ set
  | .nil, _, _ => Finds.nothing
  | .cons key node rest, hp, set => by
    have hrest : ∀ set', set' ⊆ set → Finds I (rest.findSubset less p set') fun v =>
        P v ∧ ∃ k ks, (Children.cons key node rest).Stored k ks v ∧ k :: ks ⊆ set := by
      intro set' hset'
      refine (rest.findSubset_stored (fun k ks v hs => hp k ks v (.inr hs)) set').mono ?_
      rintro v ⟨hv,k,ks,hs,hsub⟩
      exact ⟨hv,k,ks,.inr hs,Subset.trans hsub hset'⟩
    have hdrop := (dropWhile_sublist (less · key) : Sublist _ set).subset
    unfold Children.findSubset
    split
    · exact Finds.nothing
    rename_i x xs hx
    rw [hx] at hdrop
    split
    next hkey =>
      subst hkey
      refine Finds.orElse ?_ ?_
      · refine (node.findSubset_stored (fun path v hs => hp x path v (.inl ⟨rfl,hs⟩)) xs).mono
          ?_
        rintro v ⟨hv,path,hs,hsub⟩
        exact ⟨hv,x,path,.inl ⟨rfl,hs⟩,Subset.trans (cons_subset_cons x hsub) hdrop⟩
      · split
        · exact Finds.nothing
        · exact hrest xs (Subset.trans (subset_cons_self x xs) hdrop)
    · exact hrest (x :: xs) hdrop
end
end Spec

section Exact
variable [LinearOrder K]

def lessThan (a b : K) : Bool := decide (a < b)

def Children.keys : Children K V → List K
  | .nil => []
  | .cons key _ rest => key :: rest.keys

mutual
def Node.Ordered : Node K V → Prop
  | .mk _ children => children.Ordered

def Children.Ordered : Children K V → Prop
  | .nil => True
  | .cons key node rest => node.Ordered ∧ (∀ k ∈ rest.keys, key < k) ∧ rest.Ordered
end

omit [LinearOrder K] in
lemma Children.Stored.mem_keys {k : K} {ks : List K} {v : V} : {ch : Children K V} →
    ch.Stored k ks v → k ∈ ch.keys
  | .cons _ _ _, .inl hs => hs.1 ▸ mem_cons_self
  | .cons _ _ _, .inr hs => mem_cons_of_mem _ hs.mem_keys

lemma Children.mem_keys_insert {v : V} {k x : K} {ks : List K} : {ch : Children K V} →
    x ∈ (ch.insert lessThan v k ks).keys → x = k ∨ x ∈ ch.keys
  | .nil, h => mem_cons.mp h
  | .cons key node rest, h => by
    unfold Children.insert at h
    split at h
    · exact .inr h
    split at h
    · exact mem_cons.mp h
    · rcases mem_cons.mp h with rfl | h
      · exact .inr mem_cons_self
      · exact (mem_keys_insert h).imp_right (mem_cons_of_mem key)

lemma Node.single_ordered (v : V) : (ks : List K) → (Node.single v ks).Ordered
  | [] => trivial
  | _ :: ks => ⟨single_ordered v ks,nofun,trivial⟩

mutual
theorem Node.insert_ordered (v : V) : (n : Node K V) → (ks : List K) → n.Ordered →
    (n.insert lessThan v ks).Ordered
  | .mk _ _, [], h => h
  | .mk _ children, k :: ks, h => children.insert_ordered v k ks h

theorem Children.insert_ordered (v : V) : (ch : Children K V) → (k : K) → (ks : List K) →
    ch.Ordered → (ch.insert lessThan v k ks).Ordered
  | .nil, _, ks, _ => ⟨Node.single_ordered v ks,nofun,trivial⟩
  | .cons key node rest, k, ks, h => by
    unfold Children.insert
    split
    · exact ⟨node.insert_ordered v ks h.1,h.2⟩
    split
    next hlt =>
      have hlt : k < key := of_decide_eq_true hlt
      refine ⟨Node.single_ordered v ks,fun x hx => ?_,h⟩
      exact (mem_cons.mp hx).elim (fun heq => heq ▸ hlt) fun hx => hlt.trans (h.2.1 x hx)
    · refine ⟨h.1,fun x hx => ?_,rest.insert_ordered v k ks h.2.2⟩
      rcases Children.mem_keys_insert hx with rfl | hx
      · simp_all [lessThan,lt_of_le_of_ne']
      · exact h.2.1 x hx
end

mutual
theorem Node.stored_insert_iff {v w : V} : (n : Node K V) → {ks set : List K} → n.Ordered →
    ((n.insert lessThan v ks).Stored set w ↔ if set = ks then v = w else n.Stored set w)
  | .mk _ _, [], [], _ => by simp [Node.insert,Node.Stored]
  | .mk _ _, [], _ :: _, _ => by simp [Node.insert,Node.Stored]
  | .mk _ _, _ :: _, [], _ => by simp [Node.insert,Node.Stored]
  | .mk _ children, k :: ks, x :: xs, h => by
    simpa [Node.insert,Node.Stored] using children.stored_insert_iff h

theorem Children.stored_insert_iff {v w : V} : (ch : Children K V) → {k x : K} →
    {ks xs : List K} → ch.Ordered → ((ch.insert lessThan v k ks).Stored x xs w ↔
      if x = k ∧ xs = ks then v = w else ch.Stored x xs w)
  | .nil, k, x, ks, xs, _ => by
    simp only [Children.insert,Children.Stored,Node.single_stored]
    grind
  | .cons key node rest, k, x, ks, xs, h => by
    have habove : rest.Stored x xs w → key < x := fun hs => h.2.1 x hs.mem_keys
    unfold Children.insert
    split
    · simp only [Children.Stored,node.stored_insert_iff h.1]
      grind
    split
    next hlt =>
      have hlt : k < key := of_decide_eq_true hlt
      simp only [Children.Stored,Node.single_stored]
      grind
    · simp only [Children.Stored,rest.stored_insert_iff h.2.2]
      grind
end

mutual
theorem Node.lookup_of_stored {v : V} : (n : Node K V) → {set : List K} → n.Ordered →
    n.Stored set v → n.lookup set = some v
  | .mk _ _, [], _, hs => hs
  | .mk _ children, _ :: _, h, hs => children.lookup_of_stored h hs

theorem Children.lookup_of_stored {v : V} : (ch : Children K V) → {k : K} → {ks : List K} →
    ch.Ordered → ch.Stored k ks v → ch.lookup k ks = some v
  | .cons key node rest, k, ks, h, hs => by
    unfold Children.lookup
    rcases hs with ⟨rfl,hs⟩ | hs
    · rw [if_pos rfl,node.lookup_of_stored h.1 hs]
    · rw [if_neg (h.2.1 k hs.mem_keys).ne',rest.lookup_of_stored h.2.2 hs]
end

variable {p : V → Bool} {v : V}

mutual
theorem Node.findSuperset_complete (hp : p v) : (n : Node K V) → {set path : List K} → n.Ordered →
    n.Stored path v → set.Sublist path → (n.findSuperset lessThan p set).isSome
  | .mk _ _, [], [], _, hs, _ => by
    obtain rfl := hs
    simp [Node.findSuperset,hp]
  | .mk _ children, [], k :: ks, h, hs, _ => by
    have hany := children.anySuperset_complete hp h hs (nil_sublist ks)
    simp [Node.findSuperset,hany]
  | .mk _ children, x :: xs, k :: ks, h, hs, hsub => by
    rw [Node.findSuperset,isSome_or]
    cases hsub with
    | cons _ hsub => rw [children.anySuperset_complete hp h hs hsub,Bool.true_or]
    | cons_cons _ hsub => rw [children.midSuperset_complete hp h hs hsub,Bool.or_true]

theorem Children.anySuperset_complete (hp : p v) : (ch : Children K V) →
    {set : List K} → {k : K} → {ks : List K} → ch.Ordered → ch.Stored k ks v → set.Sublist ks →
    (ch.anySuperset lessThan p set).isSome
  | .cons key node rest, set, k, ks, h, hs, hsub => by
    rw [Children.anySuperset,isSome_or]
    rcases hs with ⟨rfl,hs⟩ | hs
    · rw [node.findSuperset_complete hp h.1 hs hsub,Bool.true_or]
    · rw [rest.anySuperset_complete hp h.2.2 hs hsub,Bool.or_true]

theorem Children.midSuperset_complete (hp : p v) : (ch : Children K V) → {x : K} →
    {xs ks : List K} → ch.Ordered → ch.Stored x ks v → xs.Sublist ks →
    (ch.midSuperset lessThan p x xs).isSome
  | .cons key node rest, x, xs, ks, h, hs, hsub => by
    unfold Children.midSuperset
    rcases hs with ⟨rfl,hs⟩ | hs
    · rw [if_neg (by simp [lessThan]),if_pos rfl]
      exact node.findSuperset_complete hp h.1 hs hsub
    · rw [if_pos (show lessThan key x from decide_eq_true (h.2.1 x hs.mem_keys))]
      exact rest.midSuperset_complete hp h.2.2 hs hsub
end

def Misses (p : V → Bool) (m : StateT Unit Option (Option V)) (Q : V → Prop) : Prop :=
  ∃ res, m () = some (res,()) ∧ (res = none → ∀ v, Q v → p v = false)

lemma Misses.orElse {p : V → Bool} {m m' : StateT Unit Option (Option V)} {Q Q' R : V → Prop}
    (h : Misses p m Q) (h' : Misses p m' Q') (hr : ∀ v, R v → Q v ∨ Q' v) :
    Misses p (MapOfSets.orElse m m') R := by
  obtain ⟨res,hm,hres⟩ := h
  unfold MapOfSets.orElse
  cases res with
  | some v => exact ⟨some v,by simp [bind,StateT.bind,hm]; rfl,nofun⟩
  | none =>
    obtain ⟨res',hm',hres'⟩ := h'
    exact ⟨res',by simp [bind,StateT.bind,hm,hm'],fun hn v hv =>
      (hr v hv).elim (hres rfl v) (hres' hn v)⟩

omit [LinearOrder K] in
lemma sublist_dropWhile {q : K → Bool} {k : K} {ks : List K} (hk : q k = false) :
    {set : List K} → (k :: ks).Sublist set → (k :: ks).Sublist (set.dropWhile q)
  | a :: set, h => by
    rw [dropWhile_cons]
    split
    next ha =>
      cases h with
      | cons _ h => exact sublist_dropWhile hk h
      | cons_cons _ h => simp [hk] at ha
    · exact h

mutual
theorem Node.findSubset_complete (p : V → Bool) : (n : Node K V) → {set : List K} → n.Ordered →
    set.Pairwise (· < ·) → Misses p (n.findSubset lessThan (fun v => pure (p v)) set)
      fun v => ∃ path, n.Stored path v ∧ path.Sublist set
  | .mk value children, set, h, hset => by
    obtain ⟨res,hm,hres⟩ := children.findSubset_complete p h hset
    cases value with
    | none =>
      refine ⟨res,hm,fun hn v hv => ?_⟩
      obtain ⟨_ | ⟨k,ks⟩,hs,hsub⟩ := hv
      · cases hs
      · exact hres hn v ⟨k,ks,hs,hsub⟩
    | some w =>
      cases hw : p w with
      | true => exact ⟨some w,by simp [Node.findSubset,hw]; rfl,nofun⟩
      | false =>
        refine ⟨res,by simp [Node.findSubset,hw,hm],fun hn v hv => ?_⟩
        obtain ⟨_ | ⟨k,ks⟩,hs,hsub⟩ := hv
        · cases hs
          exact hw
        · exact hres hn v ⟨k,ks,hs,hsub⟩

theorem Children.findSubset_complete (p : V → Bool) : (ch : Children K V) → {set : List K} →
    ch.Ordered → set.Pairwise (· < ·) →
    Misses p (ch.findSubset lessThan (fun v => pure (p v)) set) fun v => ∃ k ks,
      ch.Stored k ks v ∧ (k :: ks).Sublist set
  | .nil, _, _, _ => ⟨none,rfl,fun _ _ ⟨_,_,hs,_⟩ => hs.elim⟩
  | .cons key node rest, set, h, hset => by
    have hdrop := hset.sublist (dropWhile_sublist (lessThan · key))
    have hlt : ∀ {k ks v}, rest.Stored k ks v → key < k := fun hs => h.2.1 _ hs.mem_keys
    have hkeep : ∀ {k ks v}, (Children.cons key node rest).Stored k ks v →
        (k :: ks).Sublist set → (k :: ks).Sublist (set.dropWhile (lessThan · key)) := by
      intro k ks v hs
      refine sublist_dropWhile (q := (lessThan · key)) (decide_eq_false ?_)
      exact hs.elim (fun hs => hs.1.not_lt) fun hs => (hlt hs).not_gt
    unfold Children.findSubset
    split
    next hnil =>
      rw [hnil] at hkeep
      exact ⟨none,rfl,fun _ v ⟨k,ks,hs,hsub⟩ => nomatch hkeep hs hsub⟩
    rename_i x xs hx
    rw [hx] at hkeep hdrop
    split
    next hkey =>
      subst hkey
      rw [show (if xs.isEmpty then pure none
          else rest.findSubset lessThan (fun v => pure (p v)) xs) =
        rest.findSubset lessThan (fun v => pure (p v)) xs by
          cases xs <;> cases rest <;> rfl]
      refine (node.findSubset_complete p h.1 hdrop.of_cons).orElse
        (rest.findSubset_complete p h.2.2 hdrop.of_cons) ?_
      rintro v ⟨k,ks,hs,hsub⟩
      have hsub := hkeep hs hsub
      rcases hs with ⟨rfl,hs⟩ | hs
      · exact .inl ⟨ks,hs,cons_sublist_cons.mp hsub⟩
      · exact .inr ⟨k,ks,hs,(sublist_cons_iff.mp hsub).resolve_right fun ⟨r,hr,_⟩ =>
          (hlt hs).ne (cons.inj hr).1.symm⟩
    next hne =>
      obtain ⟨res,hm,hres⟩ := rest.findSubset_complete p h.2.2 hdrop
      refine ⟨res,hm,fun hn v ⟨k,ks,hs,hsub⟩ => hres hn v ⟨k,ks,?_,hkeep hs hsub⟩⟩
      refine hs.resolve_left fun ⟨hk,_⟩ => ?_
      -- the child's element is below the rest of the set
      have hmem := (hkeep hs hsub).subset mem_cons_self
      have hge := head?_dropWhile_not (lessThan · key) set
      rw [hx] at hge
      simp only [head?_cons,lessThan,decide_eq_false_iff_not,not_lt] at hge
      rcases mem_cons.mp hmem with heq | hmem
      · exact hne (heq ▸ hk)
      · exact ((pairwise_cons.mp hdrop).1 k hmem).not_ge (hk ▸ hge)
end

def build (entries : List (Finset K × V)) : Node K V :=
  entries.foldl (fun n e => n.insert lessThan e.2 e.1.sort) .empty

variable {S T : Finset K}

lemma sort_inj (h : S.sort = T.sort) : S = T := by
  rw [← S.sort_toFinset (· ≤ ·),h,T.sort_toFinset]

lemma build_spec (entries : List (Finset K × V)) : (build entries).Ordered ∧
    ∀ {path : List K} {v : V}, (build entries).Stored path v ↔
      ∃ T : Finset K, T.sort = path ∧ entries.reverse.lookup T = some v := by
  unfold build
  induction entries using reverseRecOn with
  | nil =>
    refine ⟨trivial,iff_of_false (Node.not_stored_empty _ _) ?_⟩
    rintro ⟨T,-,hT⟩
    cases hT
  | append_singleton entries e ih =>
    obtain ⟨S,w⟩ := e
    obtain ⟨hord,hstored⟩ := ih
    rw [foldl_append,reverse_append]
    refine ⟨Node.insert_ordered _ _ _ hord,(Node.stored_insert_iff _ hord).trans ?_⟩
    simp only [reverse_singleton,singleton_append,lookup]
    split
    next hpath =>
      subst hpath
      refine ⟨fun h => ⟨S,rfl,by simp [h]⟩,fun ⟨T,hT,hlook⟩ => ?_⟩
      cases sort_inj hT
      simpa using hlook
    next hpath =>
      refine hstored.trans (exists_congr fun T => and_congr_right fun hT => ?_)
      have hne : (T == S) = false := beq_eq_false_iff_ne.mpr fun h => hpath (h ▸ hT.symm)
      rw [hne]

lemma sort_subset : T.sort ⊆ S.sort ↔ T ⊆ S := by
  simp [subset_def,Finset.subset_iff]

lemma sort_sublist (h : T ⊆ S) : T.sort.Sublist S.sort :=
  sublist_of_subperm_of_pairwise ((T.sort_nodup _).subperm (sort_subset.mpr h))
    (T.pairwise_sort _) (S.pairwise_sort _)

def Answers (p : V → Bool) (Q : V → Prop) (res : Option V) : Prop :=
  (∀ v, res = some v → p v = true ∧ Q v) ∧ (res = none → ∀ v, Q v → p v = false)

/-- A lookup gives the last value of the set, and the searches give a value with the property of
a subset or superset that was inserted, if there is one. -/
theorem queries_exact (entries : List (Finset K × V)) (S : Finset K) :
    (build entries).lookup S.sort = entries.reverse.lookup S ∧ (∀ p : V → Bool, ∃ res,
      (build entries).findSubset lessThan (fun v => pure (p v)) S.sort () = some (res,()) ∧
        Answers p (fun v => ∃ T ⊆ S, entries.reverse.lookup T = some v) res) ∧
    ∀ p : V → Bool, Answers p (fun v => ∃ T, S ⊆ T ∧ entries.reverse.lookup T = some v)
      ((build entries).findSuperset lessThan p S.sort) := by
  obtain ⟨hord,hiff⟩ := build_spec entries
  have hstored : ∀ {T v}, entries.reverse.lookup T = some v → (build entries).Stored T.sort v :=
    fun hlook => hiff.mpr ⟨_,rfl,hlook⟩
  refine ⟨ext fun v => ⟨fun hlook => ?_,fun hlook => ?_⟩,fun p => ?_,
    fun p => ⟨fun v hv => ?_,fun hnone v ⟨T,hsub,hlook⟩ => ?_⟩⟩
  · obtain ⟨T,hT,hlook⟩ := hiff.mp (Node.stored_of_lookup _ hlook)
    rwa [← sort_inj hT]
  · exact Node.lookup_of_stored _ hord (hstored hlook)
  · obtain ⟨res,hm,hmiss⟩ :=
      Node.findSubset_complete p (build entries) hord S.sortedLT_sort.pairwise
    obtain ⟨res',u,hm',-,hfound⟩ := Node.findSubset_stored (I := fun _ => True)
      (P := fun v => p v) (build entries)
      (fun _ v _ s _ => ⟨p v,s,rfl,trivial,id⟩) S.sort () trivial
    cases hm.symm.trans hm'
    refine ⟨res,hm,fun v hv => ?_,fun hnone v ⟨T,hsub,hlook⟩ => hmiss hnone v
      ⟨T.sort,hstored hlook,sort_sublist hsub⟩⟩
    obtain ⟨hp,path,hs,hsub⟩ := hfound v hv
    obtain ⟨T,rfl,hlook⟩ := hiff.mp hs
    exact ⟨hp,T,sort_subset.mp hsub,hlook⟩
  · obtain ⟨hp,path,hs,hsub⟩ := Node.findSuperset_stored _ hv
    obtain ⟨T,rfl,hlook⟩ := hiff.mp hs
    exact ⟨hp,T,sort_subset.mp hsub,hlook⟩
  · by_contra hp
    have hsome := Node.findSuperset_complete (by simpa using hp) (build entries) hord
      (hstored hlook) (sort_sublist hsub)
    rw [hnone] at hsome
    cases hsome

end Exact
end S2E.MapOfSets
