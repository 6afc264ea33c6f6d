import S2E.Lib.WeakOrder

/-!
`ImmutableTree.h`: the height-balanced tree under the memory map. The keys are compared by
`lt` only, which need not be a total order.
-/

namespace S2E
open List Prod

inductive ImmutableTree (V : Type) where
  | terminator
  | node (left : ImmutableTree V) (value : V) (right : ImmutableTree V)

namespace ImmutableTree
section Shape
variable {V : Type}

@[grind =]
def height : ImmutableTree V → Nat
  | .terminator => 0
  | .node l _ r => max l.height r.height+1

def toList : ImmutableTree V → List V
  | .terminator => []
  | .node l v r => l.toList ++ v :: r.toList

def balance (left : ImmutableTree V) (value : V) (right : ImmutableTree V) : ImmutableTree V :=
  if left.height > right.height+2 then
    match left with
    | .terminator => .node left value right
    | .node ll lv lr =>
      if ll.height ≥ lr.height then .node ll lv (.node lr value right)
      else
        match lr with
        | .terminator => .node left value right
        | .node lrl lrv lrr => .node (.node ll lv lrl) lrv (.node lrr value right)
  else if right.height > left.height+2 then
    match right with
    | .terminator => .node left value right
    | .node rl rv rr =>
      if rr.height ≥ rl.height then .node (.node left value rl) rv rr
      else
        match rl with
        | .terminator => .node left value right
        | .node rll rlv rlr => .node (.node left value rll) rlv (.node rlr rv rr)
  else .node left value right

def popMin : ImmutableTree V → V → ImmutableTree V → V × ImmutableTree V
  | .terminator, value, right => (value,right)
  | .node ll lv lr, value, right =>
    let (min,left) := popMin ll lv lr
    (min,balance left value right)

def popMax (left : ImmutableTree V) (value : V) : ImmutableTree V → V × ImmutableTree V
  | .terminator => (value,left)
  | .node rl rv rr =>
    let (max,right) := popMax rl rv rr
    (max,balance left value right)

def joined : ImmutableTree V → ImmutableTree V → ImmutableTree V
  | .terminator, right => right
  | left, .terminator => left
  | left, .node rl rv rr =>
    let (min,nr) := popMin rl rv rr
    balance left min nr

lemma toList_balance (l : ImmutableTree V) (v : V) (r : ImmutableTree V) :
    (balance l v r).toList = l.toList ++ v :: r.toList := by
  unfold balance
  split
  · cases l with
    | terminator => rfl
    | node ll lv lr =>
      simp only []
      split
      · simp [toList]
      · cases lr with
        | terminator => rfl
        | node lrl lrv lrr => simp [toList]
  · split
    · cases r with
      | terminator => rfl
      | node rl rv rr =>
        simp only []
        split
        · simp [toList]
        · cases rl with
          | terminator => rfl
          | node rll rlv rlr => simp [toList]
    · rfl

lemma toList_popMin (l : ImmutableTree V) (v : V) (r : ImmutableTree V) :
    (popMin l v r).1 :: (popMin l v r).2.toList = l.toList ++ v :: r.toList := by
  induction l generalizing v r with
  | terminator => rfl
  | node ll lv lr ihl _ =>
    have h := ihl lv lr
    simp [popMin,toList_balance,toList,← h]

lemma toList_popMax (l : ImmutableTree V) (v : V) (r : ImmutableTree V) :
    (popMax l v r).2.toList ++ [(popMax l v r).1] = l.toList ++ v :: r.toList := by
  induction r generalizing l v with
  | terminator => rfl
  | node rl rv rr _ ihr =>
    have h := ihr rl rv
    simp [popMax,toList_balance,toList,← h]

lemma toList_joined (l r : ImmutableTree V) : (joined l r).toList = l.toList ++ r.toList := by
  cases l with
  | terminator => rfl
  | node ll lv lr =>
    cases r with
    | terminator => exact (append_nil _).symm
    | node rl rv rr =>
      simp only [joined,toList_balance]
      rw [toList_popMin]
      rfl

end Shape

variable {K D : Type} (lt : K → K → Bool)

def lookup (k : K) : ImmutableTree (K × D) → Option (K × D)
  | .terminator => none
  | .node l v r =>
    if lt k v.1 then l.lookup k
    else if lt v.1 k then r.lookup k
    else some v

def lookupPrevious (k : K) (result : Option (K × D)) : ImmutableTree (K × D) → Option (K × D)
  | .terminator => result
  | .node l v r =>
    if lt k v.1 then l.lookupPrevious k result
    else if lt v.1 k then r.lookupPrevious k (some v)
    else some v

def insert (v : K × D) : ImmutableTree (K × D) → ImmutableTree (K × D)
  | .terminator => .node .terminator v .terminator
  | .node l value r =>
    if lt v.1 value.1 then balance (l.insert v) value r
    else if lt value.1 v.1 then balance l value (r.insert v)
    else .node l value r

def replace (v : K × D) : ImmutableTree (K × D) → ImmutableTree (K × D)
  | .terminator => .node .terminator v .terminator
  | .node l value r =>
    if lt v.1 value.1 then balance (l.replace v) value r
    else if lt value.1 v.1 then balance l value (r.replace v)
    else .node l v r

def remove (k : K) : ImmutableTree (K × D) → ImmutableTree (K × D)
  | .terminator => .terminator
  | .node l value r =>
    if lt k value.1 then balance (l.remove k) value r
    else if lt value.1 k then balance l value (r.remove k)
    else joined l r

variable {t : ImmutableTree (K × D)}

section Members
variable {lt}

lemma mem_of_lookup {k : K} {v : K × D} (h : lookup lt k t = some v) : v ∈ t.toList := by
  induction t with
  | terminator => cases h
  | node l w r ihl ihr =>
    simp only [toList,mem_append,mem_cons]
    rw [lookup] at h
    split at h
    · exact .inl (ihl h)
    · split at h
      · exact .inr (.inr (ihr h))
      · exact .inr (.inl (Option.some.inj h).symm)

lemma mem_of_mem_replace {v x : K × D}
    (h : x ∈ (replace lt v t).toList) : x = v ∨ x ∈ t.toList := by
  induction t with
  | terminator => simpa [replace,toList] using h
  | node l w r ihl ihr =>
    rw [replace] at h
    simp only [toList,mem_append,mem_cons]
    split at h
    · rw [toList_balance,mem_append,mem_cons] at h
      rcases h with h | h
      · exact (ihl h).imp id .inl
      · exact .inr (.inr h)
    · split at h
      · rw [toList_balance,mem_append,mem_cons] at h
        rcases h with h | h | h
        · exact .inr (.inl h)
        · exact .inr (.inr (.inl h))
        · exact (ihr h).imp id fun h => .inr (.inr h)
      · simp only [toList,mem_append,mem_cons] at h
        rcases h with h | h | h
        · exact .inr (.inl h)
        · exact .inl h
        · exact .inr (.inr (.inr h))

lemma mem_of_mem_remove {k : K} {x : K × D} (h : x ∈ (remove lt k t).toList) : x ∈ t.toList := by
  induction t with
  | terminator => exact h
  | node l w r ihl ihr =>
    rw [remove] at h
    simp only [toList,mem_append,mem_cons]
    split at h
    · rw [toList_balance,mem_append,mem_cons] at h
      exact h.imp_left ihl
    split at h
    · rw [toList_balance,mem_append,mem_cons] at h
      exact h.imp_right fun h => h.imp_right ihr
    · rw [toList_joined,mem_append] at h
      exact h.imp_right .inr

end Members

section Entries
open WeakOrder

variable {lt} {k : K} {v : K × D}

lemma lookup_eq (h : Divides lt fst k t.toList) :
    lookup lt k t = (same lt fst k t.toList).head? := by
  induction t with
  | terminator => rfl
  | node l w r ihl ihr =>
    rw [lookup,toList]
    cases hkw : lt k w.1 with
    | true => rw [if_pos rfl,ihl h.left,(h.split_left hkw).2.1]
    | false =>
      rw [if_neg Bool.false_ne_true]
      cases hwk : lt w.1 k with
      | true => rw [if_pos rfl,ihr h.right,(h.split_right hwk).2.1]
      | false =>
        rw [if_neg Bool.false_ne_true,(h.split_at hkw hwk).2.1]
        rfl

lemma lookup_of_lt (h : ∀ x ∈ t.toList, lt k x.1) : lookup lt k t = none := by
  induction t with
  | terminator => rfl
  | node l w r ihl _ =>
    rw [lookup,if_pos (h w (by simp [toList]))]
    exact ihl fun x hx => h x (mem_append_left _ hx)

lemma lookupPrevious_eq (h : Divides lt fst k t.toList) (result : Option (K × D)) :
    lookupPrevious lt k result t =
      ((below lt fst k t.toList ++ same lt fst k t.toList).getLast?).or result := by
  induction t generalizing result with
  | terminator => rfl
  | node l w r ihl ihr =>
    rw [lookupPrevious,toList]
    cases hkw : lt k w.1 with
    | true =>
      obtain ⟨hb,hs,-⟩ := h.split_left hkw
      rw [if_pos rfl,ihl h.left,hb,hs]
    | false =>
      rw [if_neg Bool.false_ne_true]
      cases hwk : lt w.1 k with
      | true =>
        obtain ⟨hb,hs,-⟩ := h.split_right hwk
        rw [if_pos rfl,ihr h.right,hb,hs,append_assoc,cons_append,
          getLast?_append_cons,getLast?_cons]
        simp
      | false =>
        obtain ⟨hb,hs,-⟩ := h.split_at hkw hwk
        rw [if_neg Bool.false_ne_true,hb,hs]
        simp

lemma toList_insert (h : Divides lt fst v.1 t.toList) : (insert lt v t).toList =
      if same lt fst v.1 t.toList = [] then
        below lt fst v.1 t.toList ++ v :: above lt fst v.1 t.toList else t.toList := by
  induction t with
  | terminator => rfl
  | node l w r ihl ihr =>
    rw [insert,toList]
    cases hkw : lt v.1 w.1 with
    | true =>
      obtain ⟨hb,hs,ha⟩ := h.split_left hkw
      rw [if_pos rfl,toList_balance,ihl h.left,hb,hs,ha]
      split <;> simp
    | false =>
      rw [if_neg Bool.false_ne_true]
      cases hwk : lt w.1 v.1 with
      | true =>
        obtain ⟨hb,hs,ha⟩ := h.split_right hwk
        rw [if_pos rfl,toList_balance,ihr h.right,hb,hs,ha]
        split <;> simp
      | false =>
        obtain ⟨-,hs,-⟩ := h.split_at hkw hwk
        rw [if_neg Bool.false_ne_true,hs]
        simp [toList]

lemma toList_replace (h : Divides lt fst v.1 t.toList) : (replace lt v t).toList =
      below lt fst v.1 t.toList ++ v :: above lt fst v.1 t.toList := by
  induction t with
  | terminator => rfl
  | node l w r ihl ihr =>
    rw [replace,toList]
    cases hkw : lt v.1 w.1 with
    | true =>
      obtain ⟨hb,-,ha⟩ := h.split_left hkw
      rw [if_pos rfl,toList_balance,ihl h.left,hb,ha]
      simp
    | false =>
      rw [if_neg Bool.false_ne_true]
      cases hwk : lt w.1 v.1 with
      | true =>
        obtain ⟨hb,-,ha⟩ := h.split_right hwk
        rw [if_pos rfl,toList_balance,ihr h.right,hb,ha]
        simp
      | false =>
        obtain ⟨hb,-,ha⟩ := h.split_at hkw hwk
        rw [if_neg Bool.false_ne_true,hb,ha]
        rfl

lemma toList_remove (h : Divides lt fst k t.toList) :
    (remove lt k t).toList = below lt fst k t.toList ++ above lt fst k t.toList := by
  induction t with
  | terminator => rfl
  | node l w r ihl ihr =>
    rw [remove,toList]
    cases hkw : lt k w.1 with
    | true =>
      obtain ⟨hb,-,ha⟩ := h.split_left hkw
      rw [if_pos rfl,toList_balance,ihl h.left,hb,ha]
      simp
    | false =>
      rw [if_neg Bool.false_ne_true]
      cases hwk : lt w.1 k with
      | true =>
        obtain ⟨hb,-,ha⟩ := h.split_right hwk
        rw [if_pos rfl,toList_balance,ihr h.right,hb,ha]
        simp
      | false =>
        obtain ⟨hb,-,ha⟩ := h.split_at hkw hwk
        rw [if_neg Bool.false_ne_true,hb,ha]
        exact toList_joined l r

end Entries

structure Through (k : K) : Prop where
  irrefl : lt k k = false
  trans : ∀ {a c : K}, lt a k = true → lt k c = true → lt a c = true

structure Ordered (t : ImmutableTree (K × D)) : Prop where
  pairwise : t.toList.Pairwise fun x y => lt x.1 y.1 = true
  through : ∀ x ∈ t.toList, Through lt x.1

def Fits (t : ImmutableTree (K × D)) (k : K) : Prop :=
  ∀ x ∈ t.toList, lt k x.1 = true ∨ lt x.1 k = true ∨ x.1 = k

section Order
open WeakOrder

variable {lt} {k : K}

lemma Fits.ne_iff (hf : Fits lt t k) (hk : Through lt k) {x : K × D} (hx : x ∈ t.toList) :
    x.1 ≠ k ↔ lt x.1 k ∨ lt k x.1 := by
  constructor
  · intro hne
    rcases hf x hx with h | h | h
    · exact .inr h
    · exact .inl h
    · exact absurd h hne
  · rintro h rfl
    simp [hk.irrefl] at h

lemma Ordered.divides (h : Ordered lt t) (hf : Fits lt t k) (hk : Through lt k) :
    Divides lt fst k t.toList where
  pairwise := h.pairwise.imp_of_mem fun {x y} hx _ hxy => by
    rcases hf x hx with hlt | hlt | rfl
    · exact .inr ((h.through x hx).trans hlt hxy)
    · exact .inl hlt
    · exact .inr hxy
  asymm e he hlt := by
    by_contra hgt
    have hkk := (h.through e he).trans (by simpa using hgt) hlt
    simp [hk.irrefl] at hkk

variable (h : Ordered lt t) {v : K × D}
include h

lemma mem_replace (hf : Fits lt t v.1) (hv : Through lt v.1) (x : K × D) :
    x ∈ (replace lt v t).toList ↔ x = v ∨ x ∈ t.toList ∧ x.1 ≠ v.1 := by
  rw [toList_replace (h.divides hf hv),mem_append,mem_cons,mem_below,mem_above,
    or_left_comm,← and_or_left]
  exact or_congr_right (and_congr_right fun hx => (hf.ne_iff hv hx).symm)

lemma ordered_replace (hf : Fits lt t v.1) (hv : Through lt v.1) :
    Ordered lt (replace lt v t) where
  pairwise := by
    rw [toList_replace (h.divides hf hv)]
    exact Increasing.put h.pairwise hv.trans
  through x hx := by
    rcases (mem_replace h hf hv x).mp hx with rfl | ⟨hx,-⟩
    · exact hv
    · exact h.through x hx

lemma mem_remove (hf : Fits lt t k) (hk : Through lt k) (x : K × D) :
    x ∈ (remove lt k t).toList ↔ x ∈ t.toList ∧ x.1 ≠ k := by
  rw [toList_remove (h.divides hf hk),mem_append,mem_below,mem_above,← and_or_left]
  exact and_congr_right fun hx => (hf.ne_iff hk hx).symm

lemma ordered_remove (hf : Fits lt t k) (hk : Through lt k) : Ordered lt (remove lt k t) where
  pairwise := by
    rw [toList_remove (h.divides hf hk)]
    exact Increasing.without h.pairwise hk.trans
  through x hx := h.through x ((mem_remove h hf hk x).mp hx).1

end Order
end ImmutableTree
end S2E
