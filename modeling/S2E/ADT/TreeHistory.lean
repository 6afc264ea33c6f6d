import S2E.ADT.FiniteMap
import S2E.ADT.TreeIterator

/-!
Histories of `ImmutableTree.h`: trees that are made from older ones in any order, each of them
with the finite map that it stands for, and the iterators of these trees.
-/

namespace S2E
open WeakOrder Stateful List Option Nat ImmutableTree Prod

inductive Start (K : Type) where
  | begin
  | fin
  | find (k : K)
  | lowerBound (k : K)
  | upperBound (k : K)

inductive Move where
  | increment
  | decrement

inductive Change (V K : Type) where
  | insert (v : V)
  | replace (v : V)
  | remove (k : K)
  | popMin
  | popMax

structure Trees (V : Type) where
  nodes : Nodes V
  versions : List NodePtr

section Code
variable {V K : Type} (kov : V → K) (lt : K → K → Bool)

def Nodes.openIter (m : Nodes V) (root : NodePtr) : Start K → Option Iterator
  | .begin => beginIter m root
  | .fin => endIter m root
  | .find k => find m kov lt k root
  | .lowerBound k => lowerBound m kov lt k root
  | .upperBound k => upperBound m kov lt k root

def Nodes.moveIter (m : Nodes V) : Move → Iterator → Option Iterator
  | .increment, it => increment m it
  | .decrement, it => decrement m it

def Nodes.moves (m : Nodes V) : List Move → Iterator → Option Iterator
  | [], it => some it
  | d :: ds, it => (moveIter m d it).bind (moves m ds)

def Nodes.traverse (m : Nodes V) (root : NodePtr) (start : Start K) (ds : List Move) :
    Option Iterator :=
  (openIter kov lt m root start).bind (moves m ds)

def Nodes.change (c : Change V K) (a : NodePtr) : Nodes.Op V (Option V × NodePtr) :=
  match c with
  | .insert v => do
    let b ← insert kov lt v a
    pure (none,b)
  | .replace v => do
    let b ← replace kov lt v a
    pure (none,b)
  | .remove k => do
    let b ← remove kov lt k a
    pure (none,b)
  | .popMin => popMin a
  | .popMax => popMax a

def Trees.step (s : Trees V) (d : Nat × Change V K) : Option (Trees V) := do
  let a ← s.versions[d.1]?
  let (res,nodes) ← Nodes.change kov lt d.2 a s.nodes
  pure ⟨nodes,s.versions ++ [res.2]⟩

def Trees.run (ds : List (Nat × Change V K)) : Option (Trees V) :=
  ds.foldlM (Trees.step kov lt) ⟨#[],[0]⟩

end Code

namespace FiniteMap
variable {V K : Type} {kov : V → K} {lt : K → K → Bool} (M : FiniteMap kov lt)

def Opens : Start K → Option V → Prop
  | .begin => M.Least fun _ => True
  | .fin => (· = none)
  | .find k => M.Least (HasKey kov lt k)
  | .lowerBound k => M.Least fun v => lt (kov v) k = false
  | .upperBound k => M.Least fun v => lt k (kov v) = true

def Moves : Move → Option V → Option V → Prop
  | .increment, none => fun _ => False
  | .increment, some v => M.Least fun w => lt (kov v) (kov w) = true
  | .decrement, none => M.Greatest fun _ => True
  | .decrement, some v => M.Greatest fun w => lt (kov w) (kov v) = true

inductive Cursor : Option V → List Move → Option V → Prop where
  | stay {r : Option V} : Cursor r [] r
  | move {r r' r'' : Option V} {d : Move} {ds : List Move} (h : M.Moves d r r')
      (hds : Cursor r' ds r'') : Cursor r (d :: ds) r''

noncomputable def change : Change V K → FiniteMap kov lt
  | .insert v => M.insert v
  | .replace v => M.replace v
  | .remove k => M.remove k
  | .popMin => M.popMin
  | .popMax => M.popMax

def GivesOut : Change V K → Option V → Prop
  | .popMin => M.Least fun _ => True
  | .popMax => M.Greatest fun _ => True
  | _ => (· = none)

noncomputable def step (maps : List (FiniteMap kov lt)) (d : Nat × Change V K) :
    Option (List (FiniteMap kov lt)) :=
  maps[d.1]?.map fun M => maps ++ [M.change d.2]

noncomputable def run (ds : List (Nat × Change V K)) : Option (List (FiniteMap kov lt)) :=
  ds.foldlM step [empty kov lt]

variable {maps maps' : List (FiniteMap kov lt)} {ds : List (Nat × Change V K)}

lemma subset_of_foldlM (h : ds.foldlM step maps = some maps') : maps ⊆ maps' := by
  induction ds generalizing maps with
  | nil =>
    cases h
    exact List.Subset.refl _
  | cons d ds ih =>
    obtain ⟨maps₁,hstep,hrest⟩ := bind_eq_some_iff.mp h
    obtain ⟨M,-,rfl⟩ := map_eq_some_iff.mp hstep
    exact List.Subset.trans (subset_append_left _ _) (ih hrest)

lemma change_subset (c : Change V K) : (M.change c).entries ⊆ M.entries ∨
    ∃ v, (M.change c).entries ⊆ Insert.insert v M.entries := by
  cases c with
  | insert v =>
    refine .inr ⟨v,?_⟩
    show (M.insert v).entries ⊆ _
    unfold FiniteMap.insert
    split
    · exact fun w hw => hw
    · exact Set.subset_insert v _
  | replace v => exact .inr ⟨v,fun w hw => hw.imp_right And.left⟩
  | remove k => exact .inl fun w hw => hw.1
  | popMin => exact .inl fun w hw => hw.1
  | popMax => exact .inl fun w hw => hw.1

lemma ncard_change_le (c : Change V K) : (M.change c).entries.ncard ≤ M.entries.ncard+1 := by
  rcases M.change_subset c with hsub | ⟨v,hsub⟩
  · exact (Set.ncard_le_ncard hsub M.finite).trans (le_succ _)
  · exact (Set.ncard_le_ncard hsub (M.finite.insert v)).trans (Set.ncard_insert_le v M.entries)

lemma ncard_le_of_foldlM
    {n : Nat} (h : ds.foldlM step maps = some maps') (hn : ∀ M ∈ maps, M.entries.ncard ≤ n) :
    ∀ M ∈ maps', M.entries.ncard ≤ n+ds.length := by
  induction ds generalizing maps n with
  | nil =>
    cases h
    exact hn
  | cons d ds ih =>
    obtain ⟨maps₁,hstep,hrest⟩ := bind_eq_some_iff.mp h
    obtain ⟨M,hM,rfl⟩ := map_eq_some_iff.mp hstep
    have hbound : ∀ N ∈ maps ++ [M.change d.2], N.entries.ncard ≤ n+1 := by
      intro N hN
      rcases mem_append.mp hN with hN | hN
      · exact (hn N hN).trans (le_succ n)
      · rw [mem_singleton.mp hN]
        have hle := hn M (mem_of_getElem? hM)
        exact (M.ncard_change_le d.2).trans (succ_le_succ hle)
    intro N hN
    have hle := ih hrest hbound N hN
    rw [length_cons]
    omega

lemma ncard_le_length (h : run ds = some maps) : ∀ M ∈ maps, M.entries.ncard ≤ ds.length := by
  intro M hM
  have hle := ncard_le_of_foldlM (n := 0) h (fun N hN => ?_) M hM
  · rwa [zero_add] at hle
  · rw [mem_singleton.mp hN]
    simp [empty]

end FiniteMap

namespace Nodes
variable {V K : Type} {kov : V → K} {lt : K → K → Bool}

def Represents (m : Nodes V) (a : NodePtr) (M : FiniteMap kov lt) : Prop :=
  ∃ t vs, Holds kov m a t ∧ t.Balanced ∧ t.toList = vs.map (entry kov) ∧ M.Listed vs

structure Agrees (m : Nodes V) (a : NodePtr) (M : FiniteMap kov lt) : Prop where
  represents : Represents m a M
  lookup : ∀ k, ∃ r, lookup kov lt m k a = some r ∧ M.Least (FiniteMap.HasKey kov lt k) r
  lookupPrevious : ∀ k, ∃ r, lookupPrevious kov lt m k a = some r ∧
    M.Greatest (fun v => lt k (kov v) = false) r
  change : ∀ c, Returns (change kov lt c a) m fun res m' =>
    Represents m' res.2 (M.change c) ∧ M.GivesOut c res.1
  /-- The only moves that fail increment an iterator at the end. -/
  traverse : ∀ start ds, ∃ r, M.Opens start r ∧
    ((∃ it, traverse kov lt m a start ds = some it ∧ M.Cursor r ds (deref m it)) ∨
      ∃ ds1 ds2, ds = ds1 ++ .increment :: ds2 ∧ M.Cursor r ds1 none ∧
        traverse kov lt m a start ds = none)
  compare : ∀ {start start' ds ds' it it'}, Nodes.traverse kov lt m a start ds = some it →
    Nodes.traverse kov lt m a start' ds' = some it' →
    (it.stack.elts = it'.stack.elts ↔ deref m it = deref m it')

section Entries
variable {vs : List V}

lemma below_map (k : K) :
    below lt fst k (vs.map (entry kov)) = (below lt kov k vs).map (entry kov) :=
  filter_map ..

lemma above_map (k : K) :
    above lt fst k (vs.map (entry kov)) = (above lt kov k vs).map (entry kov) :=
  filter_map ..

lemma same_map (k : K) :
    same lt fst k (vs.map (entry kov)) = (same lt kov k vs).map (entry kov) :=
  filter_map ..

lemma increasing_toList {M : FiniteMap kov lt} {t : ImmutableTree (K × V)}
    (hlist : t.toList = vs.map (entry kov)) (hM : M.Listed vs) :
    Increasing lt fst t.toList := hlist ▸ pairwise_map.mpr hM.increasing

lemma map_entry_eq {r : Option V} {i : Nat} (h : r.map (entry kov) = (vs.map (entry kov))[i]?) :
    r = vs[i]? := by
  rw [getElem?_map] at h
  refine map_injective (fun v w hvw => ?_) h
  exact congrArg snd hvw

end Entries

lemma represents_zero {m : Nodes V} {M : FiniteMap kov lt} (h : ∀ v, v ∉ M.entries) :
    Represents m 0 M :=
  ⟨.terminator,[],rfl,trivial,rfl,.nil,fun v => ⟨fun hv => absurd hv (h v),nofun⟩⟩

section Changes
variable [IsStrictWeakOrder K fun a b => lt a b = true] {m : Nodes V} {a : NodePtr}
  {M : FiniteMap kov lt} {t : ImmutableTree (K × V)} {vs : List V}

lemma fitting (hbal : t.Balanced) (hlist : t.toList = vs.map (entry kov)) (hM : M.Listed vs)
    (hfit : M.entries.ncard < 2^64) : Fitting t := by
  have hlen : t.toList.length < 2^64 := by
    rw [hlist,length_map,← hM.ncard]
    exact hfit
  have hheight := hbal.height_lt hlen
  exact ⟨hbal,by omega⟩

variable (h : Represents m a M) (hfit : M.entries.ncard < 2^64)
include h hfit

lemma insert_represents (v : V) :
    Returns (insert kov lt v a) m fun b m' => Extends m m' ∧ Represents m' b (M.insert v) := by
  obtain ⟨t,vs,ht,hbal,hlist,hM⟩ := h
  have hinc := increasing_toList hlist hM
  refine fromRoot_spec ht ((insertFrom_spec ht (fitting hbal hlist hM hfit)
    (lt_succ_self _) v).mono fun b m' hb => ⟨hb.1,_,_,hb.2,
      (near_insert hbal _).1,?_,hM.insert v⟩)
  rw [toList_insert (hinc.divides _),hlist,entry_fst,below_map,above_map,same_map]
  by_cases hsame : same lt kov (kov v) vs = []
  · rw [if_pos (map_eq_nil_iff.mpr hsame),if_pos hsame,map_append,map_cons]
  · rw [if_neg (map_eq_nil_iff.not.mpr hsame),if_neg hsame]

lemma replace_represents (v : V) : Returns (replace kov lt v a) m fun b m' =>
      Extends m m' ∧ Represents m' b (M.replace v) := by
  obtain ⟨t,vs,ht,hbal,hlist,hM⟩ := h
  have hinc := increasing_toList hlist hM
  refine fromRoot_spec ht ((replaceFrom_spec ht (fitting hbal hlist hM hfit)
    (lt_succ_self _) v).mono fun b m' hb => ⟨hb.1,_,_,hb.2,
      (near_replace hbal _).1,?_,hM.replace v⟩)
  rw [toList_replace (hinc.divides _),hlist,entry_fst,below_map,above_map,map_append,map_cons]

lemma remove_represents (k : K) :
    Returns (remove kov lt k a) m fun b m' => Extends m m' ∧ Represents m' b (M.remove k) := by
  obtain ⟨t,vs,ht,hbal,hlist,hM⟩ := h
  have hinc := increasing_toList hlist hM
  refine fromRoot_spec ht ((removeFrom_spec ht (fitting hbal hlist hM hfit)
    (lt_succ_self _) k).mono fun b m' hb => ⟨hb.1,_,_,hb.2,
      (near_remove hbal _).1,?_,hM.remove k⟩)
  rw [toList_remove (hinc.divides _),hlist,below_map,above_map,map_append]

lemma popMin_represents :
    Returns (popMin a) m fun res m' => Extends m m' ∧ Represents m' res.2 M.popMin ∧
      M.Least (fun _ => True) res.1 := by
  obtain ⟨t,vs,ht,hbal,hlist,hM⟩ := h
  have hfitting := fitting hbal hlist hM hfit
  refine fromRoot_spec ht ?_
  cases t with
  | terminator =>
    obtain rfl : a = 0 := ht
    obtain rfl : vs = [] := (map_eq_nil_iff.mp hlist.symm)
    have hnone : ∀ v, v ∉ M.entries := fun v hv => nomatch (hM.mem_iff v).mp hv
    exact .pure ⟨Extends.refl m,represents_zero fun v hv => hnone v hv.1,
      fun v hv => absurd hv (hnone v)⟩
  | node l e r =>
    refine (popMinFrom_spec ht hfitting ?_).mono ?_
    · grind
    · rintro ⟨_,b⟩ m' ⟨v,rfl,hv,hext,hb⟩
      have hpop : _ = (node l e r).toList := toList_popMin l e r
      rw [hv,hlist] at hpop
      obtain ⟨w,ws,rfl,hw,hws⟩ := map_eq_cons_iff.mp hpop.symm
      obtain rfl : w = v := congrArg snd hw
      refine ⟨hext,⟨_,ws,hb,(near_popMin hbal).1,hws.symm,hM.popMin⟩,?_⟩
      exact hM.least_at (p := 0) fun _ => ⟨fun _ => zero_le _,fun _ => trivial⟩

lemma popMax_represents :
    Returns (popMax a) m fun res m' => Extends m m' ∧ Represents m' res.2 M.popMax ∧
      M.Greatest (fun _ => True) res.1 := by
  obtain ⟨t,vs,ht,hbal,hlist,hM⟩ := h
  have hfitting := fitting hbal hlist hM hfit
  refine fromRoot_spec ht ?_
  cases t with
  | terminator =>
    obtain rfl : a = 0 := ht
    obtain rfl : vs = [] := (map_eq_nil_iff.mp hlist.symm)
    have hnone : ∀ v, v ∉ M.entries := fun v hv => nomatch (hM.mem_iff v).mp hv
    exact .pure ⟨Extends.refl m,represents_zero fun v hv => hnone v hv.1,
      fun v hv => absurd hv (hnone v)⟩
  | node l e r =>
    refine (popMaxFrom_spec ht hfitting ?_).mono ?_
    · grind
    · rintro ⟨_,b⟩ m' ⟨v,rfl,hv,hext,hb⟩
      have hpop : _ = (node l e r).toList := toList_popMax l e r
      rw [hv,hlist] at hpop
      obtain ⟨ws,last,rfl,hws,hlast⟩ := map_eq_append_iff.mp hpop.symm
      obtain ⟨w,rfl,hw⟩ := map_eq_singleton_iff.mp hlast
      obtain rfl : w = v := congrArg snd hw
      refine ⟨hext,⟨_,ws,hb,(near_popMax hbal).1,hws.symm,hM.popMax⟩,?_⟩
      have hgreatest := hM.greatest_at (P := fun _ => True) (le_refl _)
        fun hi => ⟨fun _ => (List.getElem?_eq_some_iff.mp hi).1,fun _ => trivial⟩
      simpa using hgreatest

lemma change_represents (c : Change V K) : Returns (change kov lt c a) m fun res m' =>
      Extends m m' ∧ Represents m' res.2 (M.change c) ∧ M.GivesOut c res.1 := by
  cases c with
  | insert v =>
    exact (insert_represents h hfit v).bind fun b m' hb => .pure ⟨hb.1,hb.2,rfl⟩
  | replace v =>
    exact (replace_represents h hfit v).bind fun b m' hb => .pure ⟨hb.1,hb.2,rfl⟩
  | remove k =>
    exact (remove_represents h hfit k).bind fun b m' hb => .pure ⟨hb.1,hb.2,rfl⟩
  | popMin => exact popMin_represents h hfit
  | popMax => exact popMax_represents h hfit

end Changes

section Answers
variable [IsStrictWeakOrder K fun a b => lt a b = true] {m : Nodes V} {a : NodePtr}
  {M : FiniteMap kov lt} {t : ImmutableTree (K × V)} {vs : List V}

section Listed
variable (ht : Holds kov m a t) (hlist : t.toList = vs.map (entry kov)) (hM : M.Listed vs)
include ht hlist hM

lemma lookup_agrees (k : K) :
    ∃ r, lookup kov lt m k a = some r ∧ M.Least (FiniteMap.HasKey kov lt k) r := by
  obtain ⟨n,hn,hheight⟩ := ht.height?
  obtain ⟨r,hr,hlook⟩ := lookupFrom_eq lt ht (lt_succ_self t.height) k
  refine ⟨r,by rw [lookup,hn]; simpa [hheight] using hr,?_⟩
  rw [lookup_eq ((increasing_toList hlist hM).divides k),hlist,same_map,head?_eq_getElem?] at hlook
  rw [map_entry_eq hlook]
  exact hM.least_hasKey k

lemma lookupPrevious_agrees (k : K) : ∃ r, lookupPrevious kov lt m k a = some r ∧
      M.Greatest (fun v => lt k (kov v) = false) r := by
  obtain ⟨n,hn,hheight⟩ := ht.height?
  obtain ⟨r,hr,hlook⟩ := lookupPreviousFrom_eq lt ht (lt_succ_self t.height) k none
  refine ⟨r,by rw [lookupPrevious,hn]; simpa [hheight] using hr,?_⟩
  rw [lookupPrevious_eq ((increasing_toList hlist hM).divides k),hlist,
    same_map,below_map,← map_append,map_none,or_none,
    getLast?_eq_getElem?,length_map] at hlook
  have hr := map_entry_eq hlook
  have hparts : vs = (below lt kov k vs ++ same lt kov k vs) ++ above lt kov k vs := by
    rw [append_assoc]
    exact (hM.increasing.divides k).eq_append
  have hle : (below lt kov k vs ++ same lt kov k vs).length ≤ vs.length := by
    conv_rhs => rw [hparts,length_append]
    omega
  have hgreatest := hM.greatest_at (P := fun v => lt k (kov v) = false) hle fun {i v} hi => by
    rw [← Bool.not_eq_true,hM.increasing.lt_iff_le_above k hi,length_append,not_le]
  rw [hr]
  split at hgreatest
  next hzero =>
    rw [getElem?_eq_none (le_refl _)] at hgreatest
    rw [eq_nil_of_length_eq_zero hzero]
    exact hgreatest
  next hpos =>
    have heq : vs[(below lt kov k vs ++ same lt kov k vs).length-1]? =
        (below lt kov k vs ++ same lt kov k vs)[
          (below lt kov k vs ++ same lt kov k vs).length-1]? := by
      conv_lhs =>
        enter [1]
        rw [hparts]
      rw [getElem?_append_left (by omega)]
    rw [← heq]
    exact hgreatest

lemma openIter_agrees (start : Start K) :
    ∃ it p, openIter kov lt m a start = some it ∧ Points m .right a t it p ∧
      M.Opens start vs[p]? := by
  have hinc := increasing_toList hlist hM
  have hlen : t.toList.length = vs.length := by rw [hlist,length_map]
  have hend : vs[t.toList.length]? = none := getElem?_eq_none (le_of_eq hlen.symm)
  cases start with
  | begin =>
    obtain ⟨it,hit,hpoints⟩ := beginIter_spec ht
    refine ⟨it,0,hit,hpoints,?_⟩
    exact hM.least_at fun _ => ⟨fun _ => zero_le _,fun _ => trivial⟩
  | fin => exact ⟨_,_,endIter_eq ht,points_end,hend⟩
  | find k =>
    obtain ⟨it,hit,hpoints⟩ := find_spec ht hinc k
    refine ⟨it,_,hit,hpoints,?_⟩
    have hkey := hM.least_hasKey k
    rw [hlist,same_map,below_map,length_map,length_map]
    rcases hM.increasing.same_cases k with hsame | ⟨v,hsame⟩
    · rw [hsame] at hkey ⊢
      rw [map_nil,if_pos rfl,getElem?_eq_none (le_refl _)]
      exact hkey
    rw [hsame] at hkey ⊢
    rw [map_cons,if_neg (cons_ne_nil _ _)]
    have hv : vs[(below lt kov k vs).length]? = some v := by
      have hparts := (hM.increasing.divides k).eq_append
      rw [hsame] at hparts
      conv_lhs =>
        enter [1]
        rw [hparts]
      rw [getElem?_append_right (Nat.le_refl _),Nat.sub_self]
      rfl
    rw [hv]
    exact hkey
  | lowerBound k =>
    obtain ⟨it,hit,hpoints⟩ := lowerBound_spec ht hinc k
    refine ⟨it,_,hit,hpoints,?_⟩
    rw [hlist,below_map,length_map]
    refine hM.least_at fun {i v} hi => ?_
    rw [← Bool.not_eq_true,hM.increasing.lt_iff_lt_below k hi,not_lt]
  | upperBound k =>
    obtain ⟨it,hit,hpoints⟩ := upperBound_spec ht hinc k
    refine ⟨it,_,hit,hpoints,?_⟩
    rw [hlist,below_map,same_map,length_map,length_map]
    exact hM.least_at fun hi => hM.increasing.lt_iff_le_above k hi

lemma moveIter_agrees {it : Iterator} {p : Nat} (h : Points m .right a t it p) (d : Move) :
    (∃ it' p', moveIter m d it = some it' ∧ Points m .right a t it' p' ∧
      M.Moves d vs[p]? vs[p']?) ∨ d = .increment ∧ vs[p]? = none ∧ moveIter m d it = none := by
  have hinc := increasing_toList hlist hM
  have hlen : t.toList.length = vs.length := by rw [hlist,length_map]
  have hle := h.at_entry.le
  rcases lt_or_eq_of_le hle with hp | hp
  · obtain ⟨v,hv⟩ : ∃ v, vs[p]? = some v := ⟨_,getElem?_eq_getElem (hlen ▸ hp)⟩
    refine .inl ?_
    cases d with
    | increment =>
      obtain ⟨it',hit,hpoints⟩ := advance_spec h ht hinc.nodup hp
      refine ⟨it',p+1,hit,hpoints,?_⟩
      rw [hv]
      exact hM.least_at fun hi => hM.increasing.lt_iff_lt hv hi
    | decrement =>
      obtain ⟨it',hit,hpoints⟩ := decrement_spec h ht hinc.nodup
      refine ⟨it',_,hit,hpoints,?_⟩
      rw [hv,hlen]
      exact hM.greatest_at (by omega) fun hi => hM.increasing.lt_iff_lt hi hv
  · have hv : vs[p]? = none := getElem?_eq_none (by omega)
    cases d with
    | increment =>
      have hnil := h.at_entry.eq_nil_iff.mpr hp
      exact .inr ⟨rfl,hv,by simp [moveIter,increment,advance,hnil]⟩
    | decrement =>
      obtain ⟨it',hit,hpoints⟩ := decrement_spec h ht hinc.nodup
      refine .inl ⟨it',_,hit,hpoints,?_⟩
      rw [hv,hlen]
      refine hM.greatest_at (by omega) fun hi => ?_
      exact ⟨fun _ => by rw [hp,hlen]; exact (List.getElem?_eq_some_iff.mp hi).1,fun _ => trivial⟩

lemma moves_agrees {it : Iterator} {p : Nat} (h : Points m .right a t it p) (ds : List Move) :
    (∃ it' p', moves m ds it = some it' ∧ Points m .right a t it' p' ∧ M.Cursor vs[p]? ds vs[p']?) ∨
      ∃ ds1 ds2, ds = ds1 ++ .increment :: ds2 ∧ M.Cursor vs[p]? ds1 none ∧
        moves m ds it = none := by
  induction ds generalizing it p with
  | nil => exact .inl ⟨it,p,rfl,h,.stay⟩
  | cons d ds ih =>
    rcases moveIter_agrees ht hlist hM h d with ⟨it',p',hit,hpoints,hmove⟩ | ⟨rfl,hv,hnone⟩
    · simp only [moves,hit,bind_some]
      rcases ih hpoints with ⟨it'',p'',hit',hpoints',hcur⟩ | ⟨ds1,ds2,rfl,hcur,hnone⟩
      · exact .inl ⟨it'',p'',hit',hpoints',.move hmove hcur⟩
      · exact .inr ⟨d :: ds1,ds2,rfl,.move hmove hcur,hnone⟩
    · rw [hv]
      exact .inr ⟨[],ds,rfl,.stay,by simp [moves,hnone]⟩

lemma traverse_agrees (start : Start K) (ds : List Move) : ∃ r, M.Opens start r ∧
      ((∃ it p, traverse kov lt m a start ds = some it ∧ Points m .right a t it p ∧
          M.Cursor r ds vs[p]?) ∨ ∃ ds1 ds2, ds = ds1 ++ .increment :: ds2 ∧ M.Cursor r ds1 none ∧
          traverse kov lt m a start ds = none) := by
  obtain ⟨it,p,hit,hpoints,hopens⟩ := openIter_agrees ht hlist hM start
  refine ⟨vs[p]?,hopens,?_⟩
  simp only [traverse,hit,bind_some]
  exact moves_agrees ht hlist hM hpoints ds

end Listed

lemma agrees_of_represents (h : Represents m a M) (hfit : M.entries.ncard < 2^64) :
    Agrees m a M := by
  obtain ⟨t,vs,ht,hbal,hlist,hM⟩ := id h
  have hinc := increasing_toList hlist hM
  have hderef : ∀ {it p}, Points m .right a t it p → deref m it = vs[p]? := fun hp =>
    map_entry_eq ((deref_spec hp ht).trans (by rw [hlist]))
  have hpoints : ∀ {start ds it}, traverse kov lt m a start ds = some it →
      ∃ p, Points m .right a t it p := by
    intro start ds it hit
    obtain ⟨r,-,⟨it',p,hit',hp,-⟩ | ⟨-,-,-,-,hnone⟩⟩ :=
      traverse_agrees ht hlist hM start ds
    · cases hit.symm.trans hit'
      exact ⟨p,hp⟩
    · cases hit.symm.trans hnone
  refine ⟨h,lookup_agrees ht hlist hM,lookupPrevious_agrees ht hlist hM,
    fun c => (change_represents h hfit c).mono fun _ _ hc => hc.2,fun start ds => ?_,?_⟩
  · obtain ⟨r,hopens,hcases⟩ := traverse_agrees ht hlist hM start ds
    refine ⟨r,hopens,hcases.imp_left ?_⟩
    rintro ⟨it,p,hit,hp,hcur⟩
    exact ⟨it,hit,by rw [hderef hp]; exact hcur⟩
  · intro start start' ds ds' it it' hit hit'
    obtain ⟨p,hp⟩ := hpoints hit
    obtain ⟨p',hp'⟩ := hpoints hit'
    rw [hp.at_entry.elts_eq_iff hp'.at_entry ht hinc.nodup,hderef hp,hderef hp']
    have hlen : t.toList.length = vs.length := by rw [hlist,length_map]
    have hle := hp.at_entry.le
    have hle' := hp'.at_entry.le
    rcases lt_or_eq_of_le hle with hlt | heq
    · exact (getElem?_inj (hlen ▸ hlt) hM.increasing.nodup).symm
    constructor
    · rintro rfl
      rfl
    · intro hsome
      rw [List.getElem?_eq_none (by omega)] at hsome
      have hge := getElem?_eq_none_iff.mp hsome.symm
      omega

end Answers

lemma Represents.mono {m m' : Nodes V} {a : NodePtr} {M : FiniteMap kov lt}
    (h : Represents m a M) (hext : Extends m m') : Represents m' a M := by
  obtain ⟨t,vs,ht,hrest⟩ := h
  exact ⟨t,vs,ht.mono hext,hrest⟩

end Nodes

namespace Trees
variable {V K : Type} {kov : V → K} {lt : K → K → Bool}

def Continues (s s' : Trees V) : Prop :=
  s.versions <+: s'.versions ∧ Nodes.Extends s.nodes s'.nodes

lemma Continues.refl (s : Trees V) : Continues s s := ⟨prefix_refl _,Nodes.Extends.refl _⟩

lemma Continues.trans {s s' s'' : Trees V} (h : Continues s s') (h' : Continues s' s'') :
    Continues s s'' :=
  ⟨h.1.trans h'.1,h.2.trans h'.2⟩

def Matches (s : Trees V) (maps : List (FiniteMap kov lt)) : Prop :=
  List.Forall₂ (Nodes.Represents s.nodes) s.versions maps

lemma matches_empty : (⟨#[],[0]⟩ : Trees V).Matches [FiniteMap.empty kov lt] :=
  .cons (Nodes.represents_zero fun _ h => h) .nil

variable [IsStrictWeakOrder K fun a b => lt a b = true]

lemma step_matches {s : Trees V} {maps maps' : List (FiniteMap kov lt)} {d : Nat × Change V K}
    (h : s.Matches maps) (hstep : FiniteMap.step maps d = some maps')
    (hfit : ∀ M ∈ maps', M.entries.ncard < 2^64) :
    ∃ s', step kov lt s d = some s' ∧ s'.Matches maps' ∧ Continues s s' := by
  obtain ⟨M,hM,rfl⟩ := map_eq_some_iff.mp hstep
  obtain ⟨hi,rfl⟩ := List.getElem?_eq_some_iff.mp hM
  have hi' : d.1 < s.versions.length := h.length_eq ▸ hi
  have hrep := List.Forall₂.get h hi' hi
  obtain ⟨res,nodes,hrun,hext,hnew,-⟩ := Nodes.change_represents hrep
    (hfit _ (mem_append_left _ (getElem_mem hi))) d.2
  refine ⟨⟨nodes,s.versions ++ [res.2]⟩,?_,?_,prefix_append _ _,hext⟩
  · simp only [step,getElem?_eq_getElem hi',bind_eq_bind,bind_some]
    exact bind_eq_some_iff.mpr ⟨(res,nodes),hrun,rfl⟩
  · exact rel_append (h.imp fun _ _ hr => hr.mono hext) (.cons hnew .nil)

lemma foldlM_matches {s : Trees V} {maps maps' : List (FiniteMap kov lt)}
    {ds : List (Nat × Change V K)} (h : s.Matches maps)
    (hrun : ds.foldlM FiniteMap.step maps = some maps')
    (hfit : ∀ M ∈ maps', M.entries.ncard < 2^64) :
    ∃ s', ds.foldlM (step kov lt) s = some s' ∧ s'.Matches maps' ∧ Continues s s' := by
  induction ds generalizing s maps with
  | nil =>
    cases hrun
    exact ⟨s,rfl,h,Continues.refl s⟩
  | cons d ds ih =>
    obtain ⟨maps₁,hstep,hrest⟩ := bind_eq_some_iff.mp hrun
    have hsub := FiniteMap.subset_of_foldlM hrest
    obtain ⟨s1,hs1,hm1,hc1⟩ := step_matches h hstep fun M hM => hfit M (hsub hM)
    obtain ⟨s',hs',hm',hc'⟩ := ih hm1 hrest
    exact ⟨s',bind_eq_some_iff.mpr ⟨s1,hs1,hs'⟩,hm',hc1.trans hc'⟩

/-- In every history whose trees fit in memory, each tree is a balanced search tree that has
the values of its map and answers as the map does, and no tree is changed later on. -/
theorem trees_are_finite_maps (ds : List (Nat × Change V K)) (maps : List (FiniteMap kov lt))
    (hrun : FiniteMap.run ds = some maps) (hfit : ∀ M ∈ maps, M.entries.ncard < 2^64) :
    ∃ s, run kov lt ds = some s ∧ List.Forall₂ (Nodes.Agrees s.nodes) s.versions maps ∧
      ∀ ds1 ds2, ds = ds1 ++ ds2 → ∃ s1, run kov lt ds1 = some s1 ∧ Continues s1 s := by
  obtain ⟨s,hs,hmatch,-⟩ := foldlM_matches matches_empty hrun hfit
  refine ⟨s,hs,?_,?_⟩
  · refine forall₂_iff_get.mpr ⟨hmatch.length_eq,fun i hi hi' => ?_⟩
    exact Nodes.agrees_of_represents (List.Forall₂.get hmatch hi hi')
      (hfit _ (getElem_mem hi'))
  · rintro ds1 ds2 rfl
    rw [FiniteMap.run,foldlM_append] at hrun
    obtain ⟨maps₁,hrun1,hrun2⟩ := bind_eq_some_iff.mp hrun
    have hsub := FiniteMap.subset_of_foldlM hrun2
    obtain ⟨s1,hs1,hmatch1,-⟩ := foldlM_matches matches_empty hrun1 fun M hM => hfit M (hsub hM)
    obtain ⟨s2,hs2,-,hcont⟩ := foldlM_matches hmatch1 hrun2 hfit
    refine ⟨s1,hs1,?_⟩
    rw [foldlM_append,hs1] at hs
    cases hs.symm.trans hs2
    exact hcont

instance : IsStrictWeakOrder Nat fun a b => blt a b = true where
  irrefl a h := lt_irrefl a (blt_eq.mp h)
  trans a b c hab hbc := blt_eq.mpr (lt_trans (blt_eq.mp hab) (blt_eq.mp hbc))
  incomp_trans a b c hab hbc := by
    simp only [blt_eq] at *
    omega

theorem trees_are_finite_maps_four :
    ∃ (maps : List (FiniteMap (id : Nat → Nat) Nat.blt)) (s : Trees Nat),
      FiniteMap.run [(0,.insert 5),(1,.insert 7),(2,.popMin),(1,.remove 5)] = some maps ∧
        run id Nat.blt [(0,.insert 5),(1,.insert 7),(2,.popMin),(1,.remove 5)] = some s ∧
          List.Forall₂ (Nodes.Agrees s.nodes) s.versions maps := by
  obtain ⟨maps,hmaps⟩ : ∃ maps : List (FiniteMap (id : Nat → Nat) blt),
      FiniteMap.run [(0,.insert 5),(1,.insert 7),(2,.popMin),(1,.remove 5)] = some maps :=
    ⟨_,rfl⟩
  have hfit : ∀ M ∈ maps, M.entries.ncard < 2^64 := fun M hM =>
    lt_of_le_of_lt (FiniteMap.ncard_le_length hmaps M hM) (by decide)
  obtain ⟨s,hs,hagrees,-⟩ := trees_are_finite_maps _ maps hmaps hfit
  exact ⟨maps,s,hmaps,hs,hagrees⟩

end Trees
end S2E
