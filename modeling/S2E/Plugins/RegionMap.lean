import S2E.Lib.IntervalMap

/-!
`RegionMap` and `ProcessRegionMapManager`: which value each process has mapped at an address.
The map of intervals underneath is any that keeps the promises of `IntervalMap`. Arguments are
half open and stored intervals closed, so that no sum or difference below leaves 64 bits.
-/

namespace S2E
open Intervals List Option Function

variable {V : Type}

namespace RegionMap
variable (I : IntervalMap V)

def add (m : I.M) (start stop : Nat) (value : V) : Option I.M :=
  if start < stop then some (I.insert m ⟨start,stop-1,value⟩) else none

def cut (m : I.M) (start stop : Nat) (it : Interval V) : I.M :=
  let m := I.erase m it
  let m := if it.start < start then I.insert m ⟨it.start,start-1,it.value⟩ else m
  if it.stop > stop-1 then I.insert m ⟨stop,it.stop,it.value⟩ else m

def removeLoop (start stop : Nat) : Nat → I.M → Option I.M
  | 0, _ => none
  | fuel+1, m =>
    match I.find m start with
    | none => some m
    | some it =>
      if it.start < stop then removeLoop start stop fuel (cut I m start stop it) else some m

def remove (m : I.M) (start stop : Nat) : Option I.M :=
  if start < stop then removeLoop I start stop (stop-start+1) m else none

def lookup [Inhabited V] (m : I.M) (addr : Nat) : V := I.lookup m addr default

def lookupRange (m : I.M) (addr : Nat) : Option (Interval V) := I.find m addr

def iterate {σ : Type} (callback : Nat → Nat → V → σ → Bool × σ) : List (Interval V) → σ → σ
  | [], s => s
  | rit :: its, s =>
    match callback rit.start rit.stop rit.value s with
    | (true,s) => iterate callback its s
    | (false,s) => s

variable {I} {m : I.M} {start stop x : Nat} {it : Interval V}

def region (m : I.M) (x : Nat) : Option V := valueAt (I.intervals m) x

lemma region_insert_if {c : Prop} [Decidable c] (it : Interval V)
    (hit : c → it.start ≤ it.stop) (hfree : c → ∀ x, it.Covers x → region m x = none) (x : Nat) :
    region (if c then I.insert m it else m) x =
      if c ∧ it.Covers x then some it.value else region m x := by
  by_cases hc : c
  · rw [if_pos hc,region,I.valueAt_insert m it (hit hc) (hfree hc)]
    simp only [hc,true_and]
    rfl
  · rw [if_neg hc,if_neg fun h => hc h.1]

lemma add_spec (h : start < stop) (value : V)
    (hfree : ∀ x, start ≤ x → x < stop → region m x = none) :
    ∃ m', add I m start stop value = some m' ∧ ∀ x, region m' x =
      if start ≤ x ∧ x < stop then some value else region m x := by
  refine ⟨_,if_pos h,fun x => ?_⟩
  have hcovers : ∀ x, start ≤ x ∧ x ≤ stop-1 ↔ start ≤ x ∧ x < stop := fun x => by omega
  rw [region,I.valueAt_insert m _ (by show start ≤ stop-1; omega) fun x hx => ?_]
  · simp only [covers_mk,hcovers]
    rfl
  · obtain ⟨hx1,hx2⟩ := (hcovers x).mp hx
    exact hfree x hx1 hx2

lemma region_cut (hlt : start < stop) (hit : it ∈ I.intervals m) (hstop : start ≤ it.stop)
    (hstart : it.start < stop) (x : Nat) : region (cut I m start stop it) x =
      if it.Covers x ∧ start ≤ x ∧ x < stop then none else region m x := by
  have hmem : it.Covers x → region m x = some it.value := fun hx =>
    (I.ascending m).valueAt_eq hit hx
  have herase : ∀ x, region (I.erase m it) x = if it.Covers x then none else region m x :=
    I.valueAt_erase m it hit
  -- an erased address that neither piece covers stays free
  have hbefore := region_insert_if (m := I.erase m it) (c := it.start < start)
    ⟨it.start,start-1,it.value⟩ (fun h => by show it.start ≤ start-1; omega)
    fun h x hx => by
      simp only [covers_mk] at hx
      rw [herase,if_pos ⟨hx.1,by omega⟩]
  simp only [covers_mk] at hbefore
  have hafter := region_insert_if (m := if it.start < start
      then I.insert (I.erase m it) ⟨it.start,start-1,it.value⟩ else I.erase m it)
    (c := it.stop > stop-1) ⟨stop,it.stop,it.value⟩ (fun h => by show stop ≤ it.stop; omega)
    fun h x hx => by
      simp only [covers_mk] at hx
      rw [hbefore,if_neg (by omega),herase,if_pos ⟨by omega,hx.2⟩]
  simp only [covers_mk] at hafter
  show region (if it.stop > stop-1 then _ else _) x = _
  rw [hafter,hbefore,herase]
  by_cases hx : it.Covers x
  · rw [hmem hx,if_pos hx]
    obtain ⟨hx1,hx2⟩ := id hx
    simp only [hx,true_and]
    split
    · rw [if_neg (by omega)]
    · split
      · rw [if_neg (by omega)]
      · rw [if_pos (by omega)]
  · have hx' : ¬ (it.start ≤ x ∧ x ≤ it.stop) := hx
    rw [if_neg (by omega),if_neg (by omega),if_neg hx,if_neg fun h => hx h.1]

lemma removeLoop_spec (hlt : start < stop) {fuel k : Nat} (hk : k ≤ stop)
    (hfuel : stop < k+fuel) (hfree : ∀ x, start ≤ x → x < k → region m x = none) :
    ∃ m', removeLoop I start stop fuel m = some m' ∧
      ∀ x, region m' x = if start ≤ x ∧ x < stop then none else region m x := by
  induction fuel generalizing m k with
  | zero => omega
  | succ fuel ih =>
    -- a loop that stops has left nothing of the range mapped
    have hdone : (∀ it, I.find m start = some it → stop ≤ it.start) →
        ∀ x, region m x = if start ≤ x ∧ x < stop then none else region m x := by
      intro hfind x
      split
      next hx => exact IntervalMap.valueAt_none_of_find hfind hx.1 hx.2
      next => rfl
    unfold removeLoop
    split
    next hnone => exact ⟨m,rfl,hdone fun it hit => by rw [hnone] at hit; cases hit⟩
    next it hfind =>
      split
      next hstart =>
        obtain ⟨hit,hstop⟩ := IntervalMap.find_mem hfind
        have hne := (I.ascending m).nonempty it hit
        have hcut := region_cut (m := m) hlt hit hstop hstart
        -- the first address of the range in the interval is mapped, so that `k` is not past it
        have hkle : k ≤ max it.start start := by
          by_contra hlt
          have hnone := hfree (max it.start start) (by omega) (by omega)
          exact valueAt_eq_none.mp hnone it hit ⟨by omega,by omega⟩
        have hbefore : ∀ x, start ≤ x → x < it.start → region m x = none := fun x hx hxi =>
          IntervalMap.valueAt_none_of_find (z := it.start)
            (fun i hi => by rw [hfind] at hi; cases hi; exact Nat.le_refl _) hx hxi
        obtain ⟨m',hm',hregion⟩ := ih (m := cut I m start stop it) (k := min (it.stop+1) stop)
          (by omega) (by omega) fun x hx hxk => by
            rw [hcut]
            split
            next => rfl
            next hnot =>
              refine hbefore x hx ?_
              unfold Interval.Covers at hnot
              omega
        refine ⟨m',hm',fun x => ?_⟩
        rw [hregion x,hcut]
        by_cases hx : start ≤ x ∧ x < stop
        · rw [if_pos hx,if_pos hx]
        · rw [if_neg hx,if_neg hx,if_neg fun h => hx h.2]
      next hstart => exact ⟨m,rfl,hdone fun i hi => by rw [hfind] at hi; cases hi; omega⟩

lemma remove_spec (m : I.M) (h : start < stop) : ∃ m', remove I m start stop = some m' ∧
      ∀ x, region m' x = if start ≤ x ∧ x < stop then none else region m x := by
  unfold remove
  rw [if_pos h]
  exact removeLoop_spec (k := start) h (by omega) (by omega) fun x hx hlt => by omega

end RegionMap

abbrev ProcessRegionMap (I : IntervalMap V) := Nat → Option I.M

namespace ProcessRegionMap
variable (I : IntervalMap V) (r : ProcessRegionMap I)

def regionsOf (pid : Nat) : I.M := (r pid).getD I.empty

def remove (pid start stop : Nat) : Option (ProcessRegionMap I) :=
  if start < stop then
    (RegionMap.remove I (regionsOf I r pid) start stop).map fun m =>
      update r pid (some m)
  else none

def add (pid start stop : Nat) (value : V) : Option (ProcessRegionMap I) := do
  if start < stop then
    let r ← remove I r pid start stop
    let m ← RegionMap.add I (regionsOf I r pid) start stop value
    some (update r pid (some m))
  else none

def removeProcess (pid : Nat) : ProcessRegionMap I :=
  update r pid none

def lookup [Inhabited V] (r : ProcessRegionMap I) (pid addr : Nat) : V :=
  match r pid with
  | none => default
  | some m => RegionMap.lookup I m addr

def lookupRange (pid addr : Nat) : Option (Interval V) :=
  match r pid with
  | none => none
  | some m => RegionMap.lookupRange I m addr

def iterate {σ : Type} (r : ProcessRegionMap I) (pid : Nat)
    (callback : Nat → Nat → V → σ → Bool × σ) (s : σ) : σ :=
  match r pid with
  | none => s
  | some m => RegionMap.iterate callback (I.intervals m) s

def listing (pid : Nat) : List (Interval V) :=
  iterate I r pid (fun start stop value seen => (true,seen ++ [⟨start,stop,value⟩])) []

inductive Op (V : Type) where
  | add (pid start stop : Nat) (value : V)
  | remove (pid start stop : Nat)
  | removeProcess (pid : Nat)

def step : Op V → Option (ProcessRegionMap I)
  | .add pid start stop value => add I r pid start stop value
  | .remove pid start stop => remove I r pid start stop
  | .removeProcess pid => some (removeProcess I r pid)

def run (ops : List (Op V)) : Option (ProcessRegionMap I) :=
  ops.foldlM (step I) r

def Op.Valid : Op V → Prop
  | .add _ start stop _ | .remove _ start stop => start < stop
  | .removeProcess _ => True

/-- What the operation says of an address of a process: nothing, that it is mapped to a value, or
that it is not mapped. -/
def Op.effect (pid addr : Nat) : Op V → Option (Option V)
  | .add p start stop value =>
    if p = pid ∧ start ≤ addr ∧ addr < stop then some (some value) else none
  | .remove p start stop => if p = pid ∧ start ≤ addr ∧ addr < stop then some none else none
  | .removeProcess p => if p = pid then some none else none

def latest (ops : List (Op V)) (pid addr : Nat) : Option V :=
  (ops.reverse.findSome? (Op.effect pid addr)).join

variable {I} {r : ProcessRegionMap I} {pid : Nat} (r : ProcessRegionMap I)

def region (pid addr : Nat) : Option V :=
  RegionMap.region (regionsOf I r pid) addr

lemma region_update (p : Nat) (m : Option I.M) (pid addr : Nat) : region (update r p m) pid addr =
      if p = pid then RegionMap.region (m.getD I.empty) addr else region r pid addr := by
  unfold region regionsOf
  by_cases h : p = pid
  · rw [if_pos h,h,update_self]
  · rw [if_neg h,update_of_ne (Ne.symm h)]

lemma remove_spec (p : Nat) {start stop : Nat} (h : start < stop) :
    ∃ r', remove I r p start stop = some r' ∧ ∀ pid addr, region r' pid addr =
      if p = pid ∧ start ≤ addr ∧ addr < stop then none else region r pid addr := by
  obtain ⟨m,hm,hregion⟩ := RegionMap.remove_spec (regionsOf I r p) h
  refine ⟨_,(if_pos h).trans (by rw [hm]; rfl),fun pid addr => ?_⟩
  rw [region_update]
  by_cases hp : p = pid
  · subst hp
    simp only [true_and,if_true]
    exact hregion addr
  · rw [if_neg hp,if_neg fun hc => hp hc.1]

lemma add_spec (p : Nat) {start stop : Nat} (h : start < stop)
    (value : V) : ∃ r', add I r p start stop value = some r' ∧ ∀ pid addr, region r' pid addr =
      if p = pid ∧ start ≤ addr ∧ addr < stop then some value else region r pid addr := by
  obtain ⟨r1,hr1,hregion1⟩ := remove_spec r p h
  obtain ⟨m,hm,hregion⟩ := RegionMap.add_spec (m := regionsOf I r1 p) h value fun x hx hlt => by
    have := hregion1 p x
    rwa [if_pos ⟨rfl,hx,hlt⟩] at this
  refine ⟨update r1 p (some m),by simp [add,h,hr1,hm],fun pid addr => ?_⟩
  rw [region_update]
  by_cases hp : p = pid
  · subst hp
    simp only [true_and,if_true]
    refine (hregion addr).trans ?_
    split
    next => rfl
    next hx => exact (hregion1 p addr).trans (if_neg fun hc => hx hc.2)
  · rw [if_neg hp,if_neg fun hc => hp hc.1,hregion1,if_neg fun hc => hp hc.1]

lemma step_spec {op : Op V} (h : op.Valid) : ∃ r', step I r op = some r' ∧
      ∀ pid addr, region r' pid addr = (op.effect pid addr).getD (region r pid addr) := by
  cases op with
  | add p start stop value =>
    obtain ⟨r',hr',hregion⟩ := add_spec r p h value
    refine ⟨r',hr',fun pid addr => (hregion pid addr).trans ?_⟩
    by_cases hc : p = pid ∧ start ≤ addr ∧ addr < stop <;> simp [Op.effect,hc]
  | remove p start stop =>
    obtain ⟨r',hr',hregion⟩ := remove_spec r p h
    refine ⟨r',hr',fun pid addr => (hregion pid addr).trans ?_⟩
    by_cases hc : p = pid ∧ start ≤ addr ∧ addr < stop <;> simp [Op.effect,hc]
  | removeProcess p =>
    refine ⟨_,rfl,fun pid addr => ?_⟩
    have hempty : RegionMap.region I.empty addr = none :=
      valueAt_eq_none.mpr fun i hi => by rw [I.intervals_empty] at hi; cases hi
    rw [removeProcess,region_update]
    by_cases hp : p = pid <;> simp [Op.effect,hp,hempty]

lemma run_spec {ops : List (Op V)} (hops : ∀ op ∈ ops, op.Valid) (r : ProcessRegionMap I) :
    ∃ r', run I r ops = some r' ∧ ∀ pid addr, region r' pid addr =
      (ops.reverse.findSome? (Op.effect pid addr)).getD (region r pid addr) := by
  induction ops generalizing r with
  | nil => exact ⟨r,rfl,fun _ _ => rfl⟩
  | cons op ops ih =>
    obtain ⟨r1,hr1,hregion1⟩ := step_spec r (hops op mem_cons_self)
    obtain ⟨r',hr',hregion⟩ := ih (fun op hop => hops op (mem_cons_of_mem _ hop)) r1
    refine ⟨r',?_,fun pid addr => ?_⟩
    · unfold run
      rw [foldlM_cons,hr1]
      exact hr'
    · rw [hregion,hregion1,reverse_cons,findSome?_append]
      cases ops.reverse.findSome? (Op.effect pid addr) with
      | some v => rfl
      | none => simp

lemma iterate_all (its seen : List (Interval V)) :
    RegionMap.iterate (fun start stop value seen => (true,seen ++ [⟨start,stop,value⟩])) its
      seen = seen ++ its := by
  induction its generalizing seen with
  | nil => exact (append_nil seen).symm
  | cons it its ih =>
    unfold RegionMap.iterate
    dsimp only
    rw [ih,append_assoc]
    rfl

lemma listing_eq (pid : Nat) : listing I r pid = I.intervals (regionsOf I r pid) := by
  unfold listing iterate regionsOf
  cases r pid with
  | none => exact I.intervals_empty.symm
  | some m => exact iterate_all _ []

lemma lookup_eq [Inhabited V] (r : ProcessRegionMap I) (pid addr : Nat) :
    lookup I r pid addr = (region r pid addr).getD default := by
  unfold lookup region regionsOf
  cases r pid with
  | none =>
    have hempty : RegionMap.region I.empty addr = none :=
      valueAt_eq_none.mpr fun i hi => by rw [I.intervals_empty] at hi; cases hi
    rw [getD_none,hempty]
    rfl
  | some m => rfl

lemma lookupRange_eq (pid addr : Nat) :
    lookupRange I r pid addr = I.find (regionsOf I r pid) addr := by
  unfold lookupRange regionsOf
  cases r pid with
  | none => rw [getD_none,IntervalMap.find,I.intervals_empty,find?_nil]
  | some m => rfl

/-- The lookup of a range means containment exactly at an address that is mapped or behind the
last region: in a gap it finds the next region. -/
theorem lookupRange_contains_iff [Inhabited V] (I : IntervalMap V) (r : ProcessRegionMap I)
    (pid addr : Nat) : (((lookupRange I r pid addr).isSome ↔ (region r pid addr).isSome) ∧
      ∀ it, lookupRange I r pid addr = some it →
        it.start ≤ addr ∧ addr ≤ it.stop ∧ it.value = lookup I r pid addr) ↔
    (region r pid addr).isSome ∨ ∀ x, addr ≤ x → region r pid x = none := by
  have hasc := I.ascending (regionsOf I r pid)
  rw [lookupRange_eq,lookup_eq]
  constructor
  · rintro ⟨hsome,-⟩
    refine or_iff_not_imp_left.mpr fun hfree x hx => ?_
    rw [← hsome,isSome_iff_exists,not_exists] at hfree
    exact IntervalMap.valueAt_none_of_find (fun i hi => absurd hi (hfree i)) hx x.lt_succ_self
  · intro h
    -- a region that starts behind the address has mapped addresses, and the address is free
    have hstart : ∀ it, I.find (regionsOf I r pid) addr = some it → it.start ≤ addr := by
      intro it hit
      by_contra hlt
      have hfree : region r pid addr = none := by
        refine IntervalMap.valueAt_none_of_find (fun i hi => ?_) (Nat.le_refl addr)
          (Nat.lt_of_not_le hlt)
        obtain rfl := some.inj (hit.symm.trans hi)
        exact Nat.le_refl _
      have hmem := (IntervalMap.find_mem hit).1
      have hmapped : region r pid it.start = some it.value :=
        hasc.valueAt_eq hmem ⟨Nat.le_refl _,hasc.nonempty it hmem⟩
      rcases h with h | h
      · simp [hfree] at h
      · simp [h it.start (by omega)] at hmapped
    have hfound : ∀ it, I.find (regionsOf I r pid) addr = some it →
        addr ≤ it.stop ∧ region r pid addr = some it.value := fun it hit =>
      ⟨(IntervalMap.find_mem hit).2,hasc.valueAt_eq (IntervalMap.find_mem hit).1
        ⟨hstart it hit,(IntervalMap.find_mem hit).2⟩⟩
    refine ⟨⟨fun hsome => ?_,fun hsome => ?_⟩,fun it hit => ?_⟩
    · obtain ⟨it,hit⟩ := isSome_iff_exists.mp hsome
      rw [(hfound it hit).2,isSome_some]
    · by_contra hnone
      rw [not_isSome_iff_eq_none] at hnone
      have hfree : region r pid addr = none := IntervalMap.valueAt_none_of_find
        (fun i hi => by rw [hnone] at hi; cases hi) (Nat.le_refl addr) addr.lt_succ_self
      simp [hfree] at hsome
    · rw [(hfound it hit).2]
      exact ⟨hstart it hit,(hfound it hit).1,rfl⟩

/-- The stack pointer is in front of the only region of the process. -/
theorem lookupRange_before_region : ∃ r,
    add (sortedLists Nat) (fun _ => none) 1 0x2000 0x3000 7 = some r ∧ region r 1 0x1000 = none ∧
      (lookupRange (sortedLists Nat) r 1 0x1000).map (fun it => (it.start,it.stop,it.value)) =
        some (0x2000,0x2fff,7) := ⟨_,rfl,rfl,rfl⟩

/-- After any operations on an empty manager, an address has the value of the most recent
operation that covers it, and an iteration lists exactly the mapped addresses, in order. -/
theorem regions_are_partial_functions [Inhabited V] (I : IntervalMap V) (ops : List (Op V))
    (hops : ∀ op ∈ ops, op.Valid) : ∃ r, run I (fun _ => none) ops = some r ∧ ∀ pid,
      (∀ addr, lookup I r pid addr = (latest ops pid addr).getD default) ∧
      Ascending (listing I r pid) ∧
      ∀ addr, (∃ i ∈ listing I r pid, i.Covers addr) ↔ (latest ops pid addr).isSome = true := by
  obtain ⟨r,hr,hregion⟩ := run_spec (I := I) hops fun _ => none
  have hlatest : ∀ pid addr, region r pid addr = latest ops pid addr := by
    intro pid addr
    have hempty : region (I := I) (fun _ => none) pid addr = none :=
      valueAt_eq_none.mpr fun i hi => by
        rw [show regionsOf I (fun _ => none) pid = I.empty from rfl,I.intervals_empty] at hi
        cases hi
    rw [hregion,hempty,latest]
    cases ops.reverse.findSome? (Op.effect pid addr) <;> rfl
  refine ⟨r,hr,fun pid => ⟨fun addr => ?_,?_,fun addr => ?_⟩⟩
  · rw [lookup_eq,hlatest]
  · rw [listing_eq]
    exact I.ascending _
  · rw [listing_eq,← hlatest]
    constructor
    · rintro ⟨i,hi,hx⟩
      exact isSome_iff_exists.mpr ⟨i.value,(I.ascending _).valueAt_eq hi hx⟩
    · intro hsome
      obtain ⟨v,hv⟩ := isSome_iff_exists.mp hsome
      obtain ⟨i,hi,hx,-⟩ := exists_of_valueAt hv
      exact ⟨i,hi,hx⟩

theorem regions_of_two_processes : ∃ r, run (sortedLists Nat) (fun _ => none)
        [.add 1 0x1000 0x3000 5,.add 2 0x1000 0x2000 6,.remove 1 0x1800 0x2000] = some r ∧
      lookup (sortedLists Nat) r 1 0x17ff = 5 ∧ lookup (sortedLists Nat) r 1 0x1800 = 0 ∧
      lookup (sortedLists Nat) r 1 0x2000 = 5 ∧ lookup (sortedLists Nat) r 2 0x1800 = 6 := by
  obtain ⟨r,hr,hall⟩ := regions_are_partial_functions (sortedLists Nat)
    [.add 1 0x1000 0x3000 5,.add 2 0x1000 0x2000 6,.remove 1 0x1800 0x2000]
    (by simp [Op.Valid])
  refine ⟨r,hr,?_⟩
  simp only [(hall _).1]
  decide

end ProcessRegionMap
end S2E
