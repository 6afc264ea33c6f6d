import Mathlib

/-!
The bounds of `FastCexSolver.cpp` for `|` and `&` over two intervals: four scans
from the highest bit down, each stopping at the first bit where moving one bound
is worth it.
-/

namespace S2E.FastCexSolver
open BitVec

variable {w k n : Nat} {a b c d p q x y z : BitVec w}

/-- The loop of the four functions: `visit` says what a `break` at the bit makes
the function return. -/
def scan (visit : BitVec w → Option (BitVec w)) (rest : BitVec w) : Nat → BitVec w
  | 0 => rest
  | k+1 => (visit (twoPow w k)).getD (scan visit rest k)

def raise (a m : BitVec w) : BitVec w := (a ||| m) &&& -m

def minORVisit (a b c d m : BitVec w) : Option (BitVec w) :=
  if ~~~a &&& c &&& m ≠ 0#w then
    if raise a m ≤ b then some (raise a m ||| c) else none
  else if a &&& ~~~c &&& m ≠ 0#w then
    if raise c m ≤ d then some (a ||| raise c m) else none
  else none

def minOR (a b c d : BitVec 64) : BitVec 64 := scan (minORVisit a b c d) (a ||| c) 64

def lower (b m : BitVec w) : BitVec w := (b-m) ||| (m-1#w)

def maxORVisit (a b c d m : BitVec w) : Option (BitVec w) :=
  if b &&& d &&& m ≠ 0#w then
    if lower b m ≥ a then some (lower b m ||| d)
    else if lower d m ≥ c then some (b ||| lower d m)
    else none
  else none

def maxOR (a b c d : BitVec 64) : BitVec 64 := scan (maxORVisit a b c d) (b ||| d) 64

def minANDVisit (a b c d m : BitVec w) : Option (BitVec w) :=
  if ~~~a &&& ~~~c &&& m ≠ 0#w then
    if raise a m ≤ b then some (raise a m &&& c)
    else if raise c m ≤ d then some (a &&& raise c m)
    else none
  else none

def minAND (a b c d : BitVec 64) : BitVec 64 := scan (minANDVisit a b c d) (a &&& c) 64

def clear (b m : BitVec w) : BitVec w := (b &&& ~~~m) ||| (m-1#w)

def maxANDVisit (a b c d m : BitVec w) : Option (BitVec w) :=
  if b &&& ~~~d &&& m ≠ 0#w then
    if clear b m ≥ a then some (clear b m &&& d) else none
  else if ~~~b &&& d &&& m ≠ 0#w then
    if clear d m ≥ c then some (b &&& clear d m) else none
  else none

def maxAND (a b c d : BitVec 64) : BitVec 64 := scan (maxANDVisit a b c d) (b &&& d) 64

lemma lt_of_bit (hx : x.getLsbD k = false) (hy : y.getLsbD k = true)
    (h : ∀ i, k < i → x.getLsbD i = y.getLsbD i) : x < y := by
  rw [lt_def]
  exact Nat.lt_of_testBit k hx hy h

lemma le_of_bits (h : ∀ i, x.getLsbD i = true → y.getLsbD i = true) : x ≤ y := by
  have hor : x ||| y = y := by
    apply eq_of_getLsbD_eq
    intro i _
    rw [getLsbD_or]
    grind
  rw [le_def,← hor,toNat_or]
  exact Nat.left_le_or

lemma bit_iff (hk : k < w) : x &&& twoPow w k ≠ 0#w ↔ x.getLsbD k = true := by
  have hne : twoPow w k ≠ 0#w := fun h => by simpa [hk] using congrArg (getLsbD · k) h
  rw [and_twoPow]
  cases x.getLsbD k <;> simp [hne]

lemma getLsbD_twoPow_sub_one (hk : k < w) (i : Nat) :
    (twoPow w k-1#w).getLsbD i = decide (i < k) := by
  have hone : (1#w).toNat = 1 := by simp; omega
  have hsub : (twoPow w k-1#w).toNat = 2^k-1 := by
    rw [toNat_sub_of_le,toNat_twoPow_of_lt hk,hone]
    rw [le_def,toNat_twoPow_of_lt hk,hone]
    exact Nat.one_le_two_pow
  rw [getLsbD,hsub,Nat.testBit_two_pow_sub_one]

lemma getLsbD_raise (hk : k < w) (a : BitVec w) (i : Nat) :
    (raise a (twoPow w k)).getLsbD i = (decide (k ≤ i ∧ i < w) && (a.getLsbD i || k = i)) := by
  have hneg : -twoPow w k = ~~~(twoPow w k-1#w) := by rw [← not_neg,BitVec.not_not]
  rw [raise,hneg]
  simp [getLsbD_twoPow_sub_one hk,hk]
  grind

lemma getLsbD_clear (hk : k < w) (b : BitVec w) (i : Nat) :
    (clear b (twoPow w k)).getLsbD i = (decide (i < k) || (b.getLsbD i && k ≠ i)) := by
  simp [clear,getLsbD_twoPow_sub_one hk,hk]
  grind

lemma lower_eq (hk : k < w) (h : b.getLsbD k = true) :
    lower b (twoPow w k) = clear b (twoPow w k) := by
  have hsub : b-twoPow w k = b &&& ~~~twoPow w k := by
    rw [sub_eq_iff_eq_add,add_eq_or_of_and_eq_zero]
    · ext i hi
      simp
      grind
    · ext i hi
      simp
  rw [lower,hsub,clear]

def Within (a b c d x y : BitVec w) : Prop := (a ≤ x ∧ x ≤ b) ∧ c ≤ y ∧ y ≤ d

structure Extreme (r : BitVec w → BitVec w → Prop) (op : BitVec w → BitVec w → BitVec w)
    (a b c d z : BitVec w) : Prop where
  attained : ∃ x y, Within a b c d x y ∧ op x y = z
  bound : ∀ x y, Within a b c d x y → r z (op x y)

def Agree (k : Nat) (x p : BitVec w) : Prop := ∀ i, k ≤ i → x.getLsbD i = p.getLsbD i

lemma Agree.of_succ (h : Agree (k+1) x p) (hk : x.getLsbD k = p.getLsbD k) : Agree k x p := by
  intro i hi
  rcases Nat.eq_or_lt_of_le hi with rfl | hi
  · exact hk
  · exact h i hi

/-- A scan is exact if a `break` bounds the points that agree with the corner
`(p, q)` on the bits already passed, and a point that leaves the corner at a bit
passed is bounded by the corner. -/
lemma scan_extreme {r : BitVec w → BitVec w → Prop} {visit : BitVec w → Option (BitVec w)}
    (hrefl : ∀ u, r u u) (htrans : ∀ u v t, r u v → r v t → r u t) (hpq : Within a b c d p q)
    (hsome : ∀ k z, k < w → visit (twoPow w k) = some z →
      (∃ x y, Within a b c d x y ∧ x ||| y = z) ∧ ∀ x y, Within a b c d x y →
        Agree (k+1) x p → Agree (k+1) y q → r z (x ||| y))
    (hnone : ∀ k x y, k < w → visit (twoPow w k) = none → Within a b c d x y →
      Agree (k+1) x p → Agree (k+1) y q → (Agree k x p ∧ Agree k y q) ∨ r (p ||| q) (x ||| y)) :
    Extreme r (· ||| ·) a b c d (scan visit (p ||| q) w) := by
  have hscan (n : Nat) (hn : n ≤ w) :
      (∃ x y, Within a b c d x y ∧ x ||| y = scan visit (p ||| q) n) ∧
      ∀ x y, Within a b c d x y → Agree n x p → Agree n y q →
        r (scan visit (p ||| q) n) (x ||| y) := by
    induction n with
    | zero =>
      refine ⟨⟨p,q,hpq,rfl⟩,fun x y _ hx hy => ?_⟩
      rw [eq_of_getLsbD_eq fun i _ => hx i i.zero_le,eq_of_getLsbD_eq fun i _ => hy i i.zero_le]
      exact hrefl _
    | succ k ih =>
      obtain ⟨hat,hle⟩ := ih (by omega)
      rw [scan]
      cases hv : visit (twoPow w k) with
      | some z => exact hsome k z hn hv
      | none =>
        refine ⟨hat,fun x y hxy hx hy => ?_⟩
        rcases hnone k x y hn hv hxy hx hy with h | h
        · exact hle x y hxy h.1 h.2
        · exact htrans _ _ _ (hle p q hpq (fun _ _ => rfl) fun _ _ => rfl) h
  have htop (u v : BitVec w) : Agree w u v := fun i hi => by simp [hi]
  exact ⟨(hscan w le_rfl).1,fun x y h => (hscan w le_rfl).2 x y h (htop _ _) (htop _ _)⟩

lemma le_raise (hk : k < w) (h : a.getLsbD k = false) : a ≤ raise a (twoPow w k) := by
  apply BitVec.le_of_lt (lt_of_bit h _ _)
  all_goals grind [getLsbD_raise]

lemma raise_le (hk : k < w) (h : x.getLsbD k = true) (hx : Agree (k+1) x a) :
    raise a (twoPow w k) ≤ x := by
  apply le_of_bits
  grind [getLsbD_raise,Agree]

lemma Agree.bit_mono (h : Agree (k+1) x p) (hle : p ≤ x) (hp : p.getLsbD k = true) :
    x.getLsbD k = true := by
  by_contra hx
  exact absurd (lt_of_bit (by simpa using hx) hp h) (BitVec.not_lt.mpr hle)

lemma toNat_or_eq (u y : BitVec w) : (u ||| y).toNat = (u &&& ~~~y).toNat+y.toNat := by
  have h : u &&& ~~~y &&& y = 0#w := by
    ext i
    simp
  rw [← toNat_add_of_and_eq_zero h,add_eq_or_of_and_eq_zero _ _ h]
  congr 1
  ext i
  simp
  grind

lemma raise_or_le (hk : k < w) (hc : c.getLsbD k = true) (hcy : c ≤ y)
    (hx : Agree (k+1) x a) (hy : Agree (k+1) y c) : raise a (twoPow w k) ||| c ≤ x ||| y := by
  have hyk := hy.bit_mono hcy hc
  -- Below the bit only `c` and `y` count; from the bit on they are the same.
  have hsame : raise a (twoPow w k) &&& ~~~c = raise a (twoPow w k) &&& ~~~y := by
    apply eq_of_getLsbD_eq
    grind [getLsbD_raise,Agree]
  have hcy' : raise a (twoPow w k) ||| c ≤ raise a (twoPow w k) ||| y := by
    rw [le_def,toNat_or_eq,toNat_or_eq,hsame]
    exact Nat.add_le_add_left hcy _
  apply BitVec.le_trans hcy' (le_of_bits _)
  grind [getLsbD_raise,Agree]

lemma minOR_extreme {a b c d : BitVec 64} (hab : a ≤ b) (hcd : c ≤ d) :
    Extreme (· ≤ ·) (· ||| ·) a b c d (minOR a b c d) := by
  apply scan_extreme BitVec.le_refl (fun _ _ _ => BitVec.le_trans)
    ⟨⟨BitVec.le_refl a,hab⟩,BitVec.le_refl c,hcd⟩
  · intro k z hk hv
    simp only [minORVisit,bit_iff hk,getLsbD_and,getLsbD_not] at hv
    split at hv
    case isTrue h =>
      obtain ⟨hr,rfl⟩ : raise a (twoPow 64 k) ≤ b ∧ raise a (twoPow 64 k) ||| c = z := by grind
      exact ⟨⟨_,c,⟨⟨le_raise hk (by grind),hr⟩,BitVec.le_refl c,hcd⟩,rfl⟩,
        fun x y hxy => raise_or_le hk (by grind) hxy.2.1⟩
    case isFalse =>
      obtain ⟨ha,hc,hr,rfl⟩ : a.getLsbD k = true ∧ c.getLsbD k = false ∧
        raise c (twoPow 64 k) ≤ d ∧ a ||| raise c (twoPow 64 k) = z := by grind
      refine ⟨⟨a,_,⟨⟨BitVec.le_refl a,hab⟩,le_raise hk hc,hr⟩,rfl⟩,fun x y hxy hx hy => ?_⟩
      rw [BitVec.or_comm a,BitVec.or_comm x]
      exact raise_or_le hk ha hxy.1.1 hy hx
  · intro k x y hk hv ⟨⟨hax,hxb⟩,hcy,hyd⟩ hx hy
    simp only [minORVisit,bit_iff hk,getLsbD_and,getLsbD_not] at hv
    have hX := hx.bit_mono hax
    have hY := hy.bit_mono hcy
    have hra (h : x.getLsbD k = true) := BitVec.le_trans (raise_le hk h hx) hxb
    have hrc (h : y.getLsbD k = true) := BitVec.le_trans (raise_le hk h hy) hyd
    by_cases h : x.getLsbD k = a.getLsbD k ∧ y.getLsbD k = c.getLsbD k
    · exact .inl ⟨hx.of_succ h.1,hy.of_succ h.2⟩
    · -- `a | c` lacks the bit and `x | y` has it.
      refine .inr (BitVec.le_of_lt (lt_of_bit (k := k) ?_ ?_ ?_))
      all_goals grind [Agree]

lemma lower_le (hk : k < w) (h : b.getLsbD k = true) : lower b (twoPow w k) ≤ b := by
  apply BitVec.le_of_lt (lt_of_bit (k := k) _ h _)
  all_goals grind [lower_eq,getLsbD_clear]

lemma le_lower (hk : k < w) (hb : b.getLsbD k = true) (h : x.getLsbD k = false)
    (hx : Agree (k+1) x b) : x ≤ lower b (twoPow w k) := by
  apply le_of_bits
  grind [lower_eq,getLsbD_clear,Agree]

lemma or_le_lower (hk : k < w) (hb : b.getLsbD k = true) (hd : d.getLsbD k = true)
    (hx : Agree (k+1) x b) (hy : Agree (k+1) y d) : x ||| y ≤ lower b (twoPow w k) ||| d := by
  apply le_of_bits
  grind [lower_eq,getLsbD_clear,Agree]

lemma maxOR_extreme {a b c d : BitVec 64} (hab : a ≤ b) (hcd : c ≤ d) :
    Extreme (· ≥ ·) (· ||| ·) a b c d (maxOR a b c d) := by
  apply scan_extreme (r := (· ≥ ·)) BitVec.le_refl (fun _ _ _ h h' => BitVec.le_trans h' h)
    ⟨⟨hab,BitVec.le_refl b⟩,hcd,BitVec.le_refl d⟩
  · intro k z hk hv
    simp only [maxORVisit,bit_iff hk,getLsbD_and] at hv
    obtain ⟨hb,hd,⟨hl,rfl⟩ | ⟨hl,rfl⟩⟩ : b.getLsbD k = true ∧ d.getLsbD k = true ∧
      (a ≤ lower b (twoPow 64 k) ∧ lower b (twoPow 64 k) ||| d = z ∨
        c ≤ lower d (twoPow 64 k) ∧ b ||| lower d (twoPow 64 k) = z) := by grind
    · exact ⟨⟨_,d,⟨⟨hl,lower_le hk hb⟩,hcd,BitVec.le_refl d⟩,rfl⟩,fun x y _ => or_le_lower hk hb hd⟩
    · refine ⟨⟨b,_,⟨⟨hab,BitVec.le_refl b⟩,hl,lower_le hk hd⟩,rfl⟩,fun x y _ hx hy => ?_⟩
      rw [BitVec.or_comm b,BitVec.or_comm x]
      exact or_le_lower hk hd hb hy hx
  · intro k x y hk hv ⟨⟨hax,hxb⟩,hcy,hyd⟩ hx hy
    simp only [maxORVisit,bit_iff hk,getLsbD_and] at hv
    have hX : x.getLsbD k = true → b.getLsbD k = true :=
      Agree.bit_mono (fun i hi => (hx i hi).symm) hxb
    have hY : y.getLsbD k = true → d.getLsbD k = true :=
      Agree.bit_mono (fun i hi => (hy i hi).symm) hyd
    have hlb (hb) (h) := BitVec.le_trans hax (le_lower hk hb h hx)
    have hld (hd) (h) := BitVec.le_trans hcy (le_lower hk hd h hy)
    by_cases h : x.getLsbD k = b.getLsbD k ∧ y.getLsbD k = d.getLsbD k
    · exact .inl ⟨hx.of_succ h.1,hy.of_succ h.2⟩
    · -- One of `b` and `d` has the bit, and `x | y` lacks it.
      refine .inr (BitVec.le_of_lt (lt_of_bit (k := k) ?_ ?_ ?_))
      all_goals grind [Agree]

lemma not_le_not : ~~~x ≤ ~~~y ↔ y ≤ x := by
  rw [le_def,le_def,toNat_not,toNat_not]
  omega

lemma Extreme.not {r s : BitVec w → BitVec w → Prop} (hr : ∀ u v, r u v → s (~~~u) (~~~v))
    (h : Extreme r (· ||| ·) (~~~b) (~~~a) (~~~d) (~~~c) z) :
    Extreme s (· &&& ·) a b c d (~~~z) := by
  obtain ⟨⟨x,y,⟨⟨hx,hx'⟩,hy,hy'⟩,rfl⟩,hbound⟩ := h
  constructor
  · refine ⟨~~~x, ~~~y,⟨⟨?_,?_⟩,?_,?_⟩,BitVec.not_or.symm⟩ <;>
      rwa [← not_le_not,BitVec.not_not]
  · intro u v ⟨⟨hau,hub⟩,hcv,hvd⟩
    have := hr _ _ (hbound (~~~u) (~~~v) ⟨⟨not_le_not.mpr hub,not_le_not.mpr hau⟩,
      not_le_not.mpr hvd,not_le_not.mpr hcv⟩)
    simpa [BitVec.not_or] using this

lemma scan_not {visit visit' : BitVec w → Option (BitVec w)} {rest : BitVec w}
    (h : ∀ k < w, visit' (twoPow w k) = (visit (twoPow w k)).map (~~~·)) (hn : n ≤ w) :
    scan visit' (~~~rest) n = ~~~scan visit rest n := by
  induction n with
  | zero => rfl
  | succ k ih =>
    rw [scan,scan,h k hn,ih (by omega)]
    cases visit (twoPow w k) <;> rfl

lemma not_raise (hk : k < w) (a : BitVec w) :
    ~~~raise a (twoPow w k) = clear (~~~a) (twoPow w k) := by
  apply eq_of_getLsbD_eq
  intro i hi
  rw [getLsbD_not,getLsbD_raise hk,getLsbD_clear hk,getLsbD_not]
  grind

lemma minAND_eq (a b c d : BitVec 64) :
    minAND a b c d = ~~~maxOR (~~~b) (~~~a) (~~~d) (~~~c) := by
  rw [minAND,← BitVec.not_not (b := a &&& c),BitVec.not_and]
  refine scan_not (fun k hk => ?_) le_rfl
  have ha := lower_eq (b := ~~~a) hk
  have hc := lower_eq (b := ~~~c) hk
  rw [← not_raise hk] at ha hc
  simp only [minANDVisit,maxORVisit,bit_iff hk]
  grind [not_le_not,BitVec.not_or,BitVec.not_not]

lemma maxAND_eq (a b c d : BitVec 64) :
    maxAND a b c d = ~~~minOR (~~~b) (~~~a) (~~~d) (~~~c) := by
  rw [maxAND,← BitVec.not_not (b := b &&& d),BitVec.not_and]
  refine scan_not (fun k hk => ?_) le_rfl
  have hb := not_raise hk (~~~b)
  have hd := not_raise hk (~~~d)
  rw [BitVec.not_not] at hb hd
  simp only [maxANDVisit,minORVisit,← hb,← hd,BitVec.not_not]
  grind [not_le_not,BitVec.not_or,BitVec.not_not]

/-- The four functions are exact. -/
theorem bitwise_bounds_exact {a b c d : BitVec 64} (hab : a ≤ b) (hcd : c ≤ d) :
    Extreme (· ≤ ·) (· ||| ·) a b c d (minOR a b c d) ∧
    Extreme (· ≥ ·) (· ||| ·) a b c d (maxOR a b c d) ∧
    Extreme (· ≤ ·) (· &&& ·) a b c d (minAND a b c d) ∧
    Extreme (· ≥ ·) (· &&& ·) a b c d (maxAND a b c d) := by
  refine ⟨minOR_extreme hab hcd,maxOR_extreme hab hcd,?_,?_⟩
  · rw [minAND_eq]
    exact (maxOR_extreme (not_le_not.mpr hab) (not_le_not.mpr hcd)).not fun _ _ => not_le_not.mpr
  · rw [maxAND_eq]
    exact (minOR_extreme (not_le_not.mpr hab) (not_le_not.mpr hcd)).not fun _ _ => not_le_not.mpr

theorem bitwise_bounds_five_six :
    Extreme (· ≤ ·) (· ||| ·) 5#64 6#64 9#64 12#64 13#64 := by
  have h := (bitwise_bounds_exact (a := 5#64) (b := 6#64) (c := 9#64) (d := 12#64) (by decide)
    (by decide)).1
  rwa [show minOR 5#64 6#64 9#64 12#64 = 13#64 by decide +kernel] at h

end S2E.FastCexSolver
