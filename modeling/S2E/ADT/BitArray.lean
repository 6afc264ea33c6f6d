import Mathlib

/-!
`BitArrayT`: bits in words of any width, with the number of those that are set. The words are
filled as a whole, so the rest of the last one has the initial value too.
-/

namespace S2E
open List Function Nat BitVec

structure BitArrayT (BITS : Nat) where
  bits : Nat → BitVec BITS
  bitcount : Nat
  setbitcount : Nat

namespace BitArrayT
variable {BITS : Nat}

def words (BITS bitcount : Nat) : Nat := (bitcount+(BITS-1))/BITS

def create (size : Nat) (value : Bool) : BitArrayT BITS where
  bits _ := if value then .allOnes BITS else 0
  bitcount := size
  setbitcount := if value then size else 0

variable (b : BitArrayT BITS)

def get (idx : Nat) : Option Bool :=
  if idx/BITS < words BITS b.bitcount then
    some ((b.bits (idx/BITS)).getLsbD (idx%BITS))
  else none

def set (idx : Nat) : Option (BitArrayT BITS) := do
  let bit ← b.get idx
  some { b with
    setbitcount := if bit then b.setbitcount else b.setbitcount+1
    bits := update b.bits (idx/BITS)
      (b.bits (idx/BITS) ||| BitVec.ofNat BITS 1 <<< (idx%BITS))}

def unset (idx : Nat) : Option (BitArrayT BITS) := do
  let bit ← b.get idx
  some { b with
    setbitcount := if bit then b.setbitcount-1 else b.setbitcount
    bits := update b.bits (idx/BITS)
      (b.bits (idx/BITS) &&& ~~~(BitVec.ofNat BITS 1 <<< (idx%BITS)))}

def isAllZeros : Bool := b.setbitcount == 0

def isAllOnes : Bool := b.setbitcount == b.bitcount

def ctz (val : BitVec BITS) : Nat := ((range BITS).find? val.getLsbD).getD BITS

def findFirstSet : Option (Option Nat) :=
  match (range (words BITS b.bitcount)).find? (b.bits · != 0) with
  | none => some none
  | some i =>
    let firstBitSet := ctz (b.bits i)+1
    let index := i*BITS+firstBitSet-1
    if b.get index = some true then some (some index) else none

inductive Op where
  | setTo (idx : Nat) (value : Bool)
  | copy

def step : Op → Option (BitArrayT BITS)
  | .setTo idx value => if value then b.set idx else b.unset idx
  | .copy => some ⟨b.bits,b.bitcount,b.setbitcount⟩

def run (ops : List Op) : Option (BitArrayT BITS) := ops.foldlM step b

def Op.apply (f : Nat → Bool) : Op → Nat → Bool
  | .setTo idx value => update f idx value
  | .copy => f

def Op.Below (n : Nat) : Op → Prop
  | .setTo idx _ => idx < n
  | .copy => True

def FirstSet (n : Nat) (f : Nat → Bool) : Option Nat → Prop
  | none => ∀ j < n, f j = false
  | some i => i < n ∧ f i = true ∧ ∀ j < i, f j = false

structure Stores (n : Nat) (value : Bool) (b : BitArrayT BITS) (f : Nat → Bool) : Prop where
  bitcount : b.bitcount = n
  bit : ∀ j, (b.bits (j/BITS)).getLsbD (j%BITS) = f j
  rest : ∀ j, n ≤ j → f j = value
  count : b.setbitcount = {j ∈ Finset.range n | f j = true}.card

section
variable (hB : 0 < BITS) {b : BitArrayT BITS} {f : Nat → Bool} {n i j : Nat} {value v : Bool}

lemma card_update (f : Nat → Bool) (hi : i < n) (v : Bool) :
    {j ∈ Finset.range n | update f i v j}.card =
      {j ∈ (Finset.range n).erase i | f j}.card+v.toNat := by
  have hcongr : {j ∈ (Finset.range n).erase i | update f i v j} =
      {j ∈ (Finset.range n).erase i | f j} :=
    Finset.filter_congr fun j hj => by rw [update_of_ne (Finset.ne_of_mem_erase hj)]
  conv_lhs => rw [← Finset.insert_erase (Finset.mem_range.mpr hi)]
  rw [Finset.filter_insert,hcongr,update_self]
  cases v <;> simp

include hB

lemma le_words (n : Nat) : n ≤ words BITS n*BITS := by
  have hdiv := div_add_mod' (n+(BITS-1)) BITS
  have hmod := mod_lt (n+(BITS-1)) hB
  unfold words
  omega

lemma stores_create (n : Nat) (value : Bool) :
    Stores n value (create n value : BitArrayT BITS) fun _ => value where
  bitcount := rfl
  bit j := by cases value <;> simp [create,mod_lt j hB]
  rest _ _ := rfl
  count := by cases value <;> simp [create]

lemma Stores.get (hs : Stores n value b f) (hj : j < words BITS n*BITS) :
    b.get j = some (f j) := by
  rw [BitArrayT.get,hs.bitcount,if_pos ((div_lt_iff_lt_mul hB).mpr hj),hs.bit]

lemma getLsbD_update {bits : Nat → BitVec BITS} {word : BitVec BITS}
    (hbit : ∀ j, (bits (j/BITS)).getLsbD (j%BITS) = f j)
    (hword : ∀ k < BITS, word.getLsbD k = if k = i%BITS then v else (bits (i/BITS)).getLsbD k)
    (j : Nat) : (update bits (i/BITS) word (j/BITS)).getLsbD (j%BITS) = update f i v j := by
  by_cases hij : j/BITS = i/BITS
  · have hiff : j%BITS = i%BITS ↔ j = i := by
      refine ⟨fun hmod => ?_,fun h => by rw [h]⟩
      rw [← div_add_mod j BITS,← div_add_mod i BITS,hij,hmod]
    rw [hij,update_self,hword _ (mod_lt _ hB),← hij,hbit,update_apply]
    simp only [hiff]
  · have hne : j ≠ i := fun h => hij (by rw [h])
    rw [update_of_ne hij,hbit,update_of_ne hne]

lemma Stores.step (hs : Stores n value b f) {op : Op} (hop : op.Below n) :
    ∃ b', b.step op = some b' ∧ Stores n value b' (op.apply f) := by
  cases op with
  | copy => exact ⟨b,rfl,hs⟩
  | setTo i v =>
    have hget := hs.get hB ((show i < n from hop).trans_le (le_words hB n))
    have hmod := mod_lt i hB
    have hcount := hs.count
    rw [← update_eq_self i f,card_update f hop] at hcount
    have hrest : ∀ j, n ≤ j → update f i v j = value := fun j hj => by
      rw [update_of_ne (ne_of_gt (lt_of_lt_of_le hop hj)),hs.rest j hj]
    cases v with
    | true =>
      simp only [BitArrayT.step,set,hget]
      refine ⟨_,rfl,hs.bitcount,getLsbD_update hB hs.bit fun k hk => ?_,hrest,?_⟩
      · rw [← twoPow_eq,getLsbD_or,getLsbD_twoPow]
        grind
      · rw [Op.apply,card_update f hop,hcount]
        cases f i <;> rfl
    | false =>
      simp only [BitArrayT.step,unset,hget]
      refine ⟨_,rfl,hs.bitcount,getLsbD_update hB hs.bit fun k hk => ?_,hrest,?_⟩
      · rw [← twoPow_eq,getLsbD_and,getLsbD_not,getLsbD_twoPow]
        grind
      · rw [Op.apply,card_update f hop,hcount]
        cases f i <;> rfl

lemma Stores.run (ops : List Op) (hs : Stores n value b f) (hops : ∀ op ∈ ops, op.Below n) :
    ∃ b', b.run ops = some b' ∧ Stores n value b' (ops.foldl Op.apply f) := by
  induction ops generalizing b f with
  | nil => exact ⟨b,rfl,hs⟩
  | cons op ops ih =>
    obtain ⟨b1,hstep,hs1⟩ := hs.step hB (hops op mem_cons_self)
    obtain ⟨b2,hrun,hs2⟩ := ih hs1 fun op h => hops op (mem_cons_of_mem _ h)
    exact ⟨b2,by rw [run,foldlM_cons,hstep]; exact hrun,hs2⟩

omit hB in
lemma ctz_spec {val : BitVec BITS} (h : val ≠ 0) : ctz val < BITS ∧
    val.getLsbD (ctz val) ∧ ∀ k < ctz val, val.getLsbD k = false := by
  unfold ctz
  cases hfind : (range BITS).find? val.getLsbD with
  | none =>
    refine absurd (eq_of_getLsbD_eq fun k hk => ?_) h
    have hbit := find?_eq_none.mp hfind k (mem_range.mpr hk)
    simpa using hbit
  | some k =>
    obtain ⟨hbit,hk,hleast⟩ := find?_range_eq_some.mp hfind
    exact ⟨mem_range.mp hk,hbit,fun j hj => by simpa using hleast j hj⟩

lemma Stores.findFirstSet (hs : Stores n value b f) :
    ∃ found, b.findFirstSet = some found ∧ FirstSet (words BITS n*BITS) f found := by
  -- the bits of a word that is zero are not set
  have hzero : ∀ {j}, ¬(b.bits (j/BITS) != 0) → f j = false := by
    intro j hj
    rw [← hs.bit,show b.bits (j/BITS) = 0 by simpa using hj]
    simp
  unfold BitArrayT.findFirstSet
  rw [hs.bitcount]
  split
  next hnone =>
    refine ⟨none,rfl,fun j hj => hzero (find?_eq_none.mp hnone _ (mem_range.mpr ?_))⟩
    exact (div_lt_iff_lt_mul hB).mpr hj
  next i hsome =>
    obtain ⟨hne,hi,hbefore⟩ := find?_range_eq_some.mp hsome
    obtain ⟨hk,hbit,hleast⟩ := ctz_spec (bne_iff_ne.mp hne)
    generalize ctz (b.bits i) = k at hk hbit hleast
    obtain ⟨hdiv,hmod⟩ := (Nat.div_mod_unique hB).mpr ⟨rfl,hk⟩
    have hindex : i*BITS+(k+1)-1 = k+BITS*i := by
      rw [Nat.mul_comm]
      omega
    have hlt : k+BITS*i < words BITS n*BITS := by
      rw [← div_lt_iff_lt_mul hB,hdiv]
      exact mem_range.mp hi
    have hset : f (k+BITS*i) := by rw [← hs.bit,hdiv,hmod,hbit]
    refine ⟨some (k+BITS*i),?_,hlt,hset,fun j hj => ?_⟩
    · simp [hindex,hs.get hB hlt,hset]
    · rcases lt_or_ge (j/BITS) i with hji | hij
      · exact hzero (by simpa using hbefore _ hji)
      · have hj' := div_add_mod j BITS
        have hmul := mul_le_mul_left BITS hij
        have heq : j/BITS = i := by
          refine le_antisymm ?_ hij
          rw [← hdiv]
          exact Nat.div_le_div_right hj.le
        rw [← hs.bit,heq]
        rw [heq] at hj'
        exact hleast _ (by omega)

lemma Stores.findFirstSet_iff (hs : Stores n value b f) :
    (∃ found, b.findFirstSet = some found ∧ FirstSet n f found) ↔
      value = false ∨ words BITS n*BITS = n ∨ ∃ j < n, f j := by
  obtain ⟨found,hfound,hfirst⟩ := hs.findFirstSet hB
  have hle := le_words hB n
  simp only [hfound,Option.some.injEq,exists_eq_left']
  cases found with
  | none =>
    refine iff_of_true (fun j hj => hfirst j (hj.trans_le hle)) ?_
    rcases lt_or_eq_of_le hle with hlt | heq
    · rw [← hs.rest n le_rfl]
      exact .inl (hfirst n hlt)
    · exact .inr (.inl heq.symm)
  | some i =>
    obtain ⟨hi,hbit,hleast⟩ := hfirst
    by_cases hin : i < n
    · exact iff_of_true ⟨hin,hbit,hleast⟩ (.inr (.inr ⟨i,hin,hbit⟩))
    · refine iff_of_false (fun h => hin h.1) ?_
      rintro (hv | heq | ⟨j,hj,hjbit⟩)
      · rw [hs.rest i (Nat.le_of_not_lt hin),hv] at hbit
        cases hbit
      · omega
      · rw [hleast j (by omega)] at hjbit
        cases hjbit

/-- Only the search for the first set bit looks beyond the last bit. -/
theorem bit_array_exact_iff (n : Nat) (value : Bool) (ops : List Op)
    (hops : ∀ op ∈ ops, op.Below n) : let f := ops.foldl Op.apply fun _ => value
    ∃ b : BitArrayT BITS, (create n value).run ops = some b ∧ (∀ j < n, b.get j = some (f j)) ∧
      b.setbitcount = {j ∈ Finset.range n | f j = true}.card ∧
      (b.isAllOnes = true ↔ ∀ j < n, f j = true) ∧
      (b.isAllZeros = true ↔ ∀ j < n, f j = false) ∧
      ((∃ found, b.findFirstSet = some found ∧ FirstSet n f found) ↔
        value = false ∨ words BITS n*BITS = n ∨ ∃ j < n, f j = true) := by
  intro f
  obtain ⟨b,hrun,hs⟩ := Stores.run hB ops (stores_create hB n value) hops
  refine ⟨b,hrun,fun j hj => hs.get hB (hj.trans_le (le_words hB n)),hs.count,?_,?_,
    hs.findFirstSet_iff hB⟩
  · have hall := Finset.card_filter_eq_iff (s := Finset.range n) (p := (f ·))
    rw [isAllOnes,beq_iff_eq,hs.count,hs.bitcount]
    simpa using hall
  · rw [isAllZeros,beq_iff_eq,hs.count,Finset.card_filter_eq_zero_iff]
    simp [f]

end

theorem bit_array_exact_three : ∃ b : BitArrayT 64,
    (create 3 true).run [.copy,.setTo 0 false] = some b ∧ b.setbitcount = 2 ∧
      ∃ found, b.findFirstSet = some found ∧ FirstSet 3 (update (fun _ => true) 0 false) found := by
  obtain ⟨b,hrun,-,hcount,-,-,hfirst⟩ :=
    bit_array_exact_iff (by decide : 0 < 64) 3 true [.copy,.setTo 0 false] (by simp [Op.Below])
  exact ⟨b,hrun,hcount.trans (by decide),hfirst.mpr (.inr (.inr ⟨1,by decide,by decide⟩))⟩

/-- The only bit is unset, and the one after it is found. -/
theorem unset_bit_array_has_first : ((create 1 true : BitArrayT 64).run [.setTo 0 false]).map
      (fun b => (b.isAllZeros,b.findFirstSet)) = some (true,some (some 1)) := by
  decide +kernel

end BitArrayT
end S2E
