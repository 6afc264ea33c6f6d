import Mathlib

/-! The checksum of `PEFile.cpp`, against the one the format defines. -/

namespace S2E.PEFile
open List

def littleEndian : List UInt8 → Nat
  | [] => 0
  | b :: l => b.toNat+256*littleEndian l

def readb (file : List UInt8) (nbyte offset : Nat) : Option Nat :=
  if offset+nbyte ≤ file.length then some (littleEndian ((file.drop offset).take nbyte)) else none

def addDword (checksum dword : Nat) : Nat :=
  let sum := checksum+dword
  if sum > 2^32 then sum%2^32+sum/2^32 else sum

def sumDwords (file : List UInt8) (remainder dwords : Nat) : Nat → Nat → Nat → Option Nat
  | 0, _, checksum => some checksum
  | n+1, i, checksum => do
    -- The source compares `i + 1` with a truth value.
    let l := if i+1 = (decide (dwords ≠ 0) && decide (remainder ≠ 0)).toNat then remainder else 4
    let dword ← readb file l (i*4)
    sumDwords file remainder dwords n (i+1) (addDword checksum dword)

def foldDword (checksum : Nat) : Nat :=
  let sum := checksum%2^16+checksum/2^16
  (sum+sum/2^16)%2^16

def computeChecksum (file : List UInt8) : Nat :=
  let sz := file.length
  let remainder := sz%4
  let dataLen := sz+(4-remainder)*(decide (remainder ≠ 0)).toNat
  match sumDwords file remainder (dataLen/4) (dataLen/4) 0 0 with
  | none => 0
  | some checksum => (foldDword checksum+sz)%2^32

def words : List UInt8 → List Nat
  | a :: b :: l => (a.toNat+256*b.toNat) :: words l
  | l => l.map UInt8.toNat

def onesAdd (s w : Nat) : Nat := (s+w)%2^16+(s+w)/2^16

def peChecksum (file : List UInt8) : Nat := (words file).foldl onesAdd 0+file.length

structure Sums (c t : Nat) : Prop where
  residue : c%65535 = t%65535
  zero : c = 0 ↔ t = 0

variable {file : List UInt8} {c d s t n i m : Nat}

lemma Sums.unique (hc : Sums c t) (hd : Sums d t) (hle : c < 2^16) (hle' : d < 2^16) : c = d := by
  have := hc.residue.trans hd.residue.symm
  have := hc.zero.trans hd.zero.symm
  omega

lemma Sums.foldl (h : Sums s t) (hs : s < 2^16) (ws : List Nat) (hws : ∀ w ∈ ws, w < 2^16) :
    Sums (ws.foldl onesAdd s) (t+ws.sum) ∧ ws.foldl onesAdd s < 2^16 := by
  induction ws generalizing s t with
  | nil => exact ⟨h,hs⟩
  | cons w ws ih =>
    rw [forall_mem_cons] at hws
    obtain ⟨hres,hzero⟩ := h
    have hstep : Sums (onesAdd s w) (t+w) := by constructor <;> unfold onesAdd <;> omega
    rw [foldl_cons,sum_cons,← Nat.add_assoc]
    exact ih hstep (by unfold onesAdd; omega) hws.2

lemma words_lt (file : List UInt8) : ∀ w ∈ words file, w < 2^16 := by
  fun_induction words file with
  | case1 a b l ih =>
    have := a.toNat_lt
    have := b.toNat_lt
    simpa using ⟨by omega,ih⟩
  | case2 l =>
    intro w hw
    obtain ⟨a,_,rfl⟩ := mem_map.mp hw
    have := a.toNat_lt
    omega

lemma Sums.addDword (h : Sums c t) (hc : c ≤ 2^32) {v w : Nat} (hv : v < 2^16) (hw : w < 2^16) :
    Sums (addDword c (v+2^16*w)) (t+v+w) ∧ PEFile.addDword c (v+2^16*w) ≤ 2^32 := by
  obtain ⟨hres,hzero⟩ := h
  unfold PEFile.addDword
  dsimp only
  split
  · exact ⟨⟨by omega,by omega⟩,by omega⟩
  · exact ⟨⟨by omega,by omega⟩,by omega⟩

lemma Sums.foldDword (h : Sums c t) (hc : c ≤ 2^32) :
    Sums (foldDword c) t ∧ PEFile.foldDword c < 2^16 := by
  obtain ⟨hres,hzero⟩ := h
  unfold PEFile.foldDword
  obtain ⟨sum,hsum⟩ : ∃ sum, sum = c%2^16+c/2^16 := ⟨_,rfl⟩
  have hle : sum < 2^17-1 := by omega
  have hsumres : sum%65535 = t%65535 := by omega
  have hsumzero : sum = 0 ↔ t = 0 := by omega
  rw [← hsum]
  dsimp only
  by_cases hcarry : sum < 2^16
  · rw [show (sum+sum/2^16)%2^16 = sum by omega]
    exact ⟨⟨hsumres,hsumzero⟩,hcarry⟩
  · rw [show (sum+sum/2^16)%2^16 = sum+1-2^16 by omega]
    exact ⟨⟨by omega,by omega⟩,by omega⟩

lemma readb_dword {a b v w : UInt8} {rest : List UInt8}
    (h : file.drop (i*4) = a :: b :: v :: w :: rest) :
    readb file 4 (i*4) = some (a.toNat+256*b.toNat+2^16*(v.toNat+256*w.toNat)) := by
  have hlen := congrArg length h
  rw [length_drop] at hlen
  simp only [length_cons] at hlen
  rw [readb,if_pos (by omega),h]
  simp [littleEndian]
  omega

lemma sumDwords_aligned (hlen : file.length = (i+n)*4) (h : Sums c t) (hc : c ≤ 2^32) :
    ∃ c', sumDwords file 0 m n i c = some c' ∧ c' ≤ 2^32 ∧
      Sums c' (t+(words (file.drop (i*4))).sum) := by
  induction n generalizing i c t with
  | zero =>
    refine ⟨c,rfl,hc,?_⟩
    rwa [drop_eq_nil_of_le (by omega)]
  | succ n ih =>
    have hdrop := length_drop (i := i*4) (l := file)
    match hbytes : file.drop (i*4) with
    | a :: b :: v :: w :: rest =>
      have hrest : file.drop ((i+1)*4) = rest := by
        rw [Nat.succ_mul,← drop_drop,hbytes]
        rfl
      have ha := a.toNat_lt
      have hb := b.toNat_lt
      have hv := v.toNat_lt
      have hw := w.toNat_lt
      obtain ⟨hsum,hle⟩ := h.addDword hc (v := a.toNat+256*b.toNat) (w := v.toNat+256*w.toNat)
        (by omega) (by omega)
      obtain ⟨c',hc',hle',hsum'⟩ := ih (i := i+1) (by omega) hsum hle
      refine ⟨c',?_,hle',?_⟩
      · simpa [sumDwords,readb_dword hbytes] using hc'
      · rw [hrest] at hsum'
        simpa [words,Nat.add_assoc] using hsum'
    | [] | [_] | [_,_] | [_,_,_] =>
      rw [hbytes] at hdrop
      simp at hdrop
      omega

lemma sumDwords_short (hi : 0 < i) (hn : 0 < n) (hlen : file.length < (i+n)*4) {r : Nat} :
    sumDwords file r m n i c = none := by
  induction n generalizing i c with
  | zero => omega
  | succ n ih =>
    have hl : ¬i+1 = (decide (m ≠ 0) && decide (r ≠ 0)).toNat := by
      have := Bool.toNat_le (decide (m ≠ 0) && decide (r ≠ 0))
      omega
    rw [sumDwords,if_neg hl,readb]
    split
    · exact ih (by omega) (by omega) (by omega)
    · rfl

lemma sums_partial (h : file.length < 4) : addDword 0 (littleEndian file) ≤ 2^32 ∧
      Sums (addDword 0 (littleEndian file)) (words file).sum := by
  obtain ⟨v,w,hv,hw,hdword,hwords⟩ : ∃ v w, v < 2^16 ∧ w < 2^16 ∧
      littleEndian file = v+2^16*w ∧ (words file).sum = v+w := by
    match file with
    | [] => exact ⟨0,0,by decide,by decide,rfl,rfl⟩
    | [a] =>
      have ha := a.toNat_lt
      exact ⟨a.toNat,0,by omega,by decide,rfl,rfl⟩
    | [a,b] =>
      have ha := a.toNat_lt
      have hb := b.toNat_lt
      exact ⟨a.toNat+256*b.toNat,0,by omega,by decide,rfl,rfl⟩
    | [a,b,v] =>
      have ha := a.toNat_lt
      have hb := b.toNat_lt
      have hv := v.toNat_lt
      refine ⟨a.toNat+256*b.toNat,v.toNat,by omega,by omega,?_,rfl⟩
      simp only [littleEndian]
      omega
  obtain ⟨hsum,hle⟩ := Sums.addDword (t := 0) ⟨rfl,Iff.rfl⟩ (Nat.zero_le _) hv hw
  rw [hdword,hwords]
  exact ⟨hle,by simpa using hsum⟩

lemma computeChecksum_def (file : List UInt8) :
    computeChecksum file = match sumDwords file (file.length%4) ((file.length+3)/4)
      ((file.length+3)/4) 0 0 with
      | none => 0
      | some checksum => (foldDword checksum+file.length)%2^32 := by
  have hdata : (file.length+(4-file.length%4)*(decide (file.length%4 ≠ 0)).toNat)/4 =
      (file.length+3)/4 := by
    by_cases h4 : file.length%4 = 0 <;> simp [h4] <;> omega
  simp only [computeChecksum,hdata]

lemma computeChecksum_eq (h : file.length%4 = 0 ∨ file.length < 4) :
    computeChecksum file = peChecksum file%2^32 := by
  have hstart : Sums 0 0 := ⟨rfl,Iff.rfl⟩
  obtain ⟨hstd,hstdlt⟩ := hstart.foldl (by decide) (words file) (words_lt file)
  obtain ⟨c',hc',hle,hsum⟩ : ∃ c', sumDwords file (file.length%4)
      ((file.length+3)/4) ((file.length+3)/4) 0 0 = some c' ∧ c' ≤ 2^32 ∧
      Sums c' (0+(words file).sum) := by
    by_cases h4 : file.length%4 = 0
    · rw [h4]
      simpa using sumDwords_aligned (i := 0) (n := (file.length+3)/4) (by omega) hstart (by decide)
    · have hone : (file.length+3)/4 = 1 := by omega
      rw [hone,Nat.mod_eq_of_lt (by omega)]
      have hpart := sums_partial (show file.length < 4 by omega)
      have hne : file.length ≠ 0 := by omega
      exact ⟨_,by simp [sumDwords,readb,hne],hpart.1,by simpa using hpart.2⟩
  obtain ⟨hfold,hfoldlt⟩ := hsum.foldDword hle
  rw [computeChecksum_def,hc',peChecksum,← hfold.unique hstd hfoldlt hstdlt]

lemma computeChecksum_zero (h : ¬(file.length%4 = 0 ∨ file.length < 4)) :
    computeChecksum file = 0 := by
  obtain ⟨n,hn⟩ : ∃ n, (file.length+3)/4 = n+2 := ⟨(file.length+3)/4-2,by omega⟩
  have hnone : sumDwords file (file.length%4) (n+2) (n+2) 0 0 = none := by
    rw [sumDwords,Option.bind_eq_bind,Option.bind_eq_none_iff]
    exact fun _ _ => sumDwords_short (by omega) (by omega) (by omega)
  rw [computeChecksum_def,hn,hnone]

/-- The code is right where its only short read is also the last one. -/
theorem computeChecksum_standard_iff (file : List UInt8) : computeChecksum file = peChecksum file ↔
      (file.length%4 = 0 ∨ file.length < 4) ∧ peChecksum file < 2^32 := by
  by_cases h : file.length%4 = 0 ∨ file.length < 4
  · rw [computeChecksum_eq h]
    omega
  · rw [computeChecksum_zero h,peChecksum]
    omega

theorem computeChecksum_five_bytes :
    computeChecksum [1,0,0,0,0] = 0 ∧ peChecksum [1,0,0,0,0] = 6 := by decide

end S2E.PEFile
