import S2E.ADT.TreeContents
import S2E.Lib.Maps

/-!
`TestCaseGenerator`: how the files of a test case are put together from the values of symbolic
variables. The name of a variable gives the file, the number of the chunk and how many chunks
there are; a file may also have a template with the bytes that are not symbolic.
-/

namespace S2E
open Std List Option Function Nat Prod

variable {id : Nat} {V : Type} {m : TreeMap Nat V} {chunks : TreeMap Nat Nat} {offsets : List Nat}

namespace TestCase

abbrev Data := List (BitVec 8)

abbrev Name := List Char

def after : List Char → List Char → Option (List Char)
  | [], s => some s
  | _ :: _, [] => none
  | c :: cs, d :: s => if c = d then after cs s else none

/-- `(\d+)`. What follows it is not a digit, so that the longest number is the only one. -/
def number (s : List Char) : Option (List Char × List Char) :=
  match s.span Char.isDigit with
  | ([],_) => none
  | (digits,s) => some (digits,s)

/-- `___(\d+)_(\d+)_symfile__.*`. -/
def matchParts (s : List Char) : Option (List Char × List Char) := do
  let s ← after ['_', '_', '_'] s
  let (part,s) ← number s
  let s ← after ['_'] s
  let (numberOfParts,s) ← number s
  let _ ← after ['_', 's', 'y', 'm', 'f', 'i', 'l', 'e', '_', '_'] s
  some (part,numberOfParts)

/-- `(.+?)` and the rest, the shortest name first. -/
def matchPath (path : Name) (s : List Char) : Option (Name × List Char × List Char) :=
  match if path = [] then none else matchParts s with
  | some (part,numberOfParts) => some (path,part,numberOfParts)
  | none =>
    match s with
    | [] => none
    | c :: s => matchPath (path ++ [c]) s

/-- `SymbolicFileRegEx`, at the first place that has a match. -/
def matchName (s : List Char) : Option (Name × List Char × List Char) :=
  match (after ['_', '_', 's', 'y', 'm', 'f', 'i', 'l', 'e', '_', '_', '_'] s).bind
    (matchPath []) with
  | some m => some m
  | none =>
    match s with
    | [] => none
    | _ :: s => matchName s

/-- `atoi`, as the C library computes it: the number is a `long`, which is cut to an `int`. -/
def atoi (digits : List Char) : Nat :=
  min (digits.foldl (fun n c => 10*n+(c.toNat - '0'.toNat)) 0) (2^63-1)%2^32

structure FilePart where
  filePath : Name
  part : Nat
  numberOfParts : Nat
  part_lt : part < numberOfParts
  numberOfParts_lt : numberOfParts < 2^32

def getFilePart (variableName : Name) : Option FilePart :=
  match matchName variableName with
  | none => none
  | some (filePath,partStr,numberOfPartsStr) =>
    if h : atoi partStr < atoi numberOfPartsStr then
      some ⟨filePath,atoi partStr,atoi numberOfPartsStr,h,mod_lt _ (by decide)⟩
    else none

structure ConcreteInput where
  name : Name
  value : Data
  length_lt : value.length < 2^32

structure TestCaseFile where
  chunks : TreeMap Nat Nat := ∅
  chunksData : TreeMap Nat Data := ∅
  totalParts : Nat := 0

abbrev TestCaseFiles := Name → Option TestCaseFile

def TestCaseFile.put (file : TestCaseFile) (part total : Nat) (value : Data) : TestCaseFile where
  chunks := file.chunks.insert part value.length
  chunksData := file.chunksData.insert part value
  totalParts := total

def getFile (files : TestCaseFiles) (input : ConcreteInput) : TestCaseFiles :=
  match getFilePart input.name with
  | none => files
  | some p => update files p.filePath
      (some (((files p.filePath).getD {}).put p.part p.numberOfParts input.value))

def getFiles (inputs : List ConcreteInput) : TestCaseFiles := inputs.foldl getFile fun _ => none

def nameLt : Name → Name → Bool
  | _, [] => false
  | [], _ :: _ => true
  | c :: s, d :: t => decide (c.toNat < d.toNat) || (decide (c = d) && nameLt s t)

structure ConcreteFileTemplates where
  tree : ImmutableTree (Name × Data)
  increasing : WeakOrder.Increasing nameLt Prod.fst tree.toList

def offsetsOf : List Nat → Nat → List Nat × Nat
  | [], size => ([],size)
  | chunkSize :: rest, size =>
    let (offsets,total) := offsetsOf rest ((size+chunkSize)%2^32)
    (size :: offsets,total)

def copyInto (out : Data) (offset : Nat) (data : Data) : Option Data :=
  if offset+data.length ≤ out.length then
    some (out.take offset ++ data ++ out.drop (offset+data.length))
  else none

def copyChunk (chunks : TreeMap Nat Nat) (offsets : List Nat) (out : Data) (it : Nat × Data) :
    Option Data := do
  let chunkSize ← chunks[it.1]?
  let offset ← offsets[it.1]?
  if chunkSize ≤ it.2.length then copyInto out offset (it.2.take chunkSize) else none

def patch (chunks : TreeMap Nat Nat) : List (Nat × Data) → Data → Option (Option Data)
  | [], out => some (some out)
  | (id,chunkData) :: rest, out => do
    let chunkSize ← chunks[id]?
    if chunkSize ≠ 1 then some none
    else if id ≥ out.length then some none
    else do
      let byte ← chunkData[0]?
      patch chunks rest (out.set id byte)

def assembleParts (file : TestCaseFile) : Option (Option Data) :=
  if file.totalParts ≠ file.chunks.size then some none
  else if file.chunksData.size ≠ file.chunks.size then some none
  else do
    let (offsets,size) := offsetsOf (file.chunks.toList.map Prod.snd) 0
    let out ← file.chunksData.toList.foldlM (copyChunk file.chunks offsets)
      (replicate size 0)
    some (some out)

def assembleChunks (name : Name) (file : TestCaseFile) (templates : ConcreteFileTemplates) :
    Option (Option Data) :=
  match ImmutableTree.lookupPrevious nameLt name none templates.tree with
  | none => assembleParts file
  | some (_,template) => patch file.chunks file.chunksData.toList template

structure Chunk where
  id : Nat
  total : Nat
  data : Data
  id_lt : id < total
  total_lt : total < 2^32

def chunkOf (name : Name) (input : ConcreteInput) : Option Chunk :=
  match getFilePart input.name with
  | none => none
  | some p =>
    if p.filePath = name then
      some ⟨p.part,p.numberOfParts,input.value,p.part_lt,p.numberOfParts_lt⟩
    else none

def chunksOf (inputs : List ConcreteInput) (name : Name) : List Chunk :=
  inputs.filterMap (chunkOf name)

def ownTemplate (templates : ConcreteFileTemplates) (name : Name) : Option Data :=
  (ImmutableTree.lookup nameLt name templates.tree).map Prod.snd

def previousTemplate (templates : ConcreteFileTemplates) (name : Name) : Option Data :=
  (WeakOrder.below nameLt Prod.fst name templates.tree.toList).getLast?.map Prod.snd

variable (cs : List Chunk)

def ConflictFree : Prop :=
  ∀ c ∈ cs, ∀ c' ∈ cs, c.id = c'.id → c.data = c'.data

def partsOf : Nat := (cs.map Chunk.id).dedup.length

def Complete : Prop := ConflictFree cs ∧ ∀ c ∈ cs, c.total = partsOf cs

def dataAt (id : Nat) : Option Data :=
  (cs.find? fun c => c.id = id).map Chunk.data

def concatenation : Data :=
  (range (partsOf cs)).flatMap fun i => (dataAt cs i).getD []

def replaced (template : Data) : Data :=
  template.mapIdx fun i byte => ((dataAt cs i).bind head?).getD byte

instance (cs : List Chunk) : Decidable (ConflictFree cs) :=
  inferInstanceAs (Decidable (∀ c ∈ cs, _))

instance (cs : List Chunk) : Decidable (Complete cs) := inferInstanceAs (Decidable (_ ∧ _))

/-- What the file is, as a matter of its own chunks and its own template. A file with chunks that
disagree, or that are missing, is refused. -/
def intended : Option Data → Option Data
  | some template =>
    if ConflictFree cs ∧ ∀ c ∈ cs, c.data.length = 1 ∧ c.id < template.length then
      some (replaced cs template)
    else none
  | none => if Complete cs then some (concatenation cs) else none

def fileOf : TestCaseFile :=
  cs.foldl (fun file c => file.put c.id c.total c.data) {}

def lastOf (id : Nat) : Option Chunk := cs.reverse.find? fun c => c.id = id

lemma fileOf_concat (c : Chunk) : fileOf (cs ++ [c]) = (fileOf cs).put c.id c.total c.data := by
  rw [fileOf,foldl_append]
  rfl

lemma getFile_apply (files : TestCaseFiles) (input : ConcreteInput) (name : Name) :
    getFile files input name = match chunkOf name input with
      | none => files name
      | some c => some (((files name).getD {}).put c.id c.total c.data) := by
  unfold getFile chunkOf
  cases getFilePart input.name with
  | none => rfl
  | some p =>
    by_cases hname : p.filePath = name
    · subst hname
      simp
    · simp only [update_of_ne (Ne.symm hname),if_neg hname]

lemma getFiles_eq (inputs : List ConcreteInput) (name : Name) : getFiles inputs name =
      if chunksOf inputs name = [] then none else some (fileOf (chunksOf inputs name)) := by
  -- the inputs before these have made the file of their chunks
  have hloop : ∀ (files : TestCaseFiles) (cs : List Chunk),
      files name = (if cs = [] then none else some (fileOf cs)) →
      inputs.foldl getFile files name =
        if cs ++ chunksOf inputs name = [] then none
        else some (fileOf (cs ++ chunksOf inputs name)) := by
    induction inputs with
    | nil =>
      intro files cs hfiles
      simpa [chunksOf] using hfiles
    | cons input inputs ih =>
      intro files cs hfiles
      have happly := getFile_apply files input name
      rw [foldl_cons]
      cases hchunk : chunkOf name input with
      | none =>
        rw [chunksOf,filterMap_cons_none hchunk]
        rw [hchunk] at happly
        exact ih _ cs (happly.trans hfiles)
      | some c =>
        rw [chunksOf,filterMap_cons_some hchunk,← singleton_append,← append_assoc]
        rw [hchunk] at happly
        refine ih _ (cs ++ [c]) (happly.trans ?_)
        rw [if_neg (by simp),hfiles,fileOf_concat]
        cases cs <;> rfl
  exact hloop _ [] rfl

lemma lastOf_concat (c : Chunk) (id : Nat) :
    lastOf (cs ++ [c]) id = if c.id = id then some c else lastOf cs id := by
  rw [lastOf,reverse_append,reverse_singleton,singleton_append,find?_cons]
  by_cases h : c.id = id <;> simp [h,lastOf]

lemma fileOf_getElem? (id : Nat) : (fileOf cs).chunksData[id]? = (lastOf cs id).map Chunk.data ∧
      (fileOf cs).chunks[id]? = (lastOf cs id).map fun c => c.data.length := by
  induction cs using reverseRecOn with
  | nil => exact ⟨rfl,rfl⟩
  | append_singleton cs c ih =>
    rw [fileOf_concat,lastOf_concat,TestCaseFile.put]
    by_cases h : c.id = id
    · subst h
      simp
    · rwa [Maps.insert_of_ne (Ne.symm h),Maps.insert_of_ne (Ne.symm h),if_neg h]

lemma totalParts_eq : (fileOf cs).totalParts = (cs.getLast?.map Chunk.total).getD 0 := by
  induction cs using reverseRecOn with
  | nil => rfl
  | append_singleton cs c ih =>
    rw [fileOf_concat,getLast?_append]
    simp [TestCaseFile.put]

variable {cs : List Chunk}

lemma mem_of_lastOf {c : Chunk} (h : lastOf cs id = some c) : c ∈ cs ∧ c.id = id :=
  ⟨mem_reverse.mp (mem_of_find?_eq_some h),by simpa using find?_some h⟩

lemma lastOf_isSome : (∃ c, lastOf cs id = some c) ↔ id ∈ cs.map Chunk.id := by
  rw [← isSome_iff_exists,lastOf,find?_isSome]
  simp

lemma keys_nodup (m : TreeMap Nat V) : m.keys.Nodup := by
  refine (TreeMap.ordered_keys (t := m)).imp fun hlt heq => ?_
  subst heq
  simp at hlt

lemma size_eq_dedup {ks : List Nat} (h : ∀ k, k ∈ m ↔ k ∈ ks) : m.size = ks.dedup.length := by
  have hperm : m.keys.Perm ks.dedup := by
    rw [perm_ext_iff_of_nodup (keys_nodup m) (nodup_dedup ks)]
    intro k
    rw [TreeMap.mem_keys,h,mem_dedup]
  rw [← TreeMap.length_keys,hperm.length_eq]

lemma chunks_size (cs : List Chunk) :
    (fileOf cs).chunks.size = partsOf cs ∧ (fileOf cs).chunksData.size = partsOf cs := by
  refine ⟨size_eq_dedup fun id => ?_,size_eq_dedup fun id => ?_⟩
  · rw [Maps.mem_iff,(fileOf_getElem? _ _).2,← lastOf_isSome]
    simp
  · rw [Maps.mem_iff,(fileOf_getElem? _ _).1,← lastOf_isSome]
    simp

variable {data out out' template : Data}

lemma mem_chunksData :
    (id,data) ∈ (fileOf cs).chunksData.toList ↔ ∃ c, lastOf cs id = some c ∧ c.data = data := by
  rw [Maps.mem_toList,(fileOf_getElem? _ _).1,map_eq_some_iff]

def patchAll (l : List (Nat × Data)) (out : Data) : Data :=
  l.foldl (fun out e => out.set e.1 (e.2.headD 0)) out

variable {l : List (Nat × Data)} {i k n : Nat}

lemma patchAll_of_not_mem (h : i ∉ l.map fst) (out : Data) : (patchAll l out)[i]? = out[i]? := by
  induction l generalizing out with
  | nil => rfl
  | cons e l ih =>
    rw [map_cons,mem_cons,not_or] at h
    exact (ih h.2 _).trans (getElem?_set_ne (Ne.symm h.1))

lemma patchAll_of_mem (hkeys : (l.map fst).Nodup) {x : Data} (h : (i,x) ∈ l) (out : Data) :
    (patchAll l out)[i]? = out[i]?.map fun _ => x.headD 0 := by
  induction l generalizing out with
  | nil => cases h
  | cons e l ih =>
    obtain ⟨hnot,hkeys⟩ := nodup_cons.mp hkeys
    rcases mem_cons.mp h with rfl | h
    · refine (patchAll_of_not_mem hnot _).trans ?_
      rw [getElem?_set_self']
      rfl
    refine (ih hkeys h _).trans ?_
    have hne : e.1 ≠ i := by
      rintro rfl
      exact hnot (mem_map.mpr ⟨_,h,rfl⟩)
    rw [getElem?_set_ne hne]

lemma patch_all (hsizes : ∀ e ∈ l, chunks[e.1]? = some e.2.length)
    (h : ∀ e ∈ l, e.2.length = 1 ∧ e.1 < out.length) :
    patch chunks l out = some (some (patchAll l out)) := by
  induction l generalizing out with
  | nil => rfl
  | cons e l ih =>
    obtain ⟨id,data⟩ := e
    obtain ⟨hone,hlt⟩ := h _ mem_cons_self
    obtain ⟨byte,rfl⟩ : ∃ byte, data = [byte] := length_eq_one_iff.mp hone
    rw [patch,hsizes _ mem_cons_self]
    simp only [bind_eq_bind,bind_some,length_singleton,ne_eq,
      not_true_eq_false,if_false,ge_iff_le,Nat.not_le_of_lt hlt,getElem?_cons_zero]
    refine ih (fun e he => hsizes e (mem_cons_of_mem _ he)) fun e he => ?_
    rw [length_set]
    exact h e (mem_cons_of_mem _ he)

lemma patch_refused (hsizes : ∀ e ∈ l, chunks[e.1]? = some e.2.length)
    (h : ∃ e ∈ l, e.2.length ≠ 1 ∨ out.length ≤ e.1) : patch chunks l out = some none := by
  induction l generalizing out with
  | nil =>
    obtain ⟨e,he,-⟩ := h
    cases he
  | cons e l ih =>
    obtain ⟨id,data⟩ := e
    rw [patch,hsizes _ mem_cons_self]
    simp only [bind_eq_bind,bind_some]
    by_cases hone : data.length = 1
    · rw [if_neg (by simpa using hone)]
      by_cases hge : id ≥ out.length
      · rw [if_pos hge]
      rw [if_neg hge]
      obtain ⟨byte,rfl⟩ : ∃ byte, data = [byte] := length_eq_one_iff.mp hone
      obtain ⟨e,he,hbad⟩ := h
      rcases mem_cons.mp he with rfl | he
      · rcases hbad with hne | hle
        · exact absurd hone hne
        · exact absurd hle hge
      · refine ih (fun e he => hsizes e (mem_cons_of_mem _ he)) ⟨e,he,?_⟩
        rw [length_set]
        exact hbad
    · rw [if_pos hone]

def Refused (cs : List Chunk) (template : Data) : Prop :=
  ∃ c ∈ cs, template.length ≤ c.id ∨ ∃ l, lastOf cs c.id = some l ∧ l.data.length ≠ 1

lemma chunks_of_mem {e : Nat × Data}
    (he : e ∈ (fileOf cs).chunksData.toList) : (fileOf cs).chunks[e.1]? = some e.2.length := by
  obtain ⟨c,hc,hdata⟩ := mem_chunksData.mp (show (e.1,e.2) ∈ _ from he)
  rw [(fileOf_getElem? _ _).2,hc,map_some,hdata]

lemma patch_of_refused (h : Refused cs template) :
    patch (fileOf cs).chunks (fileOf cs).chunksData.toList template = some none := by
  obtain ⟨c,hc,hbad⟩ := h
  obtain ⟨l,hl⟩ := lastOf_isSome.mpr (mem_map_of_mem hc)
  refine patch_refused (fun e he => chunks_of_mem he)
    ⟨(c.id,l.data),mem_chunksData.mpr ⟨l,hl,rfl⟩,?_⟩
  rcases hbad with hge | ⟨l',hl',hne⟩
  · exact .inr hge
  · cases hl.symm.trans hl'
    exact .inl hne

lemma patch_of_not_refused (h : ¬ Refused cs template) :
    patch (fileOf cs).chunks (fileOf cs).chunksData.toList template =
      some (some (patchAll (fileOf cs).chunksData.toList template)) := by
  refine patch_all (fun e he => chunks_of_mem he) fun e he => ?_
  obtain ⟨c,hc,hdata⟩ := mem_chunksData.mp (show (e.1,e.2) ∈ _ from he)
  obtain ⟨hmem,hid⟩ := mem_of_lastOf hc
  constructor
  · by_contra hne
    exact h ⟨c,hmem,.inr ⟨c,hid.symm ▸ hc,hdata.symm ▸ hne⟩⟩
  · by_contra hge
    exact h ⟨c,hmem,.inl (hid.symm ▸ Nat.le_of_not_lt hge)⟩

lemma dataAt_eq_some_iff (h : ConflictFree cs) :
    dataAt cs id = some data ↔ ∃ c ∈ cs, c.id = id ∧ c.data = data := by
  rw [dataAt,map_eq_some_iff]
  constructor
  · rintro ⟨c,hc,hdata⟩
    exact ⟨c,mem_of_find?_eq_some hc,by simpa using find?_some hc,hdata⟩
  · rintro ⟨c,hc,hid,rfl⟩
    obtain ⟨b,hb⟩ : ∃ b, cs.find? (fun c => c.id = id) = some b :=
      isSome_iff_exists.mp (find?_isSome.mpr ⟨c,hc,decide_eq_true hid⟩)
    have hbid : b.id = id := by simpa using find?_some hb
    exact ⟨b,hb,h b (mem_of_find?_eq_some hb) c hc (hbid.trans hid.symm)⟩

lemma dataAt_perm {cs' : List Chunk} (hperm : cs'.Perm cs) (hcf : ConflictFree cs) (id : Nat) :
    dataAt cs' id = dataAt cs id := by
  have hcf' : ConflictFree cs' := fun c hc c' hc' =>
    hcf c (hperm.mem_iff.mp hc) c' (hperm.mem_iff.mp hc')
  refine ext fun data => ?_
  simp only [dataAt_eq_some_iff hcf',dataAt_eq_some_iff hcf,hperm.mem_iff]

lemma dataAt_eq_last (h : ConflictFree cs) (id : Nat) :
    dataAt cs id = (lastOf cs id).map Chunk.data :=
  (dataAt_perm cs.reverse_perm h id).symm

lemma patchAll_eq_replaced (hcf : ConflictFree cs)
    (hone : ∀ c ∈ cs, c.data.length = 1) (template : Data) :
    patchAll (fileOf cs).chunksData.toList template = replaced cs template := by
  refine ext_getElem? fun i => ?_
  rw [replaced,getElem?_mapIdx,dataAt_eq_last hcf]
  cases hl : lastOf cs i with
  | none =>
    rw [patchAll_of_not_mem]
    · simp
    · rintro hi
      obtain ⟨⟨_,data⟩,he,rfl⟩ := mem_map.mp hi
      obtain ⟨c,hc,-⟩ := mem_chunksData.mp he
      cases hl.symm.trans hc
  | some c =>
    have hkeys := TreeMap.map_fst_toList_eq_keys.symm ▸ keys_nodup (fileOf cs).chunksData
    rw [patchAll_of_mem hkeys (mem_chunksData.mpr ⟨c,hl,rfl⟩)]
    obtain ⟨byte,hbyte⟩ := length_eq_one_iff.mp (hone c (mem_of_lastOf hl).1)
    simp [hbyte]

section
variable {cs : List Chunk}

lemma Complete.mem_iff (h : Complete cs) (id : Nat) : id ∈ cs.map Chunk.id ↔ id < partsOf cs := by
  have hsub : (cs.map Chunk.id).dedup ⊆ range (partsOf cs) := fun i hi => by
    obtain ⟨c,hc,rfl⟩ := mem_map.mp (mem_dedup.mp hi)
    exact mem_range.mpr (h.2 c hc ▸ c.id_lt)
  have hperm : (cs.map Chunk.id).dedup.Perm (range (partsOf cs)) :=
    (subperm_of_subset (nodup_dedup _) hsub).perm_of_length_le
      (by rw [length_range]; exact Nat.le_refl _)
  rw [← mem_dedup,hperm.mem_iff,mem_range]

lemma toList_eq_range {f : Nat → V} (h : ∀ k, m[k]? = if k < n then some (f k) else none) :
    m.toList = (range n).map fun k => (k,f k) := by
  have hmem : ∀ e, e ∈ m.toList ↔ e ∈ (range n).map fun k => (k,f k) := fun ⟨k,v⟩ => by
    rw [Maps.mem_toList,h]
    by_cases hk : k < n <;> simp [hk,eq_comm]
  have hlt : m.toList.Pairwise fun a b => a.1 < b.1 :=
    (TreeMap.ordered_keys_toList (t := m)).imp fun hc => compare_eq_lt.mp hc
  have hlt' : ((range n).map fun k => (k,f k)).Pairwise fun a b => a.1 < b.1 :=
    pairwise_map.mpr pairwise_lt_range
  have hnodup : ∀ {l : List (Nat × V)}, l.Pairwise (fun a b => a.1 < b.1) → l.Nodup := fun hl =>
    hl.imp fun {a b} (hab : a.1 < b.1) (heq : a = b) => lt_irrefl _ (heq ▸ hab)
  refine Perm.eq_of_pairwise (fun a b _ _ hab hba => ?_) hlt hlt'
    ((perm_ext_iff_of_nodup (hnodup hlt) (hnodup hlt')).mpr hmem)
  exact absurd (Nat.lt_trans hab hba) (lt_irrefl _)

lemma Complete.getElem? (h : Complete cs) (id : Nat) : (lastOf cs id).map Chunk.data =
      if id < partsOf cs then some ((dataAt cs id).getD []) else none := by
  rw [← dataAt_eq_last h.1]
  by_cases hid : id < partsOf cs
  · rw [if_pos hid]
    obtain ⟨c,hc⟩ := lastOf_isSome.mpr ((h.mem_iff id).mpr hid)
    rw [dataAt_eq_last h.1,hc]
    rfl
  · rw [if_neg hid,dataAt_eq_last h.1,map_eq_none_iff]
    by_contra hne
    exact hid ((h.mem_iff id).mp (lastOf_isSome.mp (ne_none_iff_exists'.mp hne)))

lemma offsetsOf_eq (sizes : List Nat) (start : Nat) (h : start+sizes.sum < 2^32) :
    (offsetsOf sizes start).2 = start+sizes.sum ∧
      ∀ i < sizes.length, (offsetsOf sizes start).1[i]? = some (start+(sizes.take i).sum) := by
  induction sizes generalizing start with
  | nil => exact ⟨rfl,fun i hi => absurd hi (not_lt_zero i)⟩
  | cons size sizes ih =>
    rw [sum_cons] at h
    have hmod : (start+size)%2^32 = start+size := mod_eq_of_lt (by omega)
    obtain ⟨htotal,hoffsets⟩ := ih (start+size) (by omega)
    simp only [offsetsOf,hmod]
    refine ⟨by rw [htotal,sum_cons]; omega,fun i hi => ?_⟩
    cases i with
    | zero => simp
    | succ i =>
      rw [getElem?_cons_succ,hoffsets i (lt_of_succ_lt_succ hi),take_succ_cons,sum_cons]
      exact congrArg some (by omega)

lemma offsetsOf_lt (sizes : List Nat) {start : Nat} (h : start < 2^32) :
    (offsetsOf sizes start).2 < 2^32 := by
  induction sizes generalizing start with
  | nil => exact h
  | cons size sizes ih => exact ih (mod_lt _ (by decide))

lemma copyInto_length {offset : Nat}
    (h : copyInto out offset data = some out') : out'.length = out.length := by
  obtain ⟨hle,h⟩ := ite_none_right_eq_some.mp h
  cases h
  simp only [length_append,length_take,length_drop]
  omega

lemma copyChunks_length
    (h : l.foldlM (copyChunk chunks offsets) out = some out') : out'.length = out.length := by
  induction l generalizing out with
  | nil =>
    cases h
    rfl
  | cons e l ih =>
    rw [foldlM_cons] at h
    obtain ⟨out1,h1,h⟩ := bind_eq_some_iff.mp h
    obtain ⟨size,-,h1⟩ := bind_eq_some_iff.mp h1
    obtain ⟨offset,-,h1⟩ := bind_eq_some_iff.mp h1
    obtain ⟨-,h1⟩ := ite_none_right_eq_some.mp h1
    exact (ih h).trans (copyInto_length h1)

lemma copyInto_append {done : Data} {rest : Nat} (h : data.length ≤ rest) :
    copyInto (done ++ replicate rest 0) done.length data =
      some (done ++ data ++ replicate (rest-data.length) 0) := by
  have hle : done.length+data.length ≤ (done ++ replicate rest (0 : BitVec 8)).length := by
    rw [length_append,length_replicate]
    omega
  rw [copyInto,if_pos hle,take_left,drop_append,drop_of_length_le (by omega),
    Nat.add_sub_cancel_left,drop_replicate,nil_append]

lemma flatMap_length_le (hk : k ≤ n) (d : Nat → Data) :
    ((range k).flatMap d).length ≤ ((range n).flatMap d).length := by
  obtain ⟨m,rfl⟩ := Nat.exists_eq_add_of_le hk
  rw [range_add,flatMap_append,length_append]
  exact le_add_right _ _

lemma copyChunks_eq (d : Nat → Data) (hchunks : ∀ k < n, chunks[k]? = some (d k).length)
    (hoffsets : ∀ k < n, offsets[k]? = some ((range k).flatMap d).length)
    (hk : k ≤ n) : ((range k).map fun i => (i,d i)).foldlM (copyChunk chunks offsets)
        (replicate ((range n).flatMap d).length 0) = some ((range k).flatMap d ++ replicate
        (((range n).flatMap d).length-((range k).flatMap d).length) 0) := by
  induction k with
  | zero => simp
  | succ k ih =>
    have hsucc : (range (k+1)).flatMap d = (range k).flatMap d ++ d k := by
      rw [range_succ,flatMap_append,flatMap_singleton]
    have hle := flatMap_length_le hk d
    rw [hsucc,length_append] at hle
    rw [hsucc,length_append,range_succ,map_append,foldlM_append,ih (le_of_succ_le hk)]
    simp only [map_cons,map_nil,foldlM_cons,foldlM_nil,bind_eq_bind,
      bind_some,copyChunk,hchunks k hk,hoffsets k hk,Nat.le_refl,if_true,
      take_length]
    rw [copyInto_append (by omega),bind_some,sub_add_eq]
    rfl

lemma assembleParts_length {file : TestCaseFile}
    (h : assembleParts file = some (some out)) : out.length < 2^32 := by
  unfold assembleParts at h
  split at h
  · cases h
  split at h
  · cases h
  obtain ⟨out',hcopy,h⟩ := bind_eq_some_iff.mp h
  cases h
  rw [copyChunks_length hcopy,length_replicate]
  exact offsetsOf_lt _ (by decide)

lemma assembleParts_refuses (cs : List Chunk) :
    assembleParts (fileOf cs) = some none ↔ (fileOf cs).totalParts ≠ partsOf cs := by
  obtain ⟨hsize,hsize'⟩ := chunks_size cs
  unfold assembleParts
  rw [hsize,hsize']
  by_cases htotal : (fileOf cs).totalParts = partsOf cs
  · simp only [htotal,ne_eq,not_true_eq_false,if_false,iff_false]
    intro h
    obtain ⟨out,-,h⟩ := bind_eq_some_iff.mp h
    cases h
  · simp [htotal]

lemma assembleParts_complete (h : Complete cs) (hne : cs ≠ [])
    (hlt : (concatenation cs).length < 2^32) :
    assembleParts (fileOf cs) = some (some (concatenation cs)) := by
  obtain ⟨hsize,hsize'⟩ := chunks_size cs
  have htotal : (fileOf cs).totalParts = partsOf cs := by
    rw [totalParts_eq,getLast?_eq_some_getLast hne]
    exact h.2 _ (getLast_mem hne)
  have hdata : (fileOf cs).chunksData.toList = (range (partsOf cs)).map fun k =>
      (k,(dataAt cs k).getD []) := toList_eq_range fun k => by
    rw [(fileOf_getElem? _ _).1,h.getElem?]
  have hlast : ∀ k, (lastOf cs k).map (fun c => c.data.length) =
      if k < partsOf cs then some ((dataAt cs k).getD []).length else none := fun k => by
    have := congrArg (Option.map length) (h.getElem? k)
    rw [Option.map_map] at this
    rw [show (fun c : Chunk => c.data.length) = length ∘ Chunk.data from rfl,this]
    split <;> rfl
  have hchunks : (fileOf cs).chunks.toList = (range (partsOf cs)).map fun k =>
      (k,((dataAt cs k).getD []).length) := toList_eq_range fun k => by
    rw [(fileOf_getElem? _ _).2,hlast]
  obtain ⟨htotalSize,hoffsets⟩ := offsetsOf_eq
    ((range (partsOf cs)).map fun k => ((dataAt cs k).getD []).length) 0 (by
      rw [zero_add,← length_flatMap]
      exact hlt)
  have hsizes : ∀ k < partsOf cs,
      (fileOf cs).chunks[k]? = some ((dataAt cs k).getD []).length := fun k hk => by
    rw [(fileOf_getElem? _ _).2,hlast,if_pos hk]
  have hcopy := copyChunks_eq (fun k => (dataAt cs k).getD []) hsizes (fun k hk => by
      rw [hoffsets k (by simpa using hk),← map_take,take_range,
        min_eq_left (Nat.le_of_lt hk),← length_flatMap,zero_add])
    (Nat.le_refl (partsOf cs))
  unfold assembleParts
  rw [hsize,hsize',htotal,hdata,hchunks,List.map_map]
  simp only [ne_eq,not_true_eq_false,if_false,comp_def,htotalSize,zero_add,
    ← length_flatMap,hcopy,Nat.sub_self,bind_eq_bind,bind_some]
  rw [replicate_zero,append_nil]
  rfl

end

lemma nameLt_irrefl (a : Name) : nameLt a a = false := by
  induction a with
  | nil => rfl
  | cons c a ih => simp [nameLt,ih]

lemma nameLt_trans {a b c : Name} (hab : nameLt a b) (hbc : nameLt b c) : nameLt a c := by
  induction a generalizing b c with
  | nil =>
    cases c with
    | nil => simp [nameLt] at hbc
    | cons z c => rfl
  | cons x a ih =>
    cases b with
    | nil => simp [nameLt] at hab
    | cons y b =>
      cases c with
      | nil => simp [nameLt] at hbc
      | cons z c =>
        simp only [nameLt,Bool.or_eq_true,Bool.and_eq_true,decide_eq_true_eq] at hab hbc ⊢
        rcases hab with hxy | ⟨rfl,hab⟩
        · rcases hbc with hyz | ⟨rfl,-⟩
          · exact .inl (Nat.lt_trans hxy hyz)
          · exact .inl hxy
        · rcases hbc with hyz | ⟨rfl,hbc⟩
          · exact .inl hyz
          · exact .inr ⟨rfl,ih hab hbc⟩

lemma eq_of_not_nameLt {a b : Name} (hab : nameLt a b = false) (hba : nameLt b a = false) :
    a = b := by
  induction a generalizing b with
  | nil =>
    cases b with
    | nil => rfl
    | cons y b => simp [nameLt] at hab
  | cons x a ih =>
    cases b with
    | nil => simp [nameLt] at hba
    | cons y b =>
      simp only [nameLt,Bool.or_eq_false_iff,decide_eq_false_iff_not] at hab hba
      obtain rfl : x = y := Char.toNat_inj.mp (by omega)
      simp only [decide_true,Bool.true_and] at hab hba
      rw [ih hab.2 hba.2]

instance : IsStrictWeakOrder Name fun a b => nameLt a b = true where
  irrefl a h := by simp [nameLt_irrefl] at h
  trans _ _ _ := nameLt_trans
  incomp_trans a b c hab hbc := by
    have hab' : a = b := eq_of_not_nameLt (by simpa using hab.1) (by simpa using hab.2)
    exact hab' ▸ hbc

lemma same_getLast? (templates : ConcreteFileTemplates) (name : Name) :
    (WeakOrder.same nameLt fst name templates.tree.toList).getLast? =
      (WeakOrder.same nameLt fst name templates.tree.toList).head? := by
  have hpairwise : (WeakOrder.same nameLt fst name templates.tree.toList).Pairwise
      fun x y => nameLt x.1 y.1 := templates.increasing.filter _
  have hsame : ∀ e ∈ WeakOrder.same nameLt fst name templates.tree.toList, e.1 = name :=
    fun e he => by
      have := (mem_filter.mp he).2
      simp only [Bool.and_eq_true,Bool.not_eq_true'] at this
      exact eq_of_not_nameLt this.1 this.2
  match h : WeakOrder.same nameLt fst name templates.tree.toList with
  | [] => rfl
  | [x] => rfl
  | x :: y :: rest =>
    rw [h] at hpairwise hsame
    have hxy : nameLt x.1 y.1 := (pairwise_cons.mp hpairwise).1 y mem_cons_self
    rw [hsame x mem_cons_self,hsame y (mem_cons_of_mem _ mem_cons_self),nameLt_irrefl] at hxy
    cases hxy

lemma lookupPrevious_template (templates : ConcreteFileTemplates) (name : Name) :
    (ImmutableTree.lookupPrevious nameLt name none templates.tree).map snd =
      (ownTemplate templates name).or (previousTemplate templates name) := by
  rw [ImmutableTree.lookupPrevious_eq (templates.increasing.divides _),or_none,getLast?_append,
    same_getLast?,ownTemplate,
    ImmutableTree.lookup_eq (templates.increasing.divides _),previousTemplate]
  cases (WeakOrder.same nameLt fst name templates.tree.toList).head? <;> rfl

lemma assembleChunks_eq (name : Name) (file : TestCaseFile) (templates : ConcreteFileTemplates) :
    assembleChunks name file templates =
      match (ownTemplate templates name).or (previousTemplate templates name) with
      | none => assembleParts file
      | some template => patch file.chunks file.chunksData.toList template := by
  rw [← lookupPrevious_template,assembleChunks]
  cases ImmutableTree.lookupPrevious nameLt name none templates.tree <;> rfl

def Fits (cs : List Chunk) : Option Data → Option Data → Prop
  | some template, _ => ConflictFree cs ∨ Refused cs template
  | none, none =>
    if Complete cs then (concatenation cs).length < 2^32
    else cs.getLast?.map Chunk.total ≠ some (partsOf cs)
  | none, some template =>
    if Complete cs then (∀ c ∈ cs, c.data.length = 1) ∧ template.length = partsOf cs
    else Refused cs template

section
variable {cs : List Chunk}

lemma Refused.of_conflictFree (hcf : ConflictFree cs) :
    Refused cs template ↔ ¬ ∀ c ∈ cs, c.data.length = 1 ∧ c.id < template.length := by
  simp only [Refused,not_forall,not_and_or,exists_prop,Nat.not_lt]
  refine exists_congr fun c => and_congr_right fun hc => ?_
  rw [or_comm]
  refine or_congr_left ?_
  constructor
  · rintro ⟨l,hl,hne⟩
    obtain ⟨hmem,hid⟩ := mem_of_lastOf hl
    rwa [← hcf l hmem c hc hid]
  · intro hne
    obtain ⟨l,hl⟩ := lastOf_isSome.mpr (mem_map_of_mem hc)
    obtain ⟨hmem,hid⟩ := mem_of_lastOf hl
    exact ⟨l,hl,by rwa [hcf l hmem c hc hid]⟩

lemma patch_refuses_iff : patch (fileOf cs).chunks (fileOf cs).chunksData.toList template =
    some none ↔ Refused cs template := by
  by_cases hrefused : Refused cs template
  · exact iff_of_true (patch_of_refused hrefused) hrefused
  · rw [patch_of_not_refused hrefused]
    simp [hrefused]

lemma patch_own_iff (cs : List Chunk) (template : Data) :
    patch (fileOf cs).chunks (fileOf cs).chunksData.toList template =
      some (intended cs (some template)) ↔ ConflictFree cs ∨ Refused cs template := by
  unfold intended
  by_cases hcf : ConflictFree cs
  · simp only [hcf,true_and,true_or,iff_true]
    by_cases hall : ∀ c ∈ cs, c.data.length = 1 ∧ c.id < template.length
    · rw [if_pos hall,patch_of_not_refused fun h => (Refused.of_conflictFree hcf).mp h hall,
        patchAll_eq_replaced hcf fun c hc => (hall c hc).1]
    · rw [if_neg hall,patch_of_refused ((Refused.of_conflictFree hcf).mpr hall)]
  · simp only [hcf,false_and,if_false,false_or]
    exact patch_refuses_iff

lemma concatenation_bytes (h : Complete cs) (hone : ∀ c ∈ cs, c.data.length = 1) :
    concatenation cs = (range (partsOf cs)).map fun i => ((dataAt cs i).bind head?).getD 0 := by
  have hbyte : ∀ i ∈ range (partsOf cs), (dataAt cs i).getD [] =
      [((dataAt cs i).bind head?).getD 0] := fun i hi => by
    obtain ⟨c,hc⟩ := lastOf_isSome.mpr ((h.mem_iff i).mpr (mem_range.mp hi))
    obtain ⟨byte,hdata⟩ := length_eq_one_iff.mp (hone c (mem_of_lastOf hc).1)
    rw [dataAt_eq_last h.1,hc,map_some,hdata]
    rfl
  rw [concatenation,flatMap_congr hbyte,map_eq_flatMap]

lemma replaced_eq_concatenation (h : Complete cs) (hone : ∀ c ∈ cs, c.data.length = 1)
    (hlength : template.length = partsOf cs) : replaced cs template = concatenation cs := by
  rw [concatenation_bytes h hone]
  refine ext_getElem (by simp [replaced,hlength]) fun i hi hi' => ?_
  have hlt : i < partsOf cs := by simpa using hi'
  obtain ⟨c,hc⟩ := lastOf_isSome.mpr ((h.mem_iff i).mpr hlt)
  obtain ⟨byte,hdata⟩ := length_eq_one_iff.mp (hone c (mem_of_lastOf hc).1)
  simp [replaced,dataAt_eq_last h.1,hc,hdata]

lemma patch_previous_iff (cs : List Chunk) (template : Data) :
    patch (fileOf cs).chunks (fileOf cs).chunksData.toList template =
      some (intended cs none) ↔ Fits cs none (some template) := by
  unfold intended Fits
  by_cases h : Complete cs
  · simp only [if_pos h]
    by_cases hrefused : Refused cs template
    · refine iff_of_false (by simp [patch_of_refused hrefused]) ?_
      rintro ⟨hone,hlength⟩
      refine (Refused.of_conflictFree h.1).mp hrefused fun c hc => ⟨hone c hc,?_⟩
      rw [hlength,← h.2 c hc]
      exact c.id_lt
    · have hall := not_not.mp (mt (Refused.of_conflictFree h.1).mpr hrefused)
      have hone : ∀ c ∈ cs, c.data.length = 1 := fun c hc => (hall c hc).1
      rw [patch_of_not_refused hrefused,patchAll_eq_replaced h.1 hone,some.injEq,some.injEq]
      refine ⟨fun heq => ⟨hone,?_⟩,fun hfits => replaced_eq_concatenation h hone hfits.2⟩
      have hlength := congrArg length heq
      rw [concatenation_bytes h hone] at hlength
      simpa [replaced] using hlength
  · simp only [if_neg h]
    exact patch_refuses_iff

lemma assembleParts_iff (hne : cs ≠ []) :
    assembleParts (fileOf cs) = some (intended cs none) ↔ Fits cs none none := by
  unfold intended Fits
  by_cases h : Complete cs
  · simp only [if_pos h]
    exact ⟨assembleParts_length,assembleParts_complete h hne⟩
  · simp only [if_neg h]
    rw [assembleParts_refuses,totalParts_eq,getLast?_eq_some_getLast hne]
    simp

lemma intended_perm {cs' : List Chunk} (hperm : cs'.Perm cs) (template : Option Data) :
    intended cs' template = intended cs template := by
  have hconflict : ConflictFree cs' ↔ ConflictFree cs := by
    simp only [ConflictFree,hperm.mem_iff]
  have hparts : partsOf cs' = partsOf cs := (hperm.map Chunk.id).dedup.length_eq
  have hcomplete : Complete cs' ↔ Complete cs := by
    simp only [Complete,hconflict,hparts,hperm.mem_iff]
  cases template with
  | none =>
    unfold intended
    by_cases h : Complete cs
    · simp only [hcomplete,if_pos h,concatenation,hparts]
      simp only [dataAt_perm hperm h.1]
    · simp only [hcomplete,if_neg h]
  | some template =>
    unfold intended
    simp only [hconflict,hperm.mem_iff]
    by_cases h : ConflictFree cs
    · simp only [replaced,dataAt_perm hperm h]
    · simp [h]

end

/-- When the output is the file that is meant by its own chunks and its own template, in which
the order of the inputs, the other files and the other templates have no part. -/
theorem assembleChunks_intended_iff (inputs : List ConcreteInput)
    (templates : ConcreteFileTemplates) (name : Name) (file : TestCaseFile)
    (hfile : getFiles inputs name = some file) : (assembleChunks name file templates =
        some (intended (chunksOf inputs name) (ownTemplate templates name)) ↔
      Fits (chunksOf inputs name) (ownTemplate templates name)
        (previousTemplate templates name)) ∧ ∀ inputs' : List ConcreteInput, inputs'.Perm inputs →
      intended (chunksOf inputs' name) (ownTemplate templates name) =
        intended (chunksOf inputs name) (ownTemplate templates name) := by
  rw [getFiles_eq] at hfile
  obtain ⟨hne,hfile⟩ := ite_none_left_eq_some.mp hfile
  cases hfile
  refine ⟨?_,fun inputs' hperm => intended_perm (hperm.filterMap _) _⟩
  rw [assembleChunks_eq]
  cases ownTemplate templates name with
  | some template => exact patch_own_iff _ template
  | none =>
    cases previousTemplate templates name with
    | some template => exact patch_previous_iff _ template
    | none => exact assembleParts_iff hne

theorem assembleChunks_intended_two_chunks :
    let inputs : List ConcreteInput :=
      [⟨"v1___symfile____tmp_a___1_2_symfile___0".toList,[7],by decide⟩,
        ⟨"v2___symfile____tmp_b___1_3_symfile___0".toList,[9],by decide⟩,
        ⟨"v0___symfile____tmp_a___0_2_symfile___0".toList,[5,6],by decide⟩]
    let templates : ConcreteFileTemplates :=
      ⟨.node .terminator ("_tmp_b".toList,[1,2,3]) .terminator,pairwise_singleton _ _⟩
    ∃ file, getFiles inputs "_tmp_a".toList = some file ∧
      assembleChunks "_tmp_a".toList file templates = some (some [5,6,7]) := by
  intro inputs templates
  obtain ⟨file,hfile⟩ := isSome_iff_exists.mp
    (show (getFiles inputs "_tmp_a".toList).isSome by decide +kernel)
  have hown : ownTemplate templates "_tmp_a".toList = none := by decide +kernel
  have hprevious : previousTemplate templates "_tmp_a".toList = none := by decide +kernel
  have hintended : intended (chunksOf inputs "_tmp_a".toList) none = some [5,6,7] := by
    decide +kernel
  have hiff := (assembleChunks_intended_iff inputs templates "_tmp_a".toList file hfile).1
  rw [hown,hprevious,hintended] at hiff
  refine ⟨file,hfile,hiff.mpr ?_⟩
  unfold Fits
  rw [if_pos (by decide +kernel)]
  decide +kernel

/-- A file of one chunk, with the template of another file. -/
theorem template_of_other_file :
    let inputs : List ConcreteInput :=
      [⟨"v0___symfile____tmp_b___0_1_symfile___0".toList,[5],by decide⟩]
    let templates : ConcreteFileTemplates :=
      ⟨.node .terminator ("_tmp_a".toList,[1,2,3]) .terminator,pairwise_singleton _ _⟩
    ownTemplate templates "_tmp_b".toList = none ∧
      intended (chunksOf inputs "_tmp_b".toList) none = some [5] ∧
      (getFiles inputs "_tmp_b".toList).bind
        (fun file => assembleChunks "_tmp_b".toList file templates) = some (some [5,2,3]) := by
  decide +kernel

end TestCase
end S2E
