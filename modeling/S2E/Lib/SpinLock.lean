import Mathlib

/-!
Processes that share data guarded by spin locks. Each lock guards its own part of the data, and a
process works on that part only between taking the lock and giving it back, one instruction at a
time. Every interleaving of such processes is one in which each critical section is a single
step.
-/

namespace SpinLock
open List Option Function

variable {K : Type} {S : K → Type} {L : Type}

def Instruction (S : K → Type) (L : Type) (k : K) : Type := S k → L → Option (S k × L)

structure Program (K : Type) (S : K → Type) (L : Type) where
  /-- The lock that it takes next and what it does before it gives it back. -/
  critical : L → Option ((k : K) × List (Instruction S L k))
  /-- A step that uses no shared data; it can leave a new process. -/
  outside : L → L → Option L → Prop

def execute {k : K} : List (Instruction S L k) → S k → L → Option (S k × L)
  | [], s, l => some (s,l)
  | i :: is, s, l => (i s l).bind fun r => execute is r.1 r.2

lemma execute_append {k : K} (is js : List (Instruction S L k)) (s : S k) (l : L) :
    execute (is ++ js) s l = (execute is s l).bind fun r => execute js r.1 r.2 := by
  induction is generalizing s l with
  | nil => rfl
  | cons i is ih =>
    simp only [cons_append,execute,bind_assoc]
    congr
    funext r
    exact ih r.1 r.2

structure Config (S : K → Type) (L : Type) where
  shared : (k : K) → S k
  processes : List L

section
variable [DecidableEq K]

/-- The steps of a program. A process enters a critical section only when `admits` allows it. -/
inductive Step (program : Program K S L) (admits : (k : K) → S k → L → Prop) :
    Config S L → Config S L → Prop where
  | critical {c : Config S L} {p : Nat} {l l' : L} {k : K} {body : List (Instruction S L k)}
      {s' : S k} (hp : c.processes[p]? = some l) (hbody : program.critical l = some ⟨k,body⟩)
      (ha : admits k (c.shared k) l) (hrun : execute body (c.shared k) l = some (s',l')) :
      Step program admits c ⟨update c.shared k s',c.processes.set p l'⟩
  | outside {c : Config S L} {p : Nat} {l l' : L} {child : Option L}
      (hp : c.processes[p]? = some l) (hl : program.outside l l' child) :
      Step program admits c ⟨c.shared,c.processes.set p l' ++ child.toList⟩

inductive Reached (program : Program K S L) (admits : (k : K) → S k → L → Prop)
    (start : Config S L) : Config S L → Prop where
  | start : Reached program admits start start
  | step {c c' : Config S L} (hc : Reached program admits start c)
      (h : Step program admits c c') : Reached program admits start c'

variable {program : Program K S L} {admits : (k : K) → S k → L → Prop} {start c : Config S L}

/-- An invariant that does not depend on the order of the processes holds if it is kept by the
steps of the first one. -/
lemma Reached.invariant {I : ((k : K) → S k) → List L → Prop}
    (hperm : ∀ {shared ps qs}, ps.Perm qs → I shared ps → I shared qs)
    (hstart : I start.shared start.processes)
    (hcritical : ∀ {shared l rest k body s' l'}, I shared (l :: rest) →
      program.critical l = some ⟨k,body⟩ → admits k (shared k) l →
        execute body (shared k) l = some (s',l') → I (update shared k s') (l' :: rest))
    (houtside : ∀ {shared l rest l' child}, I shared (l :: rest) →
      program.outside l l' child → I shared (l' :: (child.toList ++ rest)))
    (h : Reached program admits start c) : I c.shared c.processes := by
  induction h with
  | start => exact hstart
  | @step c _ hc hstep ih =>
    -- the process that steps is moved to the front and back
    have hfront : ∀ {p l}, c.processes[p]? = some l →
        p < c.processes.length ∧ I c.shared (l :: c.processes.eraseIdx p) := by
      intro p l hp
      obtain ⟨hlt,rfl⟩ := List.getElem?_eq_some_iff.mp hp
      exact ⟨hlt,hperm (getElem_cons_eraseIdx_perm hlt).symm ih⟩
    cases hstep with
    | @critical p l l' k body s' hp hbody ha hrun =>
      obtain ⟨hlt,hi⟩ := hfront hp
      exact hperm (set_perm_cons_eraseIdx hlt l').symm (hcritical hi hbody ha hrun)
    | @outside p l l' child hp hl =>
      obtain ⟨hlt,hi⟩ := hfront hp
      refine hperm ?_ (houtside hi hl)
      refine (perm_append_comm.cons l').trans ?_
      exact (set_perm_cons_eraseIdx hlt l').symm.append_right child.toList

end

def Fails (program : Program K S L) (admits : (k : K) → S k → L → Prop) (c : Config S L) : Prop :=
  ∃ (l : L) (k : K) (body : List (Instruction S L k)), l ∈ c.processes ∧
    program.critical l = some ⟨k,body⟩ ∧ admits k (c.shared k) l ∧
      execute body (c.shared k) l = none

inductive Thread (S : K → Type) (L : Type) where
  | out (l : L)
  | inside (k : K) (rest : List (Instruction S L k)) (l : L)

def Thread.vars : Thread S L → L
  | .out l | .inside _ _ l => l

structure Machine (S : K → Type) (L : Type) where
  locked : K → Bool
  shared : (k : K) → S k
  threads : List (Thread S L)

variable {p : Nat} {l : L}

namespace Machine
variable [DecidableEq K] (program : Program K S L) (admits : (k : K) → S k → L → Prop)

inductive Step : Machine S L → Machine S L → Prop where
  | acquire {m : Machine S L} {p : Nat} {l : L} {k : K} {body : List (Instruction S L k)}
      (hp : m.threads[p]? = some (.out l)) (hbody : program.critical l = some ⟨k,body⟩)
      (ha : admits k (m.shared k) l) (hfree : m.locked k = false) :
      Step m ⟨update m.locked k true,m.shared,m.threads.set p (.inside k body l)⟩
  | instruction {m : Machine S L} {p : Nat} {l l' : L} {k : K} {i : Instruction S L k}
      {rest : List (Instruction S L k)} {s' : S k}
      (hp : m.threads[p]? = some (.inside k (i :: rest) l))
      (hrun : i (m.shared k) l = some (s',l')) :
      Step m ⟨m.locked,update m.shared k s',m.threads.set p (.inside k rest l')⟩
  | release {m : Machine S L} {p : Nat} {l : L} {k : K}
      (hp : m.threads[p]? = some (.inside k [] l)) (hlocked : m.locked k = true) :
      Step m ⟨update m.locked k false,m.shared,m.threads.set p (.out l)⟩
  | outside {m : Machine S L} {p : Nat} {l l' : L} {child : Option L}
      (hp : m.threads[p]? = some (.out l)) (hl : program.outside l l' child) :
      Step m ⟨m.locked,m.shared,m.threads.set p (.out l') ++ child.toList.map .out⟩

def start (c : Config S L) : Machine S L where
  locked _ := false
  shared := c.shared
  threads := c.processes.map .out

inductive Reached (c : Config S L) : Machine S L → Prop where
  | start : Reached c (start c)
  | step {m m' : Machine S L} (hm : Reached c m) (h : Step program admits m m') : Reached c m'

def Fails (m : Machine S L) : Prop :=
  ∃ t ∈ m.threads, match t with
    | .out _ => False
    | .inside k [] _ => m.locked k = false
    | .inside k (i :: _) l => i (m.shared k) l = none

/-- The machine is somewhere inside the critical sections that follow the configuration: each
process inside has done a part of its section, alone under its lock. -/
structure Follows (m : Machine S L) (c : Config S L) : Prop where
  length : m.threads.length = c.processes.length
  out : ∀ {p : Nat} {l : L}, m.threads[p]? = some (.out l) → c.processes[p]? = some l
  inside : ∀ {p : Nat} {k : K} {rest : List (Instruction S L k)} {l : L},
    m.threads[p]? = some (.inside k rest l) → ∃ l0 did, c.processes[p]? = some l0 ∧
      program.critical l0 = some ⟨k,did ++ rest⟩ ∧ admits k (c.shared k) l0 ∧
        execute did (c.shared k) l0 = some (m.shared k,l)
  free : ∀ {k : K}, m.locked k = false → m.shared k = c.shared k
  held : ∀ {p : Nat} {k : K} {rest : List (Instruction S L k)} {l : L},
    m.threads[p]? = some (.inside k rest l) → m.locked k = true
  alone : ∀ {p q : Nat} {k : K} {rest rest' : List (Instruction S L k)} {l l' : L},
    m.threads[p]? = some (.inside k rest l) → m.threads[q]? = some (.inside k rest' l') → p = q

variable {program admits} {m m' : Machine S L} {c start : Config S L}

lemma getElem?_set_cases {α : Type} {ts : List α} {q : Nat} {t u : α}
    (h : (ts.set p t)[q]? = some u) : p = q ∧ u = t ∨ p ≠ q ∧ ts[q]? = some u := by
  by_cases hpq : p = q
  · subst hpq
    rw [getElem?_set_self'] at h
    obtain ⟨-,-,rfl⟩ := map_eq_some_iff.mp h
    exact .inl ⟨rfl,rfl⟩
  · rw [getElem?_set_ne hpq] at h
    exact .inr ⟨hpq,h⟩

omit [DecidableEq K] in
lemma Follows.initially : Follows program admits (Machine.start start) start where
  length := length_map _
  out := by
    intro p l h
    simpa [Machine.start] using h
  inside := by
    intro p k rest l h
    simp [Machine.start] at h
  free _ := rfl
  held := by
    intro p k rest l h
    simp [Machine.start] at h
  alone := by
    intro p q k rest rest' l l' h
    simp [Machine.start] at h

lemma Follows.acquire (hf : Follows program admits m c) {k : K}
    {body : List (Instruction S L k)} (hp : m.threads[p]? = some (.out l))
    (hbody : program.critical l = some ⟨k,body⟩) (ha : admits k (m.shared k) l)
    (hfree : m.locked k = false) : Follows program admits
      ⟨update m.locked k true,m.shared,m.threads.set p (.inside k body l)⟩ c where
  length := by rw [length_set,hf.length]
  out := by
    intro q l' h
    obtain ⟨-,e⟩ | ⟨-,h⟩ := getElem?_set_cases h
    · cases e
    · exact hf.out h
  inside := by
    intro q k' rest l' h
    obtain ⟨rfl,e⟩ | ⟨-,h⟩ := getElem?_set_cases h
    · cases e
      rw [hf.free hfree] at ha ⊢
      exact ⟨l,[],hf.out hp,hbody,ha,rfl⟩
    · exact hf.inside h
  free := by
    intro k' h
    by_cases hk : k' = k
    · subst hk
      simp at h
    · exact hf.free (by simpa [hk] using h)
  held := by
    intro q k' rest l' h
    obtain ⟨-,e⟩ | ⟨-,h⟩ := getElem?_set_cases h
    · cases e
      exact update_self ..
    · by_cases hk : k' = k
      · subst hk
        exact update_self ..
      · exact (update_of_ne hk ..).trans (hf.held h)
  alone := by
    -- the lock was free, so nobody else is inside
    intro q r k' rest rest' l1 l2 h1 h2
    have hnone : ∀ {q : Nat} {rest l'}, m.threads[q]? ≠ some (.inside k rest l') := by
      intro q rest l' h
      simp [hf.held h] at hfree
    obtain ⟨rfl,e⟩ | ⟨-,h1⟩ := getElem?_set_cases h1
    · cases e
      obtain ⟨rfl,-⟩ | ⟨-,h2⟩ := getElem?_set_cases h2
      · rfl
      · exact absurd h2 hnone
    · obtain ⟨rfl,e⟩ | ⟨-,h2⟩ := getElem?_set_cases h2
      · cases e
        exact absurd h1 hnone
      · exact hf.alone h1 h2

lemma Follows.instruction (hf : Follows program admits m c) {l' : L} {k : K}
    {i : Instruction S L k} {rest : List (Instruction S L k)} {s' : S k}
    (hp : m.threads[p]? = some (.inside k (i :: rest) l)) (hrun : i (m.shared k) l = some (s',l')) :
    Follows program admits
      ⟨m.locked,update m.shared k s',m.threads.set p (.inside k rest l')⟩ c where
  length := by rw [length_set,hf.length]
  out := by
    intro q l1 h
    obtain ⟨-,e⟩ | ⟨-,h⟩ := getElem?_set_cases h
    · cases e
    · exact hf.out h
  inside := by
    intro q k' rest' l1 h
    obtain ⟨rfl,e⟩ | ⟨hne,ht⟩ := getElem?_set_cases h
    · cases e
      obtain ⟨l0,did,hl0,hbody,ha,hdid⟩ := hf.inside hp
      refine ⟨l0,did ++ [i],hl0,by simpa using hbody,ha,?_⟩
      simp [execute_append,hdid,execute,hrun]
    · -- the other process is under another lock
      have hk : k' ≠ k := by
        rintro rfl
        exact hne (hf.alone hp ht)
      obtain ⟨l0,did,hl0,hbody,ha,hdid⟩ := hf.inside ht
      refine ⟨l0,did,hl0,hbody,ha,?_⟩
      simp only [hdid,update_of_ne hk]
  free := by
    intro k' h
    have hk : k' ≠ k := by
      rintro rfl
      simp [hf.held hp] at h
    exact (update_of_ne hk ..).trans (hf.free h)
  held := by
    intro q k' rest' l1 h
    obtain ⟨-,e⟩ | ⟨-,h⟩ := getElem?_set_cases h
    · cases e
      exact hf.held hp
    · exact hf.held h
  alone := by
    intro q r k' rest1 rest2 l1 l2 h1 h2
    obtain ⟨rfl,e⟩ | ⟨-,h1⟩ := getElem?_set_cases h1
    · cases e
      obtain ⟨rfl,-⟩ | ⟨-,h2⟩ := getElem?_set_cases h2
      · rfl
      · exact hf.alone hp h2
    · obtain ⟨rfl,e⟩ | ⟨-,h2⟩ := getElem?_set_cases h2
      · cases e
        exact hf.alone h1 hp
      · exact hf.alone h1 h2

lemma Follows.release (hf : Follows program admits m c) {k : K}
    (hp : m.threads[p]? = some (.inside k [] l)) :
    ∃ c', SpinLock.Step program admits c c' ∧ Follows program admits
      ⟨update m.locked k false,m.shared,m.threads.set p (.out l)⟩ c' := by
  obtain ⟨l0,did,hl0,hbody,ha,hdid⟩ := hf.inside hp
  rw [append_nil] at hbody
  have hothers : ∀ {q : Nat} {rest l'}, p ≠ q → m.threads[q]? ≠ some (.inside k rest l') :=
    fun hne h => hne (hf.alone hp h)
  refine ⟨_,.critical hl0 hbody ha hdid,?_⟩
  constructor
  case length => simp [hf.length]
  case out =>
    intro q l1 h
    obtain ⟨rfl,e⟩ | ⟨hne,h⟩ := getElem?_set_cases h
    · cases e
      exact List.getElem?_set_self (List.getElem?_eq_some_iff.mp hl0).1
    · rw [getElem?_set_ne hne]
      exact hf.out h
  case inside =>
    intro q k' rest' l1 h
    obtain ⟨-,e⟩ | ⟨hne,ht⟩ := getElem?_set_cases h
    · cases e
    have hk : k' ≠ k := by
      rintro rfl
      exact hothers hne ht
    obtain ⟨l2,did',hl2,hbody',ha',hdid'⟩ := hf.inside ht
    refine ⟨l2,did',by rw [getElem?_set_ne hne,hl2],hbody',?_⟩
    simp only [update_of_ne hk]
    exact ⟨ha',hdid'⟩
  case free =>
    intro k' h
    by_cases hk : k' = k
    · subst hk
      exact (update_self ..).symm
    · simp only [update_of_ne hk] at h ⊢
      exact hf.free h
  case held =>
    intro q k' rest' l1 h
    obtain ⟨-,e⟩ | ⟨hne,ht⟩ := getElem?_set_cases h
    · cases e
    have hk : k' ≠ k := by
      rintro rfl
      exact hothers hne ht
    exact (update_of_ne hk ..).trans (hf.held ht)
  case alone =>
    intro q r k' rest1 rest2 l1 l2 h1 h2
    obtain ⟨-,e⟩ | ⟨-,h1⟩ := getElem?_set_cases h1
    · cases e
    obtain ⟨-,e⟩ | ⟨-,h2⟩ := getElem?_set_cases h2
    · cases e
    exact hf.alone h1 h2

omit [DecidableEq K] in
lemma getElem?_append_out {ts : List (Thread S L)} {ls : List L} {q : Nat} {u : Thread S L}
    (h : (ts ++ ls.map .out)[q]? = some u) :
    ts[q]? = some u ∨ ts.length ≤ q ∧ ∃ l, u = .out l ∧ ls[q-ts.length]? = some l := by
  by_cases hq : q < ts.length
  · rw [getElem?_append_left hq] at h
    exact .inl h
  have hle : ts.length ≤ q := by omega
  rw [getElem?_append_right hle,getElem?_map] at h
  obtain ⟨l,hl,rfl⟩ := map_eq_some_iff.mp h
  exact .inr ⟨hle,l,rfl,hl⟩

lemma Follows.outside (hf : Follows program admits m c) {l' : L}
    {child : Option L} (hp : m.threads[p]? = some (.out l)) (hl : program.outside l l' child) :
    ∃ c', SpinLock.Step program admits c c' ∧ Follows program admits
      ⟨m.locked,m.shared,m.threads.set p (.out l') ++ child.toList.map .out⟩ c' := by
  refine ⟨_,.outside (hf.out hp) hl,?_⟩
  -- a thread that is inside was there before
  have hinside : ∀ {q : Nat} {k rest l1},
      (m.threads.set p (.out l') ++ child.toList.map .out)[q]? = some (.inside k rest l1) →
        p ≠ q ∧ m.threads[q]? = some (.inside k rest l1) := by
    intro q k rest l1 h
    obtain h | ⟨-,l2,h,-⟩ := getElem?_append_out h
    · obtain ⟨-,e⟩ | h := getElem?_set_cases h
      · cases e
      · exact h
    · cases h
  have hlt : p < c.processes.length := (List.getElem?_eq_some_iff.mp (hf.out hp)).1
  constructor
  case length => simp [hf.length]
  case out =>
    intro q l1 h
    obtain h | ⟨hle,l2,h,hl2⟩ := getElem?_append_out h
    · have hq : q < m.threads.length := by
        simpa using (List.getElem?_eq_some_iff.mp h).1
      rw [getElem?_append_left (by simpa [hf.length] using hq)]
      obtain ⟨rfl,e⟩ | ⟨hne,h⟩ := getElem?_set_cases h
      · cases e
        exact getElem?_set_self hlt
      · rw [getElem?_set_ne hne]
        exact hf.out h
    · cases h
      rw [length_set] at hle hl2
      rw [getElem?_append_right (by simpa [← hf.length] using hle)]
      simpa [← hf.length] using hl2
  case inside =>
    intro q k rest l1 h
    obtain ⟨hne,h⟩ := hinside h
    obtain ⟨l0,did,hl0,hrest⟩ := hf.inside h
    refine ⟨l0,did,?_,hrest⟩
    have hq := (List.getElem?_eq_some_iff.mp hl0).1
    rw [getElem?_append_left (by simpa using hq),getElem?_set_ne hne,hl0]
  case free => exact hf.free
  case held =>
    intro q k rest l1 h
    exact hf.held (hinside h).2
  case alone =>
    intro q r k rest1 rest2 l1 l2 h1 h2
    exact hf.alone (hinside h1).2 (hinside h2).2

/-- Every interleaving is inside critical sections that start from a configuration in which all
the others were single steps. -/
lemma Reached.follows (h : Reached program admits start m) :
    ∃ c, SpinLock.Reached program admits start c ∧ Follows program admits m c := by
  induction h with
  | start => exact ⟨start,.start,.initially⟩
  | step hm hstep ih =>
    obtain ⟨c,hc,hf⟩ := ih
    cases hstep with
    | acquire hp hbody ha hfree => exact ⟨c,hc,hf.acquire hp hbody ha hfree⟩
    | instruction hp hrun => exact ⟨c,hc,hf.instruction hp hrun⟩
    | release hp _ =>
      obtain ⟨c',hstep,hf'⟩ := hf.release hp
      exact ⟨c',hc.step hstep,hf'⟩
    | outside hp hl =>
      obtain ⟨c',hstep,hf'⟩ := hf.outside hp hl
      exact ⟨c',hc.step hstep,hf'⟩

omit [DecidableEq K] in
lemma Follows.eq_start (hf : Follows program admits m c) (hfree : ∀ k, m.locked k = false) :
    m = Machine.start c := by
  have hshared : m.shared = c.shared := funext fun k => hf.free (hfree k)
  have hlocked : m.locked = fun _ => false := funext hfree
  have hthreads : m.threads = c.processes.map .out := by
    refine ext_getElem? fun p => ?_
    rw [getElem?_map]
    cases ht : m.threads[p]? with
    | none =>
      rw [getElem?_eq_none_iff,hf.length,← getElem?_eq_none_iff] at ht
      rw [ht]
      rfl
    | some t =>
      cases t with
      | out l =>
        rw [hf.out ht]
        rfl
      | inside k rest l =>
        have := hf.held ht
        simp [hfree k] at this
  obtain ⟨locked,shared,threads⟩ := m
  cases hshared
  cases hlocked
  cases hthreads
  rfl

omit [DecidableEq K] in
lemma Follows.fails (hf : Follows program admits m c) (h : m.Fails) :
    SpinLock.Fails program admits c := by
  obtain ⟨t,ht,hfail⟩ := h
  obtain ⟨p,hp⟩ := getElem?_of_mem ht
  match t, hfail with
  | .inside k [] l, hfail => simp [hf.held hp] at hfail
  | .inside k (i :: rest) l, hfail =>
    obtain ⟨l0,did,hl0,hbody,ha,hdid⟩ := hf.inside hp
    refine ⟨l0,k,_,mem_of_getElem? hl0,hbody,ha,?_⟩
    simp only at hfail
    simp [execute_append,hdid,execute,hfail]

omit [DecidableEq K] in
lemma execute_keeps {β : Type} {f : L → β} {k : K} {body : List (Instruction S L k)}
    (hkeep : ∀ i ∈ body, ∀ s l s' l', i s l = some (s',l') → f l' = f l) {s s' : S k}
    {l' : L} (h : execute body s l = some (s',l')) : f l' = f l := by
  induction body generalizing s l with
  | nil =>
    cases h
    rfl
  | cons i is ih =>
    obtain ⟨⟨s1,l1⟩,hi,h⟩ := bind_eq_some_iff.mp h
    refine (ih (fun j hj => hkeep j (mem_cons_of_mem i hj)) h).trans ?_
    exact hkeep i mem_cons_self s l s1 l1 hi

omit [DecidableEq K] in
lemma Follows.map_vars {β : Type} {f : L → β}
    (hkeep : ∀ {l k body}, program.critical l = some ⟨k,body⟩ →
      ∀ i ∈ body, ∀ s l s' l', i s l = some (s',l') → f l' = f l)
    (hf : Follows program admits m c) : m.threads.map (f ·.vars) = c.processes.map f := by
  refine ext_getElem? fun p => ?_
  rw [getElem?_map,getElem?_map]
  cases ht : m.threads[p]? with
  | none =>
    rw [getElem?_eq_none_iff,hf.length,← getElem?_eq_none_iff] at ht
    rw [ht]
    rfl
  | some t =>
    cases t with
    | out l =>
      rw [hf.out ht]
      rfl
    | inside k rest l =>
      obtain ⟨l0,did,hl0,hbody,-,hdid⟩ := hf.inside ht
      rw [hl0]
      refine congrArg some (execute_keeps (fun i hi => ?_) hdid)
      exact hkeep hbody i (mem_append_left rest hi)

lemma Reached.execute {k : K} {s' : S k} {l' : L} :
    ∀ {body : List (Instruction S L k)} {m : Machine S L} {l : L},
      Reached program admits start m → m.threads[p]? = some (.inside k body l) →
        SpinLock.execute body (m.shared k) l = some (s',l') → Reached program admits start
            ⟨m.locked,update m.shared k s',m.threads.set p (.inside k [] l')⟩
  | [], m, l, hm, hp, hrun => by
    cases hrun
    obtain ⟨hlt,hp⟩ := List.getElem?_eq_some_iff.mp hp
    rw [update_eq_self,← hp,List.set_getElem_self hlt]
    exact hm
  | i :: rest, m, l, hm, hp, hrun => by
    obtain ⟨⟨s1,l1⟩,hi,hrun⟩ := Option.bind_eq_some_iff.mp hrun
    have hlt := (List.getElem?_eq_some_iff.mp hp).1
    have hrun : SpinLock.execute rest (update m.shared k s1 k) l1 = some (s',l') := by
      rw [update_self]
      exact hrun
    have := (hm.step (.instruction hp hi)).execute (getElem?_set_self hlt) hrun
    simpa only [update_idem,set_set] using this

end Machine

lemma Reached.machine [DecidableEq K] {program : Program K S L}
    {admits : (k : K) → S k → L → Prop} {start c : Config S L}
    (h : Reached program admits start c) :
    Machine.Reached program admits start (Machine.start c) := by
  induction h with
  | start => exact .start
  | @step c _ hc hstep ih =>
    have hthread : ∀ {p : Nat} {l : L}, c.processes[p]? = some l →
        (Machine.start c).threads[p]? = some (Thread.out l) := by
      intro p l hp
      simp [Machine.start,hp]
    cases hstep with
    | @critical p l l' k body s' hp hbody ha hrun =>
      have hlt : p < (Machine.start c).threads.length :=
        (List.getElem?_eq_some_iff.mp (hthread hp)).1
      have hm := (ih.step (.acquire (hthread hp) hbody ha rfl)).execute
        (getElem?_set_self hlt) hrun
      have hm := hm.step (.release (getElem?_set_self (by simpa using hlt)) (update_self ..))
      simpa only [Machine.start,set_set,map_set,update_idem,update_eq_self] using hm
    | @outside p l l' child hp hl =>
      have hm := ih.step (.outside (hthread hp) hl)
      simpa only [Machine.start,map_append,map_set] using hm

end SpinLock
