import S2E.Lib.Runs

/-!
`KeyValueStore.cpp`: strings and numbers that the guest keeps, by state or for all states, and the
lock that the instances share (`Synchronization.cpp`).
-/

namespace S2E
open Function List

def digitValue (c : Char) : Nat :=
  if c.isDigit then c.toNat - '0'.toNat
  else if 'a' ≤ c ∧ c ≤ 'z' then c.toNat - 'a'.toNat+10
  else if 'A' ≤ c ∧ c ≤ 'Z' then c.toNat - 'A'.toNat+10
  else 36

def isSpace (c : Char) : Bool := c ∈ [' ', '\t', '\n', '\x0b', '\x0c', '\r']

def strtolSign : List Char → Bool × List Char
  | '-' :: s => (true,s)
  | '+' :: s => (false,s)
  | s => (false,s)

def strtolBase : List Char → Nat × List Char
  | '0' :: x :: d :: s =>
    if (x = 'x' ∨ x = 'X') ∧ digitValue d < 16 then (16,d :: s) else (8,x :: d :: s)
  | '0' :: s => (8,s)
  | s => (10,s)

def strtol (s : List Char) : Int :=
  let (negative,s) := strtolSign (s.dropWhile isSpace)
  let (base,s) := strtolBase s
  let value := (s.takeWhile (digitValue · < base)).foldl (fun n c => base*n+digitValue c) 0
  if negative then max (-value) (-2^63) else min value (2^63-1)

structure KvsServer (σ : Type) where
  put : σ → List Char → List Char → Bool × σ
  get : σ → List Char → Option (List Char)

def KvsServer.Keeps {σ : Type} (server : KvsServer σ) : Prop :=
  ∀ s key value, (server.put s key value).1 ∧
    server.get (server.put s key value).2 key = some value

def KvsServer.map : KvsServer (List Char → Option (List Char)) where
  put storage key value := (true,update storage key (some value))
  get storage key := storage key

inductive KvsKey where
  | string (key : List Char)
  | integer (key : UInt64)

def KvsKey.text : KvsKey → List Char
  | .string key => key
  | .integer key => Nat.toDigits 10 key.toNat

inductive KvsCommand where
  | putString (value : List Char)
  | getString
  | putInt (value : UInt64)
  | getInt

def KvsCommand.writes : KvsCommand → Bool
  | .putString _ | .putInt _ => true
  | .getString | .getInt => false

structure KvsReply where
  success : Bool
  newKey : Bool := false
  value : List Char := []
  integerValue : UInt64 := 0
  deriving DecidableEq

structure KvsStores (σ : Type) where
  storage : List Char → Option (List Char)
  shared : σ

variable {σ : Type}

namespace KvsStores
variable (server : KvsServer σ) (s : KvsStores σ) (isLocal : Bool) (key : List Char)

def get : Option (List Char) := if isLocal then s.storage key else server.get s.shared key

def put (value : List Char) : KvsReply × KvsStores σ :=
  let newKey := (s.get server isLocal key).isNone
  if isLocal then
    ({success := true, newKey := newKey}, {s with storage := update s.storage key (some value)})
  else
    let (success,shared) := server.put s.shared key value
    ({success := success, newKey := newKey}, {s with shared := shared})

def handle (key : KvsKey) : KvsCommand → KvsReply × KvsStores σ
  | .putString value => s.put server isLocal key.text value
  | .putInt value => s.put server isLocal key.text (Nat.toDigits 10 value.toNat)
  | .getString => match s.get server isLocal key.text with
    | none => ({success := false},s)
    | some value => ({success := true, value := value},s)
  | .getInt => match s.get server isLocal key.text with
    | none => ({success := false},s)
    | some value => ({success := true, integerValue := .ofInt (strtol value)},s)

def run (commands : List (Bool × KvsKey × KvsCommand)) : KvsStores σ :=
  commands.foldl (fun s c => (s.handle server c.1 c.2.1 c.2.2).2) s

end KvsStores

lemma toDigits_head (n : Nat) (hn : n ≠ 0) : (Nat.toDigits 10 n).head? ≠ some '0' := by
  induction n using Nat.strong_induction_on with
  | _ n ih =>
    by_cases h : n < 10
    · interval_cases n <;> simp_all [Nat.toDigits_of_lt_base]
    · rw [Nat.toDigits_of_base_le (by decide) (by omega),
        head?_append_of_ne_nil _ Nat.toDigits_ne_nil]
      exact ih (n/10) (by omega) (by omega)

lemma strtol_digits {s : List Char} (hdigits : ∀ c ∈ s, c.isDigit)
    (hhead : s.head? ≠ some '0') : strtol s = min (Nat.ofDigitChars 10 s 0) (2^63-1) := by
  have hspace : s.dropWhile isSpace = s := by
    cases s with
    | nil => rfl
    | cons c s =>
      refine dropWhile_cons_of_neg fun h => ?_
      simp only [isSpace,mem_cons,not_mem_nil,or_false,decide_eq_true_eq] at h
      rcases h with rfl | rfl | rfl | rfl | rfl | rfl <;>
        exact absurd (hdigits _ mem_cons_self) (by decide)
  have hsign : strtolSign s = (false,s) := by
    unfold strtolSign
    split
    · exact absurd (hdigits _ mem_cons_self) (by decide)
    · exact absurd (hdigits _ mem_cons_self) (by decide)
    · rfl
  have hbase : strtolBase s = (10,s) := by
    unfold strtolBase
    split <;> simp_all
  have hvalue : ∀ c ∈ s, digitValue c = c.toNat - '0'.toNat := fun c hc => if_pos (hdigits c hc)
  have hall : s.takeWhile (digitValue · < 10) = s := by
    refine takeWhile_eq_self_iff.mpr fun c hc => ?_
    have h : c.toNat ≤ '9'.toNat := by
      have := hdigits c hc
      simp only [Char.isDigit,Bool.and_eq_true,decide_eq_true_eq] at this
      exact this.2
    have hnine : '9'.toNat - '0'.toNat < 10 := by decide
    simp only [hvalue c hc,decide_eq_true_eq]
    omega
  have hfold : s.foldl (fun n c => 10*n+digitValue c) 0 = Nat.ofDigitChars 10 s 0 := by
    rw [Nat.ofDigitChars_eq_foldl]
    exact foldl_ext _ _ _ fun n c hc => by rw [hvalue c hc]
  simp [strtol,hspace,hsign,hbase,hall,hfold]

lemma strtol_toDigits (n : Nat) : strtol (Nat.toDigits 10 n) = min n (2^63-1) := by
  by_cases hn : n = 0
  · subst hn
    decide
  · rw [strtol_digits (fun c => Nat.isDigit_of_mem_toDigits (by decide) (by decide))
      (toDigits_head n hn),Nat.ofDigitChars_toDigits (by decide) (by decide)]

namespace KvsStores

lemma run_reads {server : KvsServer σ} {s : KvsStores σ}
    {commands : List (Bool × KvsKey × KvsCommand)} (h : ∀ c ∈ commands, ¬c.2.2.writes) :
    s.run server commands = s := by
  induction commands with
  | nil => rfl
  | cons c commands ih =>
    obtain ⟨hc,h⟩ := forall_mem_cons.mp h
    have hs : (s.handle server c.1 c.2.1 c.2.2).2 = s := by
      obtain ⟨isLocal,key,_ | _ | _ | _⟩ := c <;> simp [KvsCommand.writes] at hc <;>
        cases hget : s.get server isLocal key.text <;> simp [handle,hget]
    exact (congrArg (run server · commands) hs).trans (ih h)

lemma get_put {server : KvsServer σ} (h : server.Keeps) (s : KvsStores σ) (isLocal : Bool)
    (key value : List Char) :
    (s.put server isLocal key value).2.get server isLocal key = some value := by
  cases isLocal with
  | false => exact (h s.shared key value).2
  | true => exact update_self ..

def empty : KvsStores (List Char → Option (List Char)) := ⟨fun _ => none,fun _ => none⟩

end KvsStores

inductive KvsActivity where
  | idle
  | locking
  | putting
  | storing
  deriving DecidableEq

/-- The commands as far as the lock is concerned. One whose key cannot be read does nothing, like
`get`. -/
inductive KvsLockCommand where
  | lock
  | unlock
  | put (isLocal readable : Bool)
  | get
  deriving DecidableEq

/-- The lock with the instance that acquired it, and whether a release failed its assertion or came
from another instance. -/
structure KvsLock (ι : Type) where
  owner : Option ι := none
  activity : ι → KvsActivity := fun _ => .idle
  failed : Bool := false
  stolen : Bool := false

namespace KvsLock
variable {ι : Type} [DecidableEq ι] (s : KvsLock ι) (i : ι)

def become (a : KvsActivity) : KvsLock ι := {s with activity := update s.activity i a}

def release : KvsLock ι :=
  { s with
    owner := none
    failed := s.failed || s.owner.isNone
    stolen := s.stolen || s.owner.any (· ≠ i)}

def handle : KvsLockCommand → KvsLock ι
  | .lock => s.become i .locking
  | .unlock => s.release i
  | .put _ false => s.release i
  | .put false true => s.become i .putting
  | .put true true => s
  | .get => s

def acquire (a : KvsActivity) : KvsLock ι := {s.become i a with owner := some i}

def step : ι × Option KvsLockCommand → Option (KvsLock ι)
  | (i,some c) => if s.activity i = .idle then some (s.handle i c) else none
  | (i,none) => match s.activity i with
    | .idle => none
    | .locking => if s.owner = none then some (s.acquire i .idle) else none
    | .putting => if s.owner = none then some (s.acquire i .storing) else none
    | .storing => some ((s.release i).become i .idle)

/-- Only the owner unlocks, and it neither locks nor puts a shared value; values can be read. -/
def Disciplined : ι × Option KvsLockCommand → Prop
  | (i,some .lock) => s.owner ≠ some i
  | (i,some .unlock) => s.owner = some i
  | (i,some (.put isLocal readable)) => readable ∧ (isLocal ∨ s.owner ≠ some i)
  | _ => True

structure Sound : Prop where
  failed : ¬s.failed
  stolen : ¬s.stolen
  waits : ∀ i, s.activity i = .locking ∨ s.activity i = .putting → s.owner ≠ some i
  stores : ∀ i, s.activity i = .storing → s.owner = some i

variable {s i} {s' : KvsLock ι} {a : KvsActivity}

@[simp] lemma activity_become (j : ι) :
    (s.become i a).activity j = if j = i then a else s.activity j := update_apply ..

lemma Sound.become (h : s.Sound) (hi : s.owner ≠ some i) (ha : a ≠ .storing) :
    (s.become i a).Sound where
  failed := h.failed
  stolen := h.stolen
  waits j hj := by
    by_cases hji : j = i
    · exact hji ▸ hi
    · exact h.waits j (by simpa [hji] using hj)
  stores j hj := by
    by_cases hji : j = i
    · simp [hji,ha] at hj
    · exact h.stores j (by simpa [hji] using hj)

lemma Sound.acquire (h : s.Sound) (hfree : s.owner = none) (ha : a = .idle ∨ a = .storing) :
    (s.acquire i a).Sound where
  failed := h.failed
  stolen := h.stolen
  waits j hj := by
    by_cases hji : j = i
    · rcases ha with rfl | rfl <;> simp [KvsLock.acquire,hji] at hj
    · simp [KvsLock.acquire,Ne.symm hji]
  stores j hj := by
    by_cases hji : j = i
    · exact hji ▸ rfl
    · have := h.stores j (by simpa [KvsLock.acquire,hji] using hj)
      simp [hfree] at this

lemma Sound.release (h : s.Sound) (hi : s.owner = some i) :
    ((s.release i).become i .idle).Sound where
  failed := by simp [KvsLock.release,KvsLock.become,hi,h.failed]
  stolen := by simp [KvsLock.release,KvsLock.become,hi,h.stolen]
  waits := nofun
  stores j hj := by
    by_cases hji : j = i
    · simp [hji] at hj
    · have := h.stores j (by simpa [KvsLock.release,hji] using hj)
      exact absurd (Option.some.inj (this.symm.trans hi)) hji

lemma Sound.unlock (h : s.Sound) (hi : s.owner = some i) (hidle : s.activity i = .idle) :
    (s.release i).Sound := by
  have hsame : (s.release i).become i .idle = s.release i := by
    simp [KvsLock.become,KvsLock.release,← hidle]
  exact hsame ▸ h.release hi

lemma step_sound {c : ι × Option KvsLockCommand} (h : s.Sound) (hc : s.Disciplined c)
    (hstep : s.step c = some s') : s'.Sound := by
  obtain ⟨i,_ | c⟩ := c
  · simp only [step] at hstep
    split at hstep
    · cases hstep
    · obtain ⟨hfree,hstep⟩ := Option.ite_none_right_eq_some.mp hstep
      cases hstep
      exact h.acquire hfree (.inl rfl)
    · obtain ⟨hfree,hstep⟩ := Option.ite_none_right_eq_some.mp hstep
      cases hstep
      exact h.acquire hfree (.inr rfl)
    · cases hstep
      exact h.release (h.stores i ‹_›)
  · obtain ⟨hidle,hstep⟩ := Option.ite_none_right_eq_some.mp hstep
    cases hstep
    match c, hc with
    | .lock, hc => exact h.become hc (by decide)
    | .unlock, hc => exact h.unlock hc hidle
    | .put false true, hc => exact h.become (hc.2.resolve_left (by simp)) (by decide)
    | .put true true, _ => exact h
    | .get, _ => exact h

/-- In every run of disciplined steps no release goes wrong and no instance waits for itself, and
an instance that holds the lock keeps it through its puts and gets and can unlock. -/
theorem lock_disciplined (h : Runs.Reached step Disciplined (· = ({} : KvsLock ι)) s) :
    s.Sound ∧ ∀ i, s.owner = some i → s.activity i = .idle →
      (∀ c, c ≠ .unlock → s.Disciplined (i,some c) → s.step (i,some c) = some s) ∧
        ∃ s', s.step (i,some .unlock) = some s' ∧ s'.owner = none ∧ s'.Sound := by
  have hs : s.Sound := by
    refine h.invariant (I := Sound) (fun h => ?_) step_sound
    subst h
    constructor <;> simp
  refine ⟨hs,fun i hi hidle => ⟨fun c hc hd => ?_,s.release i,if_pos hidle,rfl,hs.unlock hi hidle⟩⟩
  match c, hd with
  | .lock, hd => exact absurd hi hd
  | .put false true, hd => exact absurd hi (hd.2.resolve_left (by simp))
  | .put true true, _ => exact if_pos hidle
  | .get, _ => exact if_pos hidle

theorem lock_disciplined_once : ∃ s : KvsLock (Fin 2),
    Runs.run step (fun _ _ => true) {} [(0,some .lock),(0,none),(0,some (.put true true)),
      (0,some .get),(1,some (.put false true)),(0,some .unlock),(1,none)] = some s ∧
      s.owner = some 1 ∧ s.Sound := by
  refine ⟨_,rfl,rfl,?_⟩
  have hlock : Runs.Reached step Disciplined (· = {}) (({} : KvsLock (Fin 2)).become 0 .locking) :=
    .step (a := (0,some .lock)) (.start rfl) nofun rfl
  have hheld := (hlock.step (a := (0,none)) trivial rfl).step
    (a := (0,some (KvsLockCommand.put true true))) ⟨rfl,.inl rfl⟩ rfl
  have hwait := (hheld.step (a := (0,some KvsLockCommand.get)) trivial rfl).step
    (a := (1,some (KvsLockCommand.put false true))) ⟨rfl,.inr nofun⟩ rfl
  have hfree := hwait.step (a := (0,some KvsLockCommand.unlock)) rfl rfl
  exact (lock_disciplined (hfree.step (a := (1,none)) trivial rfl)).1

/-- A value that cannot be read releases the lock of the other instance, whose own release then
fails, and an instance that holds the lock waits for itself in a put. -/
theorem lock_undisciplined :
    (∃ s : KvsLock (Fin 2), Runs.run step (fun _ _ => true) {} [(0,some .lock),(0,none),
      (1,some (.put false false)),(0,some .unlock)] = some s ∧ s.stolen ∧ s.failed) ∧
    ∃ s : KvsLock (Fin 2), Runs.run step (fun _ _ => true) {} [(0,some .lock),(0,none),
      (0,some (.put false true))] = some s ∧ s.activity 0 = .putting ∧ s.owner = some 0 :=
  ⟨⟨_,rfl,rfl,rfl⟩,_,rfl,rfl,rfl⟩

end KvsLock
end S2E
