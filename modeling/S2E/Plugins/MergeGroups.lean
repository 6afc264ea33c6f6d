import Mathlib

/-!
States that wait for each other at the end of a merge point, without the data structures of the
searcher: who is in which group, who waits as the first of its group, and who is on its way.
-/

namespace S2E

/-- A state is alive until it is deleted. A forked state is not known yet, and a merged one only
waits to be deleted. Group 0 is no group. -/
@[ext] structure MergeGroups where
  group : Nat → Nat
  first : Nat → Option Nat
  member : Nat → Nat → Prop
  active : Nat → Prop
  forked : Nat → Prop
  merged : Nat → Prop
  alive : Nat → Prop
  nextGroup : Nat
  nextState : Nat

namespace MergeGroups
variable (v : MergeGroups)

def Waits (a : Nat) : Prop := v.alive a ∧ ¬v.forked a ∧ ¬v.active a

/-- A group has its active states as members. Its first state waits, unless it was deleted, while
a member is on its way, and no other state waits. -/
structure Inv : Prop where
  member : ∀ id b, v.member id b ↔ id ≠ 0 ∧ v.group b = id ∧ v.active b ∧ ¬v.merged b
  first : ∀ id a, v.first id = some a → v.alive a →
    id ≠ 0 ∧ v.group a = id ∧ v.Waits a ∧ ∃ b, v.member id b
  waits : ∀ a, v.Waits a → v.first (v.group a) = some a
  known : ∀ a, v.active a → v.alive a ∧ ¬v.forked a
  forked : ∀ a, v.forked a → v.alive a
  fresh : ∀ id, v.nextGroup ≤ id → v.first id = none
  group_lt : ∀ a, v.group a < v.nextGroup
  alive_lt : ∀ a, v.alive a → a < v.nextState
  first_lt : ∀ id a, v.first id = some a → a < v.nextState

def fork (a : Nat) : MergeGroups :=
  { v with
    group := fun b => if b = v.nextState then v.group a else v.group b
    forked := fun b => b = v.nextState ∨ v.forked b
    alive := fun b => b = v.nextState ∨ v.alive b
    nextState := v.nextState+1}

def discard (a : Nat) : MergeGroups :=
  { v with
    group := fun b => if b = a then 0 else v.group b
    forked := fun b => b ≠ a ∧ v.forked b
    alive := fun b => b ≠ a ∧ v.alive b}

def begin (a : Nat) : MergeGroups :=
  { v with
    group := fun b => if b = a then v.nextGroup else v.group b
    member := fun id b => id = v.nextGroup ∧ b = a ∨ v.member id b
    nextGroup := v.nextGroup+1}

def close (a : Nat) : MergeGroups :=
  { v with
    group := fun b => if b = a then 0 else v.group b
    member := fun id b => b ≠ a ∧ v.member id b}

def wait (a : Nat) : MergeGroups :=
  { v with
    first := fun id => if id = v.group a then some a else v.first id
    member := fun id b => b ≠ a ∧ v.member id b
    active := fun b => b ≠ a ∧ v.active b}

def arrive (a f : Nat) (last : Bool) : MergeGroups :=
  { v with
    group := fun b => if last ∧ b = f then 0 else v.group b
    first := fun id => if last ∧ id = v.group a then none else v.first id
    member := fun id b => b ≠ a ∧ v.member id b
    active := fun b => last ∧ b = f ∨ v.active b}

def settle (a : Nat) : (success : Bool) → MergeGroups
  | true => {v with merged := fun b => b = a ∨ v.merged b}
  | false => {v with group := fun b => if b = a then 0 else v.group b}

def update (removed : Nat → Prop) [DecidablePred removed] : MergeGroups :=
  { v with
    group := fun b => if removed b then 0 else v.group b
    member := fun id b =>
      ¬removed b ∧ (v.forked b ∧ v.group b = id ∧ id ≠ 0 ∨ v.member id b)
    active := fun b => ¬removed b ∧ (v.forked b ∨ v.active b)
    forked := fun _ => False
    merged := fun _ => False
    alive := fun b => ¬removed b ∧ v.alive b}

variable {v : MergeGroups} {a b f : Nat}

section
variable (h : v.Inv)
include h

lemma Inv.fork : (v.fork a).Inv := by
  cases h
  constructor <;> simp only [MergeGroups.fork,Waits] at *
  all_goals grind

lemma Inv.discard (ha : v.forked a) : (v.discard a).Inv := by
  cases h
  constructor <;> simp only [MergeGroups.discard,Waits] at *
  all_goals grind

lemma Inv.begin (ha : v.active a) (hm : ¬v.merged a) (h0 : v.group a = 0) : (v.begin a).Inv := by
  cases h
  constructor <;> simp only [MergeGroups.begin,Waits] at *
  all_goals grind

lemma Inv.close (ha : v.active a) (hf : v.first (v.group a) = none) : (v.close a).Inv := by
  cases h
  constructor <;> simp only [MergeGroups.close,Waits] at *
  all_goals grind

lemma Inv.wait (ha : v.active a) (hf : v.first (v.group a) = none)
    (hb : v.member (v.group a) b) (hne : b ≠ a) : (v.wait a).Inv := by
  cases h
  constructor <;> simp only [MergeGroups.wait,Waits] at *
  all_goals grind

lemma Inv.arrive {last success : Bool} (ha : v.active a)
    (hf : v.first (v.group a) = some f) (halive : v.alive f)
    (hlast : last ↔ ∀ b, v.member (v.group a) b → b = a) :
    ((v.arrive a f last).settle a success).Inv := by
  cases h
  cases success with
  | true =>
    constructor <;> simp only [MergeGroups.arrive,settle,Waits] at *
    all_goals grind
  | false =>
    constructor <;> simp only [MergeGroups.arrive,settle,Waits] at *
    all_goals grind

lemma Inv.update {removed : Nat → Prop} [DecidablePred removed]
    (hmerged : ∀ a, v.merged a → removed a) (hleft : ∀ a, v.Waits a → ¬removed a →
      ∃ b, v.alive b ∧ v.group b = v.group a ∧ ¬v.Waits b ∧ ¬removed b) :
    (v.update removed).Inv := by
  cases h
  constructor <;> simp only [MergeGroups.update,Waits] at *
  all_goals grind

lemma Inv.on_its_way (ha : v.Waits a) :
    ∃ b, v.alive b ∧ v.group b = v.group a ∧ ¬v.Waits b ∧ ¬v.merged b := by
  obtain ⟨-,-,-,b,hb⟩ := h.first _ a (h.waits a ha) ha.1
  obtain ⟨-,hgroup,hactive,hmerged⟩ := (h.member _ b).mp hb
  exact ⟨b,(h.known b hactive).1,hgroup,fun hw => hw.2.2 hactive,hmerged⟩

end
end MergeGroups
end S2E
