import S2E.Plugins.SeedSearcher

/-! The class `Seeds` with the table of its priorities: which seed `pick` returns. -/

namespace S2E
open Seeds List Function

structure SeedQueue where
  seeds : List Seed := []
  priorities : UInt32 → Int := fun _ => 0
  usedSeeds : UInt32 → Option Seed := fun _ => none

namespace SeedQueue
variable (q : SeedQueue)

def queue (s : Seed) : SeedQueue :=
  { q with
    seeds := Seeds.queue s q.seeds
    priorities := update q.priorities s.priority (q.priorities s.priority+1)}

def doDequeue : Option (Seed × SeedQueue) :=
  match q.seeds with
  | [] => none
  | ret :: seeds =>
    let count := q.priorities ret.priority-1
    if 0 ≤ count then
      some (ret,⟨seeds,update q.priorities ret.priority count,
        update q.usedSeeds ret.index (some ret)⟩)
    else none

structure Pick where
  found : Bool
  seed : Seed
  bitmap : SeedBitmap
  queue : SeedQueue

def pickLoop (dequeue : Bool) (bitmap : SeedBitmap) : Nat → SeedQueue → Seed → Option Pick
  | 0, _, _ => none
  | turns+1, q, seed =>
    match q.seeds with
    | [] => some ⟨false,seed,bitmap,q⟩
    | top :: _ => do
      let (seed,q) ← (if dequeue then q.doDequeue else some (top,q))
      if MAX_SEEDS ≤ seed.index.toNat then some ⟨false,seed,bitmap,q⟩
      else if bitmap seed.index then
        let (_,q) ← (if dequeue then some (seed,q) else q.doDequeue)
        pickLoop dequeue bitmap turns q seed
      else if dequeue then some ⟨true,seed,update bitmap seed.index true,q⟩
      else some ⟨true,seed,bitmap,q⟩

def pick (dequeue : Bool) (bitmap : SeedBitmap) (seed : Seed) : Option Pick :=
  pickLoop dequeue bitmap (q.seeds.length+1) q seed

inductive Reached : SeedQueue → Prop
  | empty : Reached {}
  | queue {q : SeedQueue} (s : Seed) (h : Reached q) : Reached (q.queue s)
  | pick {q : SeedQueue} {dequeue : Bool} {bitmap : SeedBitmap} {seed : Seed} {r : Pick}
    (h : Reached q) (hr : q.pick dequeue bitmap seed = some r) : Reached r.queue

structure Ok : Prop where
  sorted : q.seeds.Pairwise fun a b => before a b = false
  counts : ∀ p, q.priorities p = q.seeds.countP fun s => s.priority = p

def Usable (bitmap : SeedBitmap) (s : Seed) : Prop :=
  s.index.toNat < MAX_SEEDS ∧ bitmap s.index = false

structure Picks (dequeue : Bool) (bitmap : SeedBitmap) (r : Pick) : Prop where
  ok : r.queue.Ok
  split : ∃ dropped rest, (∀ s ∈ dropped, s.index.toNat < MAX_SEEDS ∧ bitmap s.index = true) ∧
    (r.found = true ∧ Usable bitmap r.seed ∧ q.seeds = dropped ++ r.seed :: rest ∧
      r.queue.seeds = (if dequeue then rest else r.seed :: rest) ∧
      r.bitmap = (if dequeue then update bitmap r.seed.index true else bitmap) ∨
    r.found = false ∧ r.bitmap = bitmap ∧ q.seeds = dropped ++ rest ∧
      ∀ s ∈ rest.head?, MAX_SEEDS ≤ s.index.toNat)

variable {q}

lemma Ok.doDequeue {s : Seed} {rest : List Seed} (h : q.Ok) (hq : q.seeds = s :: rest) :
    ∃ q', q.doDequeue = some (s,q') ∧ q'.seeds = rest ∧ q'.Ok := by
  have hsorted := h.sorted
  have hcount := h.counts s.priority
  rw [hq] at hsorted hcount
  rw [countP_cons_of_pos (by simp)] at hcount
  have hpop : q.doDequeue = some (s,⟨rest,update q.priorities s.priority
      (q.priorities s.priority-1),update q.usedSeeds s.index (some s)⟩) := by
    rw [SeedQueue.doDequeue,hq]
    exact if_pos (by omega)
  refine ⟨_,hpop,rfl,(pairwise_cons.mp hsorted).2,fun p => ?_⟩
  have hp := h.counts p
  rw [hq] at hp
  by_cases heq : s.priority = p
  · subst heq
    simp only [update_self]
    omega
  · simp only [update_of_ne (Ne.symm heq),hp]
    rw [countP_cons_of_neg (by simpa using heq)]

lemma pickLoop_picks (dequeue : Bool) (bitmap : SeedBitmap) (seed : Seed) (h : q.Ok)
    {turns : Nat} (hturns : q.seeds.length < turns) :
    ∃ r, pickLoop dequeue bitmap turns q seed = some r ∧ q.Picks dequeue bitmap r := by
  induction turns generalizing q seed with
  | zero => omega
  | succ turns ih =>
    rw [pickLoop]
    split
    next hq => exact ⟨_,rfl,h,[],[],by simp,.inr ⟨rfl,rfl,hq,by simp⟩⟩
    next top rest hq =>
      obtain ⟨q',hpop,hseeds,hok⟩ := h.doDequeue hq
      obtain ⟨q1,hfirst,hq1,hok1⟩ : ∃ q1, (if dequeue then q.doDequeue else some (top,q)) =
          some (top,q1) ∧ q1.seeds = (if dequeue then rest else top :: rest) ∧ q1.Ok := by
        cases dequeue with
        | true => exact ⟨q',hpop,hseeds,hok⟩
        | false => exact ⟨q,rfl,hq,h⟩
      have hsecond : (if dequeue then some (top,q1) else q1.doDequeue) = some (top,q') := by
        cases dequeue with
        | true => exact hfirst.symm.trans hpop
        | false =>
          obtain ⟨⟩ := hfirst
          exact hpop
      rw [hfirst]
      dsimp only [Option.bind_eq_bind,Option.bind_some]
      split
      next hindex => exact ⟨_,rfl,hok1,[],top :: rest,by simp,.inr ⟨rfl,rfl,hq,by
        simpa using hindex⟩⟩
      next hindex =>
        split
        next hused =>
          rw [hsecond]
          have hlen : q'.seeds.length < turns := by
            rw [hq,length_cons] at hturns
            rw [hseeds]
            omega
          obtain ⟨r,hr,hrok,dropped,rest',hdropped,hsplit⟩ := ih top hok hlen
          refine ⟨r,hr,hrok,top :: dropped,rest',
            forall_mem_cons.mpr ⟨⟨not_le.mp hindex,hused⟩,hdropped⟩,?_⟩
          rw [hq,← hseeds]
          simpa using hsplit
        next hunused =>
          have husable : Usable bitmap top := ⟨not_le.mp hindex,Bool.eq_false_iff.mpr hunused⟩
          cases dequeue
          all_goals exact ⟨_,rfl,hok1,[],rest,by simp,.inl ⟨rfl,husable,hq,hq1,rfl⟩⟩

lemma queue_perm (s : Seed) (l : List Seed) : Seeds.queue s l ~ s :: l := by
  induction l with
  | nil => exact .refl _
  | cons t l ih =>
    rw [Seeds.queue]
    split
    · exact .refl _
    · exact (ih.cons t).trans (.swap s t l)

lemma queue_sorted {l : List Seed} (h : l.Pairwise fun a b => before a b = false) (s : Seed) :
    (Seeds.queue s l).Pairwise fun a b => before a b = false := by
  induction l with
  | nil => exact pairwise_singleton ..
  | cons t l ih =>
    obtain ⟨ht,hl⟩ := pairwise_cons.mp h
    rw [Seeds.queue]
    split
    next hts =>
      refine pairwise_cons.mpr ⟨forall_mem_cons.mpr ⟨by grind [before],fun u hu => ?_⟩,h⟩
      have := ht u hu
      grind [before]
    next hts =>
      refine pairwise_cons.mpr ⟨fun u hu => ?_,ih hl⟩
      rcases mem_cons.mp ((queue_perm s l).mem_iff.mp hu) with rfl | hu
      · exact Bool.eq_false_iff.mpr hts
      · exact ht u hu

lemma Ok.queue (h : q.Ok) (s : Seed) : (q.queue s).Ok := by
  refine ⟨queue_sorted h.sorted s,fun p => ?_⟩
  have hp := h.counts p
  simp only [SeedQueue.queue,(queue_perm s q.seeds).countP_eq,countP_cons]
  by_cases heq : s.priority = p
  · subst heq
    simp [hp]
  · simp [update_of_ne (Ne.symm heq),hp,heq]

lemma Reached.ok (h : Reached q) : q.Ok := by
  induction h with
  | empty => exact ⟨.nil,fun _ => rfl⟩
  | queue s _ ih => exact ih.queue s
  | pick _ hr ih =>
    obtain ⟨_,hr',hpicks⟩ := pickLoop_picks _ _ _ ih (Nat.lt_succ_self _)
    obtain ⟨⟩ := hr.symm.trans hr'
    exact hpicks.ok

/-- A pick is complete and ordered exactly when no seed whose index does not fit goes before the
usable ones; the table has the right numbers in any case. -/
theorem pick_complete_iff (hq : Reached q) (dequeue : Bool) (bitmap : SeedBitmap) (seed : Seed) :
    ∃ r, q.pick dequeue bitmap seed = some r ∧
      (∀ p, r.queue.priorities p = r.queue.seeds.countP fun s => s.priority = p) ∧
      (((r.found = true ↔ ∃ s ∈ q.seeds, Usable bitmap s) ∧ (r.found = true →
          Usable bitmap r.seed ∧ (∀ s ∈ q.seeds, Usable bitmap s → s.priority < r.seed.priority ∨
            s.priority = r.seed.priority ∧ r.seed.index ≤ s.index) ∧
          ∃ dropped rest, q.seeds = dropped ++ r.seed :: rest ∧
            (∀ s ∈ dropped, bitmap s.index = true) ∧
            r.queue.seeds = (if dequeue then rest else r.seed :: rest) ∧
            r.bitmap = if dequeue then update bitmap r.seed.index true else bitmap)) ↔
        ((∃ s ∈ q.seeds, Usable bitmap s) → ∃ s ∈ q.seeds, Usable bitmap s ∧
          ∀ t ∈ q.seeds, MAX_SEEDS ≤ t.index.toNat → before t s = true)) := by
  have hsorted := hq.ok.sorted
  obtain ⟨r,hr,hok,dropped,rest,hdropped,hsplit⟩ :=
    pickLoop_picks dequeue bitmap seed hq.ok (Nat.lt_succ_self _)
  refine ⟨r,hr,hok.counts,?_⟩
  have hskip : ∀ s ∈ dropped, ¬Usable bitmap s := fun s hs h => by
    simp [Usable,(hdropped s hs).2] at h
  rcases hsplit with ⟨hfound,husable,hseeds,hqueue,hbitmap⟩ | ⟨hfound,-,hseeds,hhead⟩
  all_goals rw [hseeds] at hsorted
  · have hrest := (pairwise_cons.mp (pairwise_append.mp hsorted).2.1).1
    have hmem : r.seed ∈ q.seeds := by simp [hseeds]
    refine iff_of_true ⟨iff_of_true hfound ⟨_,hmem,husable⟩,fun _ => ⟨husable,fun s hs h => ?_,
      dropped,rest,hseeds,fun s hs => (hdropped s hs).2,hqueue,hbitmap⟩⟩ fun _ =>
        ⟨_,hmem,husable,fun t ht hbig => ?_⟩
    · rw [hseeds,mem_append,mem_cons] at hs
      rcases hs with hs | rfl | hs
      · exact absurd h (hskip s hs)
      · exact .inr ⟨rfl,UInt32.le_refl _⟩
      · have := hrest s hs
        grind [before]
    · have hne : r.seed.index ≠ t.index := fun he => not_lt.mpr hbig (he ▸ husable.1)
      rw [hseeds,mem_append,mem_cons] at ht
      rcases ht with ht | rfl | ht
      · exact absurd (hdropped t ht).1 (not_lt.mpr hbig)
      · exact absurd rfl hne
      · have := hrest t ht
        grind [before]
  · constructor
    · rintro ⟨hiff,-⟩ hex
      rw [hiff.mpr hex] at hfound
      cases hfound
    · intro h
      have hnone : ¬∃ s ∈ q.seeds, Usable bitmap s := by
        intro hex
        obtain ⟨s,hs,husable,hfirst⟩ := h hex
        rw [hseeds] at hs hfirst
        have hs := (mem_append.mp hs).resolve_left fun hs => hskip s hs husable
        cases rest with
        | nil => cases hs
        | cons t rest =>
          have hbig := hhead t rfl
          have hbefore := hfirst t (by simp) hbig
          rcases mem_cons.mp hs with rfl | hs
          · exact not_lt.mpr hbig husable.1
          · rw [(pairwise_cons.mp (pairwise_append.mp hsorted).2.1).1 s hs] at hbefore
            cases hbefore
      exact ⟨iff_of_false (by simp [hfound]) hnone,by simp [hfound]⟩

theorem pick_complete_usedSeed : ∃ r, ((queue {} ⟨"1-1",1,1⟩).queue ⟨"2-2",2,2⟩).pick true
    (· == 2) {} = some r ∧ r.found = true := by
  obtain ⟨r,hr,-,hiff⟩ :=
    pick_complete_iff (.queue ⟨"2-2",2,2⟩ (.queue ⟨"1-1",1,1⟩ .empty)) true (· == 2) {}
  have hfree : Usable (· == 2) ⟨"1-1",1,1⟩ := ⟨by decide,rfl⟩
  refine ⟨r,hr,(hiff.mpr fun _ => ⟨_,.tail _ (.head _),hfree,?_⟩).1.mpr
    ⟨_,.tail _ (.head _),hfree⟩⟩
  intro t ht hbig
  rcases mem_pair.mp ht with rfl | rfl <;> exact absurd hbig (by decide)

/-- The seed with the higher priority has an index that does not fit, and the pick does not get to
the free seed behind it. -/
theorem pick_ends_at_untrackable : ∃ r,
    ((queue {} ⟨"40000-2",2,40000⟩).queue ⟨"1-1",1,1⟩).pick true (fun _ => false) {} = some r ∧
      r.found = false ∧ r.queue.seeds = [⟨"1-1",1,1⟩] ∧
      Usable (fun _ => false) ⟨"1-1",1,1⟩ := ⟨_,rfl,rfl,rfl,by decide,rfl⟩

end SeedQueue
end S2E
