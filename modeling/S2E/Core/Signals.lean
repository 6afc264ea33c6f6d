import Mathlib

/-!
`fsigc++.h`: a signal calls its handlers by priority. A handler that is disconnected, which may
happen while the signal is emitted, leaves a null entry, and these are erased afterwards.
-/

namespace S2E
open List

abbrev SignalEntry (F : Type) := Option F × Int

structure Signal (F : Type) where
  activeSignals : Nat := 0
  deletedSignals : Nat := 0
  funcs : List (SignalEntry F) := []

inductive SignalOp (F : Type) where
  | connect (functor : F) (priority : Int)
  | disconnect (functor : F)
  | emit

abbrev Handlers (F : Type) := List (F × Int)

variable {F σ : Type} [DecidableEq F]

namespace Signal

def cleanupFuncs : Nat → List (SignalEntry F) → Option (List (SignalEntry F))
  | 0, funcs => some funcs
  | n+1, funcs =>
    if funcs.any (·.1.isNone) then cleanupFuncs n (funcs.eraseP (·.1.isNone)) else none

def cleanup (s : Signal F) : Option (Signal F) :=
  (cleanupFuncs s.deletedSignals s.funcs).map ({s with funcs := ·, deletedSignals := 0})

def nullify (functor : F) : List (SignalEntry F) → List (SignalEntry F)
  | [] => []
  | e :: es => if e.1 = some functor then (none,e.2) :: es else e :: nullify functor es

def disconnect (s : Signal F) (functor : F) : Option (Signal F) :=
  -- the assertion
  if s.activeSignals = 0 then none
  else if s.funcs.any (·.1 = some functor) then
    some ⟨s.activeSignals-1,s.deletedSignals+1,nullify functor s.funcs⟩
  else some s

def connect (s : Signal F) (fcn : F) (priority : Int) : Signal F where
  activeSignals := s.activeSignals+1
  deletedSignals := s.deletedSignals
  funcs := s.funcs.orderedInsert (fun p e => e.2 < p.2) (some fcn,priority)

variable (call : F → σ → List F × σ)

/-- `call` gives what a handler disconnects, one after the other, and how it changes the rest of
the program. -/
def emitFrom : Nat → Nat → Signal F → σ → Option (Signal F × σ)
  | 0, _, s, w => some (s,w)
  | n+1, i, s, w =>
    match s.funcs[i]? with
    | some (some f,_) =>
      ((call f w).1.foldlM disconnect s).bind (emitFrom n (i+1) · (call f w).2)
    | _ => emitFrom n (i+1) s w

def step : Signal F × σ → SignalOp F → Option (Signal F × σ)
  | (s,w), .connect f p => some (s.connect f p,w)
  | (s,w), .disconnect f => (s.disconnect f).map (·,w)
  | (s,w), .emit => (emitFrom call s.funcs.length 0 s w).bind fun (s,w) => s.cleanup.map (·,w)

end Signal

namespace Handlers

def connect (h : Handlers F) (f : F) (p : Int) : Handlers F :=
  h.filter (p ≤ ·.2) ++ (f,p) :: h.filter (·.2 < p)

/-- The first handler with the functor is removed, from those whose turn is over or from the
others. There must be some handler. -/
def disconnect (t : Handlers F × Handlers F) (f : F) : Option (Handlers F × Handlers F) :=
  if t = ([],[]) then none
  else if t.1.any (·.1 = f) then some (t.1.eraseP (·.1 = f),t.2)
  else some (t.1,t.2.eraseP (·.1 = f))

variable (call : F → σ → List F × σ)

def turns : Nat → Handlers F × Handlers F → σ → Option (Handlers F × σ)
  | n+1, (past,e :: future), w =>
    ((call e.1 w).1.foldlM disconnect (past ++ [e],future)).bind (turns n · (call e.1 w).2)
  | _, (past,future), w => some (past ++ future,w)

def step : Handlers F × σ → SignalOp F → Option (Handlers F × σ)
  | (h,w), .connect f p => some (connect h f p,w)
  | (h,w), .disconnect f => (disconnect ([],h) f).map fun t => (t.2,w)
  | (h,w), .emit => turns call h.length ([],h) w

end Handlers

lemma rel_bind {α β γ δ : Type} {R : α → β → Prop} {Q : γ → δ → Prop} {x : Option α}
    {y : Option β} {f : α → Option γ} {g : β → Option δ} (h : Option.Rel R x y)
    (hfg : ∀ a b, R a b → Option.Rel Q (f a) (g b)) : Option.Rel Q (x.bind f) (y.bind g) := by
  cases h with
  | some h => exact hfg _ _ h
  | none => exact .none

namespace Signal

def handlers : List (SignalEntry F) → Handlers F
  | [] => []
  | (none,_) :: es => handlers es
  | (some f,p) :: es => (f,p) :: handlers es

structure Ok (s : Signal F) : Prop where
  active : s.activeSignals = (handlers s.funcs).length
  deleted : s.deletedSignals+s.activeSignals = s.funcs.length
  sorted : (s.funcs.map Prod.snd).Pairwise (· ≥ ·)

def Clean (s : Signal F) : Prop := s.funcs = (handlers s.funcs).map fun e => (some e.1,e.2)

structure At (i n m : Nat) (s : Signal F) (t : Handlers F × Handlers F) : Prop where
  ok : s.Ok
  split : ∃ past future, s.funcs = past ++ future ∧ past.length = i ∧ future.length = n ∧
    t = (handlers past,handlers future)
  le : t.2.length ≤ m

variable {f : F} {p : Int} {k l : List (SignalEntry F)} {s : Signal F}

omit [DecidableEq F] in
lemma handlers_append : handlers (k ++ l) = handlers k ++ handlers l := by
  fun_induction handlers k <;> simp [handlers, *]

omit [DecidableEq F] in
lemma handlers_sublist : ((handlers l).map Prod.snd).Sublist (l.map Prod.snd) := by
  fun_induction handlers l <;> simp [*,Sublist.cons]

omit [DecidableEq F] in
lemma handlers_map (h : Handlers F) : handlers (h.map fun e => (some e.1,e.2)) = h := by
  induction h with
  | nil => rfl
  | cons e h ih => rw [map_cons,handlers,ih]

lemma any_handlers : (handlers l).any (·.1 = f) = l.any (·.1 = some f) := by
  fun_induction handlers l <;> simp [*]

lemma handlers_nullify : handlers (nullify f l) = (handlers l).eraseP (·.1 = f) := by
  fun_induction handlers l with
  | case1 => rfl
  | case2 p es ih => simpa [nullify,handlers] using ih
  | case3 g p es ih => by_cases hg : g = f <;> simp [nullify,handlers,hg,ih]

lemma nullify_priorities : (nullify f l).map Prod.snd = l.map Prod.snd := by
  fun_induction nullify f l <;> simp [*]

lemma length_nullify : (nullify f l).length = l.length := by
  simpa using congrArg length (nullify_priorities (f := f) (l := l))

lemma nullify_append : nullify f (k ++ l) =
      if k.any (·.1 = some f) then nullify f k ++ l else k ++ nullify f l := by
  induction k with
  | nil => simp
  | cons e k ih =>
    by_cases he : e.1 = some f
    · simp [nullify,he]
    · rw [cons_append,nullify,if_neg he,ih]
      split <;> simp_all [nullify]

variable {t : Handlers F × Handlers F} {i m n : Nat}

lemma disconnect_at (h : At i n m s t) (f : F) :
    Option.Rel (At i n m) (s.disconnect f) (Handlers.disconnect t f) := by
  obtain ⟨hok,⟨past,future,hfuncs,hi,hn,rfl⟩,hle⟩ := h
  have hempty : s.activeSignals = 0 ↔ (handlers past,handlers future) = ([],[]) := by
    rw [hok.active,hfuncs,handlers_append]
    simp
  unfold disconnect Handlers.disconnect
  by_cases hnone : s.activeSignals = 0
  · rw [if_pos hnone,if_pos (hempty.mp hnone)]
    exact .none
  rw [if_neg hnone,if_neg (hempty.not.mp hnone)]
  split
  next hany =>
    have hok' : Ok ⟨s.activeSignals-1,s.deletedSignals+1,nullify f s.funcs⟩ := by
      refine ⟨?_,?_,by rw [nullify_priorities]; exact hok.sorted⟩
      · rw [handlers_nullify,length_eraseP,any_handlers,if_pos hany,hok.active]
      · have := hok.deleted
        rw [length_nullify]
        simp only
        omega
    rw [hfuncs,nullify_append] at hok' ⊢
    simp only [any_handlers]
    split
    next hpast =>
      rw [if_pos hpast] at hok'
      exact .some ⟨hok',⟨_,_,rfl,length_nullify.trans hi,hn,by rw [handlers_nullify]⟩,hle⟩
    next hpast =>
      rw [if_neg hpast] at hok'
      exact .some ⟨hok',⟨_,_,rfl,hi,length_nullify.trans hn,by rw [handlers_nullify]⟩,
        length_eraseP_le.trans hle⟩
  next hany =>
    rw [hfuncs,any_append,Bool.or_eq_true,not_or,← any_handlers,← any_handlers] at hany
    rw [if_neg hany.1,eraseP_of_forall_not fun e he hf => hany.2 (any_eq_true.mpr ⟨e,he,hf⟩)]
    exact .some ⟨hok,⟨_,_,hfuncs,hi,hn,rfl⟩,hle⟩

lemma disconnects_at (fs : List F) {s : Signal F} (h : At i n m s t) :
    Option.Rel (At i n m) (fs.foldlM disconnect s) (fs.foldlM Handlers.disconnect t) := by
  induction fs generalizing s t with
  | nil => exact .some h
  | cons f fs ih => exact rel_bind (disconnect_at h f) fun _ _ => ih

omit [DecidableEq F] in
lemma cleanupFuncs_cons (n : Nat) : cleanupFuncs n ((some f,p) :: l) =
      (cleanupFuncs n l).map ((some f,p) :: ·) := by
  induction n generalizing l with
  | zero => rfl
  | succ n ih => by_cases h : l.any (·.1.isNone) <;> simp [cleanupFuncs,h,ih]

omit [DecidableEq F] in
lemma cleanupFuncs_eq (h : n+(handlers l).length = l.length) :
    cleanupFuncs n l = some ((handlers l).map fun e => (some e.1,e.2)) := by
  fun_induction handlers l generalizing n with
  | case1 =>
    obtain rfl : n = 0 := h
    rfl
  | case2 p es ih =>
    have hle := (handlers_sublist (l := es)).length_le
    simp only [length_map,length_cons] at hle h
    obtain ⟨n,rfl⟩ : ∃ n', n = n'+1 := ⟨n-1,by omega⟩
    simpa [cleanupFuncs] using ih (by omega)
  | case3 f p es ih =>
    rw [cleanupFuncs_cons,ih (Nat.succ.inj h)]
    rfl

omit [DecidableEq F] in
lemma cleanup_ok (h : s.Ok) : ∃ s', s.cleanup = some s' ∧ s'.Ok ∧ s'.Clean ∧
      handlers s'.funcs = handlers s.funcs := by
  have hdeleted := h.deleted
  rw [h.active] at hdeleted
  refine ⟨_,by rw [cleanup,cleanupFuncs_eq hdeleted]; rfl,⟨?_,?_,?_⟩,?_,handlers_map _⟩
  · simp only [handlers_map,h.active]
  · simp [h.active]
  · rw [map_map]
    exact h.sorted.sublist handlers_sublist
  · simp only [Clean,handlers_map]

omit [DecidableEq F] in
lemma handlers_orderedInsert (hl : (l.map Prod.snd).Pairwise (· ≥ ·)) :
    ((l.orderedInsert (fun p e => e.2 < p.2) (some f,p)).map Prod.snd).Pairwise (· ≥ ·) ∧
      handlers (l.orderedInsert (fun p e => e.2 < p.2) (some f,p)) = (handlers l).connect f p := by
  induction l with
  | nil => simp [handlers,Handlers.connect]
  | cons e l ih =>
    obtain ⟨hle,hl'⟩ := pairwise_cons.mp hl
    rw [orderedInsert]
    split
    next hlt =>
      have hall : ∀ q ∈ (e :: l).map Prod.snd, q < p :=
        forall_mem_cons.mpr ⟨hlt,fun q hq => lt_of_le_of_lt (hle q hq) hlt⟩
      have hall' : ∀ h ∈ handlers (e :: l), h.2 < p := fun h hh =>
        hall h.2 (handlers_sublist.subset (mem_map_of_mem hh))
      refine ⟨pairwise_cons.mpr ⟨fun q hq => (hall q hq).le,hl⟩,?_⟩
      rw [Handlers.connect,filter_eq_nil_iff.mpr (by simpa using hall'),
        filter_eq_self.mpr (by simpa using hall')]
      rfl
    next hge =>
      obtain ⟨hsorted,hins⟩ := ih hl'
      refine ⟨pairwise_cons.mpr ⟨fun q hq => ?_,hsorted⟩,?_⟩
      · obtain ⟨x,hx,rfl⟩ := mem_map.mp hq
        rcases (mem_orderedInsert _).mp hx with rfl | hx
        · exact not_lt.mp hge
        · exact hle _ (mem_map_of_mem hx)
      · obtain ⟨_ | g,q⟩ := e
        · exact hins
        · simp_all [handlers,Handlers.connect]

variable (call : F → σ → List F × σ)

lemma emitFrom_turns {w : σ} (h : At i n m s t) :
    Option.Rel (fun x y => x.1.Ok ∧ y = (handlers x.1.funcs,x.2)) (emitFrom call n i s w)
      (Handlers.turns call m t w) := by
  induction n generalizing i m s t w with
  | zero =>
    obtain ⟨hok,⟨past,future,hfuncs,hi,hn,rfl⟩,hle⟩ := h
    obtain rfl := length_eq_zero_iff.mp hn
    cases m <;> exact .some ⟨hok,by simp [hfuncs,handlers]⟩
  | succ n ih =>
    obtain ⟨hok,⟨past,future,hfuncs,rfl,hn,rfl⟩,hle⟩ := h
    obtain ⟨e,future,rfl⟩ := exists_cons_of_length_eq_add_one hn
    have hget : s.funcs[past.length]? = some e := by simp [hfuncs]
    rw [append_cons] at hfuncs
    replace hn : future.length = n := Nat.succ.inj hn
    have hi : (past ++ [e]).length = past.length+1 := by simp
    obtain ⟨_ | f,p⟩ := e
    · simp only [emitFrom,hget]
      exact ih ⟨hok,⟨_,_,hfuncs,hi,hn,by simp [handlers_append,handlers]⟩,hle⟩
    · cases m with
      | zero => cases hle
      | succ m =>
        simp only [emitFrom,hget]
        refine rel_bind (disconnects_at _
          ⟨hok,⟨_,_,hfuncs,hi,hn,?_⟩,Nat.le_of_succ_le_succ hle⟩) fun _ _ => ih
        simp [handlers_append,handlers]

lemma step_handlers (h : s.Ok) (w : σ) (op : SignalOp F) : Option.Rel
      (fun x y => x.1.Ok ∧ y = (handlers x.1.funcs,x.2) ∧ (op = .emit → x.1.Clean))
      (step call (s,w) op) (Handlers.step call (handlers s.funcs,w) op) := by
  have hstart : At 0 s.funcs.length (handlers s.funcs).length s ([],handlers s.funcs) :=
    ⟨h,⟨[],s.funcs,rfl,rfl,rfl,rfl⟩,le_rfl⟩
  cases op with
  | connect f p =>
    obtain ⟨hsorted,hins⟩ := handlers_orderedInsert (f := f) (p := p) h.sorted
    have hlen := (filter_append_perm (p ≤ ·.2) (handlers s.funcs)).length_eq
    simp only [length_append,← decide_not,not_le] at hlen
    refine .some ⟨⟨?_,?_,hsorted⟩,by rw [connect,hins],nofun⟩
    · simp only [connect,hins,Handlers.connect,length_append,length_cons,h.active]
      omega
    · have := h.deleted
      simp only [connect,orderedInsert_length]
      omega
  | disconnect f =>
    rw [step,Handlers.step,Option.map_eq_bind,Option.map_eq_bind]
    refine rel_bind (disconnect_at hstart f) ?_
    rintro s' _ ⟨hok,⟨past,future,hfuncs,hpast,-,rfl⟩,-⟩
    obtain rfl := length_eq_zero_iff.mp hpast
    exact .some ⟨hok,by rw [hfuncs]; rfl,nofun⟩
  | emit =>
    rw [Handlers.step,← Option.bind_fun_some (Handlers.turns ..)]
    refine rel_bind (emitFrom_turns call hstart) ?_
    rintro ⟨s',w'⟩ _ ⟨hok,rfl⟩
    obtain ⟨s'',hs,hok',hclean,hsame⟩ := cleanup_ok hok
    simp only [hs]
    exact .some ⟨hok',by rw [hsame],fun _ => hclean⟩

/-- Whatever is done with a signal, its handlers are called as they are by priority: each that is
connected when its turn comes, once. The entries are the handlers and the null entries, of which
an emission leaves none. -/
theorem emission_by_priority (ops : List (SignalOp F)) (w : σ) : Option.Rel
      (fun x y => x.1.Ok ∧ y = (handlers x.1.funcs,x.2) ∧ (ops.getLast? = some .emit → x.1.Clean))
      (ops.foldlM (step call) ({},w)) (ops.foldlM (Handlers.step call) ([],w)) := by
  induction ops using reverseRecOn with
  | nil => exact .some ⟨⟨rfl,rfl,.nil⟩,rfl,nofun⟩
  | append_singleton ops op ih =>
    rw [foldlM_append,foldlM_append]
    refine rel_bind ih ?_
    rintro ⟨s,w⟩ _ ⟨hok,rfl,-⟩
    simpa using step_handlers call hok w op

end Signal
end S2E
