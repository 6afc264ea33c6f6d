import S2E.Expr.Create

/-!
Properties of every node that the folding constructors keep. A constructor may drop
nodes, take operands out of them and put connectives around them; it allocates a shift,
a mask or a division only where it is asked for one.
-/

namespace S2E
open List Option ExtractExpr S2E.Expr

def BinaryKind.isPlain : BinaryKind → Bool
  | .add | .sub | .mul | .ashr | .ult | .ule | .slt | .sle => true
  | _ => false

/-- What is asked of a binary node over operands of some width, of an extension and of an
extraction, by the widths of the source and of the result. -/
structure Grammar where
  node : BinaryKind → Nat → Expr → Prop
  ext : Nat → Nat → Prop
  slice : Nat → Nat → Prop
  node_or : ∀ w r, node .or w r
  node_xor : ∀ w r, node .xor w r
  node_eq : ∀ w r, node .eq w r
  node_and : ∀ {w r} r', node .and w r → node .and w r'
  node_and_bool : ∀ r, node .and 1 r
  node_plain : ∀ {k w} r, k.isPlain = true → w ≠ 1 → node k w r
  ext_of_lt : ∀ {n w}, n < w → ext n w
  ext_mono : ∀ {n w w'}, ext n w → w < w' → ext n w'
  slice_of_ne : ∀ {n w}, w ≠ n → slice n w

mutual
def Expr.Conforms (G : Grammar) : Expr → Prop
  | .constant _ => True
  | .read ul i => ul.Conforms G ∧ i.Conforms G
  | .select c t f => c.Conforms G ∧ t.Conforms G ∧ f.Conforms G
  | .concat l r => l.Conforms G ∧ r.Conforms G
  | .extract e _ w => e.Conforms G ∧ G.slice e.width w
  | .not e => e.Conforms G
  | .zext e w => e.Conforms G ∧ G.ext e.width w
  | .sext e w => e.Conforms G ∧ G.ext e.width w
  | .binary k l r => l.Conforms G ∧ r.Conforms G ∧ G.node k l.width r

def UpdateList.Conforms (G : Grammar) : UpdateList → Prop
  | .root _ => True
  | .extend next i v => next.Conforms G ∧ i.Conforms G ∧ v.Conforms G
end

/-- What is asked of the node a constructor is called for. The other kinds are either
never allocated or allocated over operands that are not Boolean. -/
def Grammar.Asks (G : Grammar) : Expr → Prop
  | .binary k l r =>
    match k with
    | .and | .shl | .lshr | .udiv | .sdiv | .urem | .srem => l.width ≠ 1 → G.node k l.width r
    | _ => True
  | _ => True

def Keeps (G : Grammar) (o : Option Expr) : Prop := ∀ r, o = some r → r.Conforms G

variable {G : Grammar}

lemma Keeps.none : Keeps G none := nofun

variable {e : Expr}

lemma Keeps.some (h : e.Conforms G) : Keeps G (some e) := by
  intro r hr
  cases hr
  exact h

variable {o : Option Expr} {f : Expr → Option Expr}

lemma Keeps.bind (h : Keeps G o)
    (hf : ∀ r, r.Conforms G → Keeps G (f r)) : Keeps G (o.bind f) := by
  intro s hs
  obtain ⟨r,hr,hfr⟩ := bind_eq_some_iff.mp hs
  exact hf r (h r hr) s hfr

variable {a b d t x y : Expr}

lemma Keeps.bind_yields (h : Keeps G o)
    (hy : Yields d o) (hf : ∀ r, r.Conforms G → Refines d r → Keeps G (f r)) :
    Keeps G (o.bind f) := by
  obtain ⟨r,rfl,hr⟩ := hy
  exact hf r (h r rfl) hr

structure Operand (G : Grammar) (w : Nat) (e : Expr) : Prop where
  wf : e.WF
  width : e.width = w
  conforms : e.Conforms G

lemma Operand.of_refines {w : Nat} {e : Expr} (h : Refines d e) (hd : d.width = w)
    (he : e.Conforms G) : Operand G w e := ⟨h.wf,h.width.trans hd,he⟩

variable {k : BinaryKind}

lemma Operand.of_binary {w : Nat} (hk : k.isCompare = false)
    (h : Operand G w (.binary k x y)) : Operand G w x ∧ Operand G w y := by
  have hw : x.width = w := by simpa [Expr.width,hk] using h.width
  exact ⟨⟨h.wf.1,hw,h.conforms.1⟩,h.wf.2.1,h.wf.2.2.symm.trans hw,h.conforms.2.1⟩

lemma Operand.wf_binary {w : Nat} (k : BinaryKind) (hx : Operand G w x)
    (hy : Operand G w y) : (binary k x y).WF :=
  ⟨hx.wf,hy.wf,hx.width.trans hy.width.symm⟩

structure ExtractKeeps (G : Grammar) (fuel : Nat) : Prop where
  extract : ∀ {e : Expr} (off w : Nat), e.Conforms G → Keeps G (createF fuel e off w)
  simplify : ∀ {e : Expr}, e.Conforms G → Keeps G (simplifyF fuel e)
  lshr : ∀ {e : Expr}, e.Conforms G → Keeps G (SimplifyExtractLShrF fuel e)
  concat : ∀ {l r : Expr}, l.Conforms G → r.Conforms G → Keeps G (ConcatExpr.createF fuel l r)
  zext : ∀ {e : Expr} (w : Nat), e.Conforms G → Keeps G (ZExtExpr.createF fuel e w)
  sext : ∀ {e : Expr} (w : Nat), e.Conforms G → Keeps G (SExtExpr.createF fuel e w)

lemma SimplifyExtractAndZext_keeps (h : e.Conforms G) : Keeps G (SimplifyExtractAndZext e) := by
  unfold SimplifyExtractAndZext
  split
  · split
    · split
      · exact .some h.1.1.1
      · exact .some h
    · exact .none
  · exact .some h

variable {fuel : Nat}

lemma ExtractKeeps.extract_succ (ih : ExtractKeeps G fuel)
    (off w : Nat) (h : e.Conforms G) : Keeps G (createF (fuel+1) e off w) := by
  unfold createF
  split
  · exact .none
  split
  · exact .some h
  rename_i hw
  have hs : (Expr.extract e off w).Conforms G := ⟨h,G.slice_of_ne hw⟩
  split
  · exact .some trivial
  · split
    · exact .some h.1
    · split
      · exact ih.zext w h.1
      · exact ih.simplify hs
  · split
    · exact ih.extract _ w h.1
    · split
      · exact ih.extract off w h.2
      · refine .bind (ih.extract _ _ h.1) fun el hel => ?_
        exact .bind (ih.extract _ _ h.2) fun er her => ih.concat hel her
  · split
    · exact .some h.1
    · split
      · exact ih.sext w h.1
      · exact ih.simplify hs
  · exact ih.simplify hs

lemma ExtractKeeps.lshr_succ (ih : ExtractKeeps G fuel)
    (h : e.Conforms G) : Keeps G (SimplifyExtractLShrF (fuel+1) e) := by
  unfold SimplifyExtractLShrF
  split
  · simp only
    split
    · exact .some h
    split
    · exact .some h
    · exact ih.extract _ _ h.1.1
  · exact .some h

variable {l r : Expr}

lemma ExtractKeeps.concat_succ (ih : ExtractKeeps G fuel)
    (hl : l.Conforms G) (hr : r.Conforms G) : Keeps G (ConcatExpr.createF (fuel+1) l r) := by
  unfold ConcatExpr.createF
  split
  · exact .some trivial
  · split
    · exact ih.zext _ hr
    · exact .some ⟨hl,hr⟩
  · split
    · exact ih.extract _ _ hl.1
    · exact .some ⟨hl,hr⟩
  · exact .some ⟨hl,hr⟩

lemma ExtractKeeps.zext_succ (ih : ExtractKeeps G fuel) (w : Nat)
    (h : e.Conforms G) : Keeps G (ZExtExpr.createF (fuel+1) e w) := by
  unfold ZExtExpr.createF
  split
  · exact .some h
  split
  · exact ih.extract 0 w h
  have hw : e.width < w := by omega
  split
  · exact .some trivial
  · split
    next hzw =>
      exact .some ⟨h.1,G.ext_mono h.2 hzw⟩
    · exact .some ⟨h,G.ext_of_lt hw⟩
  · exact .some ⟨h,G.ext_of_lt hw⟩

lemma ExtractKeeps.sext_succ (ih : ExtractKeeps G fuel) (w : Nat)
    (h : e.Conforms G) : Keeps G (SExtExpr.createF (fuel+1) e w) := by
  unfold SExtExpr.createF
  split
  · exact .some h
  split
  · exact ih.extract 0 w h
  have hw : e.width < w := by omega
  split
  · exact .some trivial
  · exact .some ⟨h,G.ext_of_lt hw⟩

lemma extractKeeps (G : Grammar) (fuel : Nat) : ExtractKeeps G fuel := by
  induction fuel with
  | zero =>
    constructor <;> intros
    · unfold createF; exact .none
    · unfold simplifyF; exact .none
    · unfold SimplifyExtractLShrF; exact .none
    · unfold ConcatExpr.createF; exact .none
    · unfold ZExtExpr.createF; exact .none
    · unfold SExtExpr.createF; exact .none
  | succ fuel ih =>
    exact {
      extract := fun off w => ih.extract_succ off w
      simplify := fun h => by
        unfold simplifyF
        exact .bind (SimplifyExtractAndZext_keeps h) fun r hr => ih.lshr hr
      lshr := fun h => ih.lshr_succ h
      concat := fun hl hr => ih.concat_succ hl hr
      zext := fun w h => ih.zext_succ w h
      sext := fun w h => ih.sext_succ w h}

lemma ExtractExpr.create_keeps (off w : Nat) (h : e.Conforms G) : Keeps G (create e off w) :=
  (extractKeeps G _).extract off w h

lemma ConcatExpr.create_keeps (hl : l.Conforms G) (hr : r.Conforms G) : Keeps G (create l r) :=
  (extractKeeps G _).concat hl hr

lemma ZExtExpr.create_keeps (w : Nat) (h : e.Conforms G) : Keeps G (create e w) :=
  (extractKeeps G _).zext w h

lemma SExtExpr.create_keeps (w : Nat) (h : e.Conforms G) : Keeps G (create e w) :=
  (extractKeeps G _).sext w h

lemma ConcatExpr.createN_keeps : (kids : List Expr) → (∀ k ∈ kids, k.Conforms G) →
    Keeps G (createN kids)
  | [], _ => .none
  | [kid], h => .some (h kid (mem_singleton_self kid))
  | kid :: kid' :: kids, h => by
    unfold createN
    refine .bind (createN_keeps (kid' :: kids) fun k hk => h k (mem_cons_of_mem _ hk)) ?_
    exact fun r hr => create_keeps (h kid mem_cons_self) hr

lemma NotExpr.create_conforms (h : e.Conforms G) : (create e).Conforms G := by
  unfold create
  split
  · trivial
  · exact h

lemma Expr.absorbed_conforms {e : Expr} (h : e.Conforms G)
    (hb : e.absorbed k x = some b) : b.Conforms G := by
  unfold absorbed at hb
  split at hb
  · split at hb
    · split at hb
      · cases hb; exact h.2.1
      · split at hb
        · cases hb; exact h.1
        · cases hb
    · cases hb
  · cases hb

lemma Grammar.Asks.node_and (h : G.Asks (.binary .and l r)) (r' : Expr) :
    G.node .and l.width r' := by
  by_cases hw : l.width = 1
  · rw [hw]
    exact G.node_and_bool r'
  · exact G.node_and r' (h hw)

lemma Grammar.asks_and (h : ∀ r', G.node .and l.width r') :
    G.Asks (.binary .and l r) := fun _ => h r

lemma Grammar.asks_and_bool (h : l.width = 1) : G.Asks (.binary .and l r) := fun hw => absurd h hw

lemma AndExpr_createPartial_conforms {l : Expr} {cr : APInt}
    (ih : ∀ (a : Expr) (c : APInt), a.size < l.size → (binary .and a (.constant c)).WF →
      a.Conforms G → G.Asks (.binary .and a (.constant c)) →
        (AndExpr.create a (.constant c)).Conforms G)
    (h : (binary .and l (.constant cr)).WF) (hl : l.Conforms G)
    (ha : G.Asks (.binary .and l (.constant cr))) : (AndExpr_createPartial l cr).Conforms G := by
  have hnode := ha.node_and
  unfold AndExpr_createPartial
  split
  · exact hl
  split
  · trivial
  split
  next a b =>
    split
    next hbc =>
      have hr := Refines.and_or_disjoint h ((APInt.isZero_iff _).mp hbc)
      exact ih a _ (by grind) hr.wf hl.1 (Grammar.asks_and hnode)
    · exact ⟨hl,trivial,hnode _⟩
  next a c2 =>
    have hr := Refines.binary_assoc h rfl rfl apply_and_assoc
    exact ih a _ (by grind) hr.wf hl.1 (Grammar.asks_and hnode)
  · exact ⟨hl,trivial,hnode _⟩

lemma AndExpr_create_conforms
    (ih : ∀ l' r' : Expr, l'.size+r'.size < l.size+r.size → (binary .and l' r').WF →
      l'.Conforms G → r'.Conforms G → G.Asks (.binary .and l' r') →
        (AndExpr.create l' r').Conforms G)
    (h : (binary .and l r).WF) (hl : l.Conforms G) (hr : r.Conforms G)
    (ha : G.Asks (.binary .and l r)) : (AndExpr_create l r).Conforms G := by
  unfold AndExpr_create
  split
  · trivial
  split
  next b hb =>
    have hs := absorbed_size hb
    obtain ⟨-,-,-,hb1,-⟩ := absorbed_spec rfl h.1 h.2.1 h.2.2 hb
    have href := Refines.absorb_left and_or_absorb apply_or_comm rfl h hb
    exact ih b r (by omega) href.wf (absorbed_conforms hl hb) hr (Grammar.asks_and_bool hb1)
  · split
    next b hb =>
      have hs := absorbed_size hb
      obtain ⟨-,-,-,-,hl1,-⟩ := absorbed_spec rfl h.2.1 h.1 h.2.2.symm hb
      have href := Refines.absorb_right and_or_absorb apply_or_comm rfl apply_and_comm h hb
      exact ih l b (by omega) href.wf hl (absorbed_conforms hr hb) (Grammar.asks_and_bool hl1)
    · exact ⟨hl,hr,ha.node_and r⟩

lemma AndExpr.create_conforms (h : (binary .and l r).WF)
    (hl : l.Conforms G) (hr : r.Conforms G) (ha : G.Asks (.binary .and l r)) :
    (create l r).Conforms G := by
  induction hn : l.size+r.size using Nat.strongRecOn generalizing l r with
  | ind n ih =>
    subst hn
    unfold create
    split
    · trivial
    next cl _ =>
      have hs := Refines.swap h apply_and_comm
      have hask : G.Asks (.binary .and r (.constant cl)) :=
        Grammar.asks_and fun r' => h.2.2 ▸ ha.node_and r'
      refine AndExpr_createPartial_conforms (fun a c hlt h' ha' hk => ?_) hs.wf hr hask
      exact ih _ (by grind) h' ha' trivial hk rfl
    · refine AndExpr_createPartial_conforms (fun a c hlt h' ha' hk => ?_) h hl ha
      exact ih _ (by grind) h' ha' trivial hk rfl
    · exact AndExpr_create_conforms
        (fun l' r' hlt h' hl' hr' hk => ih _ hlt h' hl' hr' hk rfl) h hl hr ha

lemma AndExpr.create_conforms_bool (hl : Operand G 1 l) (hr : Operand G 1 r) :
    (create l r).Conforms G :=
  create_conforms (hl.wf_binary _ hr) hl.conforms hr.conforms (Grammar.asks_and_bool hl.width)

lemma unalignedHigh_keeps (ha : a.Conforms G) (w s : Nat) : (n i : Nat) →
    ∀ ks, unalignedHigh a w s n i = some ks → ∀ k ∈ ks, k.Conforms G
  | 0, _, ks, h => by
    cases h
    exact nofun
  | n+1, i, ks, h => by
    simp only [unalignedHigh,bind_eq_some_iff,map_eq_some_iff] at h
    obtain ⟨e,he,rest,hrest,rfl⟩ := h
    exact forall_mem_cons.mpr ⟨create_keeps _ _ ha e he,
      unalignedHigh_keeps ha w s n (i+8) rest hrest⟩

lemma unalignedLow_keeps (hb : b.Conforms G) (s : Nat) : (n : Nat) →
    ∀ ks, unalignedLow b s n = some ks → ∀ k ∈ ks, k.Conforms G
  | 0, ks, h => by
    cases h
    exact nofun
  | n+1, ks, h => by
    simp only [unalignedLow,bind_eq_some_iff,map_eq_some_iff] at h
    obtain ⟨e,he,rest,hrest,rfl⟩ := h
    exact forall_mem_cons.mpr ⟨create_keeps _ _ hb e he,unalignedLow_keeps hb s n rest hrest⟩

lemma unalignedRead_keeps {ret : Expr} {s1 s2 : APInt} (hret : ret.Conforms G)
    (ha : a.Conforms G) (hb : b.Conforms G) : Keeps G (unalignedRead ret a b s1 s2) := by
  unfold unalignedRead
  split
  · exact .none
  split
  · exact .some hret
  split
  · exact .some hret
  intro r hr
  obtain ⟨high,low,hhigh,hlow,hr⟩ := bind_bind_eq_some hr
  exact ConcatExpr.createN_keeps (high ++ low) (forall_mem_append.mpr
    ⟨unalignedHigh_keeps ha _ _ _ _ high hhigh,unalignedLow_keeps hb _ _ low hlow⟩) r hr

lemma SimplifyUnalignedReadPattern_keeps (h : e.Conforms G) :
    Keeps G (SimplifyUnalignedReadPattern e) := by
  unfold SimplifyUnalignedReadPattern
  split
  · exact unalignedRead_keeps h h.1.1 h.2.1.1
  · exact unalignedRead_keeps h h.2.1.1 h.1.1
  · exact .some h

lemma OrExpr.create_keeps (hl : l.Conforms G) (hr : r.Conforms G) : Keeps G (create l r) := by
  induction hn : l.size+r.size using Nat.strongRecOn generalizing l r with
  | ind n ih =>
    subst hn
    have hpart : ∀ (x : Expr) (c : APInt), x.size+1 ≤ l.size+r.size → x.Conforms G →
        Keeps G (OrExpr_createPartial x c) := by
      intro x c hx hxc
      unfold OrExpr_createPartial
      split
      · exact .some trivial
      split
      · exact .some hxc
      split
      · refine ih _ ?_ hxc.1 trivial rfl
        grind
      · exact .some ⟨hxc,trivial,G.node_or _ _⟩
    unfold create
    split
    · exact .some trivial
    · exact hpart _ _ (by grind) hr
    · exact hpart _ _ (by grind) hl
    · unfold OrExpr_create
      split
      · exact .some trivial
      split
      next b hb =>
        have hs := absorbed_size hb
        exact ih _ (by omega) (absorbed_conforms hl hb) hr rfl
      split
      next b hb =>
        have hs := absorbed_size hb
        exact ih _ (by omega) hl (absorbed_conforms hr hb) rfl
      · exact SimplifyUnalignedReadPattern_keeps ⟨hl,hr,G.node_or _ _⟩

lemma EqExpr_create_conforms (hl : l.Conforms G) (hr : r.Conforms G) :
    (EqExpr_create l r).Conforms G := by
  unfold EqExpr_create
  split
  · trivial
  · exact ⟨hl,hr,G.node_eq _ _⟩

lemma orAll_keeps {mayBe : Nat → Option Expr} (hm : ∀ i, Keeps G (mayBe i)) :
    (is : List Nat) → {res : Expr} → res.Conforms G → Keeps G (orAll mayBe is res)
  | [], _, h => .some h
  | i :: is, _, h => by
    unfold orAll
    refine .bind (hm i) fun e he => ?_
    exact .bind (OrExpr.create_keeps h he) fun r hr => orAll_keeps hm is hr

variable {cl : APInt} {ul : UpdateList} {index : Expr}

lemma TryConstArrayOpt_keeps {eqIndex : Nat → Option Expr} (h : (read ul index).Conforms G)
    (hi : ∀ i, Keeps G (eqIndex i)) : Keeps G (TryConstArrayOpt cl ul index eqIndex) := by
  unfold TryConstArrayOpt
  split
  · exact .some (EqExpr_create_conforms trivial h)
  split
  · exact .some (EqExpr_create_conforms trivial h)
  · exact orAll_keeps hi _ trivial

lemma Expr.wf_eq_alloc (h : e.WF) (v : Nat) : (binary .eq e (ConstantExpr.alloc v e.width)).WF :=
  ⟨h,⟨e.width_pos h,e.width_lt h⟩,rfl⟩

lemma EqExpr_createPartialR_keeps {r : Expr}
    (ihc : ∀ (x : Expr) (c : APInt), x.size < r.size → (binary .eq x (.constant c)).WF →
      x.Conforms G → Keeps G (EqExpr.create x (.constant c)))
    (ihp : ∀ (c : APInt) (x : Expr), x.size < r.size → (binary .eq (.constant c) x).WF →
      x.Conforms G → Keeps G (EqExpr_createPartialR c x))
    (h : (binary .eq (.constant cl) r).WF) (hr : r.Conforms G) :
    Keeps G (EqExpr_createPartialR cl r) := by
  have halloc : Keeps G (some (EqExpr_create (.constant cl) r)) :=
    .some (EqExpr_create_conforms trivial hr)
  obtain ⟨hcl,hrw,hw⟩ := h
  simp only [width] at hw
  unfold EqExpr_createPartialR
  split
  · split
    · exact .some hr
    · split
      · split
        · exact .some hr.2.1
        · exact halloc
      next a b =>
        have hza := wf_eq_alloc hrw.1 0
        have hzb := wf_eq_alloc hrw.2.1 0
        refine .bind_yields (ihc a _ ?_ hza hr.1) (EqExpr.create_yields hza) fun na hna href => ?_
        · grind
        refine .bind_yields (ihc b _ ?_ hzb hr.2.1) (EqExpr.create_yields hzb) fun nb hnb hreg => ?_
        · grind
        exact .some (AndExpr.create_conforms_bool (.of_refines href rfl hna)
          (.of_refines hreg rfl hnb))
      · exact halloc
  · split
    next src w =>
      split
      · exact ihc src _ (by grind) (wf_eq_alloc hrw.1 cl.value) hr.1
      · exact .some trivial
    next src w =>
      split
      · exact ihc src _ (by grind) (wf_eq_alloc hrw.1 cl.value) hr.1
      · exact .some trivial
    next c1 b =>
      refine ihp _ b (by grind) ⟨hcl,hrw.2.1,?_⟩ hr.2.1
      exact hw.trans hrw.2.2
    next c1 b =>
      refine ihp _ b (by grind) ⟨hrw.1,hrw.2.1,hrw.2.2⟩ hr.2.1
    next ul index =>
      refine TryConstArrayOpt_keeps hr fun i => ?_
      exact ihc index _ (by grind) (wf_eq_alloc hrw.2.1 i) hr.2
    · exact halloc

lemma EqExpr_keeps (n : Nat) :
    (∀ l r : Expr, l.size+r.size ≤ n → (binary .eq l r).WF → l.Conforms G →
      r.Conforms G → Keeps G (EqExpr.create l r)) ∧
    (∀ (c : APInt) (r : Expr), r.size < n → (binary .eq (.constant c) r).WF →
      r.Conforms G → Keeps G (EqExpr_createPartialR c r)) := by
  induction n with
  | zero =>
    refine ⟨fun l r hn _ => ?_,fun c r hn _ => by omega⟩
    have := l.size_pos
    omega
  | succ n ih =>
    have hpart : ∀ (c : APInt) (r : Expr), r.size < n+1 →
        (binary .eq (.constant c) r).WF → r.Conforms G → Keeps G (EqExpr_createPartialR c r) := by
      intro c r hn h hr
      refine EqExpr_createPartialR_keeps (fun x d hx h' hx' => ih.1 x _ ?_ h' hx' trivial)
        (fun d x hx => ih.2 d x (by omega)) h hr
      grind
    refine ⟨fun l r hn h hl hr => ?_,hpart⟩
    unfold EqExpr.create
    split
    · exact .some trivial
    · exact hpart _ _ (by grind) h hr
    · exact hpart _ _ (by grind) ⟨h.2.1,h.1,h.2.2.symm⟩ hl
    · exact .some (EqExpr_create_conforms hl hr)

lemma EqExpr.create_keeps (h : (binary .eq l r).WF) (hl : l.Conforms G)
    (hr : r.Conforms G) : Keeps G (create l r) :=
  (EqExpr_keeps _).1 l r le_rfl h hl hr

lemma EqExpr_createPartialR_keeps' {r : Expr}
    (h : (binary .eq (.constant cl) r).WF) (hr : r.Conforms G) :
    Keeps G (EqExpr_createPartialR cl r) :=
  (EqExpr_keeps _).2 cl r (Nat.lt_succ_self _) h hr

lemma Expr.createIsZero_keeps (h : e.WF) (he : e.Conforms G) : Keeps G e.createIsZero :=
  EqExpr.create_keeps (wf_isZero h) he trivial

lemma XorExpr_createPartialR_keeps {r : Expr}
    (h : (binary .xor (.constant cl) r).WF) (hr : r.Conforms G) :
    Keeps G (XorExpr_createPartialR cl r) := by
  unfold XorExpr_createPartialR
  split
  · exact .some hr
  split
  next hw =>
    refine EqExpr_createPartialR_keeps' ⟨⟨by decide,by decide⟩,h.2.1,?_⟩ hr
    exact hw.symm.trans h.2.2
  · exact .some ⟨trivial,hr,G.node_xor _ _⟩

lemma XorExpr_create_conforms (hl : l.Conforms G) (hr : r.Conforms G) :
    (XorExpr_create l r).Conforms G := by
  unfold XorExpr_create
  split
  · trivial
  split
  · trivial
  · exact ⟨hl,hr,G.node_xor _ _⟩

variable {full : Expr → Expr → Option Expr}

lemma createR_keeps {partialR : APInt → Expr → Option Expr}
    {partialL : Expr → APInt → Option Expr} (hR : ∀ c, l = .constant c → Keeps G (partialR c r))
    (hL : ∀ c, r = .constant c → Keeps G (partialL l c)) (hf : Keeps G (full l r)) :
    Keeps G (createR k partialR partialL full l r) := by
  unfold createR
  split
  · exact .some trivial
  · exact hR _ rfl
  · exact hL _ rfl
  · exact hf

lemma XorExpr.create_keeps (h : (binary .xor l r).WF) (hl : l.Conforms G)
    (hr : r.Conforms G) : Keeps G (create l r) := by
  refine createR_keeps (fun c hc => ?_) (fun c hc => ?_) (.some (XorExpr_create_conforms hl hr))
  · subst hc
    exact XorExpr_createPartialR_keeps h hr
  · subst hc
    exact XorExpr_createPartialR_keeps ⟨h.2.1,h.1,h.2.2.symm⟩ hl

lemma linear_partialR_keeps {r : Expr} (cl : APInt) (hr : Operand G cl.width r) :
    Keeps G (AddExpr_createPartialR cl r) ∧ Keeps G (SubExpr_createPartialR cl r) := by
  induction hn : r.size using Nat.strongRecOn generalizing r cl with
  | ind n ih =>
    have hxor : Keeps G (XorExpr_createPartialR cl r) := by
      refine XorExpr_createPartialR_keeps ⟨?_,hr.wf,hr.width.symm⟩ hr.conforms
      exact ⟨hr.width ▸ r.width_pos hr.wf,hr.width ▸ r.width_lt hr.wf⟩
    have hin : ∀ {k : BinaryKind} {b x : Expr} (c : APInt), r = .binary k b x →
        k.isCompare = false → c.width = cl.width →
          Keeps G (AddExpr_createPartialR c x) ∧ Keeps G (SubExpr_createPartialR c x) := by
      rintro k b x c rfl hk hcw
      refine ih x.size ?_ c (hcw ▸ (hr.of_binary hk).2) rfl
      rw [← hn,size]; omega
    constructor
    · unfold AddExpr_createPartialR
      split
      · exact hxor
      rename_i hw1
      split
      · exact .some hr.conforms
      split
      · exact .some trivial
      · exact (hin (cl.binary .add _) rfl rfl rfl).1
      · exact .some trivial
      · exact (hin (cl.binary .add _) rfl rfl rfl).2
      · exact .some ⟨trivial,hr.conforms,G.node_plain _ rfl hw1⟩
    · unfold SubExpr_createPartialR
      split
      · exact hxor
      rename_i hw1
      split
      · exact .some trivial
      · exact (hin (cl.binary .sub _) rfl rfl rfl).2
      · exact .some trivial
      · exact (hin (cl.binary .sub _) rfl rfl rfl).1
      · exact .some ⟨trivial,hr.conforms,G.node_plain _ rfl hw1⟩

section
variable {w : Nat} {c : APInt} {e : Expr} (hc : Operand G w (.constant c)) (he : Operand G w e)
include hc he

lemma AddExpr_createPartialR_keeps : Keeps G (AddExpr_createPartialR c e) := by
  obtain rfl : c.width = w := hc.width
  exact (linear_partialR_keeps c he).1

lemma AddExpr.createConst_keeps : Keeps G (createConst c e) := by
  unfold createConst
  split
  · exact .some trivial
  · exact AddExpr_createPartialR_keeps hc he

lemma SubExpr.createConst_keeps : Keeps G (createConst c e) := by
  obtain rfl : c.width = w := hc.width
  unfold createConst
  split
  · exact .some trivial
  · exact (linear_partialR_keeps c he).2

lemma SubExpr_createPartial_keeps : Keeps G (SubExpr_createPartial e c) :=
  AddExpr_createPartialR_keeps ⟨hc.wf,hc.width,trivial⟩ he

lemma SubExpr.createMinus_keeps : Keeps G (createMinus e c) := by
  unfold createMinus
  split
  · exact .some trivial
  · exact SubExpr_createPartial_keeps hc he

end

def LinearKeeps (G : Grammar) (w n : Nat) : Prop :=
  ∀ x y : Expr, x.size+y.size < n → Operand G w x → Operand G w y →
    Keeps G (AddExpr.create x y) ∧ Keeps G (SubExpr.create x y)

lemma LinearKeeps.bind_add {w n : Nat} (ih : LinearKeeps G w n) (hn : x.size+y.size < n)
    (hx : Operand G w x) (hy : Operand G w y)
    (hf : ∀ z, Operand G w z → Keeps G (f z)) : Keeps G ((AddExpr.create x y).bind f) :=
  .bind_yields (ih x y hn hx hy).1 (AddExpr.create_yields (hx.wf_binary _ hy))
    fun z hz href => hf z (.of_refines href hx.width hz)

lemma LinearKeeps.bind_sub {w n : Nat} (ih : LinearKeeps G w n) (hn : x.size+y.size < n)
    (hx : Operand G w x) (hy : Operand G w y)
    (hf : ∀ z, Operand G w z → Keeps G (f z)) : Keeps G ((SubExpr.create x y).bind f) :=
  .bind_yields (ih x y hn hx hy).2 (SubExpr.create_yields (hx.wf_binary _ hy))
    fun z hz href => hf z (.of_refines href hx.width hz)

lemma AddExpr_create_keeps {w : Nat} (ih : LinearKeeps G w (l.size+r.size))
    (hl : Operand G w l) (hr : Operand G w r) : Keeps G (AddExpr_create l r) := by
  unfold AddExpr_create
  split
  · exact .some (XorExpr_create_conforms hl.conforms hr.conforms)
  rename_i hw1
  split
  · obtain ⟨hk,ha⟩ := hl.of_binary rfl
    exact ih.bind_add (by grind) ha hr fun _ =>
      AddExpr.createConst_keeps hk
  · obtain ⟨hk,ha⟩ := hl.of_binary rfl
    exact ih.bind_sub (by grind) hr ha fun _ =>
      AddExpr.createConst_keeps hk
  · obtain ⟨hk,hb⟩ := hr.of_binary rfl
    exact ih.bind_add (by grind) hl hb fun _ =>
      AddExpr.createConst_keeps hk
  · obtain ⟨hk,hb⟩ := hr.of_binary rfl
    exact ih.bind_sub (by grind) hl hb fun _ =>
      AddExpr.createConst_keeps hk
  · exact .some ⟨hl.conforms,hr.conforms,G.node_plain _ rfl hw1⟩

lemma SubExpr_create_keeps {w : Nat} (ih : LinearKeeps G w (l.size+r.size))
    (hl : Operand G w l) (hr : Operand G w r) : Keeps G (SubExpr_create l r) := by
  unfold SubExpr_create
  split
  · exact .some (XorExpr_create_conforms hl.conforms hr.conforms)
  rename_i hw1
  split
  · exact .some trivial
  split
  · obtain ⟨hk,ha⟩ := hl.of_binary rfl
    exact ih.bind_sub (by grind) ha hr fun _ =>
      AddExpr.createConst_keeps hk
  · obtain ⟨hk,ha⟩ := hl.of_binary rfl
    exact ih.bind_add (by grind) ha hr fun _ =>
      SubExpr.createConst_keeps hk
  · obtain ⟨hk,hb⟩ := hr.of_binary rfl
    exact ih.bind_sub (by grind) hl hb fun _ =>
      SubExpr.createMinus_keeps hk
  · obtain ⟨hk,hb⟩ := hr.of_binary rfl
    exact ih.bind_add (by grind) hl hb fun _ =>
      SubExpr.createMinus_keeps hk
  · exact .some ⟨hl.conforms,hr.conforms,G.node_plain _ rfl hw1⟩

lemma linearKeeps (G : Grammar) (w n : Nat) : LinearKeeps G w n := by
  induction n with
  | zero => exact fun _ _ h => absurd h (by omega)
  | succ n ih =>
    intro l r hn hl hr
    have ih : LinearKeeps G w (l.size+r.size) := fun x y hlt => ih x y (by omega)
    constructor
    · unfold AddExpr.create
      split
      · exact AddExpr.createConst_keeps hl hr
      · exact AddExpr_createPartialR_keeps hr hl
      · exact AddExpr_create_keeps ih hl hr
    · unfold SubExpr.create
      split
      · exact SubExpr.createConst_keeps hl hr
      · exact SubExpr_createPartial_keeps hr hl
      · exact SubExpr_create_keeps ih hl hr

lemma MulExpr_createPartialR_conforms {r : Expr}
    (h : (binary .mul (.constant cl) r).WF) (hr : r.Conforms G) :
    (MulExpr_createPartialR cl r).Conforms G := by
  unfold MulExpr_createPartialR
  split
  next hw =>
    have hr1 : r.width = 1 := h.2.2.symm.trans hw
    refine AndExpr_createPartial_conforms (fun a c _ h' ha hk => ?_) ⟨h.2.1,h.1,h.2.2.symm⟩ hr
      (Grammar.asks_and_bool hr1)
    exact AndExpr.create_conforms h' ha trivial hk
  next hw =>
    split
    · exact hr
    split
    · trivial
    · exact ⟨trivial,hr,G.node_plain _ rfl hw⟩

lemma MulExpr.create_keeps (h : (binary .mul l r).WF) (hl : l.Conforms G)
    (hr : r.Conforms G) : Keeps G (create l r) := by
  refine createR_keeps (fun c hc => ?_) (fun c hc => ?_) ?_
  · subst hc
    exact .some (MulExpr_createPartialR_conforms h hr)
  · subst hc
    exact .some (MulExpr_createPartialR_conforms ⟨h.2.1,h.1,h.2.2.symm⟩ hl)
  · refine .some ?_
    split
    next hw =>
      exact ⟨hl,hr,hw ▸ G.node_and_bool r⟩
    next hw =>
      exact ⟨hl,hr,G.node_plain _ rfl hw⟩

lemma createFold_keeps (h : Keeps G (full l r)) : Keeps G (createFold k full l r) := by
  unfold createFold
  split
  · exact .some trivial
  · exact h

lemma createDivision_keeps {bool : Expr → Expr}
    (hb : (bool l).Conforms G) (hl : l.Conforms G) (hr : r.Conforms G)
    (ha : l.width ≠ 1 → G.node k l.width r) : Keeps G (createDivision k bool l r) := by
  unfold createDivision
  split
  · split
    · exact .none
    · exact .some trivial
  split
  · exact .some hb
  next hw =>
    exact .some ⟨hl,hr,ha hw⟩

lemma createFold_bool_keeps {bool : Expr → Expr → Option Expr}
    (hbool : l.width = 1 → Keeps G (bool l r)) (hl : l.Conforms G) (hr : r.Conforms G)
    (ha : l.width ≠ 1 → G.node k l.width r) : Keeps G (createFold k
      (fun l r => if l.width = 1 then bool l r else some (.binary k l r)) l r) := by
  refine createFold_keeps ?_
  split
  · exact hbool ‹_›
  · exact .some ⟨hl,hr,ha ‹_›⟩

lemma andIsZero_keeps (hl : Operand G 1 l) (hrw : r.WF) (hr : r.Conforms G) :
    Keeps G (andIsZero l r) :=
  .bind_yields (createIsZero_keeps hrw hr) (createIsZero_yields hrw)
    fun _ hn href => .some (AndExpr.create_conforms_bool hl (.of_refines href rfl hn))

lemma isZeroAnd_keeps (hlw : l.WF) (hl : l.Conforms G) (hr : Operand G 1 r) :
    Keeps G (l.createIsZero.bind fun n => some (AndExpr.create n r)) :=
  .bind_yields (createIsZero_keeps hlw hl) (createIsZero_yields hlw)
    fun _ hn href => .some (AndExpr.create_conforms_bool (.of_refines href rfl hn) hr)

lemma UltExpr.create_keeps (hlw : l.WF) (hrw : r.WF) (hw : l.width = r.width)
    (hl : l.Conforms G) (hr : r.Conforms G) : Keeps G (create l r) :=
  createFold_bool_keeps (fun hw1 => isZeroAnd_keeps hlw hl ⟨hrw,hw.symm.trans hw1,hr⟩) hl hr
    (G.node_plain _ rfl)

lemma UleExpr.create_keeps (hlw : l.WF) (hl : l.Conforms G) (hr : r.Conforms G) :
    Keeps G (create l r) :=
  createFold_bool_keeps (fun _ => .bind (createIsZero_keeps hlw hl) fun _ hn =>
    OrExpr.create_keeps hn hr) hl hr (G.node_plain _ rfl)

lemma SltExpr.create_keeps (hlw : l.WF) (hrw : r.WF)
    (hl : l.Conforms G) (hr : r.Conforms G) : Keeps G (create l r) :=
  createFold_bool_keeps (fun hw1 => andIsZero_keeps ⟨hlw,hw1,hl⟩ hrw hr) hl hr
    (G.node_plain _ rfl)

lemma SleExpr.create_keeps (hrw : r.WF) (hl : l.Conforms G) (hr : r.Conforms G) :
    Keeps G (create l r) :=
  createFold_bool_keeps (fun _ => .bind (createIsZero_keeps hrw hr) fun _ hn =>
    OrExpr.create_keeps hl hn) hl hr (G.node_plain _ rfl)

lemma NeExpr.create_keeps (h : (binary .eq l r).WF) (hl : l.Conforms G)
    (hr : r.Conforms G) : Keeps G (create l r) := by
  refine .bind_yields (EqExpr.create_keeps h hl hr) (EqExpr.create_yields h) fun e he href => ?_
  exact EqExpr.create_keeps ⟨⟨by decide,by decide⟩,href.wf,href.width.symm⟩ trivial he

lemma BinaryKind.create_keeps (h : (binary k l r).WF)
    (hl : l.Conforms G) (hr : r.Conforms G) (ha : G.Asks (.binary k l r)) :
    Keeps G (k.create l r) := by
  obtain ⟨hlw,hrw,hw⟩ := h
  cases k with
  | add => exact (linearKeeps G _ _ l r (Nat.lt_succ_self _) ⟨hlw,hw,hl⟩ ⟨hrw,rfl,hr⟩).1
  | sub => exact (linearKeeps G _ _ l r (Nat.lt_succ_self _) ⟨hlw,hw,hl⟩ ⟨hrw,rfl,hr⟩).2
  | mul => exact MulExpr.create_keeps ⟨hlw,hrw,hw⟩ hl hr
  | udiv => exact createDivision_keeps hl hl hr ha
  | sdiv => exact createDivision_keeps hl hl hr ha
  | urem => exact createDivision_keeps trivial hl hr ha
  | srem => exact createDivision_keeps trivial hl hr ha
  | and => exact .some (AndExpr.create_conforms ⟨hlw,hrw,hw⟩ hl hr ha)
  | or => exact OrExpr.create_keeps hl hr
  | xor => exact XorExpr.create_keeps ⟨hlw,hrw,hw⟩ hl hr
  | shl =>
    refine createFold_keeps ?_
    split
    next hw1 =>
      exact andIsZero_keeps ⟨hlw,hw1,hl⟩ hrw hr
    rename_i hw1
    split
    · exact .some hl
    · exact .some ⟨hl,hr,ha hw1⟩
  | lshr => exact createFold_bool_keeps (fun hw1 => andIsZero_keeps ⟨hlw,hw1,hl⟩ hrw hr) hl hr ha
  | ashr => exact createFold_bool_keeps (fun _ => .some hl) hl hr (G.node_plain _ rfl)
  | eq => exact EqExpr.create_keeps ⟨hlw,hrw,hw⟩ hl hr
  | ne => exact NeExpr.create_keeps ⟨hlw,hrw,hw⟩ hl hr
  | ult => exact UltExpr.create_keeps hlw hrw hw hl hr
  | ule => exact UleExpr.create_keeps hlw hl hr
  | ugt => exact UltExpr.create_keeps hrw hlw hw.symm hr hl
  | uge => exact UleExpr.create_keeps hrw hr hl
  | slt => exact SltExpr.create_keeps hlw hrw hl hr
  | sle => exact SleExpr.create_keeps hrw hl hr
  | sgt => exact SltExpr.create_keeps hrw hlw hr hl
  | sge => exact SleExpr.create_keeps hlw hr hl

lemma SelectExpr.createBool_keeps {c f : Expr} (h : (select c t f).WF)
    (hc : c.Conforms G) (ht : t.Conforms G) (hf : f.Conforms G) : Keeps G (createBool c t f) := by
  obtain ⟨hcw,htw,hfw,hc1,hw⟩ := h
  unfold createBool
  split
  next hw1 =>
    split
    · split
      · exact OrExpr.create_keeps hc hf
      · exact isZeroAnd_keeps hcw hc ⟨hfw,hw.symm.trans hw1,hf⟩
    · split
      · exact .bind (createIsZero_keeps hcw hc) fun n hn => OrExpr.create_keeps hn ht
      · exact .some (AndExpr.create_conforms_bool ⟨hcw,hc1,hc⟩ ⟨htw,hw1,ht⟩)
    · exact .some ⟨hc,ht,hf⟩
  · exact .some ⟨hc,ht,hf⟩

lemma SelectExpr.create_keeps {c f : Expr} (h : (select c t f).WF)
    (hc : c.Conforms G) (ht : t.Conforms G) (hf : f.Conforms G) : Keeps G (create c t f) := by
  induction hn : t.size+f.size using Nat.strongRecOn generalizing c t f with
  | ind n ih =>
    subst hn
    obtain ⟨hcw,htw,hfw,hc1,hw⟩ := h
    -- the merged condition is Boolean, as both of its parts are
    have hand : ∀ {d x y : Expr} {w : Nat}, Operand G 1 d → Operand G w x → Operand G w y →
        x.size+y.size < t.size+f.size → Keeps G (create (AndExpr.create c d) x y) := by
      intro d x y w hd hx hy hlt
      have href := AndExpr.create_refines (l := c) (r := d) ⟨hcw,hd.wf,hc1.trans hd.width.symm⟩
      exact ih _ hlt ⟨href.wf,hx.wf,hy.wf,href.width.trans hc1,hx.width.trans hy.width.symm⟩
        (AndExpr.create_conforms_bool ⟨hcw,hc1,hc⟩ hd) hx.conforms hy.conforms rfl
    have hor : ∀ {d x y : Expr} {w : Nat}, Operand G 1 d → Operand G w x → Operand G w y →
        x.size+y.size < t.size+f.size →
          Keeps G ((OrExpr.create c d).bind fun e => create e x y) := by
      intro d x y w hd hx hy hlt
      have hwf : (binary .or c d).WF := ⟨hcw,hd.wf,hc1.trans hd.width.symm⟩
      refine .bind_yields (OrExpr.create_keeps hc hd.conforms)
        (OrExpr.create_yields hwf (OrExpr.safe_bool hwf hc1)) fun e he href => ?_
      exact ih _ hlt ⟨href.wf,hx.wf,hy.wf,href.width.trans hc1,
        hx.width.trans hy.width.symm⟩ he hx.conforms hy.conforms rfl
    unfold create
    split
    · refine .some ?_
      split
      · exact ht
      · exact hf
    split
    · exact .some ht
    split
    next sc st sf _ _ =>
      obtain ⟨hscw,hstw,hsfw,hsc1,hsw⟩ := htw
      have hnot := NotExpr.create_refines hscw
      split
      · exact hand ⟨hscw,hsc1,ht.1⟩ ⟨hstw,hw,ht.2.1⟩ ⟨hfw,rfl,hf⟩
          (by grind)
      split
      · exact hand (.of_refines hnot hsc1 (NotExpr.create_conforms ht.1))
          ⟨hsfw,hsw.symm.trans hw,ht.2.2⟩ ⟨hfw,rfl,hf⟩ (by grind)
      · exact .some ⟨hc,ht,hf⟩
    next sc st sf _ _ _ =>
      obtain ⟨hscw,hstw,hsfw,hsc1,hsw⟩ := hfw
      have hnot := NotExpr.create_refines hscw
      split
      · exact hor ⟨hscw,hsc1,hf.1⟩ ⟨htw,hw.trans hsw,ht⟩ ⟨hsfw,rfl,hf.2.2⟩
          (by grind)
      split
      · exact hor (.of_refines hnot hsc1 (NotExpr.create_conforms hf.1)) ⟨htw,hw,ht⟩
          ⟨hstw,rfl,hf.2.1⟩ (by grind)
      · exact .some ⟨hc,ht,hf⟩
    · exact createBool_keeps ⟨hcw,htw,hfw,hc1,hw⟩ hc ht hf

lemma UpdateList.Conforms.nodes : {ul : UpdateList} → ul.Conforms G →
    ∀ n ∈ ul.nodes, n.2.Conforms G
  | .root _, _, n, hn => by cases hn
  | .extend next i v, h, n, hn => by
    rcases mem_cons.mp hn with rfl | hn
    · exact h.2.2
    · exact nodes h.1 n hn

lemma ReadExpr.rollback_keeps {alloc : Expr} (ha : alloc.Conforms G) :
    (un : List (Expr × Expr)) → (∀ n ∈ un, n.2.Conforms G) → Keeps G (rollback alloc index un)
  | [], _ => .some ha
  | (i,v) :: un, h => by
    unfold rollback
    cases EqExpr.create index i with
    | none => exact .none
    | some cond =>
      simp only [bind_some]
      split
      · split
        · exact .some (h (i,v) mem_cons_self)
        · exact rollback_keeps ha un fun n hn => h n (mem_cons_of_mem _ hn)
      · exact .some ha

lemma ReadExpr.rollback_read_keeps (hul : ul.Conforms G) (hi : index.Conforms G) :
    Keeps G (rollback (.read ul index) index ul.nodes) :=
  have ha : (Expr.read ul index).Conforms G := ⟨hul,hi⟩
  rollback_keeps ha _ (UpdateList.Conforms.nodes hul)

lemma ReadExpr.create_keeps (hul : ul.Conforms G) : {index : Expr} → (read ul index).WF →
    index.Conforms G → Keeps G (create ul index)
  | .select c t f, h, hc => by
    unfold create createWith
    split
    · obtain ⟨hulw,⟨hcw,htw,hfw,hc1,hw⟩,h32⟩ := h
      have ht : (read ul t).WF := ⟨hulw,htw,h32⟩
      have hf : (read ul f).WF := ⟨hulw,hfw,hw.symm.trans h32⟩
      refine .bind_yields (create_keeps hul ht hc.2.1) (create_yields ht) fun rt hrt hreft => ?_
      refine .bind_yields (create_keeps hul hf hc.2.2) (create_yields hf) fun rf hrf hreff => ?_
      exact SelectExpr.create_keeps ⟨hcw,hreft.wf,hreff.wf,hc1,hreft.width.trans hreff.width.symm⟩
        hc.1 hrt hrf
    · exact rollback_read_keeps hul hc
  | .constant _, _, hc | .read _ _, _, hc | .concat _ _, _, hc | .extract _ _ _, _, hc
  | .not _, _, hc | .zext _ _, _, hc | .sext _ _, _, hc | .binary _ _ _, _, hc =>
    rollback_read_keeps hul hc

def Expr.KidsConform (G : Grammar) : Expr → Prop
  | .read ul i => ul.Conforms G ∧ i.Conforms G
  | e => ∀ k ∈ e.kids, k.Conforms G

lemma Expr.create_keeps (h : e.WF) (hk : e.KidsConform G) (ha : G.Asks e) : Keeps G e.create := by
  cases e with
  | constant c => exact .some trivial
  | read ul i => exact ReadExpr.create_keeps hk.1 h hk.2
  | select c t f =>
    exact SelectExpr.create_keeps h (hk c (by simp [kids])) (hk t (by simp [kids]))
      (hk f (by simp [kids]))
  | concat l r => exact ConcatExpr.create_keeps (hk l (by simp [kids])) (hk r (by simp [kids]))
  | extract x off w => exact create_keeps off w (hk x (by simp [kids]))
  | not x => exact .some (NotExpr.create_conforms (hk x (by simp [kids])))
  | zext x w => exact ZExtExpr.create_keeps w (hk x (by simp [kids]))
  | sext x w => exact SExtExpr.create_keeps w (hk x (by simp [kids]))
  | binary k l r =>
    exact BinaryKind.create_keeps h (hk l (by simp [kids])) (hk r (by simp [kids])) ha

/-- Under the assignment every shift amount is far below the wrap-around of 64 bits, masks
and left shifts fit 64 bits, and nothing is divided by the constant zero. -/
def Grammar.tame (a : Assignment) : Grammar where
  node k w r :=
    match k with
    | .and => w ≤ 64
    | .shl => w ≤ 64 ∧ r.eval a < 2^63
    | .lshr => r.eval a < 2^63
    | .udiv | .sdiv | .urem | .srem => r.isZero = false
    | _ => True
  ext _ _ := True
  slice _ _ := True
  node_or _ _ := trivial
  node_xor _ _ := trivial
  node_eq _ _ := trivial
  node_and _ h := h
  node_and_bool _ := by show 1 ≤ 64; decide
  node_plain {k} {w} _ hk _ := by
    cases k with
    | and | shl | lshr | udiv | sdiv | urem | srem => cases hk
    | _ => trivial
  ext_of_lt _ := trivial
  ext_mono _ _ := trivial
  slice_of_ne _ := trivial

lemma Expr.Conforms.shiftSafe {a : Assignment} {w : Nat} (hw : w < 2^32) :
    e.WF → e.Conforms (.tame a) → e.shiftSafe w := by
  fun_induction Expr.shiftSafe w e with
  | case1 l r ihl ihr => exact fun h hc => ⟨ihl h.1 hc.1,ihr h.2.1 hc.2⟩
  | case2 x _ ih => exact fun h hc => ih h.1 hc.1
  | case3 x _ ih => exact fun h hc => ih h.1 hc.1
  | case4 x _ _ ih => exact fun h hc => ih h.1 hc.1
  | case5 b shift ih =>
    intro h hc
    have hs : shift.value < 2^63 := hc.2.2
    exact ⟨fun _ _ => by omega,ih h.1 hc.1⟩
  | case6 x zw mask ih =>
    intro h hc
    have hm : zw ≤ 64 := hc.2.2
    have hzw : zw = mask.width := h.2.2
    exact ⟨by omega,ih h.1.1 hc.1.1⟩
  | case7 => exact fun _ _ => trivial

lemma UnalignedSafe.of_tame {s : Assignment} {s1 s2 : APInt}
    (hw : s1.width ≤ 64) (h1 : s1.value < 2^63) (h2 : s2.value < 2^63) (ha : a.WF)
    (hb : b.WF) (hac : a.Conforms (.tame s)) (hbc : b.Conforms (.tame s)) :
    UnalignedSafe a b s1 s2 := by
  refine ⟨hw,fun _ _ hsum => ⟨by omega,?_,?_⟩⟩
  · exact hac.shiftSafe (a.width_lt ha) ha
  · exact hbc.shiftSafe (a.width_lt ha) hb

lemma Expr.createSafe_of_tame {a : Assignment} (h : e.WF)
    (hk : e.KidsConform (.tame a)) : e.createSafe := by
  unfold createSafe
  split
  next x off w =>
    have hx := hk x (by simp [kids])
    have hlt := x.width_lt h.1
    have hw := h.2.2
    exact fun _ => (hx.shiftSafe (w := w) (by omega) h.1).extractSafe
  next x w =>
    have hx := hk x (by simp [kids])
    exact fun _ => (hx.shiftSafe h.2.2 h.1).extractSafe
  next x w =>
    have hx := hk x (by simp [kids])
    exact fun _ => (hx.shiftSafe h.2.2 h.1).extractSafe
  next l r =>
    exact ConcatExpr.mergeSafe_of_shiftSafe ((hk l (by simp [kids])).shiftSafe h.2.2 h.1)
  next l r =>
    have hl := hk l (by simp [kids])
    have hr := hk r (by simp [kids])
    unfold OrExpr.safe
    split
    next x s1 y s2 =>
      have hn : x.width ≤ 64 ∧ s1.value < 2^63 := hl.2.2
      have hw : x.width = s1.width := h.1.2.2
      exact .of_tame (by omega) hn.2 hr.2.2 h.1.1 h.2.1.1 hl.1 hr.1
    next y s2 x s1 =>
      have hn : x.width ≤ 64 ∧ s1.value < 2^63 := hr.2.2
      have hw : x.width = s1.width := h.2.1.2.2
      exact .of_tame (by omega) hn.2 hl.2.2 h.2.1.1 h.1.1 hr.1 hl.1
    · trivial
  · trivial

/-- Over tame operands every constructor returns, and what it returns is tame and may stand
for the node. -/
lemma Expr.create_tame {a : Assignment} (h : e.WF) (hk : e.KidsConform (.tame a))
    (ha : (Grammar.tame a).Asks e) (hz : e.dividesByZero = false) :
    ∃ r, e.create = some r ∧ Refines e r ∧ r.Conforms (.tame a) := by
  obtain ⟨r,hr,href⟩ := create_yields h (createSafe_of_tame h hk) hz
  exact ⟨r,hr,href,create_keeps h hk ha r hr⟩

end S2E
