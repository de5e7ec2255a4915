import HclSyntax.Proofs.Meaning.Chunk

namespace HclSyntax

/-- If the expression is a truth value or null, it stands at `r`. -/
def Expr.ConstantAt (r : SourceRange) : Expr → Prop
  | .literal (.bool _) r' | .literal .null r' => r' = r
  | _ => True

namespace Parser

variable {x : Likeness}

/-- A constant that begins with a name is that name. -/
def NamesConstants (e : Parser Expr) : Prop :=
  ∀ s : ParseState, s.cursor.peek.kind = .identifier → (e s).value.ConstantAt s.cursor.peek.range

/-- Expressions that are read alike in like places. -/
structure ReadAlike (x : Likeness) (e : Parser Expr) : Prop where
  framed : Framed e
  likewise : Likewise x e e
  constant : NamesConstants e

variable {opening opening' : Token} (ho : x.Like opening opening')
include ho

theorem likewise_reportComprehension (p : ComprehensionProblem) :
    Likewise x (reportComprehension opening p) (reportComprehension opening' p) :=
  likewise_peek.bind fun _ _ ht =>
    likewise_reportFirst _ ht.tokenRange (ho.tokenRange.between ht.tokenRange).some

theorem likewise_abandonComprehension :
    Likewise x (abandonComprehension opening) (abandonComprehension opening') := by
  unfold abandonComprehension
  rw [← ho.kind]
  exact (likewise_skipPast _).bind fun _ _ _ =>
    likewise_previousRange.map fun _ _ hr => (ho.tokenRange.between hr).placeholder

theorem likewise_inKeyword (key : Option String) (value : String) :
    Likewise x (inKeyword opening key value) (inKeyword opening' key value) := by
  refine likewise_atKeyword_bind fun b => ?_
  split
  · exact likewise_skip.done (.refl _)
  · exact (likewise_reportComprehension ho _).done (.refl _)

theorem likewise_binders : Likewise x (binders opening) (binders opening') := by
  refine likewise_peekKind_at fun k => ?_
  by_cases hk : k = .identifier
  · subst hk
    refine LikewiseAt.read_bind fun first first' hfirst hk => ?_
    rw [← hfirst.text (by rw [hk]; rfl)]
    refine likewise_peekKind_bind fun k => ?_
    split
    · exact likewise_inKeyword ho _ _
    refine likewise_skip.bind fun _ _ _ => likewise_peekKind_at fun k => ?_
    by_cases hk : k = .identifier
    · subst hk
      refine LikewiseAt.read_bind fun second second' hsecond hk => ?_
      rw [← hsecond.text (by rw [hk]; rfl)]
      exact likewise_inKeyword ho _ _
    · rw [if_pos hk, if_pos hk]
      exact ((likewise_reportComprehension ho _).done (.refl _)).at k
  · rw [if_pos hk, if_pos hk]
    exact ((likewise_reportComprehension ho _).done (.refl _)).at k

omit ho in
theorem likewise_groupingEllipsis : Likewise x groupingEllipsis groupingEllipsis := by
  refine likewise_peekKind_bind fun k => ?_
  split
  · exact likewise_read.map fun _ _ ht => ht.some
  · exact likewise_pure (.refl _)

theorem likewise_closeComprehension :
    Likewise x (closeComprehension opening) (closeComprehension opening') := by
  unfold closeComprehension
  rw [← ho.kind]
  refine likewise_peekKind_bind fun k => ?_
  split
  · exact likewise_skip.bind fun _ _ _ => likewise_previousRange
  · exact (likewise_reportComprehension ho _).bind fun _ _ _ =>
      (likewise_skipPast _).bind fun _ _ _ => likewise_previousRange

theorem likewise_checkResult {key key' : Option Expr} (hk : x.Like key key') {value value' : Expr}
    (hv : x.Like value value') {ellipsis ellipsis' : Option Token} (he : x.Like ellipsis ellipsis')
    {whole whole' : SourceRange} (hw : x.Like whole whole') :
    Likewise x (checkResult opening key value ellipsis whole)
      (checkResult opening' key' value' ellipsis' whole') := by
  unfold checkResult
  rw [← ho.kind]
  cases key with
  | none =>
    obtain rfl := hk.eq_none
    split
    · exact likewise_report _ hv.exprRange hw.some
    · cases ellipsis with
      | none =>
        obtain rfl := he.eq_none
        exact likewise_pure (.refl _)
      | some e =>
        obtain ⟨t', rfl, ht⟩ := he.of_some
        exact likewise_report _ ht.tokenRange hw.some
  | some k =>
    obtain ⟨k', rfl, hkey⟩ := hk.of_some
    split
    · exact likewise_pure (.refl _)
    · cases ellipsis with
      | none =>
        obtain rfl := he.eq_none
        exact (likewise_report _ hkey.exprRange hw.some).done (.refl _)
      | some e =>
        obtain ⟨t', rfl, ht⟩ := he.of_some
        exact (likewise_report _ hkey.exprRange hw.some).bind fun _ _ _ =>
          likewise_report _ ht.tokenRange hw.some

section
variable {e : Parser Expr} (he : ReadAlike x e)
include he

omit ho in
theorem likewise_resultPair : Likewise x (resultPair e) (resultPair e) := by
  refine he.likewise.bind fun first first' hfirst => likewise_peekKind_bind fun k => ?_
  split
  · exact likewise_skip.bind fun _ _ _ => he.likewise.map fun _ _ hv => hfirst.some.pair hv
  · exact likewise_pure (.pair (.refl _) hfirst)

omit ho in
theorem likewise_filter : Likewise x (filter e) (filter e) := by
  refine likewise_atKeyword_bind fun b => ?_
  split
  · exact likewise_skip.bind fun _ _ _ => he.likewise.map fun _ _ h => h.some
  · exact likewise_pure (.refl _)

omit ho he in
theorem like_comprehension {k : Option String} {v : String} {c c' value value' : Expr}
    {key key' condition condition' : Option Expr} {group : Bool} {o o' s s' w w' : SourceRange}
    (hc : x.Like c c') (hkey : x.Like key key') (hvalue : x.Like value value')
    (hcondition : x.Like condition condition') (hopen : x.Like o o') (hstop : x.Like s s')
    (hw : x.Like w w') :
    x.Like (Expr.comprehension k v c key value condition group o s w)
      (.comprehension k v c' key' value' condition' group o' s' w') := by
  refine ⟨?_, fun hx => by rw [hc.eq hx, hkey.eq hx, hvalue.eq hx, hcondition.eq hx, hopen.eq hx,
    hstop.eq hx, hw.eq hx]⟩
  change Expr.tree _ = Expr.tree _
  simp only [Expr.tree, Expr.treeOption_eq]
  exact (Tree.comprehension.injEq ..).mpr
    ⟨rfl, rfl, hc.same, hkey.same, hvalue.same, hcondition.same, rfl⟩

theorem likewise_comprehensionResult (keyVar : Option String) (valueVar : String)
    {collection collection' : Expr} (hc : x.Like collection collection') :
    Likewise x (comprehensionResult e opening keyVar valueVar collection)
      (comprehensionResult e opening' keyVar valueVar collection') := by
  refine (likewise_resultPair he).track_seq fun r r' lost hr => ?_
  obtain ⟨key, value⟩ := r
  obtain ⟨key', value'⟩ := r'
  dsimp only
  split
  · exact likewise_abandonComprehension ho
  refine likewise_groupingEllipsis.bind fun ellipsis ellipsis' hellipsis => ?_
  refine (likewise_filter he).track_seq fun condition condition' lost hcondition => ?_
  dsimp only
  split
  · exact likewise_abandonComprehension ho
  refine (likewise_closeComprehension ho).bind fun close close' hclose => ?_
  have hw := ho.tokenRange.between hclose
  refine (likewise_checkResult ho hr.fst hr.snd hellipsis hw).done ?_
  have hgroup : ellipsis.isSome = ellipsis'.isSome := by
    cases ellipsis with
    | none => rw [hellipsis.eq_none]
    | some t =>
      obtain ⟨t', rfl, -⟩ := hellipsis.of_some
      rfl
  rw [hgroup]
  exact like_comprehension hc hr.fst hr.snd hcondition ho.tokenRange hclose hw

theorem likewise_comprehension :
    Likewise x (comprehension e opening) (comprehension e opening') := by
  refine Likewise.withNewlines (likewise_skip.bind fun _ _ _ => ?_) fun _ => rfl
  refine (likewise_binders ho).bind fun names names' hnames => ?_
  obtain rfl := hnames.plain
  split
  · exact likewise_abandonComprehension ho
  refine he.likewise.track_seq fun collection collection' lost hc => ?_
  dsimp only
  split
  · exact likewise_abandonComprehension ho
  refine likewise_peekKind_bind fun k => ?_
  split
  · exact (likewise_reportComprehension ho _).bind fun _ _ _ => likewise_abandonComprehension ho
  · exact likewise_skip.bind fun _ _ _ => likewise_comprehensionResult ho he _ _ hc

end

omit ho in
/-- What a loop that gives up answers. -/
theorem likewise_skipPast_done {σ : Type} [Placed σ] (closer : TokenKind) {a a' : σ}
    (h : x.Like a a') : Likewise x (skipPast closer >>= fun _ => pure (a, false))
      (skipPast closer >>= fun _ => pure (a', false)) :=
  (likewise_skipPast closer).done (h.pair (.refl _))

/-- The key that an expression makes, told from what it says. -/
def bareKey (key : Tree) (k : TokenKind) (text : String) : Tree :=
  match key with
  | .literal (.bool _) | .literal .null =>
    if k = .identifier then .literal (.string text) else key
  | .scope [.root name] => .literal (.string name)
  | _ => key

omit ho in
theorem tree_objectKey {key : Expr} {start : Token}
    (h : start.kind = .identifier → key.ConstantAt start.range) :
    (objectKey key start).tree = bareKey key.tree start.kind start.text := by
  have hconstant {v : Value} {r : SourceRange} (hr : start.kind = .identifier → r = start.range) :
      Expr.tree (if start.kind = .identifier ∧ r = start.range then .literal (.string start.text) r
        else .literal v r) =
      if start.kind = .identifier then .literal (.string start.text) else .literal v := by
    by_cases hk : start.kind = .identifier
    · rw [if_pos ⟨hk, hr hk⟩, if_pos hk]
      rfl
    · rw [if_neg fun hc => hk hc.1, if_neg hk]
      rfl
  unfold objectKey
  split
  · exact hconstant h
  · exact hconstant h
  · rfl
  · rename_i hb hn hr
    unfold bareKey
    split
    · rename_i b ht
      cases key <;> cases ht
      exact absurd rfl (hb _ _)
    · rename_i ht
      cases key <;> cases ht
      exact absurd rfl (hn _)
    · rename_i name ht
      cases key <;> simp only [Expr.tree, reduceCtorEq, Tree.scope.injEq] at ht
      rename_i steps r
      obtain ⟨step, rfl, hstep⟩ := List.map_eq_singleton_iff.mp ht
      cases step <;> cases hstep
      exact absurd rfl (hr _ _ _)
    · rfl

section
variable {e : Parser Expr} (he : ReadAlike x e)
include he

theorem likewise_tupleStep {items items' : List Expr} (hi : x.Like items items') :
    Likewise x (tupleStep e opening items) (tupleStep e opening' items') := by
  refine likewise_peekKind_bind fun k => ?_
  split
  · exact likewise_skip.done (hi.pair (.refl _))
  refine he.likewise.track_seq fun item item' lost hitem => ?_
  have hitems := hi.append hitem.singleton
  dsimp only
  split
  · exact likewise_skipPast_done _ hitems
  refine likewise_peek.bind fun next next' hnext => ?_
  rw [← hnext.kind]
  split
  · exact likewise_skip.done (hitems.pair (.refl _))
  · exact likewise_skip.done (hitems.pair (.refl _))
  · exact (likewise_reportFirst _ hnext.tokenRange
      (ho.tokenRange.between hnext.tokenRange).some).bind fun _ _ _ =>
        likewise_skipPast_done _ hitems

theorem likewise_tuple : Likewise x (tuple e opening) (tuple e opening') := by
  refine Likewise.withNewlines (likewise_atKeyword_bind fun b => ?_) fun _ => rfl
  split
  · exact likewise_comprehension ho he
  refine (Likewise.iterate (advances_tupleStep he.framed) (advances_tupleStep he.framed)
    (fun _ _ => likewise_tupleStep ho he) (.refl [])).bind fun items items' hi => ?_
  refine likewise_previousRange.map fun close close' hc => ?_
  refine ⟨?_, fun hx => by rw [hi.eq hx, ho.eq hx, hc.eq hx]⟩
  change Expr.tree _ = Expr.tree _
  rw [Expr.tree, Expr.tree, Expr.treeAll_eq, Expr.treeAll_eq]
  exact congrArg Tree.tuple hi.same

end

omit ho in
theorem like_objectKey {key key' : Expr} (h : x.Like key key') {start start' : Token}
    (hs : x.Like start start') (hc : start.kind = .identifier → key.ConstantAt start.range)
    (hc' : start'.kind = .identifier → key'.ConstantAt start'.range) :
    x.Like (objectKey key start) (objectKey key' start') := by
  refine ⟨?_, fun hx => by rw [h.eq hx, hs.eq hx]⟩
  change (objectKey key start).tree = (objectKey key' start').tree
  rw [tree_objectKey hc, tree_objectKey hc', ← hs.kind, show key.tree = key'.tree from h.same]
  by_cases hk : start.kind = .identifier
  · rw [hs.text (by rw [hk]; rfl)]
  · simp only [bareKey, if_neg hk]

theorem likewise_objectSeparator :
    Likewise x (objectSeparator opening) (objectSeparator opening') := by
  refine likewise_peek.bind fun next next' hnext => ?_
  rw [← hnext.kind]
  split
  · exact likewise_skip.done (.refl _)
  · exact likewise_skip.done (.refl _)
  · exact likewise_skip.done (.refl _)
  · exact (likewise_reportFirst _ hnext.tokenRange
      (ho.tokenRange.between hnext.tokenRange).some).bind fun _ _ _ =>
        (likewise_skipPast _).done (.refl _)

section
variable {e : Parser Expr} (he : ReadAlike x e)
include he

theorem likewise_objectItem {items items' : List (Expr × Expr)} (hi : x.Like items items') :
    Likewise x (objectItem e opening items) (objectItem e opening' items') := by
  intro m c c' hc b
  have hpeek := likewise_peek hc b
  have htrack := he.likewise.track hc b
  have hstart := hpeek.value
  have hv := htrack.value
  -- what is known of the key is known at the token that it began with
  have hconstant : (peek ⟨c, b⟩).value.kind = .identifier →
      (track e ⟨c, b⟩).value.1.ConstantAt (peek ⟨c, b⟩).value.range := he.constant ⟨c, b⟩
  have hconstant' : (peek ⟨c', b⟩).value.kind = .identifier →
      (track e ⟨c', b⟩).value.1.ConstantAt (peek ⟨c', b⟩).value.range := he.constant ⟨c', b⟩
  refine hpeek.bind (htrack.bind (Likewise.run ?_ htrack.places htrack.recovering))
  generalize (track e ⟨c, b⟩).value = r, (track e ⟨c', b⟩).value = r' at hv hconstant hconstant' ⊢
  generalize (peek ⟨c, b⟩).value = start, (peek ⟨c', b⟩).value = start'
    at hstart hconstant hconstant' ⊢
  obtain ⟨key, lost⟩ := r
  obtain ⟨key', lost'⟩ := r'
  obtain rfl : lost = lost' := hv.snd.plain
  have hkey : x.Like (if start.kind = .openParen then key else objectKey key start)
      (if start'.kind = .openParen then key' else objectKey key' start') := by
    rw [← hstart.kind]
    split
    · exact hv.fst
    · exact like_objectKey hv.fst hstart hconstant hconstant'
  dsimp only
  generalize (if start.kind = .openParen then key else objectKey key start) = key,
    (if start'.kind = .openParen then key' else objectKey key' start') = key' at hkey ⊢
  split
  · exact likewise_skipPast_done _ hi
  refine likewise_peek.bind fun next next' hnext => ?_
  rw [← hnext.kind]
  split
  · exact (likewise_reportFirst _ hnext.tokenRange
      (ho.tokenRange.between hnext.tokenRange).some).bind fun _ _ _ => likewise_skipPast_done _ hi
  refine likewise_skip.bind fun _ _ _ => he.likewise.track_seq fun value value' lost hvalue => ?_
  have hitems := hi.append (hkey.pair hvalue).singleton
  dsimp only
  split
  · exact likewise_skipPast_done _ hitems
  · exact (likewise_objectSeparator ho).map fun more more' h => hitems.pair h

theorem likewise_objectStep {items items' : List (Expr × Expr)} (hi : x.Like items items') :
    Likewise x (objectStep e opening items) (objectStep e opening' items') := by
  refine likewise_peekKind_bind fun k => ?_
  split
  · exact likewise_skip.done (hi.pair (.refl _))
  · exact likewise_skip.done (hi.pair (.refl _))
  · exact likewise_objectItem ho he hi

/-- Inside an object newlines count, so none may have been left out. -/
theorem likewise_object (hj : x.joined = false) :
    Likewise x (object e opening) (object e opening') := by
  refine Likewise.withNewlines (likewise_atKeyword_bind fun b => ?_) fun h => by simp [hj] at h
  split
  · exact likewise_comprehension ho he
  refine (Likewise.iterate (advances_objectStep he.framed) (advances_objectStep he.framed)
    (fun _ _ => likewise_objectStep ho he) (.refl [])).bind fun items items' hi => ?_
  refine likewise_previousRange.map fun close close' hc => ?_
  refine ⟨?_, fun hx => by rw [hi.eq hx, ho.eq hx, hc.eq hx]⟩
  change Expr.tree _ = Expr.tree _
  rw [Expr.tree, Expr.tree, Expr.treeItems_eq, Expr.treeItems_eq]
  exact congrArg Tree.object hi.same

instance : Placed Arguments := ⟨List Tree × Bool, fun a => (Placed.said a.args, a.expandFinal)⟩

omit ho he in
theorem like_arguments {args args' : List Expr} (h : x.Like args args') (expand : Bool) :
    x.Like (⟨args, expand⟩ : Arguments) ⟨args', expand⟩ :=
  ⟨congrArg (·, expand) h.same, fun hx => by rw [h.eq hx]⟩

theorem likewise_argumentStep {name name' : Token} (hname : x.Like name name') {a a' : Arguments}
    (ha : x.Like a a') :
    Likewise x (argumentStep e name opening a) (argumentStep e name' opening' a') := by
  obtain ⟨args, expand⟩ := a
  obtain ⟨args', expand'⟩ := a'
  obtain rfl : expand = expand' := congrArg Prod.snd ha.same
  have hargs : x.Like args args' :=
    ⟨congrArg Prod.fst ha.same, fun hx => (Arguments.mk.inj (ha.eq hx)).1⟩
  refine likewise_peekKind_bind fun k => ?_
  split
  · exact likewise_skip.done (ha.pair (.refl _))
  refine he.likewise.track_seq fun arg arg' lost harg => ?_
  have hargs := hargs.append harg.singleton
  have ha := like_arguments hargs expand
  dsimp only
  split
  · exact likewise_skipPast_done _ ha
  refine likewise_read.bind fun sep sep' hsep => ?_
  have hcontext := (hname.tokenRange.between hsep.tokenRange).some
  rw [← hsep.kind]
  split
  · exact likewise_pure (ha.pair (.refl _))
  · exact likewise_pure (ha.pair (.refl _))
  · have hdone := (like_arguments hargs true).pair (.refl false)
    refine likewise_peekKind_bind fun k => ?_
    split
    · exact likewise_skip.done hdone
    · exact (likewise_reportFirst _ hsep.tokenRange hcontext).bind fun _ _ _ =>
        (likewise_skipPast _).done hdone
  · exact (likewise_report _ (hname.tokenRange.between ho.tokenRange) (.refl _)).bind fun _ _ _ =>
      likewise_skipPast_done _ ha
  · exact (likewise_report _ hsep.tokenRange hcontext).bind fun _ _ _ =>
      likewise_skipPast_done _ ha

theorem likewise_call {name name' : Token} (hname : x.Like name name')
    (hk : name.kind = .identifier) : Likewise x (call e name opening) (call e name' opening') := by
  have hloop : Likewise x (iterate (argumentStep e name opening) ⟨[], false⟩)
      (iterate (argumentStep e name' opening') ⟨[], false⟩) :=
    .iterate (advances_argumentStep he.framed name) (advances_argumentStep he.framed name')
      (fun _ _ => likewise_argumentStep ho he hname) (.refl _)
  refine (hloop.withNewlines fun _ => rfl).bind fun a a' ha => ?_
  refine likewise_previousRange.map fun close close' hc => ?_
  refine ⟨?_, fun hx => by rw [ha.eq hx, hname.eq hx, ho.eq hx, hc.eq hx]⟩
  change Expr.tree _ = Expr.tree _
  rw [Expr.tree, Expr.tree, Expr.treeAll_eq, Expr.treeAll_eq]
  exact (Tree.call.injEq ..).mpr
    ⟨hname.text (by rw [hk]; rfl), congrArg Prod.fst ha.same, congrArg Prod.snd ha.same⟩

end

end Parser

end HclSyntax
