import HclSyntax.Proofs.Range.Run

namespace HclSyntax.Parser

variable {c : Cursor} {opening : Token} {e : Parser Expr}

/-- What the parser reads behind `opening` is a node from there up to the place where it stops. -/
def Encloses (opening : Token) (p : Parser Expr) : Prop :=
  ∀ ⦃c⦄, c.Follows opening → Ends p c fun e c' => e.Shut opening.range.lo c'

theorem Encloses.withNewlines {p : Parser Expr} (h : Encloses opening p) (newlines : Bool) :
    Encloses opening (withNewlines newlines p) := fun _ hc =>
  Ends.withNewlines ((h (hc.enter newlines)).mono fun _ _ h => h.leave)

theorem encloses_abandonComprehension : Encloses opening (abandonComprehension opening) :=
  fun _ hc => (passes_skipPast _).after hc.inOrder fun _ _ hl =>
    ends_previousRange_bind (arrives_pure (.of_follows (hc.later (hc.inOrder.skip.trans hl).toLater)
      rfl (by simp [Expr.placeholder, Expr.children])))

theorem ends_closeComprehension (hc : c.InOrder) : Ends (closeComprehension opening) c
    fun r c' => r = c'.previousRange ∧ c.advance.Further c' := by
  have hadvance := hc.skip.inOrder
  refine arrives_peekKind_bind ?_
  split
  · exact arrives_skip_bind fun _ _ => ⟨rfl, hadvance.further (.refl _)⟩
  · exact (still_reportComprehension _ _).seq fun _ =>
      (passes_skipPast _).after hc fun _ c' hl => fun _ _ => ⟨rfl, hl⟩

section
variable (he : Lays e) (hf : Framed e)
include he hf

theorem ends_resultPair (hc : c.Follows opening) : Ends (resultPair e) c fun r c' =>
    c.Further c' ∧ (∀ x ∈ r.1, x.Laid opening.range.lo c') ∧ r.2.Laid opening.range.lo c' := by
  refine (he.behind hf hc).seq fun first c₁ ⟨hl, hc₁, hfirst⟩ => arrives_peekKind_bind ?_
  split
  · have hskip := hc₁.inOrder.skip
    refine arrives_skip_bind ((he.behind hf (hc₁.later hskip.toLater)).seq
      fun value c₂ ⟨hl₂, _, hvalue⟩ => arrives_pure ⟨hl.trans (hskip.trans hl₂), ?_, hvalue⟩)
    simpa using hfirst.further (hskip.trans hl₂)
  · exact arrives_pure ⟨hl, by simp, hfirst⟩

theorem ends_filter (hc : c.Follows opening) : Ends (filter e) c fun r c' =>
    c.Further c' ∧ ∀ x ∈ r, x.Laid opening.range.lo c' := by
  refine arrives_atKeyword_bind fun b _ => ?_
  split
  · have hskip := hc.inOrder.skip
    refine arrives_skip_bind ((he.behind hf (hc.later hskip.toLater)).seq
      fun x c' ⟨hl, _, hx⟩ => arrives_pure ⟨hskip.trans hl, by simpa using hx⟩)
  · exact arrives_pure ⟨hc.inOrder.further (.refl c), by simp⟩

theorem encloses_comprehensionResult (keyVar : Option String) (valueVar : String)
    {collection : Expr} (hc : c.Follows opening) (hx : collection.Shut opening.range.lo c) :
    Ends (comprehensionResult e opening keyVar valueVar collection) c
      fun e c' => e.Shut opening.range.lo c' := by
  refine (ends_resultPair he hf hc).track_seq fun r lost c₁ ⟨hl₁, hkey, hvalue⟩ => ?_
  obtain ⟨key, value⟩ := r
  have hc₁ := hc.later hl₁.toLater
  dsimp only
  split
  · exact encloses_abandonComprehension hc₁
  refine framed.groupingEllipsis.after hc₁.inOrder fun ellipsis c₂ hl₂ => ?_
  have hc₂ := hc₁.later hl₂.toLater
  refine (ends_filter he hf hc₂).track_seq fun condition lost c₃ ⟨hl₃, hcondition⟩ => ?_
  have hc₃ := hc₂.later hl₃.toLater
  dsimp only
  split
  · exact encloses_abandonComprehension hc₃
  refine (ends_closeComprehension hc₃.inOrder).seq fun close c₄ ⟨hclose, hl₄⟩ =>
    (still_checkResult _ _ _ _ _).seq fun _ => arrives_pure ?_
  subst hclose
  have hshut (x : Expr) (h : x.Laid opening.range.lo c₃) : x.Shut opening.range.lo c₄ :=
    h.shut hl₄.toLater hc₃.inOrder
  have hl := hc₃.inOrder.skip.trans hl₄
  refine .of_follows (hc₃.later hl.toLater) rfl ?_
  simp only [Expr.children, List.forall_mem_cons, List.cons_append, List.forall_mem_append,
    Option.mem_toList]
  refine ⟨hx.later (hl₁.trans (hl₂.trans (hl₃.trans hl))).toLater, fun x hx => ?_, ?_,
    fun x hx => ?_⟩
  · exact hshut x ((hkey x hx).further (hl₂.trans hl₃))
  · exact hshut value (hvalue.further (hl₂.trans hl₃))
  · exact hshut x (hcondition x hx)

theorem encloses_comprehension : Encloses opening (comprehension e opening) := by
  refine Encloses.withNewlines (fun c hc => ?_) false
  refine arrives_skip_bind (framed.binders.after hc.inOrder.skip.inOrder fun names c₁ hl₁ => ?_)
  have hc₁ := hc.later (hc.inOrder.skip.trans hl₁).toLater
  split
  · exact encloses_abandonComprehension hc₁
  refine (he.behind hf hc₁).track_seq fun collection lost c₂ ⟨hl₂, hc₂, hcollection⟩ => ?_
  dsimp only
  split
  · exact encloses_abandonComprehension hc₂
  refine arrives_peekKind_bind ?_
  split
  · exact (still_reportComprehension _ _).seq fun _ => encloses_abandonComprehension hc₂
  · have hskip := hc₂.inOrder.skip
    exact arrives_skip_bind (encloses_comprehensionResult he hf _ _ (hc₂.later hskip.toLater)
      (hcollection.shut (hskip.inOrder.further (.refl _)).toLater hc₂.inOrder))

/-- A loop behind `opening` that has read `items`. -/
def Gathers (opening : Token) (items : List Expr) (c : Cursor) : Prop :=
  c.Follows opening ∧ ∀ x ∈ items, x.Shut opening.range.lo c

end

theorem Gathers.later {items : List Expr} {c' : Cursor} (h : Gathers opening items c)
    (hl : c.Later c') : Gathers opening items c' :=
  ⟨h.1.later hl, fun x hx => (h.2 x hx).later hl⟩

/-- An item more, and the token after it. -/
theorem Gathers.concat {items : List Expr} {x : Expr} {c' c'' : Cursor}
    (h : Gathers opening items c) (hl : c.Later c') (hx : x.Laid opening.range.lo c')
    (hl' : c'.advance.Later c'') : Gathers opening (items ++ [x]) c'' := by
  have h := h.later (hl.trans (hl.inOrder.skip.toLater.trans hl'))
  refine ⟨h.1, fun y hy => ?_⟩
  rcases List.mem_append.mp hy with hy | hy
  · exact h.2 y hy
  · exact List.mem_singleton.mp hy ▸ hx.shut hl' hl.inOrder

section
variable (he : Lays e) (hf : Framed e)
include he hf

theorem ends_tupleStep (items : List Expr) (h : Gathers opening items c) :
    Ends (tupleStep e opening items) c fun r c' => Gathers opening r.1 c' := by
  have hskip := h.1.inOrder.skip
  refine arrives_peekKind_bind ?_
  split
  · exact arrives_skip_bind (arrives_pure (h.later hskip.toLater))
  refine (he.behind hf h.1).track_seq fun item lost c₁ ⟨hl₁, hc₁, hitem⟩ => ?_
  have hitems {c₂ : Cursor} (hl : c₁.advance.Further c₂) :
      Gathers opening (items ++ [item]) c₂ := h.concat hl₁.toLater hitem hl.toLater
  have hnext := hc₁.inOrder.skip.inOrder.further (.refl _)
  have hlost : Ends (skipPast .closeBracket >>= fun _ => pure (items ++ [item], false)) c₁
      fun r c' => Gathers opening r.1 c' :=
    (passes_skipPast _).after hc₁.inOrder fun _ _ hl => arrives_pure (hitems hl)
  dsimp only
  split
  · exact hlost
  refine arrives_peek_bind ?_
  split
  · exact arrives_skip_bind (arrives_pure (hitems hnext))
  · exact arrives_skip_bind (arrives_pure (hitems hnext))
  · exact (still_reportFirst _ _ _).seq fun _ => hlost

theorem encloses_tuple : Encloses opening (tuple e opening) := by
  refine Encloses.withNewlines (fun c hc => arrives_atKeyword_bind fun b _ => ?_) false
  split
  · exact encloses_comprehension he hf hc
  · refine Arrives.seq (P := Gathers opening) ?_ fun items c' h =>
      ends_previousRange_bind (arrives_pure (.of_follows h.1 rfl h.2))
    refine .iterate (I := Gathers opening) (advances_tupleStep hf)
      (fun items c h => (ends_tupleStep he hf items h).mono fun r c' h => by split <;> exact h)
      hc.inOrder.whole.2 ⟨hc, by simp⟩

omit he hf in
/-- Keys and values in the order of the source. -/
def fields (items : List (Expr × Expr)) : List Expr := items.flatMap fun i => [i.1, i.2]

omit he hf in
theorem shut_objectKey {key : Expr} {start : Token} {lo : Nat} (h : key.Shut lo c) :
    (objectKey key start).Shut lo c := by
  have hrange : (objectKey key start).range = key.range := by
    unfold objectKey
    repeat' split
    all_goals rfl
  have hnests : (objectKey key start).Nests := by
    unfold objectKey
    repeat' split
    all_goals first
      | exact h.nests
      | exact Expr.nests_of_children (by simp [Expr.children])
  exact ⟨⟨⟨hnests, hrange ▸ h.from_le, hrange ▸ h.le_to⟩, hrange ▸ h.forward⟩, hrange ▸ h.lo_le⟩

omit he hf in
theorem ends_objectSeparator (hc : c.InOrder) :
    Ends (objectSeparator opening) c fun _ c' => c.advance.Further c' := by
  have hnext := hc.skip.inOrder.further (.refl _)
  refine arrives_peek_bind ?_
  split
  · exact arrives_skip_bind (arrives_pure hnext)
  · exact arrives_skip_bind (arrives_pure hnext)
  · exact arrives_skip_bind (arrives_pure hnext)
  · exact (still_reportFirst _ _ _).seq fun _ =>
      (passes_skipPast _).after hc fun _ _ hl => arrives_pure hl

theorem ends_objectItem (items : List (Expr × Expr)) (h : Gathers opening (fields items) c) :
    Ends (objectItem e opening items) c fun r c' => Gathers opening (fields r.1) c' := by
  refine arrives_peek_bind ((he.behind hf h.1).track_seq fun key lost c₁ ⟨hl₁, hc₁, hkey⟩ => ?_)
  have hlost : Ends (skipPast .closeBrace >>= fun _ => pure (items, false)) c₁
      fun r c' => Gathers opening (fields r.1) c' :=
    (passes_skipPast _).after hc₁.inOrder fun _ _ hl =>
      arrives_pure (h.later (hl₁.trans (hc₁.inOrder.skip.trans hl)).toLater)
  dsimp only
  split
  · exact hlost
  refine arrives_peek_bind ?_
  split
  · exact (still_reportFirst _ _ _).seq fun _ => hlost
  have hskip := hc₁.inOrder.skip
  have hnext := hskip.inOrder.further (.refl _)
  refine arrives_skip_bind ((he.behind hf (hc₁.later hskip.toLater)).track_seq
    fun value lost c₂ ⟨hl₂, hc₂, hvalue⟩ => ?_)
  -- the key as it is kept
  have hkept := hkey.shut hnext.toLater hc₁.inOrder
  have hitems {c₃ : Cursor} (hl : c₂.advance.Further c₃) :
      Gathers opening (fields (items ++
        [(if c.peek.kind = .openParen then key else objectKey key c.peek, value)])) c₃ := by
    have hl₃ := (hl₂.trans (hc₂.inOrder.skip.trans hl)).toLater
    have hg := h.later ((hl₁.trans hskip).toLater.trans hl₃)
    refine ⟨hg.1, fun x hx => ?_⟩
    simp only [fields, List.flatMap_append, List.mem_append, List.flatMap_cons,
      List.flatMap_nil, List.append_nil, List.mem_cons, List.not_mem_nil, or_false] at hx
    rcases hx with hx | rfl | rfl
    · exact hg.2 x hx
    · split
      · exact hkept.later hl₃
      · exact (shut_objectKey hkept).later hl₃
    · exact hvalue.shut hl.toLater hc₂.inOrder
  dsimp only
  split
  · exact (passes_skipPast _).after hc₂.inOrder fun _ _ hl => arrives_pure (hitems hl)
  · exact (ends_objectSeparator hc₂.inOrder).seq fun _ _ hl => arrives_pure (hitems hl)

theorem encloses_object : Encloses opening (object e opening) := by
  have hstep (items : List (Expr × Expr)) (c : Cursor) (h : Gathers opening (fields items) c) :
      Ends (objectStep e opening items) c fun r c' => Gathers opening (fields r.1) c' := by
    have hskip := h.1.inOrder.skip
    refine arrives_peekKind_bind ?_
    split
    · exact arrives_skip_bind (arrives_pure (h.later hskip.toLater))
    · exact arrives_skip_bind (arrives_pure (h.later hskip.toLater))
    · exact ends_objectItem he hf items h
  refine Encloses.withNewlines (fun c hc => arrives_atKeyword_bind fun b _ => ?_) true
  split
  · exact encloses_comprehension he hf hc
  · refine Arrives.seq (P := fun items c' => Gathers opening (fields items) c') ?_
      fun items c' h => ends_previousRange_bind (arrives_pure (.of_follows h.1 rfl h.2))
    exact .iterate (I := fun items c => Gathers opening (fields items) c) (advances_objectStep hf)
      (fun items c h => (hstep items c h).mono fun r c' h => by split <;> exact h)
      hc.inOrder.whole.2 ⟨hc, by simp [fields]⟩

/-- A call begins with its name. -/
theorem ends_argumentStep (name : Token) (a : Arguments) (h : Gathers name a.args c) :
    Ends (argumentStep e name opening a) c fun r c' => Gathers name r.1.args c' := by
  have hskip := h.1.inOrder.skip
  refine arrives_peekKind_bind ?_
  split
  · exact arrives_skip_bind (arrives_pure (h.later hskip.toLater))
  refine (he.behind hf h.1).track_seq fun arg lost c₁ ⟨hl₁, hc₁, harg⟩ => ?_
  have hargs {c₂ : Cursor} (hl : c₁.advance.Further c₂) : Gathers name (a.args ++ [arg]) c₂ :=
    h.concat hl₁.toLater harg hl.toLater
  have hnext := hc₁.inOrder.skip.inOrder.further (.refl _)
  have hsearch (x : Arguments) (hx : x.args = a.args ++ [arg]) {c₂ : Cursor}
      (hl : c₁.advance.Further c₂) : Ends (skipPast .closeParen >>= fun _ => pure (x, false)) c₂
        fun r c' => Gathers name r.1.args c' :=
    (passes_skipPast _).after hl.inOrder fun _ _ hl' =>
      arrives_pure (hx ▸ hargs (hl.trans (hl.inOrder.skip.trans hl')))
  dsimp only
  split
  · exact (passes_skipPast _).after hc₁.inOrder fun _ _ hl => arrives_pure (hargs hl)
  refine arrives_read_bind ?_
  split
  · exact arrives_pure (hargs hnext)
  · exact arrives_pure (hargs hnext)
  · refine arrives_peekKind_bind ?_
    split
    · exact arrives_skip_bind (arrives_pure (hargs (hnext.trans hnext.inOrder.skip)))
    · exact (still_reportFirst _ _ _).seq fun _ => hsearch _ rfl hnext
  · exact (still_report _ _ _).seq fun _ => hsearch _ rfl hnext
  · exact (still_report _ _ _).seq fun _ => hsearch _ rfl hnext

theorem encloses_call {name : Token} : Encloses name (call e name opening) := by
  intro c hc
  have hargs : Ends (withNewlines false (iterate (argumentStep e name opening) ⟨[], false⟩)) c
      fun a c' => Gathers name a.args c' := by
    refine Ends.withNewlines (Arrives.mono (P := fun a c' => Gathers name a.args c') ?_
      fun a c' h => ⟨h.1.leave, fun x hx => (h.2 x hx).leave⟩)
    exact .iterate (I := fun a c => Gathers name a.args c) (advances_argumentStep hf name)
      (fun a c h => (ends_argumentStep he hf name a h).mono fun r c' h => by split <;> exact h)
      hc.inOrder.whole.2 ⟨hc.enter false, by simp⟩
  exact hargs.seq fun a c' h => ends_previousRange_bind (arrives_pure (.of_follows h.1 rfl h.2))

end

end HclSyntax.Parser
