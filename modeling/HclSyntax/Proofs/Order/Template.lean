import HclSyntax.Proofs.Order.Place

namespace HclSyntax.Parser

variable {l : TokenList} {c : Cursor} {paths : List Traversal} {opening : Token} {e : Parser Expr}

section
variable (he : Tells l e)
include he

/-- What a directive says, with its paths behind those that were met before. -/
def ToldOf (l : TokenList) (paths : List Traversal) (d : Option Directive) (c : Cursor) : Prop :=
  Told l (paths ++ d.toList.flatMap Directive.paths) c

omit he in
theorem toldOf_none (h : Told l paths c) : ToldOf l paths none c := by
  simpa [ToldOf] using h

theorem told_loopCollection (key : Option String) (value : String) (h : Told l paths c) :
    Ends (loopCollection e key value) c (ToldOf l paths) := by
  refine arrives_atKeyword_bind fun b _ => ?_
  split
  · exact arrives_skip_bind ((he h.advance).seq fun x c₁ h₁ => arrives_pure
      (by simpa [ToldOf, Directive.paths, Directive.expr?] using h₁))
  · exact arrives_peek_bind ((still_reportFirst _ _ _).seq fun _ => arrives_pure (toldOf_none h))

theorem told_loopHeader (h : Told l paths c) : Ends (loopHeader e) c (ToldOf l paths) := by
  refine arrives_read_bind ?_
  split
  · exact (still_reportFirst _ _ _).seq fun _ => arrives_pure (toldOf_none h.advance)
  refine arrives_peekKind_bind ?_
  split
  · exact told_loopCollection he _ _ h.advance
  refine arrives_skip_bind (arrives_read_bind ?_)
  split
  · exact (still_reportFirst _ _ _).seq fun _ =>
      arrives_pure (toldOf_none h.advance.advance.advance)
  · exact told_loopCollection he _ _ h.advance.advance.advance

theorem told_directiveContent (keyword : Token) (h : Told l paths c) :
    Ends (directiveContent e opening keyword) c (ToldOf l paths) := by
  have hplain (d : Directive) (hd : d.expr? = none) :
      Ends (pure (some d)) c (ToldOf l paths) :=
    arrives_pure (by simpa [ToldOf, Directive.paths, hd] using h)
  unfold directiveContent
  split
  · exact (he h).seq fun x c₁ h₁ => arrives_pure
      (by simpa [ToldOf, Directive.paths, Directive.expr?] using h₁)
  · exact hplain _ rfl
  · exact hplain _ rfl
  · exact told_loopHeader he h
  · exact hplain _ rfl
  · exact (still_reportFirst _ _ _).seq fun _ => arrives_pure (toldOf_none h)

theorem told_directive (h : Told l paths c) : Ends (directive e opening) c fun r c' =>
    Told l (paths ++ r.1.toList.flatMap TemplatePart.paths) c' := by
  have hlost {c' : Cursor} (h : Told l paths c') : Ends (skipPast .sequenceEnd >>= fun _ =>
      pure ((none : Option TemplatePart), false)) c' fun r c' =>
        Told l (paths ++ r.1.toList.flatMap TemplatePart.paths) c' :=
    (framed.skipPast _).meets_seq h fun _ _ h => arrives_pure (by simpa using h)
  refine arrives_peek_bind ?_
  split
  · exact (still_reportFirst _ _ _).seq fun _ => hlost h
  refine arrives_skip_bind ((told_directiveContent he _ h.advance).seq fun d c₁ h₁ => ?_)
  split
  · exact hlost h₁.left
  · exact (framed.closeSequence _ _ rfl).meets_seq h₁ fun strip c₂ h₂ =>
      ends_previousRange_bind (arrives_pure (by simpa using h₂))

theorem told_interpolation (start : SourceRange) (h : Told l paths c) :
    Ends (interpolation e start opening) c fun r c' => Told l (paths ++ r.1.paths) c' := by
  have hinner : Ends (withNewlines false do
      let x ← e
      return (x, ← closeSequence .extraInInterpolation start)) c fun r c' =>
        Told l (paths ++ r.1.paths) c' :=
    Ends.withNewlines ((he (h.enter false)).seq fun x c₁ h₁ =>
      (framed.closeSequence _ _ rfl).meets_seq h₁ fun strip c₂ h₂ => arrives_pure h₂.leave)
  exact hinner.seq fun r c' h => ends_previousRange_bind (arrives_pure (by simpa using h))

/-- The paths of parts follow those that were met before. -/
def ToldParts (l : TokenList) (paths : List Traversal) (parts : List TemplatePart) (c : Cursor) :
    Prop := Told l (paths ++ parts.flatMap TemplatePart.paths) c

omit he in
theorem ToldParts.before {a : TemplateParts} (h : ToldParts l paths a.parts c) (t : Token) :
    ToldParts l paths (a.before t) c := by
  unfold TemplateParts.before
  split
  · rwa [ToldParts, TemplatePart.paths_trimLast]
  · exact h

omit he in
theorem ToldParts.concat {parts more : List TemplatePart}
    (h : Told l (paths ++ parts.flatMap TemplatePart.paths ++ more.flatMap TemplatePart.paths) c) :
    ToldParts l paths (parts ++ more) c := by
  simpa [ToldParts] using h

theorem told_templateStep (closer : TokenKind) (start : SourceRange) (a : TemplateParts)
    (h : ToldParts l paths a.parts c) :
    Ends (templateStep e closer start a) c fun r c' => ToldParts l paths r.1.parts c' := by
  have htext (x : String) (r : SourceRange) :
      ToldParts l paths (a.parts ++ [.text x r]) c.advance :=
    .concat (by simpa using h.advance)
  refine arrives_read_bind ?_
  split
  · exact arrives_pure h.advance
  split
  · exact (still_chunk _).seq fun _ => arrives_pure (htext _ _)
  · exact (still_chunk _).seq fun _ => arrives_pure (htext _ _)
  · exact (told_interpolation he _ (h.before c.peek).advance).seq fun r c₁ h₁ =>
      arrives_pure (.concat (by simpa using h₁))
  · have hdirective : Ends (withNewlines false (directive e c.peek)) c.advance fun r c' =>
        Told l (paths ++ (a.before c.peek).flatMap TemplatePart.paths ++
          r.1.toList.flatMap TemplatePart.paths) c' :=
      Ends.withNewlines ((told_directive he ((h.before c.peek).advance.enter false)).mono
        fun _ _ h => h.leave)
    exact hdirective.seq fun r c₁ h₁ => arrives_pure (.concat h₁)
  · refine (still_reportFirst _ _ _).seq fun _ => ?_
    dsimp only
    split
    · exact still_recover.seq fun _ => arrives_pure h.advance
    · exact (framed.skipPast _).meets_seq h.advance fun _ _ h =>
        still_recover.seq fun _ => arrives_pure h

omit he in
theorem told_templateExpr {parts : List TemplatePart} {stop range : SourceRange}
    (h : ToldParts l paths parts c) :
    Ends (templateExpr parts stop range) c fun x c' => Told l (paths ++ x.paths) c' := by
  have hexprs : Told l (paths ++ (Nesting.ofParts parts stop).1.flatMap Expr.paths) c :=
    h.sublist ((List.Sublist.refl _).append (Nesting.paths_ofParts parts stop))
  -- the parts decide about the shape of the expression, not about its paths
  unfold templateExpr
  generalize Nesting.ofParts parts stop = r at hexprs ⊢
  obtain ⟨exprs, problems⟩ := r
  refine (still_tell _).seq fun _ => ?_
  split <;> exact arrives_pure (by simpa using hexprs)

theorem tells_template (hf : Framed e) (opening : SourceRange) (closer : TokenKind) :
    Tells l (template e opening closer) := by
  intro c paths h
  refine arrives_peek_bind (Arrives.seq (P := fun a c' => ToldParts l paths a.parts c') ?_
    fun a c' h => ends_previousRange_bind (told_templateExpr ?_))
  · exact ends_iterate (advances_templateStep hf closer _) (told_templateStep he closer _ _)
      h.inMode.ends (by simpa [ToldParts] using h)
  · split
    · simpa [ToldParts] using h.left
    · exact h

end

end HclSyntax.Parser
