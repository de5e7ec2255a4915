import HclSyntax.Proofs.Order.Place

namespace HclSyntax.Parser

variable {l : TokenList} {c : Cursor} {paths : List Traversal} {opening : Token} {e : Parser Expr}

theorem tells_abandonComprehension : Tells l (abandonComprehension opening) := fun c paths h =>
  (framed.skipPast opening.kind.opposite).meets_seq h fun _ _ h =>
    ends_previousRange_bind (arrives_pure (by simpa using h))

section
variable (he : Tells l e)
include he

theorem told_resultPair (h : Told l paths c) : Ends (resultPair e) c fun r c' =>
    Told l (paths ++ r.1.toList.flatMap Expr.paths ++ r.2.paths) c' := by
  refine (he h).seq fun first c₁ h₁ => arrives_peekKind_bind ?_
  split
  · exact arrives_skip_bind ((he h₁.advance).seq fun value c₂ h₂ =>
      arrives_pure (by simpa using h₂))
  · exact arrives_pure (by simpa using h₁)

theorem told_filter (h : Told l paths c) : Ends (filter e) c fun r c' =>
    Told l (paths ++ r.toList.flatMap Expr.paths) c' := by
  refine arrives_atKeyword_bind fun b _ => ?_
  split
  · exact arrives_skip_bind ((he h.advance).seq fun x c₁ h₁ => arrives_pure (by simpa using h₁))
  · exact arrives_pure (by simpa using h)

/-- The collection was read first, then the key, the value and the condition. -/
theorem told_comprehensionResult (keyVar : Option String) (valueVar : String) {collection : Expr}
    (h : Told l (paths ++ collection.paths) c) :
    Ends (comprehensionResult e opening keyVar valueVar collection) c
      fun x c' => Told l (paths ++ x.paths) c' := by
  refine (told_resultPair he h).track_seq fun r lost c₁ h₁ => ?_
  obtain ⟨key, value⟩ := r
  dsimp only
  split
  · exact tells_abandonComprehension h₁.left.left.left
  refine framed.groupingEllipsis.meets_seq h₁ fun ellipsis c₂ h₂ =>
    (told_filter he h₂).track_seq fun condition lost c₃ h₃ => ?_
  dsimp only
  split
  · exact tells_abandonComprehension h₃.left.left.left.left
  · exact framed.closeComprehension.meets_seq h₃ fun close c₄ h₄ =>
      (still_checkResult _ _ _ _ _).seq fun _ => arrives_pure (by simpa using h₄)

theorem tells_comprehension : Tells l (comprehension e opening) := by
  refine Tells.withNewlines (fun c paths h => ?_) false
  refine arrives_skip_bind (framed.binders.meets_seq h.advance fun names c₁ h₁ => ?_)
  split
  · exact tells_abandonComprehension h₁
  refine (he h₁).track_seq fun collection lost c₂ h₂ => ?_
  dsimp only
  split
  · exact tells_abandonComprehension h₂.left
  refine arrives_peekKind_bind ?_
  split
  · exact (still_reportComprehension _ _).seq fun _ => tells_abandonComprehension h₂.left
  · exact arrives_skip_bind (told_comprehensionResult he _ _ h₂.advance)

end

section
variable (he : Tells l e) (hf : Framed e)
include he

theorem told_tupleStep (items : List Expr) (h : Told l (paths ++ items.flatMap Expr.paths) c) :
    Ends (tupleStep e opening items) c fun r c' =>
      Told l (paths ++ r.1.flatMap Expr.paths) c' := by
  refine arrives_peekKind_bind ?_
  split
  · exact arrives_skip_bind (arrives_pure h.advance)
  refine (he h).track_seq fun item lost c₁ h₁ => ?_
  have hitems : Told l (paths ++ (items ++ [item]).flatMap Expr.paths) c₁ := by simpa using h₁
  have hlost : Ends (skipPast .closeBracket >>= fun _ => pure (items ++ [item], false)) c₁
      fun r c' => Told l (paths ++ r.1.flatMap Expr.paths) c' :=
    (framed.skipPast _).meets_seq hitems fun _ _ h => arrives_pure h
  dsimp only
  split
  · exact hlost
  refine arrives_peek_bind ?_
  split
  · exact arrives_skip_bind (arrives_pure hitems.advance)
  · exact arrives_skip_bind (arrives_pure hitems.advance)
  · exact (still_reportFirst _ _ _).seq fun _ => hlost

/-- The paths of keys and values in the order of the source. -/
def fieldPaths (items : List (Expr × Expr)) : List Traversal :=
  items.flatMap fun i => i.1.paths ++ i.2.paths

omit he in
/-- A name that stands for itself is no variable. -/
theorem paths_objectKey (key : Expr) (start : Token) :
    (objectKey key start).paths.Sublist key.paths := by
  unfold objectKey
  split
  case h_3 => simp
  case h_4 => exact .refl _
  all_goals
    split
    · simp
    · exact .refl _

theorem told_objectItem (items : List (Expr × Expr)) (h : Told l (paths ++ fieldPaths items) c) :
    Ends (objectItem e opening items) c fun r c' => Told l (paths ++ fieldPaths r.1) c' := by
  have hlost {c' : Cursor} (h : Told l (paths ++ fieldPaths items) c') :
      Ends (skipPast .closeBrace >>= fun _ => pure (items, false)) c'
        fun r c' => Told l (paths ++ fieldPaths r.1) c' :=
    (framed.skipPast _).meets_seq h fun _ _ h => arrives_pure h
  refine arrives_peek_bind ((he h).track_seq fun key lost c₁ h₁ => ?_)
  dsimp only
  split
  · exact hlost h₁.left
  -- a key without a value is no item
  refine arrives_peek_bind ?_
  split
  · exact (still_reportFirst _ _ _).seq fun _ => hlost h₁.left
  refine arrives_skip_bind ((he h₁.advance).track_seq fun value lost c₂ h₂ => ?_)
  -- the key as it is kept
  have hkey : (if c.peek.kind = .openParen then key
      else objectKey key c.peek).paths.Sublist key.paths := by
    split
    · exact .refl _
    · exact paths_objectKey _ _
  have hitems : Told l (paths ++ fieldPaths (items ++
      [(if c.peek.kind = .openParen then key else objectKey key c.peek, value)])) c₂ := by
    refine h₂.sublist ?_
    simp only [fieldPaths, List.flatMap_append, List.flatMap_singleton, List.append_assoc]
    exact (List.Sublist.refl _).append ((List.Sublist.refl _).append (hkey.append (.refl _)))
  dsimp only
  split
  · exact (framed.skipPast _).meets_seq hitems fun _ _ h => arrives_pure h
  · exact framed.objectSeparator.meets_seq hitems fun _ _ h => arrives_pure h

theorem told_objectStep (items : List (Expr × Expr)) (h : Told l (paths ++ fieldPaths items) c) :
    Ends (objectStep e opening items) c fun r c' => Told l (paths ++ fieldPaths r.1) c' := by
  refine arrives_peekKind_bind ?_
  split
  · exact arrives_skip_bind (arrives_pure h.advance)
  · exact arrives_skip_bind (arrives_pure h.advance)
  · exact told_objectItem he items h

theorem told_argumentStep (name : Token) (a : Arguments)
    (h : Told l (paths ++ a.args.flatMap Expr.paths) c) :
    Ends (argumentStep e name opening a) c fun r c' =>
      Told l (paths ++ r.1.args.flatMap Expr.paths) c' := by
  refine arrives_peekKind_bind ?_
  split
  · exact arrives_skip_bind (arrives_pure h.advance)
  refine (he h).track_seq fun arg lost c₁ h₁ => ?_
  have hargs : Told l (paths ++ (a.args ++ [arg]).flatMap Expr.paths) c₁ := by simpa using h₁
  have hsearch (x : Arguments) (hx : x.args = a.args ++ [arg]) {c₂ : Cursor}
      (h : Told l (paths ++ (a.args ++ [arg]).flatMap Expr.paths) c₂) :
      Ends (skipPast .closeParen >>= fun _ => pure (x, false)) c₂ fun r c' =>
        Told l (paths ++ r.1.args.flatMap Expr.paths) c' :=
    (framed.skipPast _).meets_seq h fun _ _ h => arrives_pure (hx ▸ h)
  dsimp only
  split
  · exact hsearch _ rfl hargs
  refine arrives_read_bind ?_
  split
  · exact arrives_pure hargs.advance
  · exact arrives_pure hargs.advance
  · refine arrives_peekKind_bind ?_
    split
    · exact arrives_skip_bind (arrives_pure hargs.advance.advance)
    · exact (still_reportFirst _ _ _).seq fun _ => hsearch _ rfl hargs.advance
  · exact (still_report _ _ _).seq fun _ => hsearch _ rfl hargs.advance
  · exact (still_report _ _ _).seq fun _ => hsearch _ rfl hargs.advance

include hf

theorem tells_tuple : Tells l (tuple e opening) := by
  refine Tells.withNewlines (fun c paths h => arrives_atKeyword_bind fun b _ => ?_) false
  split
  · exact tells_comprehension he h
  · refine Arrives.seq (P := fun items c' => Told l (paths ++ items.flatMap Expr.paths) c') ?_
      fun items c' h => ends_previousRange_bind (arrives_pure (by simpa using h))
    exact ends_iterate (advances_tupleStep hf) (told_tupleStep he _) h.inMode.ends
      (by simpa using h)

theorem tells_object : Tells l (object e opening) := by
  refine Tells.withNewlines (fun c paths h => arrives_atKeyword_bind fun b _ => ?_) true
  split
  · exact tells_comprehension he h
  · refine Arrives.seq (P := fun items c' => Told l (paths ++ fieldPaths items) c') ?_
      fun items c' h => ends_previousRange_bind (arrives_pure (by simpa [fieldPaths] using h))
    exact ends_iterate (advances_objectStep hf) (told_objectStep he _) h.inMode.ends
      (by simpa [fieldPaths] using h)

theorem tells_call (name : Token) : Tells l (call e name opening) := by
  intro c paths h
  have hargs : Ends (withNewlines false (iterate (argumentStep e name opening) ⟨[], false⟩)) c
      fun a c' => Told l (paths ++ a.args.flatMap Expr.paths) c' := by
    refine Ends.withNewlines (Arrives.mono
      (P := fun a c' => Told l (paths ++ a.args.flatMap Expr.paths) c') ?_ fun _ _ h => h.leave)
    exact ends_iterate (advances_argumentStep hf name) (told_argumentStep he name _)
      h.inMode.ends (by simpa using h.enter false)
  exact hargs.seq fun a c' h => ends_previousRange_bind (arrives_pure (by simpa using h))

end

end HclSyntax.Parser
