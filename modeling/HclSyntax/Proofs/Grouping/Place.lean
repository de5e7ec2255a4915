import HclSyntax.Proofs.Progress.Inside

namespace HclSyntax

namespace Parser

variable {α β σ : Type} {S : Cursor → Prop} {P : α → Prop} {Q : β → Prop}

/-- All answers that the parser gives at the places `S` have the property. -/
def AnswersOn (S : Cursor → Prop) (p : Parser α) (Q : α → Prop) : Prop :=
  ∀ s, S s.cursor → Q (p s).value

theorem answersOn_pure {a : α} (h : P a) : (pure a : Parser α).AnswersOn S P := fun _ _ => h

theorem AnswersOn.map {p : Parser α} (h : p.AnswersOn S P) {f : α → β} (hf : ∀ a, P a → Q (f a)) :
    (p >>= fun a => pure (f a)).AnswersOn S Q := fun s hs => hf _ (h s hs)

theorem AnswersOn.run {p : Parser α} (h : p.AnswersOn S P) {tokens : TokenList}
    (hs : S (.ofTokens tokens.splitLineComments)) : P (p.run tokens).1 :=
  h ⟨.ofTokens tokens.splitLineComments, false⟩ hs

namespace Lasting

variable (hS : Lasting S)
include hS

theorem answers_seq {p : Parser α} {f : α → Parser β} (hp : Framed p) (h : p.AnswersOn S P)
    (hf : ∀ a, P a → (f a).AnswersOn S Q) : (p >>= f).AnswersOn S Q :=
  fun s hs => hf _ (h s hs) _ (hS.reaches hs (hp s))

/-- What the parser answers makes no difference. -/
theorem answers_after {p : Parser α} {f : α → Parser β} (hp : Framed p)
    (hf : ∀ a, (f a).AnswersOn S Q) : (p >>= f).AnswersOn S Q :=
  fun s hs => hf _ _ (hS.reaches hs (hp s))

theorem answers_track {p : Parser α} {f : α × Bool → Parser β} (hp : Framed p)
    (h : p.AnswersOn S P) (hf : ∀ a lost, P a → (f (a, lost)).AnswersOn S Q) :
    (Parser.track p >>= f).AnswersOn S Q :=
  fun s hs => hf _ _ (h s hs) _ (hS.reaches hs (framed.track hp s))

theorem answers_iterate {step : σ → Parser (σ × Bool)} {I : σ → Prop}
    (hp : ∀ a, Framed (step a)) (h : ∀ a, I a → (step a).AnswersOn S (I ·.1)) {a : σ} (ha : I a) :
    (Parser.iterate step a).AnswersOn S I := by
  suffices hn : ∀ n, (iterateFor step n a).AnswersOn S I from fun s => hn _ s
  intro n
  induction n generalizing a with
  | zero => exact hS.answers_after framed.invalid fun _ => answersOn_pure ha
  | succ n ih =>
    refine hS.answers_seq (hp a) (h a ha) fun r hr => ?_
    obtain ⟨b, more⟩ := r
    cases more with
    | true => exact ih hr
    | false => exact answersOn_pure hr

end Lasting

theorem Onward.answers_withNewlines (hS : Onward S) {p : Parser β} (h : p.AnswersOn S Q)
    (newlines : Bool) : (Parser.withNewlines newlines p).AnswersOn S Q :=
  fun _ hs => h _ (hS.enter hs newlines)

end Parser

namespace Cursor

/-- Behind the place nothing is in parentheses, and a directive only if there are directives. -/
structure Bare (directives : Prop) (c : Cursor) : Prop where
  eof : c.eof.kind = .eof
  parens : ∀ t ∈ c.rest, t.kind ≠ .openParen
  directives : ∀ t ∈ c.rest, t.kind = .directive → directives

variable {D : Prop} {c : Cursor}

theorem onward_bare : Parser.Onward (Bare D) where
  reaches h hr := by
    have hrest := hr.suffix.subset
    exact ⟨hr.eof ▸ h.eof, fun t ht => h.parens t (hrest ht), fun t ht => h.directives t (hrest ht)⟩
  enter h _ := ⟨h.eof, h.parens, h.directives⟩

theorem Bare.peek (h : c.Bare D) :
    c.peek.kind ≠ .openParen ∧ (c.peek.kind = .directive → D) := by
  unfold Cursor.peek
  cases hrest : c.rest.dropWhile c.hides with
  | nil => simp [h.eof]
  | cons t rest =>
    have ht : t ∈ c.rest := (List.dropWhile_sublist c.hides).subset (hrest ▸ List.mem_cons_self)
    exact ⟨h.parens t ht, h.directives t ht⟩

end Cursor

namespace Parser

variable {D : Prop} {β : Type} {Q : β → Prop}

/-- The next token does not open a parenthesis. -/
theorem bare_peek {f : Token → Parser β} (h : ∀ t, t.kind ≠ .openParen →
    (t.kind = .directive → D) → (f t).AnswersOn (Cursor.Bare D) Q) :
    (peek >>= f).AnswersOn (Cursor.Bare D) Q :=
  fun s hs => h _ hs.peek.1 hs.peek.2 s hs

theorem bare_read {f : Token → Parser β} (h : ∀ t, t.kind ≠ .openParen →
    (t.kind = .directive → D) → (f t).AnswersOn (Cursor.Bare D) Q) :
    (read >>= f).AnswersOn (Cursor.Bare D) Q :=
  fun s hs => h _ hs.peek.1 hs.peek.2 _ (Cursor.onward_bare.reaches hs s.cursor.reaches_advance)

theorem bare_peekKind {f : TokenKind → Parser β} (h : ∀ k, k ≠ .openParen →
    (f k).AnswersOn (Cursor.Bare D) Q) : (peekKind >>= f).AnswersOn (Cursor.Bare D) Q :=
  fun s hs => h _ hs.peek.1 s hs

end Parser

end HclSyntax
