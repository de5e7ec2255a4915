import HclSyntax.Proofs.Complete.Expression
import HclSyntax.Proofs.Soundness

namespace HclSyntax

/-- The end of the file is seen behind whatever is hidden in front of it. -/
theorem peek_of_hidden {c : Cursor} {nl : Bool} {hs : List Token} {t : Token} (hc : c.InMode nl)
    (hr : c.rest = hs ++ [t]) (hh : ∀ x ∈ hs, x.hidden nl) (ht : t.kind = .eof) : c.peek = t := by
  have hrest : c.rest = (hs ++ [t]) ++ [] := by rw [List.append_nil, hr]
  exact (hc.read_sees hrest ⟨hs, rfl, hh, by simp [Token.hidden, ht]⟩).1

/-- An expression that is read up to the end of the file is the answer. -/
theorem parseExpression_of_reads {tokens : TokenList} {x : Expr} {c : Cursor}
    (hx : Parser.expression.Reads (tokens.start.cursor.enter false) x c)
    (hend : c.peek.kind = .eof) : parseExpression tokens = (x, []) := by
  have hwhole : Parser.wholeExpression.Reads tokens.start.cursor x c.leave := by
    refine Parser.Reads.withNewlines (hx.bind ?_)
    simp only [Parser.reads_peek_bind, hend, ne_eq, not_true_eq_false, if_false]
    exact Parser.reads_pure.mpr ⟨rfl, rfl⟩
  change ((Parser.wholeExpression tokens.start).value,
    (Parser.wholeExpression tokens.start).diagnostics) = _
  rw [show Parser.wholeExpression tokens.start = _ from hwhole]

/-- An expression of the grammar is accepted, with its meaning for a tree. -/
theorem derived_is_accepted (tokens : TokenList) (e : Tree)
    (h : tokens.Is false (Derives (.expression false e))) :
    (parseExpression tokens).2 = [] ∧ (parseExpression tokens).1.tree = e := by
  obtain ⟨ts, hs, hbody, hh, hd⟩ := h
  have hrest : (tokens.start.cursor.enter false).rest = ts ++ (hs ++ [tokens.eof]) := by
    rw [← List.append_assoc, ← hbody]
    rfl
  have hf : (tokens.start.cursor.enter false).Faces false ts :=
    ⟨tokens.inMode_start.enter false, _, hrest.symm⟩
  -- behind the expression only the end of the file is to be seen
  have hend : ((tokens.start.cursor.enter false).past ts).peek = tokens.eof := by
    refine peek_of_hidden hf.behind.inMode ?_ hh tokens.eof_kind
    rw [Cursor.past, hrest, List.drop_left]
  have hlen : ts.length < (tokens.start.cursor.enter false).remaining + 1 := by
    rw [Cursor.remaining, hrest, List.length_append]
    omega
  obtain ⟨-, x, hx, htree⟩ := hd.read _ hlen _ hf (by rw [hend, tokens.eof_kind]; decide)
  have hrun : parseExpression tokens = (x, []) :=
    parseExpression_of_reads (hx.congr rfl) (by rw [hend, tokens.eof_kind])
  rw [hrun]
  exact ⟨rfl, htree⟩

/-- The expressions that are accepted are those of the grammar. -/
theorem accepted_iff_derived (tokens : TokenList) (h : ∀ t ∈ tokens.body, t.kind ≠ .eof)
    (e : Tree) : (parseExpression tokens).2 = [] ∧ (parseExpression tokens).1.tree = e ↔
      tokens.Is false (Derives (.expression false e)) := by
  constructor
  · rintro ⟨hd, rfl⟩
    exact (accepted_is_derived tokens h).1 hd
  · exact derived_is_accepted tokens e

end HclSyntax
