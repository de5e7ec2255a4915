import HclSyntax.Proofs.Depth.Body
import HclSyntax.Proofs.Written.Value

namespace HclSyntax

/-- The range is that of a name in front of which all brackets are closed. -/
def TokenList.Outermost (tokens : TokenList) (r : SourceRange) : Prop :=
  ∃ pre name post, tokens.body = pre ++ name :: post ∧ closes pre [] ∧
    name.kind = .identifier ∧ name.range = r

namespace TokenList

theorem outermost_iff {tokens : TokenList} {r : SourceRange} : tokens.Outermost r ↔
    ∃ i : Fin tokens.body.length, closes (tokens.body.take i) [] ∧
      tokens.body[i].kind = .identifier ∧ tokens.body[i].range = r := by
  constructor
  · rintro ⟨pre, name, post, hbody, hpre, hk, hr⟩
    refine ⟨⟨pre.length, by simp [hbody]⟩, ?_⟩
    simpa [hbody] using ⟨hpre, hk, hr⟩
  · rintro ⟨i, hpre, hk, hr⟩
    refine ⟨_, tokens.body[i], tokens.body.drop (i + 1), ?_, hpre, hk, hr⟩
    exact (List.take_append_drop i _).symm.trans
      (congrArg _ (List.drop_eq_getElem_cons i.isLt))

instance (tokens : TokenList) (r : SourceRange) : Decidable (tokens.Outermost r) :=
  decidable_of_iff _ outermost_iff.symm

end TokenList

theorem closes_splitComments (ts : List Token) (pending : List TokenKind) :
    closes (splitComments ts) pending = closes ts pending := by
  induction ts generalizing pending with
  | nil => rfl
  | cons t ts ih =>
    have hcons : closes (t :: splitComments ts) pending = closes (t :: ts) pending := by
      rw [closes, closes, ih, ih, ih]
    rw [← hcons, splitComments, List.flatMap_cons]
    split
    · rename_i h
      simp only [Token.endsWithNewline, Bool.and_eq_true, beq_iff_eq] at h
      have hflat : t.kind.Flat := by rw [h.1.1]; decide
      rw [closes_flat hflat, Token.splitNewline, List.cons_append, List.cons_append,
        closes_flat (by exact ⟨rfl, rfl⟩), closes_flat (by exact ⟨rfl, rfl⟩)]
      rfl
    · rfl

/-- A token that is no piece of a comment stands where it stood before. -/
theorem splitComments_split {ts pre post : List Token} {t : Token}
    (h : splitComments ts = pre ++ t :: post) (hc : t.kind ≠ .comment) (hn : t.kind ≠ .newline) :
    ∃ before after, ts = before ++ t :: after ∧ splitComments before = pre := by
  induction ts generalizing pre with
  | nil => simp at h
  | cons x ts ih =>
    have hx : splitComments [x] ++ splitComments ts = pre ++ t :: post := by
      rw [← splitComments_append]
      exact h
    -- the token is behind the pieces of the first one, or it is the first one
    have hbehind (pre' : List Token) (hpre : pre = splitComments [x] ++ pre')
        (h : splitComments ts = pre' ++ t :: post) :
        ∃ before after, x :: ts = before ++ t :: after ∧ splitComments before = pre := by
      obtain ⟨before, after, rfl, hbefore⟩ := ih h
      refine ⟨x :: before, after, rfl, ?_⟩
      rw [hpre, ← hbefore, ← splitComments_append]
      rfl
    rcases List.append_eq_append_iff.mp hx with ⟨mid, hpre, hmid⟩ | ⟨mid, hpieces, hmid⟩
    · exact hbehind mid hpre hmid
    cases mid with
    | nil => exact hbehind [] (by simp [hpieces]) hmid.symm
    | cons y mid =>
      obtain ⟨rfl, -⟩ := List.cons.inj hmid
      have hsingle : splitComments [x] = [x] := by
        by_cases hx : x.endsWithNewline
        · have hmem : t ∈ splitComments [x] := by simp [hpieces]
          simp only [splitComments, List.flatMap_cons, hx, if_true, List.flatMap_nil,
            List.append_nil, Token.splitNewline, List.mem_cons, List.not_mem_nil, or_false] at hmem
          rcases hmem with rfl | rfl
          · exact absurd rfl hc
          · exact absurd rfl hn
        · simp [splitComments, hx]
      rw [hsingle] at hpieces
      obtain ⟨rfl, hxt⟩ := List.append_eq_singleton_iff.mp hpieces.symm |>.resolve_right (by simp)
      obtain rfl := (List.cons.inj hxt).1
      exact ⟨[], ts, rfl, rfl⟩

namespace TokenList

variable {tokens : TokenList} {r : SourceRange}

theorem body_splitLineComments :
    tokens.splitLineComments.body = splitComments tokens.body := rfl

theorem outermost_of_split (h : tokens.splitLineComments.Outermost r) : tokens.Outermost r := by
  obtain ⟨pre, name, post, hbody, hpre, hk, hr⟩ := h
  obtain ⟨before, after, hsplit, rfl⟩ :=
    splitComments_split hbody (by rw [hk]; decide) (by rw [hk]; decide)
  exact ⟨before, name, after, hsplit, by rwa [closes_splitComments] at hpre, hk, hr⟩

/-- At the beginning of a balanced source nothing is pending. -/
theorem pends_start (hb : closes tokens.body []) (he : ∀ t ∈ tokens.body, t.kind ≠ .eof) :
    tokens.start.cursor.Pends tokens.splitLineComments [] where
  whole := rfl
  ends := tokens.eof_kind
  ahead := by
    refine .inr ⟨tokens.splitLineComments.body, rfl, fun t ht => ?_, ?_⟩
    · obtain ⟨x, hx, hp⟩ := List.mem_flatMap.mp ht
      split at hp
      · simp only [Token.splitNewline, List.mem_cons, List.not_mem_nil, or_false] at hp
        rcases hp with rfl | rfl <;> simp
      · exact List.mem_singleton.mp hp ▸ he x hx
    · rw [body_splitLineComments, closes_splitComments]
      exact hb

end TokenList

/-- Where nothing is pending a name is outermost. -/
theorem Cursor.AtDepth.outermost {src : TokenList} {c : Cursor} (hb : closes src.body [])
    (h : c.AtDepth src []) (hk : c.peek.kind = .identifier) : src.Outermost c.peek.range := by
  obtain ⟨pending, hp, hs⟩ := h
  obtain rfl := List.sublist_nil.mp hs
  obtain ⟨hs, ts, hbody, -, -, hc⟩ := hp.around (by simp [hk])
  exact ⟨_, _, ts, hbody, closes_of_append (hbody ▸ hb) hc, hk, rfl⟩

/-- Whatever is wrong in a source whose brackets are balanced, all names of attributes and blocks
that the file has stand outside of all brackets. That is so as long as no bracket can be taken for
the closer of another, all parentheses are found closed, and no parenthesis opens where the
separator of arguments is missing. -/
theorem items_are_outermost (tokens : TokenList) (hb : closes tokens.body [])
    (he : ∀ t ∈ tokens.body, t.kind ≠ .eof) (ho : Orderly tokens.splitLineComments.body)
    (hd : ∀ d ∈ (parseBody tokens .eof).2, d.Harmless tokens.splitLineComments.body) :
    (∀ a ∈ (parseBody tokens .eof).1.attributes, tokens.Outermost a.nameRange) ∧
      ∀ b ∈ (parseBody tokens .eof).1.blocks, tokens.Outermost b.typeRange := by
  have hstart := tokens.pends_start hb he
  have hsplit : closes tokens.splitLineComments.body [] := by
    rw [TokenList.body_splitLineComments, closes_splitComments]
    exact hb
  have hbody : Parser.body .eof tokens.start =
      Parser.bodyWith (Parser.body .closeBrace) .eof tokens.start :=
    Parser.settles_bodies.solves .eof tokens.start tokens.eof_kind
  have hnames := Parser.named_bodyWith ho (Parser.closesBlock_body ho)
    (Parser.settles_bodies.framed .closeBrace) (N := tokens.splitLineComments.Outermost)
    (fun c hc hk => hc.outermost hsplit hk) ⟨[], hstart, List.nil_sublist _⟩ false
  have hd : ∀ d ∈ (Parser.body .eof tokens.start).diagnostics,
      d.Harmless tokens.splitLineComments.body := hd
  rw [hbody] at hd
  have hnames := hnames hd
  have hvalue : (parseBody tokens .eof).1 =
      (Parser.bodyWith (Parser.body .closeBrace) .eof tokens.start).value :=
    congrArg Parsed.value hbody
  rw [hvalue]
  exact ⟨fun a ha => TokenList.outermost_of_split (hnames.1 a ha),
    fun b hb => TokenList.outermost_of_split (hnames.2 b hb)⟩

/-- A token on the line and in the column, behind so many bytes. -/
def Token.placed (kind : TokenKind) (bytes : List UInt8) (line column byte : UInt32) : Token :=
  let width := UInt32.ofNat bytes.length
  ⟨kind, bytes, ⟨"a", ⟨line, column, byte⟩, ⟨line, column + width, byte + width⟩⟩⟩

/-- No bracket is an index, and there are none but brackets and parentheses. -/
theorem Orderly.of_plain {ts : List Token}
    (hb : ∀ i : Fin ts.length, ts[i].kind = .openBracket →
      endsWithOperand (ts.take i).reverse = false)
    (hk : ∀ t ∈ ts, t.kind ∉
      [TokenKind.openQuote, .openHeredoc, .interpolation, .directive, .openBrace]) :
    Orderly ts where
  keys {pre inner post o c} h ho hp _ _ := by
    have htake : ts.take pre.length = pre := by rw [h, List.take_left]
    have hlast := hb ⟨pre.length, by simp [h]⟩ (by simpa [h] using ho)
    rw [htake, hp] at hlast
    cases hlast
  apart {pre post o} h ho _ := by
    refine hk o (by simp [h]) ?_
    simp only [List.mem_cons, List.not_mem_nil, or_false] at ho ⊢
    tauto
  items {pre post o} h ho _ _ := hk o (by simp [h]) (by simp [ho])

/-- A tuple without a separator, on two lines, and two attributes: `x = [1 2`, `y = 3]`, `z = 4` and
`w = [for v in [1, 2] : v]`. The bracket behind `in` is no index. -/
def brokenTuple : TokenList where
  body := [.placed .identifier [0x78] 1 1 0, .placed .assign [0x3D] 1 3 2,
    .placed .openBracket [0x5B] 1 5 4, .placed .number [0x31] 1 6 5, .placed .number [0x32] 1 8 7,
    .placed .newline [0x0A] 1 9 8, .placed .identifier [0x79] 2 1 9, .placed .assign [0x3D] 2 3 11,
    .placed .number [0x33] 2 5 13, .placed .closeBracket [0x5D] 2 6 14,
    .placed .newline [0x0A] 2 7 15, .placed .identifier [0x7A] 3 1 16,
    .placed .assign [0x3D] 3 3 18, .placed .number [0x34] 3 5 20, .placed .newline [0x0A] 3 6 21,
    .placed .identifier [0x77] 4 1 22, .placed .assign [0x3D] 4 3 24,
    .placed .openBracket [0x5B] 4 5 26, .placed .identifier [0x66, 0x6F, 0x72] 4 6 27,
    .placed .identifier [0x76] 4 10 31, .placed .identifier [0x69, 0x6E] 4 12 33,
    .placed .openBracket [0x5B] 4 15 36, .placed .number [0x31] 4 16 37,
    .placed .comma [0x2C] 4 17 38, .placed .number [0x32] 4 19 40,
    .placed .closeBracket [0x5D] 4 20 41, .placed .colon [0x3A] 4 22 43,
    .placed .identifier [0x76] 4 24 45, .placed .closeBracket [0x5D] 4 25 46,
    .placed .newline [0x0A] 4 26 47]
  eof := .placed .eof [] 5 1 48
  eof_kind := @rfl _ TokenKind.eof

theorem brokenTuple_items_are_outermost :
    (closes brokenTuple.body [] ∧ (∀ t ∈ brokenTuple.body, t.kind ≠ .eof) ∧
      Orderly brokenTuple.splitLineComments.body ∧
      (parseBody brokenTuple .eof).2 ≠ [] ∧
      ∀ d ∈ (parseBody brokenTuple .eof).2, d.Harmless brokenTuple.splitLineComments.body) ∧
    (∀ a ∈ (parseBody brokenTuple .eof).1.attributes, brokenTuple.Outermost a.nameRange) ∧
      ∀ b ∈ (parseBody brokenTuple .eof).1.blocks, brokenTuple.Outermost b.typeRange := by
  have hb : closes brokenTuple.body [] := by decide
  have he : ∀ t ∈ brokenTuple.body, t.kind ≠ .eof := by decide
  have ho : Orderly brokenTuple.splitLineComments.body := .of_plain (by decide) (by decide)
  have hd : ∀ d ∈ (parseBody brokenTuple .eof).2,
      d.Harmless brokenTuple.splitLineComments.body := by
    unfold Diagnostic.Harmless
    decide +kernel
  exact ⟨⟨hb, he, ho, by decide +kernel, hd⟩, items_are_outermost brokenTuple hb he ho hd⟩

/-- A brace that does not belong in parentheses, with a definition in it: `x = (a {`, `y = 1` and
`})`. -/
def braceInParens : TokenList where
  body := [.placed .identifier [0x78] 1 1 0, .placed .assign [0x3D] 1 3 2,
    .placed .openParen [0x28] 1 5 4, .placed .identifier [0x61] 1 6 5,
    .placed .openBrace [0x7B] 1 8 7, .placed .newline [0x0A] 1 9 8,
    .placed .identifier [0x79] 2 1 9, .placed .assign [0x3D] 2 3 11, .placed .number [0x31] 2 5 13,
    .placed .newline [0x0A] 2 6 14, .placed .closeBrace [0x7D] 3 1 15,
    .placed .closeParen [0x29] 3 2 16, .placed .newline [0x0A] 3 3 17]
  eof := .placed .eof [] 4 1 18
  eof_kind := @rfl _ TokenKind.eof

/-- The token in the place of a closing parenthesis is passed uncounted, even if it opens a bracket:
in a balanced source a definition inside of that is taken for one of the file. -/
theorem braceInParens_invents_item :
    closes braceInParens.body [] ∧ (∀ t ∈ braceInParens.body, t.kind ≠ .eof) ∧
      (braceInParens.toList.map Token.range).Nodup ∧
      ∃ a ∈ (parseBody braceInParens .eof).1.attributes,
        a.name = "y" ∧ ¬braceInParens.Outermost a.nameRange := by
  refine ⟨by decide, by decide, by decide, ?_⟩
  decide +kernel

end HclSyntax
