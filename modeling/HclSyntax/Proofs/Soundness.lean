import HclSyntax.Proofs.NoSilentError
import HclSyntax.Proofs.Sound.Body

namespace HclSyntax

namespace TokenList

/-- The source is written as told up to the end of the file, in front of which there may be tokens
that are not seen. -/
def Is (tokens : TokenList) (newlines : Bool) (written : List Token → Prop) : Prop :=
  ∃ ts hs, tokens.splitLineComments.body = ts ++ hs ∧ (∀ t ∈ hs, t.hidden newlines) ∧ written ts

theorem kind_splitLineComments {tokens : TokenList} (h : ∀ t ∈ tokens.body, t.kind ≠ .eof) :
    ∀ t ∈ tokens.splitLineComments.body, t.kind ≠ .eof := by
  intro t ht
  obtain ⟨x, hx, hm⟩ := List.mem_flatMap.mp ht
  split at hm
  · simp only [Token.splitNewline, List.mem_cons, List.not_mem_nil, or_false] at hm
    rcases hm with rfl | rfl <;> simp
  · rw [List.mem_singleton.mp hm]
    exact h x hx

theorem ahead_start {tokens : TokenList} (h : ∀ t ∈ tokens.body, t.kind ≠ .eof) :
    tokens.start.cursor.Ahead tokens.splitLineComments.body :=
  ⟨tokens.eof, rfl, tokens.eof_kind, kind_splitLineComments h⟩

/-- A phrase that stops where the file is seen to end is the whole source. -/
theorem is_of_passes {tokens : TokenList} (h : ∀ t ∈ tokens.body, t.kind ≠ .eof) {nl : Bool}
    {c c' : Cursor} {ts : List Token} (hc : c.InMode nl) (hr : c.rest = tokens.start.cursor.rest)
    (hp : c.Passes ts c') (hk : c'.peek.kind = .eof) {written : List Token → Prop}
    (hw : written ts) : tokens.Is nl written := by
  have ha : c.Ahead tokens.splitLineComments.body := by
    obtain ⟨e, hrest, he⟩ := ahead_start h
    exact ⟨e, hr.trans hrest, he⟩
  obtain ⟨hs, hbody, ha'⟩ := ha.passes hp
  exact ⟨ts, hs, hbody, (ha'.hidden (hp.inMode hc) hk).1, hw⟩

theorem inMode_start (tokens : TokenList) : tokens.start.cursor.InMode true :=
  ⟨rfl, tokens.eof_kind⟩

end TokenList

/-- An expression or a file that is accepted is derived, all of it, with its tree as the meaning. -/
theorem accepted_is_derived (tokens : TokenList) (h : ∀ t ∈ tokens.body, t.kind ≠ .eof) :
    ((parseExpression tokens).2 = [] → tokens.Is false fun ts =>
      Derives (.expression false (parseExpression tokens).1.tree) ts) ∧
    ((parseBody tokens .eof).2 = [] → tokens.Is true fun ts =>
      BodyDerives (.file (parseBody tokens .eof).1.tree) ts) := by
  have hc := tokens.inMode_start
  constructor
  · intro hd
    obtain ⟨-, c', ts, hp, hderives, hk⟩ := (Parser.sound_wholeExpression hc).run hd
    exact TokenList.is_of_passes h (hc.enter false) rfl hp hk hderives
  · intro hd
    obtain ⟨-, c', ts, hp, hderives, hk⟩ :=
      (Parser.sound_body hc (TokenList.ahead_start h)).run hd
    exact TokenList.is_of_passes h hc rfl hp hk hderives

/-- The line `a = b` with a comment in front. -/
def commentedLine : TokenList where
  body := [⟨.comment, [0x2F, 0x2A, 0x2A, 0x2F], default⟩, ⟨.identifier, [0x61], default⟩,
    ⟨.assign, [0x3D], default⟩, ⟨.identifier, [0x62], default⟩, ⟨.newline, [0x0A], default⟩]
  eof := ⟨.eof, [], default⟩
  eof_kind := rfl

theorem commentedLine_is_derived : (parseBody commentedLine .eof).2 = [] ∧
    commentedLine.Is true fun ts =>
      BodyDerives (.file (parseBody commentedLine .eof).1.tree) ts := by
  have h : (parseBody commentedLine .eof).2 = [] := by decide +kernel
  exact ⟨h, (accepted_is_derived commentedLine (by decide)).2 h⟩

end HclSyntax
