import HclSyntax.Proofs.Grammar.Derives

namespace HclSyntax

/-- The chunks of a label. -/
inductive LabelText : String → List Token → Prop
  | nil : LabelText "" []
  | chunk {text more : String} {t : Token} {ts ts₁ : List Token} (h : LabelText text ts)
    (hk : t.kind = .quotedChunk) (ht : Sees true t ts₁) (hd : StringChunk.decode t = (more, [])) :
    LabelText (text ++ more) (ts ++ ts₁)

/-- The labels of a block, which are plain strings in quotes. -/
inductive Labels : List String → List Token → Prop
  | nil : Labels [] []
  | label {labels : List String} {text : String} {ts ts₁ ts₂ ts₃ : List Token}
    (h : Labels labels ts) (ho : Mark true .openQuote ts₁) (ht : LabelText text ts₂)
    (hc : Mark true .closeQuote ts₃) : Labels (labels ++ [text]) (ts ++ ts₁ ++ ts₂ ++ ts₃)

/-- The phrases of bodies, each with what it means. -/
inductive BodyPhrase where
  /-- An item, and the body before and after it. -/
  | item (before after : BodyTree)
  /-- Items with a newline after each, and empty lines. -/
  | lines (b : BodyTree)
  /-- What stands between the braces of a block, and the closing one. -/
  | block (b : BodyTree)
  /-- A whole file. The newline after the last item is optional. -/
  | file (b : BodyTree)

open BodyPhrase in
/-- `BodyDerives p ts`: the phrase `p` is written as the tokens `ts`. -/
inductive BodyDerives : BodyPhrase → List Token → Prop
  /-- No name is defined twice. -/
  | attribute {b : BodyTree} {name : String} {e : Tree} {ts₁ ts₂ ts₃ : List Token}
    (hn : Name true name ts₁) (he : Mark true .assign ts₂)
    (hv : Derives (.expression true e) ts₃) (hnew : ∀ a ∈ b.attributes, a.1 ≠ name) :
    BodyDerives (item b ⟨b.attributes ++ [(name, e)], b.blocks⟩) (ts₁ ++ ts₂ ++ ts₃)
  | blockItem {b x : BodyTree} {type : String} {labels : List String}
    {ts₁ ts₂ ts₃ ts₄ : List Token} (hn : Name true type ts₁) (hl : Labels labels ts₂)
    (ho : Mark true .openBrace ts₃) (hb : BodyDerives (block x) ts₄) :
    BodyDerives (item b ⟨b.attributes, b.blocks ++ [⟨type, labels, some x⟩]⟩)
      (ts₁ ++ ts₂ ++ ts₃ ++ ts₄)
  | noLine : BodyDerives (lines ⟨[], []⟩) []
  | emptyLine {b : BodyTree} {ts ts₁ : List Token} (h : BodyDerives (lines b) ts)
    (hn : Mark true .newline ts₁) : BodyDerives (lines b) (ts ++ ts₁)
  | line {b b' : BodyTree} {ts ts₁ ts₂ : List Token} (h : BodyDerives (lines b) ts)
    (hi : BodyDerives (item b b') ts₁) (hn : Mark true .newline ts₂) :
    BodyDerives (lines b') (ts ++ ts₁ ++ ts₂)
  /-- Items on the line of the opening brace are none. -/
  | multiLine {b : BodyTree} {ts ts₁ : List Token} (h : BodyDerives (lines b) ts)
    (hn : ¬ Begins true (·.kind = .identifier) ts) (hc : Mark true .closeBrace ts₁) :
    BodyDerives (block b) (ts ++ ts₁)
  /-- A block on a single line has one attribute. -/
  | singleLine {name : String} {e : Tree} {ts₁ ts₂ ts₃ ts₄ : List Token}
    (hn : Name true name ts₁) (he : Mark true .assign ts₂)
    (hv : Derives (.expression true e) ts₃) (hc : Mark true .closeBrace ts₄) :
    BodyDerives (block ⟨[(name, e)], []⟩) (ts₁ ++ ts₂ ++ ts₃ ++ ts₄)
  | allLines {b : BodyTree} {ts : List Token} (h : BodyDerives (lines b) ts) :
    BodyDerives (file b) ts
  | lastLine {b b' : BodyTree} {ts ts₁ : List Token} (h : BodyDerives (lines b) ts)
    (hi : BodyDerives (item b b') ts₁) : BodyDerives (file b') (ts ++ ts₁)

end HclSyntax
