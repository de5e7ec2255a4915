import HclSyntax.Parser.Operator
import HclSyntax.Parser.Template
import HclSyntax.Proofs.Grammar.Nested

namespace HclSyntax

/-- Tokens that are not seen; `newlines` tells whether newlines count. -/
def Token.hidden (newlines : Bool) (t : Token) : Bool :=
  t.kind == .comment || (t.kind == .newline && !newlines)

/-- The token `t` and in front of it tokens that are not seen. -/
def Sees (newlines : Bool) (t : Token) (ts : List Token) : Prop :=
  ∃ hs, ts = hs ++ [t] ∧ (∀ h ∈ hs, h.hidden newlines) ∧ t.hidden newlines = false

/-- One token of the kind. -/
def Mark (newlines : Bool) (kind : TokenKind) (ts : List Token) : Prop :=
  ∃ t, t.kind = kind ∧ Sees newlines t ts

/-- One name. -/
def Name (newlines : Bool) (text : String) (ts : List Token) : Prop :=
  ∃ t, t.kind = .identifier ∧ t.text = text ∧ Sees newlines t ts

/-- One name that is a keyword. -/
def Keyword (newlines : Bool) (keyword : String) (ts : List Token) : Prop :=
  ∃ t : Token, t.isKeyword keyword ∧ Sees newlines t ts

/-- Tokens the first of which to be seen has the property. -/
def Begins (newlines : Bool) (p : Token → Prop) (ts : List Token) : Prop :=
  ∃ t ts₁ ts₂, p t ∧ Sees newlines t ts₁ ∧ ts = ts₁ ++ ts₂

/-- The variables of a comprehension or a loop, one or two, and the keyword after them. -/
inductive Binders : Option String → String → List Token → Prop
  | value {v : String} {ts₁ ts₂ : List Token} (hv : Name false v ts₁)
    (hin : Keyword false "in" ts₂) : Binders none v (ts₁ ++ ts₂)
  | keyValue {k v : String} {ts₁ ts₂ ts₃ ts₄ : List Token} (hk : Name false k ts₁)
    (hc : Mark false .comma ts₂) (hv : Name false v ts₃) (hin : Keyword false "in" ts₄) :
    Binders (some k) v (ts₁ ++ ts₂ ++ ts₃ ++ ts₄)

/-- The steps of an attribute splat. -/
inductive SplatPath (newlines : Bool) : List Step → List Token → Prop
  | nil : SplatPath newlines [] []
  | attr {steps : List Step} {name : String} {ts ts₁ ts₂ : List Token}
    (h : SplatPath newlines steps ts) (hd : Mark newlines .dot ts₁)
    (hn : Name newlines name ts₂) : SplatPath newlines (steps ++ [.attr name]) (ts ++ ts₁ ++ ts₂)
  | index {steps : List Step} {t : Token} {n : Number} {ts ts₁ ts₂ : List Token}
    (h : SplatPath newlines steps ts) (hd : Mark newlines .dot ts₁) (hk : t.kind = .number)
    (hn : Number.parse t.text = .ok n) (ht : Sees newlines t ts₂) :
    SplatPath newlines (steps ++ [.index (.number n)]) (ts ++ ts₁ ++ ts₂)

def UnaryOp.kind : UnaryOp → TokenKind
  | .negate => .minus
  | .not => .not

/-- Which suffixes may follow. Behind an attribute splat every dot is a step of it, and behind a
full splat everything is. -/
inductive Further where
  | all | brackets | nothing
  deriving DecidableEq

/-- The phrases of the grammar, each with what it means. -/
inductive Phrase where
  | expression (newlines : Bool) (e : Tree)
  /-- Operands with operators of these levels between them. -/
  | operators (levels : List Level) (newlines : Bool) (e : Tree)
  | operand (newlines : Bool) (e : Tree)
  | term (newlines : Bool) (e : Tree)
  /-- The suffixes that make `e` of `base`. -/
  | suffixes (base : Tree) (further : Further) (newlines : Bool) (e : Tree)
  /-- Expressions with a comma after each. -/
  | elements (es : List Tree)
  /-- Expressions with commas between them; one after the last is optional. -/
  | sequence (es : List Tree)
  /-- The items of an object, with a separator after each. -/
  | items (xs : List (Tree × Tree))
  /-- The items of an object; the separator after the last one is optional. -/
  | fields (xs : List (Tree × Tree))
  | item (key value : Tree)
  | key (e : Tree)
  /-- The condition of a comprehension, if there is one. -/
  | filter (condition : Option Tree)
  /-- A directive between its markers. -/
  | directive (d : Sequence)
  /-- The parts of a template. -/
  | parts (newlines : Bool) (raws : List RawPiece)

open Phrase in
/-- `Derives p ts`: the phrase `p` is written as the tokens `ts`. -/
inductive Derives : Phrase → List Token → Prop
  | plain {nl : Bool} {e : Tree} {ts : List Token}
    (h : Derives (operators BinaryOp.levels nl e) ts) : Derives (expression nl e) ts
  | conditional {nl : Bool} {c a b : Tree} {ts₁ ts₂ ts₃ ts₄ ts₅ : List Token}
    (hc : Derives (operators BinaryOp.levels nl c) ts₁) (hq : Mark nl .question ts₂)
    (ha : Derives (expression nl a) ts₃) (hk : Mark nl .colon ts₄)
    (hb : Derives (expression nl b) ts₅) :
    Derives (expression nl (.conditional c a b)) (ts₁ ++ ts₂ ++ ts₃ ++ ts₄ ++ ts₅)
  /- operators -/
  | single {nl : Bool} {e : Tree} {ts : List Token} (h : Derives (operand nl e) ts) :
    Derives (operators [] nl e) ts
  | tighter {level : Level} {levels : List Level} {nl : Bool} {e : Tree} {ts : List Token}
    (h : Derives (operators levels nl e) ts) : Derives (operators (level :: levels) nl e) ts
  | binary {level : Level} {levels : List Level} {nl : Bool} {k : TokenKind} {op : BinaryOp}
    {l r : Tree} {ts₁ ts₂ ts₃ : List Token}
    (hl : Derives (operators (level :: levels) nl l) ts₁) (ho : level.lookup k = some op)
    (hk : Mark nl k ts₂) (hr : Derives (operators levels nl r) ts₃) :
    Derives (operators (level :: levels) nl (.binary op l r)) (ts₁ ++ ts₂ ++ ts₃)
  /- operands -/
  | unary {nl : Bool} {op : UnaryOp} {e : Tree} {ts₁ ts₂ : List Token}
    (ho : Mark nl op.kind ts₁) (h : Derives (operand nl e) ts₂) :
    Derives (operand nl (.unary op e)) (ts₁ ++ ts₂)
  | suffixed {nl : Bool} {base e : Tree} {f : Further} {ts₁ ts₂ : List Token}
    (hb : Derives (term nl base) ts₁) (hs : Derives (suffixes base f nl e) ts₂) :
    Derives (operand nl e) (ts₁ ++ ts₂)
  /- terms -/
  | number {nl : Bool} {t : Token} {n : Number} {ts : List Token} (hk : t.kind = .number)
    (hn : Number.parse t.text = .ok n) (ht : Sees nl t ts) :
    Derives (term nl (.literal (.number n))) ts
  | name {nl : Bool} {text : String} {ts : List Token} (h : Name nl text ts) :
    Derives (term nl (.name text)) ts
  | parens {nl : Bool} {e : Tree} {ts₁ ts₂ ts₃ : List Token} (ho : Mark nl .openParen ts₁)
    (h : Derives (expression false e) ts₂) (hc : Mark false .closeParen ts₃) :
    Derives (term nl e) (ts₁ ++ ts₂ ++ ts₃)
  | call {nl : Bool} {f : String} {es : List Tree} {ts₁ ts₂ ts₃ ts₄ : List Token}
    (hf : Name nl f ts₁) (ho : Mark nl .openParen ts₂) (hes : Derives (sequence es) ts₃)
    (hc : Mark false .closeParen ts₄) :
    Derives (term nl (.call f es false)) (ts₁ ++ ts₂ ++ ts₃ ++ ts₄)
  | callExpanded {nl : Bool} {f : String} {es : List Tree} {e : Tree}
    {ts₁ ts₂ ts₃ ts₄ ts₅ ts₆ : List Token} (hf : Name nl f ts₁) (ho : Mark nl .openParen ts₂)
    (hes : Derives (elements es) ts₃) (he : Derives (expression false e) ts₄)
    (hx : Mark false .ellipsis ts₅) (hc : Mark false .closeParen ts₆) :
    Derives (term nl (.call f (es ++ [e]) true)) (ts₁ ++ ts₂ ++ ts₃ ++ ts₄ ++ ts₅ ++ ts₆)
  | tuple {nl : Bool} {es : List Tree} {ts₁ ts₂ ts₃ : List Token}
    (ho : Mark nl .openBracket ts₁) (hes : Derives (sequence es) ts₂)
    (hfor : ¬ Begins false (·.isKeyword "for") ts₂) (hc : Mark false .closeBracket ts₃) :
    Derives (term nl (.tuple es)) (ts₁ ++ ts₂ ++ ts₃)
  | object {nl : Bool} {xs : List (Tree × Tree)} {ts₁ ts₂ ts₃ : List Token}
    (ho : Mark nl .openBrace ts₁) (hxs : Derives (fields xs) ts₂)
    (hfor : ¬ Begins true (·.isKeyword "for") ts₂) (hc : Mark true .closeBrace ts₃) :
    Derives (term nl (.object xs)) (ts₁ ++ ts₂ ++ ts₃)
  /-- A comprehension of a tuple has neither a key nor groups. -/
  | tupleFor {nl : Bool} {k : Option String} {v : String} {c value : Tree} {cond : Option Tree}
    {ts₁ ts₂ ts₃ ts₄ ts₅ ts₆ ts₇ ts₈ : List Token}
    (ho : Mark nl .openBracket ts₁) (hfor : Keyword false "for" ts₂) (hb : Binders k v ts₃)
    (hcoll : Derives (expression false c) ts₄) (hcolon : Mark false .colon ts₅)
    (hv : Derives (expression false value) ts₆) (hf : Derives (filter cond) ts₇)
    (hc : Mark false .closeBracket ts₈) :
    Derives (term nl (.comprehension k v c none value cond false))
      (ts₁ ++ ts₂ ++ ts₃ ++ ts₄ ++ ts₅ ++ ts₆ ++ ts₇ ++ ts₈)
  /-- A comprehension of an object has a key. -/
  | objectFor {nl : Bool} {k : Option String} {v : String} {c key value : Tree}
    {cond : Option Tree} {ts₁ ts₂ ts₃ ts₄ ts₅ ts₆ ts₇ ts₈ ts₉ ts₁₀ : List Token}
    (ho : Mark nl .openBrace ts₁) (hfor : Keyword true "for" ts₂) (hb : Binders k v ts₃)
    (hcoll : Derives (expression false c) ts₄) (hcolon : Mark false .colon ts₅)
    (hk : Derives (expression false key) ts₆) (harrow : Mark false .fatArrow ts₇)
    (hv : Derives (expression false value) ts₈) (hf : Derives (filter cond) ts₉)
    (hc : Mark false .closeBrace ts₁₀) :
    Derives (term nl (.comprehension k v c (some key) value cond false))
      (ts₁ ++ ts₂ ++ ts₃ ++ ts₄ ++ ts₅ ++ ts₆ ++ ts₇ ++ ts₈ ++ ts₉ ++ ts₁₀)
  | objectForGroups {nl : Bool} {k : Option String} {v : String} {c key value : Tree}
    {cond : Option Tree} {ts₁ ts₂ ts₃ ts₄ ts₅ ts₆ ts₇ ts₈ ts₉ ts₁₀ ts₁₁ : List Token}
    (ho : Mark nl .openBrace ts₁) (hfor : Keyword true "for" ts₂) (hb : Binders k v ts₃)
    (hcoll : Derives (expression false c) ts₄) (hcolon : Mark false .colon ts₅)
    (hk : Derives (expression false key) ts₆) (harrow : Mark false .fatArrow ts₇)
    (hv : Derives (expression false value) ts₈) (hg : Mark false .ellipsis ts₉)
    (hf : Derives (filter cond) ts₁₀) (hc : Mark false .closeBrace ts₁₁) :
    Derives (term nl (.comprehension k v c (some key) value cond true))
      (ts₁ ++ ts₂ ++ ts₃ ++ ts₄ ++ ts₅ ++ ts₆ ++ ts₇ ++ ts₈ ++ ts₉ ++ ts₁₀ ++ ts₁₁)
  | quoted {nl : Bool} {t : Token} {raws : List RawPiece} {es : List Tree}
    {ts₁ ts₂ ts₃ : List Token} (hk : t.kind = .openQuote ∨ t.kind = .openHeredoc)
    (ho : Sees nl t ts₁) (hp : Derives (parts nl raws) ts₂)
    (hn : Nested (RawPiece.pieces raws) es) (hc : Mark nl t.kind.opposite ts₃) :
    Derives (term nl (.ofPieces (RawPiece.pieces raws) es)) (ts₁ ++ ts₂ ++ ts₃)
  /- suffixes -/
  | noSuffix {nl : Bool} {base : Tree} : Derives (suffixes base .all nl base) []
  | attr {nl : Bool} {base e : Tree} {name : String} {ts ts₁ ts₂ : List Token}
    (h : Derives (suffixes base .all nl e) ts) (hd : Mark nl .dot ts₁) (hn : Name nl name ts₂) :
    Derives (suffixes base .all nl (e.step (.attr name))) (ts ++ ts₁ ++ ts₂)
  | constantIndex {nl : Bool} {base e key : Tree} {f : Further} {v : Value}
    {ts ts₁ ts₂ ts₃ : List Token} (h : Derives (suffixes base f nl e) ts) (hf : f ≠ .nothing)
    (ho : Mark nl .openBracket ts₁) (hk : Derives (expression false key) ts₂)
    (hv : key.staticKey? = some v) (hc : Mark false .closeBracket ts₃) :
    Derives (suffixes base .all nl (e.step (.index v))) (ts ++ ts₁ ++ ts₂ ++ ts₃)
  | index {nl : Bool} {base e key : Tree} {f : Further} {ts ts₁ ts₂ ts₃ : List Token}
    (h : Derives (suffixes base f nl e) ts) (hf : f ≠ .nothing) (ho : Mark nl .openBracket ts₁)
    (hk : Derives (expression false key) ts₂) (hv : key.staticKey? = none)
    (hc : Mark false .closeBracket ts₃) :
    Derives (suffixes base .all nl (.index e key)) (ts ++ ts₁ ++ ts₂ ++ ts₃)
  | attributeSplat {nl : Bool} {base e : Tree} {steps : List Step} {ts ts₁ ts₂ ts₃ : List Token}
    (h : Derives (suffixes base .all nl e) ts) (hd : Mark nl .dot ts₁) (hs : Mark nl .star ts₂)
    (hp : SplatPath nl steps ts₃) :
    Derives (suffixes base .brackets nl (.splat e (steps.foldl Tree.step .element)))
      (ts ++ ts₁ ++ ts₂ ++ ts₃)
  | fullSplat {nl : Bool} {base e each : Tree} {f f' : Further} {ts ts₁ ts₂ ts₃ ts₄ : List Token}
    (h : Derives (suffixes base f nl e) ts) (hf : f ≠ .nothing) (ho : Mark nl .openBracket ts₁)
    (hs : Mark nl .star ts₂) (hc : Mark nl .closeBracket ts₃)
    (heach : Derives (suffixes .element f' nl each) ts₄) :
    Derives (suffixes base .nothing nl (.splat e each)) (ts ++ ts₁ ++ ts₂ ++ ts₃ ++ ts₄)
  /- lists -/
  | noElement : Derives (elements []) []
  | element {es : List Tree} {e : Tree} {ts ts₁ ts₂ : List Token} (h : Derives (elements es) ts)
    (he : Derives (expression false e) ts₁) (hc : Mark false .comma ts₂) :
    Derives (elements (es ++ [e])) (ts ++ ts₁ ++ ts₂)
  | elements {es : List Tree} {ts : List Token} (h : Derives (elements es) ts) :
    Derives (sequence es) ts
  | lastElement {es : List Tree} {e : Tree} {ts ts₁ : List Token} (h : Derives (elements es) ts)
    (he : Derives (expression false e) ts₁) : Derives (sequence (es ++ [e])) (ts ++ ts₁)
  | noItem : Derives (items []) []
  | emptyLine {xs : List (Tree × Tree)} {ts ts₁ : List Token} (h : Derives (items xs) ts)
    (hn : Mark true .newline ts₁) : Derives (items xs) (ts ++ ts₁)
  | commaItem {xs : List (Tree × Tree)} {k v : Tree} {ts ts₁ ts₂ : List Token}
    (h : Derives (items xs) ts) (hx : Derives (item k v) ts₁) (hc : Mark true .comma ts₂) :
    Derives (items (xs ++ [(k, v)])) (ts ++ ts₁ ++ ts₂)
  | lineItem {xs : List (Tree × Tree)} {k v : Tree} {ts ts₁ ts₂ : List Token}
    (h : Derives (items xs) ts) (hx : Derives (item k v) ts₁) (hc : Mark true .newline ts₂) :
    Derives (items (xs ++ [(k, v)])) (ts ++ ts₁ ++ ts₂)
  | items {xs : List (Tree × Tree)} {ts : List Token} (h : Derives (items xs) ts) :
    Derives (fields xs) ts
  | lastItem {xs : List (Tree × Tree)} {k v : Tree} {ts ts₁ : List Token}
    (h : Derives (items xs) ts) (hx : Derives (item k v) ts₁) :
    Derives (fields (xs ++ [(k, v)])) (ts ++ ts₁)
  | equalsItem {k v : Tree} {ts₁ ts₂ ts₃ : List Token} (hk : Derives (key k) ts₁)
    (hs : Mark true .assign ts₂) (hv : Derives (expression true v) ts₃) :
    Derives (item k v) (ts₁ ++ ts₂ ++ ts₃)
  | colonItem {k v : Tree} {ts₁ ts₂ ts₃ : List Token} (hk : Derives (key k) ts₁)
    (hs : Mark true .colon ts₂) (hv : Derives (expression true v) ts₃) :
    Derives (item k v) (ts₁ ++ ts₂ ++ ts₃)
  /-- A name for a key stands for itself. -/
  | bareKey {text : String} {ts : List Token} (h : Name true text ts) :
    Derives (key (.literal (.string text))) ts
  /-- To stand for its value a name needs parentheses. -/
  | expressionKey {e : Tree} {ts : List Token} (h : Derives (expression true e) ts)
    (hn : e.isName → ¬ Begins true (·.kind = .identifier) ts) : Derives (key e) ts
  | noFilter : Derives (filter none) []
  | someFilter {e : Tree} {ts₁ ts₂ : List Token} (hi : Keyword false "if" ts₁)
    (h : Derives (expression false e) ts₂) : Derives (filter (some e)) (ts₁ ++ ts₂)
  /- templates -/
  | ifStart {e : Tree} {ts₁ ts₂ : List Token} (hi : Name false "if" ts₁)
    (h : Derives (expression false e) ts₂) : Derives (directive (.ifStart e)) (ts₁ ++ ts₂)
  | elseMark {ts : List Token} (h : Name false "else" ts) : Derives (directive .elseMark) ts
  | endif {ts : List Token} (h : Name false "endif" ts) : Derives (directive .endif) ts
  | forStart {k : Option String} {v : String} {c : Tree} {ts₁ ts₂ ts₃ : List Token}
    (hf : Name false "for" ts₁) (hb : Binders k v ts₂) (h : Derives (expression false c) ts₃) :
    Derives (directive (.forStart k v c)) (ts₁ ++ ts₂ ++ ts₃)
  | endfor {ts : List Token} (h : Name false "endfor" ts) : Derives (directive .endfor) ts
  | noPart {nl : Bool} : Derives (parts nl []) []
  | chunk {nl : Bool} {raws : List RawPiece} {t : Token} {text : String} {ts ts₁ : List Token}
    (h : Derives (parts nl raws) ts) (hk : t.kind = .quotedChunk ∨ t.kind = .plainChunk)
    (ht : Sees nl t ts₁) (hd : StringChunk.decode t = (text, [])) :
    Derives (parts nl (raws ++ [.text text])) (ts ++ ts₁)
  | interpolation {nl : Bool} {raws : List RawPiece} {o c : Token} {e : Tree}
    {ts ts₁ ts₂ ts₃ : List Token} (h : Derives (parts nl raws) ts)
    (hok : o.kind = .interpolation) (ho : Sees nl o ts₁) (he : Derives (expression false e) ts₂)
    (hck : c.kind = .sequenceEnd) (hc : Sees false c ts₃) :
    Derives (parts nl (raws ++ [.sequence o.stripsBefore c.stripsAfter (.interpolation e)]))
      (ts ++ ts₁ ++ ts₂ ++ ts₃)
  | directive {nl : Bool} {raws : List RawPiece} {o c : Token} {d : Sequence}
    {ts ts₁ ts₂ ts₃ : List Token} (h : Derives (parts nl raws) ts)
    (hok : o.kind = .directive) (ho : Sees nl o ts₁) (hd : Derives (directive d) ts₂)
    (hck : c.kind = .sequenceEnd) (hc : Sees false c ts₃) :
    Derives (parts nl (raws ++ [.sequence o.stripsBefore c.stripsAfter d]))
      (ts ++ ts₁ ++ ts₂ ++ ts₃)

end HclSyntax
