import HclSyntax.Proofs.Frame
import HclSyntax.Proofs.Grammar.Balanced
import HclSyntax.Proofs.Grammar.Passing
import HclSyntax.Proofs.Text.Utf8

namespace HclSyntax

theorem TokenKind.not_isOpener {k : TokenKind} (h : k.isCloser) : k.isOpener = false := by
  cases k <;> first | rfl | cases h

section
variable {t : Token} {ts ts' : List Token} {pending pending' : List TokenKind} {k : TokenKind}

/-- What one token does to the closers that are pending in front of it. -/
theorem closes_cons (h : closes (t :: ts) pending) :
    (t.kind.isOpener ∧ closes ts (t.kind.opposite :: pending)) ∨
    (t.kind.isCloser ∧ ∃ below, pending = t.kind :: below ∧ closes ts below) ∨
    (t.kind.Flat ∧ closes ts pending) := by
  by_cases ho : t.kind.isOpener
  · exact .inl ⟨ho, closes_opener ho ▸ h⟩
  by_cases hc : t.kind.isCloser
  · rw [closes, if_neg ho, if_pos hc, Bool.and_eq_true, beq_iff_eq] at h
    obtain ⟨below, rfl⟩ := List.head?_eq_some_iff.mp h.1
    exact .inr (.inl ⟨hc, below, rfl, h.2⟩)
  · have hflat : t.kind.Flat := ⟨Bool.eq_false_iff.mpr ho, Bool.eq_false_iff.mpr hc⟩
    exact .inr (.inr ⟨hflat, closes_flat hflat ▸ h⟩)

/-- Tokens close one list of brackets only. -/
theorem closes_unique (h : closes ts pending) (h' : closes ts pending') : pending = pending' := by
  induction ts generalizing pending pending' with
  | nil => rw [List.isEmpty_iff.mp h, List.isEmpty_iff.mp h']
  | cons t ts ih =>
    rcases closes_cons h with ⟨ho, hs⟩ | ⟨hc, below, rfl, hs⟩ | ⟨hf, hs⟩
    · rw [closes_opener ho] at h'
      exact (List.cons.inj (ih hs h')).2
    · rcases closes_cons h' with ⟨ho', -⟩ | ⟨-, below', rfl, hs'⟩ | ⟨hf', -⟩
      · exact absurd ho' (by simp [TokenKind.not_isOpener hc])
      · rw [ih hs hs']
      · exact absurd hc (by simp [hf'.2])
    · rw [closes_flat hf] at h'
      exact ih hs h'

/-- What stands in front of balanced tokens opens no bracket for them. -/
theorem closes_of_append (h : closes (ts ++ ts') pending) (h' : closes ts' []) :
    closes ts pending := by
  induction ts generalizing pending with
  | nil =>
    rw [closes_unique h h']
    rfl
  | cons t ts ih =>
    rcases closes_cons h with ⟨ho, hs⟩ | ⟨hc, below, rfl, hs⟩ | ⟨hf, hs⟩
    · rw [closes_opener ho]
      exact ih hs
    · rw [closes_closer hc]
      exact ih hs
    · rw [closes_flat hf]
      exact ih hs

/-- The tokens in front of the closer of a bracket close what is opened inside it. -/
theorem closes_split (h : closes ts (pending ++ k :: pending')) : ∃ inner close post,
    ts = inner ++ close :: post ∧ closes inner pending ∧ close.kind = k ∧ closes post pending' := by
  induction ts generalizing pending with
  | nil => simp [closes] at h
  | cons t ts ih =>
    rcases closes_cons h with ⟨ho, h⟩ | ⟨hc, below, hbelow, h⟩ | ⟨hf, h⟩
    · obtain ⟨inner, close, post, rfl, hi, hk, hp⟩ := @ih (t.kind.opposite :: pending) h
      exact ⟨t :: inner, close, post, rfl, by rwa [closes_opener ho], hk, hp⟩
    · cases pending with
      | nil =>
        obtain ⟨rfl, rfl⟩ := List.cons.inj hbelow
        exact ⟨[], t, ts, rfl, rfl, rfl, h⟩
      | cons p pending =>
        obtain ⟨rfl, rfl⟩ := List.cons.inj hbelow
        obtain ⟨inner, close, post, rfl, hi, hk, hp⟩ := ih h
        exact ⟨t :: inner, close, post, rfl, by rwa [closes_closer hc], hk, hp⟩
    · obtain ⟨inner, close, post, rfl, hi, hk, hp⟩ := ih h
      exact ⟨t :: inner, close, post, rfl, by rwa [closes_flat hf], hk, hp⟩

end

/-- Kinds of token that end an operand, so that a bracket behind one is an index. -/
def TokenKind.endsOperand : TokenKind → Bool
  | number | closeParen | closeBracket | closeBrace | closeQuote | closeHeredoc | dot => true
  | _ => false

/-- Kinds of token behind which an operand begins, an item, or a name. -/
def TokenKind.leads : TokenKind → Bool
  | assign | openParen | openBracket | openBrace | interpolation | comma | colon | question
  | fatArrow | newline | dot => true
  | star | slash | plus | minus | percent | equal | notEqual | less | lessEqual | greater
  | greaterEqual | and | or | not => true
  | _ => false

/-- The words that stand between an operand and the next, where they are no names. -/
def Token.isConnective (t : Token) : Bool :=
  t.kind == .identifier && (t.text == "in" || t.text == "if")

/-- Behind such a token `in` and `if` are names. -/
def Token.leads (t : Token) : Bool := t.kind.leads || t.isConnective

/-- The last of the tokens passed that is not hidden. They come last first. -/
def lastSeen (newlines : Bool) (passed : List Token) : Option Token :=
  passed.find? fun t => !t.hidden newlines

/-- The tokens passed end with an operand. A star is one in a splat only. -/
def endsWithOperand (passed : List Token) : Bool :=
  match passed.dropWhile (·.hidden false) with
  | [] => false
  | t :: before => match t.kind with
    | .identifier => !t.isConnective || (lastSeen true before).any (·.leads)
    | .star => (lastSeen false before).any (·.kind == .dot)
    | k => k.endsOperand

/-- The innermost bracket that is open in front of the tokens is closed by one of kind `k`. -/
def Inside (k : TokenKind) (ts : List Token) : Prop := ∃ pending, closes ts (k :: pending)

/-- What may stand in the brackets of an index or a splat: a star, or an expression. -/
def IsKey (inner : List Token) : Prop :=
  (∃ ts hs, inner = ts ++ hs ∧ Mark true .star ts ∧ ∀ t ∈ hs, t.hidden true) ∨
    ∃ e ts hs, inner = ts ++ hs ∧ Derives (.expression false e) ts ∧ ∀ t ∈ hs, t.hidden false

/-- Tokens in which no bracket can be taken for the closer of another one. -/
structure Orderly (ts : List Token) : Prop where
  /-- A bracket that follows an operand holds a key. -/
  keys {pre inner post : List Token} {o c : Token} (h : ts = pre ++ o :: (inner ++ c :: post))
    (ho : o.kind = .openBracket) (hp : endsWithOperand pre.reverse)
    (hi : closes inner []) (hc : c.kind = .closeBracket) : IsKey inner
  /-- Quotes, heredocs and template sequences do not stand directly inside one of their kind. -/
  apart {pre post : List Token} {o : Token} (h : ts = pre ++ o :: post)
    (ho : o.kind ∈ [TokenKind.openQuote, .openHeredoc, .interpolation, .directive]) :
    ¬Inside o.kind.opposite (o :: post)
  /-- No brace stands where an item of a block would begin. -/
  items {pre post : List Token} {o : Token} (h : ts = pre ++ o :: post)
    (ho : o.kind = .openBrace)
    (hp : ∃ t ∈ lastSeen true pre.reverse, t.kind = .newline ∨ t.kind = .openBrace) :
    ¬Inside .closeBrace (o :: post)

section
variable {hs passed : List Token} {t : Token}

theorem Token.leads_of_kind (h : t.kind.leads) : t.leads := by simp [leads, h]

theorem Token.leads_of_isKeyword {word : String} (h : t.isKeyword word)
    (hw : word = "in" ∨ word = "if") : t.leads := by
  simp [leads, isConnective, kind_of_isKeyword h, text_of_isKeyword h, hw]

/-- In front of what is hidden where newlines are, a newline was passed last, or the token there. -/
theorem lastSeen_true (passed : List Token) (hh : ∀ x ∈ hs, x.hidden false)
    (ht : t.hidden true = false) :
    ∃ x ∈ lastSeen true (hs ++ t :: passed), x.kind = .newline ∨ x = t := by
  induction hs with
  | nil => exact ⟨t, by simp [lastSeen, ht], .inr rfl⟩
  | cons x hs ih =>
    by_cases hx : x.hidden true
    · simpa [lastSeen, hx] using ih fun y hy => hh y (by simp [hy])
    · have hnewline : x.kind = .newline := by
        have := hh x (by simp)
        simp_all [Token.hidden]
      exact ⟨x, by simp [lastSeen, hx], .inl hnewline⟩

theorem lastSeen_false (passed : List Token) (hh : ∀ x ∈ hs, x.hidden false)
    (ht : t.hidden false = false) : lastSeen false (hs ++ t :: passed) = some t := by
  have hnone : hs.find? (fun t => !t.hidden false) = none := by simpa using hh
  simp [lastSeen, List.find?_append, hnone, ht]

theorem endsWithOperand_append (hh : ∀ x ∈ hs, x.hidden false) :
    endsWithOperand (hs ++ passed) = endsWithOperand passed := by
  unfold endsWithOperand
  rw [List.dropWhile_append_of_pos hh]

theorem endsWithOperand_cons (h : t.kind.endsOperand) : endsWithOperand (t :: passed) := by
  cases hk : t.kind <;> simp_all [endsWithOperand, TokenKind.endsOperand, Token.hidden]

/-- Whatever word is a name behind a token that leads to one. -/
theorem endsWithOperand_name (hk : t.kind = .identifier) {lead : Token} (hl : lead.leads)
    (hh : ∀ x ∈ hs, x.hidden false) : endsWithOperand (t :: (hs ++ lead :: passed)) := by
  have hseen : lead.hidden true = false := by
    cases hkind : lead.kind <;>
      simp_all [Token.leads, TokenKind.leads, Token.isConnective, Token.hidden]
  obtain ⟨x, hx, hcase⟩ := lastSeen_true passed hh hseen
  have hleads : x.leads := by
    obtain hnewline | rfl := hcase
    · exact Token.leads_of_kind (by rw [hnewline]; rfl)
    · exact hl
  rw [Option.mem_def] at hx
  simp [endsWithOperand, Token.hidden, hk, hx, hleads]

theorem endsWithOperand_star (hk : t.kind = .star) {dot : Token} (hd : dot.kind = .dot)
    (hh : ∀ x ∈ hs, x.hidden false) : endsWithOperand (t :: (hs ++ dot :: passed)) := by
  have hseen := lastSeen_false passed hh (t := dot) (by simp [Token.hidden, hd])
  simp [endsWithOperand, Token.hidden, hk, hseen, hd]

end

namespace Cursor

/-- At `c` the closers `pending` are ahead in the source, of which everything is known. -/
structure Pends (src : TokenList) (c : Cursor) (pending : List TokenKind) : Prop where
  whole : c.passed.reverse ++ c.rest = src.toList
  ends : c.eof.kind = .eof
  ahead : c.rest = [] ∧ pending = [] ∨ ∃ ts, c.rest = ts ++ [src.eof] ∧
    (∀ t ∈ ts, t.kind ≠ .eof) ∧ closes ts pending

/-- Nothing is left, or such a token was passed last. -/
def Just (p : Token → Prop) (c : Cursor) : Prop :=
  c.rest = [] ∨ ∃ t, c.passed.head? = some t ∧ p t

/-- Nothing is left, or an operand was passed last. -/
def PastOperand (c : Cursor) : Prop := c.rest = [] ∨ endsWithOperand c.passed

variable {src : TokenList} {c : Cursor} {pending : List TokenKind} {k : TokenKind}

theorem hidden_of_hides {t : Token} (h : c.hides t) : t.hidden false := by
  simp only [hides, Token.hidden, Bool.or_eq_true, Bool.and_eq_true] at h ⊢
  exact h.imp_right fun h => ⟨h.1, rfl⟩

/-- The next token is passed, with what is hidden in front of it, unless nothing is left then. -/
theorem passed_of_advance (c : Cursor) : c.advance.rest = [] ∨ ∃ hs,
    c.advance.passed = c.peek :: (hs ++ c.passed) ∧ ∀ t ∈ hs, t.hidden false := by
  unfold advance peek
  cases hd : c.rest.dropWhile c.hides with
  | nil => exact .inl rfl
  | cons t ts =>
    refine .inr ⟨(c.rest.takeWhile c.hides).reverse, rfl, fun x hx => ?_⟩
    apply hidden_of_hides (c := c)
    exact List.all_eq_true.mp List.all_takeWhile x (List.mem_reverse.mp hx)

theorem just_advance {p : Token → Prop} (h : p c.peek) : c.advance.Just p := by
  obtain hr | ⟨hs, hp, -⟩ := c.passed_of_advance
  · exact .inl hr
  · exact .inr ⟨c.peek, by simp [hp], h⟩

theorem Just.mono {p q : Token → Prop} (h : c.Just p) (hq : ∀ t, p t → q t) : c.Just q :=
  h.imp_right fun ⟨t, ht, hp⟩ => ⟨t, ht, hq t hp⟩

theorem Just.pastOperand (h : c.Just (·.kind = k)) (hk : k.endsOperand) : c.PastOperand := by
  obtain hr | ⟨t, ht, hkind⟩ := h
  · exact .inl hr
  · obtain ⟨passed, hp⟩ := List.head?_eq_some_iff.mp ht
    right
    rw [hp]
    exact endsWithOperand_cons (hkind ▸ hk)

/-- Behind the next token, if another one was passed before it. -/
theorem Just.past_next {p : Token → Prop} (h : c.Just p) (hp : ∀ t hs passed, p t →
    (∀ x ∈ hs, x.hidden false) → endsWithOperand (c.peek :: (hs ++ t :: passed))) :
    c.advance.PastOperand := by
  obtain hr | ⟨t, ht, hpt⟩ := h
  · exact .inl (by simp [advance, hr])
  obtain hr | ⟨hs, ha, hh⟩ := c.passed_of_advance
  · exact .inl hr
  · obtain ⟨passed, hpassed⟩ := List.head?_eq_some_iff.mp ht
    right
    rw [ha, hpassed]
    exact hp t hs passed hpt hh

theorem Just.past_name (h : c.Just (·.leads)) (hk : c.peek.kind = .identifier) :
    c.advance.PastOperand :=
  h.past_next fun _ _ _ hl hh => endsWithOperand_name hk hl hh

theorem Just.past_star (h : c.Just (·.kind = .dot)) (hk : c.peek.kind = .star) :
    c.advance.PastOperand :=
  h.past_next fun _ _ _ hd hh => endsWithOperand_star hk hd hh

/-- What is seen where newlines count is seen where they do not, if it is none. -/
theorem peek_enter_false (h : c.eof.kind = .eof) (he : c.peek.kind ≠ .eof)
    (hn : c.peek.kind ≠ .newline) : (c.enter false).peek = c.peek := by
  have hm : c.InMode c.newlinesCount := ⟨rfl, h⟩
  obtain ⟨ts, hp, hs⟩ := hm.sees he
  exact ((hm.enter false).read_sees hp.rest (hs.newlines_hidden hn)).1

namespace Pends

/-- What is left behind a token in front of the end. -/
theorem rest_of_split {hs ts rest : List Token} {t e : Token}
    (h : hs ++ t :: rest = ts ++ [e]) :
    rest = [] ∧ t = e ∨ ∃ ts', rest = ts' ++ [e] ∧ ts = hs ++ t :: ts' := by
  rcases List.eq_nil_or_concat rest with rfl | ⟨ts', e', rfl⟩
  · exact .inl ⟨rfl, List.singleton_inj.mp (List.append_inj' h rfl).2⟩
  · rw [List.concat_eq_append, ← List.cons_append, ← List.append_assoc] at h
    obtain ⟨rfl, he⟩ := List.append_inj' h rfl
    obtain rfl := List.singleton_inj.mp he
    exact .inr ⟨ts', List.concat_eq_append, rfl⟩

/-- What is read next: the end of the file, behind which nothing is left, or a token in front of
which some may be hidden. -/
theorem next (h : c.Pends src pending) :
    (c.peek.kind = .eof ∧ c.advance.rest = []) ∨
    (c.peek.kind ≠ .eof ∧ ∃ hs ts, c.rest = hs ++ c.peek :: (ts ++ [src.eof]) ∧
      (∀ t ∈ hs, c.hides t) ∧ c.advance.rest = ts ++ [src.eof] ∧ (∀ t ∈ ts, t.kind ≠ .eof) ∧
      closes (c.peek :: ts) pending) := by
  have hm : c.InMode c.newlinesCount := ⟨rfl, h.ends⟩
  by_cases hk : c.peek.kind = .eof
  · refine .inl ⟨hk, ?_⟩
    have hsplit : c.rest.takeWhile c.hides ++ c.rest.dropWhile c.hides = c.rest :=
      List.takeWhile_append_dropWhile
    unfold advance peek at *
    cases hd : c.rest.dropWhile c.hides with
    | nil => rfl
    | cons t rest =>
      rw [hd] at hk hsplit
      rcases h.ahead with ⟨hr, -⟩ | ⟨ts, hr, hne, -⟩
      · simp [hr] at hd
      rcases rest_of_split (hsplit.trans hr) with ⟨rfl, -⟩ | ⟨ts', -, rfl⟩
      · rfl
      · exact absurd hk (hne t (by simp))
  · obtain ⟨ts, hp, hs, rfl, hh, -⟩ := hm.sees hk
    have hrest : c.rest = hs ++ c.peek :: c.advance.rest := by rw [hp.rest]; simp
    rcases h.ahead with ⟨hr, -⟩ | ⟨ts, hr, hne, hc⟩
    · simp [hr] at hrest
    rcases rest_of_split (hrest.symm.trans hr) with ⟨-, he⟩ | ⟨ts', ha, rfl⟩
    · exact absurd (he ▸ src.eof_kind) hk
    · refine .inr ⟨hk, hs, ts', ?_, ?_, ha, fun t ht => hne t (by simp [ht]), ?_⟩
      · rw [hrest, ha]
      · rwa [hm.hides]
      · rwa [closes_hidden hh] at hc

theorem whole_advance (h : c.Pends src pending) :
    c.advance.passed.reverse ++ c.advance.rest = src.toList := c.passed_advance.trans h.whole

theorem ends_advance (h : c.Pends src pending) : c.advance.eof.kind = .eof := by
  rw [c.reaches_advance.eof, h.ends]

theorem rest_of_eof (h : c.Pends src pending) (hk : c.peek.kind = .eof) : c.advance.rest = [] := by
  rcases h.next with ⟨-, hr⟩ | ⟨hne, -⟩
  · exact hr
  · exact absurd hk hne

theorem past_end (h : c.Pends src pending) (hk : c.peek.kind = .eof) : c.advance.Pends src [] :=
  ⟨h.whole_advance, h.ends_advance, .inl ⟨h.rest_of_eof hk, rfl⟩⟩

theorem opener (h : c.Pends src pending) (hk : c.peek.kind.isOpener) :
    c.advance.Pends src (c.peek.kind.opposite :: pending) := by
  rcases h.next with ⟨he, -⟩ | ⟨-, hs, ts, -, -, hr, hne, hc⟩
  · simp [he, TokenKind.isOpener] at hk
  · rw [closes_opener hk] at hc
    exact ⟨h.whole_advance, h.ends_advance, .inr ⟨ts, hr, hne, hc⟩⟩

/-- A closer is the innermost one that is pending, and no longer behind its token. -/
theorem closer (h : c.Pends src pending) (hk : c.peek.kind.isCloser) :
    ∃ below, pending = c.peek.kind :: below ∧ c.advance.Pends src below := by
  rcases h.next with ⟨he, -⟩ | ⟨-, hs, ts, -, -, hr, hne, hc⟩
  · simp [he, TokenKind.isCloser] at hk
  · rcases closes_cons hc with ⟨ho, -⟩ | ⟨-, below, rfl, hc'⟩ | ⟨hf, -⟩
    · simp [TokenKind.not_isOpener hk] at ho
    · exact ⟨below, rfl, h.whole_advance, h.ends_advance, .inr ⟨ts, hr, hne, hc'⟩⟩
    · simp [hf.2] at hk

theorem flat (h : c.Pends src pending) (hk : c.peek.kind.Flat) (he : c.peek.kind ≠ .eof) :
    c.advance.Pends src pending := by
  rcases h.next with ⟨heof, -⟩ | ⟨-, hs, ts, -, -, hr, hne, hc⟩
  · exact absurd heof he
  · rw [closes_flat hk] at hc
    exact ⟨h.whole_advance, h.ends_advance, .inr ⟨ts, hr, hne, hc⟩⟩

/-- Any token but an opener leaves at most the same closers pending. -/
theorem pass (h : c.Pends src pending) (hk : c.peek.kind.isOpener = false) :
    ∃ pending', c.advance.Pends src pending' ∧ pending' <:+ pending := by
  by_cases he : c.peek.kind = .eof
  · exact ⟨[], h.past_end he, List.nil_suffix⟩
  cases hc : c.peek.kind.isCloser with
  | true =>
    obtain ⟨below, rfl, hp⟩ := h.closer hc
    exact ⟨below, hp, List.suffix_cons _ _⟩
  | false => exact ⟨pending, h.flat ⟨hk, hc⟩ he, List.suffix_refl _⟩

/-- The source around the next token. -/
theorem around (h : c.Pends src pending) (hk : c.peek.kind ≠ .eof) :
    ∃ hs ts, src.body = c.passed.reverse ++ hs ++ c.peek :: ts ∧ (∀ t ∈ hs, c.hides t) ∧
      c.advance.rest = ts ++ [src.eof] ∧ closes (c.peek :: ts) pending := by
  rcases h.next with ⟨he, -⟩ | ⟨-, hs, ts, hr, hh, ha, -, hc⟩
  · exact absurd he hk
  have hwhole := h.whole
  rw [hr, TokenList.toList, ← List.cons_append, ← List.append_assoc, ← List.append_assoc] at hwhole
  exact ⟨hs, ts, (List.append_inj' hwhole rfl).1.symm, hh, ha, hc⟩

theorem enter (h : c.Pends src pending) (newlines : Bool) :
    (c.enter newlines).Pends src pending := ⟨h.whole, h.ends, h.ahead⟩

theorem leave (h : c.Pends src pending) : c.leave.Pends src pending :=
  ⟨h.whole, h.ends, h.ahead⟩

end Pends

/-- No more closers are pending than `outer`. -/
def AtDepth (src : TokenList) (outer : List TokenKind) (c : Cursor) : Prop :=
  ∃ pending, c.Pends src pending ∧ pending.Sublist outer

/-- Behind the next closer of kind `k` that is pending, no more are than `outer`. -/
def Ready (src : TokenList) (k : TokenKind) (outer : List TokenKind) (c : Cursor) : Prop :=
  ∃ pending, c.Pends src pending ∧ ∀ below, k :: below <:+ pending → below.Sublist outer

namespace AtDepth

variable {outer : List TokenKind}

theorem ends (h : c.AtDepth src outer) : c.eof.kind = .eof := by
  obtain ⟨pending, hp, -⟩ := h
  exact hp.ends

theorem peek_mem (h : c.AtDepth src outer) (hk : c.peek.kind ≠ .eof) : c.peek ∈ src.body := by
  obtain ⟨pending, hp, -⟩ := h
  obtain ⟨hs, ts, hbody, -⟩ := hp.around hk
  simp [hbody]

theorem mono {outer' : List TokenKind} (h : c.AtDepth src outer) (ho : outer.Sublist outer') :
    c.AtDepth src outer' := by
  obtain ⟨pending, hp, hs⟩ := h
  exact ⟨pending, hp, hs.trans ho⟩

theorem pass (h : c.AtDepth src outer) (hk : c.peek.kind.isOpener = false) :
    c.advance.AtDepth src outer := by
  obtain ⟨pending, hp, hs⟩ := h
  obtain ⟨pending', hp', hs'⟩ := hp.pass hk
  exact ⟨pending', hp', hs'.sublist.trans hs⟩

theorem opener (h : c.AtDepth src outer) (hk : c.peek.kind.isOpener) :
    c.advance.AtDepth src (c.peek.kind.opposite :: outer) := by
  obtain ⟨pending, hp, hs⟩ := h
  exact ⟨_, hp.opener hk, hs.cons_cons _⟩

theorem passed (h : c.AtDepth src outer) (hk : c.peek.kind = k) (ho : k.isOpener = false) :
    c.advance.AtDepth src outer := h.pass (hk ▸ ho)

theorem opened (h : c.AtDepth src outer) (hk : c.peek.kind = k) (ho : k.isOpener) :
    c.advance.AtDepth src (k.opposite :: outer) := hk ▸ h.opener (hk ▸ ho)

theorem closer (h : c.AtDepth src (k :: outer)) (hk : c.peek.kind = k) (hc : k.isCloser) :
    c.advance.AtDepth src outer := by
  obtain ⟨pending, hp, hs⟩ := h
  obtain ⟨below, rfl, hbelow⟩ := hp.closer (hk ▸ hc)
  exact ⟨below, hbelow, hs.tail⟩

theorem ready (h : c.AtDepth src (k :: outer)) : c.Ready src k outer := by
  obtain ⟨pending, hp, hs⟩ := h
  exact ⟨pending, hp, fun below hb => List.cons_sublist_cons.mp (hb.sublist.trans hs)⟩

theorem enter (h : c.AtDepth src outer) (newlines : Bool) :
    (c.enter newlines).AtDepth src outer := by
  obtain ⟨pending, hp, hs⟩ := h
  exact ⟨pending, hp.enter newlines, hs⟩

theorem leave (h : c.AtDepth src outer) : c.leave.AtDepth src outer := by
  obtain ⟨pending, hp, hs⟩ := h
  exact ⟨pending, hp.leave, hs⟩

/-- Behind any token the closer of a bracket is still the next of its kind, unless the token opens
one more directly inside it. -/
theorem ready_advance (h : c.AtDepth src (k :: outer))
    (hk : c.peek.kind.isOpener → c.peek.kind.opposite = k → ∀ below, ¬c.Pends src (k :: below)) :
    c.advance.Ready src k outer := by
  obtain ⟨pending, hp, hs⟩ := h
  by_cases ho : c.peek.kind.isOpener
  · refine ⟨_, hp.opener ho, fun below hb => ?_⟩
    rcases List.suffix_cons_iff.mp hb with heq | hb
    · obtain ⟨hk', rfl⟩ := List.cons.inj heq
      rcases List.sublist_cons_iff.mp hs with hs | ⟨rest, rfl, -⟩
      · exact hs
      · exact absurd hp (hk ho hk'.symm rest)
    · exact List.cons_sublist_cons.mp (hb.sublist.trans hs)
  · exact ((AtDepth.pass ⟨pending, hp, hs⟩ (Bool.eq_false_iff.mpr ho))).ready

end AtDepth

/-- A place where an operand begins, or an item that begins with one: no word is a connective. -/
structure AtOperand (src : TokenList) (outer : List TokenKind) (c : Cursor) : Prop where
  depth : c.AtDepth src outer
  leads : c.Just (·.leads)

namespace AtOperand

variable {outer : List TokenKind}

theorem enter (h : c.AtOperand src outer) (newlines : Bool) :
    (c.enter newlines).AtOperand src outer := ⟨h.depth.enter newlines, h.leads⟩

theorem advance (h : c.advance.AtDepth src outer) (hk : c.peek.leads) :
    c.advance.AtOperand src outer := ⟨h, just_advance hk⟩

theorem passed (h : c.AtDepth src outer) (hk : c.peek.kind = k) (ho : k.isOpener = false)
    (hl : k.leads) : c.advance.AtOperand src outer :=
  .advance (h.passed hk ho) (Token.leads_of_kind (hk ▸ hl))

theorem opened (h : c.AtDepth src outer) (hk : c.peek.kind = k) (ho : k.isOpener)
    (hl : k.leads) : c.advance.AtOperand src (k.opposite :: outer) :=
  .advance (h.opened hk ho) (Token.leads_of_kind (hk ▸ hl))

theorem keyword {word : String} (h : c.AtDepth src outer) (hk : c.peek.isKeyword word)
    (hw : word = "in" ∨ word = "if") : c.advance.AtOperand src outer :=
  .advance (h.passed (Token.kind_of_isKeyword hk) rfl) (Token.leads_of_isKeyword hk hw)

end AtOperand

section
variable (ho : Orderly src.body)
include ho

theorem Pends.apart (h : c.Pends src (k :: pending))
    (hk : c.peek.kind ∈ [TokenKind.openQuote, .openHeredoc, .interpolation, .directive]) :
    c.peek.kind.opposite ≠ k := by
  rintro rfl
  have he : c.peek.kind ≠ .eof := by
    intro he
    simp [he] at hk
  obtain ⟨hs, ts, hbody, -, -, hc⟩ := h.around he
  exact ho.apart hbody hk ⟨pending, hc⟩

/-- Whatever is hidden in front of an item, a line ends there or a block begins. -/
theorem Pends.item (h : c.Pends src (.closeBrace :: pending))
    (hj : c.Just fun t => t.kind = .newline ∨ t.kind = .openBrace) : c.peek.kind ≠ .openBrace := by
  intro hk
  obtain ⟨hs, ts, hbody, hh, -, hc⟩ := h.around (by simp [hk])
  obtain hr | ⟨t, hpassed, ht⟩ := hj
  · simp [peek, hr, h.ends] at hk
  obtain ⟨passed, hp⟩ := List.head?_eq_some_iff.mp hpassed
  have hhidden : ∀ x ∈ hs.reverse, x.hidden false :=
    fun x hx => hidden_of_hides (hh x (List.mem_reverse.mp hx))
  have hseen : t.hidden true = false := by rcases ht with ht | ht <;> simp [Token.hidden, ht]
  obtain ⟨x, hx, hcase⟩ := lastSeen_true passed hhidden hseen
  refine ho.items hbody hk ⟨x, by simpa [hp] using hx, ?_⟩ ⟨pending, hc⟩
  obtain hnewline | rfl := hcase
  · exact .inl hnewline
  · exact ht

/-- A bracket that follows an operand has a key in front of its closer. -/
theorem Pends.key (h : c.Pends src pending) (hk : c.peek.kind = .openBracket)
    (hj : c.PastOperand) : ∃ inner close post,
      c.advance.rest = inner ++ close :: post ∧ close.kind = .closeBracket ∧ IsKey inner := by
  obtain ⟨hs, ts, hbody, hh, hr, hc⟩ := h.around (by simp [hk])
  rw [closes_opener (by simp [hk, TokenKind.isOpener]), hk] at hc
  have hc : closes ts ([] ++ .closeBracket :: pending) := hc
  obtain ⟨inner, close, post, rfl, hi, hclose, -⟩ := closes_split hc
  refine ⟨inner, close, post ++ [src.eof], by rw [hr]; simp, hclose, ?_⟩
  refine ho.keys hbody hk ?_ hi hclose
  obtain hrest | hpassed := hj
  · simp [peek, hrest, h.ends] at hk
  rw [List.reverse_append, List.reverse_reverse, endsWithOperand_append]
  · exact hpassed
  · exact fun x hx => hidden_of_hides (hh x (List.mem_reverse.mp hx))

end

end Cursor

end HclSyntax
