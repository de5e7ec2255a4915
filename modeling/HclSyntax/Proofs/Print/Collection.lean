import HclSyntax.Proofs.Print.Derives
import HclSyntax.Proofs.Text.Utf8

namespace HclSyntax

open Phrase

variable {nl : Bool} {e : Tree} {ts ts₁ ts₂ : List Token} {root : Root}

/-- Expressions with commas between them, behind others with a comma after each. -/
theorem derives_sequence {es₀ es : List Tree} (h₀ : Derives (elements es₀) ts)
    (h : ∀ e ∈ es, e.Writes .term)
    (hs : Spelled (Lexeme.separated (es.map Tree.print)) ts₁) :
    Derives (sequence (es₀ ++ es)) (ts ++ ts₁) := by
  induction es generalizing es₀ ts ts₁ with
  | nil =>
    rw [hs.eq_nil, List.append_nil, List.append_nil]
    exact .elements h₀
  | cons e es ih =>
    cases es with
    | nil => exact .lastElement h₀ ((h e (by simp)).expression hs)
    | cons e' es =>
      obtain ⟨ts₂, ts₃, rfl, he, hs⟩ := Spelled.append_split e.print hs
      obtain ⟨ts₃, ts₄, rfl, hc, hs⟩ := Spelled.append_split [.mark .comma] hs
      have hnext := Derives.element h₀ ((h e (by simp)).expression he) (hc.mark false)
      have := ih hnext (fun x hx => h x (by simp [hx])) hs
      simpa only [List.append_assoc, List.singleton_append] using this

/-- Expressions with commas between them, of which the last one can be taken apart. -/
theorem derives_elements_last {es₀ es : List Tree} (h₀ : Derives (elements es₀) ts)
    (h : ∀ e ∈ es, e.Writes .term) (hne : es ≠ [])
    (hs : Spelled (Lexeme.separated (es.map Tree.print)) ts₁) :
    ∃ es' e ts₂ ts₃, es₀ ++ es = es' ++ [e] ∧ ts ++ ts₁ = ts₂ ++ ts₃ ∧
      Derives (elements es') ts₂ ∧ Derives (expression false e) ts₃ := by
  induction es generalizing es₀ ts ts₁ with
  | nil => exact absurd rfl hne
  | cons e es ih =>
    cases es with
    | nil => exact ⟨es₀, e, ts, ts₁, rfl, rfl, h₀, (h e (by simp)).expression hs⟩
    | cons e' es =>
      obtain ⟨ts₂, ts₃, rfl, he, hs⟩ := Spelled.append_split e.print hs
      obtain ⟨ts₃, ts₄, rfl, hc, hs⟩ := Spelled.append_split [.mark .comma] hs
      have hnext := Derives.element h₀ ((h e (by simp)).expression he) (hc.mark false)
      have := ih hnext (fun x hx => h x (by simp [hx])) (by simp) hs
      simpa only [List.append_assoc, List.singleton_append] using this

/-- Whether a comprehension could begin with these lexemes; of none of them it is not known. -/
def Lexeme.opensFor : List Lexeme → Bool
  | [] | .keyword _ :: _ => true
  | .name text :: _ => text == "for"
  | .mark k :: _ => k == .identifier
  | _ => false

theorem Lexeme.opensFor_append {ls : List Lexeme} (h : opensFor ls = false) (ls' : List Lexeme) :
    opensFor (ls ++ ls') = false := by
  cases ls with
  | nil => exact absurd h (by decide)
  | cons l ls => cases l <;> exact h

/-- A token that is seen is the first one. -/
theorem begins_cons {t : Token} {p : Token → Prop} (ht : t.hidden nl = false)
    (h : Begins nl p (t :: ts)) : p t := by
  obtain ⟨x, ts₁, ts₂, hp, ⟨hs, rfl, hh, -⟩, hts⟩ := h
  cases hs with
  | nil =>
    rw [List.nil_append, List.singleton_append, List.cons.injEq] at hts
    rwa [hts.1]
  | cons y hs =>
    simp only [List.cons_append, List.cons.injEq] at hts
    have := hh y (by simp)
    rw [← hts.1, ht] at this
    exact absurd this (by decide)

theorem not_begins_for {ls : List Lexeme} (h : Lexeme.opensFor ls = false)
    (hs : Spelled ls ts) : ¬ Begins nl (·.isKeyword "for") ts := by
  cases hs with
  | nil => exact absurd h (by decide)
  | @cons l ls t ts ht hc hn _ =>
    intro hb
    have hfor := begins_cons (by simp [Token.hidden, hc, hn]) hb
    have htext := Token.text_of_isKeyword hfor
    have hi := Token.kind_of_isKeyword hfor
    -- of all lexemes only a name is written as an identifier
    cases l <;> simp_all [Lexeme.opensFor, Token.Spells]

theorem not_begins_for_separated {lists : List (List Lexeme)}
    (h : ∀ ls ∈ lists, Lexeme.opensFor ls = false) (hs : Spelled (Lexeme.separated lists) ts) :
    ¬ Begins nl (·.isKeyword "for") ts := by
  cases lists with
  | nil =>
    rw [hs.eq_nil]
    rintro ⟨t, ts₁, ts₂, -, ⟨hidden, rfl, -⟩, hts⟩
    simp at hts
  | cons ls lists =>
    refine not_begins_for ?_ hs
    cases lists with
    | nil => exact h ls (by simp)
    | cons ls' lists => exact Lexeme.opensFor_append (h ls (by simp)) _

theorem opensFor_wrapped {ls : List Lexeme} (h : Lexeme.opensFor ls = false) (g : Nat) (e : Tree) :
    Lexeme.opensFor (Tree.wrapped g e ls) = false := by
  unfold Tree.wrapped
  split
  · exact h
  · rfl

/-- No expression begins like a comprehension in its brackets. -/
theorem Tree.Canonical.opensFor_print (h : e.Canonical root) :
    root = .term → Lexeme.opensFor e.print = false := by
  induction h with
  | null => exact fun _ => rfl
  | bool b => cases b <;> exact fun _ => rfl
  | number n => exact fun _ => rfl
  | path hn hs =>
    intro _
    rw [Tree.print, List.flatMap_cons]
    refine Lexeme.opensFor_append ?_ _
    simp only [Step.print, Lexeme.opensFor, beq_eq_false_iff_ne]
    exact fun h => hn (by simp [h])
  | element => exact fun h => absurd h (by decide)
  | relative _ _ _ _ _ ih =>
    exact fun hr => Lexeme.opensFor_append (opensFor_wrapped (ih hr) _ _) _
  | index _ _ _ _ ih _ =>
    intro hr
    have hfirst := opensFor_wrapped (ih hr)
    exact Lexeme.opensFor_append (Lexeme.opensFor_append (hfirst _ _) _) _
  | splat _ _ _ ih _ =>
    intro hr
    have hfirst := opensFor_wrapped (ih hr)
    exact Lexeme.opensFor_append (Lexeme.opensFor_append (hfirst _ _) _) _
  | @unary op _ _ _ => cases op <;> exact fun _ => rfl
  | binary _ _ ihl _ =>
    exact fun hr => Lexeme.opensFor_append (opensFor_wrapped (ihl hr) _ _) _
  | conditional _ _ _ ihc _ _ =>
    intro hr
    have hfirst := opensFor_wrapped (ihc hr)
    exact Lexeme.opensFor_append (Lexeme.opensFor_append (hfirst _ _) _) _
  | call hf _ _ _ =>
    intro _
    refine Lexeme.opensFor_append (Lexeme.opensFor_append ?_ _) _
    simpa only [Lexeme.opensFor, beq_eq_false_iff_ne] using hf
  | @template parts _ _ _ _ _ =>
    intro _
    by_cases hs : ∃ s, parts = [.literal (.string s)]
    · obtain ⟨s, rfl⟩ := hs
      rfl
    · rw [Tree.print_template fun s h => hs ⟨s, h⟩]
      rfl
  | _ => exact fun _ => rfl

theorem opensFor_printItem {i : Tree × Tree} (hname : i.1 ≠ .literal (.string "for"))
    (hk : i.1.isText = false → Lexeme.opensFor i.1.print = false) :
    Lexeme.opensFor (i.1.printKey i.1.print ++ .mark .assign :: i.2.print) = false := by
  refine Lexeme.opensFor_append ?_ _
  unfold Tree.printKey
  split
  · rename_i s hs
    simp only [Lexeme.opensFor, beq_eq_false_iff_ne]
    exact fun h => hname (by rw [hs, h])
  · rename_i hno
    split
    · rfl
    · refine hk ?_
      unfold Tree.isText
      split
      · rename_i s hs
        exact absurd hs (hno s)
      · rfl

/-- The parts of a template, as they are written and without white space to strip. -/
def Tree.raw : Tree → RawPiece
  | .literal (.string s) => .text s
  | e => .sequence false false (.interpolation e)

def Tree.piece : Tree → Piece
  | .literal (.string s) => .text s
  | e => .sequence (.interpolation e)

theorem Tree.isText_iff {p : Tree} : p.isText ↔ ∃ s, p = .literal (.string s) := by
  unfold isText
  split
  · rename_i s
    exact ⟨fun _ => ⟨s, rfl⟩, fun _ => rfl⟩
  · rename_i h
    exact ⟨fun h => absurd h (by decide), fun ⟨s, hs⟩ => absurd hs (h s)⟩

theorem Tree.raw_of_not_text {p : Tree} (h : p.isText = false) :
    p.raw = .sequence false false (.interpolation p) := by
  unfold raw
  split
  · exact absurd h (by simp [isText])
  · rfl

theorem Tree.piece_of_not_text {p : Tree} (h : p.isText = false) :
    p.piece = .sequence (.interpolation p) := by
  unfold piece
  split
  · exact absurd h (by simp [isText])
  · rfl

theorem Tree.printPart_of_not_text {p : Tree} (h : p.isText = false) (ls : List Lexeme) :
    p.printPart ls = .interpolation :: ls ++ [.sequenceEnd] := by
  unfold printPart
  split
  · exact absurd h (by simp [isText])
  · rfl

/-- A part is a text or an expression. -/
theorem Tree.text_cases (p : Tree) : (∃ s, p = .literal (.string s)) ∨ p.isText = false := by
  cases h : p.isText with
  | true => exact .inl (isText_iff.mp h)
  | false => exact .inr rfl

theorem stripsBefore_raw (ps : List Tree) :
    RawPiece.stripsBefore (ps.map Tree.raw) = false := by
  cases ps with
  | nil => rfl
  | cons p ps =>
    rw [List.map_cons]
    obtain ⟨s, rfl⟩ | hp := p.text_cases
    · rfl
    · rw [Tree.raw_of_not_text hp]
      rfl

theorem strippedFrom_raw (ps : List Tree) :
    RawPiece.strippedFrom false (ps.map Tree.raw) = ps.map Tree.piece := by
  induction ps with
  | nil => rfl
  | cons p ps ih =>
    rw [List.map_cons, List.map_cons]
    obtain ⟨s, rfl⟩ | hp := p.text_cases
    · simp [Tree.raw, Tree.piece, RawPiece.strippedFrom, stripsBefore_raw, ← ih]
    · rw [Tree.raw_of_not_text hp, Tree.piece_of_not_text hp, RawPiece.strippedFrom, ih]

theorem nested_piece (ps : List Tree) : Nested (ps.map Tree.piece) ps := by
  induction ps with
  | nil => exact .nil
  | cons p ps ih =>
    rw [List.map_cons]
    obtain ⟨s, rfl⟩ | hp := p.text_cases
    · exact .text ih
    · rw [Tree.piece_of_not_text hp]
      exact .interpolation ih

variable (nl) in
theorem derives_parts {raws : List RawPiece} {ps : List Tree} (h₀ : Derives (parts nl raws) ts)
    (htext : ∀ s, .literal (.string s) ∈ ps → PlainText s)
    (h : ∀ p ∈ ps, p.isText = false → p.Writes .term)
    (hs : Spelled (ps.map fun p => p.printPart p.print).flatten ts₁) :
    Derives (parts nl (raws ++ ps.map Tree.raw)) (ts ++ ts₁) := by
  induction ps generalizing raws ts ts₁ with
  | nil =>
    rw [Spelled.eq_nil hs, List.map_nil, List.append_nil, List.append_nil]
    exact h₀
  | cons p ps ih =>
    rw [List.map_cons, List.flatten_cons] at hs
    obtain ⟨ts₂, ts₃, rfl, hp, hs⟩ := hs.append_split _
    have hnext : Derives (parts nl (raws ++ [p.raw])) (ts ++ ts₂) := by
      obtain ⟨s, rfl⟩ | hp' := p.text_cases
      · obtain ⟨t, rfl, ⟨hk, ht⟩, hseen⟩ := hp.single
        have hd := StringChunk.decode_plain (t := t) (ht ▸ htext s (by simp))
        rw [ht] at hd
        exact .chunk h₀ (.inl hk) (hseen nl) hd
      · rw [Tree.printPart_of_not_text hp'] at hp
        rw [Tree.raw_of_not_text hp']
        obtain ⟨ts₄, ts₅, rfl, ho, hp⟩ := Spelled.append_split [.interpolation] hp
        obtain ⟨ts₅, ts₆, rfl, he, hc⟩ := hp.append_split _
        obtain ⟨o, rfl, ⟨hok, hob⟩, hos⟩ := ho.single
        obtain ⟨c, rfl, ⟨hck, hca⟩, hcs⟩ := hc.single
        have := Derives.interpolation h₀ hok (hos nl) ((h p (by simp) hp').expression he) hck
          (hcs false)
        rw [hob, hca] at this
        simpa only [List.append_assoc] using this
    have := ih hnext (fun s hs => htext s (by simp [hs])) (fun x hx => h x (by simp [hx])) hs
    simpa only [List.append_assoc, List.map_cons, List.singleton_append] using this

variable (nl) in
/-- A template between its quotes. -/
theorem derives_template {ps : List Tree} (hne : ps ≠ [])
    (htext : ∀ s, .literal (.string s) ∈ ps → PlainText s)
    (h : ∀ p ∈ ps, p.isText = false → p.Writes .term)
    (hs : Spelled (.mark .openQuote :: (ps.map fun p => p.printPart p.print).flatten ++
      [.mark .closeQuote]) ts) :
    Derives (term nl (.ofPieces (ps.map Tree.piece) ps)) ts := by
  obtain ⟨ts₁, ts₃, rfl, ho, hs⟩ := Spelled.append_split [.mark .openQuote] hs
  obtain ⟨ts₂, ts₃, rfl, hparts, hc⟩ := hs.append_split _
  obtain ⟨t, rfl, ht, hseen⟩ := ho.single
  have hk : t.kind = .openQuote := ht
  have hclose : Mark nl t.kind.opposite ts₃ := hk ▸ hc.mark nl
  have hp := derives_parts nl .noPart htext h hparts
  have hpieces : RawPiece.pieces (ps.map Tree.raw) = ps.map Tree.piece := by
    unfold RawPiece.pieces
    rw [if_neg (by simpa using hne), strippedFrom_raw]
  have hn := nested_piece ps
  rw [← hpieces] at hn ⊢
  rw [← List.append_assoc]
  exact .quoted (.inl hk) (hseen nl) hp hn hclose

theorem derives_printKey {key : Tree} (h : key.isText = false → key.Writes .term)
    (hs : Spelled (key.printKey key.print) ts) : Derives (Phrase.key key) ts := by
  obtain ⟨s, rfl⟩ | hkey := key.text_cases
  · exact .bareKey (Spelled.name hs true)
  unfold Tree.printKey at hs
  split at hs
  · exact absurd hkey (by simp [Tree.isText])
  split at hs
  · -- a name in parentheses does not begin with itself
    refine .expressionKey (derives_expression_of_term (derives_parens (h hkey) hs)) fun _ hb => ?_
    cases hs with
    | cons ht hc hn _ =>
      have hk : _ = TokenKind.openParen := ht
      have := begins_cons (by simp [Token.hidden, hc]) hb
      simp [hk] at this
  · rename_i hname
    exact .expressionKey ((h hkey).expression hs) fun hn => absurd hn hname

theorem derives_printItem {i : Tree × Tree} (hk : i.1.isText = false → i.1.Writes .term)
    (hv : i.2.Writes .term)
    (hs : Spelled (i.1.printKey i.1.print ++ .mark .assign :: i.2.print) ts) :
    Derives (item i.1 i.2) ts := by
  obtain ⟨ts₁, ts₂, rfl, hkey, hs⟩ := hs.append_split _
  obtain ⟨ts₂, ts₃, rfl, heq, hvalue⟩ := Spelled.append_split [.mark .assign] hs
  rw [← List.append_assoc]
  exact .equalsItem (derives_printKey hk hkey) (heq.mark true) (hv.expression hvalue)

theorem derives_fields {xs₀ xs : List (Tree × Tree)} (h₀ : Derives (items xs₀) ts)
    (hk : ∀ i ∈ xs, i.1.isText = false → i.1.Writes .term) (hv : ∀ i ∈ xs, i.2.Writes .term)
    (hs : Spelled (Lexeme.separated
      (xs.map fun i => i.1.printKey i.1.print ++ .mark .assign :: i.2.print)) ts₁) :
    Derives (fields (xs₀ ++ xs)) (ts ++ ts₁) := by
  induction xs generalizing xs₀ ts ts₁ with
  | nil =>
    rw [hs.eq_nil, List.append_nil, List.append_nil]
    exact .items h₀
  | cons i xs ih =>
    have hki := hk i List.mem_cons_self
    have hvi := hv i List.mem_cons_self
    cases xs with
    | nil => exact .lastItem h₀ (derives_printItem hki hvi hs)
    | cons i' xs =>
      obtain ⟨ts₂, ts₃, rfl, hitem, hs⟩ := Spelled.append_split
        (i.1.printKey i.1.print ++ .mark .assign :: i.2.print) hs
      obtain ⟨ts₃, ts₄, rfl, hc, hs⟩ := Spelled.append_split [.mark .comma] hs
      have hnext := Derives.commaItem h₀ (derives_printItem hki hvi hitem) (hc.mark true)
      have := ih hnext (fun x hx => hk x (by simp [hx])) (fun x hx => hv x (by simp [hx])) hs
      simpa only [List.append_assoc, List.singleton_append] using this

theorem binders_of_print {k : Option String} {v : String} (hs : Spelled (Tree.printBinders k v) ts) :
    Binders k v ts := by
  cases k with
  | none =>
    obtain ⟨ts₁, ts₂, rfl, hv, hin⟩ := Spelled.append_split [.name v] hs
    exact .value (hv.name false) (hin.keyword false)
  | some k =>
    obtain ⟨ts₁, ts₂, rfl, hk, hs⟩ := Spelled.append_split [.name k] hs
    obtain ⟨ts₂, ts₃, rfl, hc, hs⟩ := Spelled.append_split [.mark .comma] hs
    obtain ⟨ts₃, ts₄, rfl, hv, hin⟩ := Spelled.append_split [.name v] hs
    have := Binders.keyValue (hk.name false) (hc.mark false) (hv.name false) (hin.keyword false)
    simpa only [List.append_assoc] using this

theorem derives_printFilter {cond : Option Tree} (h : ∀ e ∈ cond, e.Writes .term)
    (hs : Spelled (Tree.printFilter cond) ts) : Derives (Phrase.filter cond) ts := by
  cases cond with
  | none =>
    rw [hs.eq_nil]
    exact .noFilter
  | some c =>
    obtain ⟨ts₁, ts₂, rfl, hif, hc⟩ := Spelled.append_split [.keyword "if"] hs
    exact .someFilter (hif.keyword false) ((h c rfl).expression hc)

end HclSyntax
