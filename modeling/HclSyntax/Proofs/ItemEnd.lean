import HclSyntax.Proofs.Depth.Place
import HclSyntax.Proofs.Progress.Arrives

namespace HclSyntax

/-- The rest of balanced tokens closes the brackets that are open in front of it. -/
theorem closes_suffix {front ts : List Token} {pending : List TokenKind}
    (h : closes (front ++ ts) pending) : ∃ below, closes ts below := by
  induction front generalizing pending with
  | nil => exact ⟨pending, h⟩
  | cons t front ih =>
    rcases closes_cons h with ⟨-, hts⟩ | ⟨-, below, -, hts⟩ | ⟨-, hts⟩
    all_goals exact ih hts

/-- Every newline among the tokens stands between a bracket and its closer, both among them. -/
def NewlinesEnclosed (ts : List Token) : Prop :=
  ∀ before newline after, ts = before ++ newline :: after → newline.kind = .newline →
    ∃ outer opener inner inner' closer outer',
      before = outer ++ opener :: inner ∧ after = inner' ++ closer :: outer' ∧
      opener.kind.isOpener ∧ closer.kind = opener.kind.opposite ∧
      closes (inner ++ newline :: inner') []

namespace Parser

/-- The open brackets behind a token, the innermost first. -/
def openedBy (opened : List TokenKind) (t : Token) : List TokenKind :=
  if t.kind.isOpener then t.kind :: opened
  else if t.kind.isCloser then closeTo t.kind opened
  else opened

/-- The open brackets behind some tokens. -/
def openAfter (opened : List TokenKind) (ts : List Token) : List TokenKind :=
  ts.foldl openedBy opened

section
variable {opened : List TokenKind} {t : Token} {ts more : List Token} {o : TokenKind}

theorem openAfter_append : openAfter opened (ts ++ more) = openAfter (openAfter opened ts) more :=
  List.foldl_append

theorem openedBy_opener (h : t.kind.isOpener) : openedBy opened t = t.kind :: opened := if_pos h

theorem openedBy_flat (h : t.kind.Flat) : openedBy opened t = opened := by
  simp [openedBy, h.1, h.2]

theorem openedBy_closer (h : t.kind.isCloser) : openedBy opened t = closeTo t.kind opened := by
  simp [openedBy, h, TokenKind.not_isOpener h]

theorem closeTo_opposite (h : o.isOpener) : closeTo o.opposite (o :: opened) = opened := by
  simp [closeTo, TokenKind.opens, h]

theorem openAfter_hidden {newlines : Bool} (h : ∀ x ∈ ts, x.hidden newlines) :
    openAfter opened ts = opened := by
  induction ts with
  | nil => rfl
  | cons t ts ih =>
    obtain ⟨ht, hts⟩ := List.forall_mem_cons.mp h
    rw [openAfter, List.foldl_cons, openedBy_flat (Token.hidden.flat ht)]
    exact ih hts

/-- Brackets of their own are all that balanced tokens close, wherever one stops in them. -/
theorem openAfter_inside (opened outer : List TokenKind)
    (h : closes (ts ++ more) (opened.map TokenKind.opposite)) (ho : ∀ o ∈ opened, o.isOpener) :
    ∃ inner, openAfter (opened ++ outer) ts = inner ++ outer := by
  induction ts generalizing opened with
  | nil => exact ⟨opened, rfl⟩
  | cons t ts ih =>
    rw [openAfter, List.foldl_cons]
    rcases closes_cons h with ⟨hopen, hts⟩ | ⟨hclose, below, hbelow, hts⟩ | ⟨hflat, hts⟩
    · rw [openedBy_opener hopen]
      exact ih (t.kind :: opened) hts (List.forall_mem_cons.mpr ⟨hopen, ho⟩)
    · obtain ⟨o, opened, rfl, hkind, rfl⟩ := List.map_eq_cons_iff.mp hbelow
      obtain ⟨hopener, hopened⟩ := List.forall_mem_cons.mp ho
      rw [openedBy_closer hclose, ← hkind, List.cons_append, closeTo_opposite hopener]
      exact ih opened hts hopened
    · rw [openedBy_flat hflat]
      exact ih opened hts ho

/-- Where no closer is pending any more, no bracket is open. -/
theorem openAfter_eq_nil (opened below : List TokenKind)
    (h : closes ts (opened.map TokenKind.opposite ++ below))
    (ho : ∀ o ∈ opened, o.isOpener) : openAfter opened ts = [] := by
  induction ts generalizing opened below with
  | nil =>
    have hnil := List.append_eq_nil_iff.mp (List.isEmpty_iff.mp h)
    exact List.map_eq_nil_iff.mp hnil.1
  | cons t ts ih =>
    rw [openAfter, List.foldl_cons]
    rcases closes_cons h with ⟨hopen, hts⟩ | ⟨hclose, pending, hpending, hts⟩ | ⟨hflat, hts⟩
    · rw [openedBy_opener hopen]
      exact ih (t.kind :: opened) below hts (List.forall_mem_cons.mpr ⟨hopen, ho⟩)
    · rw [openedBy_closer hclose]
      cases opened with
      | nil => -- the bracket was opened before
        exact ih [] pending hts (by simp)
      | cons o opened =>
        obtain ⟨hkind, rfl⟩ := List.cons.inj hpending
        obtain ⟨hopener, hopened⟩ := List.forall_mem_cons.mp ho
        rw [← hkind, closeTo_opposite hopener]
        exact ih opened below hts hopened
    · rw [openedBy_flat hflat]
      exact ih opened below hts ho

/-- At a newline that is enclosed a bracket is open. -/
theorem openAfter_ne_nil (opened : List TokenKind) {before after : List Token}
    (h : NewlinesEnclosed (before ++ t :: after)) (hn : t.kind = .newline) :
    openAfter opened before ≠ [] := by
  obtain ⟨outer, opener, inner, inner', closer, outer', rfl, -, hopen, -, hinner⟩ :=
    h before t after rfl hn
  obtain ⟨opened', hopened⟩ :=
    openAfter_inside [] (opener.kind :: openAfter opened outer) hinner (by simp)
  rw [openAfter_append]
  change openAfter (openedBy (openAfter opened outer) opener) inner ≠ []
  rw [openedBy_opener hopen]
  exact hopened ▸ List.append_ne_nil_of_right_ne_nil _ (List.cons_ne_nil _ _)

end

section
variable {ts rest : List Token} {newline : Token} {c : Cursor} {opened : List TokenKind}

theorem skipItemStep_eq (opened : List TokenKind) : skipItemStep opened = (read >>= fun t =>
    if t.kind = .eof ∨ t.kind = .newline ∧ opened = [] then pure (opened, false)
    else pure (openedBy opened t, true)) := by
  unfold skipItemStep openedBy
  congr
  funext t
  dsimp only
  split
  · rfl
  split
  · rfl
  split <;> rfl

/-- A place somewhere in `ts`, with the brackets that are open there, and `rest` behind. -/
def Amid (ts rest : List Token) (opened : List TokenKind) (c : Cursor) : Prop :=
  c.InMode true ∧ ∃ done todo, ts = done ++ todo ∧ c.rest = todo ++ rest ∧
    openAfter [] done = opened

theorem ends_skipItemStep (he : ∀ t ∈ ts, t.kind ≠ .eof) (hts : NewlinesEnclosed ts)
    (hopen : openAfter [] ts = []) (hn : newline.kind = .newline)
    (h : Amid ts (newline :: rest) opened c) :
    Ends (skipItemStep opened) c fun r c' =>
      if r.2 then Amid ts (newline :: rest) r.1 c' else c'.rest = rest := by
  obtain ⟨hc, done, todo, rfl, hr, rfl⟩ := h
  rw [skipItemStep_eq]
  refine arrives_read_bind ?_
  cases hnext : todo.find? fun t => !t.hidden true with
  | none =>
    -- comments at most, so the newline behind is next
    have hhidden : ∀ t ∈ todo, t.hidden true := by simpa using hnext
    have hsees : Sees true newline (todo ++ [newline]) :=
      ⟨todo, rfl, hhidden, by simp [Token.hidden, hn]⟩
    obtain ⟨hpeek, hadvance⟩ := hc.read_sees (by simpa using hr) hsees
    have hnil : openAfter [] done = [] := by
      rwa [openAfter_append, openAfter_hidden hhidden] at hopen
    rw [hpeek, hadvance, hnil]
    simp only [hn, and_self, or_true, if_true]
    exact arrives_pure rfl
  | some t =>
    obtain ⟨ht, hs, todo, rfl, hhs⟩ := List.find?_eq_some_iff_append.mp hnext
    have hhidden : ∀ t ∈ hs, t.hidden true := by simpa using hhs
    have hsees : Sees true t (hs ++ [t]) := ⟨hs, rfl, hhidden, by simpa using ht⟩
    have hrest : c.rest = (hs ++ [t]) ++ (todo ++ newline :: rest) := by simpa using hr
    obtain ⟨hpeek, hadvance⟩ := hc.read_sees hrest hsees
    have hgoes : ¬(t.kind = .eof ∨ t.kind = .newline ∧ openAfter [] done = []) := by
      rintro (heof | ⟨hnewline, hnil⟩)
      · exact he t (by simp) heof
      · rw [← List.append_assoc] at hts
        have hne := openAfter_ne_nil [] hts hnewline
        rw [openAfter_append, openAfter_hidden hhidden] at hne
        exact hne hnil
    have hstep : Amid (done ++ (hs ++ t :: todo)) (newline :: rest)
        (openedBy (openAfter [] done) t) c.advance := by
      rw [hadvance]
      refine ⟨⟨hc.newlines, hc.ends⟩, done ++ hs ++ [t], todo, by simp, rfl, ?_⟩
      rw [openAfter_append, openAfter_append, openAfter_hidden hhidden]
      rfl
    rw [hpeek, if_neg hgoes]
    exact arrives_pure hstep

end

/-- Recovery after an item skips whole brackets, and closers whose openers it has not met: it stops
behind the newline that follows tokens which are the end of balanced ones. -/
theorem skipItem_skips_brackets {c : Cursor} (front : List Token) {ts rest : List Token}
    {newline : Token}
    (hc : c.InMode true) (hr : c.rest = ts ++ newline :: rest) (hn : newline.kind = .newline)
    (he : ∀ t ∈ ts, t.kind ≠ .eof) (hb : closes (front ++ ts) []) (hts : NewlinesEnclosed ts)
    (recovering : Bool) :
    (skipItem ⟨c, recovering⟩).state.cursor =
      { c with passed := newline :: (ts.reverse ++ c.passed), rest } := by
  have hopen : openAfter [] ts = [] := by
    obtain ⟨below, hbelow⟩ := closes_suffix hb
    exact openAfter_eq_nil [] below hbelow (by simp)
  have hrun : Ends skipItem c fun _ c' => c'.rest = rest := by
    refine still_recover.seq fun _ => ?_
    refine Arrives.seq (P := fun _ c' => c'.rest = rest) ?_ fun _ _ h => arrives_pure h
    exact .iterate advances_skipItemStep (fun _ _ => ends_skipItemStep he hts hopen hn) hc.ends
      ⟨hc, [], ts, rfl, hr, rfl⟩
  have hrest := hrun recovering fun _ _ => trivial
  have hsplit : c.rest = (ts ++ [newline]) ++ (skipItem ⟨c, recovering⟩).state.cursor.rest := by
    rw [hrest]
    simpa using hr
  have hcursor := (framed.skipItem ⟨c, recovering⟩).eq_of_rest hsplit
  rw [hrest] at hcursor
  simpa using hcursor

/-- A token without a text. -/
def mark (k : TokenKind) : Token := ⟨k, [], default⟩

/-- Behind a tuple that is not closed, as in `] {`, a newline, `}`, a newline and a name. -/
def tupleTail : Cursor where
  passed := []
  rest := [.closeBracket, .openBrace, .newline, .closeBrace, .newline, .identifier, .eof].map mark
  eof := mark .eof
  modes := []

theorem tupleTail_skipped : tupleTail.InMode true ∧
    closes ([.openBracket, .closeBracket, .openBrace, .newline, .closeBrace].map mark) [] ∧
    NewlinesEnclosed ([.closeBracket, .openBrace, .newline, .closeBrace].map mark) ∧
    (skipItem ⟨tupleTail, false⟩).state.cursor.rest = [.identifier, .eof].map mark := by
  have hc : tupleTail.InMode true := ⟨rfl, rfl⟩
  have hts : NewlinesEnclosed ([.closeBracket, .openBrace, .newline, .closeBrace].map mark) := by
    intro before newline after h hn
    rcases before with _ | ⟨x, _ | ⟨y, _ | ⟨z, before⟩⟩⟩
    · obtain rfl : mark .closeBracket = newline := (List.cons.inj h).1
      cases hn
    · obtain ⟨-, hy⟩ := List.cons.inj h
      obtain rfl : mark .openBrace = newline := (List.cons.inj hy).1
      cases hn
    · -- the only newline, between the braces
      obtain ⟨rfl, hy⟩ := List.cons.inj h
      obtain ⟨rfl, hz⟩ := List.cons.inj hy
      obtain ⟨rfl, rfl⟩ := List.cons.inj hz
      exact ⟨[mark .closeBracket], mark .openBrace, [], [], mark .closeBrace, [], rfl, rfl, rfl,
        rfl, rfl⟩
    · obtain ⟨-, -, -, hrest⟩ := by simpa using h
      have hmem : newline ∈ [mark .closeBrace] := by simp [hrest]
      obtain rfl := List.mem_singleton.mp hmem
      cases hn
  have h := skipItem_skips_brackets [mark .openBracket] hc rfl rfl (by decide) rfl hts false
  exact ⟨hc, rfl, hts, by rw [h]⟩

end Parser

end HclSyntax
