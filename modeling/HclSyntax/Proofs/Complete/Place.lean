import Mathlib.Data.List.Basic
import HclSyntax.Proofs.Grammar.Passing
import HclSyntax.Proofs.Reads

namespace HclSyntax

theorem Sees.length_pos {nl : Bool} {t : Token} {ts : List Token} (h : Sees nl t ts) :
    0 < ts.length := by
  obtain ⟨hs, rfl, -⟩ := h
  simp

theorem Mark.length_pos {nl : Bool} {k : TokenKind} {ts : List Token} (h : Mark nl k ts) :
    0 < ts.length := by
  obtain ⟨t, -, h⟩ := h
  exact h.length_pos

namespace Cursor

variable {c : Cursor} {nl : Bool} {ts ts' : List Token}

/-- The tokens `ts` are next at `c`. -/
structure Faces (c : Cursor) (nl : Bool) (ts : List Token) : Prop where
  inMode : c.InMode nl
  next : ts <+: c.rest

/-- The place behind the tokens `ts`. -/
def past (c : Cursor) (ts : List Token) : Cursor :=
  { c with passed := ts.reverse ++ c.passed, rest := c.rest.drop ts.length }

@[simp] theorem past_nil (c : Cursor) : c.past [] = c := rfl

@[simp] theorem past_past (c : Cursor) (ts ts' : List Token) :
    (c.past ts).past ts' = c.past (ts ++ ts') := by
  simp [past]

theorem leave_past_enter (c : Cursor) (nl : Bool) (ts : List Token) :
    ((c.enter nl).past ts).leave = c.past ts := rfl

theorem previousRange_past (c : Cursor) (t : Token) (ts : List Token) :
    (c.past (t :: ts)).previousRange = (ts.getLastD t).range := by
  have hne : (t :: ts).reverse ≠ [] := by simp
  unfold previousRange past
  rw [List.headD_eq_head?_getD, List.head?_append_of_ne_nil _ hne, List.head?_reverse,
    List.getLast?_cons, ← List.getLastD_eq_getLast?]
  rfl

theorem Faces.left (h : c.Faces nl (ts ++ ts')) : c.Faces nl ts :=
  ⟨h.inMode, (List.prefix_append ts ts').trans h.next⟩

theorem Faces.right (h : c.Faces nl (ts ++ ts')) : (c.past ts).Faces nl ts' := by
  obtain ⟨rest, hr⟩ := h.next
  refine ⟨⟨h.inMode.newlines, h.inMode.ends⟩, rest, ?_⟩
  rw [past, ← hr, List.append_assoc, List.drop_left]

theorem Faces.behind (h : c.Faces nl ts) : (c.past ts).Faces nl [] :=
  ⟨⟨h.inMode.newlines, h.inMode.ends⟩, List.nil_prefix⟩

theorem Faces.enter (h : c.Faces nl ts) (nl' : Bool) : (c.enter nl').Faces nl' ts :=
  ⟨h.inMode.enter nl', h.next⟩

theorem Faces.remaining_past (h : c.Faces nl ts) :
    (c.past ts).remaining + ts.length = c.remaining := by
  obtain ⟨rest, hr⟩ := h.next
  rw [remaining, remaining, past, ← hr]
  simp
  omega

theorem Faces.sees {t : Token} (h : c.Faces nl ts) (hs : Sees nl t ts) :
    c.peek = t ∧ c.advance = c.past ts := by
  obtain ⟨rest, hr⟩ := h.next
  obtain ⟨hp, ha⟩ := h.inMode.read_sees hr.symm hs
  refine ⟨hp, ha.trans ?_⟩
  rw [past, ← hr, List.drop_left]

/-- In front of tokens that are no comments the first one is read where newlines count. -/
theorem Faces.token {t : Token} (h : c.Faces true (t :: ts)) (ht : t.kind ≠ .comment) :
    c.peek = t ∧ c.advance = c.past [t] ∧ (c.past [t]).Faces true ts := by
  have hs : c.Faces true ([t] ++ ts) := h
  obtain ⟨hp, ha⟩ := hs.left.sees ⟨[], rfl, by simp, by simp [Token.hidden, ht]⟩
  exact ⟨hp, ha, hs.right⟩

theorem Faces.mark {k : TokenKind} (h : c.Faces nl ts) (hm : Mark nl k ts) :
    c.peek.kind = k ∧ c.advance = c.past ts := by
  obtain ⟨t, hk, hs⟩ := hm
  obtain ⟨rfl, ha⟩ := h.sees hs
  exact ⟨hk, ha⟩

theorem Faces.name {text : String} (h : c.Faces nl ts) (hn : Name nl text ts) :
    c.peek.kind = .identifier ∧ c.peek.text = text ∧ c.advance = c.past ts := by
  obtain ⟨t, hk, ht, hs⟩ := hn
  obtain ⟨rfl, ha⟩ := h.sees hs
  exact ⟨hk, ht, ha⟩

theorem Faces.keyword {w : String} (h : c.Faces nl ts) (hw : Keyword nl w ts) :
    c.peek.isKeyword w ∧ c.advance = c.past ts := by
  obtain ⟨t, hk, hs⟩ := hw
  obtain ⟨rfl, ha⟩ := h.sees hs
  exact ⟨hk, ha⟩

/-- A keyword is read where newlines do not count, too. -/
theorem Faces.keyword_enter {w : String} (h : c.Faces nl ts) (hw : Keyword nl w ts) :
    c.peek.isKeyword w ∧ (c.enter false).advance = (c.enter false).past ts := by
  obtain ⟨t, hk, hs⟩ := hw
  obtain ⟨rfl, -⟩ := h.sees hs
  have hi := Token.kind_of_isKeyword hk
  exact ⟨hk, ((h.enter false).sees (hs.newlines_hidden (by simp [hi]))).2⟩

/-- A token that is seen where newlines count is the next one where they do not, too, unless it is a
newline. -/
theorem InMode.peek_enter (hc : c.InMode nl) (hk : c.peek.kind ≠ .newline)
    (he : c.peek.kind ≠ .eof) : (c.enter false).peek = c.peek := by
  obtain ⟨ts, hp, hs⟩ := hc.sees he
  exact ((hc.enter false).read_sees hp.rest (hs.newlines_hidden hk)).1

/-- The token behind `ts` belongs to what is next, unless the file ends there. -/
theorem Faces.followed (h : c.Faces nl ts) (hk : (c.past ts).peek.kind ≠ .eof) :
    ∃ ts', c.Faces nl (ts ++ ts') ∧ Sees nl (c.past ts).peek ts' := by
  obtain ⟨rest, hr⟩ := h.next
  obtain ⟨ts', hp, hs⟩ := h.behind.inMode.sees hk
  have hrest : (c.past ts).rest = rest := by rw [past, ← hr, List.drop_left]
  refine ⟨ts', ⟨h.inMode, (c.past ts).advance.rest, ?_⟩, hs⟩
  rw [List.append_assoc, ← hp.rest, hrest, hr]

/-- If the next token has a property that the one behind `ts` lacks, `ts` begins with it. -/
theorem Faces.begins {t : Token} {p : Token → Prop} (h : c.Faces nl (ts ++ ts'))
    (hs : Sees nl t ts') (ht : ¬ p t) (hp : p c.peek) : Begins nl p ts := by
  have hsplit : ts.takeWhile (Token.hidden nl) ++ ts.dropWhile (Token.hidden nl) = ts :=
    List.takeWhile_append_dropWhile
  have hall := List.all_eq_true.mp (List.all_takeWhile (p := Token.hidden nl) (l := ts))
  rcases hd : ts.dropWhile (Token.hidden nl) with _ | ⟨x, rest⟩
  · rw [hd, List.append_nil] at hsplit
    obtain ⟨hs', rfl, hh, hv⟩ := hs
    have hsees : Sees nl t (ts ++ (hs' ++ [t])) := by
      refine ⟨ts ++ hs', by simp, fun y hy => ?_, hv⟩
      rcases List.mem_append.mp hy with hy | hy
      · exact hall y (by rwa [hsplit])
      · exact hh y hy
    obtain ⟨rfl, -⟩ := h.sees hsees
    exact absurd hp ht
  · rw [hd] at hsplit
    have hx : x.hidden nl = false := by
      have := List.head?_dropWhile_not (Token.hidden nl) ts
      simpa [hd] using this
    have hsees : Sees nl x (ts.takeWhile (Token.hidden nl) ++ [x]) := ⟨_, rfl, hall, hx⟩
    have hts : ts = (ts.takeWhile (Token.hidden nl) ++ [x]) ++ rest := by
      rw [List.append_assoc]
      exact hsplit.symm
    have hl := h.left
    rw [hts] at hl
    obtain ⟨rfl, -⟩ := hl.left.sees hsees
    exact ⟨c.peek, _, rest, hp, hsees, hts⟩

end Cursor

/-- Behind `ts` the tokens `ts'` are read in another mode. -/
theorem Parser.Reads.within {α : Type} {p : Parser α} {c : Cursor} {a : α} {newlines : Bool}
    {ts ts' : List Token} (h : p.Reads ((c.past ts).enter newlines) a
      (((c.past ts).enter newlines).past ts')) :
    (Parser.withNewlines newlines p).Reads (c.past ts) a (c.past (ts ++ ts')) := by
  rw [← Cursor.past_past]
  exact h.withNewlines

end HclSyntax
