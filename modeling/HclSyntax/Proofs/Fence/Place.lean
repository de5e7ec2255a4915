import Mathlib.Tactic.NthRewrite
import HclSyntax.Proofs.Depth.Place

namespace HclSyntax

/-- Whether a token may stand in a template sequence, outside of the strings and sequences in it. -/
def TokenKind.inSequence : TokenKind → Bool
  | openQuote | closeQuote | openHeredoc | closeHeredoc | interpolation | directive | sequenceEnd
  | eof => false
  | _ => true

/-- The end of a template sequence, and all that follows. -/
structure Fence where
  token : Token
  after : List Token
  kind : token.kind = .sequenceEnd

namespace Cursor

/-- In front of the fence, with the closers `closers` ahead in this order. -/
structure Fenced (f : Fence) (closers : List TokenKind) (c : Cursor) : Prop where
  ends : c.eof.kind = .eof
  ahead : ∃ ts pending, c.rest = ts ++ f.token :: f.after ∧ (∀ t ∈ ts, t.kind.inSequence) ∧
    closes ts pending ∧ closers.Sublist pending

variable {f : Fence} {c : Cursor} {closers : List TokenKind} {k : TokenKind}

namespace Fenced

theorem enter (h : c.Fenced f closers) (newlines : Bool) : (c.enter newlines).Fenced f closers :=
  ⟨h.ends, h.ahead⟩

theorem leave (h : c.Fenced f closers) : c.leave.Fenced f closers := ⟨h.ends, h.ahead⟩

theorem weaken {closers' : List TokenKind} (h : c.Fenced f closers)
    (hs : closers'.Sublist closers) : c.Fenced f closers' := by
  obtain ⟨he, ts, pending, hr, hts, hc, hsub⟩ := h
  exact ⟨he, ts, pending, hr, hts, hc, hs.trans hsub⟩

/-- What is read next: the fence, if no closers are ahead, or a token in front of it. -/
theorem next (h : c.Fenced f closers) :
    (c.peek = f.token ∧ closers = [] ∧ c.advance.rest = f.after) ∨
    (c.peek.kind.inSequence ∧ ∃ ts pending, c.advance.rest = ts ++ f.token :: f.after ∧
      (∀ t ∈ ts, t.kind.inSequence) ∧ closes (c.peek :: ts) pending ∧ closers.Sublist pending) := by
  obtain ⟨he, ts, pending, hr, hts, hc, hsub⟩ := h
  have hm : c.InMode c.newlinesCount := ⟨rfl, he⟩
  have hsplit := List.takeWhile_append_dropWhile (p := c.hides) (l := ts)
  have hhidden : ∀ t ∈ ts.takeWhile c.hides, t.hidden c.newlinesCount := fun t ht => by
    rw [← hm.hides]
    exact List.all_eq_true.mp List.all_takeWhile t ht
  rcases hd : ts.dropWhile c.hides with _ | ⟨t, others⟩
  · left
    rw [hd, List.append_nil] at hsplit
    rw [hsplit] at hhidden
    have hsees : Sees c.newlinesCount f.token (ts ++ [f.token]) :=
      ⟨ts, rfl, hhidden, by simp [Token.hidden, f.kind]⟩
    have hr : c.rest = (ts ++ [f.token]) ++ f.after := by simpa using hr
    obtain ⟨hpeek, hadvance⟩ := hm.read_sees hr hsees
    have hnil : closes (ts ++ []) pending = closes [] pending := closes_hidden hhidden
    rw [List.append_nil, hc] at hnil
    obtain rfl : pending = [] := List.isEmpty_iff.mp hnil.symm
    exact ⟨hpeek, List.sublist_nil.mp hsub, by rw [hadvance]⟩
  · right
    rw [hd] at hsplit
    have ht : t.hidden c.newlinesCount = false := by
      have := List.head?_dropWhile_not c.hides ts
      rw [← hm.hides]
      simpa [hd] using this
    have hsees : Sees c.newlinesCount t (ts.takeWhile c.hides ++ [t]) := ⟨_, rfl, hhidden, ht⟩
    have hr : c.rest = (ts.takeWhile c.hides ++ [t]) ++ (others ++ f.token :: f.after) := by
      rw [hr]
      nth_rewrite 1 [← hsplit]
      simp
    obtain ⟨hpeek, hadvance⟩ := hm.read_sees hr hsees
    have hmem {x : Token} (hx : x ∈ t :: others) : x.kind.inSequence :=
      hts x (hsplit ▸ List.mem_append_right _ hx)
    rw [← hsplit, closes_hidden hhidden] at hc
    rw [hpeek, hadvance]
    exact ⟨hmem List.mem_cons_self, others, pending, rfl,
      fun x hx => hmem (List.mem_cons_of_mem _ hx), hc, hsub⟩

theorem peek_kind (h : c.Fenced f closers) :
    c.peek.kind = .sequenceEnd ∨ c.peek.kind.inSequence := by
  rcases h.next with ⟨hpeek, -⟩ | ⟨hk, -⟩
  · exact .inl (hpeek ▸ f.kind)
  · exact .inr hk

theorem ends_advance (h : c.Fenced f closers) : c.advance.eof.kind = .eof := by
  rw [c.reaches_advance.eof, h.ends]

/-- Past a token in front of the fence, what is ahead closes what was pending, as the token leaves
it. -/
theorem past {closers' : List TokenKind} (h : c.Fenced f closers)
    (hk : c.peek.kind ≠ .sequenceEnd)
    (hopener : ∀ pending, closers.Sublist pending → c.peek.kind.isOpener →
      closers'.Sublist (c.peek.kind.opposite :: pending))
    (hcloser : ∀ below, closers.Sublist (c.peek.kind :: below) → c.peek.kind.isCloser →
      closers'.Sublist below)
    (hflat : ∀ pending, closers.Sublist pending → c.peek.kind.Flat → closers'.Sublist pending) :
    c.advance.Fenced f closers' := by
  rcases h.next with ⟨hpeek, -⟩ | ⟨-, ts, pending, hr, hts, hc, hsub⟩
  · exact absurd (hpeek ▸ f.kind) hk
  rcases closes_cons hc with ⟨ho, hrest⟩ | ⟨hcl, below, rfl, hrest⟩ | ⟨hf, hrest⟩
  · exact ⟨h.ends_advance, ts, _, hr, hts, hrest, hopener pending hsub ho⟩
  · exact ⟨h.ends_advance, ts, below, hr, hts, hrest, hcloser below hsub hcl⟩
  · exact ⟨h.ends_advance, ts, pending, hr, hts, hrest, hflat pending hsub hf⟩

/-- A token that is no closer leaves all closers ahead. -/
theorem pass (h : c.Fenced f closers) (hk : c.peek.kind.isCloser = false) :
    c.advance.Fenced f closers :=
  h.past (fun he => by simp [he, TokenKind.isCloser] at hk)
    (fun _ hsub _ => hsub.trans (List.sublist_cons_self _ _))
    (fun _ _ hcl => absurd hcl (by simp [hk])) fun _ hsub _ => hsub

theorem passed (h : c.Fenced f closers) (hk : c.peek.kind = k) (hc : k.isCloser = false) :
    c.advance.Fenced f closers := h.pass (hk ▸ hc)

/-- An opening bracket has its closer ahead. -/
theorem opened (h : c.Fenced f closers) (hk : c.peek.kind = k) (ho : k.isOpener) :
    c.advance.Fenced f (k.opposite :: closers) := by
  subst hk
  refine h.past (fun he => by simp [he, TokenKind.isOpener] at ho)
    (fun _ hsub _ => hsub.cons_cons _) (fun _ _ hc => ?_) fun _ _ hf => ?_
  · simp [TokenKind.not_isOpener hc] at ho
  · simp [hf.1] at ho

/-- Inside of brackets the fence is not next. -/
theorem kind_ne (h : c.Fenced f (k :: closers)) : c.peek.kind ≠ .sequenceEnd := by
  rcases h.next with ⟨-, hnil, -⟩ | ⟨hk, -⟩
  · cases hnil
  · rintro he
    simp [he, TokenKind.inSequence] at hk

/-- A token that is not the closer of the innermost bracket leaves all closers ahead. -/
theorem pass_ne (h : c.Fenced f (k :: closers)) (hk : c.peek.kind ≠ k) :
    c.advance.Fenced f (k :: closers) := by
  refine h.past h.kind_ne (fun _ hsub _ => hsub.trans (List.sublist_cons_self _ _))
    (fun below hsub _ => ?_) fun _ hsub _ => hsub
  rcases List.sublist_cons_iff.mp hsub with hsub | ⟨r, heq, -⟩
  · exact hsub
  · exact absurd (List.cons.inj heq).1.symm hk

/-- Any token takes at most the closer of the innermost bracket. -/
theorem shorten (h : c.Fenced f (k :: closers)) : c.advance.Fenced f closers := by
  have hweak {pending : List TokenKind} (hsub : (k :: closers).Sublist pending) :
      closers.Sublist pending := (List.sublist_cons_self k closers).trans hsub
  exact h.past h.kind_ne (fun _ hsub _ => (hweak hsub).trans (List.sublist_cons_self _ _))
    (fun _ hsub _ => hsub.tail) fun _ hsub _ => hweak hsub

/-- Outside of brackets any token but the fence may be passed. -/
theorem drop (h : c.Fenced f []) (hk : c.peek.kind ≠ .sequenceEnd) : c.advance.Fenced f [] :=
  h.past hk (fun _ _ _ => List.nil_sublist _) (fun _ _ _ => List.nil_sublist _)
    fun _ _ _ => List.nil_sublist _

/-- The fence is the only token of its kind. -/
theorem rest_advance (h : c.Fenced f closers) (hk : c.peek.kind = .sequenceEnd) :
    c.advance.rest = f.after := by
  rcases h.next with ⟨-, -, hr⟩ | ⟨hin, -⟩
  · exact hr
  · simp [hk, TokenKind.inSequence] at hin

end Fenced

end Cursor

end HclSyntax
