import HclSyntax.Proofs.Meaning.Place
import HclSyntax.Proofs.Progress.Advance

namespace HclSyntax

namespace Parser

variable {x : Likeness} {α β σ : Type} [Placed α] [Placed β] [Placed σ]

/-- Two runs that end alike. -/
structure RunsAlike (x : Likeness) (m : List Bool) (r r' : Parsed α) : Prop where
  value : x.Like r.value r'.value
  diagnostics : x.Like r.diagnostics r'.diagnostics
  places : x.Places m r.state.cursor r'.state.cursor
  recovering : r.state.recovering = r'.state.recovering

/-- From like places where a token of kind `k` is next, `p` and `p'` run alike. -/
def LikewiseAt (x : Likeness) (k : TokenKind) (p p' : Parser α) : Prop :=
  ∀ ⦃m c c'⦄, x.Places m c c' → c.peek.kind = k → ∀ b, RunsAlike x m (p ⟨c, b⟩) (p' ⟨c', b⟩)

/-- From like places `p` and `p'` run alike. -/
def Likewise (x : Likeness) (p p' : Parser α) : Prop :=
  ∀ ⦃m c c'⦄, x.Places m c c' → ∀ b, RunsAlike x m (p ⟨c, b⟩) (p' ⟨c', b⟩)

theorem Likewise.at {p p' : Parser α} (h : Likewise x p p') (k : TokenKind) :
    LikewiseAt x k p p' := fun _ _ _ hc _ => h hc

/-- What comes after two runs that end alike. -/
theorem RunsAlike.bind {m : List Bool} {p p' : Parser α} {f f' : α → Parser β} {s s' : ParseState}
    (hp : RunsAlike x m (p s) (p' s'))
    (hf : RunsAlike x m (f (p s).value (p s).state) (f' (p' s').value (p' s').state)) :
    RunsAlike x m ((p >>= f) s) ((p' >>= f') s') :=
  ⟨hf.value, hp.diagnostics.append hf.diagnostics, hf.places, hf.recovering⟩

theorem likewise_pure {a a' : α} (h : x.Like a a') : Likewise x (pure a) (pure a') :=
  fun _ _ _ hc _ => ⟨h, .refl _, hc, rfl⟩

theorem Likewise.run {m : List Bool} {p p' : Parser α} (h : Likewise x p p') {s s' : ParseState}
    (hc : x.Places m s.cursor s'.cursor) (hr : s.recovering = s'.recovering) :
    RunsAlike x m (p s) (p' s') := by
  obtain ⟨c, b⟩ := s
  obtain ⟨c', b'⟩ := s'
  obtain rfl : b = b' := hr
  exact h hc b

theorem LikewiseAt.bind {k : TokenKind} {p p' : Parser α} {f f' : α → Parser β}
    (hp : LikewiseAt x k p p') (hf : ∀ a a', x.Like a a' → Likewise x (f a) (f' a')) :
    LikewiseAt x k (p >>= f) (p' >>= f') := by
  intro m c c' hc hk b
  have h := hp hc hk b
  exact h.bind ((hf _ _ h.value).run h.places h.recovering)

theorem Likewise.bind {p p' : Parser α} {f f' : α → Parser β} (hp : Likewise x p p')
    (hf : ∀ a a', x.Like a a' → Likewise x (f a) (f' a')) :
    Likewise x (p >>= f) (p' >>= f') :=
  fun _ _ _ hc => ((hp.at _).bind hf) hc rfl

/-- What is made of like answers. -/
theorem Likewise.map {p p' : Parser α} {f f' : α → β} (hp : Likewise x p p')
    (hf : ∀ a a', x.Like a a' → x.Like (f a) (f' a')) :
    Likewise x (p >>= fun a => pure (f a)) (p' >>= fun a => pure (f' a)) :=
  hp.bind fun a a' h => likewise_pure (hf a a' h)

/-- What is answered whatever is read. -/
theorem Likewise.done {p p' : Parser α} (hp : Likewise x p p') {b b' : β} (hb : x.Like b b') :
    Likewise x (p >>= fun _ => pure b) (p' >>= fun _ => pure b') :=
  hp.map fun _ _ _ => hb

theorem likewise_peek : Likewise x peek peek := fun _ _ _ hc _ => ⟨hc.peek, .refl _, hc, rfl⟩

theorem likewise_skip : Likewise x skip skip :=
  fun _ _ _ hc _ => ⟨.refl _, .refl _, hc.advance, rfl⟩

theorem likewise_read : Likewise x read read :=
  fun _ _ _ hc _ => ⟨hc.peek, .refl _, hc.advance, rfl⟩

theorem likewise_previousRange : Likewise x previousRange previousRange :=
  fun _ _ _ hc _ => ⟨hc.previousRange, .refl _, hc, rfl⟩

/-- What is done after a look at the next token, while it is next. -/
theorem likewise_peek_at {f f' : Token → Parser β}
    (hf : ∀ t t', x.Like t t' → LikewiseAt x t.kind (f t) (f' t')) :
    Likewise x (peek >>= f) (peek >>= f') :=
  fun _ _ _ hc b => hf _ _ hc.peek hc rfl b

theorem likewise_peekKind_at {f f' : TokenKind → Parser β}
    (hf : ∀ k, LikewiseAt x k (f k) (f' k)) : Likewise x (peekKind >>= f) (peekKind >>= f') := by
  intro m c c' hc b
  change RunsAlike x m (f c.peek.kind ⟨c, b⟩) (f' c'.peek.kind ⟨c', b⟩)
  rw [← hc.peek.kind]
  exact hf c.peek.kind hc rfl b

theorem likewise_peekKind_bind {f f' : TokenKind → Parser β}
    (hf : ∀ k, Likewise x (f k) (f' k)) : Likewise x (peekKind >>= f) (peekKind >>= f') :=
  likewise_peekKind_at fun k => (hf k).at k

theorem LikewiseAt.read_bind {k : TokenKind} {f f' : Token → Parser β}
    (hf : ∀ t t', x.Like t t' → t.kind = k → Likewise x (f t) (f' t')) :
    LikewiseAt x k (read >>= f) (read >>= f') :=
  fun _ _ _ hc hk b => hf _ _ hc.peek hk hc.advance b

theorem likewise_atKeyword_bind {keyword : String} {f f' : Bool → Parser β}
    (hf : ∀ b, Likewise x (f b) (f' b)) :
    Likewise x (atKeyword keyword >>= f) (atKeyword keyword >>= f') := by
  intro m c c' hc b
  change RunsAlike x m (f (c.peek.isKeyword keyword) ⟨c, b⟩)
    (f' (c'.peek.isKeyword keyword) ⟨c', b⟩)
  rw [← hc.peek.isKeyword]
  exact hf _ hc b

/-- Without opening braces nothing is done at one. -/
theorem likewiseAt_openBrace {p p' : Parser α} (hb : x.braces = false) :
    LikewiseAt x .openBrace p p' := fun _ _ _ hc hk => absurd hk (hc.peek_ne_openBrace hb)

theorem Likewise.withNewlines {p p' : Parser α} {newlines : Bool} (hp : Likewise x p p')
    (hn : x.joined = true → newlines = false) :
    Likewise x (withNewlines newlines p) (withNewlines newlines p') := by
  intro m c c' hc b
  obtain ⟨hv, hd, hplaces, hr⟩ := hp (hc.enter hn) b
  exact ⟨hv, hd, hplaces.leave hc.noise, hr⟩

theorem likewise_tell {ds ds' : List Diagnostic} (h : x.Like ds ds') :
    Likewise x (tell ds) (tell ds') := fun _ _ _ hc _ => ⟨.refl _, h, hc, rfl⟩

theorem likewise_recover : Likewise x recover recover :=
  fun _ _ _ hc _ => ⟨.refl _, .refl _, hc, rfl⟩

theorem likewise_recovering_bind {f f' : Bool → Parser β} (hf : ∀ b, Likewise x (f b) (f' b)) :
    Likewise x (recovering >>= f) (recovering >>= f') := fun _ _ _ hc b => hf b hc b

section
variable (p : Problem) {r r' : SourceRange} {o o' : Option SourceRange} (hr : x.Like r r')
  (ho : x.Like o o')
include hr ho

theorem likewise_report : Likewise x (report p r o) (report p r' o') :=
  likewise_tell (hr.toDiagnostic p ho).singleton

theorem likewise_reportFirst : Likewise x (reportFirst p r o) (reportFirst p r' o') := by
  refine likewise_recovering_bind fun b => ?_
  cases b with
  | true => exact likewise_pure (.refl _)
  | false => exact likewise_report p hr ho

end

theorem Likewise.observe {p p' : Parser α} (hp : Likewise x p p') :
    Likewise x (observe p) (observe p') := by
  intro m c c' hc b
  obtain ⟨hv, hd, hplaces, hr⟩ := hp hc b
  refine ⟨hv.pair ?_, hd, hplaces, hr⟩
  rw [hd.isEmpty]
  exact .refl _

/-- Like answers come with the same flag. -/
theorem Likewise.flag_seq {p p' : Parser (α × Bool)} {f f' : α × Bool → Parser β}
    (hp : Likewise x p p')
    (hf : ∀ a a' flag, x.Like a a' → Likewise x (f (a, flag)) (f' (a', flag))) :
    Likewise x (p >>= f) (p' >>= f') := by
  refine hp.bind fun r r' h => ?_
  obtain ⟨a, flag⟩ := r
  obtain ⟨a', flag'⟩ := r'
  obtain rfl : flag = flag' := h.snd.plain
  exact hf a a' flag h.fst

theorem Likewise.observe_seq {p p' : Parser α} {f f' : α × Bool → Parser β}
    (hp : Likewise x p p')
    (hf : ∀ a a' reported, x.Like a a' → Likewise x (f (a, reported)) (f' (a', reported))) :
    Likewise x (Parser.observe p >>= f) (Parser.observe p' >>= f') := hp.observe.flag_seq hf

theorem Likewise.track {p p' : Parser α} (hp : Likewise x p p') :
    Likewise x (track p) (track p') :=
  hp.observe_seq fun _ _ _ ha => likewise_recovering_bind fun _ => likewise_pure (ha.pair (.refl _))

theorem Likewise.track_seq {p p' : Parser α} {f f' : α × Bool → Parser β} (hp : Likewise x p p')
    (hf : ∀ a a' lost, x.Like a a' → Likewise x (f (a, lost)) (f' (a', lost))) :
    Likewise x (Parser.track p >>= f) (Parser.track p' >>= f') := hp.track.flag_seq hf

theorem likewise_invalid : Likewise x invalid invalid :=
  likewise_peek.bind fun _ _ ht =>
    (likewise_reportFirst _ ht.tokenRange (.refl _)).bind fun _ _ _ =>
      likewise_recover.done ht.tokenRange.placeholder

/-- A bound taken from the number of tokens left, which the two sources need not have in common,
makes no difference if any larger one is as good. -/
theorem Likewise.bounded {p p' : Nat → Parser α} (hp : ∀ n, Likewise x (p n) (p' n))
    (hb : ∀ n (s : ParseState), s.Ends → s.cursor.remaining < n →
      p n s = p (s.cursor.remaining + 1) s)
    (hb' : ∀ n (s : ParseState), s.Ends → s.cursor.remaining < n →
      p' n s = p' (s.cursor.remaining + 1) s) :
    Likewise x (fun s => p (s.cursor.remaining + 1) s) fun s => p' (s.cursor.remaining + 1) s := by
  intro m c c' hc b
  have hends : c'.eof.kind = .eof := hc.eof.kind ▸ hc.eof_kind
  have h := hp (c.remaining + c'.remaining + 1) hc b
  rwa [hb _ ⟨c, b⟩ hc.eof_kind (by change c.remaining < _; omega),
    hb' _ ⟨c', b⟩ hends (by change c'.remaining < _; omega)] at h

theorem Likewise.iterateFor {step step' : σ → Parser (σ × Bool)}
    (hs : ∀ a a', x.Like a a' → Likewise x (step a) (step' a')) (n : Nat) {a a' : σ}
    (ha : x.Like a a') : Likewise x (iterateFor step n a) (iterateFor step' n a') := by
  induction n generalizing a a' with
  | zero => exact likewise_invalid.done ha
  | succ n ih =>
    refine (hs a a' ha).flag_seq fun b b' more hb => ?_
    cases more with
    | true => exact ih hb
    | false => exact likewise_pure hb

theorem Likewise.iterate {step step' : σ → Parser (σ × Bool)} (h : Advances step)
    (h' : Advances step') (hs : ∀ a a', x.Like a a' → Likewise x (step a) (step' a')) {a a' : σ}
    (ha : x.Like a a') : Likewise x (iterate step a) (iterate step' a') :=
  .bounded (fun n => .iterateFor hs n ha)
    (fun _ _ he hn => h.bound_irrelevant a he hn (Nat.lt_succ_self _))
    fun _ _ he hn => h'.bound_irrelevant a' he hn (Nat.lt_succ_self _)

end Parser

end HclSyntax
