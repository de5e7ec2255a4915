import HclSyntax.Proofs.Meaning.Run
import HclSyntax.Proofs.Progress.Steps

namespace HclSyntax

namespace StringChunk

/-- What waits, wherever it began. -/
def Pending.bare : Pending → Pending
  | backslash _ => backslash .start
  | w => w

/-- What a cluster does, wherever it stands. -/
def Reading.bare (r : Reading) : List Char × Pending × Bool :=
  (r.text, r.pending.bare, r.invalidFrom.isSome)

theorem Pending.finish_bare (w : Pending) : w.bare.finish = w.finish := by cases w <;> rfl

theorem bare_readFresh (quoted : Bool) (p q : Pos) (cluster : List Char) :
    (readFresh quoted p cluster).bare = (readFresh quoted q cluster).bare := by
  unfold readFresh
  split
  · rfl
  · split <;> rfl

theorem Pending.bare_read (w : Pending) (quoted : Bool) (p q : Pos) (cluster : List Char) :
    (w.read quoted p cluster).bare = (w.bare.read quoted q cluster).bare := by
  have hafter (text : List Char) :
      Reading.bare { readFresh quoted p cluster with
        text := text ++ (readFresh quoted p cluster).text } =
      Reading.bare { readFresh quoted q cluster with
        text := text ++ (readFresh quoted q cluster).text } :=
    congrArg (fun r : List Char × Pending × Bool => (text ++ r.1, r.2))
      (bare_readFresh quoted p q cluster)
  cases w with
  | nothing => exact hafter []
  | backslash start =>
    simp only [Pending.bare, Pending.read]
    split <;> rfl
  | marker m =>
    simp only [Pending.bare, Pending.read]
    split
    · rfl
    · exact hafter _
  | doubled m =>
    simp only [Pending.bare, Pending.read]
    split
    · rfl
    · exact hafter _

/-- The text of a chunk and what is wrong with it, wherever it stands. -/
theorem bare_decodeFrom (f g : String) (quoted : Bool) (clusters : List (List Char))
    {w v : Pending} (h : w.bare = v.bare) (p q : Pos) :
    (decodeFrom f quoted w p clusters).1 = (decodeFrom g quoted v q clusters).1 ∧
    Placed.said (decodeFrom f quoted w p clusters).2 =
      Placed.said (decodeFrom g quoted v q clusters).2 := by
  induction clusters generalizing w v p q with
  | nil =>
    refine ⟨?_, rfl⟩
    rw [decodeFrom, decodeFrom, ← w.finish_bare, h, v.finish_bare]
  | cons cluster clusters ih =>
    have hread : (w.read quoted p cluster).bare = (v.read quoted q cluster).bare := by
      rw [w.bare_read quoted p q, h, ← v.bare_read quoted q q]
    obtain ⟨ht, hp⟩ := Prod.mk.inj hread
    obtain ⟨hp, hi⟩ := Prod.mk.inj hp
    obtain ⟨htext, hproblems⟩ := ih hp (advance p cluster) (advance q cluster)
    refine ⟨congrArg₂ _ ht htext, ?_⟩
    change List.map Placed.said (_ ++ _) = List.map Placed.said (_ ++ _)
    rw [List.map_append, List.map_append]
    refine congrArg₂ _ ?_ hproblems
    cases hw : (w.read quoted p cluster).invalidFrom <;>
      cases hv : (v.read quoted q cluster).invalidFrom <;> simp [hw, hv] at hi <;> rfl

end StringChunk

namespace Parser

variable {x : Likeness} {α : Type} [Placed α]

theorem likewise_skipPastStep (closer : TokenKind) {n n' : Nat} (h : x.Like n n') :
    Likewise x (skipPastStep closer n) (skipPastStep closer n') := by
  obtain rfl := h.plain
  refine likewise_read.bind fun t t' ht => ?_
  rw [← ht.kind]
  dsimp only
  repeat' split
  all_goals exact likewise_pure (.refl _)

theorem likewise_skipPast (closer : TokenKind) : Likewise x (skipPast closer) (skipPast closer) :=
  likewise_recover.bind fun _ _ _ =>
    (Likewise.iterate (advances_skipPastStep closer) (advances_skipPastStep closer)
      (fun _ _ => likewise_skipPastStep closer) (.refl 0)).done (.refl ())

theorem likewise_skipItemStep {ks ks' : List TokenKind} (h : x.Like ks ks') :
    Likewise x (skipItemStep ks) (skipItemStep ks') := by
  obtain rfl := h.plain
  refine likewise_read.bind fun t t' ht => ?_
  rw [← ht.kind]
  dsimp only
  repeat' split
  all_goals exact likewise_pure (.refl _)

theorem likewise_skipItem : Likewise x skipItem skipItem :=
  likewise_recover.bind fun _ _ _ =>
    (Likewise.iterate advances_skipItemStep advances_skipItemStep
      (fun _ _ => likewise_skipItemStep) (.refl [])).done (.refl ())

theorem likewise_numberValue {t t' : Token} (h : x.Like t t') (hk : t.kind = .number) :
    Likewise x (numberValue t) (numberValue t') := by
  unfold numberValue
  rw [← h.text (by rw [hk]; rfl)]
  split
  · exact likewise_pure (.refl _)
  · exact (likewise_report _ h.tokenRange (.refl _)).done (.refl _)

theorem likewise_chunk {t t' : Token} (h : x.Like t t') (hk : t.kind.isSpelled) :
    Likewise x (chunk t) (chunk t') := by
  have hsame : (StringChunk.decode t).1 = (StringChunk.decode t').1 ∧
      Placed.said (StringChunk.decode t).2 = Placed.said (StringChunk.decode t').2 := by
    have hb := StringChunk.bare_decodeFrom t.range.filename t'.range.filename
      (t.kind == .quotedChunk) (Cluster.segmentation.split t.chars)
      (rfl : StringChunk.Pending.nothing.bare = _)
      t.range.start t'.range.start
    unfold StringChunk.decode StringChunk.decodeWith Token.chars at *
    rw [← h.kind, ← h.bytes hk]
    exact ⟨congrArg String.ofList hb.1, hb.2⟩
  exact (likewise_tell ⟨hsame.2, fun hx => by rw [h.eq hx]⟩).done ⟨hsame.1, fun _ => hsame.1⟩

instance : Placed QuotedText := ⟨String, QuotedText.text⟩

theorem likewise_quotedStep {opening opening' : Token} (ho : x.Like opening opening')
    {q q' : QuotedText} (hq : x.Like q q') :
    Likewise x (quotedStep opening q) (quotedStep opening' q') := by
  have hstop {r r' : SourceRange} (hr : x.Like r r') :
      x.Like ({ q with stop := r }, false) ({ q' with stop := r' }, false) :=
    .pair ⟨hq.same, fun hx => by rw [hq.eq hx, hr.eq hx]⟩ (.refl _)
  have htext (s : String) :
      x.Like ({ q with text := q.text ++ s }, true) ({ q' with text := q'.text ++ s }, true) :=
    .pair ⟨congrArg (· ++ s) hq.same, fun hx => by rw [hq.eq hx]⟩ (.refl _)
  have hmark (marker mark : String) : x.Like ({ q with text := q.text ++ marker ++ mark }, true)
      ({ q' with text := q'.text ++ marker ++ mark }, true) :=
    .pair ⟨congrArg (· ++ marker ++ mark) hq.same, fun hx => by rw [hq.eq hx]⟩ (.refl _)
  refine likewise_read.bind fun t t' ht => ?_
  have hr := ht.tokenRange
  have hcontext := (ho.tokenRange.between hr).some
  rw [← ht.kind]
  split
  · exact likewise_pure (hstop hr)
  · rename_i hk
    refine (likewise_chunk ht (by rw [hk]; rfl)).map fun s s' hs => ?_
    obtain rfl := hs.plain
    exact htext s
  · exact (likewise_report _ hr hcontext).bind fun _ _ _ => (likewise_skipPast _).done (hmark _ _)
  · exact (likewise_report _ hr hcontext).bind fun _ _ _ => (likewise_skipPast _).done (hmark _ _)
  · exact (likewise_report _ hr hcontext).done (hstop hr)
  · exact (likewise_report _ hr hcontext).bind fun _ _ _ => (likewise_skipPast _).done (hstop hr)

theorem likewise_quotedString {opening opening' : Token} (ho : x.Like opening opening') :
    Likewise x (quotedString opening) (quotedString opening') := by
  have hstart : x.Like (⟨"", opening.range⟩ : QuotedText) ⟨"", opening'.range⟩ :=
    ⟨rfl, fun hx => by rw [ho.eq hx]⟩
  refine (Likewise.iterate advances_quotedStep advances_quotedStep
    (fun _ _ => likewise_quotedStep ho) hstart).map fun q q' hq => ?_
  exact .pair ⟨hq.same, fun hx => by rw [hq.eq hx]⟩ (.range fun hx => by rw [ho.eq hx, hq.eq hx])

end Parser

end HclSyntax
