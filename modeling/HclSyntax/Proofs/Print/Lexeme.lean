import HclSyntax.Proofs.Grammar.Derives
import HclSyntax.StringChunk

namespace HclSyntax

inductive Lexeme where
  /-- A token of which only the kind counts. -/
  | mark (kind : TokenKind)
  | name (text : String)
  | keyword (text : String)
  | number (n : Number)
  /-- A chunk of a string. -/
  | chunk (text : String)
  /-- The opening marker of an interpolation that strips nothing. -/
  | interpolation
  | sequenceEnd

/-- The token is one way to write the lexeme. -/
def Token.Spells (t : Token) : Lexeme → Prop
  | .mark kind => t.kind = kind
  | .name text => t.kind = .identifier ∧ t.text = text
  | .keyword text => t.isKeyword text
  | .number n => t.kind = .number ∧ Number.parse t.text = .ok n
  | .chunk text => t.kind = .quotedChunk ∧ t.text = text
  | .interpolation => t.kind = .interpolation ∧ t.stripsBefore = false
  | .sequenceEnd => t.kind = .sequenceEnd ∧ t.stripsAfter = false

/-- The tokens write the lexemes, one each; no comment and no newline stands between them. -/
inductive Spelled : List Lexeme → List Token → Prop
  | nil : Spelled [] []
  | cons {l : Lexeme} {ls : List Lexeme} {t : Token} {ts : List Token} (h : t.Spells l)
    (hc : t.kind ≠ .comment) (hn : t.kind ≠ .newline) (hs : Spelled ls ts) :
    Spelled (l :: ls) (t :: ts)

namespace Spelled

variable {l : Lexeme} {ls ls' : List Lexeme} {ts : List Token}

theorem append_split (ls : List Lexeme) (h : Spelled (ls ++ ls') ts) :
    ∃ ts₁ ts₂, ts = ts₁ ++ ts₂ ∧ Spelled ls ts₁ ∧ Spelled ls' ts₂ := by
  induction ls generalizing ts with
  | nil => exact ⟨[], ts, rfl, .nil, h⟩
  | cons l ls ih =>
    cases h with
    | cons ht hc hn hs =>
      obtain ⟨ts₁, ts₂, rfl, h₁, h₂⟩ := ih hs
      exact ⟨_ :: ts₁, ts₂, rfl, .cons ht hc hn h₁, h₂⟩

theorem eq_nil (h : Spelled [] ts) : ts = [] := by
  cases h
  rfl

theorem kind_ne_comment (h : Spelled ls ts) : ∀ t ∈ ts, t.kind ≠ .comment := by
  induction h with
  | nil => simp
  | cons _ hc _ _ ih =>
    intro x hx
    rcases List.mem_cons.mp hx with rfl | hx
    · exact hc
    · exact ih x hx

theorem single (h : Spelled [l] ts) :
    ∃ t, ts = [t] ∧ t.Spells l ∧ ∀ nl, Sees nl t [t] := by
  cases h with
  | cons ht hc hn hs =>
    refine ⟨_, by rw [hs.eq_nil], ht, fun nl => ⟨[], rfl, by simp, ?_⟩⟩
    simp [Token.hidden, hc, hn]

theorem mark {k : TokenKind} (h : Spelled [.mark k] ts) (nl : Bool) : Mark nl k ts := by
  obtain ⟨t, rfl, hk, hs⟩ := h.single
  exact ⟨t, hk, hs nl⟩

theorem name {text : String} (h : Spelled [.name text] ts) (nl : Bool) : Name nl text ts := by
  obtain ⟨t, rfl, ⟨hk, ht⟩, hs⟩ := h.single
  exact ⟨t, hk, ht, hs nl⟩

theorem keyword {w : String} (h : Spelled [.keyword w] ts) (nl : Bool) : Keyword nl w ts := by
  obtain ⟨t, rfl, hw, hs⟩ := h.single
  exact ⟨t, hw, hs nl⟩

end Spelled

/-- Text that a chunk of a string says as it is, without escapes and markers. -/
def PlainText (text : String) : Prop := ∀ c ∈ text.toList, c ≠ '\\' ∧ c ≠ '$' ∧ c ≠ '!'

namespace StringChunk

/-- Clusters without escapes and markers are read as they are. -/
theorem decodeFrom_plain (filename : String) (quoted : Bool) (p : Pos) (clusters : List (List Char))
    (h : ∀ cl ∈ clusters, cl ≠ ['\\'] ∧ cl ≠ ['$'] ∧ cl ≠ ['!']) :
    decodeFrom filename quoted .nothing p clusters = (clusters.flatten, []) := by
  induction clusters generalizing p with
  | nil => rfl
  | cons cl clusters ih =>
    obtain ⟨hb, hd, he⟩ := h cl (by simp)
    have hm : Marker.ofCluster? cl = none := by
      unfold Marker.ofCluster?
      split
      · exact absurd rfl hd
      · exact absurd rfl he
      · rfl
    have hr : Pending.read .nothing quoted p cl = ⟨cl, .nothing, none⟩ := by
      simp [Pending.read, readFresh, hb, hm]
    simp only [decodeFrom, hr, ih _ fun x hx => h x (by simp [hx])]
    rfl

theorem decode_plain {t : Token} (h : PlainText t.text) : decode t = (t.text, []) := by
  have hclusters : ∀ cl ∈ Cluster.segmentation.split t.chars,
      cl ≠ ['\\'] ∧ cl ≠ ['$'] ∧ cl ≠ ['!'] := by
    intro cl hcl
    have hchars (c : Char) (hc : cl = [c]) : c ≠ '\\' ∧ c ≠ '$' ∧ c ≠ '!' := by
      refine h c ?_
      rw [Token.text, String.toList_ofList, ← Cluster.segmentation.flatten_split t.chars]
      exact List.mem_flatten.mpr ⟨cl, hcl, by simp [hc]⟩
    exact ⟨fun hc => (hchars _ hc).1 rfl, fun hc => (hchars _ hc).2.1 rfl,
      fun hc => (hchars _ hc).2.2 rfl⟩
  unfold decode decodeWith
  rw [decodeFrom_plain _ _ _ _ hclusters, Segmentation.flatten_split]
  rfl

end StringChunk

end HclSyntax
