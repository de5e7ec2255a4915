import HclSyntax.Proofs.Grammar.Derives
import HclSyntax.Proofs.Line.Brackets

namespace HclSyntax

/-- The tokens open and close brackets of their own only. -/
abbrev Balanced (ts : List Token) : Prop :=
  ∀ rest pending, closes (ts ++ rest) pending = closes rest pending

theorem Balanced.append {ts ts' : List Token} (h : Balanced ts) (h' : Balanced ts') :
    Balanced (ts ++ ts') := by
  intro rest pending
  rw [List.append_assoc, h, h']

/-- A kind that is no bracket. -/
def TokenKind.Flat (k : TokenKind) : Prop := k.isOpener = false ∧ k.isCloser = false

instance : DecidablePred TokenKind.Flat := fun k =>
  inferInstanceAs (Decidable (k.isOpener = false ∧ k.isCloser = false))

section
variable {t : Token} {ts rest : List Token} {pending : List TokenKind} {nl : Bool} {k : TokenKind}

theorem closes_flat (h : t.kind.Flat) : closes (t :: rest) pending = closes rest pending := by
  rw [closes, h.1, h.2]
  rfl

theorem closes_opener (h : t.kind.isOpener) :
    closes (t :: rest) pending = closes rest (t.kind.opposite :: pending) := by
  rw [closes, if_pos h]

theorem closes_closer (h : t.kind.isCloser) :
    closes (t :: rest) (t.kind :: pending) = closes rest pending := by
  have ho : t.kind.isOpener = false := by
    cases hk : t.kind <;> simp_all [TokenKind.isCloser, TokenKind.isOpener]
  rw [closes, ho, h]
  simp

theorem Token.hidden.flat (h : t.hidden nl) : t.kind.Flat := by
  simp only [Token.hidden, Bool.or_eq_true, Bool.and_eq_true, beq_iff_eq] at h
  obtain h | ⟨h, -⟩ := h <;> rw [h] <;> decide

theorem closes_hidden {hs : List Token} (h : ∀ x ∈ hs, x.hidden nl) :
    closes (hs ++ rest) pending = closes rest pending := by
  induction hs with
  | nil => rfl
  | cons x hs ih =>
    rw [List.cons_append, closes_flat (Token.hidden.flat (h x (by simp))),
      ih fun y hy => h y (by simp [hy])]

theorem Sees.balanced (h : Sees nl t ts) (hk : t.kind.Flat) : Balanced ts := by
  obtain ⟨hs, rfl, hh, -⟩ := h
  intro rest pending
  rw [List.append_assoc, closes_hidden hh, List.singleton_append, closes_flat hk]

theorem Mark.balanced (h : Mark nl k ts) (hk : k.Flat) : Balanced ts := by
  obtain ⟨t, rfl, h⟩ := h
  exact h.balanced hk

/-- What stands between a bracket and its closer is closed with them. -/
theorem Balanced.between {ts₁ ts₂ : List Token} {nl' : Bool} (h : Balanced ts)
    (ho : Mark nl k ts₁) (hc : Mark nl' k.opposite ts₂) (hk : k.isOpener) :
    Balanced (ts₁ ++ ts ++ ts₂) := by
  obtain ⟨o, rfl, hs₁, rfl, hh₁, -⟩ := ho
  obtain ⟨c, hck, hs₂, rfl, hh₂, -⟩ := hc
  intro rest pending
  simp only [List.append_assoc, List.cons_append, List.nil_append]
  rw [closes_hidden hh₁, closes_opener hk, h, closes_hidden hh₂, ← hck,
    closes_closer (hck ▸ TokenKind.opposite_isCloser hk)]

theorem Name.balanced {text : String} (h : Name nl text ts) : Balanced ts := by
  obtain ⟨t, hk, -, h⟩ := h
  exact h.balanced (by rw [hk]; decide)

theorem Keyword.balanced {keyword : String} (h : Keyword nl keyword ts) : Balanced ts := by
  obtain ⟨t, hk, h⟩ := h
  exact h.balanced (by rw [Token.kind_of_isKeyword hk]; decide)

theorem Binders.balanced {key : Option String} {value : String} (h : Binders key value ts) :
    Balanced ts := by
  cases h with
  | value hv hin => exact hv.balanced.append hin.balanced
  | keyValue hk hc hv hin =>
    exact ((hk.balanced.append (hc.balanced (by decide))).append hv.balanced).append hin.balanced

theorem SplatPath.balanced {steps : List Step} (h : SplatPath nl steps ts) : Balanced ts := by
  induction h with
  | nil => exact fun _ _ => rfl
  | attr _ hd hn ih => exact (ih.append (hd.balanced (by decide))).append hn.balanced
  | index _ hd hk _ ht ih =>
    exact (ih.append (hd.balanced (by decide))).append (ht.balanced (by rw [hk]; decide))

end

/-- No bracket is taken for an operator. -/
def Phrase.Flat : Phrase → Prop
  | operators levels _ _ => ∀ level ∈ levels, ∀ o ∈ level, o.1.Flat
  | _ => True

theorem flat_levels : ∀ level ∈ BinaryOp.levels, ∀ o ∈ level, o.1.Flat := by decide

theorem flat_of_lookup {level : Level} (hl : ∀ o ∈ level, o.1.Flat) {k : TokenKind} {op : BinaryOp}
    (h : level.lookup k = some op) : k.Flat := by
  obtain ⟨before, after, rfl, -⟩ := List.lookup_eq_some_iff.mp h
  exact hl (k, op) (by simp)

theorem Derives.balanced {p : Phrase} {ts : List Token} (h : Derives p ts) (hp : p.Flat) :
    Balanced ts := by
  induction h with
  | plain _ ih => exact ih flat_levels
  | conditional _ hq _ hk _ ihc iha ihb =>
    exact ((((ihc flat_levels).append (hq.balanced (by decide))).append (iha trivial)).append
      (hk.balanced (by decide))).append (ihb trivial)
  | single _ ih => exact ih trivial
  | tighter _ ih => exact ih fun level hl => hp level (by simp [hl])
  | binary _ ho hk _ ihl ihr =>
    have hflat := flat_of_lookup (hp _ List.mem_cons_self) ho
    exact ((ihl hp).append (hk.balanced hflat)).append
      (ihr fun level hl => hp level (by simp [hl]))
  | @unary _ op _ _ _ ho _ ih =>
    exact (ho.balanced (by cases op <;> decide)).append (ih trivial)
  | suffixed _ _ ihb ihs => exact (ihb trivial).append (ihs trivial)
  | number hk _ ht => exact ht.balanced (by rw [hk]; decide)
  | name h => exact h.balanced
  | parens ho _ hc ih => exact (ih trivial).between ho hc rfl
  | call hf ho _ hc ih =>
    simpa only [List.append_assoc] using hf.balanced.append ((ih trivial).between ho hc rfl)
  | callExpanded hf ho _ _ hx hc ihs ih =>
    have hargs := ((ihs trivial).append (ih trivial)).append (hx.balanced (by decide))
    simpa only [List.append_assoc] using hf.balanced.append (hargs.between ho hc rfl)
  | tuple ho _ _ hc ih | object ho _ _ hc ih => exact (ih trivial).between ho hc rfl
  | tupleFor ho hfor hb _ hcolon _ _ hc ihc ihv ihf =>
    have hhead := (hfor.balanced.append hb.balanced).append (ihc trivial)
    have hresult := ((hcolon.balanced (by decide)).append (ihv trivial)).append (ihf trivial)
    simpa only [List.append_assoc] using (hhead.append hresult).between ho hc rfl
  | objectFor ho hfor hb _ hcolon _ harrow _ _ hc ihc ihk ihv ihf =>
    have hhead := (hfor.balanced.append hb.balanced).append (ihc trivial)
    have hkey := ((hcolon.balanced (by decide)).append (ihk trivial)).append
      (harrow.balanced (by decide))
    have hresult := (hkey.append (ihv trivial)).append (ihf trivial)
    simpa only [List.append_assoc] using (hhead.append hresult).between ho hc rfl
  | objectForGroups ho hfor hb _ hcolon _ harrow _ hg _ hc ihc ihk ihv ihf =>
    have hhead := (hfor.balanced.append hb.balanced).append (ihc trivial)
    have hkey := ((hcolon.balanced (by decide)).append (ihk trivial)).append
      (harrow.balanced (by decide))
    have hresult := ((hkey.append (ihv trivial)).append (hg.balanced (by decide))).append
      (ihf trivial)
    simpa only [List.append_assoc] using (hhead.append hresult).between ho hc rfl
  | quoted hk ho _ _ hc ih =>
    refine (ih trivial).between ⟨_, rfl, ho⟩ hc ?_
    rcases hk with hk | hk <;> rw [hk] <;> rfl
  /- suffixes -/
  | noSuffix => exact fun _ _ => rfl
  | attr _ hd hn ih => exact ((ih trivial).append (hd.balanced (by decide))).append hn.balanced
  | constantIndex _ _ ho _ _ hc ih ihk | index _ _ ho _ _ hc ih ihk =>
    simpa only [List.append_assoc] using (ih trivial).append ((ihk trivial).between ho hc rfl)
  | attributeSplat _ hd hs hsteps ih =>
    exact (((ih trivial).append (hd.balanced (by decide))).append (hs.balanced (by decide))).append
      hsteps.balanced
  | fullSplat _ _ ho hs hc _ ih iheach =>
    have hmarker := (hs.balanced (by decide)).between ho hc rfl
    simpa only [List.append_assoc] using ((ih trivial).append hmarker).append (iheach trivial)
  /- lists -/
  | noElement | noItem | noFilter | noPart => exact fun _ _ => rfl
  | element _ _ hc ih ihe =>
    exact ((ih trivial).append (ihe trivial)).append (hc.balanced (by decide))
  | elements _ ih | items _ ih => exact ih trivial
  | lastElement _ _ ih ihe | lastItem _ _ ih ihe => exact (ih trivial).append (ihe trivial)
  | emptyLine _ hn ih => exact (ih trivial).append (hn.balanced (by decide))
  | commaItem _ _ hc ih ihx | lineItem _ _ hc ih ihx =>
    exact ((ih trivial).append (ihx trivial)).append (hc.balanced (by decide))
  | equalsItem _ hs _ ihk ihv | colonItem _ hs _ ihk ihv =>
    exact ((ihk trivial).append (hs.balanced (by decide))).append (ihv trivial)
  | bareKey h | elseMark h | endif h | endfor h => exact h.balanced
  | expressionKey _ _ ih => exact ih trivial
  | someFilter hi _ ih => exact hi.balanced.append (ih trivial)
  | ifStart hi _ ih => exact hi.balanced.append (ih trivial)
  | forStart hf hb _ ih => exact (hf.balanced.append hb.balanced).append (ih trivial)
  | chunk _ hk ht _ ih =>
    exact (ih trivial).append (ht.balanced (by rcases hk with hk | hk <;> rw [hk] <;> decide))
  | interpolation _ hok ho _ hck hc ih ihe =>
    have hsequence := (ihe trivial).between ⟨_, hok, ho⟩ ⟨_, hck, hc⟩ rfl
    simpa only [List.append_assoc] using (ih trivial).append hsequence
  | directive _ hok ho _ hck hc ih ihd =>
    have hsequence := (ihd trivial).between ⟨_, hok, ho⟩ ⟨_, hck, hc⟩ rfl
    simpa only [List.append_assoc] using (ih trivial).append hsequence

end HclSyntax
