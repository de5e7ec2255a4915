import HclSyntax.Proofs.Print.Collection

namespace HclSyntax

open Phrase

variable {e : Tree} {root : Root}

theorem writes_of_term (h : ∀ nl ts, Spelled e.print ts → Derives (term nl e) ts) :
    e.Writes .term := fun nl ts hs => .of_term (h nl ts hs)

theorem writes_path {name : String} {steps : List Step}
    (hn : name ∉ ["true", "false", "null", "for"]) (hs : ∀ s ∈ steps, s.Writable) :
    (Tree.scope (.root name :: steps)).Writes .term := by
  intro nl ts hsp
  obtain ⟨ts₁, ts₂, rfl, hname, hsteps⟩ := Spelled.append_split [.name name] hsp
  have hfirst : Tree.name name = .scope [.root name] := by
    unfold Tree.name
    split <;> simp_all
  have hchain := Chain.of_term (hfirst ▸ derives_name nl hname)
  have := hchain.steps hs hsteps
  rw [foldl_step_scope] at this
  exact .chain (fun _ => rfl) this

theorem writes_relative {steps : List Step} (h : e.Writes root) (hp : e.isPath = false)
    (hroot : root = .element → e.grade = 9) (hne : steps ≠ [])
    (hs : ∀ s ∈ steps, s.Writable) : (Tree.relative e steps).Writes root := by
  intro nl ts hsp
  rw [Tree.print] at hsp
  obtain ⟨ts₁, ts₂, rfl, he, hsteps⟩ := hsp.append_split _
  have := (chain_wrapped nl h hroot he).steps hs hsteps
  rw [foldl_step_of_not_path hp hne] at this
  exact .chain (fun _ => rfl) this

theorem writes_index {key : Tree} (h : e.Writes root) (hroot : root = .element → e.grade = 9)
    (hk : key.Writes .term) (hv : key.staticKey? = none) : (Tree.index e key).Writes root := by
  intro nl ts hsp
  rw [Tree.print] at hsp
  obtain ⟨ts₁, ts₃, rfl, hsp, hc⟩ := hsp.append_split _
  obtain ⟨ts₁, ts₂, rfl, he, hsp⟩ := hsp.append_split _
  obtain ⟨ts₂, ts₄, rfl, ho, hkey⟩ := Spelled.append_split [.mark .openBracket] hsp
  have hchain : Chain nl root .all (.index e key) (ts₁ ++ (ts₂ ++ (ts₄ ++ ts₃))) :=
    (chain_wrapped nl h hroot he).extend fun base ts hsuffixes => by
      rw [← List.append_assoc, ← List.append_assoc]
      exact .index hsuffixes (by decide) (ho.mark nl) (hk.expression hkey) hv (hc.mark false)
  have := Written.chain (fun _ => rfl) hchain
  simpa only [List.append_assoc] using this

theorem writes_splat {each : Tree} (h : e.Writes root) (hroot : root = .element → e.grade = 9)
    (heach : each.Writes .element) : (Tree.splat e each).Writes root := by
  intro nl ts hsp
  rw [Tree.print] at hsp
  obtain ⟨ts₁, ts₃, rfl, hsp, hrest⟩ := hsp.append_split _
  obtain ⟨ts₁, ts₂, rfl, he, hsp⟩ := hsp.append_split _
  obtain ⟨ts₂, ts₄, rfl, ho, hsp⟩ := Spelled.append_split [.mark .openBracket] hsp
  obtain ⟨ts₄, ts₅, rfl, hs, hc⟩ := Spelled.append_split [.mark .star] hsp
  cases heach nl ts₃ hrest with
  | chain _ hchain =>
    cases hchain with
    | element hsuffixes =>
      have hchain : Chain nl root .nothing (.splat e each)
          (ts₁ ++ (ts₂ ++ (ts₄ ++ (ts₅ ++ ts₃)))) :=
        (chain_wrapped nl h hroot he).extend fun base ts h => by
          rw [← List.append_assoc, ← List.append_assoc, ← List.append_assoc]
          exact .fullSplat h (by decide) (ho.mark nl) (hs.mark nl) (hc.mark nl) hsuffixes
      have := Written.chain (fun hg => by simp [Tree.grade] at hg) hchain
      simpa only [List.append_assoc] using this

theorem writes_unary {op : UnaryOp} (h : e.Writes .term) : (Tree.unary op e).Writes .term := by
  intro nl ts hsp
  obtain ⟨ts₁, ts₂, rfl, ho, he⟩ := Spelled.append_split [.mark op.kind] hsp
  have hmark := ho.mark nl
  exact .operators (k := 6) rfl (by omega) (.of_operand (.unary hmark (derives_wrapped_operand h he)) _)

theorem writes_binary {op : BinaryOp} {l r : Tree} (hl : l.Writes .term) (hr : r.Writes .term) :
    (Tree.binary op l r).Writes .term := by
  intro nl ts hsp
  rw [Tree.print] at hsp
  obtain ⟨ts₁, ts₂, rfl, hlhs, hsp⟩ := hsp.append_split _
  obtain ⟨ts₂, ts₃, rfl, ho, hrhs⟩ := Spelled.append_split [.mark op.kind] hsp
  have hmark := ho.mark nl
  obtain ⟨level, hdrop, hlookup⟩ := op.lookup_level
  have hlhs := derives_wrapped nl hl hlhs
  have hrhs := derives_wrapped nl hr hrhs
  have hle := op.level_le
  refine .operators (k := op.level) rfl (by omega) ?_
  rw [hdrop] at hlhs ⊢
  rw [← List.append_assoc]
  exact .binary hlhs hlookup hmark hrhs

theorem writes_conditional {c a b : Tree} (hc : c.Writes .term) (ha : a.Writes .term)
    (hb : b.Writes .term) : (Tree.conditional c a b).Writes .term := by
  intro nl ts hsp
  rw [Tree.print] at hsp
  obtain ⟨ts₁, ts₃, rfl, hsp, hsp'⟩ := hsp.append_split _
  obtain ⟨ts₁, ts₂, rfl, hcond, hsp⟩ := hsp.append_split _
  obtain ⟨ts₂, ts₄, rfl, hq, htrue⟩ := Spelled.append_split [.mark .question] hsp
  obtain ⟨ts₃, ts₅, rfl, hk, hfalse⟩ := Spelled.append_split [.mark .colon] hsp'
  have hcond := derives_wrapped nl (k := 0) hc hcond
  have := Derives.conditional hcond (hq.mark nl) (ha.expression htrue) (hk.mark nl)
    (hb.expression hfalse)
  refine .expression rfl ?_
  simpa only [List.append_assoc] using this

theorem writes_call {f : String} {args : List Tree} {expand : Bool}
    (hargs : ∀ e ∈ args, e.Writes .term) (hne : expand → args ≠ []) :
    (Tree.call f args expand).Writes .term := by
  refine writes_of_term fun nl ts hsp => ?_
  rw [Tree.print, Tree.printAll_eq] at hsp
  obtain ⟨ts₁, ts₅, rfl, hsp, hc⟩ := hsp.append_split _
  obtain ⟨ts₁, ts₄, rfl, hsp, hx⟩ := hsp.append_split _
  obtain ⟨ts₁, ts₂, rfl, hf, hsp⟩ := Spelled.append_split [.name f] hsp
  obtain ⟨ts₂, ts₃, rfl, ho, hlist⟩ := Spelled.append_split [.mark .openParen] hsp
  cases expand with
  | false =>
    rw [Spelled.eq_nil hx, List.append_nil]
    have := Derives.call (hf.name nl) (ho.mark nl) (derives_sequence .noElement hargs hlist)
      (hc.mark false)
    simpa only [List.append_assoc, List.nil_append] using this
  | true =>
    obtain ⟨es, e, ts₆, ts₇, hes, hts, hd, he⟩ :=
      derives_elements_last .noElement hargs (hne rfl) hlist
    have := Derives.callExpanded (hf.name nl) (ho.mark nl) hd he (hx.mark false) (hc.mark false)
    rw [List.nil_append] at hes hts
    rw [hes, hts]
    simpa only [List.append_assoc] using this

theorem writes_tuple {items : List Tree} (h : ∀ e ∈ items, e.Writes .term)
    (hfor : ∀ e ∈ items, Lexeme.opensFor e.print = false) : (Tree.tuple items).Writes .term := by
  refine writes_of_term fun nl ts hsp => ?_
  rw [Tree.print, Tree.printAll_eq] at hsp
  obtain ⟨ts₁, ts₃, rfl, hsp, hc⟩ := hsp.append_split _
  obtain ⟨ts₁, ts₂, rfl, ho, hlist⟩ := Spelled.append_split [.mark .openBracket] hsp
  refine .tuple (ho.mark nl) (derives_sequence .noElement h hlist) ?_ (hc.mark false)
  refine not_begins_for_separated (fun ls hls => ?_) hlist
  obtain ⟨e, he, rfl⟩ := List.mem_map.mp hls
  exact hfor e he

theorem writes_object {items : List (Tree × Tree)}
    (hname : ∀ i ∈ items, i.1 ≠ .literal (.string "for"))
    (hk : ∀ i ∈ items, i.1.isText = false → i.1.Writes .term)
    (hfor : ∀ i ∈ items, i.1.isText = false → Lexeme.opensFor i.1.print = false)
    (hv : ∀ i ∈ items, i.2.Writes .term) : (Tree.object items).Writes .term := by
  refine writes_of_term fun nl ts hsp => ?_
  rw [Tree.print, Tree.printItems_eq] at hsp
  obtain ⟨ts₁, ts₃, rfl, hsp, hc⟩ := hsp.append_split _
  obtain ⟨ts₁, ts₂, rfl, ho, hlist⟩ := Spelled.append_split [.mark .openBrace] hsp
  refine .object (ho.mark nl) (derives_fields .noItem hk hv hlist) ?_ (hc.mark true)
  refine not_begins_for_separated (fun ls hls => ?_) hlist
  obtain ⟨i, hi, rfl⟩ := List.mem_map.mp hls
  exact opensFor_printItem (hname i hi) (hfor i hi)

theorem writes_tupleFor {k : Option String} {v : String} {c value : Tree} {cond : Option Tree}
    (hc : c.Writes .term) (hv : value.Writes .term) (hcond : ∀ e ∈ cond, e.Writes .term) :
    (Tree.comprehension k v c none value cond false).Writes .term := by
  refine writes_of_term fun nl ts hsp => ?_
  rw [Tree.print] at hsp
  obtain ⟨ts₁, ts₈, rfl, hsp, hclose⟩ := hsp.append_split _
  obtain ⟨ts₁, ts₇, rfl, hsp, hfilter⟩ := hsp.append_split _
  obtain ⟨ts₁, ts₅, rfl, hsp, hsp'⟩ := hsp.append_split _
  obtain ⟨ts₁, ts₄, rfl, hsp, hcoll⟩ := hsp.append_split _
  obtain ⟨ts₁, ts₂, rfl, ho, hsp⟩ := Spelled.append_split [.mark .openBracket] hsp
  obtain ⟨ts₂, ts₃, rfl, hfor, hb⟩ := Spelled.append_split [.keyword "for"] hsp
  obtain ⟨ts₅, ts₆, rfl, hcolon, hvalue⟩ := Spelled.append_split [.mark .colon] hsp'
  have := Derives.tupleFor (ho.mark nl) (hfor.keyword false) (binders_of_print hb)
    (hc.expression hcoll) (hcolon.mark false) (hv.expression hvalue)
    (derives_printFilter hcond hfilter) (hclose.mark false)
  simpa only [List.append_assoc] using this

theorem writes_objectFor {k : Option String} {v : String} {c key value : Tree}
    {cond : Option Tree} {group : Bool} (hc : c.Writes .term) (hk : key.Writes .term)
    (hv : value.Writes .term) (hcond : ∀ e ∈ cond, e.Writes .term) :
    (Tree.comprehension k v c (some key) value cond group).Writes .term := by
  refine writes_of_term fun nl ts hsp => ?_
  rw [Tree.print] at hsp
  obtain ⟨ts₁, ts₁₁, rfl, hsp, hclose⟩ := hsp.append_split _
  obtain ⟨ts₁, ts₁₀, rfl, hsp, hfilter⟩ := hsp.append_split _
  obtain ⟨ts₁, ts₉, rfl, hsp, hgroup⟩ := hsp.append_split _
  obtain ⟨ts₁, ts₇, rfl, hsp, hsp₂⟩ := hsp.append_split _
  obtain ⟨ts₁, ts₅, rfl, hsp, hsp₁⟩ := hsp.append_split _
  obtain ⟨ts₁, ts₄, rfl, hsp, hcoll⟩ := hsp.append_split _
  obtain ⟨ts₁, ts₂, rfl, ho, hsp⟩ := Spelled.append_split [.mark .openBrace] hsp
  obtain ⟨ts₂, ts₃, rfl, hfor, hb⟩ := Spelled.append_split [.keyword "for"] hsp
  obtain ⟨ts₅, ts₆, rfl, hcolon, hkey⟩ := Spelled.append_split [.mark .colon] hsp₁
  obtain ⟨ts₇, ts₈, rfl, harrow, hvalue⟩ := Spelled.append_split [.mark .fatArrow] hsp₂
  cases group with
  | false =>
    rw [Spelled.eq_nil hgroup, List.append_nil]
    have := Derives.objectFor (ho.mark nl) (hfor.keyword true) (binders_of_print hb)
      (hc.expression hcoll) (hcolon.mark false) (hk.expression hkey) (harrow.mark false)
      (hv.expression hvalue) (derives_printFilter hcond hfilter) (hclose.mark false)
    simpa only [List.append_assoc] using this
  | true =>
    have := Derives.objectForGroups (ho.mark nl) (hfor.keyword true) (binders_of_print hb)
      (hc.expression hcoll) (hcolon.mark false) (hk.expression hkey) (harrow.mark false)
      (hv.expression hvalue) (hgroup.mark false) (derives_printFilter hcond hfilter)
      (hclose.mark false)
    simpa only [List.append_assoc] using this

theorem writes_templateWrap (h : e.Writes .term) (ht : e.isText = false) :
    (Tree.templateWrap e).Writes .term := by
  refine writes_of_term fun nl ts hsp => ?_
  have hparts : Spelled (.mark .openQuote ::
      ([e].map fun p => p.printPart p.print).flatten ++ [.mark .closeQuote]) ts := by
    simpa [Tree.printPart_of_not_text ht, Tree.print] using hsp
  have := derives_template nl (by simp) (fun s hs => ?_) (fun p hp _ => ?_) hparts
  · simpa [Tree.piece_of_not_text ht, Tree.ofPieces] using this
  · rw [← List.mem_singleton.mp hs] at ht
    exact absurd ht (by simp [Tree.isText])
  · rwa [List.mem_singleton.mp hp]

/-- Parts that are no single interpolation make a template. -/
theorem ofPieces_piece {parts : List Tree} (hwrap : ∀ p, parts = [p] → p.isText) :
    Tree.ofPieces (parts.map Tree.piece) parts = .template parts := by
  unfold Tree.ofPieces
  split
  · rename_i inner hpieces
    obtain ⟨s, rfl⟩ := Tree.isText_iff.mp (hwrap inner rfl)
    simp [Tree.piece] at hpieces
  · rfl

theorem writes_template {parts : List Tree} (hne : parts ≠ [])
    (hwrap : ∀ p, parts = [p] → p.isText)
    (htext : ∀ s, .literal (.string s) ∈ parts → PlainText s)
    (h : ∀ p ∈ parts, p.isText = false → p.Writes .term) : (Tree.template parts).Writes .term := by
  refine writes_of_term fun nl ts hsp => ?_
  by_cases hs : ∃ s, parts = [.literal (.string s)]
  · obtain ⟨s, rfl⟩ := hs
    exact derives_quoted (htext s (by simp)) hsp
  · rw [Tree.print_template fun s h => hs ⟨s, h⟩] at hsp
    have := derives_template nl hne htext h hsp
    rwa [ofPieces_piece hwrap] at this

theorem Tree.Canonical.isText_eq_false (h : e.Canonical root) : e.isText = false := by
  cases h <;> rfl

/-- What is printed for a canonical tree is written for it. -/
theorem Tree.Canonical.writes (h : e.Canonical root) : e.Writes root := by
  induction h with
  | null => exact writes_of_term fun nl ts hs => derives_name nl hs
  | bool b =>
    refine writes_of_term fun nl ts hs => ?_
    cases b <;> exact derives_name _ hs
  | number n => exact writes_of_term fun nl ts hs => derives_number hs
  | path hn hs => exact writes_path hn hs
  | element =>
    intro nl ts hs
    rw [hs.eq_nil]
    exact .chain (fun _ => rfl) (.element .noSuffix)
  | relative _ hp hroot hne hs ih => exact writes_relative ih hp hroot hne hs
  | index _ hroot _ hv ih ihk => exact writes_index ih hroot ihk hv
  | splat _ hroot _ ih iheach => exact writes_splat ih hroot iheach
  | unary _ ih => exact writes_unary ih
  | binary _ _ ihl ihr => exact writes_binary ihl ihr
  | conditional _ _ _ ihc iha ihb => exact writes_conditional ihc iha ihb
  | call _ _ hne ih => exact writes_call ih hne
  | tuple h ih => exact writes_tuple ih fun e he => (h e he).opensFor_print rfl
  | object hname hk _ ihk ihv =>
    exact writes_object hname ihk (fun i hi ht => (hk i hi ht).opensFor_print rfl) ihv
  | tupleFor _ _ _ ihc ihv ihcond => exact writes_tupleFor ihc ihv ihcond
  | objectFor _ _ _ _ ihc ihk ihv ihcond => exact writes_objectFor ihc ihk ihv ihcond
  | templateWrap h ih => exact writes_templateWrap ih h.isText_eq_false
  | template hne hwrap htext _ ih => exact writes_template hne hwrap htext ih

end HclSyntax
