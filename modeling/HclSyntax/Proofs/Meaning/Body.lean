import HclSyntax.Parser.Body
import HclSyntax.Proofs.Meaning.Expression

namespace HclSyntax

namespace Likeness.Like

variable {x : Likeness}

theorem toAttribute {e e' : Expr} (he : x.Like e e') (name : String) {r r' s s' t t' : SourceRange}
    (hr : x.Like r r') (hs : x.Like s s') (ht : x.Like t t') :
    x.Like (Attribute.mk name e r s t) ⟨name, e', r', s', t'⟩ :=
  ⟨congrArg (Prod.mk name) he.same,
    fun hx => by rw [he.eq hx, hr.eq hx, hs.eq hx, ht.eq hx]⟩

theorem toBody {as as' : List Attribute} (ha : x.Like as as') {bs bs' : List Block}
    (hb : x.Like bs bs') {r r' s s' : SourceRange} (hr : x.Like r r') (hs : x.Like s s') :
    x.Like (Body.mk as bs r s) ⟨as', bs', r', s'⟩ := by
  refine ⟨?_, fun hx => by rw [ha.eq hx, hb.eq hx, hr.eq hx, hs.eq hx]⟩
  change (Body.mk as bs r s).tree = (Body.mk as' bs' r' s').tree
  rw [Body.tree, Body.tree, treeBlocks_eq, treeBlocks_eq]
  exact congrArg₂ BodyTree.mk ha.same hb.same

theorem toBlock (type : String) (labels : List String) {rs rs' : List SourceRange}
    (hrs : x.Like rs rs') {b b' : Option Body} (hb : x.Like b b') {r r' s s' t t' : SourceRange}
    (hr : x.Like r r') (hs : x.Like s s') (ht : x.Like t t') :
    x.Like (Block.mk type labels rs b r s t) ⟨type, labels, rs', b', r', s', t'⟩ := by
  refine ⟨?_, fun hx => by rw [hrs.eq hx, hb.eq hx, hr.eq hx, hs.eq hx, ht.eq hx]⟩
  change (Block.mk type labels rs b r s t).tree = (Block.mk type labels rs' b' r' s' t').tree
  rw [Block.tree, Block.tree, treeBody_eq, treeBody_eq]
  exact congrArg (BlockTree.mk type labels) hb.same

theorem emptyBody {r r' : SourceRange} (hr : x.Like r r') :
    x.Like (Body.empty r) (.empty r') := ⟨rfl, fun hx => by rw [hr.eq hx]⟩

end Likeness.Like

namespace Parser

variable {x : Likeness} (hj : x.joined = true → x.braces = false)

section
variable {name name' : Token} (hname : x.Like name name')
include hname

theorem likewise_endOfLine (problem : TokenKind → Problem) :
    Likewise x (endOfLine name problem) (endOfLine name' problem) := by
  refine likewise_peek.bind fun next next' hnext => ?_
  rw [← hnext.kind]
  split
  · exact likewise_skip
  · exact likewise_skip
  · exact (likewise_reportFirst _ hnext.tokenRange
      (hname.tokenRange.between hnext.tokenRange).some).bind fun _ _ _ => likewise_skipItem

include hj in
theorem likewise_attributeValue (hk : name.kind = .identifier) {equals equals' : Token}
    (he : x.Like equals equals') (singleLine : Bool) :
    Likewise x (attributeValue name equals singleLine)
      (attributeValue name' equals' singleLine) := by
  refine (likewise_expression hj).track_seq fun expr expr' lost hexpr => ?_
  refine likewise_previousRange.bind fun stop stop' hstop => ?_
  have hattribute : x.Like
      (Attribute.mk name.text expr (.between name.range stop) name.range equals.range)
      ⟨name'.text, expr', .between name'.range stop', name'.range, equals'.range⟩ := by
    rw [← hname.text (by rw [hk]; rfl)]
    exact hexpr.toAttribute _ (hname.tokenRange.between hstop) hname.tokenRange he.tokenRange
  dsimp only
  split
  · exact likewise_pure hattribute
  split
  · exact likewise_skipItem.done hattribute
  · exact (likewise_endOfLine hname _).done hattribute

end

instance : Placed BlockHeader :=
  ⟨List String × List Unit × Option (TokenKind × List UInt8),
    fun h => (h.labels, h.labelRanges.map fun _ => (), Placed.said h.brace)⟩

section
variable {h h' : BlockHeader} (hh : x.Like h h')
include hh

theorem like_labels : h.labels = h'.labels := congrArg Prod.fst hh.same

theorem like_labelRanges : x.Like h.labelRanges h'.labelRanges :=
  hh.map fun hs => congrArg (·.2.1) hs

theorem like_brace : x.Like h.brace h'.brace := hh.map fun hs => congrArg (·.2.2) hs

end

theorem like_header (labels : List String) {rs rs' : List SourceRange} (hr : x.Like rs rs')
    {b b' : Option Token} (hb : x.Like b b') :
    x.Like (BlockHeader.mk labels rs b) ⟨labels, rs', b'⟩ :=
  ⟨congrArg (Prod.mk labels) (congrArg₂ Prod.mk hr.same hb.same),
    fun hx => by rw [hr.eq hx, hb.eq hx]⟩

section
variable {name name' : Token} (hname : x.Like name name')
include hname

theorem likewise_reportHeader {t t' : Token} (ht : x.Like t t') :
    Likewise x (reportHeader name t) (reportHeader name' t') := by
  have hcontext := (hname.tokenRange.between ht.tokenRange).some
  unfold reportHeader
  rw [← ht.kind]
  dsimp only
  split
  · exact likewise_report _ ht.tokenRange hcontext
  · exact likewise_report _ ht.tokenRange hcontext
  · exact likewise_reportFirst _ ht.tokenRange hcontext

theorem likewise_headerStep {h h' : BlockHeader} (hh : x.Like h h') :
    Likewise x (headerStep name h) (headerStep name' h') := by
  have hranges := like_labelRanges hh
  obtain ⟨labels, rs, b⟩ := h
  obtain ⟨labels', rs', b'⟩ := h'
  obtain rfl : labels = labels' := like_labels hh
  refine likewise_peek.bind fun t t' ht => ?_
  rw [← ht.kind]
  split
  · exact likewise_skip.done ((like_header labels hranges ht.some).pair (.refl _))
  · refine likewise_skip.bind fun _ _ _ => ?_
    refine (likewise_quotedString ht).observe_seq fun r r' reported hr => ?_
    obtain ⟨label, range⟩ := r
    obtain ⟨label', range'⟩ := r'
    obtain rfl : label = label' := hr.fst.plain
    have hheader := (like_header (labels ++ [label]) (hranges.append hr.snd.singleton)
      (.refl none)).pair (.refl (!reported))
    dsimp only
    split
    · exact likewise_skipItem.done hheader
    · exact likewise_pure hheader
  · exact (likewise_reportHeader hname ht).bind fun _ _ _ => likewise_skipItem.done
      (hh.pair (.refl _))

end

theorem likewise_closeSingleLine : Likewise x closeSingleLine closeSingleLine := by
  refine likewise_peek.bind fun close close' hclose => ?_
  rw [← hclose.kind]
  split
  · exact likewise_skip
  split
  · exact (likewise_report _ hclose.tokenRange (.refl _)).bind fun _ _ _ => likewise_skipPast _
  · exact (likewise_report _ hclose.tokenRange (.refl _)).bind fun _ _ _ => likewise_skipPast _
  · exact (likewise_reportFirst _ hclose.tokenRange (.refl _)).bind fun _ _ _ =>
      likewise_skipPast _

include hj in
theorem likewise_singleLineBody : Likewise x singleLineBody singleLineBody := by
  refine likewise_read.bind fun name name' hname => ?_
  rw [← hname.kind]
  split
  · exact (likewise_reportFirst _ hname.tokenRange (.refl _)).bind fun _ _ _ =>
      (likewise_skipPast _).done (.refl _)
  rename_i hk
  have hk := Decidable.of_not_not hk
  refine likewise_peek.bind fun next next' hnext => ?_
  rw [← hnext.kind]
  have hrequired : Likewise x
      (do
        report (.singleAttributeRequired name.text) (.between name.range next.range) none
        skipPast .closeBrace
        return none)
      (do
        report (.singleAttributeRequired name'.text) (.between name'.range next'.range) none
        skipPast .closeBrace
        return (none : Option Body)) := by
    rw [← hname.text (by rw [hk]; rfl)]
    exact (likewise_report _ (hname.tokenRange.between hnext.tokenRange) (.refl _)).bind
      fun _ _ _ => (likewise_skipPast _).done (.refl _)
  split
  · refine likewise_skip.bind fun _ _ _ => ?_
    refine (likewise_attributeValue hj hname hk hnext true).bind fun a a' ha => ?_
    have hrange : x.Like a.range a'.range := .range fun hx => by rw [ha.eq hx]
    exact likewise_closeSingleLine.done (ha.singleton.toBody (.refl []) hrange
      (.range fun hx => by rw [hrange.eq hx])).some
  · exact hrequired
  · exact hrequired
  · exact hrequired
  · exact (likewise_report _ hname.tokenRange (.refl _)).bind fun _ _ _ =>
      (likewise_skipPast _).done (.refl _)

section
variable {nested : Parser Body} (hn : Likewise x nested nested)
include hj hn

theorem likewise_blockBody : Likewise x (blockBody nested) (blockBody nested) := by
  refine likewise_peekKind_bind fun k => ?_
  split
  · exact hn.map fun _ _ h => h.some
  · exact hn.map fun _ _ h => h.some
  · exact hn.map fun _ _ h => h.some
  · exact likewise_singleLineBody hj

theorem likewise_block {name name' : Token} (hname : x.Like name name')
    (hk : name.kind = .identifier) : Likewise x (block nested name) (block nested name') := by
  refine (Likewise.iterate (advances_headerStep name) (advances_headerStep name')
    (fun _ _ => likewise_headerStep hname) (.refl _)).bind fun h h' hh => ?_
  have hranges := like_labelRanges hh
  have hbrace := like_brace hh
  obtain ⟨labels, rs, b⟩ := h
  obtain ⟨labels', rs', b'⟩ := h'
  obtain rfl : labels = labels' := like_labels hh
  have hr := hname.tokenRange
  rw [← hname.text (by rw [hk]; rfl)]
  cases b with
  | none =>
    obtain rfl := hbrace.eq_none
    exact likewise_pure (.toBlock _ _ hranges (.refl _) hr hr hr)
  | some brace =>
    obtain ⟨brace', rfl, hb⟩ := hbrace.of_some
    refine (likewise_blockBody hj hn).bind fun body body' hbody => ?_
    refine likewise_previousRange.bind fun close close' hclose => ?_
    refine (likewise_endOfLine hname _).done (.toBlock _ _ hranges ?_ hr hb.tokenRange hclose)
    cases body with
    | none =>
      obtain rfl := hbody.eq_none
      exact (Likeness.Like.emptyBody (hb.tokenRange.between hclose)).some
    | some body =>
      obtain ⟨body', rfl, h⟩ := hbody.of_some
      exact h.some

end

instance : Placed Items :=
  ⟨List (String × Tree) × List BlockTree,
    fun items => (Placed.said items.attributes, Placed.said items.blocks)⟩

theorem like_items {as as' : List Attribute} (ha : x.Like as as') {bs bs' : List Block}
    (hb : x.Like bs bs') {r r' : SourceRange} (hr : x.Like r r') :
    x.Like (Items.mk as bs r) ⟨as', bs', r'⟩ :=
  ⟨congrArg₂ Prod.mk ha.same hb.same, fun hx => by rw [ha.eq hx, hb.eq hx, hr.eq hx]⟩

section
variable {items items' : Items} (hi : x.Like items items')
include hi

theorem like_attributes : x.Like items.attributes items'.attributes :=
  hi.map fun hs => congrArg Prod.fst hs

theorem like_blocks : x.Like items.blocks items'.blocks := hi.map fun hs => congrArg Prod.snd hs

theorem like_stop : x.Like items.stop items'.stop := .range fun hx => by rw [hi.eq hx]

end

/-- A definition of like names is found at like places. -/
theorem like_find? {as as' : List Attribute} (h : x.Like as as') (name : String) :
    x.Like (as.find? (·.name == name)) (as'.find? (·.name == name)) := by
  rw [← List.head?_filter, ← List.head?_filter]
  refine (h.filter fun a a' ha => ?_).head?
  rw [show a.name = a'.name from congrArg Prod.fst ha.same]

theorem likewise_define {items items' : Items} (hi : x.Like items items') {a a' : Attribute}
    (ha : x.Like a a') : Likewise x (items.define a) (items'.define a') := by
  have hname : a.name = a'.name := congrArg Prod.fst ha.same
  have hrange : x.Like a.nameRange a'.nameRange := .range fun hx => by rw [ha.eq hx]
  have hfound := like_find? (like_attributes hi) a.name
  unfold Items.define
  rw [← hname]
  generalize items.attributes.find? (·.name == a.name) = first,
    items'.attributes.find? (·.name == a.name) = first' at hfound
  cases first with
  | none =>
    obtain rfl := hfound.eq_none
    exact likewise_pure (like_items ((like_attributes hi).append ha.singleton) (like_blocks hi)
      (like_stop hi))
  | some first =>
    obtain ⟨first', rfl, hf⟩ := hfound.of_some
    have hfirst : x.Like first.nameRange first'.nameRange := .range fun hx => by rw [hf.eq hx]
    have hreport : Likewise x
        (report (.attributeRedefined a.name first.nameRange) a.nameRange (some first.nameRange))
        (report (.attributeRedefined a.name first'.nameRange) a'.nameRange
          (some first'.nameRange)) := by
      refine likewise_tell (Likeness.Like.singleton ⟨rfl, fun hx => ?_⟩)
      rw [hfirst.eq hx, hrange.eq hx]
    exact hreport.done hi

section
variable {nested : Parser Body} (hn : Likewise x nested nested)
include hj hn

theorem likewise_item {name name' : Token} (hname : x.Like name name')
    (hk : name.kind = .identifier) {items items' : Items} (hi : x.Like items items') :
    Likewise x (item nested name items) (item nested name' items') := by
  have hblock : Likewise x
      (block nested name >>= fun b => pure { items with blocks := items.blocks ++ [b] })
      (block nested name' >>= fun b => pure { items' with blocks := items'.blocks ++ [b] }) :=
    (likewise_block hj hn hname hk).map fun b b' hb =>
      like_items (like_attributes hi) ((like_blocks hi).append hb.singleton) (like_stop hi)
  refine likewise_peek.bind fun next next' hnext => ?_
  rw [← hnext.kind]
  split
  · exact likewise_skip.bind fun _ _ _ =>
      (likewise_attributeValue hj hname hk hnext false).bind fun _ _ => likewise_define hi
  · exact hblock
  · exact hblock
  · exact likewise_skipItem.bind fun _ _ _ =>
      (likewise_report _ hname.tokenRange (.refl _)).done hi

omit hj hn in
theorem likewise_reportItem {start start' : SourceRange} (hs : x.Like start start') {t t' : Token}
    (ht : x.Like t t') : Likewise x (reportItem start t) (reportItem start' t') := by
  unfold reportItem
  rw [← ht.kind]
  split
  · exact likewise_reportFirst _ ht.tokenRange (.refl _)
  · exact likewise_reportFirst _ ht.tokenRange (hs.between ht.tokenRange).some
  · exact likewise_reportFirst _ ht.tokenRange (.refl _)

theorem likewise_bodyStep (closer : TokenKind) {start start' : SourceRange}
    (hs : x.Like start start') {items items' : Items} (hi : x.Like items items') :
    Likewise x (bodyStep nested closer start items) (bodyStep nested closer start' items') := by
  refine likewise_read.bind fun next next' hnext => ?_
  have hlast := (like_items (like_attributes hi) (like_blocks hi) hnext.tokenRange).pair
    (.refl false)
  rw [← hnext.kind]
  split
  · exact likewise_pure hlast
  split
  · exact likewise_pure (hi.pair (.refl _))
  · rename_i hk
    exact (likewise_item hj hn hnext hk hi).map fun _ _ h => h.pair (.refl _)
  · exact (likewise_reportItem hs hnext).bind fun _ _ _ => (likewise_skipPast _).done hlast

theorem likewise_bodyWith (hf : Framed nested) (closer : TokenKind) :
    Likewise x (bodyWith nested closer) (bodyWith nested closer) := by
  refine likewise_previousRange.bind fun start start' hs => ?_
  refine (Likewise.iterate (advances_bodyStep hf closer start) (advances_bodyStep hf closer start')
    (fun _ _ => likewise_bodyStep hj hn closer hs)
    (like_items (.refl []) (.refl []) hs)).map fun items items' hi => ?_
  exact (like_attributes hi).toBody (like_blocks hi) (hs.between (like_stop hi))
    (.range fun hx => by rw [hi.eq hx])

end

include hj

theorem likewise_bodyFor (n : Nat) (closer : TokenKind) :
    Likewise x (bodyFor n closer) (bodyFor n closer) := by
  induction n generalizing closer with
  | zero => exact likewise_invalid.map fun _ _ h => .emptyBody h.exprRange
  | succ n ih => exact likewise_bodyWith hj (ih _) (framed.bodyFor n _) closer

theorem likewise_body (closer : TokenKind) : Likewise x (body closer) (body closer) := by
  have hbound (n : Nat) (s : ParseState) (hs : s.Ends) (hn : s.cursor.remaining < n) :
      bodyFor n closer s = bodyFor (s.cursor.remaining + 1) closer s := by
    rw [bodyFor_eq n]
    exact settles_bodies.depth _ (framed.bodyFor 0) n closer s hs hn
  have h := Likewise.bounded (fun n => likewise_bodyFor hj n closer) hbound hbound
  exact h

/-- An expression and nothing else, where newlines do not count. -/
theorem likewise_expressionToEnd :
    Likewise x
      (do
        let e ← expression
        let next ← peek
        if next.kind ≠ .eof then reportFirst .extraAfterExpression next.range none
        return e)
      (do
        let e ← expression
        let next ← peek
        if next.kind ≠ .eof then reportFirst .extraAfterExpression next.range none
        return e) := by
  refine (likewise_expression hj).bind fun e e' he => ?_
  refine likewise_peek.bind fun next next' hnext => ?_
  rw [← hnext.kind]
  split
  · exact (likewise_reportFirst _ hnext.tokenRange (.refl _)).done he
  · exact likewise_pure he

theorem likewise_wholeTemplate : Likewise x wholeTemplate wholeTemplate :=
  likewise_peek.bind fun _ _ hs =>
    likewise_template (likewise_expression hj) framed.expression hs.tokenRange _

end Parser

end HclSyntax
