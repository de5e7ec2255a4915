import HclSyntax.Proofs.Line.Entry
import HclSyntax.Proofs.NoSilentError

namespace HclSyntax

open HclSyntax.Parser

/-- A source that consists of lines. -/
def TokenList.ofLines (lines : List Line) (eof : Token) (h : eof.kind = .eof) : TokenList :=
  ⟨lines.flatMap Line.tokens, eof, h⟩

/-- The range that a body of the whole source starts with. -/
def TokenList.startRange (tokens : TokenList) : SourceRange := tokens.start.cursor.previousRange

/-- What the body of the whole source repeats: an item, an empty line, or the end of the file. -/
def TokenList.itemStep (tokens : TokenList) : Items → Parser (Items × Bool) :=
  bodyStep (bodyFor tokens.start.cursor.remaining .closeBrace) .eof tokens.startRange

/-- The body of a source is what its items come to. -/
theorem parseBody_eq (tokens : TokenList) : parseBody tokens .eof =
    let r := iterate tokens.itemStep ⟨[], [], tokens.startRange⟩ tokens.start
    (⟨r.value.attributes, r.value.blocks, .between tokens.startRange r.value.stop,
      r.value.stop.endPoint⟩, r.diagnostics) := by
  have hbody : body .eof tokens.start = (iterate tokens.itemStep ⟨[], [], tokens.startRange⟩ >>=
      fun items => pure ⟨items.attributes, items.blocks, .between tokens.startRange items.stop,
        items.stop.endPoint⟩) tokens.start := by
    change bodyFor (tokens.start.cursor.remaining + 1) .eof tokens.start = _
    unfold bodyFor Watch.bodyFor Watch.bodyWith
    rw [Watch.idle_on, previousRange_bind_run]
    rfl
  change ((body .eof tokens.start).value, (body .eof tokens.start).diagnostics) = _
  rw [hbody, bind_run]
  change (_, _ ++ []) = _
  rw [List.append_nil]
  rfl

/-- What the lines say, one after the other. -/
def Line.readAll : List Line → Bool → List (Parsed Entry)
  | [], _ => []
  | l :: lines, recovering =>
    l.read recovering :: readAll lines (l.read recovering).state.recovering

/-- The items with the entries of more lines. -/
def Parser.Items.gather (items : Items) (rs : List (Parsed Entry)) : Items :=
  rs.foldl (fun items r => items.including r.value) items

namespace Parser

variable {σ : Type}

/-- So many steps, each of which asks for more, lead from `a` at `s` to `b` at `s'`. -/
inductive Steps (step : σ → Parser (σ × Bool)) : Nat → σ → ParseState → σ → ParseState → Prop
  | zero {a : σ} {s : ParseState} : Steps step 0 a s a s
  | succ {n : Nat} {a b : σ} {s s' : ParseState} (hmore : (step a s).value.2 = true)
    (h : Steps step n (step a s).value.1 (step a s).state b s') : Steps step (n + 1) a s b s'

end Parser

namespace Line

variable {eof : Token}

/-- The steps of a body over lines are one for each line. -/
theorem steps_lines (depth : Nat) (first : SourceRange) (lines : List Line) :
    ∀ k ≤ lines.length, ∀ items before b, ∃ items' passed b',
      Steps (bodyStep (bodyFor (depth + 1) .closeBrace) .eof first) k items
        ⟨⟨before, lines.flatMap tokens ++ [eof], eof, []⟩, b⟩ items'
        ⟨⟨passed, (lines.drop k).flatMap tokens ++ [eof], eof, []⟩, b'⟩ := by
  induction lines with
  | nil =>
    intro k hk items before b
    obtain rfl : k = 0 := Nat.le_zero.mp hk
    exact ⟨items, before, b, .zero⟩
  | cons l lines ih =>
    intro k hk items before b
    cases k with
    | zero => exact ⟨items, before, b, .zero⟩
    | succ k =>
      obtain ⟨passed, ds, hstep⟩ := l.bodyStep_line depth first items before
        (lines.flatMap tokens ++ [eof]) eof b
      obtain ⟨items', passed', b', hsteps⟩ := ih k (by simpa using hk)
        (items.including (l.read b).value) passed (l.read b).state.recovering
      refine ⟨items', passed', b', ?_⟩
      rw [List.flatMap_cons, List.append_assoc]
      refine .succ (by rw [hstep]) ?_
      rw [hstep]
      exact hsteps

/-- The loop of a body over lines gathers their entries. -/
theorem iterateFor_lines (depth : Nat) (first : SourceRange) (heof : eof.kind = .eof)
    (lines : List Line) : ∀ n items before b, lines.length < n → ∃ stop ds s,
      iterateFor (bodyStep (bodyFor (depth + 1) .closeBrace) .eof first) n items
        ⟨⟨before, lines.flatMap tokens ++ [eof], eof, []⟩, b⟩ =
      ⟨{ items.gather (readAll lines b) with stop }, ds, s⟩ ∧
        (ds = [] → ∀ r ∈ readAll lines b, r.diagnostics = []) := by
  induction lines with
  | nil =>
    intro n items before b hn
    obtain ⟨n, rfl⟩ : ∃ k, n = k + 1 := ⟨n - 1, by omega⟩
    let c : Cursor := ⟨before, [eof], eof, []⟩
    have hpeek : c.peek = eof :=
      (Cursor.read_of_not_hides rfl (by simp [Cursor.hides, heof])).1
    have hlast : bodyStep (bodyFor (depth + 1) .closeBrace) .eof first items
        ⟨⟨before, ([] : List Line).flatMap tokens ++ [eof], eof, []⟩, b⟩ =
        ⟨({ items with stop := c.peek.range }, false), [], ⟨c.advance, b⟩⟩ :=
      bodyStep_closer ((congrArg Token.kind hpeek).trans heof)
    refine ⟨c.peek.range, [], ⟨c.advance, b⟩, ?_, fun _ r hr => absurd hr List.not_mem_nil⟩
    unfold iterateFor
    rw [bind_run, hlast]
    simp only [Bool.false_eq_true, if_false]
    rfl
  | cons l lines ih =>
    intro n items before b hn
    obtain ⟨n, rfl⟩ : ∃ k, n = k + 1 := ⟨n - 1, by omega⟩
    obtain ⟨passed, ds, hstep⟩ := l.bodyStep_line depth first items before
      (lines.flatMap tokens ++ [eof]) eof b
    obtain ⟨stop, ds', s, hrest, hsilent⟩ := ih n (items.including (l.read b).value) passed
      (l.read b).state.recovering (by simpa using hn)
    refine ⟨stop, (l.read b).diagnostics ++ ds ++ ds', s, ?_, ?_⟩
    · rw [List.flatMap_cons, List.append_assoc]
      unfold iterateFor
      rw [bind_run, hstep]
      simp only [if_true]
      rw [hrest]
      rfl
    · intro h r hr
      simp only [List.append_eq_nil_iff] at h
      rcases List.mem_cons.mp hr with rfl | hr
      · exact h.1.1
      · exact hsilent h.2 r hr

end Line

namespace Line

theorem kind_ne_comment (l : Line) {t : Token} (h : t ∈ l.tokens) : t.kind ≠ .comment := by
  rcases List.mem_append.mp h with h | h
  · rcases List.mem_cons.mp h with rfl | h
    · simp [l.name_kind]
    · have ht := l.inLine t h
      simp only [Token.inLine, Bool.and_eq_true, bne_iff_ne] at ht
      exact ht.1.2
  · rw [List.mem_singleton.mp h, l.newline_kind]
    decide

theorem length_le_flatMap (lines : List Line) : lines.length ≤ (lines.flatMap tokens).length := by
  induction lines with
  | nil => exact Nat.le_refl 0
  | cons l lines ih =>
    simp only [List.flatMap_cons, List.length_cons, List.length_append, tokens]
    omega

/-- A body over lines starts in front of the first one. -/
theorem start_ofLines (lines : List Line) (eof : Token) (heof : eof.kind = .eof) :
    (TokenList.ofLines lines eof heof).start =
      ⟨⟨[], lines.flatMap tokens ++ [eof], eof, []⟩, false⟩ := by
  have hc : ∀ t ∈ (TokenList.ofLines lines eof heof).body, t.kind ≠ .comment := by
    intro t ht
    obtain ⟨l, -, ht⟩ := List.mem_flatMap.mp ht
    exact l.kind_ne_comment ht
  unfold TokenList.start Cursor.ofTokens TokenList.toList
  rw [TokenList.splitLineComments_of_no_comment hc]
  rfl

end Line

/-- A body over lines has the items that they say; if it is silent, so is every line. -/
theorem parseBody_ofLines (lines : List Line) (eof : Token) (heof : eof.kind = .eof) :
    ∃ first, ∃ items : Items, items = Items.gather ⟨[], [], first⟩ (Line.readAll lines false) ∧
      (parseBody (.ofLines lines eof heof) .eof).1.attributes = items.attributes ∧
      (parseBody (.ofLines lines eof heof) .eof).1.blocks = items.blocks ∧
      ((parseBody (.ofLines lines eof heof) .eof).2 = [] →
        ∀ r ∈ Line.readAll lines false, r.diagnostics = []) := by
  let file := TokenList.ofLines lines eof heof
  have hstart : file.start = ⟨⟨[], lines.flatMap Line.tokens ++ [eof], eof, []⟩, false⟩ :=
    Line.start_ofLines lines eof heof
  have hlen : file.start.cursor.remaining = (lines.flatMap Line.tokens).length + 1 := by
    rw [hstart]
    simp [Cursor.remaining]
  have hn : lines.length < file.start.cursor.remaining + 1 := by
    have := Line.length_le_flatMap lines
    omega
  obtain ⟨stop, ds, s, hrun, hsilent⟩ := Line.iterateFor_lines (lines.flatMap Line.tokens).length
    file.startRange heof lines _ ⟨[], [], file.startRange⟩ [] false hn
  have hiter : iterate file.itemStep ⟨[], [], file.startRange⟩ file.start =
      ⟨{ Items.gather ⟨[], [], file.startRange⟩ (Line.readAll lines false) with stop }, ds, s⟩ := by
    change iterateFor (bodyStep (bodyFor file.start.cursor.remaining .closeBrace) .eof _)
      (file.start.cursor.remaining + 1) _ file.start = _
    rw [hlen] at hrun ⊢
    rw [hstart]
    exact hrun
  rw [parseBody_eq]
  refine ⟨file.startRange, _, rfl, ?_⟩
  dsimp only
  rw [hiter]
  exact ⟨rfl, rfl, hsilent⟩

/-- Alone a line has its own entry for an item. -/
theorem parseBody_alone (l : Line) (eof : Token) (heof : eof.kind = .eof) :
    (parseBody (.ofLines [l] eof heof) .eof).1.attributes =
        (match (l.read false).value with | .attr a => [a] | _ => []) ∧
      (parseBody (.ofLines [l] eof heof) .eof).1.blocks = (l.read false).value.block?.toList ∧
      ((parseBody (.ofLines [l] eof heof) .eof).2 = [] → (l.read false).diagnostics = []) := by
  obtain ⟨first, items, rfl, ha, hb, hs⟩ := parseBody_ofLines [l] eof heof
  refine ⟨ha.trans ?_, hb.trans ?_, fun h => hs h _ (by simp [Line.readAll])⟩
  · simp only [Line.readAll, Items.gather, List.foldl_cons, List.foldl_nil]
    cases (l.read false).value <;> rfl
  · simp only [Line.readAll, Items.gather, List.foldl_cons, List.foldl_nil]
    cases (l.read false).value <;> rfl

namespace Parser.Items

/-- An attribute is added if it is the first of its name, and nothing else is. -/
theorem attributes_including (items : Items) (e : Entry) :
    (items.including e).attributes = items.attributes ∨
      ∃ a, e = .attr a ∧ (items.including e).attributes = items.attributes ++ [a] := by
  unfold including
  cases e with
  | attr a =>
    dsimp only
    split
    · exact .inr ⟨a, rfl, rfl⟩
    · exact .inl rfl
  | block b => exact .inl rfl
  | nothing => exact .inl rfl

/-- An attribute that is defined stays the one of its name. -/
theorem find_gather {items : Items} {name : String} {a : Attribute} (rs : List (Parsed Entry))
    (h : items.attributes.find? (·.name == name) = some a) :
    (items.gather rs).attributes.find? (·.name == name) = some a := by
  induction rs generalizing items with
  | nil => exact h
  | cons r rs ih =>
    apply ih
    rcases items.attributes_including r.value with heq | ⟨a', -, heq⟩
    · rw [heq, h]
    · rw [heq, List.find?_append, h]
      rfl

/-- The first attribute of its name is added. -/
theorem find_including {items : Items} {a : Attribute}
    (h : items.attributes.find? (·.name == a.name) = none) :
    (items.including (.attr a)).attributes.find? (·.name == a.name) = some a := by
  have heq : (items.including (.attr a)).attributes = items.attributes ++ [a] := by
    unfold including
    simp only [h]
  rw [heq, List.find?_append, h]
  simp

/-- No attribute has a name that no line starts with. -/
theorem find_readAll {items : Items} {name : String} (lines : List Line) (b : Bool)
    (hl : ∀ l ∈ lines, l.name.text ≠ name)
    (h : items.attributes.find? (·.name == name) = none) :
    (items.gather (Line.readAll lines b)).attributes.find? (·.name == name) = none := by
  induction lines generalizing items b with
  | nil => exact h
  | cons l lines ih =>
    apply ih _ fun k hk => hl k (by simp [hk])
    rcases items.attributes_including (l.read b).value with heq | ⟨a, ha, heq⟩
    · rw [heq, h]
    · have hname : a.name ≠ name := by
        rw [l.named_read b a ha]
        exact hl l (by simp)
      rw [heq, List.find?_append, h]
      simp [hname]

theorem blocks_including (items : Items) (e : Entry) :
    (items.including e).blocks = items.blocks ++ e.block?.toList := by
  unfold including Entry.block?
  cases e with
  | attr a =>
    dsimp only
    split <;> simp
  | block b => rfl
  | nothing => simp

theorem blocks_gather (items : Items) (rs : List (Parsed Entry)) :
    (items.gather rs).blocks = items.blocks ++ rs.flatMap (·.value.block?.toList) := by
  induction rs generalizing items with
  | nil => simp [gather]
  | cons r rs ih =>
    change ((items.including r.value).gather rs).blocks = _
    rw [ih, blocks_including, List.append_assoc, List.flatMap_cons]

end Parser.Items

theorem Line.readAll_append (lines lines' : List Line) (b : Bool) :
    ∃ b', readAll (lines ++ lines') b = readAll lines b ++ readAll lines' b' := by
  induction lines generalizing b with
  | nil => exact ⟨b, rfl⟩
  | cons l lines ih =>
    obtain ⟨b', h⟩ := ih (l.read b).state.recovering
    exact ⟨b', by rw [List.cons_append, readAll, h]; rfl⟩

/-- A line that is clean alone adds the same blocks after a recovery. -/
theorem Line.blocks_readAll (lines : List Line) (p : Line → Bool)
    (hp : ∀ l, p l = true → (l.read false).diagnostics = []) (b : Bool) :
    ((lines.filter p).flatMap fun l => (l.read false).value.block?.toList).Sublist
      ((readAll lines b).flatMap fun r => r.value.block?.toList) := by
  induction lines generalizing b with
  | nil => exact List.Sublist.refl _
  | cons l lines ih =>
    have hrest := ih (l.read b).state.recovering
    rw [readAll, List.flatMap_cons]
    by_cases hl : p l = true
    · rw [List.filter_cons_of_pos hl, List.flatMap_cons, read_clean (hp l hl) b]
      exact (List.Sublist.refl _).append hrest
    · rw [List.filter_cons_of_neg hl]
      exact hrest.trans (List.sublist_append_right _ _)

/-- The answer to a line and nothing else. -/
def Line.alone (l : Line) (eof : Token) (h : eof.kind = .eof) : Body × List Diagnostic :=
  parseBody (.ofLines [l] eof h) .eof

/-- An attribute that a line has alone is the one of its name, if it is the first of this name. -/
theorem attribute_ofLines {lines before after : List Line} {line : Line} {eof stop : Token}
    (heof : eof.kind = .eof) (hstop : stop.kind = .eof) (hl : lines = before ++ line :: after)
    {a : Attribute} (hs : (line.alone stop hstop).2 = [])
    (ha : (line.alone stop hstop).1.attributes = [a]) (hb : ∀ l ∈ before, l.name.text ≠ a.name) :
    (parseBody (.ofLines lines eof heof) .eof).1.attribute? a.name = some a := by
  obtain ⟨hattrs, -, hsilent⟩ := parseBody_alone line stop hstop
  have hclean := hsilent hs
  have hvalue : (line.read false).value = .attr a := by
    have h : (match (line.read false).value with | .attr a => [a] | _ => []) = [a] :=
      hattrs.symm.trans ha
    split at h
    · rename_i a' he
      rw [he, (List.cons.inj h).1]
    · cases h
  obtain ⟨first, items, hi, hwhole, -⟩ := parseBody_ofLines lines eof heof
  obtain ⟨b, hread⟩ := Line.readAll_append before (line :: after) false
  have hnone : ((Items.mk [] [] first).gather (Line.readAll before false)).attributes.find?
      (·.name == a.name) = none := Items.find_readAll before false hb rfl
  have hfirst := Items.find_including hnone
  unfold Body.attribute?
  rw [hwhole, hi, hl, hread]
  unfold Items.gather
  rw [List.foldl_append, Line.readAll, List.foldl_cons, Line.read_clean hclean b, hvalue]
  exact Items.find_gather _ hfirst

/-- The blocks that lines have alone are among those of the whole, in the same order. -/
theorem blocks_ofLines (lines : List Line) {eof stop : Token} (heof : eof.kind = .eof)
    (hstop : stop.kind = .eof) :
    ((lines.filter fun l => (l.alone stop hstop).2.isEmpty).flatMap
      fun l => (l.alone stop hstop).1.blocks).Sublist
      (parseBody (.ofLines lines eof heof) .eof).1.blocks := by
  obtain ⟨first, items, hi, -, hwhole, -⟩ := parseBody_ofLines lines eof heof
  rw [hwhole, hi, Items.blocks_gather, List.nil_append]
  have hblocks : (fun l : Line => (l.alone stop hstop).1.blocks) =
      fun l => (l.read false).value.block?.toList := by
    funext l
    exact (parseBody_alone l stop hstop).2.1
  rw [hblocks]
  apply Line.blocks_readAll
  intro l hl
  exact (parseBody_alone l stop hstop).2.2 (List.isEmpty_iff.mp hl)

/-- Each line is one item, whatever is wrong with it or was before: the item step stops in front of
the next line, and a body over lines takes one step for each. So an attribute that a line defines
alone, without a report, is the one of its name in the whole if no earlier line has this name, and
the blocks of such lines are found in the whole, in the order of the lines. -/
theorem errors_stay_in_their_line (lines : List Line) (eof stop : Token) (heof : eof.kind = .eof)
    (hstop : stop.kind = .eof) :
    (∀ (line : Line) (depth : Nat) (first : SourceRange) (items : Items)
      (before after : List Token) (recovering : Bool), ∃ items' ds passed recovering',
        bodyStep (bodyFor (depth + 1) .closeBrace) .eof first items
          ⟨⟨before, line.tokens ++ after, eof, []⟩, recovering⟩ =
        ⟨(items', true), ds, ⟨⟨passed, after, eof, []⟩, recovering'⟩⟩) ∧
    (∀ k ≤ lines.length, ∃ items passed recovering,
      Steps (TokenList.ofLines lines eof heof).itemStep k
        ⟨[], [], (TokenList.ofLines lines eof heof).startRange⟩
        (TokenList.ofLines lines eof heof).start items
        ⟨⟨passed, (lines.drop k).flatMap Line.tokens ++ [eof], eof, []⟩, recovering⟩) ∧
    (∀ (before after : List Line) (line : Line), lines = before ++ line :: after →
      ∀ a, (line.alone stop hstop).2 = [] → (line.alone stop hstop).1.attributes = [a] →
        (∀ l ∈ before, l.name.text ≠ a.name) →
          (parseBody (.ofLines lines eof heof) .eof).1.attribute? a.name = some a) ∧
    ((lines.filter fun l => (l.alone stop hstop).2.isEmpty).flatMap
      fun l => (l.alone stop hstop).1.blocks).Sublist
      (parseBody (.ofLines lines eof heof) .eof).1.blocks := by
  refine ⟨?_, ?_, ?_, blocks_ofLines lines heof hstop⟩
  · intro line depth first items before after recovering
    obtain ⟨passed, ds, h⟩ := line.bodyStep_line depth first items before after eof recovering
    exact ⟨_, _, passed, _, h⟩
  · intro k hk
    have hlen : (TokenList.ofLines lines eof heof).start.cursor.remaining =
        (lines.flatMap Line.tokens).length + 1 := by
      rw [Line.start_ofLines]
      simp [Cursor.remaining]
    unfold TokenList.itemStep
    rw [hlen, Line.start_ofLines]
    exact Line.steps_lines _ _ lines k hk _ _ _
  · intro before after line hl a hs ha hb
    exact attribute_ofLines heof hstop hl hs ha hb

/-- The line `a = (b c)`, which lacks an operator. -/
def brokenLine : Line where
  name := ⟨.identifier, [0x61], default⟩
  rest := [⟨.assign, [0x3D], default⟩, ⟨.openParen, [0x28], default⟩,
    ⟨.identifier, [0x62], default⟩, ⟨.identifier, [0x63], default⟩,
    ⟨.closeParen, [0x29], default⟩]
  newline := ⟨.newline, [0x0A], default⟩
  name_kind := rfl
  inLine := by decide
  balanced := rfl
  newline_kind := rfl

/-- The line `d = e`. -/
def soundLine : Line where
  name := ⟨.identifier, [0x64], default⟩
  rest := [⟨.assign, [0x3D], default⟩, ⟨.identifier, [0x65], default⟩]
  newline := ⟨.newline, [0x0A], default⟩
  name_kind := rfl
  inLine := by decide
  balanced := rfl
  newline_kind := rfl

theorem soundLine_is_kept :
    (parseBody (.ofLines [brokenLine, soundLine] ⟨.eof, [], default⟩ rfl) .eof).2 ≠ [] ∧
      ∃ a, (soundLine.alone ⟨.eof, [], default⟩ rfl).2 = [] ∧
        (soundLine.alone ⟨.eof, [], default⟩ rfl).1.attributes = [a] ∧
        (parseBody (.ofLines [brokenLine, soundLine] ⟨.eof, [], default⟩ rfl) .eof).1.attribute?
          a.name = some a := by
  let a : Attribute := ⟨"d", .scopeTraversal [.root "e" default] default, default, default, default⟩
  have hs : (soundLine.alone ⟨.eof, [], default⟩ rfl).2 = [] := by decide +kernel
  have ha : (soundLine.alone ⟨.eof, [], default⟩ rfl).1.attributes = [a] := by cbv
  have hb : ∀ l ∈ [brokenLine], l.name.text ≠ a.name := by decide +kernel
  refine ⟨by decide +kernel, a, hs, ha, ?_⟩
  exact (errors_stay_in_their_line [brokenLine, soundLine] ⟨.eof, [], default⟩
    ⟨.eof, [], default⟩ rfl rfl).2.2.1 [brokenLine] [] soundLine rfl a hs ha hb

end HclSyntax
