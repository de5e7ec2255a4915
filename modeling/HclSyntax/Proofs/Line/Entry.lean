import HclSyntax.Proofs.Line.Body
import HclSyntax.Proofs.Reads
import HclSyntax.Proofs.Steady

namespace HclSyntax

/-- What an item adds to its body. -/
inductive Entry where
  | attr (a : Attribute)
  | block (b : Block)
  /-- A line that is neither adds nothing. -/
  | nothing

namespace Entry

def block? : Entry → Option Block
  | block b => some b
  | _ => none

/-- Only an attribute has a name, and it is this one. -/
def Named (e : Entry) (name : String) : Prop := ∀ a, e = .attr a → a.name = name

end Entry

namespace Parser

instance : LawfulMonad Parser := LawfulMonad.mk' _
  (fun p => by
    funext s
    change (⟨(p s).value, (p s).diagnostics ++ [], (p s).state⟩ : Parsed _) = p s
    rw [List.append_nil])
  (fun _ _ => rfl)
  (fun p f g => by
    funext s
    change (⟨_, _, _⟩ : Parsed _) = ⟨_, _, _⟩
    congr 1
    exact List.append_assoc _ _ _)

/-- An item after its name. -/
def entry (nested : Parser Body) (name : Token) : Parser Entry := do
  let next ← peek
  match next.kind with
  | .assign =>
    skip
    return .attr (← attributeValue name next false)
  | .openQuote | .openBrace => return .block (← block nested name)
  | _ =>
    skipItem
    report .loneName name.range none
    return .nothing

def Items.add (items : Items) : Entry → Parser Items
  | .attr a => items.define a
  | .block b => return { items with blocks := items.blocks ++ [b] }
  | .nothing => return items

theorem item_eq (nested : Parser Body) (name : Token) (items : Items) :
    item nested name items = entry nested name >>= items.add := by
  unfold item Watch.item entry
  simp only [Watch.idle_on]
  rw [bind_assoc]
  congr 1
  funext next
  by_cases ha : next.kind = .assign
  · simp [ha, Items.add]
  by_cases hq : next.kind = .openQuote
  · simp [hq, Items.add]
  by_cases hb : next.kind = .openBrace
  · simp [hb, Items.add]
  simp [Items.add]

/-- The items with one more entry. The first definition of a name counts. -/
def Items.including (items : Items) : Entry → Items
  | .attr a =>
    match items.attributes.find? (·.name == a.name) with
    | none => { items with attributes := items.attributes ++ [a] }
    | some _ => items
  | .block b => { items with blocks := items.blocks ++ [b] }
  | .nothing => items

theorem add_run (items : Items) (e : Entry) (s : ParseState) :
    (items.add e s).value = items.including e ∧ (items.add e s).state = s := by
  cases e with
  | attr a =>
    unfold Items.add Items.including Items.define
    dsimp only
    cases items.attributes.find? (·.name == a.name) with
    | none => exact ⟨rfl, rfl⟩
    | some first => exact ⟨rfl, rfl⟩
  | block b => exact ⟨rfl, rfl⟩
  | nothing => exact ⟨rfl, rfl⟩

theorem Compositional.entry {P : (α : Type) → Parser α → Prop} (h : Compositional P)
    {nested : Parser Body} (hn : P Body nested) (name : Token) : P Entry (entry nested name) := by
  refine h.bind h.peek fun next => ?_
  split
  · exact h.bind h.skip fun _ => h.map (h.attributeValue _ _ _) _
  · exact h.map (h.block hn name) _
  · exact h.map (h.block hn name) _
  · exact h.bind h.skipItem fun _ => h.map (h.report _ _ _ rfl) _

/-- An attribute has the name of its line. -/
theorem answers_attributeValue (name equals : Token) :
    (attributeValue name equals false).Answers (·.name = name.text) := by
  unfold attributeValue Watch.attributeValue
  refine answers_bind fun r => answers_bind fun stop => ?_
  simp only [Bool.false_eq_true, if_false]
  split
  · exact answers_bind fun _ => answers_pure rfl
  · exact answers_bind fun _ => answers_pure rfl

theorem answers_entry (nested : Parser Body) (name : Token) :
    (entry nested name).Answers (·.Named name.text) := by
  unfold entry
  refine answers_bind fun next => ?_
  split
  · refine answers_bind fun _ => (answers_attributeValue name next).seq fun a ha => ?_
    refine answers_pure fun a' h => ?_
    rw [← Entry.attr.inj h, ha]
  · exact answers_bind fun _ => answers_pure fun _ h => (by cases h)
  · exact answers_bind fun _ => answers_pure fun _ h => (by cases h)
  · exact answers_bind fun _ => answers_bind fun _ => answers_pure fun _ h => (by cases h)

theorem bind_run {α β : Type} (p : Parser α) (f : α → Parser β) (s : ParseState) :
    (p >>= f) s = ⟨(f (p s).value (p s).state).value,
      (p s).diagnostics ++ (f (p s).value (p s).state).diagnostics,
      (f (p s).value (p s).state).state⟩ := rfl

theorem previousRange_bind_run {β : Type} (f : SourceRange → Parser β) (s : ParseState) :
    (previousRange >>= f) s = f s.cursor.previousRange s := rfl

theorem bodyStep_closer {nested : Parser Body} {closer : TokenKind} {start : SourceRange}
    {items : Items} {c : Cursor} {b : Bool} (hk : c.peek.kind = closer) :
    bodyStep nested closer start items ⟨c, b⟩ =
      ⟨({ items with stop := c.peek.range }, false), [], ⟨c.advance, b⟩⟩ := by
  change (if c.peek.kind = closer then pure ({ items with stop := c.peek.range }, false)
    else _ : Parser (Items × Bool)) ⟨c.advance, b⟩ = _
  rw [if_pos hk]
  rfl

theorem bodyStep_identifier {nested : Parser Body} {closer : TokenKind} {start : SourceRange}
    {items : Items} {c : Cursor} {b : Bool} (hc : closer ≠ .identifier)
    (hk : c.peek.kind = .identifier) : bodyStep nested closer start items ⟨c, b⟩ =
      (item nested c.peek items >>= fun items => pure (items, true)) ⟨c.advance, b⟩ := by
  change (if c.peek.kind = closer then _ else _ : Parser (Items × Bool)) ⟨c.advance, b⟩ = _
  rw [if_neg (by rw [hk]; exact hc.symm)]
  have hr : (read ⟨c, b⟩).value.kind = .identifier := hk
  rw [hr]
  rfl

variable {x : Surroundings} {c : Cursor} {modes : List Bool} {m : Nat}

/-- An entry passes its whole line. -/
theorem agrees_entry (d d' : Nat) (name : Token) (hs : modes.headD true = true)
    (h : c.Within modes [] m) :
    (entry (bodyFor (d + 1) .closeBrace) name).Agrees x
      (entry (bodyFor (d' + 1) .closeBrace) name) c fun _ c' => c'.Behind modes := by
  obtain ⟨j, rfl⟩ := h.bound_pos
  unfold entry
  apply agrees_peek_bind h (.inl hs)
  split
  · rename_i hk
    have hw := pass_of_passable h (.inl hs) (by rw [hk]; decide)
    apply agrees_skip_bind h (.inl hs)
    exact (agrees_attributeValue _ _ hs hw).seq fun _ _ hend => agrees_pure hend
  · exact (agrees_block d d' name hs h).seq fun _ _ hend => agrees_pure hend
  · exact (agrees_block d d' name hs h).seq fun _ _ hend => agrees_pure hend
  · refine (agrees_skipItem hs h).seq fun _ _ hend => ?_
    exact agrees_report_bind (agrees_pure hend)

end Parser

/-- A line of a body: a name and tokens that close all brackets they open, and a newline. -/
structure Line where
  name : Token
  rest : List Token
  newline : Token
  name_kind : name.kind = .identifier
  inLine : ∀ t ∈ rest, t.inLine
  balanced : closes rest []
  newline_kind : newline.kind = .newline

namespace Line

open HclSyntax.Parser

def tokens (l : Line) : List Token := l.name :: l.rest ++ [l.newline]

/-- Behind the name, with nothing else around the line. -/
def start (l : Line) : Cursor := ⟨[l.name], l.rest ++ [l.newline], l.newline, []⟩

theorem within_start (l : Line) : l.start.Within [] [] l.start.remaining :=
  ⟨rfl, List.cons_ne_nil _ _, ⟨l.rest, l.newline, [], rfl, l.newline_kind, l.inLine, l.balanced,
    List.Sublist.refl _⟩, Nat.le_refl _⟩

/-- What the line says, after a recovery or without one. -/
def read (l : Line) (recovering : Bool) : Parsed Entry :=
  entry (bodyFor 1 .closeBrace) l.name ⟨l.start, recovering⟩

/-- Inside of more the item is the entry of the line, added to the items. -/
theorem item_widen (l : Line) (depth : Nat) (items : Items) (x : Surroundings) (b : Bool) :
    ∃ ds, item (bodyFor (depth + 1) .closeBrace) l.name items ⟨l.start.widen x, b⟩ =
      ⟨items.including (l.read b).value, (l.read b).diagnostics ++ ds,
        ((l.read b).widen x).state⟩ := by
  have hsame := (agrees_iff.mp (agrees_entry (x := x) 0 depth l.name rfl l.within_start) b).1
  have hread : entry (bodyFor (depth + 1) .closeBrace) l.name ⟨l.start.widen x, b⟩ =
      (l.read b).widen x := hsame
  obtain ⟨hvalue, hstate⟩ := add_run items (l.read b).value ((l.read b).widen x).state
  refine ⟨(items.add (l.read b).value ((l.read b).widen x).state).diagnostics, ?_⟩
  rw [item_eq, bind_run, hread, ← hvalue]
  change (⟨_, _, (items.add (l.read b).value ((l.read b).widen x).state).state⟩ : Parsed Items) = _
  rw [hstate]
  rfl

/-- The entry of a line ends with its newline. -/
theorem behind_read (l : Line) (b : Bool) : (l.read b).state.cursor.Behind [] := by
  let x : Surroundings := ⟨[], [], l.newline⟩
  exact (agrees_iff.mp (agrees_entry (x := x) 0 0 l.name rfl l.within_start) b).2

/-- Wherever a line stands it is one item: it is read as on its own, up to the next line. -/
theorem bodyStep_line (l : Line) (depth : Nat) (first : SourceRange) (items : Items)
    (before after : List Token) (eof : Token) (b : Bool) :
    ∃ passed ds, bodyStep (bodyFor (depth + 1) .closeBrace) .eof first items
        ⟨⟨before, l.tokens ++ after, eof, []⟩, b⟩ =
      ⟨(items.including (l.read b).value, true), (l.read b).diagnostics ++ ds,
        ⟨⟨passed, after, eof, []⟩, (l.read b).state.recovering⟩⟩ := by
  let x : Surroundings := ⟨before, after, eof⟩
  let c : Cursor := ⟨before, l.tokens ++ after, eof, []⟩
  have hrest : c.rest = l.name :: (l.rest ++ [l.newline] ++ after) := rfl
  have hhide : c.hides l.name = false := by simp [Cursor.hides, l.name_kind]
  obtain ⟨hpeek, hadv⟩ := Cursor.read_of_not_hides hrest hhide
  have hname : c.peek.kind = .identifier := by rw [hpeek, l.name_kind]
  have hstart : c.advance = l.start.widen x := hadv
  obtain ⟨ds, hitem⟩ := l.item_widen depth items x b
  refine ⟨(l.read b).state.cursor.passed ++ before, ds, ?_⟩
  rw [bodyStep_identifier (by decide) hname, hpeek, hstart, bind_run, hitem,
    ← (l.behind_read b).widen x]
  change (⟨_, (_ ++ _) ++ [], _⟩ : Parsed (Items × Bool)) = _
  rw [List.append_nil]
  rfl

/-- What a line says that is clean on its own does not depend on a recovery before it. -/
theorem read_clean {l : Line} (h : (l.read false).diagnostics = []) (b : Bool) :
    (l.read b).value = (l.read false).value := by
  cases b with
  | false => rfl
  | true =>
    have hs := steady.entry (steady.bodyFor 1 .closeBrace) l.name
    unfold read
    rw [hs.same l.start h]

/-- The attribute of a line has its name. -/
theorem named_read (l : Line) (b : Bool) : (l.read b).value.Named l.name.text :=
  answers_entry _ _ _

end Line

end HclSyntax
