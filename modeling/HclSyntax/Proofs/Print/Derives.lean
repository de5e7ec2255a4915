import HclSyntax.Proofs.Print.Tree
import HclSyntax.Proofs.Sound.Expression

namespace HclSyntax

open Phrase

variable {nl : Bool} {e : Tree} {ts ts₁ ts₂ : List Token} {root : Root}

/-- A phrase of tighter operators is one of looser operators. -/
theorem Derives.looser {levels : List Level} {k : Nat}
    (h : Derives (operators (levels.drop k) nl e) ts) : Derives (operators levels nl e) ts := by
  induction levels generalizing k with
  | nil => rwa [List.drop_nil] at h
  | cons level levels ih =>
    cases k with
    | zero => exact h
    | succ k => exact .tighter (ih h)

theorem Derives.of_operand (h : Derives (operand nl e) ts) (levels : List Level) :
    Derives (operators levels nl e) ts := by
  refine Derives.looser (k := levels.length) ?_
  rw [List.drop_length]
  exact .single h

theorem Derives.looser_of_le {levels : List Level} {j k : Nat} (hjk : j ≤ k)
    (h : Derives (operators (levels.drop k) nl e) ts) :
    Derives (operators (levels.drop j) nl e) ts := by
  refine Derives.looser (k := k - j) ?_
  rwa [List.drop_drop, show j + (k - j) = k by omega]

theorem BinaryOp.lookup_level (op : BinaryOp) : ∃ level,
    BinaryOp.levels.drop op.level = level :: BinaryOp.levels.drop (op.level + 1) ∧
      level.lookup op.kind = some op := by
  cases op <;> exact ⟨_, rfl, rfl⟩

/-- A start and the suffixes that make `e` of it. -/
inductive Chain (nl : Bool) : Root → Further → Tree → List Token → Prop
  | term {base e : Tree} {f : Further} {ts₁ ts₂ : List Token} (hb : Derives (term nl base) ts₁)
    (hs : Derives (suffixes base f nl e) ts₂) : Chain nl .term f e (ts₁ ++ ts₂)
  | element {e : Tree} {f : Further} {ts : List Token}
    (hs : Derives (suffixes .element f nl e) ts) : Chain nl .element f e ts

theorem Chain.of_term (h : Derives (Phrase.term nl e) ts) : Chain nl .term .all e ts := by
  have := Chain.term h .noSuffix
  rwa [List.append_nil] at this

theorem Chain.operand {f : Further} (h : Chain nl .term f e ts) : Derives (operand nl e) ts := by
  cases h with
  | term hb hs => exact .suffixed hb hs

/-- What may follow every phrase of suffixes may follow a chain. -/
theorem Chain.extend {f f' : Further} {e' : Tree} (h : Chain nl root f e ts)
    (hs : ∀ base ts, Derives (suffixes base f nl e) ts →
      Derives (suffixes base f' nl e') (ts ++ ts₁)) : Chain nl root f' e' (ts ++ ts₁) := by
  cases h with
  | term hb h =>
    rw [List.append_assoc]
    exact .term hb (hs _ _ h)
  | element h => exact .element (hs _ _ h)

/-- The expression that a constant key is written as. -/
def Value.keyTree : Value → Tree
  | .string s => .template [.literal (.string s)]
  | v => .literal v

theorem Value.staticKey?_keyTree (v : Value) : v.keyTree.staticKey? = some v := by
  cases v <;> rfl

theorem derives_expression_of_term (h : Derives (term nl e) ts) : Derives (expression nl e) ts :=
  .plain (.of_operand (Chain.of_term h).operand _)

theorem derives_quoted {text : String} (hp : PlainText text)
    (h : Spelled (Lexeme.quoted text) ts) :
    Derives (term nl (.template [.literal (.string text)])) ts := by
  obtain ⟨ts₁, ts₃, rfl, ho, hrest⟩ := Spelled.append_split [.mark .openQuote] h
  obtain ⟨ts₂, ts₃, rfl, htext, hc⟩ := hrest.append_split _
  obtain ⟨t, rfl, ht, hs⟩ := ho.single
  have hk : t.kind = .openQuote := ht
  have hclose : Mark nl t.kind.opposite ts₃ := hk ▸ hc.mark nl
  rw [← List.append_assoc]
  split at htext
  · rename_i hempty
    rw [htext.eq_nil, hempty]
    exact .quoted (.inl hk) (hs nl) .noPart (.text .nil) hclose
  · obtain ⟨c, rfl, ⟨hck, hct⟩, hcs⟩ := htext.single
    have hd := StringChunk.decode_plain (t := c) (hct ▸ hp)
    rw [hct] at hd
    have hparts := Derives.chunk .noPart (.inl hck) (hcs nl) hd
    exact .quoted (.inl hk) (hs nl) hparts (.text .nil) hclose

variable (nl) in
theorem derives_name {text : String} (h : Spelled [.name text] ts) :
    Derives (term nl (.name text)) ts := .name (h.name nl)

theorem derives_number {n : Number} (h : Spelled [.number n] ts) :
    Derives (term nl (.literal (.number n))) ts := by
  obtain ⟨t, rfl, ⟨hk, hn⟩, hs⟩ := h.single
  exact .number hk hn (hs nl)

theorem derives_key {v : Value} (hv : v.Writable) (h : Spelled v.print ts) :
    Derives (term nl v.keyTree) ts := by
  cases v with
  | null => exact derives_name nl h
  | bool b => cases b <;> exact derives_name nl h
  | number n => exact derives_number h
  | string s => exact derives_quoted hv h
  | unknown t => exact absurd hv id

theorem Chain.step {s : Step} (h : Chain nl root .all e ts) (hs : s.Writable)
    (hsp : Spelled s.print ts₁) : Chain nl root .all (e.step s) (ts ++ ts₁) := by
  cases s with
  | root name => exact absurd hs id
  | attr name =>
    obtain ⟨ts₂, ts₃, rfl, hd, hn⟩ := Spelled.append_split [.mark .dot] hsp
    refine h.extend fun base ts hsuffixes => ?_
    rw [← List.append_assoc]
    exact .attr hsuffixes (hd.mark nl) (hn.name nl)
  | index v =>
    obtain ⟨ts₂, ts₃, rfl, ho, hsp⟩ := Spelled.append_split [.mark .openBracket] hsp
    obtain ⟨ts₃, ts₄, rfl, hk, hc⟩ := hsp.append_split _
    refine h.extend fun base ts hsuffixes => ?_
    rw [← List.append_assoc, ← List.append_assoc]
    exact .constantIndex hsuffixes (by decide) (ho.mark nl)
      (derives_expression_of_term (derives_key hs hk)) v.staticKey?_keyTree (hc.mark false)

theorem Chain.steps {steps : List Step} (h : Chain nl root .all e ts)
    (hs : ∀ s ∈ steps, s.Writable) (hsp : Spelled (steps.flatMap Step.print) ts₁) :
    Chain nl root .all (steps.foldl Tree.step e) (ts ++ ts₁) := by
  induction steps generalizing e ts ts₁ with
  | nil =>
    rw [Spelled.eq_nil hsp, List.append_nil]
    exact h
  | cons s steps ih =>
    rw [List.flatMap_cons] at hsp
    obtain ⟨ts₂, ts₃, rfl, hstep, hsteps⟩ := hsp.append_split _
    rw [← List.append_assoc]
    exact ih (h.step (hs s (by simp)) hstep) (fun x hx => hs x (by simp [hx])) hsteps

theorem foldl_step_scope (first steps : List Step) :
    steps.foldl Tree.step (.scope first) = .scope (first ++ steps) := by
  induction steps generalizing first with
  | nil => rw [List.append_nil]; rfl
  | cons s steps ih => rw [List.foldl_cons, Tree.step, ih, List.append_assoc]; rfl

theorem foldl_step_of_not_path {e : Tree} (hp : e.isPath = false) {steps : List Step}
    (hne : steps ≠ []) : steps.foldl Tree.step e = .relative e steps := by
  cases steps with
  | nil => exact absurd rfl hne
  | cons s steps =>
    have hstep : e.step s = .relative e [s] := by
      cases e <;> first | rfl | simp [Tree.isPath] at hp
    rw [List.foldl_cons, hstep, Parser.foldl_step_relative]
    rfl

/-- The tokens are a phrase for the tree, of the kind that its grade tells. -/
inductive Written (nl : Bool) (e : Tree) (ts : List Token) : Root → Prop
  | expression (hg : e.grade = 0) (h : Derives (expression nl e) ts) : Written nl e ts .term
  | operators {k : Nat} (hg : e.grade = k + 1) (hk : k ≤ 6)
    (h : Derives (operators (BinaryOp.levels.drop k) nl e) ts) : Written nl e ts .term
  | chain {root : Root} {f : Further} (hg : e.grade = 9 → f = .all)
    (h : Chain nl root f e ts) : Written nl e ts root

theorem Written.of_term (h : Derives (term nl e) ts) : Written nl e ts .term :=
  .chain (fun _ => rfl) (.of_term h)

theorem Written.operators_of_lt (h : Written nl e ts .term) {k : Nat} (hk : k < e.grade) :
    Derives (Phrase.operators (BinaryOp.levels.drop k) nl e) ts := by
  cases h with
  | expression hg h => omega
  | operators hg _ h => exact h.looser_of_le (by omega)
  | chain _ h => exact .of_operand h.operand _

theorem Written.whole (h : Written nl e ts .term) : Derives (Phrase.expression nl e) ts := by
  cases h with
  | expression _ h => exact h
  | operators _ _ h => exact .plain h.looser
  | chain _ h => exact .plain (.of_operand h.operand _)

/-- What is printed for a tree is written for it, wherever newlines count. -/
def Tree.Writes (e : Tree) (root : Root) : Prop :=
  ∀ nl ts, Spelled e.print ts → Written nl e ts root

theorem Tree.Writes.expression (h : e.Writes .term) (hs : Spelled e.print ts) :
    Derives (Phrase.expression nl e) ts := (h nl ts hs).whole

theorem derives_parens (h : e.Writes .term) (hs : Spelled (Lexeme.parens e.print) ts) :
    Derives (term nl e) ts := by
  obtain ⟨ts₁, ts₃, rfl, ho, hs⟩ := Spelled.append_split [.mark .openParen] hs
  obtain ⟨ts₂, ts₃, rfl, hs, hc⟩ := hs.append_split _
  rw [← List.append_assoc]
  exact .parens (ho.mark nl) (h.expression hs) (hc.mark false)

variable (nl) in
/-- A part that must be one of operators of the levels from `k` on. -/
theorem derives_wrapped {k : Nat} (h : e.Writes .term)
    (hs : Spelled (Tree.wrapped (k + 1) e e.print) ts) :
    Derives (operators (BinaryOp.levels.drop k) nl e) ts := by
  unfold Tree.wrapped at hs
  split at hs
  · exact (h nl ts hs).operators_of_lt (by omega)
  · exact .of_operand (Chain.of_term (derives_parens h hs)).operand _

theorem derives_wrapped_operand (h : e.Writes .term)
    (hs : Spelled (Tree.wrapped 7 e e.print) ts) : Derives (operand nl e) ts := by
  have hd := derives_wrapped nl (k := 6) h hs
  cases hd with
  | single h => exact h

theorem BinaryOp.level_le (op : BinaryOp) : op.level ≤ 5 := by cases op <;> decide

theorem Tree.grade_le (e : Tree) : e.grade ≤ 9 := by
  cases e with
  | binary op l r =>
    have := op.level_le
    simp only [grade]
    omega
  | _ => simp [grade]

variable (nl) in
/-- A part that suffixes can follow. -/
theorem chain_wrapped (h : e.Writes root) (hroot : root = .element → e.grade = 9)
    (hs : Spelled (Tree.wrapped 9 e e.print) ts) : Chain nl root .all e ts := by
  unfold Tree.wrapped at hs
  split at hs
  · rename_i hg
    cases h nl ts hs with
    | expression hg' => omega
    | operators hg' => omega
    | chain hall hc =>
      have hle := e.grade_le
      rwa [hall (by omega)] at hc
  · rename_i hg
    cases root with
    | element => exact absurd (hroot rfl) (by omega)
    | term => exact .of_term (derives_parens h hs)

end HclSyntax
