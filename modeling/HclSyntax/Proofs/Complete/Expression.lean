import HclSyntax.Proofs.Complete.Term

namespace HclSyntax

open HclSyntax.Parser

/-- What it means that the tokens `ts` are read as the phrase, if the grammar is deep enough. -/
def Phrase.Read : Phrase → List Token → Prop
  | expression nl e, ts => ∀ d, ts.length < d →
    ReadsTo StopsExpression (grammar d .expression) nl e ts
  | operators levels nl e, ts => Apart levels → ∀ d, ts.length ≤ d →
    ReadsOperators (Parser.operand (grammar d)) levels nl e ts
  | operand nl e, ts => ∀ d, ts.length ≤ d →
    ReadsTo StopsOperand (Parser.operand (grammar d)) nl e ts
  | term nl e, ts => ∀ d, ts.length ≤ d → ReadsTerm (grammar d) nl e ts
  | suffixes base further nl e, ts => ∀ d, ts.length ≤ d → ReadsFurther (grammar d .expression)
    (fun each => grammar d (.suffixes each)) base further nl e ts
  | elements es, ts => ∀ d, ts.length < d → ReadsElements (grammar d .expression) es ts
  | sequence es, ts => ∀ d, ts.length < d → ReadsSequence (grammar d .expression) es ts
  | items xs, ts => ∀ d, ts.length < d → ReadsItems (grammar d .expression) xs ts
  | fields xs, ts => ∀ d, ts.length < d → ReadsFields (grammar d .expression) xs ts
  | item k v, ts => ∀ d, ts.length < d → ReadsItem (grammar d .expression) k v ts
  | key e, ts => ∀ d, ts.length < d → ReadsKey (grammar d .expression) e ts
  | filter condition, ts => ∀ d, ts.length < d →
    ReadsFilter (grammar d .expression) condition ts
  | directive s, ts => ∀ d, ts.length < d → ReadsDirective (grammar d .expression) s ts
  | parts nl raws, ts => ∀ d, ts.length < d → ReadsParts (grammar d .expression) nl raws ts

namespace Phrase

variable {nl : Bool} {e : Tree} {ts : List Token} {levels : List Level}

theorem keepsNames_grammar (d : Nat) : KeepsNames (grammar d .expression) :=
  (sound_grammar d).expression.keepsNames

theorem Read.plain (h : (operators BinaryOp.levels nl e).Read ts) : (expression nl e).Read ts := by
  intro d hd
  obtain ⟨d, rfl⟩ : ∃ n, d = n + 1 := ⟨d - 1, by omega⟩
  exact (h apart_levels d (by omega)).plain

theorem Read.tighter {level : Level} (h : (operators levels nl e).Read ts) :
    (operators (level :: levels) nl e).Read ts :=
  fun ha d hd => (h ha.2 d hd).tighter

/-- A lone name is read as an expression. -/
theorem read_name {text : String} (h : Name nl text ts) :
    (expression nl (.name text)).Read ts := by
  refine Read.plain (.tighter (.tighter (.tighter (.tighter (.tighter (.tighter ?_))))))
  intro _ d _
  have := readsOperand_suffixed (g := grammar d) (readsTerm_name h) readsFurther_nil
  rwa [List.append_nil] at this

end Phrase

open Phrase in
theorem Derives.read {p : Phrase} {ts : List Token} (h : Derives p ts) : p.Read ts := by
  -- what is inside of a phrase has fewer tokens, so that the depth that is left is enough for it
  induction h with
  | plain _ ih => exact ih.plain
  | conditional _ hq _ hk _ ihc iha ihb =>
    intro d hd
    simp only [List.length_append] at hd
    have := hq.length_pos
    obtain ⟨d, rfl⟩ : ∃ n, d = n + 1 := ⟨d - 1, by omega⟩
    exact (ihc apart_levels d (by omega)).conditional hq (iha d (by omega)) hk (ihb d (by omega))
  | single _ ih => exact fun _ => ih
  | tighter _ ih => exact ih.tighter
  | binary _ ho hk _ ihl ihr =>
    intro ha d hd
    simp only [List.length_append] at hd
    exact (ihl ha d (by omega)).binary ha ho hk (ihr ha.2 d (by omega))
  | unary ho _ ih =>
    intro d hd
    simp only [List.length_append] at hd
    have := ho.length_pos
    obtain ⟨d, rfl⟩ : ∃ n, d = n + 1 := ⟨d - 1, by omega⟩
    exact readsOperand_unary ho (ih d (by omega))
  | suffixed _ _ ihb ihs =>
    intro d hd
    simp only [List.length_append] at hd
    exact readsOperand_suffixed (ihb d (by omega)) (ihs d (by omega))
  | number hk hn ht => exact fun d _ => readsTerm_number hk hn ht
  | name h => exact fun d _ => readsTerm_name h
  | parens ho _ hc ih =>
    intro d hd
    simp only [List.length_append] at hd
    have := ho.length_pos
    exact readsTerm_parens ho (ih d (by omega)) hc
  | call hf ho _ hc ih =>
    intro d hd
    simp only [List.length_append] at hd
    have := ho.length_pos
    have hes := ih d (by omega)
    rw [List.append_assoc]
    exact readsTerm_of_arguments hf ho fun c hfaces => (hes c _ hfaces).2 hc
  | callExpanded hf ho _ _ hx hc ihes ihe =>
    intro d hd
    simp only [List.length_append] at hd
    have := ho.length_pos
    have hes := ihes d (by omega)
    have he := ihe d (by omega)
    rw [List.append_assoc, List.append_assoc, List.append_assoc]
    refine readsTerm_of_arguments hf ho fun c hfaces => ?_
    simp only [← List.append_assoc] at hfaces ⊢
    exact hes.expanded he hx hc hfaces
  | tuple ho _ hfor hc ih =>
    intro d hd
    simp only [List.length_append] at hd
    have := ho.length_pos
    exact readsTerm_tuple ho (ih d (by omega)) hfor hc
  | object ho _ hfor hc ih =>
    intro d hd
    simp only [List.length_append] at hd
    have := ho.length_pos
    exact readsTerm_object ho (ih d (by omega)) hfor hc
  | tupleFor ho hfor hb _ hcolon _ _ hc ihcoll ihv ihf =>
    intro d hd
    simp only [List.length_append] at hd
    have := ho.length_pos
    have hr := readsResult_tuple (ihv d (by omega)) (ihf d (by omega)) hc
    have := readsTerm_tupleFor ho hfor hb (ihcoll d (by omega)) hcolon hr
    simpa only [List.append_assoc] using this
  | objectFor ho hfor hb _ hcolon _ harrow _ _ hc ihcoll ihk ihv ihf =>
    intro d hd
    simp only [List.length_append] at hd
    have := ho.length_pos
    have hr := readsResult_object (ihk d (by omega)) harrow (ihv d (by omega)) (ihf d (by omega)) hc
    have := readsTerm_objectFor ho hfor hb (ihcoll d (by omega)) hcolon hr
    simpa only [List.append_assoc] using this
  | objectForGroups ho hfor hb _ hcolon _ harrow _ hg _ hc ihcoll ihk ihv ihf =>
    intro d hd
    simp only [List.length_append] at hd
    have := ho.length_pos
    have hr := readsResult_groups (ihk d (by omega)) harrow (ihv d (by omega)) hg
      (ihf d (by omega)) hc
    have := readsTerm_objectFor ho hfor hb (ihcoll d (by omega)) hcolon hr
    simpa only [List.append_assoc] using this
  | quoted hk ho _ hn hc ih =>
    intro d hd
    simp only [List.length_append] at hd
    have := ho.length_pos
    exact readsTerm_quoted hk ho (ih d (by omega)) hn hc
  | noSuffix => exact fun d _ => readsFurther_nil
  | attr _ hd hn ih =>
    intro d hlen
    simp only [List.length_append] at hlen
    rw [List.append_assoc]
    exact (ih d (by omega)).attr hd hn
  | constantIndex _ hf ho _ hv hc ih ihk =>
    intro d hlen
    simp only [List.length_append] at hlen
    have := ho.length_pos
    rw [List.append_assoc, List.append_assoc]
    exact (ih d (by omega)).constantIndex hf ho (ihk d (by omega)) hv hc
  | index _ hf ho _ hv hc ih ihk =>
    intro d hlen
    simp only [List.length_append] at hlen
    have := ho.length_pos
    rw [List.append_assoc, List.append_assoc]
    exact (ih d (by omega)).index hf ho (ihk d (by omega)) hv hc
  | attributeSplat _ hd hs hp ih =>
    intro d hlen
    simp only [List.length_append] at hlen
    rw [List.append_assoc, List.append_assoc]
    exact (ih d (by omega)).attributeSplat hd hs hp
  | fullSplat _ hf ho hs hc _ ih iheach =>
    intro d hlen
    simp only [List.length_append] at hlen
    have := ho.length_pos
    obtain ⟨d, rfl⟩ : ∃ n, d = n + 1 := ⟨d - 1, by omega⟩
    have heach := iheach d (by omega)
    rw [List.append_assoc, List.append_assoc, List.append_assoc]
    refine (ih (d + 1) (by omega)).fullSplat hf ho hs hc fun c hfaces hstop =>
      (heach.iterate hfaces hstop).2
  | noElement => exact fun d _ => readsElements_nil
  | element _ _ hc ih ihe =>
    intro d hlen
    simp only [List.length_append] at hlen
    exact (ih d (by omega)).element (ihe d (by omega)) hc
  | elements _ ih => exact fun d hlen => (ih d hlen).sequence
  | lastElement _ _ ih ihe =>
    intro d hlen
    simp only [List.length_append] at hlen
    exact (ih d (by omega)).lastElement (ihe d (by omega))
  | noItem => exact fun d _ => readsItems_nil
  | emptyLine _ hn ih =>
    intro d hlen
    simp only [List.length_append] at hlen
    exact (ih d (by omega)).emptyLine hn
  | commaItem _ _ hc ih ihx =>
    intro d hlen
    simp only [List.length_append] at hlen
    exact (ih d (by omega)).item (ihx d (by omega)) (.inl rfl) hc
  | lineItem _ _ hc ih ihx =>
    intro d hlen
    simp only [List.length_append] at hlen
    exact (ih d (by omega)).item (ihx d (by omega)) (.inr rfl) hc
  | items _ ih => exact fun d hlen => (ih d hlen).fields
  | lastItem _ _ ih ihx =>
    intro d hlen
    simp only [List.length_append] at hlen
    exact (ih d (by omega)).lastItem (ihx d (by omega))
  | equalsItem _ hs _ ihk ihv =>
    intro d hlen
    simp only [List.length_append] at hlen
    exact (ihk d (by omega)).item hs (.inl rfl) (ihv d (by omega))
  | colonItem _ hs _ ihk ihv =>
    intro d hlen
    simp only [List.length_append] at hlen
    exact (ihk d (by omega)).item hs (.inr rfl) (ihv d (by omega))
  | bareKey h => exact fun d hlen => readsKey_bare (keepsNames_grammar d) (read_name h d hlen) h
  | expressionKey _ hn ih =>
    exact fun d hlen => readsKey_expression (keepsNames_grammar d) (ih d hlen) hn
  | noFilter => exact fun d _ => readsFilter_none
  | someFilter hi _ ih =>
    intro d hlen
    simp only [List.length_append] at hlen
    exact readsFilter_some hi (ih d (by omega))
  | ifStart hi _ ih =>
    intro d hlen
    simp only [List.length_append] at hlen
    exact readsDirective_ifStart hi (ih d (by omega))
  | elseMark h =>
    exact fun d _ => readsDirective_keyword (x := .elseMark) h fun o k hk => by
      simp only [directiveContent, hk]
  | endif h =>
    exact fun d _ => readsDirective_keyword (x := .endif) h fun o k hk => by
      simp only [directiveContent, hk]
  | endfor h =>
    exact fun d _ => readsDirective_keyword (x := .endfor) h fun o k hk => by
      simp only [directiveContent, hk]
  | forStart hf hb _ ih =>
    intro d hlen
    simp only [List.length_append] at hlen
    exact readsDirective_forStart hf hb (ih d (by omega))
  | noPart => exact fun d _ => readsParts_nil
  | chunk _ hk ht hd ih =>
    intro d hlen
    simp only [List.length_append] at hlen
    exact (ih d (by omega)).chunk hk ht hd
  | interpolation _ hok ho _ hck hc ih ihe =>
    intro d hlen
    simp only [List.length_append] at hlen
    rw [List.append_assoc]
    exact (ih d (by omega)).interpolation hok ho (ihe d (by omega)) hck hc
  | directive _ hok ho _ hck hc ih ihd =>
    intro d hlen
    simp only [List.length_append] at hlen
    rw [List.append_assoc]
    exact (ih d (by omega)).directive hok ho (ihd d (by omega)) hck hc

end HclSyntax
