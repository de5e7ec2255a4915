import Mathlib.Data.List.DropRight
import HclSyntax.Proofs.Text.Rewriting

namespace HclSyntax

namespace StringChunk

/-- A text as it is written in quotes: a backslash and a letter for what has one, and a marker twice
if a brace follows. -/
def escape : List Char → List Char
  | [] => []
  | c :: text =>
    match escapes.find? fun e => c == e.2 with
    | some (letter, _) => '\\' :: letter :: escape text
    | none =>
      if c ∈ markers ∧ text.head? = some '\x7b' then c :: c :: escape text else c :: escape text

/-- How many times the text ends with the character. -/
def trailing (m : Char) (text : List Char) : Nat := (text.rtakeWhile (· == m)).length

/-- Before every brace there are none of the markers, or an odd number of them. -/
def OddRuns (m : Char) (text : List Char) : Prop :=
  ∀ before after, text = before ++ '\x7b' :: after →
    trailing m before = 0 ∨ trailing m before % 2 = 1

/-- A chunk in quotes. -/
def quoted (text : List Char) (range : SourceRange) : Token :=
  ⟨.quotedChunk, Utf8.encode (String.ofList text), range⟩

variable {m c : Char} {text : List Char}

@[simp]
theorem trailing_concat (m : Char) (text : List Char) :
    trailing m (text ++ [m]) = trailing m text + 1 := by
  simp [trailing]

@[simp]
theorem trailing_concat_of_ne (hc : c ≠ m) (text : List Char) : trailing m (text ++ [c]) = 0 := by
  simp [trailing, hc]

theorem trailing_replicate (m : Char) (n : Nat) : trailing m (List.replicate n m) = n := by
  induction n with
  | zero => rfl
  | succ n ih => rw [List.replicate_succ', trailing_concat, ih]

theorem trailing_append_cons (hc : c ≠ m) (before text : List Char) :
    trailing m (before ++ c :: text) = trailing m text := by
  induction text using List.reverseRecOn with
  | nil => exact trailing_concat_of_ne hc before
  | append_singleton text d ih =>
    rw [← List.cons_append, ← List.append_assoc]
    by_cases hd : d = m
    · rw [hd, trailing_concat, trailing_concat, ih]
    · rw [trailing_concat_of_ne hd, trailing_concat_of_ne hd]

/-- A character that is no marker ends the run before it. -/
theorem oddRuns_append_cons (hc : c ≠ m) (before text : List Char) :
    OddRuns m (before ++ c :: text) ↔
      OddRuns m before ∧ (c = '\x7b' → trailing m before = 0 ∨ trailing m before % 2 = 1) ∧
        OddRuns m text := by
  constructor
  · refine fun h => ⟨fun b a hb => ?_, fun hc => ?_, fun b a hb => ?_⟩
    · exact h b (a ++ c :: text) (by simp [hb])
    · exact h before text (by rw [hc])
    · simpa [trailing_append_cons hc] using h (before ++ c :: b) a (by simp [hb])
  · rintro ⟨hbefore, hbrace, htext⟩ b a heq
    rcases List.append_eq_append_iff.mp heq with ⟨between, rfl, hb⟩ | ⟨between, hb, ha⟩
    · cases between with
      | nil =>
        rw [List.append_nil]
        exact hbrace (List.head_eq_of_cons_eq hb)
      | cons d between =>
        obtain ⟨rfl, htail⟩ := List.cons_eq_cons.mp hb
        rw [trailing_append_cons hc]
        exact htext between a htail
    · cases between with
      | nil =>
        rw [List.append_nil] at hb
        exact hb ▸ hbrace (List.head_eq_of_cons_eq ha).symm
      | cons d between =>
        obtain ⟨rfl, -⟩ := List.cons_eq_cons.mp ha
        exact hbefore b between hb

theorem brace_ne_marker (hm : m ∈ markers) : '\x7b' ≠ m := by
  rintro rfl
  exact absurd hm (by decide)

theorem oddRuns_replicate (hm : m ∈ markers) (n : Nat) : OddRuns m (List.replicate n m) := by
  intro before after h
  have hbrace : '\x7b' ∈ List.replicate n m := by simp [h]
  exact absurd (List.eq_of_mem_replicate hbrace) (brace_ne_marker hm)

theorem oddRuns_run (hm : m ∈ markers) (n : Nat) (hc : c ≠ m) (text : List Char) :
    OddRuns m (List.replicate n m ++ c :: text) ↔
      (c = '\x7b' → n = 0 ∨ n % 2 = 1) ∧ OddRuns m text := by
  rw [oddRuns_append_cons hc, trailing_replicate]
  exact and_iff_right (oddRuns_replicate hm n)

/-- A pair more or less makes no run odd. -/
theorem OddRuns.of_pair (h : OddRuns m (m :: m :: text)) : OddRuns m text := by
  rintro before after rfl
  have hpair := h (m :: m :: before) after rfl
  -- only the run that the text begins with gets longer
  by_cases hall : ∀ c ∈ before, c = m
  · have hrun := List.eq_replicate_of_mem hall
    rw [hrun, ← List.replicate_succ, ← List.replicate_succ, trailing_replicate] at hpair
    rw [hrun, trailing_replicate]
    omega
  · push Not at hall
    obtain ⟨c, hmem, hc⟩ := hall
    obtain ⟨b, a, rfl⟩ := List.append_of_mem hmem
    rw [← List.cons_append, ← List.cons_append, trailing_append_cons hc] at hpair
    rwa [trailing_append_cons hc]

theorem oddRuns_cons (hc : c ≠ m) : OddRuns m (c :: text) ↔ OddRuns m text := by
  have hnil : OddRuns m [] := fun before after h => by simp at h
  simpa [hnil, trailing] using oddRuns_append_cons hc [] text

/-- The run that begins with the text ends where the text does not go on with it. -/
theorem OddRuns.of_cons (h : OddRuns m (c :: text)) (hc : c = m → text.head? ≠ some m) :
    OddRuns m text := by
  by_cases he : c = m
  · cases text with
    | nil => exact fun before after h => by simp at h
    | cons d text =>
      have hd : d ≠ m := fun hd => hc he (congrArg some hd)
      exact (oddRuns_cons hd).mpr ((oddRuns_append_cons hd [c] text).mp h).2.2
  · exact (oddRuns_cons he).mp h

theorem escape_letter {letter : Char} (h : (letter, c) ∈ escapes) :
    escape (c :: text) = '\\' :: letter :: escape text := by
  simp only [escapes, List.mem_cons, Prod.mk.injEq, List.not_mem_nil, or_false] at h
  rcases h with ⟨rfl, rfl⟩ | ⟨rfl, rfl⟩ | ⟨rfl, rfl⟩ | ⟨rfl, rfl⟩ | ⟨rfl, rfl⟩ <;> rfl

theorem escape_plain (hl : ∀ letter, (letter, c) ∉ escapes)
    (h : c ∈ markers → text.head? ≠ some '\x7b') : escape (c :: text) = c :: escape text := by
  have hnone : escapes.find? (fun e => c == e.2) = none :=
    List.find?_eq_none.mpr fun e he hc => hl e.1 (by simpa [beq_iff_eq.mp hc] using he)
  rw [escape, hnone]
  exact if_neg fun hm => h hm.1 hm.2

theorem escape_braced (hm : m ∈ markers) :
    escape (m :: '\x7b' :: text) = m :: m :: '\x7b' :: escape text := by
  simp only [markers, List.mem_cons, List.not_mem_nil, or_false] at hm
  rcases hm with rfl | rfl <;> rfl

theorem ne_backslash (hl : ∀ letter, (letter, c) ∉ escapes) : c ≠ '\\' := by
  rintro rfl
  exact hl '\\' (by decide)

theorem not_letter_of_marker (hm : m ∈ markers) (letter : Char) : (letter, m) ∉ escapes := by
  simp only [markers, List.mem_cons, List.not_mem_nil, or_false] at hm
  rcases hm with rfl | rfl <;> simp [escapes]

theorem ofEscape_letter {letter : Char} (h : (letter, c) ∈ escapes) :
    Piece.ofEscape [letter] = .escape letter c := by
  simp only [escapes, List.mem_cons, Prod.mk.injEq, List.not_mem_nil, or_false] at h
  rcases h with ⟨rfl, rfl⟩ | ⟨rfl, rfl⟩ | ⟨rfl, rfl⟩ | ⟨rfl, rfl⟩ | ⟨rfl, rfl⟩ <;> rfl

theorem doubled?_self (hm : m ∈ markers) : doubled? [m] [m] = some m := by
  simp only [markers, List.mem_cons, List.not_mem_nil, or_false] at hm
  rcases hm with rfl | rfl <;> rfl

theorem head?_escape (hc : c ≠ '\\') (h : text.head? ≠ some c) : (escape text).head? ≠ some c := by
  cases text with
  | nil => exact h
  | cons d text =>
    have hd : d ≠ c := fun he => h (congrArg some he)
    rw [escape]
    split
    · simpa using hc.symm
    · split <;> simpa using hd

theorem pieces_cons {first : List Char} {clusters : List (List Char)} (hb : first ≠ ['\\'])
    (h : ∀ m ∈ markers, first = [m] → clusters.head? ≠ some [m]) :
    pieces true (first :: clusters) = .plain first :: pieces true clusters := by
  cases clusters with
  | nil => rfl
  | cons second clusters =>
    refine pieces_plain (by simp [hb]) ?_
    refine List.find?_eq_none.mpr fun m hm he => ?_
    simp only [Bool.and_eq_true, beq_iff_eq] at he
    exact h m hm he.1 (congrArg some he.2)

/-- What the decoder makes of the escaped text. -/
def reread (text : List Char) : List Char :=
  (pieces true ((escape text).map ([·]))).flatMap Piece.text

theorem reread_letter {letter : Char} (h : (letter, c) ∈ escapes) :
    reread (c :: text) = c :: reread text := by
  rw [reread, escape_letter h, List.map_cons, List.map_cons, pieces_escape, ofEscape_letter h]
  rfl

theorem reread_plain (hl : ∀ letter, (letter, c) ∉ escapes)
    (h : c ∈ markers → text.head? ≠ some '\x7b' ∧ text.head? ≠ some c) :
    reread (c :: text) = c :: reread text := by
  have hb := ne_backslash hl
  rw [reread, escape_plain hl fun hm => (h hm).1, List.map_cons, pieces_cons (by simpa using hb)]
  · rfl
  · rintro m hm ⟨⟩
    simpa using head?_escape hb (h hm).2

theorem reread_braced (hm : m ∈ markers) :
    reread (m :: '\x7b' :: text) = m :: '\x7b' :: reread text := by
  have hb := ne_backslash (not_letter_of_marker hm)
  rw [reread, escape_braced hm, List.map_cons, List.map_cons, List.map_cons,
    pieces_braced (by simpa using hb) (doubled?_self hm)]
  rfl

theorem reread_pair (hm : m ∈ markers) (h : text.head? ≠ some '\x7b') :
    reread (m :: m :: text) = m :: m :: reread text := by
  have hl := not_letter_of_marker hm
  have hb := ne_backslash hl
  have hm' : (m :: text).head? ≠ some '\x7b' := by simpa using (brace_ne_marker hm).symm
  rw [reread, escape_plain hl fun _ => hm', escape_plain hl fun _ => h, List.map_cons,
    List.map_cons, pieces_pair (by simpa using hb) (doubled?_self hm)]
  · rfl
  · intro rest he
    obtain ⟨c, rest, hc, hb, -⟩ := List.map_eq_cons_iff.mp he
    rw [List.singleton_inj.mp hb] at hc
    exact head?_escape (by decide) h (by rw [hc]; rfl)

/-- If the runs are odd, the last two markers before a brace are the pair that was written for
one. -/
theorem reread_eq_self (text : List Char) (h : ∀ m ∈ markers, OddRuns m text) :
    reread text = text := by
  -- not by induction on the text: two equal markers are read in one step
  match text with
  | [] => rfl
  | c :: text =>
    by_cases hl : ∃ letter, (letter, c) ∈ escapes
    · obtain ⟨letter, hl⟩ := hl
      rw [reread_letter hl, reread_eq_self text fun m hm => (h m hm).of_cons ?_]
      rintro rfl
      exact absurd hl (not_letter_of_marker hm letter)
    push Not at hl
    by_cases hbrace : c ∈ markers ∧ text.head? = some '\x7b'
    · obtain ⟨hc, hhead⟩ := hbrace
      obtain ⟨text, rfl⟩ := List.head?_eq_some_iff.mp hhead
      rw [reread_braced hc, reread_eq_self text fun m hm =>
        ((oddRuns_append_cons (brace_ne_marker hm) [c] text).mp (h m hm)).2.2]
    by_cases hpair : c ∈ markers ∧ text.head? = some c
    · obtain ⟨hc, hhead⟩ := hpair
      obtain ⟨text, rfl⟩ := List.head?_eq_some_iff.mp hhead
      have hodd : text.head? ≠ some '\x7b' := fun hh => by
        obtain ⟨text, rfl⟩ := List.head?_eq_some_iff.mp hh
        simpa using ((oddRuns_run hc 2 (brace_ne_marker hc) text).mp (h c hc)).1
      rw [reread_pair hc hodd, reread_eq_self text fun m hm => ?_]
      by_cases he : c = m
      · exact (he ▸ h m hm).of_pair
      · exact (oddRuns_cons he).mp ((oddRuns_cons he).mp (h m hm))
    · rw [reread_plain hl fun hc => ⟨fun hh => hbrace ⟨hc, hh⟩, fun hh => hpair ⟨hc, hh⟩⟩,
        reread_eq_self text fun m hm => (h m hm).of_cons ?_]
      rintro rfl hh
      exact hpair ⟨hm, hh⟩
termination_by text.length

/-- Every backslash has a letter after it that it makes something of. -/
inductive Spelled : List (List Char) → Prop where
  | nil : Spelled []
  | letter {letter meant : Char} {clusters} (h : (letter, meant) ∈ escapes)
      (rest : Spelled clusters) : Spelled (['\\'] :: [letter] :: clusters)
  | plain {cluster clusters} (h : cluster ≠ ['\\']) (rest : Spelled clusters) :
      Spelled (cluster :: clusters)

theorem spelled_escape (text : List Char) : Spelled ((escape text).map ([·])) := by
  induction text with
  | nil => exact .nil
  | cons c text ih =>
    rw [escape]
    split
    · rename_i letter meant hf
      exact .letter (List.mem_of_find?_eq_some hf) ih
    · rename_i hf
      have hb : [c] ≠ ['\\'] := by
        rintro ⟨⟩
        exact absurd hf (by decide)
      split
      · exact .plain hb (.plain hb ih)
      · exact .plain hb ih

theorem Spelled.tail {first : List Char} {clusters : List (List Char)}
    (h : Spelled (first :: clusters)) (hb : first ≠ ['\\']) : Spelled clusters := by
  cases h with
  | letter => exact absurd rfl hb
  | plain _ rest => exact rest

/-- No piece is an invalid escape. -/
def Clean (pieces : List Piece) : Prop := ∀ piece ∈ pieces, ∀ cluster, piece ≠ .invalid cluster

theorem clean_nil : Clean [] := by simp [Clean]

theorem clean_cons {piece : Piece} {ps : List Piece} :
    Clean (piece :: ps) ↔ (∀ cluster, piece ≠ .invalid cluster) ∧ Clean ps :=
  List.forall_mem_cons

theorem invalidEscapes_eq_nil {p : Place} {ps : List Piece} :
    invalidEscapes p ps = [] ↔ Clean ps := by
  induction ps generalizing p with
  | nil => simp [invalidEscapes, clean_nil]
  | cons piece ps ih =>
    rw [clean_cons]
    cases piece with
    | invalid cluster => simp [invalidEscapes]
    | _ => simp [invalidEscapes, ih]

theorem Spelled.clean {clusters : List (List Char)} (h : Spelled clusters) :
    Clean (pieces true clusters) := by
  induction clusters using pieces.induct true with
  | case1 => simp [Clean, pieces]
  | case2 cluster => simp [Clean, pieces]
  | case3 first second clusters hb ih =>
    obtain ⟨-, rfl⟩ := hb
    rw [pieces_escape]
    cases h with
    | letter hl rest => exact clean_cons.mpr ⟨by simp [ofEscape_letter hl], ih rest⟩
    | plain hn => exact absurd rfl hn
  | case4 first second hq m clusters hm ih =>
    rw [pieces_braced hq hm]
    obtain ⟨m, rfl, rfl, rfl⟩ := doubled?_eq_some hm
    have hb : [m.char] ≠ ['\\'] := by simpa using hq
    exact clean_cons.mpr ⟨by simp, ih (((h.tail hb).tail hb).tail (by decide))⟩
  | case5 first second hq m clusters hb hm ih =>
    rw [pieces_pair hq hm hb]
    obtain ⟨m, rfl, rfl, rfl⟩ := doubled?_eq_some hm
    have hb : [m.char] ≠ ['\\'] := by simpa using hq
    exact clean_cons.mpr ⟨by simp, ih ((h.tail hb).tail hb)⟩
  | case6 first second hq clusters hm ih =>
    rw [pieces_plain hq hm]
    exact clean_cons.mpr ⟨by simp, ih (h.tail (by simpa using hq))⟩

theorem ofEscape_cases (cluster : List Char) :
    (∃ letter meant, (letter, meant) ∈ escapes ∧ cluster = [letter] ∧
      Piece.ofEscape cluster = .escape letter meant) ∨
    Piece.ofEscape cluster = .invalid cluster := by
  unfold Piece.ofEscape
  split
  · rename_i letter meant hf
    have hcluster := List.find?_some hf
    exact .inl ⟨letter, meant, List.mem_of_find?_eq_some hf, beq_iff_eq.mp hcluster, rfl⟩
  · exact .inr rfl

theorem meant_ne_brace {letter : Char} (h : (letter, c) ∈ escapes) : c ≠ '\x7b' := by
  rintro rfl
  simp [escapes] at h

theorem replicate_append_cons (n : Nat) (m : Char) (text : List Char) :
    List.replicate n m ++ m :: text = List.replicate (n + 1) m ++ text := by
  rw [List.replicate_succ', List.append_assoc, List.singleton_append]

theorem oddRuns_plain (hm : m ∈ markers) {n : Nat} {cluster : List Char}
    (hs : Small cluster) (hbrace : cluster = ['\x7b'] → n = 0 ∨ n % 2 = 1)
    (h : OddRuns m (List.replicate (if cluster = [m] then n + 1 else 0) m ++ text)) :
    OddRuns m (List.replicate n m ++ (cluster ++ text)) := by
  rcases hs with rfl | ⟨c, rfl⟩
  · have hr : '\r' ≠ m := by rintro rfl; exact absurd hm (by decide)
    have hn : '\n' ≠ m := by rintro rfl; exact absurd hm (by decide)
    rw [if_neg (by simp)] at h
    exact (oddRuns_run hm n hr _).mpr ⟨by simp, (oddRuns_cons hn).mpr h⟩
  · by_cases hc : c = m
    · subst hc
      rw [if_pos rfl] at h
      rwa [List.singleton_append, replicate_append_cons]
    · rw [if_neg (by simpa using hc)] at h
      exact (oddRuns_run hm n hc text).mpr ⟨fun he => hbrace (by rw [he]), h⟩

/-- What may come after `n` markers that belong to pieces before: an odd marker is not followed by
another, with which it would be a pair, nor a pair by a brace. -/
structure Follows (m : Char) (n : Nat) (clusters : List (List Char)) : Prop where
  odd : n % 2 = 1 → clusters.head? ≠ some [m]
  pair : n ≠ 0 → n % 2 = 0 → clusters.head? ≠ some ['\x7b']

theorem follows_zero (m : Char) (clusters : List (List Char)) : Follows m 0 clusters :=
  ⟨by simp, by simp⟩

theorem Follows.even {n : Nat} {clusters : List (List Char)} (h : Follows m n ([m] :: clusters)) :
    n % 2 = 0 := by
  have := mt h.odd (by simp)
  omega

theorem Follows.of_brace {n : Nat} {cluster : List Char} {clusters : List (List Char)}
    (h : Follows m n (cluster :: clusters)) (hc : cluster = ['\x7b']) : n = 0 ∨ n % 2 = 1 := by
  by_contra hn
  exact h.pair (by omega) (by omega) (congrArg some hc)

theorem oddRuns_pieces (hm : m ∈ markers) {clusters : List (List Char)}
    (hsmall : ∀ cluster ∈ clusters, Small cluster) (hclean : Clean (pieces true clusters))
    (n : Nat) (hn : Follows m n clusters) :
    OddRuns m (List.replicate n m ++ (pieces true clusters).flatMap Piece.text) := by
  -- along the pieces; the run before them has `n` markers by then
  induction clusters using pieces.induct true generalizing n with
  | case1 => simpa [pieces] using oddRuns_replicate hm n
  | case2 cluster =>
    refine oddRuns_plain hm (hsmall cluster (by simp)) hn.of_brace ?_
    simpa using oddRuns_replicate hm _
  | case3 first second clusters hb ih =>
    obtain ⟨-, rfl⟩ := hb
    simp only [List.forall_mem_cons] at hsmall
    rw [pieces_escape, clean_cons] at hclean
    have hnext := ih hsmall.2.2 hclean.2 0 (follows_zero m clusters)
    rw [pieces_escape, List.flatMap_cons]
    rcases ofEscape_cases second with ⟨letter, meant, hl, -, he⟩ | he
    · have hne : meant ≠ m := by
        rintro rfl
        exact not_letter_of_marker hm letter hl
      rw [he]
      exact (oddRuns_run hm n hne _).mpr ⟨fun hc => absurd hc (meant_ne_brace hl), hnext⟩
    · exact absurd he (hclean.1 second)
  | case4 first second hq d clusters hd ih =>
    rw [pieces_braced hq hd, clean_cons] at hclean
    rw [pieces_braced hq hd, List.flatMap_cons]
    simp only [List.forall_mem_cons] at hsmall
    have hnext := ih hsmall.2.2.2 hclean.2 0 (follows_zero m clusters)
    obtain ⟨d, rfl, rfl, rfl⟩ := doubled?_eq_some hd
    rw [Piece.text, ← List.singleton_append, List.append_assoc]
    refine oddRuns_plain hm (.inr ⟨_, rfl⟩) hn.of_brace ?_
    refine (oddRuns_run hm _ (brace_ne_marker hm) _).mpr ⟨fun _ => ?_, hnext⟩
    split
    · rename_i heq
      have := (heq ▸ hn).even
      omega
    · exact .inl rfl
  | case5 first second hq d clusters hb hd ih =>
    rw [pieces_pair hq hd hb, clean_cons] at hclean
    rw [pieces_pair hq hd hb, List.flatMap_cons]
    simp only [List.forall_mem_cons] at hsmall
    have hnext (n : Nat) (hn : Follows m n clusters) := ih hsmall.2.2 hclean.2 n hn
    obtain ⟨d, rfl, rfl, rfl⟩ := doubled?_eq_some hd
    by_cases hd : d.char = m
    · have heven := (hd ▸ hn).even
      rw [Piece.text, hd, List.cons_append, List.cons_append, replicate_append_cons,
        replicate_append_cons]
      refine hnext (n + 2) ⟨by omega, fun _ _ hh => ?_⟩
      obtain ⟨rest, rfl⟩ := List.head?_eq_some_iff.mp hh
      exact hb rest rfl
    · refine (oddRuns_run hm n hd _).mpr ⟨fun hc => ?_, (oddRuns_cons hd).mpr ?_⟩
      · exact hn.of_brace (by rw [hc])
      · exact hnext 0 (follows_zero m clusters)
  | case6 first second hq clusters hd ih =>
    rw [pieces_plain hq hd, clean_cons] at hclean
    rw [pieces_plain hq hd, List.flatMap_cons]
    rw [List.forall_mem_cons] at hsmall
    refine oddRuns_plain hm hsmall.1 hn.of_brace (ih hsmall.2 hclean.2 _ ?_)
    split
    · rename_i heq
      subst heq
      have heven := hn.even
      refine ⟨fun _ hh => ?_, by omega⟩
      have := List.find?_eq_none.mp hd m hm
      simp_all
    · exact follows_zero m _

theorem mem_escapes {letter meant : Char} {clusters : List (List Char)}
    (h : .escape letter meant ∈ pieces true clusters) : (letter, meant) ∈ escapes := by
  induction clusters using pieces.induct true with
  | case1 => simp [pieces] at h
  | case2 cluster => simp [pieces] at h
  | case3 first second clusters hb ih =>
    obtain ⟨-, rfl⟩ := hb
    rw [pieces_escape, List.mem_cons] at h
    refine h.elim (fun he => ?_) ih
    rcases ofEscape_cases second with ⟨_, _, hl, -, ho⟩ | ho
    · rw [ho] at he
      cases he
      exact hl
    · simp [ho] at he
  | case4 first second hq m clusters hm ih =>
    rw [pieces_braced hq hm] at h
    exact ih (by simpa using h)
  | case5 first second hq m clusters hb hm ih =>
    rw [pieces_pair hq hm hb] at h
    exact ih (by simpa using h)
  | case6 first second hq clusters hm ih =>
    rw [pieces_plain hq hm] at h
    exact ih (by simpa using h)

theorem letters_ascii : ∀ e ∈ escapes, e.1.toNat < 128 := by decide

theorem ascii_of_pieces {clusters : List (List Char)}
    (h : ∀ c ∈ (pieces true clusters).flatMap Piece.text, c.toNat < 128) :
    ∀ c ∈ clusters.flatten, c.toNat < 128 := by
  intro c hc
  rw [← clusters_pieces true clusters, List.mem_flatten] at hc
  obtain ⟨cluster, hcluster, hc⟩ := hc
  obtain ⟨piece, hpiece, hcluster⟩ := List.mem_flatMap.mp hcluster
  have htext (c : Char) (hc : c ∈ piece.text) : c.toNat < 128 :=
    h c (List.mem_flatMap.mpr ⟨piece, hpiece, hc⟩)
  cases piece with
  | escape letter meant =>
    have := letters_ascii _ (mem_escapes hpiece)
    simp only [Piece.clusters, List.mem_cons, List.not_mem_nil, or_false] at hcluster
    rcases hcluster with rfl | rfl
    · rw [List.mem_singleton.mp hc]
      decide
    · rwa [List.mem_singleton.mp hc]
  | _ =>
    refine htext c ?_
    simp only [Piece.clusters, List.mem_cons, List.not_mem_nil, or_false] at hcluster
    simp only [Piece.text]
    aesop

theorem decode_quoted (s : Segmentation) (text : List Char) (range : SourceRange) :
    (decodeWith s (quoted text range)).1 =
        String.ofList ((pieces true (s.split text)).flatMap Piece.text) ∧
      ((decodeWith s (quoted text range)).2 = [] ↔ Clean (pieces true (s.split text))) := by
  have hchars : (quoted text range).chars = text :=
    (Utf8.decode_encode _).trans String.toList_ofList
  rw [decode_pieces, hchars]
  exact ⟨rfl, List.map_eq_nil_iff.trans invalidEscapes_eq_nil⟩

theorem mem_escape (h : c ∈ escape text) :
    c = '\\' ∨ (∃ meant, (c, meant) ∈ escapes) ∨ c ∈ text ∧ ∀ letter, (letter, c) ∉ escapes := by
  induction text with
  | nil => simp [escape] at h
  | cons d text ih =>
    rw [escape] at h
    split at h
    · rename_i letter meant hf
      rcases List.mem_cons.mp h with rfl | h
      · exact .inl rfl
      rcases List.mem_cons.mp h with rfl | h
      · exact .inr (.inl ⟨_, List.mem_of_find?_eq_some hf⟩)
      exact (ih h).imp_right (.imp_right fun hc => ⟨.tail _ hc.1, hc.2⟩)
    · rename_i hf
      have hd (letter : Char) : (letter, d) ∉ escapes := fun hl => by
        simpa using List.find?_eq_none.mp hf _ hl
      have hmem : c = d ∨ c ∈ escape text := by
        split at h <;> simpa using h
      rcases hmem with rfl | h
      · exact .inr (.inr ⟨List.mem_cons_self, hd⟩)
      · exact (ih h).imp_right (.imp_right fun hc => ⟨.tail _ hc.1, hc.2⟩)

theorem ascii_of_mem_escape (h : ∀ c ∈ text, c.toNat < 128) (hc : c ∈ escape text) :
    c.toNat < 128 := by
  rcases mem_escape hc with rfl | ⟨meant, hl⟩ | ⟨hc, -⟩
  · decide
  · exact letters_ascii _ hl
  · exact h c hc

theorem newline_not_mem_escape (text : List Char) : '\n' ∉ escape text := fun h => by
  rcases mem_escape h with hb | ⟨meant, hl⟩ | ⟨-, hl⟩
  · exact absurd hb (by decide)
  · simp [escapes] at hl
  · exact hl 'n' (by decide)

/-- A text in ASCII that is escaped is decoded without complaint. It comes back if and only if every
run of markers before a brace is odd, and only such a text can be written in quotes at all. -/
theorem escaping_undone_iff (s : Segmentation) (text : List Char) (range : SourceRange)
    (h : ∀ c ∈ text, c.toNat < 128) :
    (decodeWith s (quoted (escape text) range)).2 = [] ∧
      ((decodeWith s (quoted (escape text) range)).1 = String.ofList text ↔
        ∀ m ∈ markers, OddRuns m text) ∧
      ((∃ written, decodeWith s (quoted written range) = (String.ofList text, [])) ↔
        ∀ m ∈ markers, OddRuns m text) := by
  have hsplit := s.split_ascii (fun _ => ascii_of_mem_escape h) (newline_not_mem_escape text)
  obtain ⟨hread, hproblems⟩ := decode_quoted s (escape text) range
  have hclean := hproblems.mpr (hsplit ▸ (spelled_escape text).clean)
  have hodd (written : List Char)
      (hw : decodeWith s (quoted written range) = (String.ofList text, [])) :
      ∀ m ∈ markers, OddRuns m text := fun m hm => by
    obtain ⟨htext, hproblems⟩ := decode_quoted s written range
    rw [hw] at htext hproblems
    have heq := String.ofList_injective htext
    rw [heq] at h ⊢
    have hascii := ascii_of_pieces h
    rw [s.flatten_split] at hascii
    simpa using oddRuns_pieces hm (s.small_of_ascii hascii) (hproblems.mp rfl) 0
      (follows_zero m _)
  have hself (ho : ∀ m ∈ markers, OddRuns m text) :
      (decodeWith s (quoted (escape text) range)).1 = String.ofList text := by
    rw [hread, hsplit]
    exact congrArg String.ofList (reread_eq_self text ho)
  exact ⟨hclean, ⟨fun he => hodd _ (Prod.ext he hclean), hself⟩,
    ⟨fun ⟨written, hw⟩ => hodd written hw, fun ho => ⟨_, Prod.ext (hself ho) hclean⟩⟩⟩

theorem oddRun_is_undone :
    let text := ['\\', '!', '$', '$', '$', '\x7b', '\n']
    let range : SourceRange := ⟨"", ⟨1, 1, 0⟩, ⟨1, 11, 10⟩⟩
    (∀ c ∈ text, c.toNat < 128) ∧
      (decode (quoted (escape text) range)).2 = [] ∧
      ((decode (quoted (escape text) range)).1 = String.ofList text ↔
        ∀ m ∈ markers, OddRuns m text) ∧
      ((∃ written, decode (quoted written range) = (String.ofList text, [])) ↔
        ∀ m ∈ markers, OddRuns m text) := by
  have h : ∀ c ∈ ['\\', '!', '$', '$', '$', '\x7b', '\n'], c.toNat < 128 := by simp
  exact ⟨h, escaping_undone_iff Cluster.segmentation _ _ h⟩

/-- Two markers before a brace are written as three and a brace, which the decoder takes as they
are. -/
theorem evenRun_is_not_undone :
    ¬∀ (text : List Char) (range : SourceRange), (∀ c ∈ text, c.toNat < 128) →
      decode (quoted (escape text) range) = (String.ofList text, []) := by
  intro h
  have heven := h ['$', '$', '\x7b'] ⟨"", ⟨1, 1, 0⟩, ⟨1, 5, 4⟩⟩ (by simp)
  have hread := (decode_quoted Cluster.segmentation _ _).1.symm.trans (congrArg Prod.fst heven)
  exact absurd (String.ofList_injective hread) (by decide)

end StringChunk

end HclSyntax
