import Mathlib.Data.List.MinMax
import Mathlib.Order.Bounds.Defs
import HclSyntax.Parser.Template
import HclSyntax.Spelling

namespace HclSyntax.Spelling

/-- A character is inserted, deleted, or replaced by another. -/
inductive Edit : List Char → List Char → Prop
  | insert (u v : List Char) (x : Char) : Edit (u ++ v) (u ++ x :: v)
  | delete (u v : List Char) (x : Char) : Edit (u ++ x :: v) (u ++ v)
  | replace (u v : List Char) {x y : Char} (h : x ≠ y) : Edit (u ++ x :: v) (u ++ y :: v)

/-- So many edits, one after the other, lead from one word to another. -/
inductive Edits : Nat → List Char → List Char → Prop
  | none (a : List Char) : Edits 0 a a
  | first {n : Nat} {a a' b : List Char} (h : Edit a a') (hs : Edits n a' b) : Edits (n + 1) a b

/-- The usual recursion: of two words a first character is deleted, inserted, or replaced where
they differ. -/
def levenshtein : List Char → List Char → Nat
  | [], b => b.length
  | a, [] => a.length
  | x :: a, y :: b =>
    min (min (levenshtein a (y :: b) + 1) (levenshtein (x :: a) b + 1))
      (levenshtein a b + if x = y then 0 else 1)
  termination_by a b => a.length + b.length

variable {a a' b : List Char} {m n : Nat}

theorem Edit.cons (h : Edit a b) (x : Char) : Edit (x :: a) (x :: b) := by
  cases h with
  | insert u v y => exact .insert (x :: u) v y
  | delete u v y => exact .delete (x :: u) v y
  | replace u v hne => exact .replace (x :: u) v hne

theorem Edit.reverse (h : Edit a b) : Edit a.reverse b.reverse := by
  cases h with
  | insert u v x => simpa using Edit.insert v.reverse u.reverse x
  | delete u v x => simpa using Edit.delete v.reverse u.reverse x
  | replace u v hne => simpa using Edit.replace v.reverse u.reverse hne

namespace Edits

theorem cons (h : Edits n a b) (x : Char) : Edits n (x :: a) (x :: b) := by
  induction h with
  | none a => exact .none (x :: a)
  | first he _ ih => exact .first (he.cons x) ih

theorem reverse (h : Edits n a b) : Edits n a.reverse b.reverse := by
  induction h with
  | none a => exact .none a.reverse
  | first he _ ih => exact .first he.reverse ih

theorem last (h : Edits n a a') (he : Edit a' b) : Edits (n + 1) a b := by
  induction h with
  | none a => exact .first he (.none b)
  | first hf _ ih => exact .first hf (ih he)

theorem fewer (h : Edits m a b) (h' : Edits n a b) : Edits (min m n) a b := by
  rcases min_choice m n with hmin | hmin <;> rw [hmin]
  · exact h
  · exact h'

end Edits

@[simp] theorem levenshtein_nil_left (b : List Char) : levenshtein [] b = b.length := by
  simp [levenshtein]

@[simp] theorem levenshtein_nil_right (a : List Char) : levenshtein a [] = a.length := by
  cases a <;> simp [levenshtein]

theorem levenshtein_cons_cons (x y : Char) (a b : List Char) : levenshtein (x :: a) (y :: b) =
    min (min (levenshtein a (y :: b) + 1) (levenshtein (x :: a) b + 1))
      (levenshtein a b + if x = y then 0 else 1) := by
  rw [levenshtein]

/-- As many edits as the recursion counts lead from one word to the other. -/
theorem edits_levenshtein (a b : List Char) : Edits (levenshtein a b) a b := by
  induction a generalizing b with
  | nil =>
    induction b with
    | nil => simpa using Edits.none []
    | cons y b ih => simpa using ih.last (.insert [] b y)
  | cons x a iha =>
    induction b with
    | nil => simpa using (iha []).first (.delete [] a x)
    | cons y b ihb =>
      have hdelete : Edits (levenshtein a (y :: b) + 1) (x :: a) (y :: b) :=
        .first (.delete [] a x) (iha (y :: b))
      have hinsert : Edits (levenshtein (x :: a) b + 1) (x :: a) (y :: b) :=
        ihb.last (.insert [] b y)
      have hreplace : Edits (levenshtein a b + if x = y then 0 else 1) (x :: a) (y :: b) := by
        split
        · rename_i heq
          exact heq ▸ (iha b).cons x
        · rename_i hne
          exact .first (.replace [] a hne) ((iha b).cons y)
      rw [levenshtein_cons_cons]
      exact (hdelete.fewer hinsert).fewer hreplace

theorem levenshtein_cons_le (x : Char) (a b : List Char) :
    levenshtein (x :: a) b ≤ levenshtein a b + 1 := by
  cases b with
  | nil => simp
  | cons y b =>
    rw [levenshtein_cons_cons]
    omega

theorem levenshtein_le_cons_right (a : List Char) (y : Char) (b : List Char) :
    levenshtein a (y :: b) ≤ levenshtein a b + 1 := by
  cases a with
  | nil => simp
  | cons x a =>
    rw [levenshtein_cons_cons]
    omega

theorem levenshtein_le_cons (x : Char) (a b : List Char) :
    levenshtein a b ≤ levenshtein (x :: a) b + 1 := by
  induction b with
  | nil => simp; omega
  | cons y b ih =>
    have hright := levenshtein_le_cons_right a y b
    rw [levenshtein_cons_cons]
    omega

theorem levenshtein_replace_le (x y : Char) (a b : List Char) :
    levenshtein (x :: a) b ≤ levenshtein (y :: a) b + 1 := by
  induction b with
  | nil => simp
  | cons z b ih =>
    have hx := levenshtein_cons_cons x z a b
    have hy := levenshtein_cons_cons y z a b
    split at hx <;> split at hy <;> omega

/-- An edit behind the first character changes the distance as little as elsewhere. -/
theorem levenshtein_cons_le_cons (h : ∀ b, levenshtein a b ≤ levenshtein a' b + 1) (x : Char)
    (b : List Char) : levenshtein (x :: a) b ≤ levenshtein (x :: a') b + 1 := by
  induction b with
  | nil => simpa using h []
  | cons y b ih =>
    have hdelete := h (y :: b)
    have hreplace := h b
    rw [levenshtein_cons_cons, levenshtein_cons_cons]
    omega

theorem levenshtein_append_le (h : ∀ b, levenshtein a b ≤ levenshtein a' b + 1) (u b : List Char) :
    levenshtein (u ++ a) b ≤ levenshtein (u ++ a') b + 1 := by
  induction u generalizing b with
  | nil => exact h b
  | cons x u ih => exact levenshtein_cons_le_cons ih x b

/-- No edit brings a word nearer to another by more than one. -/
theorem Edit.levenshtein_le (h : Edit a a') (b : List Char) :
    levenshtein a b ≤ levenshtein a' b + 1 := by
  cases h with
  | insert u v x => exact levenshtein_append_le (levenshtein_le_cons x v) u b
  | delete u v x => exact levenshtein_append_le (levenshtein_cons_le x v) u b
  | @replace u v x y _ => exact levenshtein_append_le (levenshtein_replace_le x y v) u b

theorem levenshtein_self (a : List Char) : levenshtein a a = 0 := by
  induction a with
  | nil => simp
  | cons x a ih => simp [levenshtein_cons_cons, ih]

/-- Fewer edits than the recursion counts do not lead from one word to the other. -/
theorem Edits.levenshtein_le (h : Edits n a b) : levenshtein a b ≤ n := by
  induction h with
  | none a => exact (levenshtein_self a).le
  | first he _ ih => exact (he.levenshtein_le _).trans (Nat.add_le_add_right ih 1)

theorem isLeast_levenshtein (a b : List Char) :
    IsLeast {n | Edits n a b} (levenshtein a b) :=
  ⟨edits_levenshtein a b, fun _ h => Edits.levenshtein_le h⟩

theorem levenshtein_reverse_le (a b : List Char) :
    levenshtein a.reverse b.reverse ≤ levenshtein a b :=
  (edits_levenshtein a b).reverse.levenshtein_le

/-- Whether words are read from the first or from the last character makes no difference. -/
theorem levenshtein_reverse (a b : List Char) :
    levenshtein a.reverse b.reverse = levenshtein a b := by
  refine le_antisymm (levenshtein_reverse_le a b) ?_
  simpa using levenshtein_reverse_le a.reverse b.reverse

/-- A row: the distances of `a` to `front`, and to `front` with more and more characters of a word
put before it. What was read stands reversed. -/
def rowFrom (a front : List Char) : List Char → List Nat
  | [] => [levenshtein a front]
  | y :: b => levenshtein a front :: rowFrom a (y :: front) b

variable {front : List Char}

theorem rowFrom_eq_cons (a front b : List Char) :
    rowFrom a front b = levenshtein a front :: (rowFrom a front b).tail := by
  cases b <;> rfl

theorem range'_eq_rowFrom (front b : List Char) :
    List.range' front.length (b.length + 1) = rowFrom [] front b := by
  induction b generalizing front with
  | nil => simp [rowFrom]
  | cons y b ih =>
    rw [rowFrom, ← ih, List.length_cons, List.range'_succ]
    simp

/-- Each place of a row follows from its neighbours to the left, above, and above to the left. -/
theorem fillRow_rowFrom (c : Char) (a front b : List Char) :
    fillRow c (levenshtein (c :: a) front) b (rowFrom a front b) =
      (rowFrom (c :: a) front b).tail := by
  induction b generalizing front with
  | nil => rfl
  | cons y b ih =>
    -- the row above is shifted by one, so that its next place is above this one
    have hrow := ih (y :: front)
    rw [rowFrom_eq_cons a (y :: front) b] at hrow
    rw [rowFrom, rowFrom_eq_cons a (y :: front) b, fillRow, ← levenshtein_cons_cons, hrow, rowFrom,
      List.tail_cons, ← rowFrom_eq_cons]

theorem nextRow_rowFrom (b a : List Char) (c : Char) :
    nextRow b (rowFrom a [] b) c = rowFrom (c :: a) [] b := by
  have hfirst : (rowFrom a [] b).headD 0 + 1 = levenshtein (c :: a) [] := by
    rw [rowFrom_eq_cons]
    simp
  rw [nextRow, hfirst, fillRow_rowFrom, ← rowFrom_eq_cons]

/-- Reading a word to its end leaves the row of the whole word. -/
theorem foldl_nextRow (b a rest : List Char) :
    rest.foldl (nextRow b) (rowFrom a [] b) = rowFrom (rest.reverse ++ a) [] b := by
  induction rest generalizing a with
  | nil => rfl
  | cons c rest ih => simp [nextRow_rowFrom, ih]

theorem getLastD_rowFrom (a front b : List Char) (d : Nat) :
    (rowFrom a front b).getLastD d = levenshtein a (b.reverse ++ front) := by
  induction b generalizing front d with
  | nil => rfl
  | cons y b ih =>
    rw [rowFrom, List.getLastD_cons, ih]
    simp

theorem distance_eq_levenshtein (a b : String) :
    distance a b = levenshtein a.toList b.toList := by
  have hfirst : List.range (b.toList.length + 1) = rowFrom [] [] b.toList := by
    rw [List.range_eq_range']
    exact range'_eq_rowFrom [] b.toList
  rw [distance, hfirst, foldl_nextRow, getLastD_rowFrom, List.append_nil, List.append_nil,
    levenshtein_reverse]

/-- No candidate is nearer to the given word, and the candidate is the first of those as near. -/
structure IsNearest (given : String) (words : List String) (word : String) : Prop where
  mem : word ∈ words
  least : ∀ w ∈ words, distance given word ≤ distance given w
  first : ∀ w ∈ words, distance given w = distance given word → words.idxOf word ≤ words.idxOf w

variable {given word : String} {words : List String}

theorem isNearest_iff : IsNearest given words word ↔ words.argmin (distance given) = some word := by
  rw [List.argmin_eq_some_iff]
  constructor
  · intro ⟨hmem, hleast, hfirst⟩
    exact ⟨hmem, hleast, fun w hw hle => hfirst w hw (le_antisymm hle (hleast w hw))⟩
  · intro ⟨hmem, hleast, hfirst⟩
    exact ⟨hmem, hleast, fun w hw heq => hfirst w hw heq.le⟩

/-- One candidate more is considered. -/
def consider (given : String) (best : Option (String × Nat)) (word : String) :
    Option (String × Nat) :=
  if furthest < distance given word then best else better best word (distance given word)

/-- What is kept of the candidates considered so far: the first of the nearest, if it is near
enough. -/
def kept (given : String) (words : List String) : Option (String × Nat) :=
  (words.argmin (distance given)).bind fun word =>
    if furthest < distance given word then none else some (word, distance given word)

theorem consider_kept (given : String) (words : List String) (word : String) :
    consider given (kept given words) word = kept given (words ++ [word]) := by
  rw [consider, kept, kept, List.argmin_concat]
  cases words.argmin (distance given) with
  | none => simp [better]
  | some w =>
    by_cases hless : distance given word < distance given w
    · have hle : ¬distance given w ≤ distance given word := Nat.not_le.mpr hless
      by_cases hfar : furthest < distance given word
      · -- what is kept was too far before, as the candidate is now
        have hw : furthest < distance given w := hfar.trans hless
        simp [hfar, hless, hw]
      · by_cases hw : furthest < distance given w <;> simp [hfar, hless, hle, hw, better]
    · -- a tie goes to the candidate that came before
      have hle : distance given w ≤ distance given word := Nat.not_lt.mp hless
      by_cases hfar : furthest < distance given word
      · simp [hfar, hless]
      · have hw : ¬furthest < distance given w := by omega
        simp [hfar, hless, hle, hw, better]

theorem foldl_consider (given : String) (words : List String) :
    words.foldl (consider given) none = kept given words := by
  induction words using List.reverseRecOn with
  | nil => rfl
  | append_singleton words word ih =>
    rw [List.foldl_append, ih, List.foldl_cons, List.foldl_nil, consider_kept]

theorem kept_eq_some_iff {best : String × Nat} : kept given words = some best ↔
    IsNearest given words best.1 ∧ distance given best.1 ≤ furthest ∧
      best.2 = distance given best.1 := by
  rw [kept, Option.bind_eq_some_iff]
  constructor
  · rintro ⟨w, hw, hbest⟩
    split at hbest
    · cases hbest
    · rename_i hnear
      obtain rfl := Option.some.inj hbest
      exact ⟨isNearest_iff.mpr hw, Nat.not_lt.mp hnear, rfl⟩
  · rintro ⟨hnearest, hnear, hdistance⟩
    refine ⟨best.1, isNearest_iff.mp hnearest, ?_⟩
    rw [if_neg (Nat.not_lt.mpr hnear), ← hdistance]

theorem suggest?_eq_some_iff (h : given ≠ "") :
    suggest? given words = some word ↔ IsNearest given words word ∧ distance given word ≤ 2 := by
  have hgiven : given.isEmpty = false := by simpa using h
  have hrun : suggest? given words = (kept given words).map (·.1) := by
    rw [suggest?, hgiven, ← foldl_consider]
    rfl
  rw [hrun, Option.map_eq_some_iff]
  constructor
  · rintro ⟨best, hbest, rfl⟩
    obtain ⟨hnearest, hnear, -⟩ := kept_eq_some_iff.mp hbest
    exact ⟨hnearest, hnear⟩
  · rintro ⟨hnearest, hnear⟩
    exact ⟨(word, distance given word), kept_eq_some_iff.mpr ⟨hnearest, hnear, rfl⟩, rfl⟩

/-- Distances are the least numbers of edits, as the usual recursion counts them. The word that is
meant by another one is the first of the nearest candidates, if at most two edits lead to it, and
there is none otherwise. -/
theorem nearest_word_is_suggested :
    (∀ a b : String, IsLeast {n | Edits n a.toList b.toList} (distance a b) ∧
      distance a b = levenshtein a.toList b.toList) ∧
    ∀ (given : String) (words : List String), given ≠ "" →
      (∀ word, suggest? given words = some word ↔
        IsNearest given words word ∧ distance given word ≤ 2) ∧
      (suggest? given words = none ↔
        ¬∃ word, IsNearest given words word ∧ distance given word ≤ 2) := by
  refine ⟨fun a b => ⟨?_, distance_eq_levenshtein a b⟩, fun given words h => ⟨fun word => ?_, ?_⟩⟩
  · rw [distance_eq_levenshtein]
    exact isLeast_levenshtein a.toList b.toList
  · exact suggest?_eq_some_iff h
  · rw [Option.eq_none_iff_forall_ne_some, not_exists]
    exact forall_congr' fun word => not_congr (suggest?_eq_some_iff h)

/-- The first of two keywords that are equally near. -/
theorem tie_is_suggested : "fi" ≠ "" ∧
    suggest? "fi" Parser.directiveKeywords = some "if" ∧
    IsNearest "fi" Parser.directiveKeywords "if" ∧ distance "fi" "if" = distance "fi" "for" := by
  have hgiven : "fi" ≠ "" := by decide
  have hrun : suggest? "fi" Parser.directiveKeywords = some "if" := by decide
  have hnearest := ((nearest_word_is_suggested.2 _ _ hgiven).1 _).mp hrun
  exact ⟨hgiven, hrun, hnearest.1, by decide⟩

end HclSyntax.Spelling
