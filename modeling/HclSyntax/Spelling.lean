namespace HclSyntax.Spelling

/-- The rest of a row of distances, right of `left`. The row above it is given from the place above
`left` on. -/
def fillRow (c : Char) (left : Nat) : List Char → List Nat → List Nat
  | d :: b, diagonal :: above :: row =>
    let x := min (min (above + 1) (left + 1)) (diagonal + if c = d then 0 else 1)
    x :: fillRow c x b (above :: row)
  | _, _ => []

/-- The distances of a word with one more letter `c` to the beginnings of `b`. -/
def nextRow (b : List Char) (row : List Nat) (c : Char) : List Nat :=
  let first := row.headD 0 + 1
  first :: fillRow c first b row

/-- The fewest insertions, deletions and substitutions of a character that lead from `a` to `b`. -/
def distance (a b : String) : Nat :=
  (a.toList.foldl (nextRow b.toList) (List.range (b.toList.length + 1))).getLastD 0

def furthest : Nat := 2

def better (best : Option (String × Nat)) (word : String) (d : Nat) : Option (String × Nat) :=
  match best with
  | some (w, e) => if e ≤ d then some (w, e) else some (word, d)
  | none => some (word, d)

/-- The word nearest to `given`, the first of several. Nothing is meant by an empty word. -/
def suggest? (given : String) (words : List String) : Option String :=
  if given.isEmpty then none
  else
    let best := words.foldl (fun best word =>
      let d := distance given word
      if furthest < d then best else better best word d) none
    best.map (·.1)

end HclSyntax.Spelling
