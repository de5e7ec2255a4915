import HclSyntax.Text.GraphemeBreak
import HclSyntax.Text.Invisible

namespace HclSyntax

inductive BreakClass where
  | carriageReturn | lineFeed | control
  | extend | joiner | spacingMark | prepended
  | regional | pictographic | consonant
  | leading | vowel | trailing
  /-- A Hangul syllable without and with a last consonant. -/
  | openSyllable | closedSyllable
  | other
  deriving DecidableEq, Repr

namespace BreakClass

/-- Syllables that end in a vowel come every 28 code points. -/
def ofSyllable (c : Char) : BreakClass :=
  if (c.toNat - 0xAC00) % 28 = 0 then openSyllable else closedSyllable

def ofWide (c : Char) : BreakClass :=
  if c = '\u200D' then joiner
  else if CharClass.control.contains c then control
  else if CharClass.graphemeExtend.contains c || CharClass.emojiModifier.contains c then extend
  else if CharClass.spacingMark.contains c then spacingMark
  else if CharClass.prepended.contains c then prepended
  else if CharClass.regionalIndicator.contains c then regional
  else if CharClass.pictographic.contains c then pictographic
  else if CharClass.conjunctConsonant.contains c then consonant
  else if CharClass.leadingJamo.contains c then leading
  else if CharClass.vowelJamo.contains c then vowel
  else if CharClass.trailingJamo.contains c then trailing
  else if CharClass.hangulSyllable.contains c then ofSyllable c
  else other

/-- ASCII needs no table. -/
def of (c : Char) : BreakClass :=
  if c = '\r' then carriageReturn
  else if c = '\n' then lineFeed
  else if ' ' ≤ c && c ≤ '~' then other
  else ofWide c

end BreakClass

/-- How far a conjunct of consonants has come. -/
inductive Conjunct where
  | none
  /-- A consonant, perhaps with marks. -/
  | consonant
  /-- A consonant with marks of which one links it to the next. -/
  | linked
  deriving DecidableEq, Repr

def Conjunct.next (j : Conjunct) (c : Char) (k : BreakClass) : Conjunct :=
  match j, k with
  | _, .consonant => .consonant
  | .none, _ => .none
  | j, .extend =>
    if CharClass.conjunctLinker.contains c then .linked
    else if c = '\u200C' then .none
    else j
  | j, .joiner => j
  | _, _ => .none

structure ClusterState where
  last : BreakClass
  /-- Whether the cluster ends in an unpaired regional indicator. -/
  unpaired : Bool
  /-- Whether it ends in a pictograph with marks only. -/
  pictograph : Bool
  joined : Bool
  conjunct : Conjunct
  deriving DecidableEq, Repr

namespace ClusterState

def start (c : Char) : ClusterState :=
  let k := BreakClass.of c
  ⟨k, k == .regional, k == .pictographic, false, Conjunct.none.next c k⟩

def next (s : ClusterState) (c : Char) : ClusterState :=
  let k := BreakClass.of c
  { last := k
    unpaired := k == .regional && !s.unpaired
    pictograph := k == .pictographic || (s.pictograph && k == .extend)
    joined := s.pictograph && k == .joiner
    conjunct := s.conjunct.next c k }

def joins (s : ClusterState) (c : Char) : Bool :=
  match s.last, BreakClass.of c with
  | .carriageReturn, .lineFeed => true
  | .carriageReturn, _ | .lineFeed, _ | .control, _ => false
  | _, .carriageReturn | _, .lineFeed | _, .control => false
  | .leading, .leading | .leading, .vowel | .leading, .openSyllable
  | .leading, .closedSyllable => true
  | .openSyllable, .vowel | .openSyllable, .trailing | .vowel, .vowel | .vowel, .trailing => true
  | .closedSyllable, .trailing | .trailing, .trailing => true
  | _, .extend | _, .joiner | _, .spacingMark => true
  | .prepended, _ => true
  | _, .consonant => s.conjunct == .linked
  | .joiner, .pictographic => s.joined
  | .regional, .regional => s.unpaired
  | _, _ => false

end ClusterState

namespace Cluster

/-- What still belongs to a cluster in the given state, and the clusters after it. -/
def splitFrom (s : ClusterState) : List Char → List Char × List (List Char)
  | [] => ([], [])
  | c :: cs =>
    if s.joins c then
      let (first, others) := splitFrom (s.next c) cs
      (c :: first, others)
    else
      let (first, others) := splitFrom (.start c) cs
      ([], (c :: first) :: others)

/-- The extended grapheme clusters of a text, which a reader takes for characters. -/
def split : List Char → List (List Char)
  | [] => []
  | c :: cs =>
    let (first, others) := splitFrom (.start c) cs
    (c :: first) :: others

theorem splitFrom_flatten (s : ClusterState) (cs : List Char) :
    (splitFrom s cs).1 ++ (splitFrom s cs).2.flatten = cs := by
  induction cs generalizing s with
  | nil => rfl
  | cons c cs ih =>
    simp only [splitFrom]
    split <;> simp [ih]

theorem split_flatten (cs : List Char) : (split cs).flatten = cs := by
  cases cs with
  | nil => rfl
  | cons c cs => simp [split, splitFrom_flatten]

end Cluster

end HclSyntax
