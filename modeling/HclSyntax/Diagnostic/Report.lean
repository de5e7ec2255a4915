import HclSyntax.Diagnostic.Basic
import HclSyntax.Utf8

namespace HclSyntax

inductive ColorMode where
  | auto | always | never
  deriving DecidableEq, Repr

def ColorMode.isColored (mode : ColorMode) (terminal : Bool) : Bool :=
  match mode with
  | .auto => terminal
  | .always => true
  | .never => false

/-- The character codes of a line of source and of the carets below it. -/
structure Snippet where
  lineNumber : Nat
  text : List Char
  indent : Nat
  carets : Nat
  deriving DecidableEq, Repr

namespace Snippet

/-- Cuts a text after so many bytes, if that is between two of its characters. -/
def splitAtByte? : Nat → List Char → Option (List Char × List Char)
  | 0, text => some ([], text)
  | _ + 1, [] => none
  | n + 1, c :: text =>
    if c.utf8Size ≤ n + 1 then
      (splitAtByte? (n + 1 - c.utf8Size) text).map fun (a, b) => (c :: a, b)
    else none

def lastLine (text : List Char) : List Char := (text.reverse.takeWhile (· ≠ '\n')).reverse

def dropReturns (line : List Char) : List Char := (line.reverse.dropWhile (· = '\r')).reverse

/-- The line that a range starts on, with a caret below each of its characters in the range and
one caret at least. A range that runs past the line is marked to its end. -/
def locate? (source : List Char) (subject : SourceRange) : Option Snippet := do
  let start := subject.start.byte.toNat
  let (before, after) ← splitAtByte? start source
  let head := lastLine before
  let lineStart := start - Utf8.byteLength head
  let text := dropReturns (head ++ after.takeWhile (· ≠ '\n'))
  let caretEnd ←
    if subject.stop.byte.toNat ≤ lineStart + Utf8.byteLength text then
      (splitAtByte? (max subject.stop.byte.toNat start - lineStart) (head ++ after)).map (·.1.length)
    else some text.length
  return ⟨subject.start.line.toNat, text, head.length, max 1 (caretEnd - head.length)⟩

end Snippet

structure Report where
  colored : Bool
  /-- The text that the diagnostics are about, if its lines are to be shown. -/
  source : Option String

namespace Report

def red : String := "\x1b[1;31m"
def yellow : String := "\x1b[1;33m"
def bold : String := "\x1b[1m"
def blue : String := "\x1b[1;34m"
def plain : String := "\x1b[0m"

def severityColor : Severity → String
  | .error => red
  | .warning => yellow

def paint (r : Report) (color text : String) : String :=
  if r.colored then color ++ text ++ plain else text

def repeated (n : Nat) (c : Char) : String := String.ofList (List.replicate n c)

def snippet (r : Report) (severity : Severity) (s : Snippet) : String :=
  let number := toString s.lineNumber
  let bar := r.paint blue (repeated number.length ' ' ++ " |")
  let marks := repeated s.indent ' ' ++ repeated s.carets '^'
  bar ++ "\n" ++ r.paint blue (number ++ " |") ++ " " ++ String.ofList s.text ++ "\n" ++
    bar ++ " " ++ r.paint (severityColor severity) marks ++ "\n"

def diagnostic (r : Report) (d : Diagnostic) : String :=
  let lines := match r.source.bind fun s => Snippet.locate? s.toList d.subject with
    | some s => r.snippet d.severity s
    | none => ""
  r.paint (severityColor d.severity) d.severity.text ++ r.paint bold ("[" ++ d.code.text ++ "]") ++
    ": " ++ d.summary ++ "\n  --> " ++ d.subject.toText ++ "\n" ++ lines ++
    (if d.detail.isEmpty then "" else "  = " ++ d.detail ++ "\n") ++ "\n"

def diagnostics (r : Report) (ds : List Diagnostic) : String := String.join (ds.map r.diagnostic)

def counted (n : Nat) (noun : String) : String :=
  toString n ++ " " ++ noun ++ if n = 1 then "" else "s"

def summary (r : Report) (errors warnings : Nat) : String :=
  if 0 < errors then
    r.paint red "error" ++ ": " ++ counted errors "error" ++
      (if 0 < warnings then "; " ++ counted warnings "warning" else "") ++ " emitted\n"
  else if 0 < warnings then
    r.paint yellow "warning" ++ ": " ++ counted warnings "warning" ++ " emitted\n"
  else ""

end Report

end HclSyntax
