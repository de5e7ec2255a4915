import HclSyntax.Diagnostic.Problem
import HclSyntax.Template.Part

namespace HclSyntax

/-- A directive that waits for its end, with what it holds so far. -/
inductive Frame where
  /-- The second branch is there once its directive was met. -/
  | conditional (condition : Expr) (range : SourceRange) (ifTrue : List Expr)
      (ifFalse : Option (List Expr))
  | loop (keyVar : Option String) (valueVar : String) (collection : Expr) (range : SourceRange)
      (body : List Expr)

/-- A template while its parts are put together. A directive that does not fit the innermost open one
is reported, and the open one is given up for a placeholder. -/
structure Nesting where
  frames : List Frame
  exprs : List Expr
  diagnostics : List Diagnostic

namespace Nesting

def branch (exprs : List Expr) (emptyAt : SourceRange) : Expr :=
  match exprs with
  | [] => .literal (.string "") emptyAt
  | first :: others => .template exprs (.between first.range (others.getLastD first).range)

def push (n : Nesting) (e : Expr) : Nesting :=
  match n.frames with
  | [] => { n with exprs := n.exprs ++ [e] }
  | .conditional c r ifTrue none :: frames =>
    { n with frames := .conditional c r (ifTrue ++ [e]) none :: frames }
  | .conditional c r ifTrue (some ifFalse) :: frames =>
    { n with frames := .conditional c r ifTrue (some (ifFalse ++ [e])) :: frames }
  | .loop k v c r body :: frames => { n with frames := .loop k v c r (body ++ [e]) :: frames }

@[simp] theorem diagnostics_push (n : Nesting) (e : Expr) :
    (n.push e).diagnostics = n.diagnostics := by
  unfold push
  split <;> rfl

def fail (n : Nesting) (p : Problem) (range : SourceRange) : Nesting :=
  push { n with diagnostics := n.diagnostics ++ [p.toDiagnostic range none] }
    (.placeholder range)

def closeConditional (condition : Expr) (start : SourceRange) (ifTrue : List Expr)
    (ifFalse : Option (List Expr)) (stop : SourceRange) : Expr :=
  .conditional condition (branch ifTrue start.endPoint)
    (branch (ifFalse.getD []) (.point stop.filename stop.start)) (.between start stop)

def closeLoop (keyVar : Option String) (valueVar : String) (collection : Expr)
    (start : SourceRange) (body : List Expr) (stop : SourceRange) : Expr :=
  let range := SourceRange.between start stop
  .templateJoin (.comprehension keyVar valueVar collection none (branch body start.endPoint) none
    false start stop range) range

def directive (n : Nesting) (d : Directive) (range : SourceRange) : Nesting :=
  match d, n.frames with
  | .ifStart condition, frames =>
    { n with frames := .conditional condition range [] none :: frames }
  | .forStart k v collection, frames => { n with frames := .loop k v collection range [] :: frames }
  | .elseMark, .conditional c r ifTrue none :: frames =>
    { n with frames := .conditional c r ifTrue (some []) :: frames }
  | .elseMark, .conditional _ r _ (some _) :: frames =>
    fail { n with frames := frames } (.secondElse r) range
  | .elseMark, .loop .. :: frames => fail { n with frames := frames } .elseInFor range
  | .elseMark, [] => n.fail (.strayDirective "else") range
  | .endif, .conditional c r ifTrue ifFalse :: frames =>
    push { n with frames := frames } (closeConditional c r ifTrue ifFalse range)
  | .endif, .loop _ _ _ r _ :: frames => fail { n with frames := frames } (.endifInFor r) range
  | .endif, [] => n.fail (.strayDirective "endif") range
  | .endfor, .loop k v c r body :: frames =>
    push { n with frames := frames } (closeLoop k v c r body range)
  | .endfor, .conditional _ r _ _ :: frames =>
    fail { n with frames := frames } (.endforInIf r) range
  | .endfor, [] => n.fail (.strayDirective "endfor") range

def part (n : Nesting) : TemplatePart → Nesting
  | .text value range => n.push (.literal (.string value) range)
  | .interpolation e _ => n.push e
  | .directive d range => n.directive d range

def missingEnd : Frame → Problem
  | .conditional _ r _ _ => .missingEndif r
  | .loop _ _ _ r _ => .missingEndfor r

/-- Gives up all open directives, from the innermost on, where the template ends. -/
def finish (n : Nesting) (stop : SourceRange) : Nesting :=
  if n.frames.isEmpty then n
  else
    { frames := []
      exprs := n.exprs ++ [.placeholder stop]
      diagnostics := n.diagnostics ++ n.frames.map fun f => (missingEnd f).toDiagnostic stop none }

def ofParts (parts : List TemplatePart) (stop : SourceRange) : List Expr × List Diagnostic :=
  let n := (parts.foldl part ⟨[], [], []⟩).finish stop
  (n.exprs, n.diagnostics)

end Nesting

end HclSyntax
