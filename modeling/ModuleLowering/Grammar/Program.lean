import ModuleLowering.Grammar.Module
import ModuleLowering.Tree.Names

/-!
Whole programs.
-/

set_option autoImplicit false

namespace ModuleLowering

namespace Parse

def rule (g : Goal → Parse Node) : Goal → Parse Node
  | .statement => statement g
  | .block => block g
  | .expression => expression g
  | .assignment => assignment g
  | .operators above => operators g above
  | .unary => unary g
  | .postfixed => postfixed g
  | .construct => construct g
  | .pattern => pattern g
  | .classDef isExpression => classAt g isExpression
  | .element => element g
  | .type => type g

/-- The rules, tied together for constructs nested up to a depth. -/
def goal : Nat → Goal → Parse Node
  | 0 => fun _ => fail
  | depth + 1 => rule (goal depth)

end Parse

structure Source where
  program : Node
  comments : List Comment

def takeHashbang (cs : List Char) : Option String × List Char :=
  match cs with
  | '#' :: '!' :: _ =>
    let line := cs.takeWhile fun c => !isLineBreak c
    (some (String.ofList line), cs.drop line.length)
  | _ => (none, cs)

/-- Reads a program; nothing if the text is not one. Outside typed code, no name may be exported
twice. -/
def Source.parse (dialect : Dialect) (text : String) : Option Source :=
  let cs := text.toList
  let (hashbang, rest) := takeHashbang cs
  let offset := byteLength (cs.take (cs.length - rest.length))
  let first := Cursor.ofText dialect rest offset
  let items := Parse.bodyItems (Parse.goal (12 * cs.length + 60)) fun c =>
    .done (c.token == .endOfText) c
  match items first with
  | .refused _ => none
  | .done (directives, statements) last =>
    let program := Node.mk (.program hashbang directives) (some ⟨0, byteLength cs⟩) statements
    let names := if dialect.hasTypes then [] else program.exportedNames
    if program.anyForm (· == .shorthandDefault) || !names.Nodup then none
    else some ⟨program, last.comments.reverse⟩

end ModuleLowering
