import ModuleLowering.Grammar.Program
import ModuleLowering.Print.Statement
import ModuleLowering.Print.Tag

/-!
Whole programs as text.
-/

set_option autoImplicit false

namespace ModuleLowering

namespace Print

def rule (p : Printer) : Printer := fun n place =>
  let found : Option (Print Unit) :=
    expression? p n place <|> pattern? p n <|> function? p n place <|> statementFrom? p n <|>
      statementPart? p n place <|> tag? p n <|> type? p n <|> typeDeclaration? p n
  match n with
  | .mk (.varDecl kind isDeclared) _ ds => varDecl p kind isDeclared ds place
  | _ => found.getD (pure ())

/-- The rules, tied together for trees up to a depth. -/
def node : Nat → Printer
  | 0 => fun _ _ => pure ()
  | depth + 1 => rule (node depth)

end Print

/-- The text of a program. Comments are placed where a construct starts that carries the offset they
stand before. -/
def Node.print (n : Node) (comments : List Comment) (hasTags : Bool) : String :=
  match n with
  | .mk (.program hashbang directives) span statements =>
    let p := Print.node (Node.depthOfParts statements + 1)
    let job : Print Unit := do
      match hashbang with
      | some line => Print.emit (line ++ "\n")
      | none => pure ()
      Print.directivesAndStatements p directives statements
      match span with
      | some s => Print.comments (← Print.takeComments s.stop)
      | none => pure ()
    (job.run ⟨"", 0, false, comments, hasTags⟩).2.text
  | _ => ((Print.node (n.depth + 1) n .plain).run ⟨"", 0, false, comments, hasTags⟩).2.text

end ModuleLowering
