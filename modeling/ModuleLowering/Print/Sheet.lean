import ModuleLowering.Token.Basic
import ModuleLowering.Tree.Form

/-!
The sheet a program is printed on: the text so far, the indentation, and the comments that are
still to be placed.
-/

set_option autoImplicit false

namespace ModuleLowering

structure Sheet where
  text : String
  indent : Nat
  /-- The next indentation is a single blank: something already stands on the line. -/
  spaceNext : Bool
  comments : List Comment
  /-- Tags are allowed, so that a lone type parameter needs a comma after it. -/
  hasTags : Bool

abbrev Print := StateM Sheet

namespace Print

def emit (s : String) : Print Unit := modify fun sheet => { sheet with text := sheet.text ++ s }

def newline : Print Unit := emit "\n"

def indentation : Print Unit := modify fun sheet =>
  if sheet.spaceNext then { sheet with text := sheet.text ++ " ", spaceNext := false }
  else { sheet with text := sheet.text ++ String.ofList (List.replicate sheet.indent '\t') }

def spaceNext : Print Unit := modify fun sheet => { sheet with spaceNext := true }

def deeper (inside : Print Unit) : Print Unit := do
  modify fun sheet => { sheet with indent := sheet.indent + 1 }
  inside
  modify fun sheet => { sheet with indent := sheet.indent - 1 }

def braces (isOneLine : Bool) (inside : Print Unit) : Print Unit := do
  emit "\x7b"
  if isOneLine then inside
  else
    newline
    deeper inside
    indentation
  emit "\x7d"

def wrapIf (needed : Bool) (inside : Print Unit) : Print Unit := do
  if needed then emit "("
  inside
  if needed then emit ")"

def separated (separator : String) : List (Print Unit) → Print Unit
  | [] => pure ()
  | [p] => p
  | p :: ps => do
    p
    emit separator
    separated separator ps

def each (ps : List (Print Unit)) : Print Unit := separated "" ps

def splitLines (cs : List Char) : List (List Char) :=
  go [] cs
where
  go (line : List Char) : List Char → List (List Char)
    | [] => [line.reverse]
    | '\r' :: '\n' :: cs => line.reverse :: go [] cs
    | c :: cs => if isLineBreak c then line.reverse :: go [] cs else go (c :: line) cs

/-- Lines of a comment after the first start at the current indentation. -/
def comment (c : Comment) : Print Unit := do
  let isMargin (ch : Char) : Bool := isBlank ch || isLineBreak ch || ch.toNat == 0x85
  match splitLines c.text.toList with
  | [] => pure ()
  | first :: rest =>
    emit (String.ofList first)
    for line in rest do
      newline
      if !("/*".toList.isPrefixOf line) then indentation
      emit (String.ofList (line.dropWhile isMargin))

def takeComments (anchor : Nat) : Print (List Comment) := do
  let sheet ← get
  match sheet.comments.partition (·.anchor == anchor) with
  | ([], _) => return []
  | (here, others) =>
    set { sheet with comments := others }
    return here

def endsLine (c : Comment) : Bool := !c.isBlock || c.beforeLineBreak

def commentRun : Comment → List Comment → Print Unit
  | c, [] => do
    comment c
    if endsLine c then newline else spaceNext
  | c, next :: rest => do
    comment c
    if endsLine c then
      newline
      indentation
    else emit " "
    commentRun next rest

def comments : List Comment → Print Unit
  | [] => pure ()
  | first :: rest => do
    let sheet ← get
    if !first.afterLineBreak || sheet.text.endsWith "\n" then indentation
    else if !(sheet.text.endsWith "\t" || sheet.text.isEmpty) then
      newline
      indentation
    commentRun first rest

def commentsAt (span : Option Span) : Print Unit := do
  match span with
  | some s => comments (← takeComments s.start)
  | none => pure ()

end Print

end ModuleLowering
