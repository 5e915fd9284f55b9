import ModuleLowering.Token.Lexer
import ModuleLowering.Tree.Form

/-!
Reading a text token by token. A `Parse` either produces a value and moves on, or gives up; giving
up keeps the list of parentheses already known not to open an arrow function, so that no choice
is explored twice.
-/

set_option autoImplicit false

namespace ModuleLowering

structure Dialect where
  hasTypes : Bool
  hasTags : Bool
  isModule : Bool
  /-- Only declarations, none of which needs a value or a body. -/
  isDefinition : Bool
  deriving DecidableEq, Repr

structure Surroundings where
  allowIn : Bool
  inGenerator : Bool
  inAsync : Bool
  inFunction : Bool
  /-- Inside `declare`, where constants need no value and functions no body. -/
  isAmbient : Bool
  /-- Inside the first branch of a conditional, where a colon ends the branch. -/
  beforeColon : Bool
  deriving DecidableEq, Repr

structure Cursor where
  dialect : Dialect
  around : Surroundings
  token : Token
  here : List Char
  after : List Char
  start : Nat
  stop : Nat
  /-- A line break stands before the token. -/
  lineBreak : Bool
  lastStop : Nat
  comments : List Comment
  /-- Starts of parentheses that open no arrow function. -/
  notArrow : List Nat
  /-- Where the last expression in parentheses began and ended. -/
  wrapped : Nat × Nat

inductive Parsed (α : Type) where
  | done (value : α) (next : Cursor)
  | refused (notArrow : List Nat)

def Parse (α : Type) : Type := Cursor → Parsed α

namespace Parse

variable {α β : Type}

protected def pure (a : α) : Parse α := fun c => .done a c

protected def bind (p : Parse α) (f : α → Parse β) : Parse β := fun c =>
  match p c with
  | .done a c' => f a c'
  | .refused n => .refused n

instance : Monad Parse where
  pure := Parse.pure
  bind := Parse.bind

def fail : Parse α := fun c => .refused c.notArrow

def orElse (p : Parse α) (q : Unit → Parse α) : Parse α := fun c =>
  match p c with
  | .done a c' => .done a c'
  | .refused n => q () { c with notArrow := n }

instance : OrElse (Parse α) where
  orElse := Parse.orElse

def optional (p : Parse α) : Parse (Option α) := (some <$> p) <|> Parse.pure none

def cursor : Parse Cursor := fun c => .done c c

def set (c : Cursor) : Parse Unit := fun _ => .done () c

def guard (b : Bool) : Parse Unit := if b then Parse.pure () else fail

def within (change : Surroundings → Surroundings) (p : Parse α) : Parse α := fun c =>
  match p { c with around := change c.around } with
  | .done a c' => .done a { c' with around := c.around }
  | .refused n => .refused n

/-- Repeats a step until it says to stop; the number of repetitions is bounded by the text. -/
def loopN (step : α → Parse (α × Bool)) : Nat → α → Parse α
  | 0, _ => fail
  | n + 1, a => fun c =>
    match step a c with
    | .done (a', true) c' => loopN step n a' c'
    | .done (a', false) c' => .done a' c'
    | .refused r => .refused r

def loop (init : α) (step : α → Parse (α × Bool)) : Parse α := fun c =>
  loopN step (c.after.length + 2) init c

end Parse

namespace Cursor

private def readAt (c : Cursor) (read : List Char → Token × List Char) (text : List Char)
    (pos : Nat) : Cursor :=
  let (token, after) := read text
  let stop := pos + byteLength (text.take (text.length - after.length))
  { c with token, here := text, after, start := pos, stop }

def advance (c : Cursor) : Cursor :=
  let opener := c.token == .punct "=" || c.token == .punct "("
  let (gap, text) := Gap.skip .blanks ⟨[], false, false, opener, true⟩ c.after
  let start := c.stop + byteLength (c.after.take (c.after.length - text.length))
  let read := if gap.isClosed then readToken else fun cs => (.bad, cs)
  let next := readAt { c with lastStop := c.stop, lineBreak := gap.lineBreak } read text start
  { next with comments := gap.pending.map (fun m => { m with anchor := start }) ++ c.comments }

def ofText (dialect : Dialect) (text : List Char) (offset : Nat) : Cursor :=
  let around : Surroundings := ⟨true, false, dialect.isModule, false, dialect.isDefinition, false⟩
  let (gap, rest) := Gap.skip .blanks ⟨[], true, true, false, true⟩ text
  let start := offset + byteLength (text.take (text.length - rest.length))
  let read := if gap.isClosed then readToken else fun cs => (.bad, cs)
  let c : Cursor := ⟨dialect, around, .bad, [], [], 0, 0, true, 0, [], [], (0, 0)⟩
  let first := readAt c read rest start
  { first with comments := gap.pending.map fun m => { m with anchor := start } }

/-- Reads the current token anew with another reader. -/
def reread (c : Cursor) (read : List Char → Token × List Char) : Cursor :=
  readAt c read c.here c.start

/-- Reads on right behind the current token, blanks included. -/
def advanceRaw (c : Cursor) (read : List Char → Token × List Char) : Cursor :=
  readAt { c with lastStop := c.stop, lineBreak := false } read c.after c.stop

end Cursor

namespace Parse

def token : Parse Token := fun c => .done c.token c

def dialect : Parse Dialect := fun c => .done c.dialect c

def around : Parse Surroundings := fun c => .done c.around c

def start : Parse Nat := fun c => .done c.start c

/-- Moves past the current token; text that is no token stops the reading. -/
def advance : Parse Unit := fun c =>
  match c.token with
  | .bad => .refused c.notArrow
  | .endOfText => .refused c.notArrow
  | _ => .done () c.advance

def isPunct (p : String) : Parse Bool := fun c => .done (c.token == .punct p) c

def isWord (w : String) : Parse Bool := fun c => .done (c.token == .word w false) c

def isWordHere (w : String) : Parse Bool :=
  fun c => .done (c.token == .word w false && !c.lineBreak) c

def punct (p : String) : Parse Unit := fun c =>
  if c.token == .punct p then .done () c.advance else .refused c.notArrow

def keyword (w : String) : Parse Unit := fun c =>
  if c.token == .word w false then .done () c.advance else .refused c.notArrow

def skipPunct (p : String) : Parse Bool := fun c =>
  if c.token == .punct p then .done true c.advance else .done false c

def skipWord (w : String) : Parse Bool := fun c =>
  if c.token == .word w false then .done true c.advance else .done false c

def nextIs (p : Cursor → Bool) : Parse Bool := fun c => .done (p c.advance) c

def node (form : Form) (start : Nat) (parts : List Node) : Parse Node := fun c =>
  .done (.mk form (some ⟨start, c.lastStop⟩) parts) c

/-- Whether what was read since `start` is one expression in parentheses. -/
def isWrappedFrom (start : Nat) : Parse Bool := fun c => .done (c.wrapped == (start, c.lastStop)) c

/-- The end of a statement: a semicolon, or where one may be left out. -/
def semicolon : Parse Unit := fun c =>
  match c.token with
  | .punct ";" => .done () c.advance
  | .punct "\x7d" => .done () c
  | .endOfText => .done () c
  | _ => if c.lineBreak then .done () c else .refused c.notArrow

/-- Items up to a closing punctuator, which is taken; separated by commas, the last of which may
stand before the end. -/
def commaList {α : Type} (close : String) (item : Parse α) : Parse (List α) := do
  let items ← loop ([] : List α) fun acc => do
    if ← skipPunct close then return (acc, false)
    let a ← item
    if ← skipPunct "," then return (a :: acc, true)
    punct close
    return (a :: acc, false)
  return items.reverse

def untilClosed {α : Type} (close : String) (item : Parse α) : Parse (List α) := do
  let items ← loop ([] : List α) fun acc => do
    if ← skipPunct close then return (acc, false)
    let a ← item
    return (a :: acc, true)
  return items.reverse

end Parse

end ModuleLowering
