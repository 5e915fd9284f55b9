import ModuleLowering.Lower.Made
import ModuleLowering.Scope.Resolve

/-!
Live bindings: reads of imports go to the module they come from, and writes of exported variables
are repeated on `exports`.
-/

set_option autoImplicit false

namespace ModuleLowering

structure LiveBindings where
  scopes : ScopeTable
  redirects : RedirectTable
  exports : ExportTable

namespace LiveBindings

/-- Whether an occurrence refers to what the module itself declares under the name, and not to
something inside that hides it. A name that is declared nowhere counts as the module's own. -/
def isModuleLevel (l : LiveBindings) (name : String) : Reference → Bool
  | .none => false
  | .global => l.scopes.root? name == none
  | .symbol s => l.scopes.root? name == some s

def redirect? (l : LiveBindings) (name : String) (ref : Reference) : Option Redirect :=
  (l.redirects.get? name).filter fun _ => l.isModuleLevel name ref

def tagRedirect? (l : LiveBindings) (name : String) (ref : Reference) : Option Redirect :=
  (l.redirect? name ref).filter fun r => match r with
    | .member _ property => isIdentifierName property
    | .binding _ => true

def exportedNames? (l : LiveBindings) (name : String) (ref : Reference) : Option (List String) :=
  (l.exports.get? name).filter fun _ => l.isModuleLevel name ref

def tagNode : Redirect → Node
  | .binding name => .made (.tagRef name .none) []
  | .member object property =>
    .made .tagMember [.made (.tagRef object .none) [], Made.word property]

/-- An update of an exported variable: `exports.x = x += 1`, followed by `x - 1` where the old value
is wanted. -/
def updateExpression (op : UpdateOp) (isPrefixed : Bool) (name : String) (ref : Reference)
    (names : List String) (isDropped : Bool) : Node :=
  let (forward, backward) := match op with
    | .increment => (BinaryOp.add, BinaryOp.subtract)
    | .decrement => (BinaryOp.subtract, BinaryOp.add)
  let step := Node.made (.assign (.combined forward)) [.made (.target name ref) [], Made.number 1]
  let echo := Made.exportChain names step
  if isDropped || isPrefixed then echo
  else .made .sequence [echo, .made (.binary backward) [.made (.ident name ref) [], Made.number 1]]

def update? (l : LiveBindings) (n : Node) (isDropped : Bool) : Option Node :=
  match n with
  | .mk (.update op isPrefixed) _ [.mk (.target name ref) _ _] =>
    (l.exportedNames? name ref).map fun names =>
      updateExpression op isPrefixed name ref names isDropped
  | _ => none

def echoed (l : LiveBindings) (n : Node) : Node :=
  match n with
  | .mk (.assign _) _ [.mk (.target name ref) _ _, _] =>
    match l.exportedNames? name ref with
    | some names => Made.exportChain names n
    | none => n
  | n => n

/-- The same, unless the target is one whose write is repeated already. -/
def echoedOnce {κ : Type} [DecidableEq κ] (l : LiveBindings) (target : κ) (n : Node) :
    StateM (List κ) Node :=
  match n with
  | .mk (.assign _) _ [.mk (.target name ref) _ _, _] =>
    match l.exportedNames? name ref with
    | some names => do
      if target ∈ (← get) then return n
      else
        modify (target :: ·)
        return Made.exportChain names n
    | none => pure n
  | n => pure n

def calleeRedirect? (l : LiveBindings) : Node → Option Redirect
  | .mk (.ident name ref) _ _ => l.redirect? name ref
  | _ => none

end LiveBindings

/-- Whether the `i`-th of `count` parts of a construct can give the value that a program, or an
arrow function without braces, completes with. Of a list of statements only the last can. -/
def Form.completes (f : Form) (outer : Bool) (count i : Nat) : Bool :=
  match f with
  | .program .. | .body _ | .block | .namespaceBody _ | .switchStmt | .switchCase =>
    outer && i + 1 == count
  | .function _ | .staticBlock => false
  | .arrow _ isExpression _ => isExpression
  | _ => outer

/-- A property whose value is no longer a name needs its key written out. -/
def Form.truthful (f : Form) (parts : List Node) : Form :=
  match f, parts with
  | .property true computed, [_, value] => .property (value.form matches .ident ..) computed
  | f, _ => f

mutual

/-- Makes the names in a tree live. `completes` says whether the value of this statement may be
that of the program. -/
def Node.live (l : LiveBindings) (completes : Bool) : Node → Node
  | .mk (.ident name ref) s ps =>
    match l.redirect? name ref with
    | some r => r.toNode
    | none => .mk (.ident name ref) s ps
  | .mk (.tagRef name ref) s ps =>
    match l.tagRedirect? name ref with
    | some r => LiveBindings.tagNode r
    | none => .mk (.tagRef name ref) s ps
  | .mk (.call isOptional) s (callee :: args) =>
    match l.calleeRedirect? callee with
    | some r =>
      .mk (.call isOptional) s (Made.detached r.toNode :: Node.liveParts l completes
        (.call isOptional) 1 args)
    | none =>
      .mk (.call isOptional) s (callee.live l completes :: Node.liveParts l completes
        (.call isOptional) 1 args)
  | .mk .chain s [.mk (.call isOptional) s' ps] =>
    -- The call that a chain ends in keeps its callee.
    .mk .chain s [.mk (.call isOptional) s' (Node.liveParts l completes (.call isOptional) 0 ps)]
  | .mk (.update op isPrefixed) s ps =>
    match l.update? (.mk (.update op isPrefixed) s ps) false with
    | some e => e
    | none =>
      .mk (.update op isPrefixed) s (Node.liveParts l completes (.update op isPrefixed) 0 ps)
  | .mk .expression s [e] =>
    match l.update? e (!completes) with
    | some e' => .mk .expression s [e']
    | none => .mk .expression s [e.live l completes]
  | .mk (.assign op) s ps =>
    l.echoed (.mk (.assign op) s (Node.liveParts l completes (.assign op) 0 ps))
  | .mk f s ps =>
    let ps' := Node.liveParts l completes f 0 ps
    .mk (f.truthful ps') s ps'

def Node.liveParts (l : LiveBindings) (completes : Bool) (f : Form) (i : Nat) :
    List Node → List Node
  | [] => []
  | p :: ps =>
    p.live l (f.completes completes (i + ps.length + 1) i) ::
      Node.liveParts l completes f (i + 1) ps

end

mutual

/-- Makes the names in a tree live, and repeats no write twice: the targets whose writes are
repeated are kept, each by the key of its place in the tree. In a place the last step comes
first. -/
def Node.liveOnce {κ : Type} [DecidableEq κ] (l : LiveBindings) (key : List Nat → κ)
    (completes : Bool) (place : List Nat) : Node → StateM (List κ) Node
  | .mk (.ident name ref) s ps => pure ((Node.mk (.ident name ref) s ps).live l completes)
  | .mk (.tagRef name ref) s ps => pure ((Node.mk (.tagRef name ref) s ps).live l completes)
  | .mk (.call isOptional) s (callee :: args) => do
    let callee' ← match l.calleeRedirect? callee with
      | some r => pure (Made.detached r.toNode)
      | none => callee.liveOnce l key completes (0 :: place)
    let args' ← Node.livePartsOnce l key completes place (.call isOptional) 1 args
    return .mk (.call isOptional) s (callee' :: args')
  | .mk .chain s [.mk (.call isOptional) s' ps] => do
    let ps' ← Node.livePartsOnce l key completes (0 :: place) (.call isOptional) 0 ps
    return .mk .chain s [.mk (.call isOptional) s' ps']
  | .mk (.update op isPrefixed) s ps =>
    match l.update? (.mk (.update op isPrefixed) s ps) false with
    | some e => do
      modify (key (0 :: place) :: ·)
      return e
    | none => do
      let ps' ← Node.livePartsOnce l key completes place (.update op isPrefixed) 0 ps
      return .mk (.update op isPrefixed) s ps'
  | .mk .expression s [e] =>
    match l.update? e (!completes) with
    | some e' => do
      modify (key (0 :: 0 :: place) :: ·)
      return .mk .expression s [e']
    | none => do
      let e' ← e.liveOnce l key completes (0 :: place)
      return .mk .expression s [e']
  | .mk (.assign op) s ps => do
    let ps' ← Node.livePartsOnce l key completes place (.assign op) 0 ps
    l.echoedOnce (key (0 :: place)) (.mk (.assign op) s ps')
  | .mk f s ps => do
    let ps' ← Node.livePartsOnce l key completes place f 0 ps
    return .mk (f.truthful ps') s ps'

def Node.livePartsOnce {κ : Type} [DecidableEq κ] (l : LiveBindings) (key : List Nat → κ)
    (completes : Bool) (place : List Nat) (f : Form) (i : Nat) :
    List Node → StateM (List κ) (List Node)
  | [] => pure []
  | p :: ps => do
    let p' ← p.liveOnce l key (f.completes completes (i + ps.length + 1) i) (i :: place)
    let ps' ← Node.livePartsOnce l key completes place f (i + 1) ps
    return p' :: ps'

end

def LiveBindings.changes (l : LiveBindings) : Node → Nat
  | .mk (.ident name ref) _ _ => if (l.redirect? name ref).isSome then 1 else 0
  | .mk (.tagRef name ref) _ _ => if (l.tagRedirect? name ref).isSome then 1 else 0
  | .mk (.assign _) _ (.mk (.target name ref) _ _ :: _) | .mk (.update ..) _
    [.mk (.target name ref) _ _] =>
    if (l.exportedNames? name ref).isSome then 1 else 0
  | _ => 0

mutual

def Node.liveChanges (l : LiveBindings) : Node → Nat
  | .mk f s ps => l.changes (.mk f s ps) + Node.liveChangesInParts l ps

def Node.liveChangesInParts (l : LiveBindings) : List Node → Nat
  | [] => 0
  | p :: ps => p.liveChanges l + Node.liveChangesInParts l ps

end

end ModuleLowering
