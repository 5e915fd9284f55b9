import ModuleLowering.Proofs.Lower.ExportWrite
import ModuleLowering.Proofs.Trace.Behaviour

/-!
What the code of a program can do to its variables and to `exports`. Assignments, updates and what
comes one after the other are followed closely. Of everything else, each part can run at any time,
and functions can be called whenever code runs that is not known. Only made-up code is taken to
reach the `exports` of the runtime; where a declaration may hide that, the names of the program are
looked up first.
-/

set_option autoImplicit false

namespace ModuleLowering

inductive Action where
  | assignment (op : AssignOp) (name : String) (ref : Reference)
  | exporting (name : String)
  | update (isPrefixed : Bool) (name : String) (ref : Reference)
  | target (name : String) (ref : Reference)
  | ident (name : String) (ref : Reference)
  | tag
  | boolean (value : Bool)
  | other (f : Form)

namespace Action

def ofAssign (op : AssignOp) (name? : Option (String × Reference)) (property? : Option String) :
    Action :=
  match name?, op, property? with
  | some (x, ref), op, _ => .assignment op x ref
  | none, .plain, some name => .exporting name
  | none, op, _ => .other (.assign op)

def ofUpdate (op : UpdateOp) (isPrefixed : Bool) (name? : Option (String × Reference)) : Action :=
  match name? with
  | some (x, ref) => .update isPrefixed x ref
  | none => .other (.update op isPrefixed)

end Action

def Node.action : Node → Action
  | .mk (.assign op) _ [t, _] => .ofAssign op t.target? t.exportsProperty?
  | .mk (.update op isPrefixed) _ [t] => .ofUpdate op isPrefixed t.target?
  | .mk (.target x ref) _ _ => .target x ref
  | .mk (.ident x ref) _ _ => .ident x ref
  | .mk (.tagRef ..) _ _ => .tag
  | .mk (.boolean b) _ _ => .boolean b
  | .mk f _ _ => .other f

inductive Node.Acts : Node → Action → Prop
  | assignment (op : AssignOp) (s : Option Span) (t e : Node) {x : String} {ref : Reference}
    (target : t.target? = some (x, ref)) : Acts (.mk (.assign op) s [t, e]) (.assignment op x ref)
  | exporting (s : Option Span) (t e : Node) {name : String}
    (property : t.exportsProperty? = some name) :
    Acts (.mk (.assign .plain) s [t, e]) (.exporting name)
  | update (op : UpdateOp) (isPrefixed : Bool) (s : Option Span) (t : Node) {x : String}
    {ref : Reference} (target : t.target? = some (x, ref)) :
    Acts (.mk (.update op isPrefixed) s [t]) (.update isPrefixed x ref)
  | target (x : String) (ref : Reference) (s : Option Span) (ps : List Node) :
    Acts (.mk (.target x ref) s ps) (.target x ref)
  | ident (x : String) (ref : Reference) (s : Option Span) (ps : List Node) :
    Acts (.mk (.ident x ref) s ps) (.ident x ref)
  | tag (x : String) (ref : Reference) (s : Option Span) (ps : List Node) :
    Acts (.mk (.tagRef x ref) s ps) .tag
  | boolean (b : Bool) (s : Option Span) (ps : List Node) :
    Acts (.mk (.boolean b) s ps) (.boolean b)
  | other (f : Form) (s : Option Span) (ps : List Node) : Acts (.mk f s ps) (.other f)

theorem Node.acts (n : Node) : n.Acts n.action := by
  unfold action
  split
  · next op s t e =>
    cases target : t.target? with
    | some written => exact .assignment op s t e target
    | none =>
      cases op with
      | combined op => exact .other _ s _
      | plain =>
        cases property : t.exportsProperty? with
        | some name => exact .exporting s t e property
        | none => exact .other _ s _
  · next op isPrefixed s t =>
    cases target : t.target? with
    | some written => exact .update op isPrefixed s t target
    | none => exact .other _ s _
  · exact .target _ _ _ _
  · exact .ident _ _ _ _
  · exact .tag _ _ _ _
  · exact .boolean _ _ _
  · exact .other _ _ _

namespace Form

/-- Whether the `i`-th part of a construct is a place that is written. A type around such a place
changes nothing. -/
def writesPart (f : Form) (isWritten : Bool) (i : Nat) : Bool :=
  match f with
  | .assign _ | .update .. | .forIn | .forOf _ | .targetShorthand | .targetDefault | .targetRest =>
    i == 0
  | .targetArray | .targetObject => true
  | .targetProperty _ => i == 1
  | .asType | .satisfiesType | .nonNull => isWritten && i == 0
  | .typeAssertion => isWritten && i == 1
  | _ => false

def isStatement : Form → Bool
  | .expression | .empty | .block | .varDecl .. | .ifStmt | .forStmt | .forIn | .forOf
    _ | .whileStmt | .doWhile | .withStmt
  | .switchStmt | .tryStmt | .returnStmt | .throwStmt | .breakStmt _ | .continueStmt
    _ | .labeled _ | .debugger
  | .enumDecl .. | .namespaceDecl .. => true
  | .function traits => traits.role == .declaration
  | .classDef traits => !traits.isExpression
  | _ => false

def isDeferred : Form → Bool
  | .function _ | .arrow .. | .classDef _ => true
  | _ => false

/-- The parts of a construct in the order they run, if that is known and each of them runs once. A
variable is declared when its value is known. -/
def ordered? {α : Type} (f : Form) (parts : List α) : Option (List α) :=
  match f with
  | .program .. | .expression | .sequence | .varDecl .. => some parts
  | .declarator _ => some parts.reverse
  | _ => none

end Form

structure Setting (V : Type) where
  /-- What functions do when they are called. -/
  later : Language (Effect V)
  ofBool : Bool → V

section
variable {V : Type} (w : Setting V)

include w in
theorem Setting.nonempty : Nonempty V := ⟨w.ofBool true⟩

def Form.composed (f : Form) (ks : List (Behaviour V)) : Behaviour V :=
  match f.ordered? ks with
  | some ks => .inOrder (ks ++ [.idle w.later])
  | none => .mixed w.later ks

def Form.behaviour (f : Form) (ks : List (Behaviour V)) : Behaviour V :=
  if f.isStatement then .opening (f.composed w ks) else f.composed w ks

def Action.behaviour (isWritten : Bool) (action : Action) (ks : List (Behaviour V)) : Behaviour V :=
  match action with
  | .assignment .plain x ref => .assigning x ref (ks.getLastD (.idle w.later))
  | .assignment (.combined op) x ref =>
    .combining w.later x ref op.isLogical (ks.getLastD (.idle w.later))
  | .exporting name => .exporting name (ks.getLastD (.idle w.later))
  | .update isPrefixed x ref => .updating w.later x ref isPrefixed
  | .target x ref => .taking x ref
  | .ident x ref => if isWritten then .casting w.later x ref else .idle w.later
  | .tag => .idle w.later
  | .boolean b => .constant (w.ofBool b)
  | .other f => f.behaviour w ks

mutual

def Node.runs (isWritten : Bool) : Node → Behaviour V
  | .mk f s ps => (mk f s ps).action.behaviour w isWritten (runsOfParts f isWritten 0 ps)

def Node.runsOfParts (f : Form) (isWritten : Bool) (i : Nat) : List Node → List (Behaviour V)
  | [] => []
  | p :: ps => p.runs (f.writesPart isWritten i) :: runsOfParts f isWritten (i + 1) ps

end

end

inductive Site where
  | variable (way : Way) (name : String) (ref : Reference)
  | property (name : String)
  deriving DecidableEq, Repr

/-- The parts of a node that run. The place that an assignment or an update names is none of
them. -/
def Action.used {α : Type} (action : Action) (parts : List α) : List α :=
  match action with
  | .assignment .. | .exporting _ => parts.getLast?.toList
  | .other _ => parts
  | .update .. | .target .. | .ident .. | .tag | .boolean _ => []

def Action.writesHere (isWritten : Bool) : Action → List Site
  | .assignment _ x ref | .update _ x ref => [.variable .direct x ref]
  | .exporting name => [.property name]
  | .target x ref => [.variable .taken x ref]
  | .ident x ref => if isWritten then [.variable .cast x ref] else []
  | .tag | .boolean _ | .other _ => []

mutual

def Node.writes (isWritten : Bool) : Node → List Site
  | .mk f s ps =>
    (mk f s ps).action.writesHere isWritten ++
      ((mk f s ps).action.used (writesOfParts f isWritten 0 ps)).flatten

def Node.writesOfParts (f : Form) (isWritten : Bool) (i : Nat) : List Node → List (List Site)
  | [] => []
  | p :: ps => p.writes (f.writesPart isWritten i) :: writesOfParts f isWritten (i + 1) ps

end

mutual

def Node.deferred : Node → List Node
  | .mk f s ps =>
    (if f.isDeferred then [.mk f s ps] else []) ++
      ((mk f s ps).action.used (deferredOfParts ps)).flatten

def Node.deferredOfParts : List Node → List (List Node)
  | [] => []
  | p :: ps => p.deferred :: deferredOfParts ps

end

theorem Action.used_map {α β : Type} (g : α → β) (a : Action) (parts : List α) :
    a.used (parts.map g) = (a.used parts).map g := by
  cases a with
  | assignment | exporting =>
    simp only [used, List.getLast?_map]
    cases parts.getLast? <;> rfl
  | update | target | ident | tag | boolean | other => rfl

namespace Node

variable {V : Type}

theorem runsOfParts_eq_mapIdx (w : Setting V) (f : Form) (isWritten : Bool) (i : Nat)
    (ps : List Node) :
    runsOfParts w f isWritten i ps = ps.mapIdx fun j p =>
      p.runs w (f.writesPart isWritten (i + j)) := by
  induction ps generalizing i with
  | nil => rfl
  | cons p ps ih =>
    rw [runsOfParts, ih, List.mapIdx_cons]
    simp only [Nat.add_zero, Nat.add_assoc, Nat.add_comm 1]

theorem runs_mk (w : Setting V) (isWritten : Bool) (f : Form) (s : Option Span) (ps : List Node) :
    (mk f s ps).runs w isWritten =
      (mk f s ps).action.behaviour w isWritten
      (ps.mapIdx fun i p => p.runs w (f.writesPart isWritten i)) := by
  rw [runs, runsOfParts_eq_mapIdx]
  simp only [Nat.zero_add]

theorem writesOfParts_eq_mapIdx (f : Form) (isWritten : Bool) (i : Nat) (ps : List Node) :
    writesOfParts f isWritten i ps = ps.mapIdx fun j p =>
      p.writes (f.writesPart isWritten (i + j)) := by
  induction ps generalizing i with
  | nil => rfl
  | cons p ps ih =>
    rw [writesOfParts, ih, List.mapIdx_cons]
    simp only [Nat.add_zero, Nat.add_assoc, Nat.add_comm 1]

theorem writes_mk (isWritten : Bool) (f : Form) (s : Option Span) (ps : List Node) :
    (mk f s ps).writes isWritten = (mk f s ps).action.writesHere isWritten ++
      ((mk f s ps).action.used (ps.mapIdx fun i p => p.writes
      (f.writesPart isWritten i))).flatten := by
  rw [writes, writesOfParts_eq_mapIdx]
  simp only [Nat.zero_add]

theorem deferredOfParts_eq_map (ps : List Node) : deferredOfParts ps = ps.map deferred := by
  induction ps with
  | nil => rfl
  | cons p ps ih => rw [deferredOfParts, ih, List.map_cons]

theorem deferred_mk (f : Form) (s : Option Span) (ps : List Node) :
    (mk f s ps).deferred =
      (if f.isDeferred then [mk f s ps] else []) ++
      ((mk f s ps).action.used (ps.map deferred)).flatten := by
  rw [deferred, deferredOfParts_eq_map]

/-- What is around the code of a program whose functions call each other to a depth. -/
def setting (ofBool : Bool → V) (program : Node) : Nat → Setting V
  | 0 => ⟨0, ofBool⟩
  | depth + 1 =>
    ⟨Behaviour.anyOf (program.deferred.map (·.runs (program.setting ofBool depth) false)), ofBool⟩

theorem ofBool_setting (ofBool : Bool → V) (program : Node) (depth : Nat) :
    (program.setting ofBool depth).ofBool = ofBool := by
  cases depth <;> rfl

/-- What a program can do if its functions call each other to a depth. -/
def runsAt (ofBool : Bool → V) (program : Node) (depth : Nat) : Behaviour V :=
  program.runs (program.setting ofBool depth) false

end Node

end ModuleLowering
