import ModuleLowering.Proofs.Trace.Run

/-!
What the statements of a lowered module make of the object `exports`. A property has a value or a
getter. What was defined anew stays as it is, what was assigned can still be defined, and a getter
is not assigned to. Any code can stop with an error. Of the statements that were made up, those that
define properties stop where a property cannot be defined again.
-/

set_option autoImplicit false

namespace ModuleLowering

open Computability

structure Supply (V : Type) where
  keys : String → List String
  distinct : ∀ path, (keys path).Nodup
  entry : (path key : String) → V
  whole : String → V
  wrapped : String → V
  defaultOf : String → V

/-- Code that a getter runs, with a name that may be bound in it. -/
structure Closure where
  code : Node
  bound : Option (String × String)

inductive Content (V : Type) where
  | value (v : V)
  | getter (closure : Closure)

structure Property (V : Type) where
  content : Content V
  /-- It can be neither defined again nor assigned to. -/
  isFixed : Bool

def Property.isAssignable {V : Type} : Property V → Bool
  | ⟨.value _, isFixed⟩ => !isFixed
  | ⟨.getter _, _⟩ => false

abbrev ExportsObject (V : Type) := String → Option (Property V)

namespace ExportsObject

variable {V : Type}

def put (E : ExportsObject V) (name : String) (v : V) : ExportsObject V :=
  if (E name).all (·.isAssignable) then Function.update E name (some ⟨.value v, false⟩) else E

/-- `Object.defineProperty(exports, name, content)`, which can fail. What can be defined again stays
so. -/
def define? (E : ExportsObject V) (name : String) (content : Content V) :
    Option (ExportsObject V) :=
  if (E name).any (·.isFixed) then none
    else some (Function.update E name (some ⟨content, (E name).isNone⟩))

theorem put_of_ne {E : ExportsObject V} {name x : String} {v : V} (other : x ≠ name) :
    E.put name v x = E x := by
  unfold put
  split
  · exact Function.update_of_ne other _ _
  · rfl

def after (E : ExportsObject V) : List (Effect V) → ExportsObject V
  | [] => E
  | .exported name v :: τ => (E.put name v).after τ
  | _ :: τ => E.after τ

end ExportsObject

namespace Node

def madeName? (n : Node) : Option String :=
  match n.form with
  | .ident x .none => some x
  | _ => none

def isObjectMethod (name : String) : Node → Bool
  | .mk (.member _) _ [o, p] => o.madeName? == some "Object" && p.word? == some name
  | _ => false

def definition? : Node → Option (Node × Node)
  | .mk (.call _) _ [callee, _, o, key, descriptor] =>
    if callee.isObjectMethod "defineProperty" && o.isExportsObject
      then some (key, descriptor) else none
  | _ => none

def returned? : Node → Option Node
  | .mk (.function _) _
      [_, _, .mk .parameters _ [], _, .mk (.body _) _ [.mk .returnStmt _ [value]]] => some value
  | _ => none

def boolean? (n : Node) : Option Bool :=
  match n.form with
  | .boolean b => some b
  | _ => none

end Node

inductive Descriptor where
  | value (b : Bool)
  | getter (code : Node)

inductive LoopStep where
  /-- `if (key === name) return;` -/
  | skip (name : String)
  /-- `Object.defineProperty(exports, key, …);` with a getter -/
  | define (code : Node)

inductive Instruction where
  | define (name : String) (descriptor : Descriptor)
  /-- `Object.keys(binding).forEach(function (key) { … });` -/
  | loop (binding key : String) (steps : List LoopStep)
  /-- `var binding = require("path");` -/
  | load (binding path : String)

namespace Node

def descriptor? : Node → Option Descriptor
  | .mk .object _ [.mk (.property false false) _ [k, v]] =>
    if k.word? == some "value" then v.boolean?.map .value else none
  | .mk .object _ [.mk (.property false false) _ [k, v], .mk (.property false false) _ [k', v']] =>
    if k.word? == some "enumerable" && v.boolean? == some true && k'.word? == some "get"
      then v'.returned?.map .getter
    else none
  | _ => none

def getterCode? (n : Node) : Option Node :=
  match n.descriptor? with
  | some (.getter code) => some code
  | _ => none

def defined? (n : Node) : Option Instruction := do
  let (key, descriptor) ← n.definition?
  return .define (← key.string?) (← descriptor.descriptor?)

def loopStep? (key : String) : Node → Option LoopStep
  | .mk .ifStmt _ [.mk (.binary .strictEqual) _ [x, name], .mk .returnStmt _ _, _] =>
    if x.madeName? == some key then name.string?.map .skip else none
  | .mk .expression _ [e] => do
    let (x, descriptor) ← e.definition?
    if x.madeName? == some key then descriptor.getterCode?.map .define else none
  | _ => none

def loop? : Node → Option Instruction
  | .mk (.call _) _ [.mk (.member _) _ [.mk (.call _) _ [callee, _, b], method], _,
      .mk (.function _) _ [_, _, .mk .parameters _ [.mk (.parameter _) _ [p, _, _]], _,
      .mk (.body _) _ statements]] => do
    if callee.isObjectMethod "keys" && method.word? == some "forEach" then
      let key ← p.plainName?
      return .loop (← b.madeName?) key (← statements.mapM (loopStep? key))
    else none
  | _ => none

def load? : Node → Option Instruction
  | .mk (.varDecl ..) _ [.mk (.declarator _) _ [p, _, .mk (.call _) _ [f, _, path]]] => do
    let path ← path.string?
    if f.madeName? == some "require" then p.plainName?.map (.load · path) else none
  | _ => none

/-- What a statement does, if it reaches for `exports` other than by assignments, or loads a
module. -/
def instruction? : Node → Option Instruction
  | .mk .expression _ [e] => e.defined? <|> e.loop?
  | n => n.load?

end Node

structure Room (V : Type) where
  modules : String → Option String
  exports : ExportsObject V

namespace Room

variable {V : Type}

def empty : Room V := ⟨fun _ => none, fun _ => none⟩

end Room

section
variable {V : Type} (S : Supply V)

namespace Node

variable (modules : String → Option String)

def module? (n : Node) : Option String := n.madeName?.bind modules

def helped? : Node → Option String
  | .mk (.call _) _ [_, _, o] => o.module? modules
  | _ => none

def valueIn (bound : Option (String × String)) : Node → Option V
  | .mk (.member _) _ [o, p] =>
    match o.module? modules with
    | some path => p.word?.map (S.entry path)
    | none => if p.word? == some "default" then (o.helped? modules).map S.defaultOf else none
  | .mk (.index _) _ [o, p] => do
    let path ← o.module? modules
    let key ← p.string? <|> (bound.filter fun b => p.madeName? == some b.1).map Prod.snd
    return S.entry path key
  | n => (n.module? modules).map S.whole <|> (n.helped? modules).map S.wrapped

end Node

def Room.read (room : Room V) (name : String) : Option V :=
  (room.exports name).bind fun p => match p.content with
    | .value v => some v
    | .getter c => c.code.valueIn S room.modules c.bound

namespace LoopStep

def defines (key : String) : List LoopStep → Bool
  | [] => false
  | .skip name :: steps => key ≠ name && defines key steps
  | .define _ :: _ => true

def round? (parameter key : String) : List LoopStep → ExportsObject V → Option
    (ExportsObject V)
  | [], E => some E
  | .skip name :: steps, E => if key = name then some E else round? parameter key steps E
  | .define code :: steps, E =>
    (E.define? key (.getter ⟨code, some (parameter, key)⟩)).bind (round? parameter key steps)

end LoopStep

/-- The properties that an instruction defines. -/
def Instruction.keys (modules : String → Option String) : Instruction → List String
  | .define name _ => [name]
  | .loop binding _ steps =>
    ((modules binding).toList.flatMap S.keys).filter (LoopStep.defines · steps)
  | .load .. => []

variable (ofBool : Bool → V)

def Descriptor.content : Descriptor → Content V
  | .value b => .value (ofBool b)
  | .getter code => .getter ⟨code, none⟩

def Instruction.run? (room : Room V) : Instruction → Option (Room V)
  | .define name descriptor =>
    (room.exports.define? name (descriptor.content ofBool)).map fun E => { room with exports := E }
  | .loop binding parameter steps => do
    let path ← room.modules binding
    let E ← (S.keys path).foldlM (fun E key => LoopStep.round? parameter key steps E) room.exports
    return { room with exports := E }
  | .load binding path =>
    some { room with modules := Function.update room.modules binding (some path) }

/-- Whether a form can give code the object of exports: as what the runtime gives the module,
through `eval`, or, outside functions, as `this` or among the `arguments`. -/
def Form.handsExports (isInside : Bool) : Form → Bool
  | .ident x .global | .target x .global | .tagRef x .global =>
    x ∈ ["exports", "module", "require", "eval"] || !isInside && x == "arguments"
  | .thisExpr => !isInside
  | _ => false

def Form.ownsThis : Form → Bool
  | .function _ | .staticBlock => true
  | _ => false

mutual

def Node.handlesExports (isInside : Bool) : Node → Bool
  | .mk f _ ps => f.handsExports isInside || handleExports (isInside || f.ownsThis) ps

def Node.handleExports (isInside : Bool) : List Node → Bool
  | [] => false
  | p :: ps => p.handlesExports isInside || handleExports isInside ps

end

variable (w : Setting V)

/-- Loading a module runs its code, which can call functions. -/
def Instruction.calls : Instruction → Language (Effect V)
  | .load .. => w.later∗
  | .define .. | .loop .. => 1

inductive Node.Steps (n : Node) (room : Room V) : Room V → List (Effect V) → Prop
  | instruction {i : Instruction} {room' : Room V} {τ : List (Effect V)}
    (known : n.instruction? = some i) (done : i.run? S w.ofBool room = some room')
    (called : τ ∈ i.calls w) : Steps n room { room' with exports := room'.exports.after τ } τ
  | code {τ : List (Effect V)} (other : n.instruction? = none)
    (ended : τ ∈ (n.runs w false).ended) :
    Steps n room { room with exports := room.exports.after τ } τ
  /-- Nothing is known of code that has the object itself. -/
  | free (E : ExportsObject V) (τ : List (Effect V))
    (handles : n.handlesExports false = true) : Steps n room { room with exports := E } τ

inductive Node.Stops (n : Node) (room : Room V) : Prop
  | instruction {i : Instruction} (known : n.instruction? = some i)
    (fails : i.run? S w.ofBool room = none)
  | code {τ : List (Effect V)} (other : n.instruction? = none) (thrown : τ ∈ n.runs w false none)

inductive Reaches : List Node → Room V → Room V → List (Effect V) → Prop
  | done (room : Room V) : Reaches [] room room []
  | step {n : Node} {ns : List Node} {room room₁ room₂ : Room V} {τ τ' : List (Effect V)}
    (first : n.Steps S w room room₁ τ) (rest : Reaches ns room₁ room₂ τ') :
    Reaches (n :: ns) room room₂ (τ ++ τ')

/-- Some run of the statements comes to one of them and stops there. -/
def StopsAt (ns : List Node) (room : Room V) (n : Node) (room' : Room V) : Prop :=
  ∃ before after τ, ns = before ++ n :: after ∧ Reaches S w before room room' τ ∧
    n.Stops S w room'

/-- Some run of the statements exports a value under the name before it comes to one of them that
defines the property. -/
def ExportedBefore (ns : List Node) (room : Room V) (name : String) : Prop :=
  ∃ before n after room' τ v i, ns = before ++ n :: after ∧ Reaches S w before room room' τ ∧
    .exported name v ∈ τ ∧ n.instruction? = some i ∧ name ∈ i.keys S room'.modules

theorem reaches_concat_iff {ns : List Node} {n : Node} {room room' : Room V}
    {τ : List (Effect V)} :
    Reaches S w (ns ++ [n]) room room' τ ↔ ∃ room₁ τ₁ τ₂, Reaches S w ns room room₁ τ₁ ∧
      n.Steps S w room₁ room' τ₂ ∧ τ = τ₁ ++ τ₂ := by
  induction ns generalizing room τ with
  | nil =>
    constructor
    · intro reaches
      cases reaches with
      | step first rest =>
        cases rest
        exact ⟨room, [], _, .done room, first, List.append_nil _⟩
    · rintro ⟨room₁, τ₁, τ₂, before, last, rfl⟩
      cases before
      simpa using Reaches.step last (.done room')
  | cons n' ns ih =>
    constructor
    · intro reaches
      cases reaches with
      | step first rest =>
        obtain ⟨room₁, τ₁, τ₂, before, last, rfl⟩ := ih.mp rest
        exact ⟨room₁, _, τ₂, .step first before, last, (List.append_assoc ..).symm⟩
    · rintro ⟨room₁, τ₁, τ₂, before, last, rfl⟩
      cases before with
      | step first before =>
        rw [List.append_assoc]
        exact .step first (ih.mpr ⟨room₁, _, τ₂, before, last, rfl⟩)

end

end ModuleLowering
