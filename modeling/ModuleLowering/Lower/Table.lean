import ModuleLowering.Lower.Arrange

/-!
What is known about a module's imports and exports. All tables keep the order in which their keys
came in.
-/

set_option autoImplicit false

namespace ModuleLowering

/-- Values by name, in order of first insertion. -/
structure OrderedMap (α : Type) where
  entries : List (String × α)
  deriving Repr

namespace OrderedMap

variable {α : Type}

def empty : OrderedMap α := ⟨[]⟩

def get? (m : OrderedMap α) (key : String) : Option α :=
  (m.entries.find? fun (k, _) => k == key).map Prod.snd

def size (m : OrderedMap α) : Nat := m.entries.length

def isEmpty (m : OrderedMap α) : Bool := m.entries.isEmpty

def updateEntries (key : String) (initial : α) (f : α → α) : List (String × α) → List (String × α)
  | [] => [(key, f initial)]
  | (k, a) :: rest =>
    if k = key then (k, f a) :: rest else (k, a) :: updateEntries key initial f rest

/-- Changes the value of a key; one that is missing starts out as `initial`. -/
def update (m : OrderedMap α) (key : String) (initial : α) (f : α → α) : OrderedMap α :=
  ⟨updateEntries key initial f m.entries⟩

/-- The last value inserted for a key counts; the key keeps its place. -/
def insert (m : OrderedMap α) (key : String) (a : α) : OrderedMap α := m.update key a fun _ => a

end OrderedMap

inductive Specifier where
  | default (name : String)
  | namespace (name : String)
  | named (name imported : String)
  deriving DecidableEq, Repr

structure ImportGroup where
  specifiers : List Specifier
  /-- The greatest priority any of them asks for. -/
  priority : Priority
  /-- The place of the first of them. -/
  span : Option Span
  deriving DecidableEq, Repr

abbrev ImportTable := OrderedMap ImportGroup

namespace ImportTable

def record (t : ImportTable) (source : String) (span : Option Span) (priority : Priority)
    (specifiers : List Specifier) : ImportTable :=
  t.update source ⟨[], Priority.ordinary, span⟩ fun g =>
    { g with specifiers := g.specifiers ++ specifiers, priority := max g.priority priority }

def spanOf (t : ImportTable) (source : String) : Option Span :=
  (t.get? source).bind ImportGroup.span

end ImportTable

/-- For each exported variable, the names it is exported under. -/
abbrev ExportTable := OrderedMap (List String)

def ExportTable.add (t : ExportTable) (name exported : String) : ExportTable :=
  t.update name [] (· ++ [exported])

inductive Redirect where
  | binding (name : String)
  | member (object property : String)
  deriving DecidableEq, Repr

abbrev RedirectTable := OrderedMap Redirect

abbrev RequireTable := OrderedMap String

structure NameList where
  names : List String
  deriving DecidableEq, Repr

namespace NameList

def empty : NameList := ⟨[]⟩

def insert (l : NameList) (name : String) : NameList :=
  if l.names.contains name then l else ⟨l.names ++ [name]⟩

def isEmpty (l : NameList) : Bool := l.names.isEmpty

end NameList

end ModuleLowering
