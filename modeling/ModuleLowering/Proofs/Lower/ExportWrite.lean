import ModuleLowering.Proofs.Lower.Item
import ModuleLowering.Proofs.Lower.LivePath

/-!
Where a lowered module sets properties of `exports`. Made-up code reaches the object by a name that
was not looked up, so that what the module itself writes is not counted.
-/

set_option autoImplicit false

namespace ModuleLowering

inductive ExportWrite where
  /-- `exports.name = value`; such an expression can be what a variable is declared with. -/
  | assigned (into : Option String) (name : String) (value : Node)
  /-- `Object.defineProperty(exports, "name", descriptor)` -/
  | defined (name : String) (descriptor : Node)

def ExportWrite.name : ExportWrite → String
  | assigned _ name _ | defined name _ => name

namespace Node

def isExportsObject (n : Node) : Bool := n.form == .ident "exports" .none

def word? (n : Node) : Option String :=
  match n.form with
  | .word name => some name
  | _ => none

def string? (n : Node) : Option String :=
  match n.form with
  | .string value => some value
  | _ => none

def exportsProperty? : Node → Option String
  | .mk (.member _) _ [o, key] => if o.isExportsObject then key.word? else none
  | .mk (.index _) _ [o, key] => if o.isExportsObject then key.string? else none
  | _ => none

def isDefineProperty : Node → Bool
  | .mk (.member _) _ [o, p] => o.form == .ident "Object" .none && p.form == .word "defineProperty"
  | _ => false

def exportWrite? (into : Option String) : Node → Option ExportWrite
  | .mk (.assign .plain) _ [t, value] => t.exportsProperty?.map (.assigned into · value)
  | .mk (.call _) _ [callee, _, o, key, descriptor] =>
    if callee.isDefineProperty && o.isExportsObject then key.string?.map (.defined · descriptor)
      else none
  | _ => none

end Node

def Node.plainName? (n : Node) : Option String :=
  match n.form with
  | .binder x _ => some x
  | _ => none

/-- The variable that the `i`-th part of a construct gives its first value. -/
def Form.initialised? (f : Form) (ps : List Node) (i : Nat) : Option String :=
  match f, ps, i with
  | .declarator _, p :: _, 2 => p.plainName?
  | _, _, _ => none

mutual

def Node.exportWrites (into : Option String) : Node → List ExportWrite
  | .mk f s ps => ((mk f s ps).exportWrite? into).toList ++
    if f.isOccurrence then [] else exportWritesOfParts f ps 0 ps

def Node.exportWritesOfParts (f : Form) (all : List Node) (i : Nat) : List Node → List ExportWrite
  | [] => []
  | p :: ps => p.exportWrites (f.initialised? all i) ++ exportWritesOfParts f all (i + 1) ps

end

def Form.isLookedUp : Form → Bool
  | .ident _ .none => false
  | _ => true

mutual

def Node.isLookedUp : Node → Bool
  | .mk f _ ps => f.isLookedUp && areLookedUp ps

def Node.areLookedUp : List Node → Bool
  | [] => true
  | p :: ps => p.isLookedUp && areLookedUp ps

end

theorem Node.areLookedUp_iff {ps : List Node} :
    areLookedUp ps = true ↔ ∀ p ∈ ps, p.isLookedUp = true := by
  induction ps with
  | nil => simp [areLookedUp]
  | cons p ps ih => simp [areLookedUp, ih]

theorem Node.isLookedUp_mk {f : Form} {s : Option Span} {ps : List Node}
    (h : (mk f s ps).isLookedUp = true) :
    ∀ p ∈ ps, p.isLookedUp = true := by
  simp only [isLookedUp, Bool.and_eq_true, areLookedUp_iff] at h
  exact h.2

theorem Node.isExportsObject_eq_false {n : Node} (h : n.isLookedUp = true) :
    n.isExportsObject = false := by
  obtain ⟨f, s, ps⟩ := n
  by_contra found
  obtain rfl : f = .ident "exports" .none := by simpa [isExportsObject, form] using found
  cases h

theorem Node.exportsProperty?_eq_none {n : Node} (h : n.isLookedUp = true) :
    n.exportsProperty? = none := by
  unfold exportsProperty?
  split
  · next o _ => simp [isExportsObject_eq_false (isLookedUp_mk h o (by simp))]
  · next o _ => simp [isExportsObject_eq_false (isLookedUp_mk h o (by simp))]
  · rfl

theorem Node.exportWritesOfParts_eq_nil {f : Form} {all ps : List Node} (i : Nat)
    (h : ∀ p ∈ ps, ∀ into, p.exportWrites into = []) : exportWritesOfParts f all i ps = [] := by
  induction ps generalizing i with
  | nil => rfl
  | cons p ps ih =>
    rw [exportWritesOfParts, h p List.mem_cons_self, ih (i + 1) fun q among => h q
      (List.mem_cons_of_mem _ among)]
    rfl

/-- The module's own code sets no property of the runtime's `exports`. -/
theorem Node.exportWrites_of_isLookedUp {n : Node} (h : n.isLookedUp = true)
    (into : Option String) :
    n.exportWrites into = [] := by
  induction n using Node.induction generalizing into with
  | step f s ps ih =>
    have parts := isLookedUp_mk h
    have here : (mk f s ps).exportWrite? into = none := by
      unfold exportWrite?
      split
      · next t _ eq =>
        obtain ⟨-, -, rfl⟩ := mk.inj eq
        rw [exportsProperty?_eq_none (parts t (by simp))]
        rfl
      · next o _ _ eq =>
        obtain ⟨-, -, rfl⟩ := mk.inj eq
        simp [isExportsObject_eq_false (parts o (by simp))]
      · rfl
    rw [exportWrites, here, exportWritesOfParts_eq_nil 0 fun p among into => ih p among
      (parts p among) into, ite_self]
    rfl

theorem Node.exportWrites_declarator (isDefinite : Bool) (s : Option Span) (p t value : Node) :
    (mk (.declarator isDefinite) s [p, t, value]).exportWrites none =
      p.exportWrites none ++ (t.exportWrites none ++ value.exportWrites p.plainName?) := by
  simp [exportWrites, exportWritesOfParts, exportWrite?, Form.initialised?, Form.isOccurrence]

/-- Statements that do not set up a single export: the module flag, early values, and the copy of
another module. -/
def Item.isCollective : Item → Bool
  | .moduleFlag _ | .predeclaration _ | .exportStar .. => true
  | _ => false

def Item.isPreamble : Item → Bool
  | .moduleFlag _ | .predeclaration _ => true
  | _ => false

def Item.exportWrites (item : Item) : List ExportWrite :=
  if item.isCollective then [] else item.toNode.exportWrites none

section Made

attribute [local simp] Made.varDeclaration Made.expression Made.moduleExports Made.require
  Made.assign Made.object Made.function Made.exportStar Made.string Made.parameter Made.word
  Made.ident Made.call Made.number Node.made Node.absent

attribute [local simp] Helper.declare Helper.declaration Helper.placed Helper.copyLoop Helper.block
  Helper.conditional Helper.binary Helper.ifStmt Helper.index Helper.isModuleObject

attribute [local simp] Node.exportWrites Node.exportWritesOfParts Node.exportWrite?
  Form.isOccurrence Node.isExportsObject Node.form Node.string? Form.initialised? Node.plainName?

theorem Made.exportWrites_member (object : Node) (property : String) (into : Option String) :
    (member object property).exportWrites into = object.exportWrites none := by
  simp only [member]
  split <;> simp

theorem Made.exportsProperty?_member (object : Node) (property : String) :
    (member object property).exportsProperty? = if object.isExportsObject then some property
      else none := by
  simp only [member]
  split <;> rfl

theorem Made.exportWrites_exportAssignment (name : String) (value : Node) (into : Option String) :
    (exportAssignment name value).exportWrites into = .assigned into name value ::
      value.exportWrites none := by
  simp [exportAssignment, exportWrites_member, exportsProperty?_member]

theorem Made.isDefineProperty :
    (member (ident "Object") "defineProperty").isDefineProperty = true := by
  decide

theorem Imported.exportWrites_toNode (v : Imported) (into : Option String) :
    v.toNode.exportWrites into = [] := by
  cases v <;> simp [toNode, Made.exportWrites_member]

theorem Made.exportWrites_getter {value : Node} (silent : ∀ into, value.exportWrites into = [])
    (into : Option String) :
    (getter value).exportWrites into = [] := by
  simp [getter, silent]

theorem Made.exportWrites_defineExport (name : String) {descriptor : Node}
    (silent : ∀ into, descriptor.exportWrites into = []) (into : Option String) :
    (defineExport (string name) descriptor).exportWrites into = [.defined name descriptor] := by
  have callee := isDefineProperty
  simp only [ident, Node.made] at callee
  simp [defineExport, exportWrites_member, silent, callee]

theorem Made.exportWrites_expression (e : Node) (span : Option Span) :
    (expression e span).exportWrites none = e.exportWrites none := by
  simp

namespace Item

theorem exportWrites_kept (n : Node) : (kept n).exportWrites = n.exportWrites none := rfl

theorem exportWrites_exportValue (name : String) (value : Node) (span : Option Span) :
    (exportValue name value span).exportWrites = .assigned none name value ::
      value.exportWrites none :=
  (Made.exportWrites_expression _ span).trans (Made.exportWrites_exportAssignment name value none)

theorem exportWrites_exportGetter (name : String) (value : Imported) :
    (exportGetter name value).exportWrites = [.defined name (Made.getter value.toNode)] :=
  (Made.exportWrites_expression _ none).trans
    (Made.exportWrites_defineExport name (Made.exportWrites_getter value.exportWrites_toNode) none)

theorem exportWrites_moduleExports (value : Node) (span : Option Span) :
    (moduleExports value span).exportWrites = value.exportWrites none := by
  simp [exportWrites, isCollective, toNode, Made.exportWrites_member, Made.exportsProperty?_member]

def isSilent : Item → Bool
  | .kept _ | .exportValue .. | .exportGetter .. | .moduleExports .. => false
  | _ => true

theorem exportWrites_of_isSilent {item : Item} (silent : item.isSilent = true) :
    item.exportWrites = [] := by
  cases item
  case moduleFlag | predeclaration | exportStar => rfl
  case helperFunction helper name =>
    have copied : (Node.mk (.index false) none [.mk (.ident "newObj" .none) none [],
        .mk (.ident "key" .none) none []]).exportsProperty? = none := rfl
    cases helper <;>
      simp [exportWrites, isCollective, toNode, Made.exportWrites_member,
        Made.exportsProperty?_member, copied]
  case requireBinding | requireCall | importVariable | defaultAlias =>
    simp [exportWrites, isCollective, toNode, Imported.exportWrites_toNode,
      Made.exportWrites_member, Made.exportsProperty?_member]
  all_goals cases silent

/-- The copy of another module goes by names that are known only when it runs. -/
theorem exportWrites_exportStar (binding : String) (span : Option Span) :
    (exportStar binding span).toNode.exportWrites none = [] := by
  simp [toNode, Made.defineExport, Made.getter, Made.exportWrites_member]

end Item

end Made

end ModuleLowering
