import ModuleLowering.Proofs.Lower.DeclaredName
import ModuleLowering.Proofs.Scope.Resolution

/-!
What the statements of a lowered module declare when they are written out.
-/

set_option autoImplicit false

namespace ModuleLowering

def Helper.localNames : Helper → List String
  | interopDefault => ["obj"]
  | interopWildcard => ["obj", "newObj", "key", "desc"]

def Item.declaredNames : Item → List String
  | .requireBinding binding _ _ => [binding]
  | .importVariable name _ _ => [name]
  | .exportValue _ value _ | .moduleExports value _ => value.declaredNames false
  | .exportStar .. => ["key"]
  | .kept statement => statement.declaredNames false
  | .helperFunction helper name => name :: helper.localNames
  | _ => []

def Item.isWellFormed : Item → Bool
  | .exportValue _ value _ | .moduleExports value _ => value.isWellFormed
  | .kept statement => statement.isWellFormed
  | _ => true

def Item.isMade : Item → Bool
  | .exportValue .. | .moduleExports .. | .kept _ => false
  | _ => true

section Made

-- Made-up code is looked through down to its nodes, property accesses and repeated exports apart.
attribute [local simp] Made.varDeclaration Made.expression Made.exportAssignment Made.moduleExports
  Made.defineExport Made.require Made.assign Made.object Made.getter Made.function Made.exportStar
  Made.string Made.parameter Made.word Made.ident Made.call Made.number Node.made Node.absent

attribute [local simp] Helper.declare Helper.declaration Helper.placed Helper.copyLoop Helper.block
  Helper.conditional Helper.binary Helper.ifStmt Helper.index Helper.isModuleObject

section
attribute [local simp] Node.declaredNames Node.declaredNamesOfParts Form.declaredNames
  Form.declaresIn Made.declaredNames_member Made.declaredNames_exportChain

theorem Imported.declaredNames_toNode (v : Imported) (outer : Bool) :
    v.toNode.declaredNames outer = [] := by
  cases v <;> simp [toNode]

theorem Helper.declaredNames_declare (h : Helper) (name : String) :
    (h.declare name).declaredNames false = name :: h.localNames := by
  cases h <;> simp [localNames]

theorem Item.declaredNames_toNode (item : Item) :
    item.toNode.declaredNames false = item.declaredNames := by
  cases item
  case helperFunction helper name => exact helper.declaredNames_declare name
  case kept => rfl
  case moduleFlag isPlain => cases isPlain <;> simp [toNode, declaredNames]
  all_goals simp [toNode, declaredNames, Imported.declaredNames_toNode]

end

section
attribute [local simp] Node.isWellFormed Node.areWellFormed Form.fits

theorem Made.isWellFormed_member (object : Node) (property : String) :
    (member object property).isWellFormed = object.isWellFormed := by
  simp only [member]
  split <;> simp

theorem Made.isWellFormed_exportChain (names : List String) (value : Node) :
    (exportChain names value).isWellFormed = value.isWellFormed := by
  induction names generalizing value with
  | nil => rfl
  | cons name names ih => exact (ih _).trans (by simp [isWellFormed_member])

theorem Imported.isWellFormed_toNode (v : Imported) : v.toNode.isWellFormed = true := by
  cases v <;> simp [toNode, Made.isWellFormed_member]

theorem Item.isWellFormed_toNode (item : Item) : item.toNode.isWellFormed = item.isWellFormed := by
  cases item
  case kept => rfl
  case helperFunction helper name =>
    cases helper <;> simp [toNode, isWellFormed, Made.isWellFormed_member]
  case moduleFlag isPlain => cases isPlain <;> simp [toNode, isWellFormed, Made.isWellFormed_member]
  all_goals
    simp [toNode, isWellFormed, Made.isWellFormed_member, Made.isWellFormed_exportChain,
      Imported.isWellFormed_toNode]

end

section
attribute [local simp] Node.isUnresolved Node.areUnresolved

theorem Made.isUnresolved_member (object : Node) (property : String) :
    (member object property).isUnresolved = object.isUnresolved := by
  simp only [member]
  split <;> simp

theorem Made.isUnresolved_requireBinding (binding path : String) (span : Option Span) :
    (varDeclaration binding (require path) span).isUnresolved = true := by
  simp

theorem Helper.isUnresolved_declare (h : Helper) (name : String) :
    (h.declare name).isUnresolved = true := by
  cases h <;> simp [Made.isUnresolved_member]

theorem Made.isUnresolved_exportChain (names : List String) (value : Node) :
    (exportChain names value).isUnresolved = value.isUnresolved := by
  induction names generalizing value with
  | nil => rfl
  | cons name names ih => exact (ih _).trans (by simp [isUnresolved_member])

theorem Imported.isUnresolved_toNode (v : Imported) : v.toNode.isUnresolved = true := by
  cases v <;> simp [toNode, Made.isUnresolved_member]

theorem Item.isUnresolved_toNode {item : Item} (made : item.isMade = true) :
    item.toNode.isUnresolved = true := by
  cases item
  case kept | exportValue | moduleExports => cases made
  case helperFunction helper name => exact helper.isUnresolved_declare name
  case moduleFlag isPlain => cases isPlain <;> simp [toNode, Made.isUnresolved_member]
  all_goals
    simp [toNode, Made.isUnresolved_member, Made.isUnresolved_exportChain,
      Imported.isUnresolved_toNode]

end

end Made

theorem Made.varDeclaration_introduces {x : String} {value : Node}
    (absent : x ∉ value.declaredNames true) (span : Option Span) :
    (varDeclaration x value span).Introduces .varName x := by
  intro isStrict scope t inside
  refine ⟨(ScopeContext.program isStrict).declaring .varName, value.declaredNames true,
    ⟨rfl, rfl, rfl, rfl⟩, absent, ?_⟩
  exact Node.declare_enters value ((ScopeContext.program isStrict).declaring .varName)
    (2 :: 0 :: scope) _ (by simp) (ScopeContext.program_inner isStrict)

theorem Node.function_introduces {x : String} {traits : FunctionTraits}
    (role : traits.role = .declaration) {parts : List Node}
    (absent : x ∉ declaredNamesOfParts false (.function traits) 1 parts) (span : Option Span) :
    (mk (.function traits) span (.made (.binder x none) [] :: parts)).Introduces .function x := by
  intro isStrict scope t inside
  let all := made (.binder x none) [] :: parts
  let c := (ScopeContext.program isStrict).part scope (.function traits) all 0
  have own : c.kind = some .function ∧ c.home = [] ∧ c.varHome = [] ∧ c.passed = [] ∧
    c.alsoIn = [] := by
    simp only [c, ScopeContext.part, role]
    exact ⟨rfl, rfl, rfl, rfl, rfl⟩
  have inner (i : Nat) : ((ScopeContext.program isStrict).part scope (.function traits)
    all i).Inner :=
    (ScopeContext.Within.part scope _ _ _ i).inner inside (ScopeContext.program_inner isStrict)
  refine ⟨c, _, own.2, absent, ?_⟩
  have name : (((made (.binder x none) []).declare c (0 :: scope)).run t).2 =
    (c.declare .function x t).2 := by
    simp only [made, declare_run, Form.enter, own.1]
    rfl
  simp only [declare_run, Form.enter, declareParts_cons]
  rw [name]
  exact declareParts_enters parts _ scope _ all 1 _ inner

theorem Helper.declare_introduces {h : Helper} {x : String} (absent : x ∉ h.localNames) :
    (h.declare x).Introduces .function x := by
  have names := h.declaredNames_declare x
  cases h <;>
    · rw [← (List.cons.inj names).2] at absent
      exact Node.function_introduces rfl absent _

end ModuleLowering
