import ModuleLowering.Proofs.Evaluation.LoweredStep
import ModuleLowering.Proofs.Lower.LoweredItem

/-!
Which variables the statements in front of a lowered module mention, functions aside: what a
function mentions counts only when it is called.
-/

set_option autoImplicit false

namespace ModuleLowering

def Form.isFunction : Form → Bool
  | .function _ => true
  | _ => false

def Form.isBody : Form → Bool
  | .body _ => true
  | _ => false

def Form.mentionedName? : Form → Option String
  | .ident x _ | .target x _ | .tagRef x _ => some x
  | _ => none

mutual

/-- The variables that a tree mentions outside of the constructs to be skipped. -/
def Node.mentionedNames (skip : Form → Bool) : Node → List String
  | .mk f _ ps => if skip f then [] else f.mentionedName?.toList ++ mentionedNamesOfParts skip ps

def Node.mentionedNamesOfParts (skip : Form → Bool) : List Node → List String
  | [] => []
  | p :: ps => p.mentionedNames skip ++ mentionedNamesOfParts skip ps

end

def Item.mentionedNames : Item → List String
  | .moduleFlag isPlain => if isPlain then ["exports"] else ["Object", "exports"]
  | .predeclaration names => List.replicate names.length "exports" ++ ["undefined"]
  | .requireBinding .. | .requireCall .. => ["require"]
  | .importVariable _ value _ => value.helper?.toList ++ [value.binding]
  | .exportValue _ value _ => "exports" :: value.mentionedNames Form.isFunction
  | .exportGetter .. => ["Object", "exports"]
  | .exportStar binding _ => ["Object", binding]
  | .moduleExports value _ => "module" :: value.mentionedNames Form.isFunction
  | .defaultAlias => ["module", "exports"]
  | .kept statement => statement.mentionedNames Form.isFunction
  | .helperFunction .. => []

section Made

-- Made-up code is looked through down to its nodes, property accesses and repeated exports apart.
attribute [local simp] Made.varDeclaration Made.expression Made.exportAssignment Made.moduleExports
  Made.defineExport Made.require Made.assign Made.object Made.getter Made.function Made.exportStar
  Made.string Made.word Made.ident Made.call Node.made Node.absent

attribute [local simp] Node.mentionedNames Node.mentionedNamesOfParts Form.mentionedName?
  Form.isFunction

theorem Made.mentionedNames_member (object : Node) (property : String) :
    (member object property).mentionedNames Form.isFunction = object.mentionedNames
      Form.isFunction := by
  simp only [member]
  split <;> simp

attribute [local simp] Made.mentionedNames_member

theorem Made.mentionedNames_exportChain (names : List String) (value : Node) :
    (exportChain names value).mentionedNames Form.isFunction =
      List.replicate names.length "exports" ++ value.mentionedNames Form.isFunction := by
  induction names generalizing value with
  | nil => rfl
  | cons name names ih =>
    refine (ih (exportAssignment name value)).trans ?_
    rw [List.length_cons, List.replicate_succ']
    simp

theorem Imported.mentionedNames_toNode (v : Imported) :
    v.toNode.mentionedNames Form.isFunction = v.helper?.toList ++ [v.binding] := by
  cases v <;> simp [toNode, helper?, binding]

theorem Item.mentionedNames_toNode (item : Item) :
    item.toNode.mentionedNames Form.isFunction = item.mentionedNames := by
  cases item
  case kept => rfl
  case helperFunction helper name => cases helper <;> rfl
  case moduleFlag isPlain => cases isPlain <;> simp [toNode, mentionedNames]
  all_goals
    simp [toNode, mentionedNames, Made.mentionedNames_exportChain, Imported.mentionedNames_toNode]

end Made

theorem Item.mentionedNames_live_function {d : Node} (isFunction : d.isFunctionDeclaration = true)
    (exported : String) (span : Option Span) (l : LiveBindings) (c : Bool) :
    ((exportValue exported d.asExpression span).toNode.live l c).mentionedNames Form.isFunction =
      (exportValue exported d.asExpression span).mentionedNames := by
  obtain ⟨f, s, ps⟩ := d
  cases f
  case function t =>
    have through : (exportValue exported (Node.mk (.function t) s ps).asExpression span).toNode.live
      l c =
        (exportValue exported ((Node.mk (.function t) s ps).asExpression.live l c) span).toNode :=
      congrArg (Made.expression · span) (Made.live_exportAssignment l c exported _)
    -- Whatever the pass does inside, it is a function before and after.
    rw [through, mentionedNames_toNode]
    rfl
  all_goals cases isFunction

theorem Node.Fronts.mentionedNames_live {σ : Naming} {n : Node} {item : Item} (h : n.Fronts σ item)
    (l : LiveBindings) (c : Bool) : (item.toNode.live l c).mentionedNames Form.isFunction =
    item.mentionedNames := by
  cases h with
  | getter | star =>
    rw [Node.live_of_isUnresolved (Item.isUnresolved_toNode rfl), Item.mentionedNames_toNode]
  | @function own exported x declared =>
    have unresolved : (Item.exportValue exported (Made.ident x) none).toNode.isUnresolved =
      true := by
      have assigned : (Made.exportAssignment exported (Made.ident x)).isUnresolved = true :=
        Made.isUnresolved_exportChain [exported] (Made.ident x)
      simpa [Item.toNode, Made.expression, Node.isUnresolved, Node.areUnresolved] using assigned
    rw [Node.live_of_isUnresolved unresolved, Item.mentionedNames_toNode]
  | unnamed own default isFunction => exact Item.mentionedNames_live_function isFunction _ _ l c

theorem Draft.Placed.mentionedNames_live {r : Draft} {σ : Naming} {options : Options}
    {hints : Hints} {ns : List Node} (h : r.Placed σ options hints ns) {e : Priority × Item}
    (front : e ∈ r.top) (l : LiveBindings) (c : Bool) :
    (e.2.toNode.live l c).mentionedNames Form.isFunction = e.2.mentionedNames := by
  have same (made : e.2.isMade = true) :
      (e.2.toNode.live l c).mentionedNames Form.isFunction = e.2.mentionedNames := by
    rw [Node.live_of_isUnresolved (Item.isUnresolved_toNode made), Item.mentionedNames_toNode]
  rcases h.mem_top.mp front with ⟨l₁, n, l₂, -, opening | ⟨item, ahead, rfl⟩⟩ | ⟨path, -, here⟩
  · obtain ⟨path, -, -, rfl⟩ := Node.mem_opening.mp opening
    exact same rfl
  · exact (Node.mem_ahead ahead).mentionedNames_live l c
  · rcases ImportGroup.mem_top_emission.mp here with ⟨-, rfl⟩ | ⟨-, -, rfl⟩ | ⟨s, -, value, -, rfl⟩
    all_goals exact same rfl

theorem Specifier.helper?_value? {σ : Naming} {isStrict : Bool} {binding : String} {s : Specifier}
    {value : Imported} (given : s.value? σ isStrict binding = some value) {x : String}
    (calls : value.helper? = some x) :
    ∃ h, σ.ofHelper h = x := by
  cases s with
  | «namespace» name =>
    simp only [value?] at given
    split at given
    · cases given
    · cases given
      exact ⟨_, Option.some.inj calls⟩
  | default name =>
    cases given
    exact ⟨_, Option.some.inj calls⟩
  | named name imported =>
    simp only [value?, Option.some.injEq] at given
    subst given
    split at calls
    · exact ⟨_, Option.some.inj calls⟩
    · cases calls

def surroundingNames : List String := ["Object", "undefined", "module", "exports", "require"]

theorem surroundingNames_apart : ∀ x ∈ surroundingNames, x.toList.head? ≠ some '_' := by decide

/-- What a statement in front can mention, functions aside: besides its surroundings, the module it
reads from, a helper, and functions of the module. -/
theorem Draft.Placed.mentionedNames_cases {r : Draft} {σ : Naming} {options : Options}
    {hints : Hints} {ns : List Node} (h : r.Placed σ options hints ns) {e : Priority × Item}
    (front : e ∈ r.top) {x : String} (mentioned : x ∈ e.2.mentionedNames) :
      x ∈ surroundingNames ∨ e.2.module? = some x ∨ (∃ h, σ.ofHelper h = x) ∨
      ∃ n ∈ ns, x ∈ n.declaredNames false := by
  rcases h.mem_top.mp front with ⟨l₁, n, l₂, rfl, opening | ⟨item, ahead, rfl⟩⟩ | ⟨path, -, here⟩
  · obtain ⟨path, -, -, rfl⟩ := Node.mem_opening.mp opening
    obtain rfl : x = "require" := List.mem_singleton.mp mentioned
    exact .inl (by decide)
  · cases Node.mem_ahead ahead with
    | getter => exact .inl ((by decide : ["Object", "exports"] ⊆ surroundingNames) mentioned)
    | @star path passed span =>
      rcases List.mem_pair.mp mentioned with rfl | rfl
      · exact .inl (by decide)
      · exact .inr (.inl rfl)
    | @function own exported y declared =>
      rcases List.mem_pair.mp mentioned with rfl | rfl
      · exact .inl (by decide)
      · exact .inr (.inr (.inr ⟨n, by simp, declared⟩))
    | @unnamed own s d default isFunction =>
      have silent : d.asExpression.mentionedNames Form.isFunction = [] := by
        obtain ⟨f, s, ps⟩ := d
        cases f <;> first | rfl | cases isFunction
      obtain rfl : x = "exports" := by simpa [Item.mentionedNames, silent] using mentioned
      exact .inl (by decide)
  · rcases ImportGroup.mem_top_emission.mp here with ⟨-, rfl⟩ | ⟨-, -, rfl⟩
      | ⟨s, -, value, given, rfl⟩
    · obtain rfl : x = "require" := List.mem_singleton.mp mentioned
      exact .inl (by decide)
    · obtain rfl : x = "require" := List.mem_singleton.mp mentioned
      exact .inl (by decide)
    · rcases List.mem_append.mp mentioned with calls | reads
      · exact .inr (.inr (.inl (Specifier.helper?_value? given (Option.mem_toList.mp calls))))
      · exact .inr (.inl (congrArg some (List.mem_singleton.mp reads).symm))

theorem getD_find?_cases {α : Type} (entries : List (α × String)) (p : α × String → Bool) :
    ((entries.find? p).map Prod.snd).getD "" ∈ entries.map Prod.snd ∨
      ((entries.find? p).map Prod.snd).getD "" = "" := by
  cases found : entries.find? p with
  | none => exact .inr rfl
  | some entry => exact .inl (List.mem_map_of_mem (List.mem_of_find?_eq_some found))

theorem Draft.ofHelper_naming (r : Draft) (h : Helper) :
    r.naming.ofHelper h ∈ r.helpers.map Prod.snd ∨ r.naming.ofHelper h = "" :=
  getD_find?_cases r.helpers _

namespace Module

variable {m : Module} {options : Options} {hints : Hints} {r : Draft}

theorem Consistent.module?_of_mentioned (consistent : m.Consistent)
    (drafted : m.draft options hints = .ok r) {e : Priority × Item} (front : e ∈ r.top) {b : String}
    (known : b ∈ r.requires.entries.map Prod.snd) (mentioned : b ∈ e.2.mentionedNames) :
    e.2.module? = some b := by
  have sound := consistent.sound drafted
  have head : b.toList.head? = some '_' := (sound.fresh (List.mem_append_left _ known)).2
  rcases (placed_of_draft drafted).mentionedNames_cases front mentioned with
    outside | reads | ⟨h, rfl⟩ | ⟨n, among, declared⟩
  · exact absurd head (surroundingNames_apart b outside)
  · exact reads
  · -- Helpers and required modules have names of their own.
    rcases r.ofHelper_naming h with listed | none
    · exact absurd listed ((List.nodup_append'.mp sound.nodup_names).2.2 known)
    · rw [none] at head
      cases head
  · -- A generated name is not one that the module declares.
    exact absurd ((consistent.owned among).declared b declared)
      (consistent.foreign drafted (List.mem_append_left _ known))

end Module

end ModuleLowering
