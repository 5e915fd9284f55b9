import ModuleLowering.Proofs.Lower.DraftForm
import ModuleLowering.Proofs.Scope.RootDeclaration

/-!
The order of what is put in front of a module: what reads from a required module comes behind the
statement that requires it, each with a priority that the declarations of its path determine.
-/

set_option autoImplicit false

namespace ModuleLowering

namespace Item

def module? : Item → Option String
  | .importVariable _ value _ | .exportGetter _ value => some value.binding
  | .exportStar binding _ => some binding
  | _ => none

def loaded? : Item → Option String
  | .requireBinding _ path _ | .requireCall path _ => some path
  | _ => none

def importedName? : Item → Option String
  | .importVariable name _ _ => some name
  | _ => none

/-- A statement that loads nothing and imports nothing, and reads from `source` if it reads from a
module at all. -/
structure PassesOn (source : Option String) (item : Item) : Prop where
  loaded : item.loaded? = none
  imported : item.importedName? = none
  source : item.module? = source

theorem passesOn_of_isMade {item : Item} (own : item.isMade = false) : item.PassesOn none := by
  cases item
  case kept | exportValue | moduleExports => exact ⟨rfl, rfl, rfl⟩
  all_goals cases own

end Item

namespace Node

variable {σ : Naming} {isStrict : Bool} {hints : Hints}

theorem Binds.mem_declaredNames {n : Node} {x : String} {symbol : Option Symbol}
    (h : n.Binds x symbol) :
    x ∈ n.declaredNames true := by
  induction h with
  | here s ps => simp [declaredNames, Form.declaredNames]
  | @inside f s ps p member below ih =>
    have outer (i : Nat) : f.declaresIn true i = true := by
      have pattern := Form.isPattern_of_mem member
      cases f <;> first | rfl | cases pattern
    obtain ⟨i, found⟩ := List.mem_iff_getElem?.mp (f.bindingParts_subset ps member)
    exact List.mem_append_right _ ((mem_declaredNamesOfParts 0).mpr ⟨i, p, found, by rwa [outer]⟩)

theorem mem_declaredNames_function {t : FunctionTraits} {s : Option Span} {ps : List Node}
    {x : String} {span : Option Span}
    (named : (mk (.function t) s ps).declaredName? = some (x, span)) :
    x ∈ (mk (.function t) s ps).declaredNames false := by
  cases ps with
  | nil => cases named
  | cons b rest =>
    have bound : x ∈ b.boundNames.map Prod.fst :=
      List.mem_map.mpr ⟨_, List.mem_of_mem_head? named, rfl⟩
    obtain ⟨symbol, binds⟩ := exists_binds bound
    exact List.mem_append_right _
      ((mem_declaredNamesOfParts 0).mpr ⟨0, b, rfl, binds.mem_declaredNames⟩)

/-- What a statement can put in front: what it passes on from another module, and functions that it
exports. -/
inductive Fronts (σ : Naming) (n : Node) : Item → Prop
  | getter {path : String} (passed : n.passedPath? = some path) (exported : String)
    {value : Imported} (source : value.binding = σ.ofPath path) :
    Fronts σ n (.exportGetter exported value)
  | star {path : String} (passed : n.passedPath? = some path) (span : Option Span) :
    Fronts σ n (.exportStar (σ.ofPath path) span)
  | function (own : n.passedPath? = none) (exported : String) {x : String}
    (declared : x ∈ n.declaredNames false) :
    Fronts σ n (.exportValue exported (Made.ident x) none)
  | unnamed (own : n.passedPath? = none) {s : Option Span} {d : Node}
    (default : n = .mk .exportDefault s [d]) (isFunction : d.isFunctionDeclaration = true) :
    Fronts σ n (.exportValue "default" d.asExpression none)

theorem fronts_default (s : Option Span) {d : Node} {item : Item} (among : item ∈ d.defaultAhead) :
    Fronts σ (.mk .exportDefault s [d]) item := by
  unfold defaultAhead at among
  split at among
  · next isFunction =>
    split at among
    · next x span named =>
      rw [List.mem_singleton.mp among]
      obtain ⟨f, s', ps⟩ := d
      cases f
      case function t =>
        exact .function rfl "default" (declaredNames_only rfl (mem_declaredNames_function named))
      all_goals cases isFunction
    · rw [List.mem_singleton.mp among]
      exact .unnamed rfl rfl isFunction
  · cases among

theorem fronts_declaration (s : Option Span) {d : Node} {item : Item}
    (among : item ∈ d.declarationAhead) :
    Fronts σ (.mk .exportDeclaration s [d]) item := by
  unfold declarationAhead at among
  split at among
  · obtain ⟨⟨x, span⟩, named, rfl⟩ := List.mem_map.mp among
    exact .function rfl x (declaredNames_only rfl
      (mem_declaredNames_function (Option.mem_toList.mp named)))
  · cases among

theorem fronts_passedItem? {n n' : Node} {path : String} (passes : n.passedPath? = some path)
    {item : Item} (passed : n'.passedItem? σ (σ.ofPath path) = some item) : Fronts σ n item := by
  unfold passedItem? at passed
  split at passed
  · cases passed
    refine .getter passes _ ?_
    split <;> rfl
  · cases passed

theorem fronts_passedAll {n : Node} {path : String} (passes : n.passedPath? = some path)
    (name : Node) (span : Option Span) :
    Fronts σ n (passedAll σ isStrict (σ.ofPath path) name span) := by
  unfold passedAll
  split
  · exact .star passes span
  · refine .getter passes _ ?_
    split <;> rfl

theorem mem_ahead {n : Node} {item : Item} (among : item ∈ n.ahead σ isStrict) :
    n.Fronts σ item := by
  unfold ahead at among
  split at among
  · split at among
    · cases among
    · exact fronts_default _ among
  · split at among
    · cases among
    · exact fronts_declaration _ among
  · obtain ⟨specifier, _, passed⟩ := List.mem_filterMap.mp among
    exact fronts_passedItem? rfl passed
  · rw [List.mem_singleton.mp among]
    exact fronts_passedAll rfl _ _
  · cases among

theorem passesOn_ahead {n : Node} {item : Item} (among : item ∈ n.ahead σ isStrict) :
    item.PassesOn (n.passedPath?.map σ.ofPath) := by
  cases mem_ahead among with
  | getter passed exported source => exact ⟨rfl, rfl, by rw [passed, Item.module?, source]; rfl⟩
  | star passed span => exact ⟨rfl, rfl, by rw [passed]; rfl⟩
  | function own | unnamed own => exact ⟨rfl, rfl, by rw [own]; rfl⟩

inductive Gives : Node → Item → Prop
  | named (n : Node) (exported x : String) (ref : Reference) (s : Option Span) :
    Gives n (.exportValue exported (.mk (.ident x ref) s []) none)
  | whole {n : Node} (whole : n.IsWhole) : Gives n (.kept n)
  | declaration (s : Option Span) (d : Node) : Gives (.mk .exportDeclaration s [d]) (.kept d)
  | declarators (s : Option Span) (kind : VariableKind) (isDeclared : Bool) (s' : Option Span)
    (ds : List Node) :
    Gives (.mk .exportDeclaration s [.mk (.varDecl kind isDeclared) s' ds])
      (.kept (.mk (.varDecl kind isDeclared) s' (ds.map Draft.exportDeclarator)))
  | default (s : Option Span) {d : Node} (declares : d.isFunctionDeclaration = true ∨
    d.isClassDeclaration = true) :
    Gives (.mk .exportDefault s [d]) (.kept d)
  | value (s : Option Span) (d : Node) (span : Option Span) :
    Gives (.mk .exportDefault s [d]) (.exportValue "default" d span)
  | expression (s : Option Span) (d : Node) (span : Option Span) :
    Gives (.mk .exportDefault s [d]) (.exportValue "default" d.asExpression span)
  | assigned (s : Option Span) (e : Node) (span : Option Span) : Gives (.mk .exportAssignment s [e])
    (.moduleExports e span)

theorem Gives.isMade {n : Node} {item : Item} (h : n.Gives item) : item.isMade = false := by
  cases h <;> rfl

theorem gives_of_ahead {n : Node} {item : Item} (among : item ∈ n.ahead σ isStrict) :
    item.isMade = true ∨ n.Gives item := by
  cases mem_ahead among with
  | getter | star => exact .inl rfl
  | function => exact .inr (.named ..)
  | unnamed own default =>
    subst default
    exact .inr (.expression ..)

theorem mem_defaultInPlace (s : Option Span) {d : Node} {priority : Priority} {span : Option Span}
    {e : Priority × Item} (among : e ∈ d.defaultInPlace priority span) :
    (e.1 = priority ∨ e.1 = Priority.ordinary) ∧ Gives (.mk .exportDefault s [d]) e.2 := by
  unfold defaultInPlace at among
  split at among
  · next isFunction =>
    obtain ⟨_, _, rfl⟩ := List.mem_map.mp among
    exact ⟨.inl rfl, .default s (.inl isFunction)⟩
  · split at among
    · next isClass =>
      split at among
      · rcases List.mem_cons.mp among with rfl | later
        · exact ⟨.inl rfl, .default s (.inr isClass)⟩
        · rw [List.mem_singleton.mp later]
          exact ⟨.inr rfl, .named ..⟩
      · rw [List.mem_singleton.mp among]
        exact ⟨.inl rfl, .expression ..⟩
    · rw [List.mem_singleton.mp among]
      exact ⟨.inl rfl, .value ..⟩

theorem mem_declarationInPlace (s : Option Span) {d : Node} {priority : Priority}
    {e : Priority × Item} (among : e ∈ d.declarationInPlace priority) :
    (e.1 = priority ∨ e.1 = Priority.ordinary) ∧ Gives (.mk .exportDeclaration s [d]) e.2 := by
  unfold declarationInPlace at among
  split at among
  · rw [List.mem_singleton.mp among]
    exact ⟨.inl rfl, .declaration ..⟩
  · rcases List.mem_cons.mp among with rfl | later
    · exact ⟨.inl rfl, .declarators ..⟩
    · obtain ⟨_, _, rfl⟩ := List.mem_map.mp later
      exact ⟨.inr rfl, .named ..⟩
  · rcases List.mem_cons.mp among with rfl | later
    · exact ⟨.inl rfl, .declaration ..⟩
    · obtain ⟨_, _, rfl⟩ := List.mem_map.mp later
      exact ⟨.inr rfl, .named ..⟩

theorem mem_inPlace {n : Node} {priority : Priority} {e : Priority × Item}
    (among : e ∈ n.inPlace priority) :
    (e.1 = priority ∨ e.1 = Priority.ordinary) ∧ n.Gives e.2 := by
  unfold inPlace at among
  split at among
  case h_5 => -- a default export
    split at among
    · cases among
    · exact mem_defaultInPlace _ among
  case h_6 => -- an exported declaration
    split at among
    · cases among
    · exact mem_declarationInPlace _ among
  case h_7 => -- a list of exports
    split at among
    · cases among
    · obtain ⟨item, listed, rfl⟩ := List.mem_map.mp among
      obtain ⟨specifier, _, read⟩ := List.mem_filterMap.mp listed
      unfold listedItem? at read
      split at read
      · cases read
        refine ⟨.inr rfl, ?_⟩
        split <;> exact .named ..
      · cases read
  case h_8 => -- `export =`
    rw [List.mem_singleton.mp among]
    exact ⟨.inl rfl, .assigned ..⟩
  case h_9 notImport notFrom notAll notNamespace notDefault notDeclaration notNamed notAssigned =>
    -- any other statement
    rw [List.mem_singleton.mp among]
    exact ⟨.inl rfl, .whole ⟨notImport, notDefault, notDeclaration, notNamed, notFrom, notAll,
      notAssigned, notNamespace⟩⟩
  all_goals cases among

theorem exists_first {ns : List Node} {path : String} (passes : path ∈ ns.filterMap passedPath?) :
    ∃ l₁ n l₂, ns = l₁ ++ n :: l₂ ∧ n.passedPath? = some path ∧
      path ∉ l₁.filterMap passedPath? := by
  induction ns with
  | nil => cases passes
  | cons n ns ih =>
    by_cases here : n.passedPath? = some path
    · exact ⟨[], n, ns, rfl, here, List.not_mem_nil⟩
    · obtain ⟨n', listed, passed⟩ := List.mem_filterMap.mp passes
      have later : n' ∈ ns := (List.mem_cons.mp listed).resolve_left fun same =>
        here (same ▸ passed)
      obtain ⟨l₁, n₀, l₂, rfl, passed, absent⟩ := ih (List.mem_filterMap.mpr ⟨n', later, passed⟩)
      refine ⟨n :: l₁, n₀, l₂, rfl, passed, fun among => ?_⟩
      obtain ⟨other, listed, passed⟩ := List.mem_filterMap.mp among
      rcases List.mem_cons.mp listed with rfl | inside
      · exact here passed
      · exact absent (List.mem_filterMap.mpr ⟨other, inside, passed⟩)

theorem mem_opening {before : List Node} {n : Node} {e : Priority × Item} :
    e ∈ (n.opening σ hints before).top ↔ ∃ path, n.passedPath? = some path ∧
      path ∉ before.filterMap passedPath? ∧
      e = (hints.priorityOf n.span,
        .requireBinding (σ.ofPath path) path
        ((ImportTable.ofStatements hints before).spanOf path)) := by
  unfold opening Emission.required
  cases n.passedPath? with
  | none => simp
  | some path =>
    simp only [Option.some.injEq, exists_eq_left']
    split
    · next old => exact ⟨fun none => absurd none List.not_mem_nil, fun h => absurd old h.1⟩
    · next new =>
        exact ⟨fun here => ⟨new, List.mem_singleton.mp here⟩, fun h => List.mem_singleton.mpr h.2⟩

theorem mem_top_emissions {before ns : List Node} {e : Priority × Item} :
    e ∈ (emissions σ isStrict hints before ns).top ↔ ∃ l₁ n l₂, ns = l₁ ++ n :: l₂ ∧
      (e ∈ (n.opening σ hints (before ++ l₁)).top ∨ ∃ item ∈ n.ahead σ isStrict,
      e = (Priority.ordinary, item)) := by
  constructor
  · intro among
    induction ns generalizing before with
    | nil => cases among
    | cons n ns ih =>
      rw [emissions, Emission.top_append, List.mem_append] at among
      rcases among with here | later
      · refine ⟨[], n, ns, rfl, ?_⟩
        rw [emission, Emission.top_append, List.mem_append] at here
        rw [List.append_nil]
        refine here.imp id fun front => ?_
        obtain ⟨item, listed, rfl⟩ := List.mem_map.mp front
        exact ⟨item, listed, rfl⟩
      · obtain ⟨l₁, n', l₂, rfl, found⟩ := ih later
        refine ⟨n :: l₁, n', l₂, rfl, ?_⟩
        rwa [List.append_assoc, List.singleton_append] at found
  · rintro ⟨l₁, n, l₂, rfl, found⟩
    rw [emissions_append, emissions, Emission.top_append, Emission.top_append, emission,
      Emission.top_append]
    refine List.mem_append_right _ (List.mem_append_left _ (List.mem_append.mpr (found.imp id ?_)))
    rintro ⟨item, listed, rfl⟩
    exact List.mem_map_of_mem listed

end Node

namespace ImportGroup

variable {σ : Naming} {isStrict : Bool}

theorem mem_ordered {group : ImportGroup} {s : Specifier} :
    s ∈ group.ordered ↔ s ∈ group.specifiers := by
  simp only [ordered, List.mem_append, List.mem_filter, ← and_or_left]
  cases s.isNamespace <;> simp

theorem mem_top_emission {known : List String} {path : String} {group : ImportGroup}
    {e : Priority × Item} :
    e ∈ (group.emission σ isStrict known path).top ↔
      (group.specifiers = [] ∧ e = (Priority.ordinary, .requireCall path group.span)) ∨
      (group.specifiers ≠ [] ∧ path ∉ known ∧
        e = (group.priority, .requireBinding (σ.ofPath path) path group.span)) ∨
      ∃ s ∈ group.specifiers, ∃ value, s.value? σ isStrict (σ.ofPath path) = some value ∧
        e = (group.priority, .importVariable s.name value group.span) := by
  have bound :
      e ∈ (Emission.flatMap group.ordered
        (Specifier.emission σ isStrict (σ.ofPath path) group)).top ↔
      ∃ s ∈ group.specifiers, ∃ value, s.value? σ isStrict (σ.ofPath path) = some value ∧
        e = (group.priority, .importVariable s.name value group.span) := by
    simp only [Emission.flatMap, Specifier.emission, List.mem_flatMap, List.mem_map,
      Option.mem_toList, mem_ordered]
    exact exists_congr fun s => and_congr_right fun _ => exists_congr fun value =>
      and_congr_right fun _ => eq_comm
  unfold emission
  by_cases bare : group.specifiers = []
  · simp [bare]
  · have some : ¬ group.specifiers.isEmpty = true := by simpa using bare
    rw [if_neg some, Emission.top_append, List.mem_append, bound, Emission.required]
    by_cases old : path ∈ known
    · simp [bare, old]
    · simp [bare, old]

theorem binding_value? {binding : String} {s : Specifier} {value : Imported}
    (given : s.value? σ isStrict binding = some value) : value.binding = binding := by
  cases s with
  | «namespace» x =>
    simp only [Specifier.value?] at given
    split at given
    · cases given
    · cases given
      rfl
  | default x =>
    cases given
    rfl
  | named x imported =>
    simp only [Specifier.value?, Option.some.injEq] at given
    subst given
    split <;> rfl

end ImportGroup

namespace Node

def importPriorities (hints : Hints) (ns : List Node) (path : String) : List Priority :=
  ns.filterMap fun n => if n.importedPath? = some path then some (hints.priorityOf n.span) else none

def passPriorities (hints : Hints) (ns : List Node) (path : String) : List Priority :=
  ns.filterMap fun n => if n.passedPath? = some path then some (hints.priorityOf n.span) else none

def importPriority (hints : Hints) (ns : List Node) (path : String) : Priority :=
  (importPriorities hints ns path).foldl max Priority.ordinary

/-- The priority of the statement that requires a path: that of the first statement that passes on
exports of it, or else that of its imports. -/
def requirePriority (hints : Hints) (ns : List Node) (path : String) : Priority :=
  (passPriorities hints ns path).head?.getD (importPriority hints ns path)

theorem priority_of (hints : Hints) (ns : List Node) (path : String) :
    (ImportGroup.of hints ns path).priority = importPriority hints ns path := by
  unfold ImportGroup.of ImportGroup.ofRecords importPriority importPriorities
  generalize Priority.ordinary = start
  induction ns generalizing start with
  | nil => rfl
  | cons n ns ih =>
    cases imported : n.imported? with
    | none => simpa [importRecord?, importedPath?, imported] using ih start
    | some entry =>
      obtain ⟨other, specifiers⟩ := entry
      by_cases same : other = path
      · simpa [importRecord?, importedPath?, imported, same]
          using ih (max start (hints.priorityOf n.span))
      · simpa [importRecord?, importedPath?, imported, same] using ih start

theorem passPriorities_eq_nil {hints : Hints} {ns : List Node} {path : String}
    (absent : path ∉ ns.filterMap passedPath?) :
    passPriorities hints ns path = [] := by
  refine List.filterMap_eq_nil_iff.mpr fun n listed => if_neg fun passed => absent ?_
  exact List.mem_filterMap.mpr ⟨n, listed, passed⟩

theorem requirePriority_of_first {hints : Hints} {l₁ l₂ : List Node} {n : Node} {path : String}
    (passed : n.passedPath? = some path) (absent : path ∉ l₁.filterMap passedPath?) :
    requirePriority hints (l₁ ++ n :: l₂) path = hints.priorityOf n.span := by
  have none : passPriorities hints l₁ path = [] := passPriorities_eq_nil absent
  have split : passPriorities hints (l₁ ++ n :: l₂) path =
      passPriorities hints l₁ path ++ hints.priorityOf n.span :: passPriorities hints l₂ path := by
    simp [passPriorities, passed]
  rw [requirePriority, split, none]
  rfl

theorem requirePriority_of_absent {hints : Hints} {ns : List Node} {path : String}
    (absent : path ∉ ns.filterMap passedPath?) :
    requirePriority hints ns path = importPriority hints ns path := by
  rw [requirePriority, passPriorities_eq_nil absent]
  rfl

end Node

namespace Draft.Placed

variable {σ : Naming} {options : Options} {hints : Hints} {ns : List Node} {r : Draft}

theorem mem_top (h : r.Placed σ options hints ns) {e : Priority × Item} :
    e ∈ r.top ↔ (∃ l₁ n l₂, ns = l₁ ++ n :: l₂ ∧
        (e ∈ (n.opening σ hints l₁).top ∨ ∃ item ∈ n.ahead σ options.strict,
          e = (Priority.ordinary, item))) ∨
      ∃ path ∈ ns.filterMap Node.importedPath?,
      e ∈ (Node.groupEmission σ options.strict hints ns path).top := by
  simp only [h.top, List.mem_append, Node.mem_top_emissions, List.nil_append, List.mem_flatMap,
    List.mem_eraseDups]

theorem mem_paths (h : r.Placed σ options hints ns) {path : String} :
    path ∈ r.requires.entries.map Prod.fst ↔ path ∈ ns.filterMap Node.passedPath? ∨
      path ∈ ns.filterMap Node.importedPath? ∧ (ImportGroup.of hints ns path).specifiers ≠ [] := by
  rw [h.paths, List.mem_append, List.mem_eraseDups, List.mem_flatMap]
  constructor
  · rintro (passed | ⟨other, imported, here⟩)
    · exact .inl passed
    · rw [Node.groupEmission, ImportGroup.paths_emission] at here
      split at here
      · cases here
      · next named =>
        rw [List.mem_singleton.mp here]
        exact .inr ⟨List.mem_eraseDups.mp imported, by simpa using (not_or.mp named).1⟩
  · rintro (passed | ⟨imported, named⟩)
    · exact .inl passed
    · by_cases passed : path ∈ ns.filterMap Node.passedPath?
      · exact .inl passed
      · refine .inr ⟨path, List.mem_eraseDups.mpr imported, ?_⟩
        rw [Node.groupEmission, ImportGroup.paths_emission,
          if_neg (not_or.mpr ⟨by simpa using named, passed⟩)]
        exact List.mem_singleton_self path

theorem mem_top_module? (h : r.Placed σ options hints ns) {e : Priority × Item} {binding : String}
    (among : e ∈ r.top) (reads : e.2.module? = some binding) :
    (∃ n ∈ ns, ∃ path, n.passedPath? = some path ∧ binding = σ.ofPath path ∧
      e.1 = Priority.ordinary ∧
      e.2 ∈ n.ahead σ options.strict) ∨
    ∃ path ∈ ns.filterMap Node.importedPath?, binding = σ.ofPath path ∧
      e.1 = Node.importPriority hints ns path ∧
      ∃ s ∈ (ImportGroup.of hints ns path).specifiers, ∃ value, s.value? σ options.strict
        (σ.ofPath path) = some value ∧
        e.2 = .importVariable s.name value (ImportGroup.of hints ns path).span := by
  rcases h.mem_top.mp among with ⟨l₁, n, l₂, rfl, opening | ⟨item, listed, rfl⟩⟩
    | ⟨path, imported, here⟩
  · obtain ⟨path, -, -, rfl⟩ := Node.mem_opening.mp opening
    cases reads
  · rw [(Node.passesOn_ahead listed).source] at reads
    obtain ⟨path, passed, rfl⟩ := Option.map_eq_some_iff.mp reads
    exact .inl ⟨n, by simp, path, passed, rfl, rfl, listed⟩
  · refine .inr ⟨path, imported, ?_⟩
    rcases ImportGroup.mem_top_emission.mp here with ⟨-, rfl⟩ | ⟨-, -, rfl⟩
      | ⟨s, named, value, given, rfl⟩
    · cases reads
    · cases reads
    · refine ⟨?_, Node.priority_of hints ns path, s, named, value, given, rfl⟩
      cases reads
      exact ImportGroup.binding_value? given

theorem mem_paths_of_module? (h : r.Placed σ options hints ns) {e : Priority × Item}
    {binding : String} (among : e ∈ r.top) (reads : e.2.module? = some binding) :
    ∃ path ∈ r.requires.entries.map Prod.fst, binding = σ.ofPath path := by
  rcases h.mem_top_module? among reads with ⟨n, listed, path, passed, same, -⟩
    | ⟨path, imported, same, -, s, named, -⟩
  · exact ⟨path, h.mem_paths.mpr (.inl (List.mem_filterMap.mpr ⟨n, listed, passed⟩)), same⟩
  · exact ⟨path, h.mem_paths.mpr (.inr ⟨imported, List.ne_nil_of_mem named⟩), same⟩

section
variable (apart : ∀ p ∈ r.requires.entries.map Prod.fst, ∀ q ∈ r.requires.entries.map Prod.fst,
  σ.ofPath p = σ.ofPath q → p = q)
include apart

theorem module?_front (h : r.Placed σ options hints ns) {l₁ l₂ : List Node} (split : ns = l₁ ++ l₂)
    {path : String} (required : path ∈ r.requires.entries.map Prod.fst)
    (absent : path ∉ l₁.filterMap Node.passedPath?) {e : Priority × Item}
    (among : e ∈ (Node.emissions σ options.strict hints [] l₁).top) :
    e.2.module? ≠ some (σ.ofPath path) := by
  intro reads
  obtain ⟨k₁, n, k₂, rfl, opening | ⟨item, listed, rfl⟩⟩ := Node.mem_top_emissions.mp among
  · obtain ⟨other, -, -, rfl⟩ := Node.mem_opening.mp opening
    cases reads
  · rw [(Node.passesOn_ahead listed).source] at reads
    obtain ⟨other, passed, same⟩ := Option.map_eq_some_iff.mp reads
    have here : other ∈ (k₁ ++ n :: k₂).filterMap Node.passedPath? :=
      List.mem_filterMap.mpr ⟨n, by simp, passed⟩
    have known : other ∈ ns.filterMap Node.passedPath? := by
      rw [split, List.filterMap_append]
      exact List.mem_append_left _ here
    exact absent (apart _ (h.mem_paths.mpr (.inl known)) _ required same ▸ here)

theorem exists_split_of_passed (h : r.Placed σ options hints ns) {path : String}
    (passes : path ∈ ns.filterMap Node.passedPath?) : ∃ before span after, r.top = before ++
        (Node.requirePriority hints ns path, .requireBinding (σ.ofPath path) path span) :: after ∧
      ∀ e ∈ before, e.2.module? ≠ some (σ.ofPath path) := by
  obtain ⟨l₁, n, l₂, split, passed, absent⟩ := Node.exists_first passes
  have required := h.mem_paths.mpr (.inl passes)
  let span := (ImportTable.ofStatements hints l₁).spanOf path
  let rest := (n.ahead σ options.strict).map (Priority.ordinary, ·) ++
    (Node.emissions σ options.strict hints (l₁ ++ [n]) l₂).top
  have opening : (n.opening σ hints l₁).top =
      [(hints.priorityOf n.span, .requireBinding (σ.ofPath path) path span)] := by
    simp only [Node.opening, passed, Emission.required, if_neg absent, span]
  have front : (Node.emissions σ options.strict hints [] ns).top =
      (Node.emissions σ options.strict hints [] l₁).top ++
      ((n.opening σ hints l₁).top ++ rest) := by
    rw [split, Node.emissions_append, Node.emissions, Node.emission, Emission.append_assoc]
    rfl
  refine ⟨(Node.emissions σ options.strict hints [] l₁).top, span, rest ++
    (ns.filterMap Node.importedPath?).eraseDups.flatMap fun path =>
    (Node.groupEmission σ options.strict hints ns path).top, ?_, fun e =>
      h.module?_front apart split required absent⟩
  have priority : Node.requirePriority hints ns path = hints.priorityOf n.span := by
    rw [split, Node.requirePriority_of_first passed absent]
  rw [h.top, front, opening, priority, List.append_assoc, List.append_assoc, List.singleton_append]

theorem exists_split_of_imported (h : r.Placed σ options hints ns) {path : String}
    (passes : path ∉ ns.filterMap Node.passedPath?)
    (imported : path ∈ ns.filterMap Node.importedPath?)
      (named : (ImportGroup.of hints ns path).specifiers ≠ []) :
        ∃ before span after, r.top = before ++
        (Node.requirePriority hints ns path, .requireBinding (σ.ofPath path) path span) :: after ∧
      ∀ e ∈ before, e.2.module? ≠ some (σ.ofPath path) := by
  have required := h.mem_paths.mpr (.inr ⟨imported, named⟩)
  -- Groups come in the order of their first import, and each path has one.
  obtain ⟨k₁, k₂, split⟩ := List.append_of_mem (List.mem_eraseDups.mpr imported)
  have new : path ∉ k₁ := by
    have distinct := FirstOccurrence.nodup_eraseDups (ns.filterMap Node.importedPath?)
    rw [split] at distinct
    exact fun among => (List.nodup_append'.mp distinct).2.2 among List.mem_cons_self
  let group := ImportGroup.of hints ns path
  let bound :=
    (Emission.flatMap group.ordered (Specifier.emission σ options.strict (σ.ofPath path) group)).top
  let tops (p : String) := (Node.groupEmission σ options.strict hints ns p).top
  have own : tops path = (group.priority, .requireBinding (σ.ofPath path) path group.span) ::
    bound := by
    have some : ¬ (ImportGroup.of hints ns path).specifiers.isEmpty = true := by simpa using named
    simp only [tops, Node.groupEmission, ImportGroup.emission, if_neg some, Emission.required,
      if_neg passes]
    rfl
  refine ⟨(Node.emissions σ options.strict hints [] ns).top ++ k₁.flatMap tops, group.span, bound ++
    k₂.flatMap tops, ?_, fun e among => ?_⟩
  · rw [h.top, split, List.flatMap_append, List.flatMap_cons, Node.requirePriority_of_absent passes,
      ← Node.priority_of]
    show _ ++ (k₁.flatMap tops ++ (tops path ++ k₂.flatMap tops)) = _
    rw [own, List.append_assoc, List.cons_append]
  · rcases List.mem_append.mp among with front | later
    · exact h.module?_front apart (List.append_nil ns).symm required passes front
    · -- What other paths put in front of it reads from their own modules.
      intro reads
      obtain ⟨other, listed, here⟩ := List.mem_flatMap.mp later
      rcases ImportGroup.mem_top_emission.mp here with ⟨-, rfl⟩ | ⟨-, -, rfl⟩
        | ⟨s, named', value, given, rfl⟩
      · cases reads
      · cases reads
      · have same : σ.ofPath other = σ.ofPath path :=
          (ImportGroup.binding_value? given).symm.trans (Option.some.inj reads)
        have imported' : other ∈ ns.filterMap Node.importedPath? := by
          rw [← List.mem_eraseDups, split]
          exact List.mem_append_left _ listed
        have known := h.mem_paths.mpr (.inr ⟨imported', List.ne_nil_of_mem named'⟩)
        exact new (apart _ known _ required same ▸ listed)

/-- The statement that requires a path has its priority from the declarations of the path, and
nothing that reads from the module stands before it. -/
theorem exists_split (h : r.Placed σ options hints ns) {path : String}
    (required : path ∈ r.requires.entries.map Prod.fst) : ∃ before span after, r.top = before ++
        (Node.requirePriority hints ns path, .requireBinding (σ.ofPath path) path span) :: after ∧
      ∀ e ∈ before, e.2.module? ≠ some (σ.ofPath path) := by
  by_cases passes : path ∈ ns.filterMap Node.passedPath?
  · exact h.exists_split_of_passed apart passes
  · obtain ⟨imported, named⟩ := (h.mem_paths.mp required).resolve_left passes
    exact h.exists_split_of_imported apart passes imported named

end

end Draft.Placed

end ModuleLowering
