import ModuleLowering.Proofs.Lower.Emission

/-!
Where the parts of a module go: what each of its statements leaves in place, what it puts in front,
and what the recorded imports put there in the end.
-/

set_option autoImplicit false

namespace ModuleLowering

namespace Node

def passedPath? : Node → Option String
  | .mk (.exportFrom false path) _ _ => some path
  | .mk (.exportAll false path) _ (_ :: _) => some path
  | _ => none

/-- The path of an import and what it imports at run time. One that imports types only is none. -/
def imported? : Node → Option (String × List Specifier)
  | .mk (.importDecl false _ path) _ parts =>
    let values := parts.dropLast.filterMap specifier?
    if !parts.dropLast.isEmpty && values.isEmpty then none else some (path, values)
  | _ => none

def importRecord? (hints : Hints) (n : Node) : Option ImportRecord :=
  n.imported?.map fun (path, specifiers) => ⟨path, n.span, hints.priorityOf n.span, specifiers⟩

def exportedName? : Node → Option String
  | .mk (.exportSpecifier false) _ [_, other] => some other.nameText
  | _ => none

def listedItem? : Node → Option Item
  | .mk (.exportSpecifier false) _ [name, other] =>
    let value := match name with
      | .mk (.mention x ref _) s _ => .mk (.ident x ref) s []
      | _ => Made.ident name.nameText
    some (.exportValue other.nameText value none)
  | _ => none

def passedItem? (σ : Naming) (binding : String) : Node → Option Item
  | .mk (.exportSpecifier false) _ [name, other] =>
    let value := if name.nameText = "default" then .defaultOf (σ.ofHelper .interopDefault) binding
      else .property binding name.nameText
    some (.exportGetter other.nameText value)
  | _ => none

def passedAll (σ : Naming) (isStrict : Bool) (binding : String) (name : Node) (span : Option Span) :
    Item :=
  if name.isAbsent then .exportStar binding span
  else .exportGetter name.nameText
    (if isStrict then .whole binding else .wrapped (σ.ofHelper .interopWildcard) binding)

def ownExport (x : String) : Item := .exportValue x (Made.ident x) none

/-- What `export default` puts in front: functions exist before anything runs. -/
def defaultAhead (d : Node) : List Item :=
  if d.isFunctionDeclaration then
    match d.declaredName? with
    | some (x, _) => [.exportValue "default" (Made.ident x) none]
    | none => [.exportValue "default" d.asExpression none]
  else []

def defaultInPlace (priority : Priority) (span : Option Span) (d : Node) : List (Priority × Item) :=
  if d.isFunctionDeclaration then d.declaredName?.toList.map fun _ => (priority, .kept d)
  else if d.isClassDeclaration then
    match d.declaredName? with
    | some (x, _) =>
      [(priority, .kept d), (Priority.ordinary, .exportValue "default" (Made.ident x) none)]
    | none => [(priority, .exportValue "default" d.asExpression span)]
  else [(priority, .exportValue "default" d span)]

def declarationAhead : Node → List Item
  | .mk (.function t) s ps =>
    (mk (.function t) s ps).declaredName?.toList.map fun (x, _) => ownExport x
  | _ => []

/-- What an exported declaration leaves in place: itself, and behind it the exports it does not set
up itself. -/
def declarationInPlace (priority : Priority) : Node → List (Priority × Item)
  | .mk (.function t) s ps => [(priority, .kept (.mk (.function t) s ps))]
  | .mk (.varDecl kind isDeclared) s ds =>
    (priority, .kept (.mk (.varDecl kind isDeclared) s (ds.map Draft.exportDeclarator))) ::
      (ds.flatMap Draft.patternNames).map fun x => (Priority.ordinary, ownExport x)
  | d =>
    (priority, .kept d) :: d.declaredName?.toList.map fun (x, _) => (Priority.ordinary, ownExport x)

def declarationLate : Node → List String
  | .mk (.function _) _ _ => []
  | d => d.exportedByDeclaration.map Prod.fst

def ahead (σ : Naming) (isStrict : Bool) : Node → List Item
  | .mk .exportDefault _ [d] => if d.isTypeDefault then [] else d.defaultAhead
  | .mk .exportDeclaration _ [d] => if d.isTypeOnly then [] else d.declarationAhead
  | .mk (.exportFrom false path) _ parts => parts.dropLast.filterMap (passedItem? σ (σ.ofPath path))
  | .mk (.exportAll false path) span (name :: _) => [passedAll σ isStrict (σ.ofPath path) name span]
  | _ => []

def inPlace (priority : Priority) : Node → List (Priority × Item)
  | .mk (.importDecl ..) _ _ | .mk (.exportFrom ..) _ _ | .mk (.exportAll ..) _ (_ :: _)
  | .mk (.exportNamespace _) _ _ => []
  | .mk .exportDefault span [d] => if d.isTypeDefault then [] else d.defaultInPlace priority span
  | .mk .exportDeclaration _ [d] => if d.isTypeOnly then [] else d.declarationInPlace priority
  | .mk (.exportNamed isType) _ specifiers =>
    if isType then [] else (specifiers.filterMap listedItem?).map (Priority.ordinary, ·)
  | .mk .exportAssignment span [e] => [(priority, .moduleExports e span)]
  | n => [(priority, .kept n)]

def lateNames : Node → List String
  | .mk .exportDeclaration _ [d] => if d.isTypeOnly then [] else d.declarationLate
  | .mk (.exportNamed false) _ specifiers => specifiers.filterMap exportedName?
  | .mk (.exportFrom false _) _ parts => parts.dropLast.filterMap exportedName?
  | .mk (.exportAll false _) _ (name :: _) => if name.isAbsent then [] else [name.nameText]
  | _ => []

end Node

def ImportTable.ofStatements (hints : Hints) (ns : List Node) : ImportTable :=
  recordAll .empty (ns.filterMap (Node.importRecord? hints))

def Node.opening (σ : Naming) (hints : Hints) (before : List Node) (n : Node) : Emission :=
  match n.passedPath? with
  | some path => .required σ (before.filterMap passedPath?) path (hints.priorityOf n.span)
      ((ImportTable.ofStatements hints before).spanOf path)
  | none => {}

def Node.emission (σ : Naming) (isStrict : Bool) (hints : Hints) (before : List Node) (n : Node) :
    Emission :=
  n.opening σ hints before ++
  { top := (n.ahead σ isStrict).map (Priority.ordinary, ·),
    body := n.inPlace (hints.priorityOf n.span),
    imports := (n.importRecord? hints).toList, late := n.lateNames }

theorem Node.emission_of_passedPath? {n : Node} (none : n.passedPath? = none) (σ : Naming)
    (isStrict : Bool) (hints : Hints) (before : List Node) : n.emission σ isStrict hints before =
      { top := (n.ahead σ isStrict).map (Priority.ordinary, ·),
        body := n.inPlace (hints.priorityOf n.span),
        imports := (n.importRecord? hints).toList, late := n.lateNames } := by
  rw [emission, opening, none, Emission.empty_append]

theorem Node.opening_eq (σ : Naming) (hints : Hints) (before : List Node) (n : Node) :
    ∃ top paths, n.opening σ hints before = { top := top, paths := paths } := by
  unfold opening Emission.required
  split
  · split
    · exact ⟨[], [], rfl⟩
    · exact ⟨_, _, rfl⟩
  · exact ⟨[], [], rfl⟩

/-- The draft knows the paths and imports of the statements so far. -/
structure Draft.Follows (isStrict : Bool) (hints : Hints) (before : List Node) (r : Draft) :
    Prop where
  strict : r.options.strict = isStrict
  paths : ∀ path, path ∈ r.requires.entries.map Prod.fst ↔ path ∈ before.filterMap Node.passedPath?
  imports : r.imports = .ofStatements hints before

theorem Draft.options_require (r : Draft) (path : String) (priority : Priority)
    (span : Option Span) :
    (r.require path priority span).2.options = r.options := by
  unfold require
  split <;> rfl

theorem Draft.options_noteExportName (r : Draft) (x : String) :
    (r.noteExportName x).options = r.options := by
  unfold noteExportName
  split <;> rfl

namespace Draft.Emits

variable {σ : Naming} {r : Draft}

theorem exportName (r : Draft) (n : Node) :
    Emits σ
      { body := n.listedItem?.toList.map (Priority.ordinary, ·), late := n.exportedName?.toList } r
      (r.exportName n) := by
  rcases n.specifier_cases with ⟨s, name, other, rfl⟩ | other
  · exact ((noteExportName r _).trans (exportBehind _ _ _ _)).congr rfl rfl
  · rw [Node.listedItem?.eq_3 n other, Node.exportedName?.eq_2 n other,
      Draft.exportName.eq_3 r n other]
    exact of_core rfl

theorem exportNames (r : Draft) (specifiers : List Node) :
    Emits σ { body := (specifiers.filterMap Node.listedItem?).map (Priority.ordinary, ·),
              late := specifiers.filterMap Node.exportedName? } r (r.exportNames specifiers) := by
  have all : Emits σ (.flatMap specifiers _) r (r.exportNames specifiers) :=
    foldl fun r n _ => exportName r n
  simpa only [Emission.flatMap, List.filterMap_eq_flatMap_toList, List.map_flatMap,
    Emission.flatMap_nothing] using all

theorem exportGetter (r : Draft) (exported : String) (value : Imported) :
    Emits σ { top := [(Priority.ordinary, .exportGetter exported value)], late := [exported] } r
      (let r := r.hoist Priority.ordinary (.exportGetter exported value)
      { r with predeclared := r.predeclared.insert exported }) :=
  (hoist r Priority.ordinary (.exportGetter exported value)).trans (predeclare _ exported)

theorem reexportName (r : Draft) (path binding : String) (n : Node) :
    Emits σ
      { top := (n.passedItem? σ binding).toList.map (Priority.ordinary, ·),
        late := n.exportedName?.toList } r (r.reexportName path binding n) := by
  rcases n.specifier_cases with ⟨s, name, other, rfl⟩ | other
  · have noted : Emits σ {} r _ := noteExportName r other.nameText
    let getter (value : Imported) : Emission :=
      { top := [(Priority.ordinary, .exportGetter other.nameText value)], late := [other.nameText] }
    by_cases isDefault : name.nameText = "default"
    · simp only [Draft.reexportName, Node.passedItem?, isDefault, if_true]
      refine noted.trans (with_helper (fun h => getter (.defaultOf h binding)) ?_)
      exact (exportGetter _ other.nameText _).congr rfl rfl
    · simp only [Draft.reexportName, Node.passedItem?, isDefault, if_false]
      exact (noted.trans (exportGetter _ other.nameText _)).congr rfl rfl
  · rw [Node.passedItem?.eq_2 σ binding n other, Node.exportedName?.eq_2 n other,
      Draft.reexportName.eq_2 r path binding n other]
    exact of_core rfl

theorem reexport (r : Draft) (path : String) (specifiers : List Node) (priority : Priority) :
    Emits σ (.required σ (r.requires.entries.map Prod.fst) path priority (r.imports.spanOf path) ++
      { top :=
          (specifiers.filterMap (Node.passedItem? σ (σ.ofPath path))).map (Priority.ordinary, ·),
        late := specifiers.filterMap Node.exportedName? }) r
        (r.reexport path specifiers priority) := by
  let passed (binding : String) : Emission :=
    { top := (specifiers.filterMap (Node.passedItem? σ binding)).map (Priority.ordinary, ·),
      late := specifiers.filterMap Node.exportedName? }
  refine with_require passed ?_
  have all : Emits σ (.flatMap specifiers _) (r.require path priority (r.imports.spanOf path)).2
      (r.reexport path specifiers priority) :=
    foldl fun q n _ => reexportName q path (r.require path priority (r.imports.spanOf path)).1 n
  simpa only [passed, Emission.flatMap, List.filterMap_eq_flatMap_toList, List.map_flatMap,
    Emission.flatMap_nothing] using all

theorem exportAll (r : Draft) (path : String) (name : Node) (span : Option Span)
    (priority : Priority) :
    Emits σ (.required σ (r.requires.entries.map Prod.fst) path priority (r.imports.spanOf path) ++
      { top := [(Priority.ordinary, Node.passedAll σ r.options.strict (σ.ofPath path) name span)],
        late := if name.isAbsent then [] else [name.nameText] }) r
        (r.exportAll path name span priority) := by
  let q : Draft := { r with hasExports := true }
  let passed (binding : String) : Emission :=
    { top := [(Priority.ordinary, Node.passedAll σ r.options.strict binding name span)],
      late := if name.isAbsent then [] else [name.nameText] }
  suffices rest : Emits σ (passed (q.require path priority (r.imports.spanOf path)).1)
      (q.require path priority (r.imports.spanOf path)).2 (r.exportAll path name span priority) from
    (with_require passed rest).congr rfl rfl
  -- Whether a namespace is wrapped is asked after the module was required, but that changes no
  -- options.
  have options : (q.require path priority (r.imports.spanOf path)).2.options = r.options :=
    q.options_require ..
  unfold Draft.exportAll
  dsimp only
  change Emits σ _ _ (if _ then Draft.note
    (Draft.hoist { (q.require path priority (r.imports.spanOf path)).2 with
    hasNamed := true } _ _) _ else _)
  generalize q.require path priority (r.imports.spanOf path) = step at options ⊢
  by_cases whole : name.isAbsent = true
  · simp only [passed, Node.passedAll, whole, if_true]
    exact (hoist step.2 Priority.ordinary (.exportStar step.1 span)).congr rfl rfl
  · have noted : Emits σ {} step.2 _ := noteExportName step.2 name.nameText
    have strict : (step.2.noteExportName name.nameText).options.strict = r.options.strict := by
      rw [options_noteExportName, options]
    let getter (value : Imported) : Emission :=
      { top := [(Priority.ordinary, .exportGetter name.nameText value)], late := [name.nameText] }
    simp only [passed, Node.passedAll, whole, strict, if_false, Bool.false_eq_true]
    by_cases isStrict : r.options.strict = true
    · simp only [isStrict, if_true]
      exact (noted.trans (exportGetter _ name.nameText _)).congr rfl rfl
    · simp only [isStrict, if_false, Bool.false_eq_true]
      refine noted.trans (with_helper (fun h => getter (.wrapped h step.1)) ?_)
      exact (exportGetter _ name.nameText _).congr rfl rfl

theorem noteDeclarator (r : Draft) (d : Node) :
    Emits σ { late := (d.parts.head?.bind Node.plainName?).toList } r (r.noteDeclarator d) := by
  unfold Draft.noteDeclarator
  cases d.parts.head? with
  | none => exact of_core rfl
  | some p =>
    obtain ⟨f, s, ps⟩ := p
    cases f
    case binder x symbol => exact (predeclare r x).congr rfl rfl
    all_goals exact of_core rfl

theorem mem_declaratorNames {d : Node} {x : String} :
    x ∈ (d.parts.head?.bind Node.plainName?).toList ∨ x ∈ patternNames d ↔
      x ∈ ((d.parts.head?.map Node.boundNames).getD []).map Prod.fst := by
  unfold patternNames
  cases d.parts.head? with
  | none => simp
  | some p =>
    obtain ⟨f, s, ps⟩ := p
    cases f
    case binder y symbol => simp [Node.plainName?, Node.form, Node.boundNames]
    all_goals simp [Node.plainName?, Node.form]

theorem exportVariables (r : Draft) (kind : VariableKind) (isDeclared : Bool) (s : Option Span)
    (ds : List Node) (priority : Priority) :
    Emits σ { body := (Node.mk (.varDecl kind isDeclared) s ds).declarationInPlace priority,
              late := (Node.mk (.varDecl kind isDeclared) s ds).declarationLate } r
      (r.exportDeclaration (.mk (.varDecl kind isDeclared) s ds) priority) := by
  have noted : Emits σ (.flatMap ds _) r (ds.foldl Draft.noteDeclarator r) :=
    foldl fun r d _ => noteDeclarator r d
  have behind (q : Draft) : Emits σ (.flatMap (ds.flatMap patternNames) _) q _ :=
    foldl fun q x _ => exportBehind q x x (Made.ident x)
  have all :=
    (noted.trans (keep _ priority
      (.kept (.mk (.varDecl kind isDeclared) s (ds.map exportDeclarator))))).trans (behind _)
  have listed : Emits σ
      { body := (Node.mk (.varDecl kind isDeclared) s ds).declarationInPlace priority,
        late := ds.flatMap (fun d => (d.parts.head?.bind Node.plainName?).toList) ++
      ds.flatMap patternNames } r (r.exportDeclaration (.mk (.varDecl kind isDeclared) s ds)
      priority) := by
    convert all using 1
    · ext1 <;> simp [Emission.flatMap, Emission.flatMap_nothing, Node.declarationInPlace,
        Node.ownExport, ← List.map_eq_flatMap]
    · rfl
  -- Plain names are listed before those in patterns there, but declarator by declarator in the
  -- statement.
  refine listed.relisted fun x => ?_
  simp only [Node.declarationLate, Node.exportedByDeclaration, List.map_flatMap, List.mem_append,
    List.mem_flatMap, ← mem_declaratorNames, ← exists_or, ← and_or_left]

theorem exportDeclaration (r : Draft) (d : Node) (priority : Priority) :
    Emits σ
      { top := d.declarationAhead.map (Priority.ordinary, ·),
        body := d.declarationInPlace priority,
        late := d.declarationLate } r (r.exportDeclaration d priority) := by
  fun_cases Node.declarationInPlace priority d with
  | case1 t s ps =>
    simp only [Draft.exportDeclaration, Node.declarationAhead, Node.declarationLate]
    split
    · next x place named =>
      rw [named]
      have first : Emits σ {} r _ := noteExportName r x
      exact ((first.trans (hoist _ Priority.ordinary (Node.ownExport x))).trans
        (keep _ priority _)).congr rfl rfl
    · next unnamed =>
      rw [unnamed]
      exact keep r priority _
  | case2 kind isDeclared s ds => exact exportVariables r kind isDeclared s ds priority
  | case3 d notFunction notVariables =>
    rw [Draft.exportDeclaration.eq_3 r d priority notFunction notVariables,
      Node.declarationAhead.eq_2 d notFunction, Node.declarationLate.eq_2 d notFunction,
      Node.exportedByDeclaration.eq_2 d notVariables]
    split
    · next x place named =>
      rw [named]
      exact ((keep r priority (.kept d)).trans (noteExportName _ x)).trans
        (exportBehind _ x x (Made.ident x))
    · next unnamed =>
      rw [unnamed]
      exact keep r priority (.kept d)

theorem exportDefault (r : Draft) (d : Node) (span : Option Span) (priority : Priority) :
    Emits σ
      { top := d.defaultAhead.map (Priority.ordinary, ·), body := d.defaultInPlace priority span } r
      (r.exportDefault d span priority) := by
  have flagged : Emits σ {} r { r with hasExports := true, hasDefault := true } := of_core rfl
  unfold Draft.exportDefault Node.defaultAhead Node.defaultInPlace
  by_cases function : d.isFunctionDeclaration = true
  · simp only [function, if_true]
    cases d.declaredName? with
    | some declared =>
      obtain ⟨x, place⟩ := declared
      exact (((flagged.trans (of_core rfl)).trans (hoist _ _ _)).trans
        (keep _ priority (.kept d))).congr rfl rfl
    | none => exact flagged.trans (hoist _ _ _)
  · by_cases isClass : d.isClassDeclaration = true
    · simp only [function, isClass, if_true, if_false, Bool.false_eq_true]
      cases d.declaredName? with
      | some declared =>
        obtain ⟨x, place⟩ := declared
        exact (((flagged.trans (of_core rfl)).trans (keep _ priority (.kept d))).trans
          (keep _ _ _)).congr rfl rfl
      | none => exact flagged.trans (keep _ _ _)
    · simp only [function, isClass, if_false, Bool.false_eq_true]
      exact flagged.trans (keep _ _ _)

theorem recordImport (r : Draft) (hints : Hints) (isType hasClause : Bool) (path : String)
    (span : Option Span) (parts : List Node) :
    Emits σ
      { imports :=
          ((Node.mk (.importDecl isType hasClause path) span parts).importRecord? hints).toList }
      r (r.recordImport isType path span parts.dropLast (hints.priorityOf span)) := by
  cases isType with
  | true => exact of_core rfl
  | false =>
    simp only [Draft.recordImport, Node.importRecord?, Node.imported?, Bool.false_or]
    split
    · exact of_core rfl
    · exact fun uses => { Emitted.refl r ⟨uses.paths, uses.helpers⟩ with
        imports := rfl
        importing := (Bool.or_true _).symm }

end Draft.Emits

theorem Emission.required_congr {σ : Naming} {known known' : List String} {path : String}
    (same : path ∈ known ↔ path ∈ known') (priority : Priority) (span : Option Span) :
    required σ known path priority span = required σ known' path priority span := by
  unfold required
  by_cases here : path ∈ known
  · rw [if_pos here, if_pos (same.mp here)]
  · rw [if_neg here, if_neg fun there => here (same.mpr there)]

namespace Draft

variable {σ : Naming} {isStrict : Bool} {hints : Hints} {before : List Node} {r r' : Draft}

theorem scanStatement_emits {n : Node} (known : r.Follows isStrict hints before)
    (scanned : r.scanStatement hints n = .ok r') :
    Emits σ (n.emission σ isStrict hints before) r r' := by
  have required (path : String) (priority : Priority) :
      Emission.required σ (r.requires.entries.map Prod.fst) path priority (r.imports.spanOf path) =
        .required σ (before.filterMap Node.passedPath?) path priority
          ((ImportTable.ofStatements hints before).spanOf path) := by
    rw [known.imports]
    exact Emission.required_congr (known.paths path) ..
  cases Scans.of_ok scanned with
  | imported => exact Emits.recordImport r hints _ _ _ _ _
  | erased erased =>
    cases erased with
    | default isType | declaration isType =>
      rw [Node.emission_of_passedPath? rfl]
      simp only [Node.ahead, Node.inPlace, Node.importRecord?, Node.imported?, Node.lateNames,
        isType, if_true]
      exact .of_core rfl
    | names | namesFrom | all | «namespace» => exact .of_core rfl
  | default s d runtime =>
    rw [Node.emission_of_passedPath? rfl]
    simp only [Node.ahead, Node.inPlace, Node.importRecord?, Node.imported?, Node.lateNames,
      runtime, if_false, Bool.false_eq_true]
    exact (Emits.exportDefault r d s _).congr rfl rfl
  | declaration s d runtime =>
    rw [Node.emission_of_passedPath? rfl]
    simp only [Node.ahead, Node.inPlace, Node.importRecord?, Node.imported?, Node.lateNames,
      runtime, if_false, Bool.false_eq_true]
    exact (Emits.exportDeclaration { r with hasExports := true } d _).congr rfl rfl
  | names s specifiers =>
    exact (Emits.exportNames { r with hasExports := true } specifiers).congr rfl rfl
  | namesFrom path s parts =>
    simp only [Node.emission, Node.opening, Node.passedPath?, ← required]
    exact (Emits.reexport { r with hasExports := true } path parts.dropLast _).congr rfl rfl
  | all path s name rest =>
    have added : Emits σ _ r _ := Emits.exportAll r path name s (hints.priorityOf s)
    rw [required, known.strict] at added
    exact added
  | assigned => exact Emits.keep r _ _
  | whole whole =>
    -- It is of none of the forms that are told apart, so each function is at its last equation.
    rw [Node.emission_of_passedPath? (Node.passedPath?.eq_3 n (whole.notNamesFrom false)
      (whole.notAll false)), Node.ahead.eq_5 σ isStrict n whole.notDefault whole.notDeclaration
      (whole.notNamesFrom false) (whole.notAll false), Node.inPlace.eq_9 _ n whole.notImport
        whole.notNamesFrom whole.notAll whole.notNamespace whole.notDefault whole.notDeclaration
      whole.notNames whole.notAssigned, Node.importRecord?, Node.imported?.eq_2 n
      (whole.notImport false), Node.lateNames.eq_5 n whole.notDeclaration (whole.notNames false)
      (whole.notNamesFrom false) (whole.notAll false)]
    exact Emits.keep r _ _

theorem mem_paths_emission {n : Node} {path : String} :
    path ∈ before.filterMap Node.passedPath? ∨ path ∈ (n.emission σ isStrict hints before).paths ↔
      path ∈ (before ++ [n]).filterMap Node.passedPath? := by
  rw [List.filterMap_append, List.mem_append, Node.emission, Node.opening]
  cases passed : n.passedPath? with
  | none => simp [passed]
  | some other =>
    simp only [Emission.required, List.filterMap_cons_some passed, List.filterMap_nil,
      List.mem_singleton]
    split
    · next old =>
      simp only [Emission.paths_append, List.append_nil, List.not_mem_nil, or_false]
      exact ⟨.inl, fun h => h.elim id fun same => same ▸ old⟩
    · simp

theorem Follows.start (options : Options) (hints : Hints) (taken : TakenNames) :
    (Draft.start options taken).Follows options.strict hints [] :=
  ⟨rfl, fun path => by simp [Draft.start, OrderedMap.empty], rfl⟩

theorem Follows.scanStatement {n : Node} (known : r.Follows isStrict hints before)
    (scanned : r.scanStatement hints n = .ok r') : r'.Follows isStrict hints (before ++ [n]) := by
  -- The names do not matter here, so the draft's own will do.
  have added := scanStatement_emits known scanned r'.uses_naming
  refine ⟨?_, fun path => ?_, ?_⟩
  · rw [added.options, known.strict]
  · rw [added.paths, List.mem_append, known.paths, mem_paths_emission]
  · have recorded : (n.emission r'.naming isStrict hints before).imports =
      (n.importRecord? hints).toList := by
      obtain ⟨top, paths, opening⟩ := n.opening_eq r'.naming hints before
      rw [Node.emission, opening]
      rfl
    rw [added.imports, known.imports, recorded, ImportTable.ofStatements, ImportTable.ofStatements,
      ImportTable.recordAll, ImportTable.recordAll, ImportTable.recordAll, ← List.foldl_append,
      List.filterMap_append, List.filterMap_cons]
    cases n.importRecord? hints <;> rfl

end Draft

def Node.emissions (σ : Naming) (isStrict : Bool) (hints : Hints) : List Node → List Node → Emission
  | _, [] => {}
  | before, n :: ns =>
    n.emission σ isStrict hints before ++ emissions σ isStrict hints (before ++ [n]) ns

theorem Draft.scan_emits {σ : Naming} {isStrict : Bool} {hints : Hints} {before : List Node}
    {r r' : Draft} {ns : List Node} (known : r.Follows isStrict hints before)
    (scanned : r.scan hints ns = .ok r') :
    Emits σ (Node.emissions σ isStrict hints before ns) r r' := by
  induction ns generalizing r before with
  | nil =>
    cases scanned
    exact .of_core rfl
  | cons n ns ih =>
    obtain ⟨r₁, first, rest⟩ := bind_eq_ok_iff.mp scanned
    exact (scanStatement_emits known first).trans (ih (known.scanStatement first) rest)

end ModuleLowering
