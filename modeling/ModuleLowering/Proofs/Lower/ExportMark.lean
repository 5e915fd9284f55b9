import ModuleLowering.Proofs.Lower.LoadOrder

/-!
Which kinds of exports a module has, as it is found out statement by statement. A declaration of
variables counts by its declarators and not by the names they declare; all other statements count by
the names that they export.
-/

set_option autoImplicit false

namespace ModuleLowering

namespace Node

def starPath? : Node → Option String
  | .mk (.exportAll false path) _ (name :: _) => if name.isAbsent then some path else none
  | _ => none

def isValueExport : Node → Bool
  | .mk .exportDefault _ [d] => !d.isTypeDefault
  | .mk .exportDeclaration _ [d] => !d.isTypeOnly
  | .mk (.exportNamed isType) _ _ | .mk (.exportFrom isType _) _ _
  | .mk (.exportAll isType _) _ (_ :: _) => !isType
  | _ => false

def declarators : Node → List Node
  | .mk (.varDecl ..) _ ds => ds
  | _ => []

def exportedDeclarators : Node → List Node
  | .mk .exportDeclaration _ [d] => if d.isTypeOnly then [] else d.declarators
  | _ => []

theorem isValueExport_eq_false {n : Node} (silent : n.isExporting = false) :
    n.isValueExport = false := by
  unfold isValueExport
  split <;> first | rfl | cases silent

theorem isValueExport_rename (r : Renaming) (n : Node) :
    (n.rename r).isValueExport = n.isValueExport := by
  obtain ⟨n', eq, renamed⟩ := n.exists_renamedExport r
  rw [eq]
  cases renamed with
  | default s d => exact congrArg not (isTypeDefault_rename d)
  | declaration s d => exact congrArg not (isTypeOnly_rename d)
  | names | namesFrom | all => rfl
  | other silent silent' => rw [isValueExport_eq_false silent, isValueExport_eq_false silent']

theorem starPath?_rename (r : Renaming) (n : Node) : (n.rename r).starPath? = n.starPath? := by
  obtain ⟨f, s, ps⟩ := n
  obtain ⟨f', renamed, eq⟩ := exists_rename r f s ps
  rw [eq]
  cases renamed with
  | same =>
    cases f
    case exportAll isType path => cases isType <;> cases ps <;> simp [starPath?, isAbsent_rename]
    all_goals rfl
  | _ => rfl

theorem length_declarators_rename (r : Renaming) (d : Node) :
    (d.rename r).declarators.length = d.declarators.length := by
  obtain ⟨f, s, ps⟩ := d
  obtain ⟨f', renamed, eq⟩ := exists_rename r f s ps
  rw [eq]
  cases renamed with
  | same =>
    cases f
    case varDecl => exact List.length_map _
    all_goals rfl
  | _ => rfl

theorem exportedDeclarators_eq_nil {n : Node} (silent : n.isExporting = false) :
    n.exportedDeclarators = [] := by
  unfold exportedDeclarators
  split <;> first | rfl | cases silent

theorem length_exportedDeclarators_rename (r : Renaming) (n : Node) :
    (n.rename r).exportedDeclarators.length = n.exportedDeclarators.length := by
  obtain ⟨n', eq, renamed⟩ := n.exists_renamedExport r
  rw [eq]
  cases renamed with
  | declaration s d =>
    simp only [exportedDeclarators, isTypeOnly_rename]
    split
    · rfl
    · exact length_declarators_rename r d
  | default | names | namesFrom | all => rfl
  | other silent silent' =>
    rw [exportedDeclarators_eq_nil silent, exportedDeclarators_eq_nil silent']

end Node

structure ExportMarks where
  any : Bool
  default : Bool
  named : Bool

namespace ExportMarks

def none : ExportMarks := ⟨false, false, false⟩

def or (a b : ExportMarks) : ExportMarks :=
  ⟨a.any || b.any, a.default || b.default, a.named || b.named⟩

def all (ms : List ExportMarks) : ExportMarks :=
  ⟨ms.any (·.any), ms.any (·.default), ms.any (·.named)⟩

def ofName (exported : String) : ExportMarks := ⟨false, exported = "default", exported ≠ "default"⟩

@[simp]
theorem or_none (a : ExportMarks) : a.or none = a := by simp [or, none]

theorem or_assoc (a b c : ExportMarks) : (a.or b).or c = a.or (b.or c) := by
  simp [or, Bool.or_assoc]

end ExportMarks

def Node.exportMarks (n : Node) : ExportMarks where
  any := n.isValueExport
  default := n.exportedDeclarators.isEmpty && n.exportedAs.any (· = "default")
  named := !n.exportedDeclarators.isEmpty || n.starPath?.isSome || n.exportedAs.any (· ≠ "default")

theorem Node.exportMarks_eq_none {n : Node} (value : n.isValueExport = false)
    (declarators : n.exportedDeclarators = []) (star : n.starPath? = none)
    (entries : n.exportEntries = []) : n.exportMarks = .none := by
  simp [exportMarks, exportedAs, value, declarators, star, entries, ExportMarks.none]

theorem Node.IsErased.exportMarks {n : Node} (h : n.IsErased) : n.exportMarks = .none := by
  refine exportMarks_eq_none ?_ ?_ ?_ h.exportEntries
  all_goals cases h <;> simp [isValueExport, exportedDeclarators, starPath?, *]

theorem Node.IsWhole.exportMarks {n : Node} (h : n.IsWhole) : n.exportMarks = .none :=
  exportMarks_eq_none
    (isValueExport.eq_6 n h.notDefault h.notDeclaration h.notNames h.notNamesFrom h.notAll)
    (exportedDeclarators.eq_2 n h.notDeclaration) (starPath?.eq_2 n (h.notAll false))
    h.exportEntries

namespace Draft

def marks (r : Draft) : ExportMarks := ⟨r.hasExports, r.hasDefault, r.hasNamed⟩

theorem marks_foldl {α : Type} {f : Draft → α → Draft} {mark : α → ExportMarks}
    (step : ∀ r a, (f r a).marks = r.marks.or (mark a)) (as : List α) (r : Draft) :
    (as.foldl f r).marks = r.marks.or (.all (as.map mark)) := by
  induction as generalizing r with
  | nil => exact (ExportMarks.or_none _).symm
  | cons a as ih => rw [List.foldl_cons, ih, step, ExportMarks.or_assoc]; rfl

theorem marks_foldl_same {α : Type} {f : Draft → α → Draft} (step : ∀ r a, (f r a).marks = r.marks)
    (as : List α) (r : Draft) : (as.foldl f r).marks = r.marks := by
  induction as generalizing r with
  | nil => rfl
  | cons a as ih => exact (ih (f r a)).trans (step r a)

theorem marks_helper (r : Draft) (which : Helper) : (r.helper which).2.marks = r.marks := by
  unfold helper
  split <;> rfl

theorem marks_require (r : Draft) (path : String) (priority : Priority) (span : Option Span) :
    (r.require path priority span).2.marks = r.marks := by
  unfold require
  split <;> rfl

theorem marks_noteExportName (r : Draft) (x : String) : (r.noteExportName x).marks = r.marks.or
    (.ofName x) := by
  unfold noteExportName
  split
  · next isDefault => simp [marks, ExportMarks.or, ExportMarks.ofName, isDefault]
  · next other => simp [marks, ExportMarks.or, ExportMarks.ofName, other]

def specifierMarks (n : Node) : ExportMarks :=
  (n.listedExport?.map fun e => .ofName e.exported).getD .none

theorem marks_exportName (r : Draft) (n : Node) : (r.exportName n).marks = r.marks.or
    (specifierMarks n) := by
  unfold exportName specifierMarks Node.listedExport?
  split
  · next name other =>
    have noted := marks_noteExportName r other.nameText
    dsimp only
    -- What is written out behind it has no part in the marks, so the draft that was noted in can be
    -- any.
    generalize r.noteExportName other.nameText = q at noted ⊢
    exact noted
  · simp

theorem marks_reexportName (r : Draft) (path binding : String) (n : Node) :
    (r.reexportName path binding n).marks = r.marks.or (specifierMarks n) := by
  unfold reexportName specifierMarks Node.listedExport?
  split
  · next name other =>
    have noted := marks_noteExportName r other.nameText
    dsimp only
    generalize r.noteExportName other.nameText = q at noted ⊢
    split
    · have helped := (marks_helper q .interopDefault).trans noted
      generalize q.helper .interopDefault = step at helped ⊢
      exact helped
    · exact noted
  · simp

theorem marks_reexport (r : Draft) (path : String) (specifiers : List Node) (priority : Priority) :
    (r.reexport path specifiers priority).marks = r.marks.or
      (.all (specifiers.map specifierMarks)) := by
  unfold reexport
  dsimp only
  rw [marks_foldl fun r n => marks_reexportName r _ _ n, marks_require]

theorem marks_exportDeclaration (r : Draft) {d : Node} (runtime : d.isTypeOnly = false)
    (priority : Priority) (s : Option Span) :
    (r.exportDeclaration d priority).marks = r.marks.or
      { (Node.mk .exportDeclaration s [d]).exportMarks with any := false } := by
  -- All but variables have one name at most, and count by it.
  have other (notVariable : ∀ kind isDeclared s ds, d ≠ .mk (.varDecl kind isDeclared) s ds) :
      { (Node.mk .exportDeclaration s [d]).exportMarks with any := false } =
        (d.declaredName?.map fun e => ExportMarks.ofName e.1).getD .none := by
    have declarators : d.declarators = [] := by
      unfold Node.declarators
      split
      · exact absurd rfl (notVariable _ _ _ _)
      · rfl
    have entries : d.declarationEntries = d.declaredName?.toList.map fun e => .binding e.1 e.1 := by
      unfold Node.declarationEntries
      split
      · exact absurd rfl (notVariable _ _ _ _)
      · rfl
    simp only [Node.exportMarks, Node.exportedDeclarators, declarators, Node.exportedAs,
      Node.exportEntries, runtime, entries, Node.starPath?]
    cases d.declaredName? <;> simp [ExportMarks.none, ExportMarks.ofName, ExportEntry.exported]
  unfold exportDeclaration
  split
  · rw [other (by simp)]
    dsimp only
    split
    · next x place named =>
      have noted := marks_noteExportName r x
      generalize r.noteExportName x = q at noted ⊢
      rw [named]
      exact noted
    · next unnamed => rw [unnamed]; exact (ExportMarks.or_none _).symm
  · next kind isDeclared s' ds =>
    -- A declarator is not asked for its names: a pattern without any is noted all the same.
    have noted (r : Draft) (d : Node) :
        (r.noteDeclarator d).marks = r.marks.or ⟨false, false, true⟩ := by
      unfold noteDeclarator
      dsimp only
      split <;> simp [marks, ExportMarks.or]
    have behind (r : Draft) (x : String) : (r.exportBehind x x (Made.ident x)).marks = r.marks :=
      rfl
    obtain rfl : isDeclared = false := runtime
    dsimp only
    rw [marks_foldl_same behind]
    refine (marks_foldl noted _ r).trans ?_
    cases ds <;> simp [ExportMarks.all, Node.exportMarks, Node.exportedDeclarators,
      Node.declarators, Node.exportedAs, Node.exportEntries, Node.starPath?,
      Node.declarationEntries, Node.isTypeOnly]
  · next notFunction notVariable =>
    rw [other notVariable]
    dsimp only
    split
    · next x place named =>
      have noted : (Draft.noteExportName (r.keep priority (.kept d)) x).marks = r.marks.or
        (.ofName x) :=
        marks_noteExportName _ x
      generalize Draft.noteExportName (r.keep priority (.kept d)) x = q at noted ⊢
      rw [named]
      exact noted
    · next unnamed => rw [unnamed]; exact (ExportMarks.or_none _).symm

theorem marks_exportDefault (r : Draft) (d : Node) (span : Option Span) (priority : Priority) :
    (r.exportDefault d span priority).marks = r.marks.or ⟨true, true, false⟩ := by
  have noted : ⟨true, true, r.hasNamed⟩ = r.marks.or ⟨true, true, false⟩ := by
    simp [marks, ExportMarks.or]
  unfold exportDefault
  dsimp only
  repeat' split
  all_goals exact noted

theorem marks_exportAll (r : Draft) (path : String) (name : Node) (span : Option Span)
    (priority : Priority) :
    (r.exportAll path name span priority).marks =
      r.marks.or (if name.isAbsent then ⟨true, false, true⟩
      else { ExportMarks.ofName name.nameText with any := true }) := by
  have required := marks_require { r with hasExports := true } path priority (r.imports.spanOf path)
  unfold exportAll
  dsimp only
  generalize require { r with hasExports := true } path priority (r.imports.spanOf path) = step
    at required ⊢
  split
  · show { step.2.marks with named := true } = _
    rw [required]
    simp [marks, ExportMarks.or]
  · have noted := marks_noteExportName step.2 name.nameText
    rw [required] at noted
    generalize step.2.noteExportName name.nameText = q at noted ⊢
    have same : q.marks = r.marks.or { ExportMarks.ofName name.nameText with any := true } := by
      rw [noted]
      simp [marks, ExportMarks.or]
    split
    · exact same
    · have helped := (marks_helper q .interopWildcard).trans same
      generalize q.helper .interopWildcard = pair at helped ⊢
      exact helped

theorem marks_recordImport (r : Draft) (isType : Bool) (path : String) (span : Option Span)
    (specifiers : List Node) (priority : Priority) :
    (r.recordImport isType path span specifiers priority).marks = r.marks := by
  unfold recordImport
  dsimp only
  split <;> rfl

theorem marks_lowerGroup (r : Draft) (path : String) (group : ImportGroup) :
    (r.lowerGroup path group).marks = r.marks := by
  have spaces (binding : String) (r : Draft) (s : Specifier) :
      (r.bindNamespace binding group s).marks = r.marks := by
    unfold bindNamespace
    split
    · split
      · rfl
      · exact marks_helper r _
    · rfl
  have imported (binding : String) (r : Draft) (x name : String) :
      (r.bindImported binding group x name).marks = r.marks := by
    unfold bindImported
    split
    · exact marks_helper r _
    · rfl
  have names (binding : String) (r : Draft) (s : Specifier) :
      (r.bindName binding group s).marks = r.marks := by
    cases s with
    | «namespace» => rfl
    | default | named => exact imported ..
  unfold lowerGroup
  split
  · rfl
  · exact ((marks_foldl_same (names _) _ _).trans (marks_foldl_same (spaces _) _ _)).trans
      (marks_require ..)

theorem marks_lowerImports (r : Draft) : r.lowerImports.marks = r.marks :=
  marks_foldl_same (fun r (e : String × ImportGroup) => marks_lowerGroup r e.1 e.2)
    r.imports.entries { r with imports := .empty }

theorem all_specifierMarks (specifiers : List Node) :
    ExportMarks.all (specifiers.map specifierMarks) =
    ⟨false, (specifiers.filterMap fun n => n.listedExport?.map ExportEntry.exported).any
      (· = "default"), (specifiers.filterMap fun n => n.listedExport?.map ExportEntry.exported).any
      (· ≠ "default")⟩ := by
  induction specifiers with
  | nil => rfl
  | cons n specifiers ih =>
    refine (congrArg (specifierMarks n).or ih).trans ?_
    cases listed : n.listedExport? <;>
      simp [specifierMarks, listed, ExportMarks.or, ExportMarks.none, ExportMarks.ofName]

theorem exportMarks_specifiers {n : Node} {specifiers : List Node} (value : n.isValueExport = true)
    (declarators : n.exportedDeclarators = []) (star : n.starPath? = none)
    (names : n.exportedAs = specifiers.filterMap fun n => n.listedExport?.map
    ExportEntry.exported) :
    n.exportMarks = { ExportMarks.all (specifiers.map specifierMarks) with any := true } := by
  simp [Node.exportMarks, value, declarators, star, names, all_specifierMarks]

theorem marks_scanStatement {hints : Hints} {r r' : Draft} {n : Node}
    (scanned : r.scanStatement hints n = .ok r') :
    r'.marks = r.marks.or n.exportMarks := by
  -- A module with exports is marked as one before anything else is noted.
  have exporting (marks : ExportMarks) :
      ({ r with hasExports := true } : Draft).marks.or marks = r.marks.or
        { marks with any := true } := by
    simp [Draft.marks, ExportMarks.or]
  have silent {n : Node} (none : n.exportMarks = .none) : r.marks = r.marks.or n.exportMarks := by
    rw [none, ExportMarks.or_none]
  cases Scans.of_ok scanned with
  | imported => exact (marks_recordImport ..).trans (silent rfl)
  | erased erased => exact silent erased.exportMarks
  | default s d runtime =>
    have marked : (Node.mk .exportDefault s [d]).exportMarks = ⟨true, true, false⟩ := by
      simp [Node.exportMarks, Node.exportedAs_default, runtime, Node.isValueExport,
        Node.exportedDeclarators, Node.starPath?]
    rw [marked]
    exact marks_exportDefault r d s _
  | declaration s d runtime =>
    rw [marks_exportDeclaration _ runtime _ s, exporting]
    simp [Node.exportMarks, Node.isValueExport, runtime]
  | names s specifiers =>
    have marked : (Node.mk (.exportNamed false) s specifiers).exportMarks = _ :=
      exportMarks_specifiers rfl rfl rfl List.map_filterMap
    rw [exportNames, marks_foldl marks_exportName, exporting, marked]
  | namesFrom path s parts =>
    have names : (Node.mk (.exportFrom false path) s parts).exportedAs =
        parts.dropLast.filterMap fun n => n.listedExport?.map ExportEntry.exported := by
      simp only [Node.exportedAs, Node.exportEntries, List.map_filterMap,
        Node.exported_passedExport?]
    rw [marks_reexport, exporting, exportMarks_specifiers rfl rfl rfl names]
  | all path s name rest =>
    have marked : (Node.mk (.exportAll false path) s (name :: rest)).exportMarks =
        if name.isAbsent then ⟨true, false, true⟩
        else { ExportMarks.ofName name.nameText with any := true } := by
      cases absent : name.isAbsent <;>
        simp [Node.exportMarks, Node.isValueExport, Node.exportedDeclarators, Node.starPath?,
          Node.exportedAs, Node.exportEntries, absent, ExportMarks.ofName, ExportEntry.exported]
    rw [marked]
    exact marks_exportAll ..
  | assigned => exact silent rfl
  | whole whole => exact silent whole.exportMarks

theorem marks_scan {hints : Hints} {ns : List Node} {r r' : Draft}
    (scanned : r.scan hints ns = .ok r') :
    r'.marks = r.marks.or (.all (ns.map Node.exportMarks)) := by
  induction ns generalizing r with
  | nil =>
    cases scanned
    exact (ExportMarks.or_none _).symm
  | cons n ns ih =>
    obtain ⟨r₁, first, rest⟩ := bind_eq_ok_iff.mp scanned
    rw [ih rest, marks_scanStatement first, ExportMarks.or_assoc]
    rfl

end Draft

namespace Module

variable {m : Module} {options : Options} {hints : Hints} {r : Draft}

theorem marks_of_draft (drafted : m.draft options hints = .ok r) :
    r.marks = .all (m.renamed.statements.map Node.exportMarks) := by
  obtain ⟨r₀, scanned, rfl⟩ := exists_scan drafted
  rw [Draft.marks_lowerImports, Draft.marks_scan scanned]
  rfl

theorem hasExports_of_draft (drafted : m.draft options hints = .ok r) :
    r.hasExports = m.renamed.statements.any Node.isValueExport :=
  (congrArg ExportMarks.any (marks_of_draft drafted)).trans List.any_map

end Module

end ModuleLowering
