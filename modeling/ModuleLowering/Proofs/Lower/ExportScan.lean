import ModuleLowering.Proofs.Lower.ExportEntry

/-!
The scan of a module sets up each of its exports by one write of its own, and no other.
-/

set_option autoImplicit false

namespace ModuleLowering

namespace Draft

def plainEntries : Node → List ExportEntry
  | .mk (.declarator _) _ [p, _, initial] => p.plainName?.toList.map (.declared · initial)
  | _ => []

theorem patternNames_declarator (isDefinite : Bool) (s : Option Span) (p t value : Node) :
    patternNames (.mk (.declarator isDefinite) s [p, t, value]) =
      match p.plainName? with
      | some _ => []
      | none => p.boundNames.map Prod.fst := by
  unfold patternNames Node.plainName?
  simp only [Node.parts, List.head?_cons]
  split <;> split <;> simp_all

theorem exportDeclarator_declarator (isDefinite : Bool) (s : Option Span) (p t value : Node) :
    exportDeclarator (.mk (.declarator isDefinite) s [p, t, value]) =
      .mk (.declarator isDefinite) s [p, t,
        let value := if value.isAbsent then Made.ident "undefined" else value
        match p.plainName? with
        | some x => Made.exportAssignment x value
        | none => value] := by
  unfold exportDeclarator Node.plainName?
  dsimp only
  split <;> simp_all

theorem declaratorEntries_eq {d : Node} (fits : d.isDeclarator = true) :
    d.declaratorEntries = plainEntries d ++ (patternNames d).map fun x => .binding x x := by
  unfold Node.isDeclarator at fits
  split at fits
  · next p _ _ =>
    rw [patternNames_declarator, Node.declaratorEntries, plainEntries]
    cases p.plainName? <;> simp [Function.comp_def]
  · cases fits

theorem exportWrites_exportDeclarator {d : Node} (fits : d.isDeclarator = true)
    (lookedUp : d.isLookedUp = true) (isStrict : Bool) (items : List Item) :
    List.Forall₂ (ExportEntry.Realised isStrict items) (plainEntries d)
      ((exportDeclarator d).exportWrites none) := by
  unfold Node.isDeclarator at fits
  split at fits
  · next isDefinite s p t value =>
    have parts := Node.isLookedUp_mk lookedUp
    have pattern := Node.exportWrites_of_isLookedUp (parts p (by simp)) none
    have annotation := Node.exportWrites_of_isLookedUp (parts t (by simp)) none
    have initial (into : Option String) :
        (if value.isAbsent then Made.ident "undefined" else value).exportWrites into = [] := by
      split
      · rfl
      · exact Node.exportWrites_of_isLookedUp (parts value (by simp)) into
    rw [exportDeclarator_declarator, Node.exportWrites_declarator, pattern,
      annotation, plainEntries]
    cases p.plainName? with
    | none =>
      simp only [initial]
      exact .nil
    | some x =>
      simp only [Made.exportWrites_exportAssignment, initial]
      exact .cons rfl .nil
  · cases fits

theorem exportWrites_varDecl (kind : VariableKind) (isDeclared : Bool) (s : Option Span)
    (ds : List Node) :
    (Node.mk (.varDecl kind isDeclared) s ds).exportWrites none = ds.flatMap
      (Node.exportWrites none) := by
  have parts (all : List Node) (i : Nat) :
      Node.exportWritesOfParts (.varDecl kind isDeclared) all i ds = ds.flatMap
        (Node.exportWrites none) := by
    induction ds generalizing i with
    | nil => rfl
    | cons d ds ih => simp [Node.exportWritesOfParts, Form.initialised?, ih]
  simp [Node.exportWrites, Node.exportWrite?, Form.isOccurrence, parts]

theorem noteDeclarator_declarator (r : Draft) (isDefinite : Bool) (s : Option Span)
    (p t value : Node) :
    r.noteDeclarator (.mk (.declarator isDefinite) s [p, t, value]) =
      match p.plainName? with
      | some x => { r with
        hasNamed := true, exports := r.exports.add x x, predeclared := r.predeclared.insert x }
      | none => { r with hasNamed := true } := by
  unfold noteDeclarator Node.plainName?
  simp only [Node.parts, List.head?_cons, Option.map_some]
  split <;> simp_all

def plainPairs (d : Node) : List (String × String) := (plainEntries d).filterMap ExportEntry.pair?

namespace Adds

variable {r : Draft}

theorem noteDeclarator (r : Draft) {d : Node} (fits : d.isDeclarator = true) :
    Adds [] (plainPairs d) r (r.noteDeclarator d) := by
  unfold Node.isDeclarator at fits
  split at fits
  · next p _ _ =>
    rw [noteDeclarator_declarator, plainPairs, plainEntries]
    cases p.plainName? with
    | some x => exact (add { r with hasNamed := true } x x (.inr rfl)).congr rfl rfl
    | none => exact of_core rfl
  · cases fits

theorem exportPlain (r : Draft) (x e : String) (priority : Priority) :
    Adds [.binding x e] [] r (r.hoist priority (.exportValue e (Made.ident x) none)) ∧
    Adds [.binding x e] [] r (r.keep priority (.exportValue e (Made.ident x) none)) := by
  have value : List.Forall₂ (ExportEntry.Realised r.options.strict r.content) [.binding x e]
      (Item.exportValue e (Made.ident x) none).exportWrites :=
    exportValue_realised (exportWrites_ident x .none none none) ⟨.none, none, rfl⟩
  exact ⟨hoist priority rfl value, keep priority rfl value⟩

theorem exportVariables (r : Draft) {kind : VariableKind} {isDeclared : Bool} {s : Option Span}
    {ds : List Node} (lookedUp : ∀ d ∈ ds, d.isLookedUp = true)
    (fits : ∀ d ∈ ds, d.isDeclarator = true) (priority : Priority) :
    ∃ pairs, pairs.Perm ((ds.flatMap Node.declaratorEntries).filterMap ExportEntry.pair?) ∧
      Adds (ds.flatMap Node.declaratorEntries) pairs r
        (r.exportDeclaration (.mk (.varDecl kind isDeclared) s ds) priority) := by
  -- The plain names are exported by the declaration itself, the others behind it.
  have entries : (ds.flatMap Node.declaratorEntries).Perm
      (ds.flatMap plainEntries ++ (ds.flatMap patternNames).map fun x => .binding x x) := by
    rw [List.flatMap_congr fun d among => declaratorEntries_eq (fits d among), List.map_flatMap]
    exact (List.flatMap_append_perm ds plainEntries _).symm
  have noted : Adds (ds.flatMap fun _ => []) (ds.flatMap plainPairs) r
    (ds.foldl Draft.noteDeclarator r) :=
    foldl (fun r _ d among => noteDeclarator r (fits d among)) (List.nil_subset _)
  have declared (r : Draft) : Adds (ds.flatMap plainEntries) [] r
      (r.keep priority (.kept (.mk (.varDecl kind isDeclared) s (ds.map exportDeclarator)))) := by
    refine keep priority rfl ?_
    rw [Item.exportWrites_kept, exportWrites_varDecl, List.flatMap_map]
    have same : List.Forall₂ (fun d d' => d = d' ∧ d ∈ ds) ds ds :=
      List.forall₂_same.mpr fun d among => ⟨rfl, among⟩
    refine List.rel_flatMap same ?_
    rintro d _ ⟨rfl, among⟩
    exact exportWrites_exportDeclarator (fits d among) (lookedUp d among) _ _
  have behind (r : Draft) : Adds ((ds.flatMap patternNames).flatMap fun x => [.binding x x])
      ((ds.flatMap patternNames).flatMap fun x => [(x, x)]) r
      ((ds.flatMap patternNames).foldl (fun r x => r.exportBehind x x (Made.ident x)) r) :=
    foldl (fun r _ x _ => exportBehind r x x .none none) (List.nil_subset _)
  have all := (noted.trans (declared _)).trans (behind _)
  have none : (ds.flatMap fun _ => ([] : List ExportEntry)) = [] := by simp
  rw [none, List.nil_append, ← List.map_eq_flatMap] at all
  refine ⟨_, ?_, all.perm entries⟩
  refine List.Perm.trans (.of_eq ?_) (entries.filterMap _).symm
  have listed : ExportEntry.pair? ∘ (fun x => .binding x x) = some ∘ fun x => (x, x) := rfl
  rw [List.append_nil, List.filterMap_append, List.filterMap_flatMap, List.filterMap_map, listed,
    List.filterMap_eq_map, ← List.map_eq_flatMap]
  rfl

theorem exportDeclaration (r : Draft) {d : Node} (lookedUp : d.isLookedUp = true)
    (fits : d.hasDeclarators = true) (priority : Priority) :
    ∃ pairs, pairs.Perm (d.declarationEntries.filterMap ExportEntry.pair?) ∧
      Adds d.declarationEntries pairs r (r.exportDeclaration d priority) := by
  have own := Node.exportWrites_of_isLookedUp lookedUp none
  have kept (r : Draft) : Adds [] [] r (r.keep priority (.kept d)) := keep_silent priority rfl own
  unfold Draft.exportDeclaration
  split
  · -- A function is exported ahead of the rest.
    simp only [Node.declarationEntries]
    split
    · next x place named =>
      refine ⟨[(x, x)], by simp [named, ExportEntry.pair?], ?_⟩
      rw [named]
      exact (((noteExportName r x).trans (add _ x x (.inl rfl))).trans
        (exportPlain _ x x _).1).trans (kept _)
    · next unnamed =>
      refine ⟨[], by simp [unnamed], ?_⟩
      rw [unnamed]
      exact kept r
  · next kind isDeclared s ds =>
    have fit : ∀ d ∈ ds, d.isDeclarator = true := List.all_eq_true.mp fits
    exact exportVariables r (Node.isLookedUp_mk lookedUp) fit priority
  · next notFunction notVariables =>
    have entries : d.declarationEntries = d.declaredName?.toList.map fun e => .binding e.1 e.1 := by
      unfold Node.declarationEntries
      split
      · exact absurd rfl (notVariables _ _ _ _)
      · rfl
    rw [entries]
    dsimp only
    split
    · next x place named =>
      refine ⟨[(x, x)], by simp [named, ExportEntry.pair?], ?_⟩
      rw [named]
      exact ((kept r).trans (noteExportName _ x)).trans (exportBehind _ x x .none none)
    · next unnamed =>
      refine ⟨[], by simp [unnamed], ?_⟩
      rw [unnamed]
      exact kept r

theorem exportDefault (r : Draft) {d : Node} (lookedUp : d.isLookedUp = true)
    (runtime : d.isTypeDefault = false) (s span : Option Span) (priority : Priority) :
    ∃ pairs, pairs.Perm ((Node.mk .exportDefault s [d]).exportEntries.filterMap ExportEntry.pair?) ∧
      Adds (Node.mk .exportDefault s [d]).exportEntries pairs r
      (r.exportDefault d span priority) := by
  let q : Draft := { r with hasExports := true, hasDefault := true }
  have flagged : Adds [] [] r q := of_core rfl
  have kept (r : Draft) : Adds [] [] r (r.keep priority (.kept d)) :=
    keep_silent priority rfl (Node.exportWrites_of_isLookedUp lookedUp none)
  have anonymous {v : Node} (known : v.isLookedUp = true) (span : Option Span) :
      List.Forall₂ (ExportEntry.Realised q.options.strict q.content) [.value v]
        (Item.exportValue "default" v span).exportWrites :=
    exportValue_realised (Node.exportWrites_of_isLookedUp known none) rfl
  have expression : d.asExpression.isLookedUp = true := by
    rw [← lookedUp]
    unfold Node.asExpression
    split <;> rfl
  unfold Draft.exportDefault
  simp only [Node.exportEntries, runtime, Bool.false_eq_true, if_false]
  by_cases function : d.isFunctionDeclaration = true
  · simp only [function, Bool.true_or, if_true]
    cases named : d.declaredName? with
    | some declared =>
      obtain ⟨x, place⟩ := declared
      exact ⟨[(x, "default")], .refl _,
        ((flagged.trans (add q x "default" (.inl rfl))).trans (exportPlain _ x "default" _).1).trans
        (kept _)⟩
    | none => exact ⟨[], .refl _, flagged.trans (hoist _ rfl (anonymous expression none))⟩
  · by_cases isClass : d.isClassDeclaration = true
    · simp only [function, isClass, Bool.or_true, if_true, Bool.false_eq_true, if_false]
      cases named : d.declaredName? with
      | some declared =>
        obtain ⟨x, place⟩ := declared
        exact ⟨[(x, "default")], .refl _,
          ((flagged.trans (add q x "default" (.inl rfl))).trans (kept _)).trans
          (exportPlain _ x "default" _).2⟩
      | none => exact ⟨[], .refl _, flagged.trans (keep _ rfl (anonymous expression span))⟩
    · simp only [function, isClass, Bool.or_self, Bool.false_eq_true, if_false]
      exact ⟨[], .refl _, flagged.trans (keep _ rfl (anonymous lookedUp span))⟩

theorem exportName (r : Draft) (n : Node) :
    Adds n.listedExport?.toList (n.listedExport?.toList.filterMap ExportEntry.pair?) r
      (r.exportName n) := by
  rcases n.specifier_cases with ⟨s, name, other, rfl⟩ | other
  · have noted := noteExportName r other.nameText
    simp only [Draft.exportName, Node.listedExport?]
    split
    · next x ref _ s _ => exact (noted.trans (exportBehind _ x other.nameText ref s)).congr rfl rfl
    · exact (noted.trans (exportBehind _ name.nameText other.nameText .none none)).congr rfl rfl
  · rw [Node.listedExport?.eq_2 n other, Draft.exportName.eq_3 r n other]
    exact of_core rfl

theorem exportNames (r : Draft) (specifiers : List Node) :
    Adds (specifiers.filterMap Node.listedExport?)
      ((specifiers.filterMap Node.listedExport?).filterMap ExportEntry.pair?) r
      (r.exportNames specifiers) := by
  have all : Adds (specifiers.flatMap fun n => n.listedExport?.toList)
      (specifiers.flatMap fun n => n.listedExport?.toList.filterMap ExportEntry.pair?) r
      (r.exportNames specifiers) :=
    foldl (fun r _ n _ => exportName r n) (List.nil_subset _)
  rw [List.filterMap_eq_flatMap_toList, List.filterMap_flatMap]
  exact all

theorem exportGetter_realised {isStrict : Bool} {items : List Item} {entry : ExportEntry}
    {e : String} {v : Imported}
    (h : entry.Realised isStrict items (.defined e (Made.getter v.toNode))) :
    List.Forall₂ (ExportEntry.Realised isStrict items) [entry]
      (Item.exportGetter e v).exportWrites := by
  rw [Item.exportWrites_exportGetter]
  exact .cons h .nil

theorem reexportName (r : Draft) {path ref : String} {span : Option Span} (n : Node)
    (required : [.requireBinding ref path span] ⊆ r.content) :
    Adds (n.passedExport? path).toList [] r (r.reexportName path ref n) := by
  have required : .requireBinding ref path span ∈ r.content := required (List.mem_singleton_self _)
  rcases n.specifier_cases with ⟨s, name, other, rfl⟩ | other
  · have noted := noteExportName r other.nameText
    simp only [Draft.reexportName, Node.passedExport?]
    by_cases isDefault : name.nameText = "default"
    · simp only [isDefault, if_true]
      obtain ⟨helped, listed⟩ := helper (r.noteExportName other.nameText) .interopDefault
      have both := noted.trans helped
      refine ((both.trans (hoist Priority.ordinary rfl (exportGetter_realised ?_))).predeclare
        (by simp [ExportEntry.exported])).congr
        rfl rfl
      refine ⟨ref, span, both.content required, ?_⟩
      rw [if_pos rfl]
      exact ⟨_, listed, rfl⟩
    · simp only [isDefault, if_false]
      refine ((noted.trans (hoist Priority.ordinary rfl (exportGetter_realised ?_))).predeclare
        (by simp [ExportEntry.exported])).congr rfl rfl
      refine ⟨ref, span, noted.content required, ?_⟩
      rw [if_neg isDefault]
  · rw [Node.passedExport?.eq_2 path n other, Draft.reexportName.eq_2 r path ref n other]
    exact of_core rfl

theorem reexport (r : Draft) (known : r.Linked) (path : String) (specifiers : List Node)
    (priority : Priority) :
    Adds (specifiers.filterMap (Node.passedExport? path)) [] r
      (r.reexport path specifiers priority) := by
  obtain ⟨required, bound⟩ := require r path priority (r.imports.spanOf path)
  obtain ⟨-, span, listed⟩ := bound known
  have all : Adds (specifiers.flatMap fun n => (n.passedExport? path).toList)
      (specifiers.flatMap fun _ => []) (r.require path priority (r.imports.spanOf path)).2
      (r.reexport path specifiers priority) :=
    foldl (fun r present n _ => reexportName r n present)
      (List.cons_subset.mpr ⟨listed, List.nil_subset _⟩)
  have none : (specifiers.flatMap fun _ => ([] : List (String × String))) = [] := by simp
  rw [none] at all
  rw [List.filterMap_eq_flatMap_toList]
  exact required.trans all

theorem exportAll (r : Draft) (known : r.Linked) (path : String) (name : Node) (span : Option Span)
    (priority : Priority) :
    Adds (if name.isAbsent then [] else [.wholeModule path name.nameText]) [] r
      (r.exportAll path name span priority) := by
  obtain ⟨required, bound⟩ :=
    require { r with hasExports := true } path priority (r.imports.spanOf path)
  obtain ⟨-, span', listed⟩ := bound ⟨known.declared, known.redirects⟩
  unfold Draft.exportAll
  dsimp only
  generalize Draft.require { r with hasExports := true } path priority (r.imports.spanOf path) =
    step at required listed ⊢
  have first : Adds [] [] r step.2 := required.congr rfl rfl
  split
  · have star : Adds [] [] { step.2 with hasNamed := true }
        ({ step.2 with hasNamed := true }.hoist Priority.ordinary (.exportStar step.1 span)) :=
      hoist_silent Priority.ordinary rfl rfl
    exact first.trans (star.congr rfl rfl)
  · have noted := first.trans (noteExportName step.2 name.nameText)
    have listed := (noteExportName step.2 name.nameText).content listed
    generalize step.2.noteExportName name.nameText = r₁ at noted listed ⊢
    by_cases strict : r₁.options.strict = true
    · simp only [strict, if_true]
      refine ((noted.trans (hoist Priority.ordinary rfl (exportGetter_realised ?_))).predeclare
        (by simp [ExportEntry.exported])).congr rfl rfl
      refine ⟨step.1, span', listed, ?_⟩
      rw [if_pos strict]
    · simp only [strict]
      obtain ⟨helped, helperListed⟩ := helper r₁ .interopWildcard
      refine (((noted.trans helped).trans
        (hoist Priority.ordinary rfl (exportGetter_realised ?_))).predeclare (by
        simp [ExportEntry.exported])).congr rfl rfl
      refine ⟨step.1, span', helped.content listed, ?_⟩
      rw [helped.options, if_neg strict]
      exact ⟨_, helperListed, rfl⟩

theorem recordImport (r : Draft) (isType : Bool) (path : String) (span : Option Span)
    (specifiers : List Node) (priority : Priority) :
    Adds [] [] r (r.recordImport isType path span specifiers priority) := by
  unfold Draft.recordImport
  dsimp only
  split <;> exact of_core rfl

end Adds

theorem pair?_passedExport? (path : String) (n : Node) :
    (n.passedExport? path).bind ExportEntry.pair? = none := by
  unfold Node.passedExport?
  split <;> rfl

/-- What comes of a statement: all its exports are set up, or the name that is kept for the module
flag is among those it exports. -/
def Answers (r : Draft) (names : List String) (entries : List ExportEntry)
    (result : Except Error Draft) : Prop :=
  match result with
  | .ok r' => "__esModule" ∉ names ∧
      ∃ pairs, pairs.Perm (entries.filterMap ExportEntry.pair?) ∧ Adds entries pairs r r'
  | .error _ => "__esModule" ∈ names

theorem Answers.of_adds {r r' : Draft} {pairs : List (String × String)} {entries : List ExportEntry}
    (h : Adds entries pairs r r') (same : pairs.Perm (entries.filterMap ExportEntry.pair?)) :
    r.Answers [] entries (.ok r') := ⟨List.not_mem_nil, pairs, same, h⟩

theorem Answers.checked {r r' : Draft} {names : List (String × Option Span)}
    {pairs : List (String × String)} {entries : List ExportEntry}
    (same : pairs.Perm (entries.filterMap ExportEntry.pair?)) (h : Adds entries pairs r r') :
    r.Answers (names.map Prod.fst) entries (checkExports names >>= fun _ => .ok r') := by
  induction names with
  | nil => exact of_adds h same
  | cons p names ih =>
    obtain ⟨x, span⟩ := p
    by_cases illegal : x = "__esModule"
    · rw [checkExports, checkExport, if_pos illegal]
      exact List.mem_cons.mpr (.inl illegal.symm)
    · rw [checkExports, checkExport, if_neg illegal]
      change r.Answers (x :: names.map Prod.fst) entries (checkExports names >>= fun _ => .ok r')
      cases checked : checkExports names with
      | error e =>
        rw [checked] at ih
        exact List.mem_cons_of_mem _ ih
      | ok =>
        rw [checked] at ih
        exact ⟨by simpa [Ne.symm illegal] using ih.1, ih.2⟩

theorem Scans.adds {hints : Hints} {r r' : Draft} {n : Node} (scans : Scans hints r n r')
    (known : r.Linked) (lookedUp : n.isLookedUp = true) (fits : n.exportsDeclarators = true) :
    ∃ pairs, pairs.Perm (n.exportEntries.filterMap ExportEntry.pair?) ∧
      Adds n.exportEntries pairs r r' := by
  have inside {d : Node} {f : Form} {s : Option Span} (eq : n = .mk f s [d]) :
      d.isLookedUp = true := by
    subst eq
    exact Node.isLookedUp_mk lookedUp d (List.mem_singleton_self d)
  cases scans with
  | imported => exact ⟨[], .refl _, .recordImport ..⟩
  | erased erased =>
    rw [erased.exportEntries]
    exact ⟨[], .refl _, .of_core rfl⟩
  | default s d runtime =>
    obtain ⟨pairs, same, added⟩ :=
      Adds.exportDefault r (inside rfl) runtime s s (hints.priorityOf s)
    exact ⟨pairs, same, added.congr rfl rfl⟩
  | declaration s d runtime =>
    rw [Node.exportEntries, runtime]
    obtain ⟨pairs, same, added⟩ :=
      Adds.exportDeclaration { r with hasExports := true } (inside rfl) fits (hints.priorityOf s)
    exact ⟨pairs, same, added.congr rfl rfl⟩
  | names s specifiers =>
    exact ⟨_, .refl _, (Adds.exportNames { r with hasExports := true } specifiers).congr rfl rfl⟩
  | namesFrom path s parts =>
    have added := Adds.reexport { r with hasExports := true } ⟨known.declared, known.redirects⟩ path
      parts.dropLast (hints.priorityOf s)
    refine ⟨[], ?_, added.congr rfl rfl⟩
    rw [Node.exportEntries, List.filterMap_filterMap, List.filterMap_eq_nil_iff.mpr fun n _ =>
      pair?_passedExport? path n]
  | all path s name rest =>
    refine ⟨[], ?_, Adds.exportAll r known path name s (hints.priorityOf s)⟩
    rw [Node.exportEntries]
    cases name.isAbsent <;> exact .refl _
  | assigned s e =>
    refine ⟨[], .refl _, Adds.keep_silent _ rfl ?_⟩
    rw [Item.exportWrites_moduleExports]
    exact Node.exportWrites_of_isLookedUp (inside rfl) none
  | whole whole =>
    rw [whole.exportEntries]
    exact ⟨[], .refl _, Adds.keep_silent _ rfl (Node.exportWrites_of_isLookedUp lookedUp none)⟩

theorem scanStatement_answers {hints : Hints} {r : Draft} (known : r.Linked) {n : Node}
    (lookedUp : n.isLookedUp = true) (fits : n.exportsDeclarators = true) :
    r.Answers n.announcedNames n.exportEntries (r.scanStatement hints n) := by
  obtain ⟨r', scans, eq⟩ := exists_scans hints r n
  obtain ⟨pairs, same, added⟩ := scans.adds known lookedUp fits
  rw [eq, Node.announcedNames_eq]
  exact .checked same added

theorem scan_answers {hints : Hints} {ns : List Node} (lookedUp : ∀ n ∈ ns, n.isLookedUp = true)
    (fits : ∀ n ∈ ns, n.exportsDeclarators = true) {r : Draft} (known : r.Linked) :
    r.Answers (ns.flatMap Node.announcedNames) (ns.flatMap Node.exportEntries)
      (r.scan hints ns) := by
  induction ns generalizing r with
  | nil => exact .of_adds (.of_core rfl) (.refl _)
  | cons n ns ih =>
    rw [List.forall_mem_cons] at lookedUp fits
    have first : r.Answers n.announcedNames n.exportEntries (r.scanStatement hints n) :=
      scanStatement_answers known lookedUp.1 fits.1
    simp only [List.flatMap_cons, scan]
    cases scanned : r.scanStatement hints n with
    | error e =>
      rw [scanned] at first
      exact List.mem_append_left _ first
    | ok r₁ =>
      rw [scanned] at first
      obtain ⟨legal, pairs, same, added⟩ := first
      have rest := ih lookedUp.2 fits.2 (added.linked known)
      change r.Answers _ _ (r₁.scan hints ns)
      cases ended : r₁.scan hints ns with
      | error e =>
        rw [ended] at rest
        exact List.mem_append_right _ rest
      | ok r' =>
        rw [ended] at rest
        obtain ⟨legal', pairs', same', added'⟩ := rest
        refine ⟨by simp [legal, legal'], pairs ++ pairs', ?_, added.trans added'⟩
        rw [List.filterMap_append]
        exact same.append same'

namespace Adds

variable {r : Draft}

theorem importVariable (r : Draft) (priority : Priority) (x : String) (value : Imported)
    (span : Option Span) :
    Adds [] [] r (r.hoist priority (.importVariable x value span)) := hoist_silent priority rfl rfl

theorem redirect (r : Draft) (x : String) (target : Redirect)
    (head : target.object.toList.head? = some '_') :
    Adds [] [] r { r with redirects := r.redirects.insert x target } where
  writes := ⟨[], by simp [exportWrites, Draft.content], .nil⟩
  table := rfl
  content := List.Subset.refl _
  options := rfl
  linked known := by
    refine ⟨known.declared, fun e among => ?_⟩
    rcases OrderedMap.mem_update among with old | rfl | ⟨_, _, rfl⟩
    · exact known.redirects e old
    · exact head
    · exact head
  preamble item among := .inl among
  early e among := .inl among

section
variable {ref : String} (head : ref.toList.head? = some '_')
include head

theorem bindNamespace (r : Draft) (group : ImportGroup) (s : Specifier) :
    Adds [] [] r (r.bindNamespace ref group s) := by
  cases s with
  | «namespace» x =>
    simp only [Draft.bindNamespace]
    split
    · exact redirect r x (.binding ref) head
    · exact (helper r .interopWildcard).1.trans (importVariable _ _ _ _ _)
  | default | named => exact of_core rfl

theorem bindImported (r : Draft) (group : ImportGroup) (x imported : String) :
    Adds [] [] r (r.bindImported ref group x imported) := by
  unfold Draft.bindImported
  split
  · exact (helper r .interopDefault).1.trans (importVariable _ _ _ _ _)
  · exact (redirect r x (.member ref imported) head).trans (importVariable _ _ _ _ _)

theorem bindName (r : Draft) (group : ImportGroup) (s : Specifier) :
    Adds [] [] r (r.bindName ref group s) := by
  cases s with
  | «namespace» => exact of_core rfl
  | default x => exact bindImported head r group x "default"
  | named x imported => exact bindImported head r group x imported

end

theorem foldl_silent {α : Type} {f : Draft → α → Draft}
    (step : ∀ r, r.Linked → ∀ a, Adds [] [] r (f r a)) (as : List α) {r : Draft}
    (known : r.Linked) : Adds [] [] r (as.foldl f r) := by
  induction as generalizing r with
  | nil => exact of_core rfl
  | cons a as ih => exact (step r known a).trans (ih ((step r known a).linked known))

theorem lowerGroup (r : Draft) (known : r.Linked) (path : String) (group : ImportGroup) :
    Adds [] [] r (r.lowerGroup path group) := by
  unfold Draft.lowerGroup
  split
  · exact hoist_silent _ rfl rfl
  · obtain ⟨required, bound⟩ := require r path group.priority group.span
    have head := (bound known).1
    have linked := required.linked known
    have spaces := foldl_silent (fun r _ s => bindNamespace head r group s) group.specifiers linked
    have names := foldl_silent (fun r _ s => bindName head r group s) group.specifiers
      (spaces.linked linked)
    exact ((required.trans spaces).trans names).congr rfl rfl

theorem lowerImports {r : Draft} (known : r.Linked) : Adds [] [] r r.lowerImports := by
  have start : { r with imports := .empty }.Linked := ⟨known.declared, known.redirects⟩
  exact (foldl_silent (fun r known (e : String × ImportGroup) => lowerGroup r known e.1 e.2)
    r.imports.entries start).congr rfl rfl

end Adds

end Draft

namespace Draft

theorem content_subset_items (r : Draft) : r.content ⊆ r.items := by
  intro item among
  rcases List.mem_append.mp among with listed | helper
  · obtain ⟨e, member, rfl⟩ := List.mem_map.mp listed
    refine Sound.mem_items ?_
    rw [List.append_assoc r.header]
    exact List.mem_append_left _ (List.mem_append_right _ member)
  · exact List.mem_append_right _ helper

theorem exportWrites_items (r : Draft) :
    (r.items.flatMap Item.exportWrites).Perm r.exportWrites := by
  have header : (r.header.map Prod.snd).flatMap Item.exportWrites = [] := by
    unfold Draft.header
    split <;> split <;> rfl
  have footer : (r.footer.map Prod.snd).flatMap Item.exportWrites = [] := by
    unfold Draft.footer
    split
    · have replaced : Item.defaultAlias.exportWrites = [] := Item.exportWrites_of_isSilent rfl
      simp [replaced]
    · rfl
  have arranged :=
    ((arrange_perm (r.header ++ r.top ++ r.body ++ r.footer)).map Prod.snd).flatMap_right
      Item.exportWrites
  rw [items, List.flatMap_append, exportWrites, content, List.flatMap_append]
  refine (arranged.trans (.of_eq ?_)).append_right _
  simp only [List.map_append, List.flatMap_append, header, footer, List.nil_append, List.append_nil]

end Draft

/-- Every export of a module is set up by one write of its own, and no other one is; and the table
of exported variables lists those that have a name in the module. -/
theorem exports_realised_once (options : Options) (hints : Hints) (taken : TakenNames)
    {statements : List Node} (lookedUp : ∀ n ∈ statements, n.isLookedUp = true)
    (fits : ∀ n ∈ statements, n.exportsDeclarators = true)
    (legal : ∀ n ∈ statements, "__esModule" ∉ n.announcedNames) :
    ∃ r, (Draft.start options taken).scan hints statements = .ok r ∧
      (∃ ws, ws.Perm (r.lowerImports.items.flatMap Item.exportWrites) ∧
        List.Forall₂ (ExportEntry.Realised options.strict r.lowerImports.items)
          (statements.flatMap Node.exportEntries) ws) ∧
      ∃ pairs, pairs.Perm ((statements.flatMap Node.exportEntries).filterMap ExportEntry.pair?) ∧
        r.lowerImports.exports = ExportTable.ofPairs pairs := by
  have known : (Draft.start options taken).Linked := .start options taken
  have answer : (Draft.start options taken).Answers _ _ ((Draft.start options taken).scan hints
    statements) :=
    Draft.scan_answers lookedUp fits known
  cases scanned : (Draft.start options taken).scan hints statements with
  | error e =>
    rw [scanned] at answer
    obtain ⟨n, among, illegal⟩ := List.mem_flatMap.mp answer
    exact absurd illegal (legal n among)
  | ok r =>
    rw [scanned] at answer
    obtain ⟨-, pairs, same, added⟩ := answer
    have finished := added.trans (.lowerImports (added.linked known))
    rw [List.append_nil, List.append_nil] at finished
    obtain ⟨ws, perm, realised⟩ := finished.writes
    refine ⟨r, rfl, ⟨ws, ?_, ?_⟩, pairs, same, finished.table⟩
    · exact ((Draft.exportWrites_items r.lowerImports).trans perm).symm
    · rw [finished.options] at realised
      exact realised.imp fun _ _ h => h.mono r.lowerImports.content_subset_items

/-- `export let a = 1, { b } = o;`, `export default function f() {}`, `export { a as c };`,
`export { default as d } from "./m";` and `export * as e from "./n";` -/
def everyExport : List Node :=
  [.made .exportDeclaration [.made (.varDecl .blockScoped false)
      [.made (.declarator false) [.made (.binder "a" none) [], Node.absent, Made.number 1],
       .made (.declarator false) [.made .bindingObject [.made (.bindingProperty true false)
          [Made.word "b", .made (.binder "b" none) []]], Node.absent, .made (.ident "o" .global)
          []]]],
   .made .exportDefault [.made (.function ⟨.declaration, false, false, false, false⟩)
      [.made (.binder "f" none) [], Node.absent, .made .parameters [], Node.absent, .made (.body [])
      []]],
   .made (.exportNamed false)
   [.made (.exportSpecifier false) [.made (.mention "a" .global .either) [], Made.word "c"]],
   .made (.exportFrom false "./m")
   [.made (.exportSpecifier false) [Made.word "default", Made.word "d"], Node.absent],
   .made (.exportAll false "./n") [Made.word "e", Node.absent]]

theorem exports_realised_once_everyExport :
    ((∀ n ∈ everyExport, n.isLookedUp = true) ∧ (∀ n ∈ everyExport, n.exportsDeclarators = true) ∧
      ∀ n ∈ everyExport, "__esModule" ∉ n.announcedNames) ∧
    everyExport.flatMap Node.exportEntries = [.declared "a" (Made.number 1), .binding "b" "b",
      .binding "f" "default", .binding "a" "c", .reexport "./m" "default" "d",
        .wholeModule "./n" "e"] ∧
    ∃ r, (Draft.start Options.default ⟨[]⟩).scan .none everyExport = .ok r ∧
      (∃ ws, ws.Perm (r.lowerImports.items.flatMap Item.exportWrites) ∧
        List.Forall₂ (ExportEntry.Realised Options.default.strict r.lowerImports.items)
          (everyExport.flatMap Node.exportEntries) ws) ∧
      ∃ pairs, pairs.Perm ((everyExport.flatMap Node.exportEntries).filterMap ExportEntry.pair?) ∧
        r.lowerImports.exports = ExportTable.ofPairs pairs := by
  have lookedUp : ∀ n ∈ everyExport, n.isLookedUp = true := by decide
  have fits : ∀ n ∈ everyExport, n.exportsDeclarators = true := by decide
  have legal : ∀ n ∈ everyExport, "__esModule" ∉ n.announcedNames := by decide
  exact ⟨⟨lookedUp, fits, legal⟩, rfl, exports_realised_once Options.default .none ⟨[]⟩
    lookedUp fits legal⟩

end ModuleLowering
