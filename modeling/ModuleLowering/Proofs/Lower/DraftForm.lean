import ModuleLowering.Proofs.Lower.ImportPlacement
import ModuleLowering.Proofs.Lower.TableLog

/-!
The finished draft of a module, given by its statements: what stands in front and in place, which
paths are required and which exports are late.
-/

set_option autoImplicit false

namespace ModuleLowering

def Node.importedPath? (n : Node) : Option String := n.imported?.map Prod.fst

def ImportGroup.of (hints : Hints) (ns : List Node) (path : String) : ImportGroup :=
  .ofRecords ((ns.filterMap (Node.importRecord? hints)).filter (·.path = path))

theorem Node.path_importRecord? (hints : Hints) (n : Node) :
    (n.importRecord? hints).map ImportRecord.path = n.importedPath? := by
  unfold importRecord? importedPath?
  cases n.imported? <;> rfl

theorem Node.paths_importRecords (hints : Hints) (ns : List Node) :
    (ns.filterMap (importRecord? hints)).map ImportRecord.path = ns.filterMap importedPath? := by
  rw [List.map_filterMap]
  exact List.filterMap_congr fun n _ => n.path_importRecord? hints

theorem ImportTable.entries_ofStatements (hints : Hints) (ns : List Node) :
    (ofStatements hints ns).entries = (ns.filterMap Node.importedPath?).eraseDups.map fun path =>
      (path, .of hints ns path) := by
  rw [ofStatements, entries_recordAll, Node.paths_importRecords]
  rfl

namespace Node

variable (σ : Naming) (isStrict : Bool) (hints : Hints) (before ns : List Node)

theorem emissions_append (ns' : List Node) : emissions σ isStrict hints before (ns ++ ns') =
    emissions σ isStrict hints before ns ++ emissions σ isStrict hints (before ++ ns) ns' := by
  induction ns generalizing before with
  | nil => simp [emissions]
  | cons n ns ih => simp [emissions, ih, Emission.append_assoc]

variable {σ isStrict hints before ns}

theorem flatMap_emissions {α : Type} {part : Emission → List α} {f : Node → List α}
    (empty : part {} = []) (append : ∀ e e', part (e ++ e') = part e ++ part e')
    (each : ∀ before n, part (n.emission σ isStrict hints before) = f n) :
    part (emissions σ isStrict hints before ns) = ns.flatMap f := by
  induction ns generalizing before with
  | nil => exact empty
  | cons n ns ih => rw [emissions, append, each, ih, List.flatMap_cons]

variable (σ isStrict hints before ns)

theorem body_emissions : (emissions σ isStrict hints before ns).body =
    ns.flatMap fun n => n.inPlace (hints.priorityOf n.span) := by
  refine flatMap_emissions rfl Emission.body_append fun before n => ?_
  obtain ⟨top, paths, opening⟩ := n.opening_eq σ hints before
  rw [emission, opening]
  rfl

theorem late_emissions : (emissions σ isStrict hints before ns).late = ns.flatMap lateNames := by
  refine flatMap_emissions rfl Emission.late_append fun before n => ?_
  obtain ⟨top, paths, opening⟩ := n.opening_eq σ hints before
  rw [emission, opening]
  rfl

theorem redirects_emissions : (emissions σ isStrict hints before ns).redirects = [] := by
  refine (flatMap_emissions rfl Emission.redirects_append fun before n => ?_).trans
    (Emission.flatMap_nothing ns)
  obtain ⟨top, paths, opening⟩ := n.opening_eq σ hints before
  rw [emission, opening]
  rfl

theorem imports_emissions : (emissions σ isStrict hints before ns).imports = ns.filterMap
    (importRecord? hints) := by
  rw [List.filterMap_eq_flatMap_toList]
  refine flatMap_emissions rfl Emission.imports_append fun before n => ?_
  obtain ⟨top, paths, opening⟩ := n.opening_eq σ hints before
  rw [emission, opening]
  rfl

theorem paths_emissions : (before.filterMap passedPath?).eraseDups ++
    (emissions σ isStrict hints before ns).paths =
    ((before ++ ns).filterMap passedPath?).eraseDups := by
  induction ns generalizing before with
  | nil => simp [emissions]
  | cons n ns ih =>
    have rest := ih (before ++ [n])
    have split : before ++ n :: ns = (before ++ [n]) ++ ns := by simp
    rw [split, ← rest, emissions, Emission.paths_append, ← List.append_assoc]
    congr 1
    rw [emission, opening, Emission.paths_append, List.append_nil, List.filterMap_append,
      List.filterMap_cons]
    cases n.passedPath? with
    | none => simp
    | some path =>
      simp only [List.filterMap_nil, FirstOccurrence.eraseDups_concat, Emission.required]
      split
      · exact List.append_nil _
      · rfl

end Node

def Node.groupEmission (σ : Naming) (isStrict : Bool) (hints : Hints) (ns : List Node)
    (path : String) : Emission :=
  (ImportGroup.of hints ns path).emission σ isStrict (ns.filterMap passedPath?) path

/-- The draft of a module with the statements `ns`. -/
structure Draft.Placed (σ : Naming) (options : Options) (hints : Hints) (ns : List Node)
    (r : Draft) : Prop where
  given : r.options = options
  top : r.top = (Node.emissions σ options.strict hints [] ns).top ++
    (ns.filterMap Node.importedPath?).eraseDups.flatMap fun path =>
    (Node.groupEmission σ options.strict hints ns path).top
  body : r.body = ns.flatMap fun n => n.inPlace (hints.priorityOf n.span)
  paths : r.requires.entries.map Prod.fst = (ns.filterMap Node.passedPath?).eraseDups ++
    (ns.filterMap Node.importedPath?).eraseDups.flatMap fun path =>
    (Node.groupEmission σ options.strict hints ns path).paths
  importing : r.hasImports = !(ns.filterMap Node.importedPath?).isEmpty
  late : ∀ x, x ∈ r.predeclared.names ↔ x ∈ ns.flatMap Node.lateNames
  distinct : r.predeclared.names.Nodup
  redirects : r.redirects = OrderedMap.insertAll .empty
    ((ns.filterMap Node.importedPath?).eraseDups.flatMap fun path =>
    (Node.groupEmission σ options.strict hints ns path).redirects)

theorem Draft.placed {options : Options} {hints : Hints} {taken : TakenNames} {ns : List Node}
    {r : Draft} (scanned : (start options taken).scan hints ns = .ok r) :
    r.lowerImports.Placed r.lowerImports.naming options hints ns := by
  have known := Follows.start options hints taken
  have first : Emits r.lowerImports.naming _ _ r := scan_emits known scanned
  -- The options, paths and imports do not depend on names.
  have own : Emitted r.naming _ _ r := scan_emits known scanned r.uses_naming
  have given : r.options = options := own.options
  have imports : r.imports = .ofStatements hints ns := by
    rw [own.imports, Node.imports_emissions]
    rfl
  have paths : r.requires.entries.map Prod.fst = (ns.filterMap Node.passedPath?).eraseDups := by
    rw [own.paths]
    exact Node.paths_emissions r.naming options.strict hints [] ns
  have entries := ImportTable.entries_ofStatements hints ns
  have distinct : (r.imports.entries.map Prod.fst).Nodup := by
    rw [imports, entries, List.map_map]
    simpa [Function.comp_def] using FirstOccurrence.nodup_eraseDups _
  have second := Emits.lowerImports (congrArg Options.strict given) distinct
    r.lowerImports.uses_naming
  have earlier := first ⟨second.uses.paths, second.uses.helpers⟩
  have groups : Emission.flatMap r.imports.entries (fun e => e.2.emission r.lowerImports.naming
      options.strict (r.requires.entries.map Prod.fst) e.1) = .flatMap
        (ns.filterMap Node.importedPath?).eraseDups (Node.groupEmission r.lowerImports.naming
        options.strict hints ns) := by
    rw [imports, entries, Emission.flatMap_map]
    refine Emission.flatMap_congr fun path _ => ImportGroup.emission_congr ?_
    rw [paths, List.mem_eraseDups]
  rw [groups] at second
  have quiet (paths : List String) :
      (Emission.flatMap paths (Node.groupEmission r.lowerImports.naming options.strict hints
        ns)).body = [] ∧
      (Emission.flatMap paths (Node.groupEmission r.lowerImports.naming options.strict hints
        ns)).late = [] ∧
      (Emission.flatMap paths (Node.groupEmission r.lowerImports.naming options.strict hints
        ns)).imports = [] :=
    ⟨List.flatMap_eq_nil_iff.mpr fun path _ => (ImportGroup.inPlace_emission ..).1,
      List.flatMap_eq_nil_iff.mpr fun path _ => (ImportGroup.inPlace_emission ..).2.1,
      List.flatMap_eq_nil_iff.mpr fun path _ => (ImportGroup.inPlace_emission ..).2.2⟩
  refine ⟨second.options.trans given, ?_, ?_, ?_, ?_, fun x => ?_, ?_, ?_⟩
  · exact second.top.trans (congrArg (· ++ _) earlier.top)
  · rw [second.body, (quiet _).1, List.append_nil]
    exact earlier.body.trans (Node.body_emissions ..)
  · rw [second.paths]
    exact congrArg (· ++ _) paths
  · rw [second.importing, (quiet _).2.2, List.isEmpty_nil, Bool.not_true, Bool.or_false,
      own.importing, Node.imports_emissions]
    rw [← Node.paths_importRecords hints, List.isEmpty_map]
    rfl
  · rw [second.late, (quiet _).2.1, or_iff_left List.not_mem_nil]
    exact (earlier.late x).trans (by rw [Node.late_emissions]; simp [start, NameList.empty])
  · exact second.distinct (earlier.distinct .nil)
  · rw [second.redirects]
    exact congrArg (OrderedMap.insertAll · _)
      (earlier.redirects.trans (by rw [Node.redirects_emissions]; rfl))

theorem Draft.Placed.mem_redirects {r : Draft} {σ : Naming} {options : Options} {hints : Hints}
    {ns : List Node} (h : r.Placed σ options hints ns) {entry : String × Redirect}
    (among : entry ∈ r.redirects.entries) :
    ∃ path ∈ ns.filterMap Node.importedPath?, entry ∈ (Node.groupEmission σ options.strict hints ns
      path).redirects := by
  rw [h.redirects] at among
  obtain ⟨path, listed, here⟩ :=
    List.mem_flatMap.mp ((OrderedMap.mem_insertAll among).resolve_left List.not_mem_nil)
  exact ⟨path, List.mem_eraseDups.mp listed, here⟩

end ModuleLowering
