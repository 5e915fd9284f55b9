import Mathlib.Data.List.Flatten
import ModuleLowering.Proofs.Lower.ExternalName
import ModuleLowering.Proofs.Lower.Failure

/-!
The names that the export declarations of a module show to other modules, where they stand, and what
the scan makes of them: it stops at the first that is kept for the module flag. A module's own names
that change on the way neither become that name nor stop being it.
-/

set_option autoImplicit false

namespace ModuleLowering

namespace Node

mutual

def preorder : Node → List Node
  | .mk f s ps => .mk f s ps :: preorderOfParts ps

def preorderOfParts : List Node → List Node
  | [] => []
  | p :: ps => p.preorder ++ preorderOfParts ps

end

def labels (n : Node) : List (String × Option Span) := n.preorder.map label

theorem preorderOfParts_eq_flatMap (ps : List Node) : preorderOfParts ps = ps.flatMap preorder := by
  induction ps with
  | nil => rfl
  | cons p ps ih => rw [preorderOfParts, ih, List.flatMap_cons]

theorem labels_mk (f : Form) (s : Option Span) (ps : List Node) :
    (mk f s ps).labels = (mk f s ps).label :: ps.flatMap labels := by
  rw [labels, preorder, preorderOfParts_eq_flatMap, List.map_cons, List.map_flatMap]
  rfl

theorem sublist_labels_of_mem {f : Form} {s : Option Span} {ps : List Node} {p : Node}
    (among : p ∈ ps) {names : List (String × Option Span)} (inside : names.Sublist p.labels) :
    names.Sublist (mk f s ps).labels := by
  rw [labels_mk]
  exact (inside.trans (List.sublist_flatten_of_mem (List.mem_map_of_mem among))).cons _

theorem label_mem_labels (n : Node) : [n.label].Sublist n.labels := by
  obtain ⟨f, s, ps⟩ := n
  rw [labels_mk]
  exact List.singleton_sublist.mpr List.mem_cons_self

end Node

theorem Form.bindingParts_sublist (f : Form) (ps : List Node) : (f.bindingParts ps).Sublist ps := by
  unfold bindingParts
  split <;> simp

namespace Node

theorem boundNames_sublist (n : Node) : n.boundNames.Sublist n.labels := by
  induction n using Node.induction with
  | step f s ps ih =>
    cases binder : f.isBinder with
    | true =>
      obtain ⟨x, symbol, s', ps', eq⟩ := exists_of_isBinder (b := .mk f s ps) binder
      rw [eq, boundNames]
      exact label_mem_labels (mk (.binder x symbol) s' ps')
    | false =>
      rw [boundNames_mk binder, labels_mk]
      have parts := (f.bindingParts_sublist ps).flatMap boundNames
      exact (parts.trans (.flatMap_right ps ih)).cons _

theorem declaredName?_sublist (d : Node) : d.declaredName?.toList.Sublist d.labels := by
  have first {f : Form} {s : Option Span} {b : Node} {rest : List Node} :
      b.boundNames.head?.toList.Sublist (mk f s (b :: rest)).labels := by
    refine sublist_labels_of_mem List.mem_cons_self (.trans ?_ b.boundNames_sublist)
    cases b.boundNames <;> simp
  unfold declaredName?
  split
  all_goals first | exact first | exact List.nil_sublist _

theorem exportedByDeclaration_sublist (d : Node) : d.exportedByDeclaration.Sublist d.labels := by
  unfold exportedByDeclaration
  split
  · next ds =>
    rw [labels_mk]
    refine .cons _ (.flatMap_right ds fun d _ => ?_)
    obtain ⟨f, s, ps⟩ := d
    cases ps with
    | nil => exact List.nil_sublist _
    | cons p rest => exact sublist_labels_of_mem List.mem_cons_self p.boundNames_sublist
  · exact declaredName?_sublist _

theorem exposedBySpecifier?_sublist (ns : List Node) :
    (ns.filterMap exposedBySpecifier?).Sublist (ns.flatMap labels) := by
  rw [List.filterMap_eq_flatMap_toList]
  refine .flatMap_right ns fun n _ => ?_
  unfold exposedBySpecifier?
  split
  · exact sublist_labels_of_mem (by simp) (label_mem_labels _)
  · exact List.nil_sublist _

theorem exposures_sublist (n : Node) : n.exposures.Sublist n.labels := by
  unfold exposures
  split
  · next d =>
    split
    · exact List.nil_sublist _
    · split
      · exact sublist_labels_of_mem List.mem_cons_self d.declaredName?_sublist
      · exact List.nil_sublist _
  · next d =>
    split
    · exact List.nil_sublist _
    · exact sublist_labels_of_mem List.mem_cons_self d.exportedByDeclaration_sublist
  · rw [labels_mk]
    exact (exposedBySpecifier?_sublist _).cons _
  · rw [labels_mk]
    exact (exposedBySpecifier?_sublist _).cons _
  · split
    · exact List.nil_sublist _
    · exact sublist_labels_of_mem List.mem_cons_self (label_mem_labels _)
  · exact List.nil_sublist _

end Node

def firstReserved? (names : List (String × Option Span)) : Option Error :=
  (names.find? (·.1 = "__esModule")).map fun name =>
    .illegalExport "__esModule" (name.2.getD ⟨0, 0⟩)

theorem firstReserved?_append (names names' : List (String × Option Span)) :
    firstReserved? (names ++ names') = (firstReserved? names).or (firstReserved? names') := by
  rw [firstReserved?, List.find?_append, Option.map_or]
  rfl

theorem firstReserved?_eq_none_iff {names : List (String × Option Span)} :
    firstReserved? names = none ↔ "__esModule" ∉ names.map Prod.fst := by
  simp only [firstReserved?, Option.map_eq_none_iff, List.find?_eq_none, decide_eq_true_eq,
    List.mem_map, not_exists, not_and]

theorem exists_of_firstReserved? {names : List (String × Option Span)} {e : Error}
    (found : firstReserved? names = some e) :
    ∃ earlier place later, names = earlier ++ ("__esModule", place) :: later ∧
      "__esModule" ∉ earlier.map Prod.fst ∧
      e = .illegalExport "__esModule" (place.getD ⟨0, 0⟩) := by
  obtain ⟨⟨x, place⟩, first, rfl⟩ := Option.map_eq_some_iff.mp found
  obtain ⟨reserved, earlier, later, split, others⟩ := List.find?_eq_some_iff_append.mp first
  obtain rfl : x = "__esModule" := by simpa using reserved
  refine ⟨earlier, place, later, split, ?_, rfl⟩
  simp only [List.mem_map, not_exists, not_and]
  intro name among
  simpa using others name among

def stoppedBy? {α : Type} : Except Error α → Option Error
  | .error e => some e
  | .ok _ => none

theorem stoppedBy?_bind_ok {α : Type} (x : Except Error Unit) (a : α) :
    stoppedBy? (x >>= fun _ => .ok a) = stoppedBy? x := by
  cases x <;> rfl

theorem stoppedBy?_checkExports (names : List (String × Option Span)) :
    stoppedBy? (checkExports names) = firstReserved? names := by
  induction names with
  | nil => rfl
  | cons name names ih =>
    obtain ⟨x, span⟩ := name
    rw [checkExports, checkExport]
    by_cases reserved : x = "__esModule"
    · subst reserved
      rfl
    · rw [if_neg reserved, firstReserved?, List.find?_cons_of_neg (by simpa using reserved)]
      exact ih

namespace Draft

variable (hints : Hints)

/-- A statement stops the scan by the first reserved name it shows, whatever was there before. -/
theorem stoppedBy?_scanStatement (r : Draft) (n : Node) :
    stoppedBy? (r.scanStatement hints n) = firstReserved? n.exposures := by
  obtain ⟨r', -, eq⟩ := exists_scans hints r n
  rw [eq, stoppedBy?_bind_ok, stoppedBy?_checkExports]

theorem stoppedBy?_scan (r : Draft) (ns : List Node) :
    stoppedBy? (r.scan hints ns) = firstReserved? (ns.flatMap Node.exposures) := by
  induction ns generalizing r with
  | nil => rfl
  | cons n ns ih =>
    have here := stoppedBy?_scanStatement hints r n
    rw [List.flatMap_cons, firstReserved?_append, scan, ← here]
    cases r.scanStatement hints n with
    | error e => rfl
    | ok r' => exact ih r'

end Draft

theorem firstReserved?_map {name : String → String}
    (kept : ∀ x, name x = "__esModule" ↔ x = "__esModule") (names : List (String × Option Span)) :
    firstReserved? (names.map fun p => (name p.1, p.2)) = firstReserved? names := by
  simp only [firstReserved?, List.find?_map, Option.map_map, Function.comp_def, kept]

namespace Node

variable {t : ScopeTable} {r : Renaming}

theorem exposedBySpecifier?_rename {n : Node} (labelled : n.isLabelled = true) :
    (n.rename r).exposedBySpecifier? = n.exposedBySpecifier? := by
  obtain ⟨f, s, ps⟩ := n
  obtain ⟨f', renamed, eq⟩ := exists_rename r f s ps
  rw [eq]
  cases renamed with
  | same =>
    cases f
    case exportSpecifier isType =>
      match ps with
      | [] | [_] | _ :: _ :: _ :: _ => rfl
      | [name, other] => simp [exposedBySpecifier?, label, nameText_rename labelled, span_rename]
    all_goals rfl
  | _ => rfl

theorem exposures_eq_nil {n : Node} (silent : n.isExporting = false) : n.exposures = [] := by
  unfold exposures
  split <;> first | rfl | cases silent

theorem exposures_default (s : Option Span) (d : Node) :
    (mk .exportDefault s [d]).exposures =
      if !d.isTypeDefault && (d.isFunctionDeclaration || d.isClassDeclaration)
      then d.exportedByDeclaration else [] := by
  simp only [exposures]
  cases d.isTypeDefault with
  | true => rfl
  | false =>
    obtain ⟨f, s', ps⟩ := d
    cases f <;> rfl

theorem isDeclaration_of_isFunctionDeclaration {d : Node}
    (declares : (d.isFunctionDeclaration || d.isClassDeclaration) = true) :
    d.isDeclaration = true := by
  obtain ⟨f, s, ps⟩ := d
  cases f
  case function traits =>
    have role : traits.role = .declaration := by
      simpa [isFunctionDeclaration, isClassDeclaration, form] using declares
    simp [isDeclaration, form, Form.declaresName, role]
  case classDef traits =>
    have named : traits.isExpression = false := by
      simpa [isFunctionDeclaration, isClassDeclaration, form] using declares
    simp [isDeclaration, form, Form.declaresName, named]
  all_goals cases declares

theorem declares_rename (d : Node) :
    ((d.rename r).isFunctionDeclaration || (d.rename r).isClassDeclaration) =
    (d.isFunctionDeclaration || d.isClassDeclaration) := by
  have renamed := renamed_form r d
  simp only [isFunctionDeclaration, isClassDeclaration]
  generalize (d.rename r).form = f' at renamed
  generalize d.form = f at renamed
  cases renamed <;> rfl

section
variable (kept : ∀ x, r.referred (t.rootReference x) x = "__esModule" ↔ x = "__esModule")
include kept

theorem firstReserved?_exportedByDeclaration_rename {d : Node} (fits : d.isDeclaration = true)
    (runtime : d.isTypeOnly = false) (root : ∀ p ∈ d.declaredPatterns, p.BindsAtRoot t) :
    firstReserved? (d.rename r).exportedByDeclaration = firstReserved? d.exportedByDeclaration := by
  rw [exportedByDeclaration_rename fits runtime root]
  exact firstReserved?_map kept _

theorem firstReserved?_exposures_rename {n : Node} (fits : n.isPublication = true)
    (root : n.ExportsAtRoot t) :
    firstReserved? (n.rename r).exposures = firstReserved? n.exposures := by
  have specifiers (ps : List Node) (labelled : ∀ p ∈ ps, p.isLabelled = true) :
      (ps.map (rename r)).filterMap exposedBySpecifier? = ps.filterMap exposedBySpecifier? := by
    rw [List.filterMap_map]
    exact List.filterMap_congr fun p among => exposedBySpecifier?_rename (labelled p among)
  obtain ⟨n', eq, renamed⟩ := n.exists_renamedExport r
  rw [eq]
  cases renamed with
  | default s d =>
    rw [exposures_default, exposures_default, isTypeDefault_rename, declares_rename]
    split
    · next shown =>
      simp only [Bool.and_eq_true, Bool.not_eq_true', isTypeDefault] at shown
      -- What a default export declares is shown unless it is a type.
      have runtime : d.isTypeOnly = false := by
        cases onlyType : d.isTypeOnly with
        | true => simp [onlyType, shown.2] at shown
        | false => rfl
      exact firstReserved?_exportedByDeclaration_rename kept (isDeclaration_of_isFunctionDeclaration
        shown.2) runtime (root d rfl)
    · rfl
  | declaration s d =>
    rw [exposures, exposures, isTypeOnly_rename]
    cases runtime : d.isTypeOnly with
    | true => rfl
    | false => exact firstReserved?_exportedByDeclaration_rename kept fits runtime (root d rfl)
  | names isType s ps =>
    cases isType with
    | true => rfl
    | false => exact congrArg firstReserved? (specifiers ps (List.all_eq_true.mp fits))
  | namesFrom isType path s ps =>
    cases isType with
    | true => rfl
    | false => exact congrArg firstReserved? (specifiers ps (List.all_eq_true.mp fits))
  | all isType path s name rest =>
    cases isType with
    | true => rfl
    | false =>
      simp only [exposures, isAbsent_rename]
      cases absent : name.isAbsent with
      | true => rfl
      | false =>
        have labelled : name.form.isLabel = true := by simpa [isPublication, absent] using fits
        simp [label, nameText_rename labelled, span_rename]
  | other silent silent' => rw [exposures_eq_nil silent, exposures_eq_nil silent']

end

end Node

theorem Renaming.choose_candidate {scopes : ScopeTable} {names : List String} {taken : TakenNames}
    {e : Symbol × String} (entry : e ∈ (choose scopes names taken).1.entries) :
    ∃ x ∈ names, ∃ i, e.2 = TakenNames.candidate x i := by
  induction names generalizing taken with
  | nil => cases entry
  | cons name names ih =>
    rw [choose] at entry
    split at entry
    · rcases List.mem_cons.mp entry with rfl | later
      · obtain ⟨i, made⟩ := (taken.firstFree_spec name).1
        exact ⟨name, List.mem_cons_self, i, made⟩
      · obtain ⟨x, among, made⟩ := ih later
        exact ⟨x, List.mem_cons_of_mem _ among, made⟩
    · obtain ⟨x, among, made⟩ := ih entry
      exact ⟨x, List.mem_cons_of_mem _ among, made⟩

/-- The reserved name has two underscores in front, and a name made from one of the runtime's only
one. -/
theorem TakenNames.candidate_ne_reserved {x : String} (among : x ∈ runtimeNames) (i : Nat) :
    candidate x i ≠ "__esModule" := by
  intro same
  have letters := congrArg (fun name => name.toList[1]?) same
  simp only [runtimeNames, List.mem_cons, List.not_mem_nil, or_false] at among
  -- The second letter is that of the name it is made from.
  rcases among with rfl | rfl | rfl <;>
    simp [candidate, show stem "module" = "module".toList by decide +kernel,
      show stem "exports" = "exports".toList by
        decide +kernel, show stem "require" = "require".toList by decide +kernel] at letters

namespace Module

theorem newName_eq_reserved_iff {m : Module} (suits : m.newNames.Suits m.scopes) (x : String) :
    m.newName x = "__esModule" ↔ x = "__esModule" := by
  constructor
  · intro same
    rcases m.newNames.referred_cases (m.scopes.rootReference x) x with kept | ⟨s, -, entry⟩
    · exact kept.symm.trans same
    · obtain ⟨y, among, i, made⟩ := Renaming.choose_candidate entry
      exact absurd (made.symm.trans same) (TakenNames.candidate_ne_reserved among i)
  · rintro rfl
    exact newName_of_not_mem suits (by decide)

end Module

end ModuleLowering
