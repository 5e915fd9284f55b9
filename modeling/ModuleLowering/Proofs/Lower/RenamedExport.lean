import ModuleLowering.Proofs.Lower.ExportEntry
import ModuleLowering.Proofs.Scope.Flat
import ModuleLowering.Proofs.Scope.RootDeclaration

/-!
What statements export once the names of a module are changed. What is exported by being declared
goes by its new name; everything else is exported under a label, which stays.
-/

set_option autoImplicit false

namespace ModuleLowering

theorem Node.exists_rename (r : Renaming) (f : Form) (s : Option Span) (ps : List Node) :
    ∃ f', Form.Renamed r f f' ∧ (mk f s ps).rename r = .mk f' s (ps.map (rename r)) :=
  ⟨_, (Form.Renamed.rename r f).expandShorthand _, rename_mk r f s ps⟩

def Node.isExporting : Node → Bool
  | .mk .exportDefault _ [_] | .mk .exportDeclaration _ [_] | .mk (.exportNamed _) _
    _ | .mk (.exportFrom ..) _ _
  | .mk (.exportAll ..) _ (_ :: _) => true
  | _ => false

/-- A statement beside what renaming makes of it. An export stays one of its kind, and nothing else
becomes one. -/
inductive Node.RenamedExport (r : Renaming) : Node → Node → Prop
  | default (s : Option Span) (d : Node) :
    RenamedExport r (.mk .exportDefault s [d]) (.mk .exportDefault s [d.rename r])
  | declaration (s : Option Span) (d : Node) :
    RenamedExport r (.mk .exportDeclaration s [d]) (.mk .exportDeclaration s [d.rename r])
  | names (isType : Bool) (s : Option Span) (ps : List Node) :
    RenamedExport r (.mk (.exportNamed isType) s ps)
      (.mk (.exportNamed isType) s (ps.map (rename r)))
  | namesFrom (isType : Bool) (path : String) (s : Option Span) (ps : List Node) :
    RenamedExport r (.mk (.exportFrom isType path) s ps)
      (.mk (.exportFrom isType path) s (ps.map (rename r)))
  | all (isType : Bool) (path : String) (s : Option Span) (name : Node) (rest : List Node) :
    RenamedExport r (.mk (.exportAll isType path) s (name :: rest))
      (.mk (.exportAll isType path) s (name.rename r :: rest.map (rename r)))
  | other {n n' : Node} (silent : n.isExporting = false) (silent' : n'.isExporting = false) :
    RenamedExport r n n'

theorem Node.exists_renamedExport (r : Renaming) (n : Node) :
    ∃ n', n.rename r = n' ∧ RenamedExport r n n' := by
  obtain ⟨f, s, ps⟩ := n
  obtain ⟨f', renamed, eq⟩ := exists_rename r f s ps
  refine ⟨_, eq, ?_⟩
  cases renamed with
  | same =>
    cases f
    case exportDefault | exportDeclaration =>
      rcases ps with _ | ⟨d, _ | ⟨d', rest⟩⟩
      · exact .other rfl rfl
      · constructor
      · exact .other rfl rfl
    case exportNamed isType => exact .names isType s ps
    case exportFrom isType path => exact .namesFrom isType path s ps
    case exportAll isType path =>
      cases ps with
      | nil => exact .other rfl rfl
      | cons name rest => exact .all isType path s name rest
    all_goals exact .other rfl rfl
  | _ => exact .other rfl rfl

theorem Form.Renamed.bindingParts {r : Renaming} {f f' : Form} (h : Renamed r f f') :
    f'.bindingParts = f.bindingParts := by
  cases h with
  | bindingProperty =>
    funext ps
    match ps with
    | [] | [_] | [_, _] | _ :: _ :: _ :: _ => rfl
  | _ => rfl

theorem Form.bindingParts_map (f : Form) (g : Node → Node) (ps : List Node) :
    f.bindingParts (ps.map g) = (f.bindingParts ps).map g := by
  have parts : List.Forall₂ (fun a b => g a = b) ps (ps.map g) :=
    List.forall₂_map_right_iff.mpr (List.forall₂_same.mpr fun _ _ => rfl)
  have mapped := f.bindingParts_forall₂ parts
  rw [← List.forall₂_map_left_iff (R := (· = ·)), List.forall₂_eq_eq_eq] at mapped
  exact mapped.symm

section
variable {t : ScopeTable} {r : Renaming}

theorem Node.boundNames_rename {n : Node} (root : n.BindsAtRoot t) :
    (n.rename r).boundNames = n.boundNames.map fun p =>
      (r.referred (t.rootReference p.1) p.1, p.2) := by
  induction n using Node.induction with
  | step f s ps ih =>
    obtain ⟨f', renamed, eq⟩ := exists_rename r f s ps
    cases binder : f.isBinder with
    | true =>
      obtain ⟨x, symbol, rfl⟩ : ∃ x symbol, f = .binder x symbol := by
        cases f <;> first | exact ⟨_, _, rfl⟩ | cases binder
      obtain ⟨own, rfl, held⟩ := root x symbol (.here s ps)
      simp [rename_mk, Form.rename, Form.expandShorthand, boundNames, ScopeTable.rootReference,
        held, Renaming.referred]
    | false =>
      rw [eq, boundNames_mk (renamed.isBinder.trans binder), boundNames_mk binder,
        renamed.bindingParts, Form.bindingParts_map, List.flatMap_map, List.map_flatMap]
      refine List.flatMap_congr fun p among => ?_
      exact ih p (f.bindingParts_subset ps among) fun x symbol binds =>
        root x symbol (.inside among binds)

def Node.isDeclaration : Node → Bool
  | .mk (.varDecl ..) _ ds => ds.all isDeclarator
  | d => d.form.declaresName || d.isTypeOnly

theorem Node.exists_of_isDeclarator {d : Node} (h : d.isDeclarator = true) :
    ∃ isDefinite s p rest, d = .mk (.declarator isDefinite) s (p :: rest) := by
  unfold isDeclarator at h
  split at h
  · exact ⟨_, _, _, _, rfl⟩
  · cases h

theorem Node.isDeclaration_cases {f : Form} {s : Option Span} {ps : List Node}
    (fits : (mk f s ps).isDeclaration = true) (runtime : (mk f s ps).isTypeOnly = false) :
    (∃ kind isDeclared, f = .varDecl kind isDeclared ∧ ∀ d ∈ ps, d.isDeclarator = true) ∨
      f.declaresName = true := by
  unfold isDeclaration at fits
  split at fits
  · next eq =>
    obtain ⟨rfl, -, rfl⟩ := mk.inj eq
    exact .inl ⟨_, _, rfl, List.all_eq_true.mp fits⟩
  · exact .inr (((Bool.or_eq_true _ _).mp fits).resolve_right (by simp [runtime]))

theorem Node.exportedByDeclaration_rename {d : Node} (fits : d.isDeclaration = true)
    (runtime : d.isTypeOnly = false) (root : ∀ p ∈ d.declaredPatterns, p.BindsAtRoot t) :
    (d.rename r).exportedByDeclaration =
      d.exportedByDeclaration.map fun p => (r.referred (t.rootReference p.1) p.1, p.2) := by
  obtain ⟨f, s, ps⟩ := d
  rw [rename_mk]
  rcases isDeclaration_cases fits runtime with ⟨kind, isDeclared, rfl, declarators⟩ | named
  · simp only [Form.rename, Form.expandShorthand, exportedByDeclaration, List.flatMap_map,
      List.map_flatMap]
    refine List.flatMap_congr fun d among => ?_
    obtain ⟨isDefinite, s', p, rest, rfl⟩ := exists_of_isDeclarator (declarators d among)
    have pattern := root p (mem_declaredPatterns.mpr (.inl ⟨kind, isDeclared, rfl, _, among, rfl⟩))
    simp [rename_mk, parts, boundNames_rename pattern]
  · have first {b : Node} {rest : List Node} (eq : ps = b :: rest) :
        (b.rename r).boundNames = b.boundNames.map fun p =>
          (r.referred (t.rootReference p.1) p.1, p.2) :=
      boundNames_rename (root b (mem_declaredPatterns.mpr (.inr ⟨named, by rw [eq]; rfl⟩)))
    cases f
    case function | classDef | enumDecl | namespaceDecl | importEquals | interface | typeAlias =>
      cases ps with
      | nil => rfl
      | cons b rest =>
        simp [Form.rename, Form.expandShorthand, exportedByDeclaration, declaredName?, first rfl,
          Option.toList_map]
    all_goals cases named

theorem Node.root_of_exportedByDeclaration {d : Node} (fits : d.isDeclaration = true)
    (runtime : d.isTypeOnly = false) (root : ∀ p ∈ d.declaredPatterns, p.BindsAtRoot t) {x : String}
    (exported : x ∈ d.exportedByDeclaration.map Prod.fst) :
    ∃ s, t.root? x = some s := by
  obtain ⟨p, pattern, bound⟩ : ∃ p ∈ d.declaredPatterns, x ∈ p.boundNames.map Prod.fst := by
    obtain ⟨f, s, ps⟩ := d
    rcases isDeclaration_cases fits runtime with ⟨kind, isDeclared, rfl, declarators⟩ | named
    · simp only [exportedByDeclaration, List.map_flatMap] at exported
      obtain ⟨d, among, here⟩ := List.mem_flatMap.mp exported
      obtain ⟨isDefinite, s', p, rest, rfl⟩ := exists_of_isDeclarator (declarators d among)
      exact ⟨p, mem_declaredPatterns.mpr (.inl ⟨kind, isDeclared, rfl, _, among, rfl⟩), here⟩
    · obtain ⟨b, first, head⟩ :
          ∃ b, ps.head? = some b ∧ x ∈ (b.boundNames.head?.toList).map Prod.fst := by
        cases f
        case function | classDef | enumDecl | namespaceDecl | importEquals | interface
          | typeAlias =>
          cases ps with
          | nil => cases exported
          | cons b rest => exact ⟨b, rfl, exported⟩
        all_goals cases named
      refine ⟨b, mem_declaredPatterns.mpr (.inr ⟨named, first⟩), ?_⟩
      obtain ⟨bound, found, rfl⟩ := List.mem_map.mp head
      exact List.mem_map_of_mem (List.mem_of_mem_head? (Option.mem_toList.mp found))
  obtain ⟨symbol, binds⟩ := exists_binds bound
  obtain ⟨s, -, held⟩ := root p pattern x symbol binds
  exact ⟨s, held⟩

theorem Node.isDeclarator_rename (d : Node) : (d.rename r).isDeclarator = d.isDeclarator := by
  obtain ⟨f, s, ps⟩ := d
  obtain ⟨f', renamed, eq⟩ := exists_rename r f s ps
  rw [eq]
  cases renamed with
  | same =>
    cases f
    case declarator =>
      match ps with
      | [] | [_] | [_, _] | [_, _, _] | _ :: _ :: _ :: _ :: _ => rfl
    all_goals rfl
  | _ => rfl

theorem Node.hasDeclarators_rename (d : Node) : (d.rename r).hasDeclarators = d.hasDeclarators := by
  obtain ⟨f, s, ps⟩ := d
  obtain ⟨f', renamed, eq⟩ := exists_rename r f s ps
  rw [eq]
  cases renamed with
  | same =>
    cases f
    case varDecl => simp [hasDeclarators, isDeclarator_rename, Function.comp_def]
    all_goals rfl
  | _ => rfl

theorem Form.Renamed.isAbsent {f f' : Form} (h : Renamed r f f') (s : Option Span)
    (ps qs : List Node) :
    (Node.mk f' s qs).isAbsent = (Node.mk f s ps).isAbsent := by
  cases h with
  | same => cases f <;> rfl
  | _ => rfl

theorem Node.isAbsent_rename (n : Node) : (n.rename r).isAbsent = n.isAbsent := by
  obtain ⟨f, s, ps⟩ := n
  obtain ⟨f', renamed, eq⟩ := exists_rename r f s ps
  rw [eq]
  exact renamed.isAbsent s ps _

theorem Node.isTypeOnly_rename (d : Node) : (d.rename r).isTypeOnly = d.isTypeOnly := by
  obtain ⟨f, s, ps⟩ := d
  obtain ⟨f', renamed, eq⟩ := exists_rename r f s ps
  rw [eq]
  cases renamed with
  | same =>
    cases f
    case function traits =>
      simp only [isTypeOnly, List.getLastD_eq_getLast?, List.getLast?_map]
      cases ps.getLast? with
      | none => rfl
      | some last => simp [isAbsent_rename]
    all_goals rfl
  | _ => rfl

theorem Node.isTypeDefault_rename (d : Node) : (d.rename r).isTypeDefault = d.isTypeDefault := by
  have renamed := renamed_form r d
  simp only [isTypeDefault, isTypeOnly_rename, isFunctionDeclaration, isClassDeclaration]
  generalize (d.rename r).form = f' at renamed
  generalize d.form = f at renamed
  cases renamed <;> rfl

theorem Node.exists_of_plainName? {p : Node} {x : String} (plain : p.plainName? = some x) :
    ∃ symbol s ps, p = .mk (.binder x symbol) s ps := by
  obtain ⟨f, s, ps⟩ := p
  unfold plainName? at plain
  split at plain
  · next form =>
    obtain rfl : f = _ := form
    exact ⟨_, s, ps, by rw [Option.some.inj plain]⟩
  · cases plain

def Node.exportedAs (n : Node) : List String := n.exportEntries.map ExportEntry.exported

/-- The names under which a statement exports something, if what it declares has new names. -/
def Node.externalNames (name : String → String) (n : Node) : List String :=
  match n.form with
  | .exportDeclaration => n.exportedAs.map name
  | _ => n.exportedAs

def Node.isLabelled : Node → Bool
  | .mk (.exportSpecifier _) _ [_, other] => other.form.isLabel
  | _ => true

def Node.isPublication : Node → Bool
  | .mk .exportDeclaration _ [d] => d.isDeclaration
  | .mk (.exportNamed _) _ specifiers => specifiers.all isLabelled
  | .mk (.exportFrom ..) _ parts => parts.all isLabelled
  | .mk (.exportAll ..) _ (name :: _) => name.isAbsent || name.form.isLabel
  | _ => true

theorem Node.exportedAs_default (s : Option Span) (d : Node) :
    (mk .exportDefault s [d]).exportedAs = if d.isTypeDefault then [] else ["default"] := by
  simp only [exportedAs, exportEntries]
  repeat' split
  all_goals rfl

theorem Node.exported_declaratorEntries {d : Node} (fits : d.isDeclarator = true) :
    d.declaratorEntries.map ExportEntry.exported = ((d.parts.head?.map boundNames).getD []).map
      Prod.fst := by
  unfold isDeclarator at fits
  split at fits
  · next p _ initial =>
    simp only [declaratorEntries, parts, List.head?_cons, Option.map_some, Option.getD_some]
    cases plain : p.plainName? with
    | some x =>
      obtain ⟨symbol, s, ps, rfl⟩ := exists_of_plainName? plain
      rfl
    | none => simp [Function.comp_def, ExportEntry.exported]
  · cases fits

theorem Node.exportedAs_declaration (s : Option Span) {d : Node} (fits : d.hasDeclarators = true) :
    (mk .exportDeclaration s [d]).exportedAs = if d.isTypeOnly then []
      else d.exportedByDeclaration.map Prod.fst := by
  simp only [exportedAs, exportEntries]
  split
  · rfl
  · unfold declarationEntries exportedByDeclaration
    split
    · rw [List.map_flatMap, List.map_flatMap]
      exact List.flatMap_congr fun d among =>
        exported_declaratorEntries (List.all_eq_true.mp fits d among)
    · simp [Function.comp_def, ExportEntry.exported]

theorem Node.hasDeclarators_of_isDeclaration {d : Node} (fits : d.isDeclaration = true) :
    d.hasDeclarators = true := by
  unfold isDeclaration at fits
  split at fits
  · exact fits
  · next other =>
    unfold hasDeclarators
    split
    · exact (other _ _ _ _ rfl).elim
    · rfl

theorem Node.root_of_exportedAs {n : Node} (fits : n.isPublication = true)
    (root : n.ExportsAtRoot t) (form : n.form = .exportDeclaration) {x : String}
    (exported : x ∈ n.exportedAs) : ∃ s, t.root? x = some s := by
  obtain ⟨f, s, ps⟩ := n
  obtain rfl : f = .exportDeclaration := form
  match ps with
  | [] | _ :: _ :: _ => cases exported
  | [d] =>
    rw [exportedAs_declaration s (hasDeclarators_of_isDeclaration fits)] at exported
    cases runtime : d.isTypeOnly with
    | true => simp [runtime] at exported
    | false =>
      exact root_of_exportedByDeclaration fits runtime (root d rfl)
        (by simpa [runtime] using exported)

theorem Node.listedExport?_rename {n : Node} (labelled : n.isLabelled = true) :
    (n.rename r).listedExport?.map ExportEntry.exported = n.listedExport?.map
      ExportEntry.exported := by
  obtain ⟨f, s, ps⟩ := n
  obtain ⟨f', renamed, eq⟩ := exists_rename r f s ps
  rw [eq]
  cases renamed with
  | same =>
    cases f
    case exportSpecifier isType =>
      match ps with
      | [] | [_] | _ :: _ :: _ :: _ => cases isType <;> rfl
      | [name, other] =>
        cases isType with
        | true => rfl
        | false => simp [listedExport?, ExportEntry.exported, nameText_rename labelled]
    all_goals rfl
  | _ => rfl

theorem Node.exported_passedExport? (path : String) (n : Node) :
    (n.passedExport? path).map ExportEntry.exported = n.listedExport?.map ExportEntry.exported := by
  unfold passedExport? listedExport?
  split <;> rfl

theorem Node.exportedAs_eq_nil {n : Node} (silent : n.isExporting = false) : n.exportedAs = [] := by
  unfold exportedAs exportEntries
  split <;> first | rfl | cases silent

theorem Node.exportedAs_rename {n : Node} (fits : n.isPublication = true)
    (root : n.ExportsAtRoot t) :
    (n.rename r).exportedAs = n.externalNames fun x => r.referred (t.rootReference x) x := by
  have specifiers (ns : List Node) (labelled : ∀ n ∈ ns, n.isLabelled = true) :
      (ns.map (rename r)).filterMap (fun n => n.listedExport?.map ExportEntry.exported) =
        ns.filterMap fun n => n.listedExport?.map ExportEntry.exported := by
    rw [List.filterMap_map]
    exact List.filterMap_congr fun n among => listedExport?_rename (labelled n among)
  obtain ⟨n', eq, renamed⟩ := n.exists_renamedExport r
  rw [eq]
  cases renamed with
  | default s d => simp only [externalNames, form, exportedAs_default, isTypeDefault_rename]
  | declaration s d =>
    -- Here alone the name that others see is that of a declaration.
    have declarators := hasDeclarators_of_isDeclaration fits
    have declarators' := (hasDeclarators_rename (r := r) d).trans declarators
    simp only [externalNames, form, exportedAs_declaration _ declarators, exportedAs_declaration _
      declarators', isTypeOnly_rename]
    cases runtime : d.isTypeOnly with
    | true => rfl
    | false => simp [exportedByDeclaration_rename fits runtime (root d rfl), Function.comp_def]
  | names isType s ps =>
    cases isType with
    | true => rfl
    | false =>
      simp only [externalNames, form, exportedAs, exportEntries, List.map_filterMap]
      exact specifiers ps (List.all_eq_true.mp fits)
  | namesFrom isType path s ps =>
    cases isType with
    | true => rfl
    | false =>
      simp only [externalNames, form, exportedAs, exportEntries, List.map_filterMap,
        exported_passedExport?, ← List.map_dropLast]
      exact specifiers _ fun n among => List.all_eq_true.mp fits n (List.dropLast_subset ps among)
  | all isType path s name rest =>
    cases isType with
    | true => rfl
    | false =>
      simp only [externalNames, form, exportedAs, exportEntries, isAbsent_rename]
      cases absent : name.isAbsent with
      | true => rfl
      | false =>
        have label : name.form.isLabel = true := by simpa [isPublication, absent] using fits
        simp [ExportEntry.exported, nameText_rename label]
  | other silent silent' =>
    rw [exportedAs_eq_nil silent', externalNames, exportedAs_eq_nil silent]
    split <;> rfl

theorem Node.externalNames_of_not_isModuleSyntax {name : String → String} {n : Node}
    (plain : n.isModuleSyntax = false) :
    n.externalNames name = [] := by
  have silent : n.exportedAs = [] := by
    unfold exportedAs exportEntries
    split <;> first | rfl | cases plain
  unfold externalNames
  split <;> simp [silent]

theorem Node.exportsDeclarators_of_isPublication {n : Node} (fits : n.isPublication = true) :
    n.exportsDeclarators = true := by
  unfold exportsDeclarators
  split
  · exact hasDeclarators_of_isDeclaration fits
  · rfl

theorem Node.externalNames_id (n : Node) : n.externalNames id = n.exportedAs := by
  unfold externalNames
  split
  · exact List.map_id _
  · rfl

theorem Node.exportsDeclarators_rename {n : Node} (fits : n.isPublication = true) :
    (n.rename r).exportsDeclarators = true := by
  obtain ⟨n', eq, renamed⟩ := n.exists_renamedExport r
  rw [eq]
  cases renamed with
  | declaration s d => exact (hasDeclarators_rename d).trans (hasDeclarators_of_isDeclaration fits)
  | default | names | namesFrom | all => rfl
  | other silent silent' =>
    unfold exportsDeclarators
    split
    · cases silent'
    · rfl

end

theorem Node.isLookedUp_rename (r : Renaming) (n : Node) :
    (n.rename r).isLookedUp = n.isLookedUp := by
  induction n using Node.induction with
  | step f s ps ih =>
    obtain ⟨f', renamed, eq⟩ := exists_rename r f s ps
    have parts : areLookedUp (ps.map (rename r)) = areLookedUp ps := by
      rw [Bool.eq_iff_iff]
      simp only [areLookedUp_iff, List.forall_mem_map]
      exact forall₂_congr fun p among => by rw [ih p among]
    rw [eq, isLookedUp, isLookedUp, parts]
    cases renamed with
    | ident x y ref => cases ref <;> rfl
    | _ => rfl

theorem Node.isLookedUp_resolve (t : ScopeTable) (c : ScopeContext) (scope : ScopeId) (n : Node) :
    (n.resolve t c scope).isLookedUp = true := by
  induction n using Node.induction generalizing c scope with
  | step f s ps ih =>
    have parts : areLookedUp (resolveParts t c scope f ps 0 ps) = true := by
      rw [areLookedUp_iff]
      intro p' among
      obtain ⟨p, listed, c', scope', rfl⟩ := mem_resolveParts ps 0 among
      exact ih p listed c' scope'
    rw [resolve, isLookedUp, parts, Bool.and_true]
    cases f
    case ident x ref =>
      simp only [Form.resolve, ScopeTable.refer]
      cases t.lookup c.chain x c.meaning <;> rfl
    all_goals rfl

theorem Original.isLookedUp (s : Original) : s.analysed.program.isLookedUp = true :=
  Node.isLookedUp_resolve ..

theorem Module.isLookedUp_statements {m : Module} (lookedUp : m.program.isLookedUp = true) :
    ∀ n ∈ m.statements, n.isLookedUp = true := by
  obtain ⟨⟨f, s, ps⟩, scopes⟩ := m
  exact Node.isLookedUp_mk lookedUp

end ModuleLowering
