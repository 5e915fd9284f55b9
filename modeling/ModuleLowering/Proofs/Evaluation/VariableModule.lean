import ModuleLowering.Proofs.Evaluation.Respelled
import ModuleLowering.Proofs.Lower.Arrange

/-!
What becomes of a module of variables: which statements stand for each of its own, and what its
exports are known as.
-/

set_option autoImplicit false

namespace ModuleLowering

-- Modules of variables open no scopes, and every name in them is declared or looked up.
section Scope

theorem Node.mem_unresolvedInParts {ps : List Node} {x : String} :
    x ∈ unresolvedInParts ps ↔ ∃ p ∈ ps, x ∈ p.unresolved := by
  induction ps with
  | nil => simp [unresolvedInParts]
  | cons p ps ih => simp [unresolvedInParts, ih]

theorem Node.mem_unresolved_of_part {name : String → String} {ref : String → Reference} {f : Form}
    {s : Option Span} {ps : List Node} {p : Node} (among : p ∈ ps) {x : String}
    (found : x ∈ (p.respell name ref).unresolved) :
    x ∈ ((mk f s ps).respell name ref).unresolved := by
  rw [respell_mk, unresolved]
  exact List.mem_append_right _ (mem_unresolvedInParts.mpr ⟨_, List.mem_map_of_mem among, found⟩)

theorem Node.mem_unresolved_of_variable {ref : String → Reference} {x : String}
    (unknown : ref x = .global) (n : Node) (occurs : x ∈ n.variables) :
    x ∈ (n.respell id ref).unresolved := by
  induction n using Node.induction with
  | step f s ps ih =>
    have below : x ∈ variablesOfParts ps → x ∈ ((mk f s ps).respell id ref).unresolved :=
      fun inside => by
      obtain ⟨p, among, occurs⟩ := mem_variablesOfParts.mp inside
      exact mem_unresolved_of_part among (ih p among occurs)
    cases f
    case ident y r | target y r =>
      obtain rfl : x = y := by simpa [Node.variables] using occurs
      simp [respell, Form.respell, unresolved, Form.unresolved?, unknown]
    all_goals exact below occurs

theorem Node.declarator_isFlat {kind : VariableKind} {isExported : Bool} {d : Node} {step : Step}
    (h : d.declaratorStep? kind isExported = some step) : d.isFlat true = true := by
  obtain ⟨isDefinite, s, x, symbol, s', typing, value, rfl, bare, shape, rfl⟩ :=
    declaratorStep?_eq_some h
  obtain ⟨s₁, rfl⟩ := isNothing_iff.mp bare
  have flat : value.isFlat true = true := by
    rcases shape with nothing | plain
    · obtain ⟨s₂, rfl⟩ := isNothing_iff.mp nothing
      rfl
    · exact (plain_of_isPlain value plain).isFlat true
  simp [isFlat, areFlat, Form.isFlat, Form.isBinder, Form.declaresIn, flat]

theorem Node.declarator_names {kind : VariableKind} {isExported : Bool} {d : Node} {step : Step}
    (h : d.declaratorStep? kind isExported = some step) {x : String} (named : x ∈ step.names) :
    x ∈ d.declaredNames true ∨ ∀ ref : String → Reference, ref x = .global →
      x ∈ (d.respell id ref).unresolved := by
  obtain ⟨isDefinite, s, y, symbol, s', typing, value, rfl, bare, shape, rfl⟩ :=
    declaratorStep?_eq_some h
  rcases List.mem_cons.mp named with rfl | occurs
  · exact .inl (by simp [declaredNames, declaredNamesOfParts, Form.declaredNames, Form.declaresIn])
  · refine .inr fun ref unknown => ?_
    exact mem_unresolved_of_part (p := value) (by simp)
      (mem_unresolved_of_variable unknown value occurs)

theorem Node.specifier_isFlat {p : Node} {step : Step} (h : p.specifierStep? = some step) :
    p.isFlat false = true := by
  obtain ⟨s, x, ref, s', ⟨f, s'', ps⟩, rfl, other, label, bare, -⟩ := specifierStep?_eq_some h
  obtain rfl : ps = [] := bare
  rcases label with ⟨y, rfl⟩ | ⟨y, rfl⟩ <;>
    simp [isFlat, areFlat, Form.isFlat, Form.isBinder, Form.declaresIn, other]

theorem Node.varDecl_isFlat {kind : VariableKind} {isExported : Bool} {ds : List Node}
    {steps : List Step} (each : DeclaratorsTake kind isExported ds steps) (s : Option Span) :
    (mk (.varDecl kind false) s ds).isFlat false = true := by
  have flat : ∀ d ∈ ds, d.isFlat true = true := fun d among => by
    obtain ⟨step, -, taken⟩ := (exists_of_forall₂ each).1 d among
    exact declarator_isFlat taken
  rw [isFlat, areFlat_of_forall (fun _ => rfl) flat]
  rfl

theorem Node.Takes.isFlat {n : Node} {steps : List Step} (h : n.Takes steps) :
    n.isFlat false = true := by
  cases h with
  | declare s ordinary each => exact Node.varDecl_isFlat each s
  | @exportDeclared kind s s' ds steps ordinary each =>
    have inside : (Node.mk (.varDecl kind false) s' ds).isFlat
      (Form.exportDeclaration.declaresIn false 0) = true :=
      Node.varDecl_isFlat each s'
    rw [Node.isFlat, Node.areFlat, inside]
    rfl
  | @list s ps steps each =>
    have flat : ∀ p ∈ ps, p.isFlat false = true := fun p among => by
      obtain ⟨step, -, taken⟩ := (exists_of_forall₂ each).1 p among
      exact Node.specifier_isFlat taken
    rw [Node.isFlat, Node.areFlat_of_forall (fun _ => rfl) flat]
    rfl
  | perform s plain =>
    simp [Node.isFlat, Node.areFlat, Form.isFlat, Form.isBinder, Form.declaresIn, plain.isFlat]

theorem Node.varDecl_names {kind : VariableKind} {isExported : Bool} {ds : List Node}
    {steps : List Step} (each : DeclaratorsTake kind isExported ds steps) (s : Option Span)
    {step : Step} (among : step ∈ steps) {x : String} (named : x ∈ step.names) :
    x ∈ (mk (.varDecl kind false) s ds).declaredNames false ∨
      ∀ ref : String → Reference, ref x = .global →
        x ∈ ((mk (.varDecl kind false) s ds).respell id ref).unresolved := by
  obtain ⟨d, among, taken⟩ := (exists_of_forall₂ each).2 step among
  refine (declarator_names taken named).imp (fun declared => ?_) fun found ref unknown =>
    mem_unresolved_of_part among (found ref unknown)
  obtain ⟨j, found⟩ := List.getElem?_of_mem among
  exact mem_declaredNames_of_flat found declared

theorem Node.Takes.names {n : Node} {steps : List Step} (h : n.Takes steps) {step : Step}
    (among : step ∈ steps) {x : String} (named : x ∈ step.names) :
    x ∈ n.declaredNames false ∨ ∀ ref : String → Reference, ref x = .global →
      x ∈ (n.respell id ref).unresolved := by
  cases h with
  | declare s ordinary each => exact Node.varDecl_names each s among named
  | exportDeclared s s' ordinary each =>
    refine (Node.varDecl_names each s' among named).imp (fun declared => ?_)
      fun found ref unknown =>
      Node.mem_unresolved_of_part List.mem_cons_self (found ref unknown)
    exact Node.mem_declaredNames_of_flat (j := 0) rfl declared
  | list s each =>
    obtain ⟨p, inside, taken⟩ := (exists_of_forall₂ each).2 step among
    obtain ⟨s, y, ref', s', other, rfl, -, label, bare, rfl⟩ := Node.specifierStep?_eq_some taken
    obtain rfl : x = y := by simpa [Step.names] using named
    refine .inr fun ref unknown => Node.mem_unresolved_of_part inside ?_
    refine Node.mem_unresolved_of_part List.mem_cons_self ?_
    simp [Node.respell, Form.respell, Node.unresolved, Form.unresolved?, unknown]
  | perform s plain =>
    obtain rfl := List.mem_singleton.mp among
    exact .inr fun ref unknown =>
      Node.mem_unresolved_of_part List.mem_cons_self
        (Node.mem_unresolved_of_variable unknown _ named)

end Scope

def Node.exportItem? : Node → Option Item
  | .mk (.exportSpecifier false) _ [.mk (.mention x ref _) s _, other] =>
    some (.exportValue other.nameText (.mk (.ident x ref) s []) none)
  | _ => none

def Node.lowerings : Node → List Item
  | .mk .exportDeclaration _ [.mk (.varDecl kind isDeclared) s ds] =>
    [.kept (.mk (.varDecl kind isDeclared) s (ds.map Draft.exportDeclarator))]
  | .mk (.exportNamed _) _ ps => ps.filterMap exportItem?
  | n => [.kept n]

/-- The variable that a step exports and the name it exports it under, all under new names. A
declaration exports its variable under the new name. -/
def Step.spelledPair? (name : String → String) : Step → Option (String × String)
  | .declare _ true x _ => some (name x, name x)
  | .list x exported => some (name x, exported)
  | _ => none

theorem Step.spelledPair?_id : spelledPair? id = pair? := by
  funext s
  cases s with
  | declare _ isExported => cases isExported <;> rfl
  | list | perform => rfl

theorem Step.filterMap_spelledPair {name : String → String} {steps : List Step}
    (kept : ∀ kind x value, Step.declare kind true x value ∈ steps → name x = x) :
    steps.filterMap (spelledPair? name) = (steps.filterMap pair?).map fun p => (name p.1, p.2) := by
  rw [List.map_filterMap]
  refine List.filterMap_congr fun s among => ?_
  cases s with
  | declare kind isExported x value =>
    cases isExported with
    | false => rfl
    | true => simp [spelledPair?, pair?, kept kind x value among]
  | list | perform => rfl

namespace Draft

/-- Between the two, statements and exports were added, and nothing else that counts here. -/
structure Gains (r r' : Draft) (items : List Item) (pairs : List (String × String))
    (isSyntax : Bool) : Prop where
  body : r'.body = r.body ++ items.map (Priority.ordinary, ·)
  exports : r'.exports = pairs.foldl (fun t p => t.add p.1 p.2) r.exports
  hasExports : r'.hasExports = (r.hasExports || isSyntax)
  options : r'.options = r.options
  same : (r'.helpers, r'.imports, r'.redirects, r'.top, r'.hasImports) =
    (r.helpers, r.imports, r.redirects, r.top, r.hasImports)

namespace Gains

variable {r r' r'' : Draft} {items items' : List Item} {pairs pairs' : List (String × String)}
    {a b : Bool}

theorem refl (r : Draft) : r.Gains r [] [] false := ⟨by simp, rfl, by simp, rfl, rfl⟩

theorem trans (h : r.Gains r' items pairs a) (h' : r'.Gains r'' items' pairs' b) :
    r.Gains r'' (items ++ items') (pairs ++ pairs') (a || b) where
  body := by rw [h'.body, h.body, List.append_assoc, List.map_append]
  exports := by rw [h'.exports, h.exports, List.foldl_append]
  hasExports := by rw [h'.hasExports, h.hasExports, Bool.or_assoc]
  options := h'.options.trans h.options
  same := h'.same.trans h.same

theorem keep (r : Draft) (item : Item) : r.Gains (r.keep Priority.ordinary item) [item] [] false :=
  ⟨rfl, rfl, by simp [Draft.keep], rfl, rfl⟩

theorem noteExportName (r : Draft) (x : String) : r.Gains (r.noteExportName x) [] [] false := by
  unfold Draft.noteExportName
  split <;> exact ⟨by simp, rfl, by simp, rfl, rfl⟩

theorem exportBehind (r : Draft) (x exported : String) (value : Node) :
    r.Gains (r.exportBehind x exported value) [.exportValue exported value none]
      [(x, exported)] false :=
  ⟨rfl, rfl, by simp [Draft.exportBehind, Draft.keep], rfl, rfl⟩

theorem note (r : Draft) (e : Event) : r.Gains (r.note e) [] [] false :=
  ⟨by simp [Draft.note], rfl, by simp [Draft.note], rfl, rfl⟩

theorem exporting (r : Draft) : r.Gains { r with hasExports := true } [] [] true :=
  ⟨by simp, rfl, by simp, rfl, rfl⟩

theorem noteDeclarator (r : Draft) {d : Node} {x : String} {symbol : Option Symbol}
    (plain : d.parts.head?.map Node.form = some (.binder x symbol)) :
    r.Gains (r.noteDeclarator d) [] [(x, x)] false := by
  unfold Draft.noteDeclarator
  rw [plain]
  exact ⟨by simp, rfl, by simp, rfl, rfl⟩

end Gains

end Draft

theorem checkExports_eq_ok {names : List (String × Option Span)}
    (legal : "__esModule" ∉ names.map Prod.fst) :
    checkExports names = .ok () := by
  induction names with
  | nil => rfl
  | cons p names ih =>
    obtain ⟨x, span⟩ := p
    simp only [List.map_cons, List.mem_cons, not_or] at legal
    rw [checkExports, checkExport, if_neg (Ne.symm legal.1)]
    exact ih legal.2

section Scan

variable (name : String → String) (ref : String → Reference)

theorem Draft.noteDeclarators {kind : VariableKind} {ds : List Node} {steps : List Step}
    (each : DeclaratorsTake kind true ds steps) (r : Draft) :
    r.Gains ((ds.map (Node.respell name ref)).foldl noteDeclarator r) []
      (steps.filterMap (Step.spelledPair? name)) false := by
  induction each generalizing r with
  | nil => exact .refl r
  | @cons d step ds steps first _ ih =>
    obtain ⟨isDefinite, s, x, symbol, s', typing, value, rfl, -, -, rfl⟩ :=
      Node.declaratorStep?_eq_some first
    have rest := ih (r.noteDeclarator (Node.respell name ref (.mk (.declarator isDefinite) s
      [.mk (.binder x symbol) s' [], typing, value])))
    exact (Gains.noteDeclarator r (d := Node.respell name ref (.mk (.declarator isDefinite) s
      [.mk (.binder x symbol) s' [], typing, value])) rfl).trans rest

theorem Node.respell_label {other : Node}
    (label : (∃ x, other.form = .word x) ∨ ∃ x, other.form = .string x) (bare : other.parts = []) :
    other.respell name ref = other := by
  obtain ⟨f, s, ps⟩ := other
  cases bare
  rcases label with ⟨x, rfl⟩ | ⟨x, rfl⟩ <;> rfl

theorem Node.respell_specifier {other : Node}
    (label : (∃ x, other.form = .word x) ∨ ∃ x, other.form = .string x) (bare : other.parts = [])
    (x : String) (r : Reference) (s s' : Option Span) :
    (mk (.exportSpecifier false) s [.mk (.mention x r .either) s' [], other]).respell name ref =
      .mk (.exportSpecifier false) s [.mk (.mention (name x) (ref x) .either) s' [], other] := by
  rw [respell_mk, List.map_cons, List.map_cons, respell_label name ref label bare]
  rfl

theorem Draft.exportNames_gains {ps : List Node} {steps : List Step}
    (each : SpecifiersTake ps steps) (r : Draft) :
    r.Gains (r.exportNames (ps.map (Node.respell name ref)))
      ((ps.map (Node.respell name ref)).filterMap Node.exportItem?)
      (steps.filterMap (Step.spelledPair? name)) false := by
  induction each generalizing r with
  | nil => exact .refl r
  | @cons p step ps steps first _ ih =>
    obtain ⟨s, x, ref', s', other, rfl, -, label, bare, rfl⟩ := Node.specifierStep?_eq_some first
    simp only [List.map_cons, Node.respell_specifier name ref label bare]
    let value : Node := .mk (.ident (name x) (ref x)) s' []
    have noted := Gains.noteExportName r other.nameText
    have behind := Gains.exportBehind (r.noteExportName other.nameText) (name x)
      other.nameText value
    have logged :=
      Gains.note ((r.noteExportName other.nameText).exportBehind (name x) other.nameText value)
        (.exported (name x) other.nameText)
    exact ((noted.trans behind).trans logged).trans (ih _)

theorem exportedByDeclaration_respell {kind : VariableKind} {ds : List Node} {steps : List Step}
    (each : DeclaratorsTake kind true ds steps) (s : Option Span) :
    (Node.mk (.varDecl kind false) s (ds.map (Node.respell name ref))).exportedByDeclaration.map
      Prod.fst =
      (steps.filterMap (Step.spelledPair? name)).map Prod.snd := by
  simp only [Node.exportedByDeclaration]
  induction each with
  | nil => rfl
  | @cons d step ds steps first _ ih =>
    obtain ⟨isDefinite, s, x, symbol, s', typing, value, rfl, -, -, rfl⟩ :=
      Node.declaratorStep?_eq_some first
    rw [List.map_cons, List.flatMap_cons, List.map_append, ih]
    rfl

theorem specifierExports_respell {ps : List Node} {steps : List Step}
    (each : SpecifiersTake ps steps) :
    (Node.specifierExports (ps.map (Node.respell name ref))).map Prod.fst =
      (steps.filterMap (Step.spelledPair? name)).map Prod.snd := by
  induction each with
  | nil => rfl
  | @cons p step ps steps first _ ih =>
    obtain ⟨s, x, ref', s', other, rfl, -, label, bare, rfl⟩ := Node.specifierStep?_eq_some first
    rw [List.map_cons, Node.respell_specifier name ref label bare]
    exact congrArg (other.nameText :: ·) ih

theorem Draft.patternNames_respell {kind : VariableKind} {isExported : Bool} {ds : List Node}
    {steps : List Step} (each : DeclaratorsTake kind isExported ds steps) :
    (ds.map (Node.respell name ref)).flatMap patternNames = [] := by
  induction each with
  | nil => rfl
  | @cons d step ds steps first _ ih =>
    obtain ⟨isDefinite, s, x, symbol, s', typing, value, rfl, -, -, rfl⟩ :=
      Node.declaratorStep?_eq_some first
    exact ih

theorem Node.Takes.unexported {n : Node} {steps : List Step} (takes : n.Takes steps)
    (other : n.isModuleSyntax = false) :
    (∀ s ∈ steps, s.spelledPair? name = none) ∧
      (n.respell name ref).lowerings = [.kept (n.respell name ref)] := by
  cases takes with
  | declare s ordinary each =>
    refine ⟨fun step among => ?_, rfl⟩
    obtain ⟨d, -, taken⟩ := (exists_of_forall₂ each).2 step among
    obtain ⟨_, _, _, _, _, _, _, -, -, -, rfl⟩ := Node.declaratorStep?_eq_some taken
    rfl
  | exportDeclared | list => cases other
  | perform s plain =>
    refine ⟨fun step among => ?_, rfl⟩
    obtain rfl := List.mem_singleton.mp among
    rfl

theorem Draft.scanStatement_respell {n : Node} {steps : List Step} (takes : n.Takes steps)
    (legal : "__esModule" ∉ (steps.filterMap (Step.spelledPair? name)).map Prod.snd) (r : Draft) :
    ∃ r', r.scanStatement .none (n.respell name ref) = .ok r' ∧
      r.Gains r' (n.respell name ref).lowerings (steps.filterMap (Step.spelledPair? name))
      n.isModuleSyntax := by
  have whole := takes
  cases takes with
  | declare s ordinary each =>
    obtain ⟨unexported, lowerings⟩ := whole.unexported name ref rfl
    rw [List.filterMap_eq_nil_iff.mpr unexported, lowerings]
    exact ⟨_, rfl, .keep r _⟩
  | @exportDeclared kind s s' ds steps ordinary each =>
    rw [Node.respell_mk, List.map_cons, List.map_nil, Node.respell_mk]
    have checked := checkExports_eq_ok (exportedByDeclaration_respell name ref each s' ▸ legal)
    have noted := noteDeclarators name ref each { r with hasExports := true }
    have held := ((Gains.exporting r).trans noted).trans (Gains.keep _
      (.kept (.mk (.varDecl kind false) s'
      ((ds.map (Node.respell name ref)).map exportDeclarator))))
    simp only [List.append_nil, List.nil_append] at held
    refine ⟨_, ?_, held⟩
    simp only [scanStatement, Node.isTypeOnly, Form.respell, exportDeclaration,
      patternNames_respell name ref each]
    exact congrArg (· >>= fun _ => _) checked
  | @list s ps steps each =>
    rw [Node.respell_mk]
    have checked := checkExports_eq_ok (specifierExports_respell name ref each ▸ legal)
    have named := (Gains.exporting r).trans (exportNames_gains name ref each _)
    refine ⟨_, ?_, named⟩
    simp only [scanStatement, Form.respell, checked]
    rfl
  | perform s plain => exact ⟨_, rfl, .keep r _⟩

theorem Draft.scan_respell {ns : List Node} {taken : List (List Step)}
    (takes : List.Forall₂ Node.Takes ns taken)
    (legal : "__esModule" ∉ (taken.flatten.filterMap (Step.spelledPair? name)).map Prod.snd)
    (r : Draft) :
    ∃ r', r.scan .none (ns.map (Node.respell name ref)) = .ok r' ∧
      r.Gains r' ((ns.map (Node.respell name ref)).flatMap Node.lowerings)
        (taken.flatten.filterMap (Step.spelledPair? name)) (ns.any Node.isModuleSyntax) := by
  induction takes generalizing r with
  | nil => exact ⟨r, rfl, .refl r⟩
  | @cons n steps ns taken first _ ih =>
    simp only [List.flatten_cons, List.filterMap_append, List.map_append, List.mem_append, not_or]
      at legal ⊢
    obtain ⟨r₁, scanned, gains⟩ := scanStatement_respell name ref first legal.1 r
    obtain ⟨r₂, scanned', gains'⟩ := ih legal.2 r₁
    refine ⟨r₂, ?_, gains.trans gains'⟩
    rw [List.map_cons, scan, scanned]
    exact scanned'

end Scan

theorem Draft.Gains.items {options : Options} {taken : TakenNames} {r : Draft} {items : List Item}
    {pairs : List (String × String)} (h : (Draft.start options taken).Gains r items pairs true) :
    r.lowerImports.redirects = .empty ∧ r.lowerImports.exports = .ofPairs pairs ∧
      ∃ footer, (footer = [] ∨ footer = [.defaultAlias]) ∧
        r.lowerImports.items = .moduleFlag options.plainFlag :: items ++ footer := by
  have same := h.same
  simp only [Draft.start, Prod.mk.injEq] at same
  obtain ⟨helpers, imports, redirects, top, hasImports⟩ := same
  have lowered : r.lowerImports = { r with imports := .empty } := by
    rw [Draft.lowerImports, imports]
    rfl
  have header : r.header = [(Priority.moduleFlag, .moduleFlag options.plainFlag)] := by
    simp [Draft.header, h.hasExports, hasImports, h.options, Draft.start]
  obtain ⟨footer, footed, shape⟩ :
      ∃ footer : List Item, r.footer = footer.map (Priority.ordinary, ·) ∧
      (footer = [] ∨ footer = [.defaultAlias]) := by
    unfold Draft.footer
    split
    · exact ⟨[.defaultAlias], rfl, .inr rfl⟩
    · exact ⟨[], rfl, .inl rfl⟩
  have body : r.body = items.map (Priority.ordinary, ·) := h.body
  -- The flag has the greatest priority and all others have the same, so nothing moves.
  have falling : (r.header ++ r.top ++ r.body ++ r.footer).Pairwise fun a b => b.1 ≤ a.1 := by
    rw [header, top, body, footed, List.append_nil, List.append_assoc, ← List.map_append,
      List.singleton_append, List.pairwise_cons, List.pairwise_map]
    refine ⟨?_, List.pairwise_of_forall fun _ _ => Nat.le_refl _⟩
    simp only [List.forall_mem_map]
    intro item _
    show Priority.ordinary ≤ Priority.moduleFlag
    decide
  refine ⟨by rw [lowered]; exact redirects, by rw [lowered]; exact h.exports, footer, shape, ?_⟩
  rw [lowered]
  show (arrange (r.header ++ r.top ++ r.body ++ r.footer)).map Prod.snd ++ _ = _
  rw [arrange_of_falling falling, header, top, body, footed, helpers]
  simp [Function.comp_def]

end ModuleLowering
