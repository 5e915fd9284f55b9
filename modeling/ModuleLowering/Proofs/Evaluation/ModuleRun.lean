import ModuleLowering.Proofs.Evaluation.Publication

/-!
Modules of variables, lowered and run from the start to the end.
-/

set_option autoImplicit false

namespace ModuleLowering

def Node.stepsOf? (statements : List Node) : Option (List Step) :=
  (statements.mapM steps?).map List.flatten

theorem Node.stepsOf?_eq_some {statements : List Node} {steps : List Step}
    (h : stepsOf? statements = some steps) :
    ∃ taken, List.Forall₂ Takes statements taken ∧ steps = taken.flatten := by
  obtain ⟨taken, read, rfl⟩ := Option.map_eq_some_iff.mp h
  exact ⟨taken, (forall₂_of_mapM read).imp fun _ _ => takes_of_steps?, rfl⟩

theorem Node.Takes.plain {n : Node} {steps : List Step} (h : n.Takes steps) :
    ∀ s ∈ steps, s.IsPlain := by
  have declarators {kind : VariableKind} {isExported : Bool} {ds : List Node} {steps : List Step}
      (each : DeclaratorsTake kind isExported ds steps) :
      ∀ s ∈ steps, s.IsPlain := fun step among => by
    obtain ⟨d, -, taken⟩ := (exists_of_forall₂ each).2 step among
    obtain ⟨_, _, _, _, _, _, value, -, -, shape, rfl⟩ := Node.declaratorStep?_eq_some taken
    exact shape.imp id (plain_of_isPlain value)
  cases h with
  | declare s ordinary each => exact declarators each
  | exportDeclared s s' ordinary each => exact declarators each
  | list s each =>
    intro step among
    obtain ⟨p, -, taken⟩ := (exists_of_forall₂ each).2 step among
    obtain ⟨_, _, _, _, _, -, -, -, -, rfl⟩ := Node.specifierStep?_eq_some taken
    trivial
  | perform s plain =>
    intro step among
    obtain rfl := List.mem_singleton.mp among
    exact plain

section
variable {V : Type} {P : Primitives V} {statements : List Node} {taken : List (List Step)}

theorem Node.courseOfRun_eq (takes : List.Forall₂ Takes statements taken) :
    courseOfRun P statements =
      .reaching (some (Memory.start P (taken.flatten.filterMap Step.binding?))) >>= fun m =>
        taken.flatten.foldlM (fun m s => s.course P m) m := by
  have bindings : statements.flatMap Node.bindings = taken.flatten.filterMap Step.binding? := by
    induction takes with
    | nil => rfl
    | cons first _ ih =>
      rw [List.flatMap_cons, ih, first.bindings, List.flatten_cons, List.filterMap_append]
  have run (m : Memory V) : statements.foldlM (fun m n => n.courseOfExecute P m) m =
      taken.flatten.foldlM (fun m s => s.course P m) m := by
    clear bindings
    induction takes generalizing m with
    | nil => rfl
    | cons first _ ih =>
      rw [List.foldlM_cons, List.flatten_cons, List.foldlM_append, first.courseOfExecute]
      exact bind_congr ih
  rw [courseOfRun, bindings]
  exact bind_congr run

theorem Node.run_eq (takes : List.Forall₂ Takes statements taken) :
    run P statements = taken.flatten.foldlM (fun m s => s.run P m)
      (Memory.start P (taken.flatten.filterMap Step.binding?)) := by
  rw [← result_courseOfRun, courseOfRun_eq takes]
  simp only [Course.result_bind, Course.reaching, Option.bind_some, Course.result_foldlM,
    Step.result_course]

theorem Spelling.lookup_map (σ : Spelling) {declared : List (String × VariableKind)}
    (used : ∀ b ∈ declared, σ.used b.1) {x : String} (usedX : σ.used x) :
    (declared.map fun b => (σ.name b.1, b.2)).lookup (σ.name x) = declared.lookup x := by
  induction declared with
  | nil => rfl
  | cons b declared ih =>
    obtain ⟨y, kind⟩ := b
    have rest := ih fun b among => used b (List.mem_cons_of_mem _ among)
    have same : (σ.name x == σ.name y) = (x == y) := by
      rw [Bool.eq_iff_iff, beq_iff_eq, beq_iff_eq]
      exact ⟨σ.injective usedX (used _ List.mem_cons_self), congrArg σ.name⟩
    simp only [List.map_cons, List.lookup_cons, same, rest]

theorem Memory.Spelled.start {σ : Spelling} {declared : List (String × VariableKind)}
    (used : ∀ b ∈ declared, σ.used b.1)
    (others : ∀ x, σ.used x → x ∉ declared.map Prod.fst → σ.name x = x) :
    Memory.Spelled σ (.start P declared) (.start P (declared.map fun b => (σ.name b.1, b.2))) := by
  refine ⟨fun x usedX => σ.lookup_map used usedX, fun x usedX => ?_, fun x usedX unknown =>
    others x usedX (Memory.kinds_start_eq_none_iff.mp unknown)⟩
  simp only [Memory.start, σ.lookup_map used usedX]

end

theorem Item.courseOfExecute_definedFlag {V : Type} {P : Primitives V} (m : Memory V) :
    (moduleFlag false).toNode.courseOfExecute P m = Prod.snd <$> Course.unseen
      (if (m.kinds "Object").isSome then none
      else (P.boolean true).bind fun v => some (v, m.setExport "__esModule" v)) := by
  have written : isIdentifierName "defineProperty" = true := by decide +kernel
  have member : Made.member (Made.ident "Object") "defineProperty" =
      .made (.member false) [Made.ident "Object", Made.word "defineProperty"] := if_pos written
  show Prod.snd <$>
    (Made.call (Made.member (Made.ident "Object") "defineProperty") _).course P m = _
  rw [member]
  rfl

theorem Item.courseOfExecute_moduleFlag {V : Type} {P : Primitives V} {t : V}
    (flag : P.boolean true = some t) (isPlain : Bool) {m : Memory V}
    (free : isPlain = false → m.kinds "Object" = none) :
    (moduleFlag isPlain).toNode.courseOfExecute P m = pure (m.setExport "__esModule" t) := by
  cases isPlain with
  | true =>
    show Prod.snd <$> (Made.exportAssignment "__esModule" (.made (.boolean true) [])).course P m = _
    rw [Made.course_exportAssignment, Node.made, Node.course, Node.eval, flag]
    · rfl
    all_goals simp
  | false =>
    rw [courseOfExecute_definedFlag, free rfl, flag]
    rfl

/-- Where the module has a variable `Object`, there is no method to define the flag with. -/
theorem Item.courseOfExecute_moduleFlag_hidden {V : Type} {P : Primitives V} {m : Memory V}
    (hidden : m.kinds "Object" ≠ none) :
    (moduleFlag false).toNode.courseOfExecute P m = .unseen none := by
  rw [courseOfExecute_definedFlag, if_pos (Option.isSome_iff_ne_none.mpr hidden)]
  rfl

/-- The exports object stays what it is when another one is put in its place. -/
theorem Item.courseOfExecute_defaultAlias {V : Type} {P : Primitives V} {u : V}
    (defined : P.undefined = some u) (m : Memory V) :
    ∃ v, defaultAlias.toNode.courseOfExecute P m = pure { m with replacement := some v } := by
  have target : (Made.member (Made.ident "module") "exports").slot? = some .wholeExports := by
    unfold Made.member
    split <;> rfl
  have value : ∃ v, m.load P (.exported "default") = some v := by
    cases held : m.exports "default" <;> simp [Memory.load, held, defined]
  obtain ⟨v, value⟩ := value
  refine ⟨v, ?_⟩
  have read : (Node.made (.index false) [Made.ident "exports", Made.string "default"]).course P m =
    pure (v, m) := by
    show Course.unseen (Slot.property? "exports" "default" >>= _) = _
    simp [Slot.property?, value]
    rfl
  have written :
      (Made.moduleExports (.made (.index false)
        [Made.ident "exports", Made.string "default"])).course P m =
      pure (v, { m with replacement := some v }) := by
    rw [Made.moduleExports, Made.assign, Node.made, Node.course, target, read]
    rfl
  show Prod.snd <$> (Made.moduleExports _).course P m = _
  rw [written]
  rfl

theorem Item.courseOfExecute_footer {V : Type} {P : Primitives V} {u : V}
    (defined : P.undefined = some u) {footer : List Item}
    (shape : footer = [] ∨ footer = [.defaultAlias]) (m : Memory V) :
    ∃ m₂, (footer.map toNode).foldlM (fun m n => n.courseOfExecute P m) m = pure m₂ ∧
      m₂.locals = m.locals ∧
      m₂.exports = m.exports := by
  rcases shape with rfl | rfl
  · exact ⟨m, rfl, rfl, rfl⟩
  · obtain ⟨v, executed⟩ := courseOfExecute_defaultAlias defined m
    refine ⟨{ m with replacement := some v }, ?_, rfl, rfl⟩
    rw [List.map_cons, List.map_nil, List.foldlM_cons, executed]
    rfl

structure Module.OfVariables (m : Module) (statements : List Node) (taken : List (List Step)) :
    Prop where
  takes : List.Forall₂ Node.Takes statements taken
  inside : ∀ s ∈ taken.flatten, s.isInside (Step.declared taken.flatten) = true
  form : ∃ hashbang ds, m.program.form = .program hashbang ds
  flat : m.scopes.IsFlat
  declared : ∀ n ∈ statements, ∀ x ∈ n.declaredNames false, m.scopes.rootReference x =
    .symbol ⟨[], x⟩
  spelled : m.statements = statements.map (Node.respell id m.scopes.rootReference)

theorem Original.ofVariables {s : Original} {taken : List (List Step)}
    (takes : List.Forall₂ Node.Takes s.statements taken)
    (inside : ∀ s ∈ taken.flatten, s.isInside (Step.declared taken.flatten) = true) :
    s.analysed.OfVariables s.statements taken := by
  have fits : ∀ n ∈ s.statements, n.isFlat false = true := fun n among => by
    obtain ⟨steps, -, takes⟩ := (exists_of_forall₂ takes).1 n among
    exact takes.isFlat
  obtain ⟨flat, root, program⟩ := Original.flat fits
  refine ⟨takes, inside, ⟨_, _, by rw [program]; rfl⟩, flat, fun n among x declared => ?_, ?_⟩
  · rw [ScopeTable.rootReference, root, if_pos (List.mem_flatMap.mpr ⟨n, among, declared⟩)]
  · rw [Module.statements, program]
    rfl

namespace Module.OfVariables

variable {m : Module} {statements : List Node} {taken : List (List Step)}
    (h : m.OfVariables statements taken)
include h

theorem taken_of_named {s : Step} (among : s ∈ taken.flatten) {x : String} (named : x ∈ s.names) :
    x ∈ m.takenNames := by
  obtain ⟨steps, listed, among⟩ := List.mem_flatten.mp among
  obtain ⟨n, inside, takes⟩ := (exists_of_forall₂ h.takes).2 steps listed
  -- A name that the program's scope does not hold is declared by no statement, so it is looked up
  -- in vain.
  cases root : m.scopes.root? x with
  | some symbol =>
    exact List.mem_append_left _ (h.flat.mem_symbolNames (ScopeTable.mem_of_binding? root))
  | none =>
    have unknown : m.scopes.rootReference x = .global := by rw [ScopeTable.rootReference, root]
    rcases takes.names among named with declared | found
    · have known := h.declared n inside x declared
      rw [unknown] at known
      cases known
    · refine List.mem_append_right _ ?_
      obtain ⟨⟨f, span, ps⟩, scopes⟩ := m
      refine List.mem_append_right _ (Node.mem_unresolvedInParts.mpr ⟨_, ?_, found _ unknown⟩)
      have parts : ps = _ := h.spelled
      rw [parts]
      exact List.mem_map_of_mem inside

abbrev spelling : Spelling := m.spelling h.flat (Step.declared taken.flatten)

theorem used {s : Step} (among : s ∈ taken.flatten) {x : String} (named : x ∈ s.names) :
    h.spelling.used x :=
  ⟨Module.not_mem_newNames (h.taken_of_named among named),
    Step.declared_of_isInside (h.inside s among) named⟩

theorem bindings_used : ∀ b ∈ taken.flatten.filterMap Step.binding?, h.spelling.used b.1 :=
  fun b among => by
  obtain ⟨s, among, binding⟩ := List.mem_filterMap.mp among
  exact h.used among (Step.mem_names_of_binding binding)

theorem start {V : Type} {P : Primitives V} :
    Memory.Spelled h.spelling (.start P (taken.flatten.filterMap Step.binding?))
      (.start P ((taken.flatten.filterMap Step.binding?).map fun b => (m.newName b.1, b.2))) :=
  .start h.bindings_used fun _ used undeclared =>
    Module.newName_eq h.flat fun runtime => undeclared (used.2 runtime)

theorem owns {r : Draft} (direct : r.redirects = .empty) :
    (m.liveBindings r).Owns h.spelling m.scopes.rootReference where
  level x usedX := by
    have root := Module.root?_renamed h.flat usedX.1
    show (LiveBindings.mk m.renamed.scopes r.redirects r.exports).isModuleLevel (m.newName x) _ = _
    cases found : m.scopes.root? x <;> rw [found] at root <;>
      simp [ScopeTable.rootReference, found, LiveBindings.isModuleLevel, root]
  direct x := by
    show r.redirects.get? x = none
    rw [direct]
    rfl

theorem serves {r : Draft} (direct : r.redirects = .empty)
    (table : r.exports = .ofPairs ((taken.flatten.filterMap Step.pair?).map fun p =>
    (m.newName p.1, p.2)))
      (distinct : ((taken.flatten.filterMap Step.pair?).map Prod.snd).Nodup) :
    (m.liveBindings r).Serves h.spelling m.scopes.rootReference
      (taken.flatten.filterMap Step.pair?) where
  owns := h.owns direct
  table := table
  distinct := distinct
  used p among := by
    obtain ⟨s, among, pair⟩ := List.mem_filterMap.mp among
    exact h.used among (Step.mem_names_of_pair pair)

theorem hasModuleSyntax_eq : m.hasModuleSyntax = statements.any Node.isModuleSyntax := by
  have same (n : Node) : (n.respell id m.scopes.rootReference).isModuleSyntax =
    n.isModuleSyntax := by
    obtain ⟨f, s, ps⟩ := n
    cases f <;> rfl
  rw [Module.hasModuleSyntax, h.spelled, List.any_map]
  exact congrArg statements.any (funext same)

theorem draft
    (legal : "__esModule" ∉ (taken.flatten.filterMap
    (Step.spelledPair? m.newName)).map Prod.snd) (options : Options)
    (hasSyntax : m.hasModuleSyntax = true) :
    ∃ r footer, m.draft options .none = .ok r ∧ r.redirects = .empty ∧
      r.exports = .ofPairs (taken.flatten.filterMap (Step.spelledPair? m.newName)) ∧
      (footer = [] ∨ footer = [.defaultAlias]) ∧
      r.items = .moduleFlag options.plainFlag ::
        (statements.map (Node.respell m.newName m.scopes.rootReference)).flatMap
        Node.lowerings ++ footer := by
  have fits : ∀ n ∈ statements, n.isFlat false = true := fun n among => by
    obtain ⟨steps, -, takes⟩ := (exists_of_forall₂ h.takes).1 n among
    exact takes.isFlat
  have renamed := Module.renamed_statements h.spelled fits h.declared
  obtain ⟨r, scanned, gains⟩ :=
    Draft.scan_respell m.newName m.scopes.rootReference h.takes legal
      (Draft.start options m.namesTaken)
  rw [← h.hasModuleSyntax_eq, hasSyntax] at gains
  obtain ⟨direct, table, footer, shape, items⟩ := gains.items
  exact ⟨r.lowerImports, footer, by rw [Module.draft, renamed, scanned]; rfl, direct,
    table, shape, items⟩

theorem lowered_statements {r : Draft} (direct : r.redirects = .empty) {code : List Node}
    (yields : (m.liveBindings r).Yields (r.items.map Item.toNode) code) :
    (m.lowered r).statements = code := by
  obtain ⟨hashbang, ds, form⟩ := h.form
  have form := m.renamed_form form
  simp only [Module.lowered, Module.makeLive_eq, Module.assembled, Module.withStatements, form,
    direct]
  -- The pass is left out where it would have nothing to do.
  split
  · next empty =>
    have silent : r.exports.entries = [] := by
      simpa [OrderedMap.isEmpty, OrderedMap.empty] using empty
    exact (yields.silent silent).symm
  · have parts := yields.liveParts true (.program hashbang ds) 0
    rw [Module.liveBindings, direct] at parts
    exact parts

end Module.OfVariables

section
variable {V : Type} {P : Primitives V}

/-- The steps find what they need once they are lowered: the runtime's `Object`, if the module flag
is defined with it, and variables that can be read where they are listed. -/
structure Step.AreReady (P : Primitives V) (definesFlag : Bool) (steps : List Step) : Prop where
  object : definesFlag = true → "Object" ∉ declared steps
  readable : Throughout P (IsReadable P) steps (.start P (steps.filterMap binding?))

/-- The code runs just if the steps are ready for it. The exports are then as the steps gave them,
and the variables have the values of `M` under their new names. -/
structure Reproduces (P : Primitives V) (definesFlag : Bool) (steps : List Step) (M : Memory V)
    (name : String → String) (code : List Node) : Prop where
  kept : ∀ x, x ∉ runtimeNames → name x = x
  runs : Step.AreReady P definesFlag steps → ∃ M', Node.run P code = some M' ∧
    (∀ b ∈ steps.filterMap Step.binding?, M'.locals (name b.1) = M.locals b.1) ∧
    ∀ x e, (x, e) ∈ steps.filterMap Step.pair? →
      M'.exports e = Step.lastPublished P x e steps (.start P (steps.filterMap Step.binding?)) none
  stops : ¬ Step.AreReady P definesFlag steps → Node.run P code = none

end

def Spelling.same : Spelling := ⟨id, fun _ => True, fun _ _ same => same, fun _ _ => ⟨trivial, rfl⟩⟩

/-- The module flag is a hidden property, which a method of `Object` defines. -/
def Module.definesFlag (options : Options) (statements : List Node) : Bool :=
  statements.any Node.isModuleSyntax && !options.plainFlag

namespace Module.OfVariables

variable {V : Type} {P : Primitives V} {m : Module} {statements : List Node}
    {taken : List (List Step)} {M : Memory V}

theorem plain (h : m.OfVariables statements taken) : ∀ s ∈ taken.flatten, s.IsPlain :=
  fun s among => by
  obtain ⟨steps, listed, among⟩ := List.mem_flatten.mp among
  obtain ⟨n, -, takes⟩ := (exists_of_forall₂ h.takes).2 steps listed
  exact takes.plain s among

/-- A module without exports is what the pass makes of it with empty tables and unchanged names. -/
theorem lowers_itself (h : m.OfVariables statements taken) (noSyntax : m.hasModuleSyntax = false) :
    taken.flatten.filterMap Step.pair? = [] ∧ ∃ (l : LiveBindings) (ns : List Node),
      l.Serves .same m.scopes.rootReference [] ∧
      Lowers P l .same m.scopes.rootReference ns taken.flatten m.statements := by
  have other : ∀ n ∈ statements, n.isModuleSyntax = false := by
    simpa [h.hasModuleSyntax_eq] using noSyntax
  have pairs : taken.flatten.filterMap Step.pair? = [] :=
    List.filterMap_eq_nil_iff.mpr fun s among => by
    obtain ⟨steps, listed, among⟩ := List.mem_flatten.mp among
    obtain ⟨n, inside, takes⟩ := (exists_of_forall₂ h.takes).2 steps listed
    rw [← Step.spelledPair?_id]
    exact (takes.unexported id m.scopes.rootReference (other n inside)).1 s among
  let l : LiveBindings := ⟨m.scopes, .empty, .empty⟩
  have serves : l.Serves .same m.scopes.rootReference [] := by
    refine ⟨⟨fun x _ => ?_, fun _ => rfl⟩, rfl, .nil, by simp⟩
    cases root : m.scopes.root? x <;>
      simp [l, Spelling.same, ScopeTable.rootReference, root, LiveBindings.isModuleLevel]
  obtain ⟨code, lowers⟩ := Lowers.statements (P := P) serves.owns h.takes fun _ _ _ _ => trivial
  have same : code = m.statements := by
    have lowerings : ∀ n ∈ statements, (n.respell id m.scopes.rootReference).lowerings =
        [.kept (n.respell id m.scopes.rootReference)] := fun n inside => by
      obtain ⟨steps, -, takes⟩ := (exists_of_forall₂ h.takes).1 n inside
      exact (takes.unexported _ _ (other n inside)).2
    rw [lowers.yields.silent rfl, h.spelled, List.flatMap_map, Spelling.same, List.flatMap_congr
      lowerings, List.map_flatMap, List.map_eq_flatMap]
    rfl
  exact ⟨pairs, l, _, serves, same ▸ lowers⟩

theorem definesFlag_of_noSyntax (h : m.OfVariables statements taken) {options : Options}
    (noSyntax : m.hasModuleSyntax = false) : definesFlag options statements = false := by
  rw [definesFlag, ← h.hasModuleSyntax_eq, noSyntax, Bool.false_and]

theorem definesFlag_eq (h : m.OfVariables statements taken) {options : Options}
    (hasSyntax : m.hasModuleSyntax = true) :
    definesFlag options statements = !options.plainFlag := by
  rw [definesFlag, ← h.hasModuleSyntax_eq, hasSyntax, Bool.true_and]

theorem reproduces_unlowered (h : m.OfVariables statements taken) {u : V}
    (defined : P.undefined = some u) (options : Options) (noSyntax : m.hasModuleSyntax = false)
    (run : Node.run P statements = some M)
    (blank : Step.Throughout P (Step.IsBlank P) taken.flatten
    (.start P (taken.flatten.filterMap Step.binding?))) :
    Reproduces P (definesFlag options statements) taken.flatten M id m.statements := by
  obtain ⟨pairs, l, ns, serves, lowers⟩ := h.lowers_itself (P := P) noSyntax
  have spelled : Memory.Spelled .same (.start P (taken.flatten.filterMap Step.binding?))
      (.start P (m.statements.flatMap Node.bindings)) := by
    rw [lowers.bindings]
    exact .start (fun _ _ => trivial) fun _ _ _ => rfl
  rw [Node.run_eq h.takes] at run
  obtain ⟨runs, stops⟩ := serves.steps defined h.plain (fun _ _ _ _ => trivial) (by simp [pairs])
    (fun _ _ _ _ => rfl) spelled run blank
  rw [← lowers.run] at stops
  simp only [← lowers.run] at runs
  refine ⟨fun _ _ => rfl, fun ready => ?_, fun unready => stops fun readable => unready ?_⟩
  · obtain ⟨M', run', spelled', -⟩ := runs ready.readable
    exact ⟨M', run', fun b _ => spelled'.locals b.1 trivial, by simp [pairs]⟩
  · exact ⟨fun defines => absurd defines (by simp [h.definesFlag_of_noSyntax noSyntax]), readable⟩

theorem course_lowered (h : m.OfVariables statements taken) {options : Options} {r : Draft}
    {items footer : List Item} {code : List Node} (direct : r.redirects = .empty)
    (arranged : r.items = .moduleFlag options.plainFlag :: items ++ footer)
    (shape : footer = [] ∨ footer = [.defaultAlias])
    (lowers : Lowers P (m.liveBindings r) h.spelling m.scopes.rootReference
      (items.map Item.toNode) taken.flatten code) :
    Node.courseOfRun P (m.lowered r).statements =
      .reaching (some (Memory.start P ((taken.flatten.filterMap Step.binding?).map fun b =>
        (m.newName b.1, b.2)))) >>= fun m₀ =>
      (Item.moduleFlag options.plainFlag).toNode.courseOfExecute P m₀ >>= fun m₁ =>
      taken.flatten.foldlM
          (fun m' s => s.loweredCourse P (m.liveBindings r) m.newName m.scopes.rootReference m')
          m₁ >>=
        fun m₂ => (footer.map Item.toNode).foldlM (fun m n => n.courseOfExecute P m) m₂ := by
  have footed : (m.liveBindings r).Yields (footer.map Item.toNode) (footer.map Item.toNode) ∧
      (footer.map Item.toNode).flatMap Node.bindings = [] := by
    rcases shape with rfl | rfl
    · exact ⟨.nil, rfl⟩
    · exact ⟨.made (Item.isUnresolved_toNode rfl), rfl⟩
  have flagged : [(Item.moduleFlag options.plainFlag).toNode].flatMap Node.bindings = [] := by
    cases options.plainFlag <;> rfl
  have unresolved : (Item.moduleFlag options.plainFlag).toNode.isUnresolved = true :=
    Item.isUnresolved_toNode rfl
  have yields :=
    ((LiveBindings.Yields.made (l := m.liveBindings r) unresolved).append lowers.yields).append
      footed.1
  rw [h.lowered_statements direct (by rw [arranged, List.map_append, List.map_cons]; exact yields),
    Node.courseOfRun, List.flatMap_append, List.flatMap_append, flagged, footed.2, lowers.bindings,
    List.append_nil, List.nil_append]
  refine bind_congr fun m₀ => ?_
  rw [List.foldlM_append, List.singleton_append, List.foldlM_cons, bind_assoc]
  exact bind_congr fun m₁ => congrArg (· >>= _) (lowers.course m₁)

/-- What the lowered module calls `Object` is a variable of the module just if that declares one. -/
theorem kinds_object (h : m.OfVariables statements taken) :
    (Memory.start P ((taken.flatten.filterMap Step.binding?).map fun b =>
      (m.newName b.1, b.2))).kinds "Object" = none ↔ "Object" ∉ Step.declared taken.flatten := by
  have spelled := h.start (P := P)
  have same := spelled.kinds "Object" h.spelling.object.1
  rw [h.spelling.object.2] at same
  rw [same]
  exact Memory.kinds_start_eq_none_iff

section
variable (h : m.OfVariables statements taken) {t : V} (flag : P.boolean true = some t)
  {options : Options} {r : Draft} {items footer : List Item} {code : List Node}
  (hasSyntax : m.hasModuleSyntax = true) (direct : r.redirects = .empty)
  (arranged : r.items = .moduleFlag options.plainFlag :: items ++ footer)
  (shape : footer = [] ∨ footer = [.defaultAlias])
  (lowers : Lowers P (m.liveBindings r) h.spelling m.scopes.rootReference
    (items.map Item.toNode) taken.flatten code)
include hasSyntax direct arranged shape lowers

include flag in
theorem course_flagged
    (free : definesFlag options statements = true → "Object" ∉ Step.declared taken.flatten) :
    Node.courseOfRun P (m.lowered r).statements =
      .reaching (some (Memory.start P ((taken.flatten.filterMap Step.binding?).map fun b =>
        (m.newName b.1, b.2)))) >>= fun m₀ => taken.flatten.foldlM
          (fun m' s => s.loweredCourse P (m.liveBindings r) m.newName m.scopes.rootReference m')
          (m₀.setExport "__esModule" t) >>=
        fun m₂ => (footer.map Item.toNode).foldlM (fun m n => n.courseOfExecute P m) m₂ := by
  rw [h.course_lowered direct arranged shape lowers]
  refine Course.reaching_bind_congr ?_
  rw [Item.courseOfExecute_moduleFlag flag options.plainFlag fun plain =>
    h.kinds_object.mpr (free (by rw [h.definesFlag_eq hasSyntax, plain]; rfl)), pure_bind]

theorem course_hidden (defines : definesFlag options statements = true)
    (hidden : "Object" ∈ Step.declared taken.flatten) :
    ∃ m₀, Node.courseOfRun P (m.lowered r).statements = ⟨[m₀], none⟩ := by
  have plain : options.plainFlag = false := by
    rw [h.definesFlag_eq hasSyntax] at defines
    simpa using defines
  rw [h.course_lowered direct arranged shape lowers, plain]
  refine ⟨_, Course.reaching_bind_none ?_⟩
  rw [Item.courseOfExecute_moduleFlag_hidden fun free => h.kinds_object.mp free hidden]
  rfl

end

theorem reproduces_lowered (h : m.OfVariables statements taken) {u t : V}
    (defined : P.undefined = some u) (flag : P.boolean true = some t)
    (exportable : Step.AreExportable taken.flatten) (options : Options)
    (hasSyntax : m.hasModuleSyntax = true) (run : Node.run P statements = some M)
    (blank : Step.Throughout P (Step.IsBlank P) taken.flatten
    (.start P (taken.flatten.filterMap Step.binding?))) :
    ∃ r, m.draft options .none = .ok r ∧ Reproduces P (definesFlag options statements)
      taken.flatten M m.newName (m.lowered r).statements := by
  have kept : ∀ kind x value, Step.declare kind true x value ∈ taken.flatten →
    m.newName x = x :=
    fun kind x value among => Module.newName_eq h.flat (exportable.named kind x value among)
  have pairs := Step.filterMap_spelledPair kept
  have legal :
      "__esModule" ∉ (taken.flatten.filterMap (Step.spelledPair? m.newName)).map
        Prod.snd := by
    rw [pairs, List.map_map]
    exact exportable.unreserved _ List.mem_cons_self
  obtain ⟨r, footer, drafted, direct, table, shape, arranged⟩ := h.draft legal options hasSyntax
  -- From here on, the table of exports is that of the module as it was written.
  have serves := h.serves direct (table.trans (congrArg _ pairs)) exportable.distinct
  have used : ∀ s ∈ taken.flatten, ∀ x ∈ s.names, h.spelling.used x :=
    fun s among x named => h.used among named
  obtain ⟨code, lowers⟩ := Lowers.statements (P := P) serves.owns h.takes used
  have start := h.start (P := P)
  rw [Node.run_eq h.takes] at run
  obtain ⟨runs, stops⟩ := serves.steps defined h.plain used (fun _ among => among) kept
    (start.setExport "__esModule" t) run blank
  have whole (free : definesFlag options statements = true →
      "Object" ∉ Step.declared taken.flatten) := congrArg Course.result
    (h.course_flagged flag hasSyntax direct arranged shape lowers free)
  simp only [Node.result_courseOfRun, Course.result_bind, Course.reaching, Option.bind_some,
    Course.result_foldlM, Step.result_loweredCourse] at whole
  refine ⟨r, drafted, fun x other => Module.newName_eq h.flat other, fun ready => ?_,
    fun unready => ?_⟩
  · obtain ⟨M₁, run₁, spelled₁, exports₁⟩ := runs ready.readable
    obtain ⟨M', run', locals, exports⟩ := Item.courseOfExecute_footer defined shape M₁
    refine ⟨M', ?_, fun b among => ?_, fun x e listed => ?_⟩
    · rw [whole ready.object]
      have ended := congrArg Course.result run'
      rw [Course.result_foldlM] at ended
      exact (congrArg (Option.bind · _) run₁).trans ended
    · rw [locals]
      exact spelled₁.locals b.1 (h.bindings_used b among)
    · -- The flag is none of the module's exports.
      have free : e ≠ "__esModule" :=
        fun same => exportable.unreserved _ List.mem_cons_self
          (List.mem_map.mpr ⟨(x, e), listed, same⟩)
      rw [exports, exports₁ x e listed]
      simp [Memory.setExport, free, Memory.start]
  · by_cases free : definesFlag options statements = true → "Object" ∉ Step.declared taken.flatten
    · rw [whole free]
      exact congrArg (Option.bind · _) (stops fun readable => unready ⟨free, readable⟩)
    · obtain ⟨defines, hidden⟩ := Classical.not_imp.mp free
      obtain ⟨m₀, course⟩ := h.course_hidden hasSyntax direct arranged shape lowers defines
        (not_not.mp hidden)
      rw [← Node.result_courseOfRun, course]

end Module.OfVariables

/-- A module of variables is lowered without error. Once lowered it still runs, and every export
ends up with the value of its variable, exactly if no variable hides the `Object` that the module
flag is defined with, each export list finds its variables readable where it stands, and no variable
gets another value behind the last time that its export was given one. Exported variables that are
declared without a value must not have one by then: they are given `undefined`. -/
theorem exports_follow_locals_iff {V : Type} (P : Primitives V)
    (defined : P.undefined.isSome = true) (flag : (P.boolean true).isSome = true)
    (options : Options) (s : Original) (steps : List Step)
    (read : Node.stepsOf? s.statements = some steps)
    (inside : ∀ s ∈ steps, s.isInside (Step.declared steps) = true)
    (exportable : Step.AreExportable steps) (M : Memory V)
    (run : Node.run P s.statements = some M)
    (blank : Step.Throughout P (Step.IsBlank P) steps (.start P (steps.filterMap Step.binding?))) :
    ∃ outcome lowered, ∃ name : String → String,
      (Module.lower options .none).run s.analysed = .ok outcome lowered ∧
      (∀ x, x ∉ runtimeNames → name x = x) ∧
      (∀ M', Node.run P lowered.statements = some M' →
        ∀ b ∈ steps.filterMap Step.binding?, M'.locals (name b.1) = M.locals b.1) ∧
      ((∃ M', Node.run P lowered.statements = some M' ∧
          ∀ x e, (x, e) ∈ steps.filterMap Step.pair? → M'.exports e = M.locals x) ↔
        Step.AreReady P (Module.definesFlag options s.statements) steps ∧
          ∀ x e, (x, e) ∈ steps.filterMap Step.pair? →
            Step.lastPublished P x e steps (.start P (steps.filterMap Step.binding?)) none =
            M.locals x) := by
  obtain ⟨u, defined⟩ := Option.isSome_iff_exists.mp defined
  obtain ⟨t, flag⟩ := Option.isSome_iff_exists.mp flag
  obtain ⟨taken, takes, rfl⟩ := Node.stepsOf?_eq_some read
  have h := Original.ofVariables takes inside
  obtain ⟨outcome, lowered, name, done, reproduces⟩ : ∃ outcome lowered, ∃ name : String → String,
      (Module.lower options .none).run s.analysed = .ok outcome lowered ∧
      Reproduces P (Module.definesFlag options s.statements) taken.flatten M name
        lowered.statements := by
    cases hasSyntax : s.analysed.hasModuleSyntax with
    | false => exact ⟨_, _, id, Module.lower_of_plain hasSyntax,
        h.reproduces_unlowered defined options hasSyntax run blank⟩
    | true =>
      obtain ⟨r, drafted, reproduces⟩ :=
        h.reproduces_lowered defined flag exportable options hasSyntax run blank
      exact ⟨_, _, _, (Module.lower_of_draft hasSyntax drafted).2, reproduces⟩
  refine ⟨outcome, lowered, name, done, reproduces.kept, ?_⟩
  -- What the steps are not ready for stops the lowered module; otherwise it runs, and the exports
  -- are known.
  by_cases ready : Step.AreReady P (Module.definesFlag options s.statements) taken.flatten
  · obtain ⟨M', run', locals, exports⟩ := reproduces.runs ready
    simp only [run', Option.some.injEq, forall_eq', exists_eq_left', ready, true_and]
    refine ⟨locals, ?_⟩
    constructor
    · intro follows x e listed
      exact (exports x e listed).symm.trans (follows x e listed)
    · intro published x e listed
      exact (exports x e listed).trans (published x e listed)
  · have stops := reproduces.stops ready
    simp only [stops, reduceCtorEq, false_implies, implies_true, false_and, exists_false,
      ready, true_and]

section Example

inductive Scalar where
  | undefined
  | boolean (b : Bool)
  | number (n : Nat)
  deriving DecidableEq, Repr

def Primitives.scalars : Primitives Scalar where
  literal n := n.natValue?.map .number
  boolean b := some (.boolean b)
  undefined := some .undefined
  binary _ _ _ := none
  isTruthy
    | .undefined => false
    | .boolean b => b
    | .number n => n != 0
  isNullish v := v == .undefined
  step _ _ := none

/-- `export { x }; var x = 1;`, and what follows. -/
def Node.listedFirst (rest : List Node) : List Node :=
  .made (.exportNamed false) [.made (.exportSpecifier false) [.made (.mention "x" .none .either) [],
    Made.word "x"]] ::
  Made.varDeclaration "x" (Made.number 1) none :: rest

def Node.assignedTwo : Node :=
  .made .expression [.made (.assign .plain) [.made (.target "x" .none) [], Made.number 2]]

/-- The export keeps the value from before the declaration, until there is an assignment. -/
theorem exports_follow_locals_iff_listedFirst :
    (∃ outcome lowered, (Module.lower .default .none).run
      (.analyse true (.made (.program none []) (Node.listedFirst []))) =
      .ok outcome lowered ∧
      ¬ ∃ M', Node.run .scalars lowered.statements = some M' ∧ M'.exports "x" = some (.number 1)) ∧
    ∃ outcome lowered, (Module.lower .default .none).run
        (.analyse true (.made (.program none []) (Node.listedFirst [.assignedTwo]))) =
          .ok outcome lowered ∧
      ∃ M', Node.run .scalars lowered.statements = some M' ∧ M'.exports "x" = some (.number 2) := by
  constructor
  · obtain ⟨outcome, lowered, name, done, -, -, follows⟩ :=
      exports_follow_locals_iff .scalars rfl rfl .default
        ⟨true, none, [], none, Node.listedFirst []⟩ _ rfl (by decide)
        ⟨by decide, by decide, by simp⟩ _ rfl
      ⟨trivial, fun _ _ => ⟨trivial, fun _ _ => trivial⟩⟩
    refine ⟨outcome, lowered, done, fun ⟨M', run, held⟩ => ?_⟩
    have published := (follows.mp ⟨M', run, fun x e listed => by
      obtain ⟨rfl, rfl⟩ : x = "x" ∧ e = "x" := by simpa [Step.pair?] using listed
      exact held⟩).2 "x" "x" (by simp [Step.pair?])
    exact absurd published (by decide)
  · obtain ⟨outcome, lowered, name, done, -, -, follows⟩ :=
      exports_follow_locals_iff .scalars rfl rfl .default
        ⟨true, none, [], none, Node.listedFirst [.assignedTwo]⟩ _ rfl (by decide)
        ⟨by decide, by decide, by simp⟩ _ rfl
        ⟨trivial, fun _ _ => ⟨trivial, fun _ _ => ⟨trivial, fun _ _ => trivial⟩⟩⟩
    obtain ⟨M', run, held⟩ :=
      follows.mpr ⟨⟨fun _ => by decide, rfl, fun _ _ => ⟨trivial, fun _ _ =>
        ⟨trivial, fun _ _ => trivial⟩⟩⟩, fun x e listed => by
        obtain ⟨rfl, rfl⟩ : x = "x" ∧ e = "x" := by simpa [Step.pair?] using listed
        decide⟩
    exact ⟨outcome, lowered, done, M', run, held "x" "x" (by simp [Step.pair?])⟩

end Example

end ModuleLowering
