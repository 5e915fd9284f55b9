import ModuleLowering.Proofs.Scope.Resolution

/-!
What is true of a module once its scopes are analysed: all that its statements declare is in its
table, and what its imports declare belongs to the program's own scope.
-/

set_option autoImplicit false

namespace ModuleLowering

def Form.isSpecifier : Form → Bool
  | .importDefault | .importNamespace | .importNamed _ => true
  | _ => false

/-- If the statement is an import, each name that it declares is the one that the program's own
scope holds. -/
def Node.ImportsAtRoot (t : ScopeTable) (n : Node) : Prop :=
  match n with
  | .mk (.importDecl ..) _ parts =>
      ∀ p ∈ parts, p.form.isSpecifier = true → ∀ b ∈ p.parts, ∀ x symbol, b.form = .binder x
        symbol → ∃ s, symbol = some s ∧ t.root? x = some s
  | _ => True

theorem ScopeContext.part_specifier {c : ScopeContext} {kind : DeclarationKind}
    (declares : c.kind = some kind) (notVar : kind ≠ .varName) {f : Form}
    (specifier : f.isSpecifier = true) (scope : ScopeId) (ps : List Node) (i : Nat) :
    (c.part scope f ps i).home = c.home ∧ ∃ kind', (c.part scope f ps i).kind = some kind' ∧
      kind' ≠ .varName := by
  cases f
  case importDefault | importNamespace => exact ⟨rfl, kind, declares, notVar⟩
  case importNamed isType =>
    cases isType with
    | false => exact ⟨rfl, kind, declares, notVar⟩
    | true => exact ⟨rfl, .typeImport, rfl, by decide⟩
  all_goals cases specifier

theorem Node.mem_resolveParts {t : ScopeTable} {c : ScopeContext} {scope : ScopeId} {f : Form}
    {all : List Node} {p' : Node} (ps : List Node) (i : Nat)
    (among : p' ∈ resolveParts t c scope f all i ps) :
    ∃ p ∈ ps, ∃ c' scope', p' = p.resolve t c' scope' := by
  induction ps generalizing i with
  | nil => cases among
  | cons p ps ih =>
    rcases List.mem_cons.mp among with rfl | later
    · exact ⟨p, List.mem_cons_self, _, _, rfl⟩
    · obtain ⟨q, listed, eq⟩ := ih (i + 1) later
      exact ⟨q, List.mem_cons_of_mem _ listed, eq⟩

theorem Node.form_resolve (t : ScopeTable) (c : ScopeContext) (scope : ScopeId) (n : Node) :
    (n.resolve t c scope).form = n.form.resolve t c := by
  obtain ⟨f, s, ps⟩ := n
  rfl

theorem Node.mem_parts_resolve {t : ScopeTable} {c : ScopeContext} {scope : ScopeId} {n p' : Node}
    (among : p' ∈ (n.resolve t c scope).parts) :
    ∃ p ∈ n.parts, ∃ c' scope', p' = p.resolve t c' scope' := by
  obtain ⟨f, s, ps⟩ := n
  exact mem_resolveParts ps 0 among

theorem Form.resolve_eq_importDecl {t : ScopeTable} {c : ScopeContext} {f : Form}
    {isType hasClause : Bool} {source : String}
    (h : f.resolve t c = .importDecl isType hasClause source) :
    f = .importDecl isType hasClause source := by
  cases f <;> simp_all [resolve]

theorem Form.resolve_eq_binder {t : ScopeTable} {c : ScopeContext} {f : Form} {x : String}
    {symbol : Option Symbol} (h : f.resolve t c = .binder x symbol) : f = .binder x symbol := by
  cases f <;> simp_all [resolve]

theorem Form.isSpecifier_resolve (t : ScopeTable) (c : ScopeContext) (f : Form) :
    (f.resolve t c).isSpecifier = f.isSpecifier := by
  cases f <;> rfl

theorem Node.ImportsAtRoot.resolve {t : ScopeTable} {n : Node} (h : n.ImportsAtRoot t)
    (c : ScopeContext) (scope : ScopeId) : (n.resolve t c scope).ImportsAtRoot t := by
  obtain ⟨f, s, ps⟩ := n
  simp only [Node.resolve, Node.ImportsAtRoot]
  split
  · next eq =>
    obtain ⟨form, _, rfl⟩ := Node.mk.inj eq
    obtain rfl := Form.resolve_eq_importDecl form
    intro p among specifier b inside x symbol binder
    obtain ⟨q, listed, c₁, scope₁, rfl⟩ := Node.mem_resolveParts ps 0 among
    obtain ⟨d, below, c₂, scope₂, rfl⟩ := Node.mem_parts_resolve inside
    rw [Node.form_resolve] at binder specifier
    rw [Form.isSpecifier_resolve] at specifier
    exact h q listed specifier d below x symbol (Form.resolve_eq_binder binder)
  · trivial

theorem Form.isSpecifier_enter (c : ScopeContext) (ps : List Node) (f : Form) (t : ScopeTable) :
    (f.enter c ps t).1.isSpecifier = f.isSpecifier := by
  cases f with
  | binder x symbol => cases h : c.kind <;> simp [enter, h, isSpecifier]
  | _ => rfl

theorem Node.declare_binder_root {c : ScopeContext} {scope : ScopeId} (inside : scope ≠ [])
    (inner : c.Inner) (home : c.home = []) {kind : DeclarationKind} (declares : c.kind = some kind)
    (notVar : kind ≠ .varName) {b : Node} {x : String} {symbol : Option Symbol} {t : ScopeTable}
    (rootOpen : t.RootOpen) (binder : ((b.declare c scope).run t).1.form = .binder x symbol) :
    ∃ s, symbol = some s ∧ ((b.declare c scope).run t).2.root? x = some s := by
  obtain ⟨f, s, ps⟩ := b
  simp only [declare_run] at binder ⊢
  obtain ⟨old, rfl⟩ : ∃ old, f = .binder x old := by
    cases f <;> simp_all [form, Form.enter]
  simp only [Form.enter, declares, form, Form.binder.injEq, true_and] at binder ⊢
  refine ⟨_, binder.symm, ?_⟩
  have entered := c.declare_entered kind x t
  have parts := declareParts_enters ps c scope (.binder x old) ps 0 (c.declare kind x t).2 fun i =>
    (ScopeContext.Within.part scope c _ ps i).inner inside inner
  exact parts.keeps_root (entered.keeps_rootOpen inner rootOpen)
    (ScopeContext.declare_root home notVar rootOpen)

theorem Node.importsAtRoot_declare {c : ScopeContext} {scope : ScopeId} (inside : scope ≠ [])
    (inner : c.Inner) (home : c.home = []) (n : Node) {t t' : ScopeTable} (rootOpen : t.RootOpen)
    {ys : List String} (after : ScopeTable.Run ys ((n.declare c scope).run t).2 t') :
    ((n.declare c scope).run t).1.ImportsAtRoot t' := by
  obtain ⟨f, s, ps⟩ := n
  rw [declare_run] at after ⊢
  have within (i : Nat) : (c.part scope f ps i).Inner :=
    (ScopeContext.Within.part scope c f ps i).inner inside inner
  cases f
  case importDecl isType hasClause source =>
    intro p' among specifier b' below x symbol binder
    -- The binder stands two levels down, below a specifier, and each level leaves the root open.
    obtain ⟨p, _, j, _, _, t₁, before, rfl, rest⟩ := mem_declareParts within ps 0 t among
    have open₁ := before.keeps_rootOpen rootOpen
    generalize context : c.part scope (.importDecl isType hasClause source) ps j = c₁ at *
    have home₁ : c₁.home = [] := by rw [← context]; exact home
    have inner₁ : c₁.Inner := context ▸ within j
    obtain ⟨kind, declares, notVar⟩ : ∃ kind, c₁.kind = some kind ∧ kind ≠ .varName := by
      rw [← context]
      cases isType with
      | false => exact ⟨.importName, rfl, by decide⟩
      | true => exact ⟨.typeImport, rfl, by decide⟩
    obtain ⟨g, s', qs⟩ := p
    rw [declare_run] at rest below specifier
    rw [show (mk (g.enter c₁ qs t₁).1 s' _).form = (g.enter c₁ qs t₁).1 from rfl,
      Form.isSpecifier_enter] at specifier
    have plain : (g.enter c₁ qs t₁).2 = t₁ := by cases g <;> first | rfl | cases specifier
    rw [plain] at rest below
    have deeper (i : Nat) : (c₁.part (j :: scope) g qs i).Inner :=
      (ScopeContext.Within.part (j :: scope) c₁ g qs i).inner (by simp) inner₁
    obtain ⟨b, _, k, _, _, t₂, before₂, rfl, rest₂⟩ := mem_declareParts deeper qs 0 t₁ below
    obtain ⟨home₂, kind₂, declares₂, notVar₂⟩ :=
      ScopeContext.part_specifier declares notVar specifier (j :: scope) qs k
    have open₂ := before₂.keeps_rootOpen open₁
    obtain ⟨symbol', eq, held⟩ :=
      declare_binder_root (by simp) (deeper k) (home₂.trans home₁) declares₂ notVar₂ open₂ binder
    have open₃ :=
      (declare_enters b _ (k :: j :: scope) t₂ (by simp) (deeper k)).keeps_rootOpen open₂
    have through := (rest₂.append rest).append after
    exact ⟨symbol', eq, through.keeps_root open₃ held⟩
  case binder x symbol => cases h : c.kind <;> simp [Form.enter, h, ImportsAtRoot]
  all_goals trivial

structure Module.Consistent (m : Module) : Prop where
  program : ∃ hashbang ds, m.program.form = .program hashbang ds
  named : m.scopes.Named
  declared : ∀ n ∈ m.program.parts, ∀ x ∈ n.declaredNames false, x ∈ m.scopes.symbolNames
  wellFormed : ∀ n ∈ m.program.parts, n.isWellFormed = true
  imports : ∀ n ∈ m.program.parts, n.ImportsAtRoot m.scopes

theorem Original.consistent {s : Original} (wellFormed : s.program.isWellFormed = true) :
    s.analysed.Consistent := by
  have bare : s.analysed.program.bare = s.program.bare := Module.bare_analyse s.isStrict s.program
  have run := s.analysed_enters
  obtain ⟨strictHere, eq⟩ := s.exists_analysed
  have inner (i : Nat) : ((ScopeContext.program strictHere).part [] s.form s.statements i).Inner :=
    ScopeContext.program_inner strictHere
  refine ⟨by rw [eq]; exact ⟨_, _, rfl⟩, run.keeps_named ScopeTable.empty_named, ?declared,
    ?wellFormed, ?imports⟩
  case declared =>
    intro n among x here
    have names := congrArg (Node.declaredNames false) bare
    rw [Node.declaredNames_bare, Node.declaredNames_bare, eq] at names
    simp only [Original.program, Original.form, Node.declaredNames, Form.declaredNames,
      List.nil_append, Node.declaredNamesOfParts_program] at names
    rw [run.symbolNames ScopeTable.empty_named, ← names]
    rw [eq] at among
    exact List.mem_append_left _ (List.mem_reverse.mpr (List.mem_flatMap.mpr ⟨n, among, here⟩))
  case wellFormed =>
    have fine : s.analysed.program.isWellFormed = true := by
      rw [← Node.isWellFormed_bare, bare, Node.isWellFormed_bare]
      exact wellFormed
    exact (Node.isWellFormed_mk.mp fine).2
  case imports =>
    rw [eq]
    intro n among
    obtain ⟨n₀, listed, c, scope, rfl⟩ := Node.mem_resolveParts _ 0 among
    obtain ⟨p, _, j, _, _, t₁, before, rfl, after⟩ := Node.mem_declareParts inner _ 0 .empty listed
    exact (Node.importsAtRoot_declare (by simp) (inner j) rfl p
      (before.keeps_rootOpen ScopeTable.empty_rootOpen) after).resolve c scope

end ModuleLowering
