import ModuleLowering.Proofs.Scope.Analysis

/-!
Names that the top of a program declares. A variable may be taken out of a value by a pattern,
however deep; it belongs to the program's own scope all the same.
-/

set_option autoImplicit false

namespace ModuleLowering

/-- Whether the names that a form declares stand in its parts. -/
def Form.isPattern : Form → Bool
  | .bindingProperty .. | .bindingDefault | .bindingRest | .bindingArray | .bindingObject => true
  | _ => false

def Form.bindingParts (f : Form) (ps : List Node) : List Node :=
  match f, ps with
  | .bindingProperty .., [_, p] | .bindingDefault, [p, _] | .bindingRest, p :: _ => [p]
  | .bindingArray, ps | .bindingObject, ps => ps
  | _, _ => []

theorem Form.bindingParts_subset (f : Form) (ps : List Node) : f.bindingParts ps ⊆ ps := by
  unfold bindingParts
  split <;> simp

theorem Form.isPattern_of_mem {f : Form} {ps : List Node} {p : Node}
    (among : p ∈ f.bindingParts ps) : f.isPattern = true := by
  unfold bindingParts at among
  split at among <;> first | rfl | cases among

theorem boundNamesOf_eq_flatMap (ps : List Node) :
    boundNamesOf ps = ps.flatMap Node.boundNames := by
  induction ps with
  | nil => rfl
  | cons p ps ih => rw [boundNamesOf, ih, List.flatMap_cons]

theorem Node.boundNames_mk {f : Form} (other : f.isBinder = false) (s : Option Span)
    (ps : List Node) :
    (mk f s ps).boundNames = (f.bindingParts ps).flatMap boundNames := by
  cases f
  case binder => cases other
  case bindingArray | bindingObject => exact boundNamesOf_eq_flatMap ps
  case bindingProperty | bindingDefault => match ps with
    | [] | [_] | _ :: _ :: _ :: _ => rfl
    | [_, _] => simp [boundNames, Form.bindingParts]
  case bindingRest => cases ps <;> simp [boundNames, Form.bindingParts]
  all_goals rfl

theorem Form.bindingParts_forall₂ {R : Node → Node → Prop} (f : Form) {ps ps' : List Node}
    (h : List.Forall₂ R ps ps') :
    List.Forall₂ R (f.bindingParts ps) (f.bindingParts ps') := by
  cases f
  case bindingArray | bindingObject => exact h
  case bindingProperty =>
    match h with
    | .nil | .cons _ .nil | .cons _ (.cons _ (.cons _ _)) => exact .nil
    | .cons _ (.cons second .nil) => exact .cons second .nil
  case bindingDefault =>
    match h with
    | .nil | .cons _ .nil | .cons _ (.cons _ (.cons _ _)) => exact .nil
    | .cons first (.cons _ .nil) => exact .cons first .nil
  case bindingRest =>
    match h with
    | .nil => exact .nil
    | .cons first _ => exact .cons first .nil
  all_goals exact .nil

/-- The name is declared in the pattern, as the given symbol. -/
inductive Node.Binds (x : String) (symbol : Option Symbol) : Node → Prop
  | here (s : Option Span) (ps : List Node) : Binds x symbol (.mk (.binder x symbol) s ps)
  | inside {f : Form} {s : Option Span} {ps : List Node} {p : Node} (member : p ∈ f.bindingParts ps)
    (below : Binds x symbol p) :
    Binds x symbol (.mk f s ps)

theorem Node.exists_binds {n : Node} {x : String} (bound : x ∈ n.boundNames.map Prod.fst) :
    ∃ symbol, n.Binds x symbol := by
  induction n using Node.induction with
  | step f s ps ih =>
    cases binder : f.isBinder with
    | true =>
      obtain ⟨y, symbol, rfl⟩ : ∃ y symbol, f = .binder y symbol := by
        cases f <;> first | exact ⟨_, _, rfl⟩ | cases binder
      obtain rfl : x = y := by simpa [boundNames] using bound
      exact ⟨symbol, .here s ps⟩
    | false =>
      rw [boundNames_mk binder, List.map_flatMap] at bound
      obtain ⟨p, member, below⟩ := List.mem_flatMap.mp bound
      obtain ⟨symbol, binds⟩ := ih p (f.bindingParts_subset ps member) below
      exact ⟨symbol, .inside member binds⟩

def Form.isReference : Form → Bool
  | .ident .. | .target .. | .tagRef .. | .mention .. => true
  | _ => false

def Node.BindsAtRoot (t : ScopeTable) (n : Node) : Prop :=
  ∀ x symbol, n.Binds x symbol → ∃ s, symbol = some s ∧ t.root? x = some s

theorem Node.resolveParts_forall₂ (t : ScopeTable) (c : ScopeContext) (scope : ScopeId) (f : Form)
    (all : List Node) (i : Nat) (ps : List Node) :
    List.Forall₂ (fun p p' => ∃ c' scope', p' = p.resolve t c' scope') ps
      (resolveParts t c scope f all i ps) := by
  induction ps generalizing i with
  | nil => exact .nil
  | cons p ps ih => exact .cons ⟨_, _, rfl⟩ (ih (i + 1))

theorem Form.bindingParts_resolve (t : ScopeTable) (c : ScopeContext) (f : Form) :
    (f.resolve t c).bindingParts = f.bindingParts := by
  cases f <;> rfl

theorem Node.Binds.of_resolve {t : ScopeTable} {x : String} {symbol : Option Symbol} {n : Node}
    {c : ScopeContext} {scope : ScopeId} (h : (n.resolve t c scope).Binds x symbol) :
    n.Binds x symbol := by
  induction n using Node.induction generalizing c scope with
  | step f s ps ih =>
    rw [Node.resolve] at h
    generalize form : f.resolve t c = g at h
    cases h with
    | here =>
      rw [Form.resolve_eq_binder form]
      exact .here s ps
    | inside member below =>
      rw [← form, Form.bindingParts_resolve] at member
      have parts := f.bindingParts_forall₂ (Node.resolveParts_forall₂ t c scope f ps 0 ps)
      obtain ⟨p, listed, c', scope', rfl⟩ := (exists_of_forall₂ parts).2 _ member
      exact .inside listed (ih p (f.bindingParts_subset ps listed) below)

theorem Node.BindsAtRoot.resolve {t t' : ScopeTable} {n : Node} (h : n.BindsAtRoot t)
    (c : ScopeContext) (scope : ScopeId) :
    (n.resolve t' c scope).BindsAtRoot t := fun x symbol binds => h x symbol binds.of_resolve

structure ScopeContext.AtTop (c : ScopeContext) : Prop where
  home : c.home = []
  varHome : c.varHome = []
  passed : c.passed = []
  alsoIn : c.alsoIn = []

theorem ScopeContext.AtTop.inner {c : ScopeContext} (top : c.AtTop) : c.Inner := by
  simp [ScopeContext.Inner, top.passed, top.alsoIn]

theorem ScopeContext.AtTop.declaring {c : ScopeContext} (top : c.AtTop) (kind : DeclarationKind) :
    (c.declaring kind).AtTop :=
  ⟨top.home, top.varHome, top.passed, top.alsoIn⟩

theorem ScopeContext.declare_top {c : ScopeContext} {kind : DeclarationKind} {x : String}
    {t : ScopeTable} (top : c.AtTop) (rootOpen : t.RootOpen) :
    (c.declare kind x t).2.root? x = some (c.declare kind x t).1 := by
  by_cases isVar : kind = .varName
  · -- Nothing is passed on the way, so the variable is declared like any other name.
    simp only [ScopeContext.declare, if_pos isVar, top.varHome, top.passed, ScopeTable.hoist,
      List.findSome?_nil, ScopeTable.declare, rootOpen.existing?]
    cases held : t.root? x with
    | some s => exact held
    | none => simp [ScopeTable.root?, ScopeTable.binding?_eq, ScopeTable.reserve]
  · exact declare_root top.home isVar rootOpen

theorem ScopeContext.part_isPattern {f : Form} (pattern : f.isPattern = true) (c : ScopeContext)
    (scope : ScopeId) (ps : List Node) (i : Nat) : c.part scope f ps i = c := by
  cases f <;> first | rfl | cases pattern

theorem Form.exists_of_enter {c : ScopeContext} {ps : List Node} {f : Form} {t : ScopeTable}
    {x : String} {symbol : Option Symbol} (entered : (f.enter c ps t).1 = .binder x symbol) :
    ∃ old, f = .binder x old := by
  have bare := bare_enter c ps f t
  rw [entered] at bare
  cases f
  case binder y old =>
    obtain rfl : x = y := by simpa [Form.bare] using bare
    exact ⟨old, rfl⟩
  all_goals cases bare

def Form.enters : Form → Bool
  | .binder .. | .enumMember _ => true
  | _ => false

theorem Form.enter_eq_self {c : ScopeContext} {ps : List Node} {f : Form} {t : ScopeTable}
    (other : (f.enter c ps t).1.enters = false) : f.enter c ps t = (f, t) := by
  cases f
  case binder =>
    simp only [enter] at other
    split at other <;> cases other
  case enumMember => cases other
  all_goals rfl

theorem Form.enters_of_isPattern {f : Form} (pattern : f.isPattern = true) : f.enters = false := by
  cases f <;> first | rfl | cases pattern

theorem Node.declare_bindsAtRoot {c : ScopeContext} (top : c.AtTop) {kind : DeclarationKind}
    (declares : c.kind = some kind) (n : Node) {scope : ScopeId} (inside : scope ≠ [])
    {t t' : ScopeTable} (rootOpen : t.RootOpen) {ys : List String}
    (after : ScopeTable.Run ys ((n.declare c scope).run t).2 t') :
    ((n.declare c scope).run t).1.BindsAtRoot t' := by
  induction n using Node.induction generalizing scope t ys with
  | step f s ps ih =>
    intro x symbol binds
    rw [declare_run] at after binds
    have within (i : Nat) : (c.part scope f ps i).Inner :=
      (ScopeContext.Within.part scope c f ps i).inner inside top.inner
    generalize form : (f.enter c ps t).1 = g at binds
    cases binds with
    | here =>
      obtain ⟨old, rfl⟩ := Form.exists_of_enter form
      simp only [Form.enter, declares, Form.binder.injEq, true_and] at form after
      have open₁ := (c.declare_entered kind x t).keeps_rootOpen top.inner rootOpen
      have parts := declareParts_enters ps c scope (.binder x old) ps 0
        (c.declare kind x t).2 within
      have held : (c.declare kind x t).2.root? x = some (c.declare kind x t).1 :=
        ScopeContext.declare_top top rootOpen
      exact ⟨_, form.symm, (parts.append after).keeps_root open₁ held⟩
    | inside member below =>
      have pattern := Form.isPattern_of_mem member
      have kept := Form.enter_eq_self (form ▸ Form.enters_of_isPattern pattern)
      rw [kept] at form after member
      subst form
      obtain ⟨p, listed, j, _, _, t₁, before, rfl, rest⟩ :=
        mem_declareParts within ps 0 t (f.bindingParts_subset _ member)
      rw [ScopeContext.part_isPattern pattern] at below rest
      exact ih p listed (by simp) (before.keeps_rootOpen rootOpen) (rest.append after)
        x symbol below

def Form.declaresName : Form → Bool
  | .function t => t.role != .expression
  | .classDef t => !t.isExpression
  | .enumDecl .. | .namespaceDecl .. | .importEquals | .interface | .typeAlias _ => true
  | _ => false

def Node.declaratorPattern? : Node → Option Node
  | .mk (.declarator _) _ (p :: _) => some p
  | _ => none

/-- The patterns with the names that a declaration declares for what is around it. -/
def Node.declaredPatterns : Node → List Node
  | .mk (.varDecl ..) _ ds => ds.filterMap declaratorPattern?
  | .mk f _ ps => if f.declaresName then ps.head?.toList else []

theorem Node.mem_declaredPatterns {f : Form} {s : Option Span} {ps : List Node} {p : Node} :
    p ∈ (mk f s ps).declaredPatterns ↔
      (∃ kind isDeclared, f = .varDecl kind isDeclared ∧ ∃ d ∈ ps, d.declaratorPattern? = some p) ∨
      (f.declaresName = true ∧ ps.head? = some p) := by
  by_cases isVar : ∃ kind isDeclared, f = .varDecl kind isDeclared
  · obtain ⟨kind, isDeclared, rfl⟩ := isVar
    simp [declaredPatterns, Form.declaresName]
  · have other (kind : VariableKind) (isDeclared : Bool) : f ≠ .varDecl kind isDeclared :=
      fun eq => isVar ⟨kind, isDeclared, eq⟩
    unfold declaredPatterns
    split
    · next eq => exact absurd (mk.inj eq).1 (other _ _)
    · next eq =>
      obtain ⟨rfl, -, rfl⟩ := mk.inj eq
      split
      · next named => simp [named, other]
      · next unnamed => simp [unnamed, other]

theorem Node.exists_of_declaratorPattern? {d p : Node} (h : d.declaratorPattern? = some p) :
    ∃ isDefinite s ps, d = .mk (.declarator isDefinite) s (p :: ps) := by
  unfold declaratorPattern? at h
  split at h
  · exact ⟨_, _, _, by rw [Option.some.inj h]⟩
  · cases h

theorem Form.enters_of_declaresName {f : Form} (named : f.declaresName = true) :
    f.enters = false := by
  cases f <;> first | rfl | cases named

theorem ScopeContext.AtTop.part_first {c : ScopeContext} (top : c.AtTop) {f : Form}
    (named : f.declaresName = true) (scope : ScopeId) (ps : List Node) :
    (c.part scope f ps 0).AtTop ∧ ∃ kind, (c.part scope f ps 0).kind = some kind := by
  cases f
  case function t =>
    have declaration : (t.role == .expression) = false := by simpa [Form.declaresName] using named
    simp only [ScopeContext.part, declaration, if_true, Bool.false_eq_true, if_false]
    exact ⟨⟨top.home, top.varHome, top.passed, top.alsoIn⟩, _, rfl⟩
  case classDef t =>
    have declaration : t.isExpression = false := by simpa [Form.declaresName] using named
    simp only [ScopeContext.part, declaration, if_true, Bool.false_eq_true, if_false]
    exact ⟨top.declaring _, _, rfl⟩
  case enumDecl | namespaceDecl | importEquals | interface | typeAlias =>
    exact ⟨top.declaring _, _, rfl⟩
  all_goals cases named

theorem Node.declare_first_bindsAtRoot {c : ScopeContext} {scope : ScopeId} {f : Form}
    {ps : List Node} {t t' : ScopeTable} (within : ∀ i, (c.part scope f ps i).Inner)
    (top : (c.part scope f ps 0).AtTop) {kind : DeclarationKind}
    (declares : (c.part scope f ps 0).kind = some kind) (rootOpen : t.RootOpen) {ys : List String}
    (after : ScopeTable.Run ys ((declareParts c scope f ps 0 ps).run t).2 t') {p' : Node}
    (first : ((declareParts c scope f ps 0 ps).run t).1.head? = some p') : p'.BindsAtRoot t' := by
  cases ps with
  | nil => cases first
  | cons p ps =>
    simp only [declareParts_cons, List.head?_cons, Option.some.injEq] at first after
    subst first
    have rest :=
      declareParts_enters ps c scope f (p :: ps) 1
        ((p.declare (c.part scope f (p :: ps) 0) (0 :: scope)).run t).2 within
    exact declare_bindsAtRoot top declares p (by simp) rootOpen (rest.append after)

theorem Node.declare_declaredPatterns {c : ScopeContext} (top : c.AtTop) (d : Node)
    {scope : ScopeId} (inside : scope ≠ []) {t t' : ScopeTable} (rootOpen : t.RootOpen)
    {ys : List String} (after : ScopeTable.Run ys ((d.declare c scope).run t).2 t') :
    ∀ p ∈ ((d.declare c scope).run t).1.declaredPatterns, p.BindsAtRoot t' := by
  obtain ⟨f, s, ps⟩ := d
  rw [declare_run] at after ⊢
  have within (i : Nat) : (c.part scope f ps i).Inner :=
    (ScopeContext.Within.part scope c f ps i).inner inside top.inner
  intro p' among
  rcases mem_declaredPatterns.mp among with ⟨kind, isDeclared, form, d', listed, pattern⟩
    | ⟨named, first⟩
  · -- Variables: the pattern is the first part of a declarator.
    have kept := Form.enter_eq_self (form ▸ rfl : (f.enter c ps t).1.enters = false)
    rw [kept] at form after listed
    subst form
    obtain ⟨d, _, j, _, _, t₁, before, rfl, rest⟩ := mem_declareParts within ps 0 t listed
    have open₁ := before.keeps_rootOpen rootOpen
    have top₁ : (c.part scope (.varDecl kind isDeclared) ps j).AtTop := top.declaring _
    have declares : ∃ kind', (c.part scope (.varDecl kind isDeclared) ps j).kind = some kind' :=
      ⟨_, rfl⟩
    generalize c.part scope (.varDecl kind isDeclared) ps j = c₁ at pattern rest top₁ declares
    obtain ⟨kind', declares⟩ := declares
    obtain ⟨g, s₁, qs⟩ := d
    rw [declare_run] at pattern rest
    obtain ⟨isDefinite, _, _, eq⟩ := exists_of_declaratorPattern? pattern
    obtain ⟨form₁, -, parts⟩ := mk.inj eq
    have kept₁ := Form.enter_eq_self (form₁ ▸ rfl : (g.enter c₁ qs t₁).1.enters = false)
    rw [kept₁] at form₁ parts rest
    subst form₁
    have within₁ (i : Nat) : (c₁.part (j :: scope) (.declarator isDefinite) qs i).Inner :=
      top₁.inner
    exact declare_first_bindsAtRoot within₁ top₁ declares open₁ (rest.append after)
      (List.head?_eq_some_iff.mpr ⟨_, parts⟩)
  · have kept := Form.enter_eq_self (Form.enters_of_declaresName named)
    rw [kept] at named first after
    obtain ⟨top₁, kind, declares⟩ := top.part_first named scope ps
    exact declare_first_bindsAtRoot within top₁ declares rootOpen after first

theorem Form.resolve_of_not_isReference {t : ScopeTable} {c : ScopeContext} {f g : Form}
    (same : f.resolve t c = g) (other : g.isReference = false) : f = g := by
  subst same
  cases f <;> first | rfl | cases other

theorem Node.head?_resolveParts {t : ScopeTable} {c : ScopeContext} {scope : ScopeId} {f : Form}
    {all ps : List Node} {i : Nat} {p' : Node}
    (first : (resolveParts t c scope f all i ps).head? = some p') :
    ∃ p, ps.head? = some p ∧ ∃ c' scope', p' = p.resolve t c' scope' := by
  cases ps with
  | nil => cases first
  | cons p ps => exact ⟨p, rfl, _, _, (Option.some.inj first).symm⟩

theorem Node.declaredPatterns_resolve {t : ScopeTable} {c : ScopeContext} {scope : ScopeId}
    {d p' : Node} (among : p' ∈ (d.resolve t c scope).declaredPatterns) :
    ∃ p ∈ d.declaredPatterns, ∃ c' scope', p' = p.resolve t c' scope' := by
  obtain ⟨f, s, ps⟩ := d
  rcases mem_declaredPatterns.mp among with ⟨kind, isDeclared, form, d', listed, pattern⟩
    | ⟨named, first⟩
  · obtain rfl := Form.resolve_of_not_isReference form rfl
    obtain ⟨⟨g, s₁, qs⟩, member, c₁, scope₁, rfl⟩ := mem_resolveParts ps 0 listed
    obtain ⟨isDefinite, _, _, eq⟩ := exists_of_declaratorPattern? pattern
    obtain ⟨form₁, -, parts⟩ := mk.inj eq
    obtain rfl := Form.resolve_of_not_isReference form₁ rfl
    obtain ⟨q, head, resolved⟩ := head?_resolveParts (List.head?_eq_some_iff.mpr ⟨_, parts⟩)
    refine ⟨q, mem_declaredPatterns.mpr (.inl ⟨kind, isDeclared, rfl, _, member, ?_⟩), resolved⟩
    obtain ⟨rest, rfl⟩ := List.head?_eq_some_iff.mp head
    rfl
  · obtain ⟨q, head, resolved⟩ := head?_resolveParts first
    refine ⟨q, mem_declaredPatterns.mpr (.inr ⟨?_, head⟩), resolved⟩
    cases f <;> exact named

def Node.exportedDeclaration? : Node → Option Node
  | .mk .exportDeclaration _ [d] | .mk .exportDefault _ [d] => some d
  | _ => none

theorem Node.exists_of_exportedDeclaration? {n d : Node} (h : n.exportedDeclaration? = some d) :
    ∃ f s, n = .mk f s [d] ∧ (f = .exportDeclaration ∨ f = .exportDefault) := by
  unfold exportedDeclaration? at h
  split at h
  · exact ⟨_, _, by rw [Option.some.inj h], .inl rfl⟩
  · exact ⟨_, _, by rw [Option.some.inj h], .inr rfl⟩
  · cases h

def Node.ExportsAtRoot (t : ScopeTable) (n : Node) : Prop :=
  ∀ d, n.exportedDeclaration? = some d → ∀ p ∈ d.declaredPatterns, p.BindsAtRoot t

theorem Node.ExportsAtRoot.resolve {t : ScopeTable} {n : Node} (h : n.ExportsAtRoot t)
    (c : ScopeContext) (scope : ScopeId) : (n.resolve t c scope).ExportsAtRoot t := by
  obtain ⟨f, s, ps⟩ := n
  intro d' found p' among
  rw [Node.resolve] at found
  obtain ⟨g, s', eq, which⟩ := Node.exists_of_exportedDeclaration? found
  obtain ⟨form, -, parts⟩ := Node.mk.inj eq
  obtain rfl := Form.resolve_of_not_isReference form (by rcases which with rfl | rfl <;> rfl)
  match ps, parts with
  | [d], rfl =>
    obtain ⟨p, listed, c', scope', rfl⟩ := Node.declaredPatterns_resolve among
    have exported : (Node.mk f s [d]).exportedDeclaration? = some d := by
      rcases which with rfl | rfl <;> rfl
    exact (h d exported p listed).resolve c' scope'

theorem Node.exportsAtRoot_declare {c : ScopeContext} {scope : ScopeId} (top : c.AtTop) (n : Node)
    {t t' : ScopeTable} (rootOpen : t.RootOpen) {ys : List String}
    (after : ScopeTable.Run ys ((n.declare c scope).run t).2 t') :
    ((n.declare c scope).run t).1.ExportsAtRoot t' := by
  obtain ⟨f, s, ps⟩ := n
  rw [declare_run] at after ⊢
  intro d' found
  obtain ⟨g, s', eq, which⟩ := exists_of_exportedDeclaration? found
  obtain ⟨form, -, parts⟩ := mk.inj eq
  have kept :=
    Form.enter_eq_self (form ▸ by
      rcases which with rfl | rfl <;> rfl : (f.enter c ps t).1.enters = false)
  rw [kept] at form parts after
  subst form
  have around (i : Nat) : c.part scope f ps i = c := by rcases which with rfl | rfl <;> rfl
  have within (i : Nat) : (c.part scope f ps i).Inner := by rw [around]; exact top.inner
  have listed : d' ∈ ((declareParts c scope f ps 0 ps).run t).1 := by
    rw [parts]
    exact List.mem_singleton_self d'
  obtain ⟨d, _, j, _, _, t₁, before, rfl, rest⟩ := mem_declareParts within ps 0 t listed
  rw [around] at rest ⊢
  exact declare_declaredPatterns top d (by simp) (before.keeps_rootOpen rootOpen)
    (rest.append after)

/-- What a module exports by declaring it belongs to its own scope. -/
theorem Original.exportsAtRoot {s : Original} {n : Node} (among : n ∈ s.analysed.program.parts) :
    n.ExportsAtRoot s.analysed.scopes := by
  obtain ⟨strictHere, eq⟩ := s.exists_analysed
  have top : (ScopeContext.program strictHere).AtTop := ⟨rfl, rfl, rfl, rfl⟩
  rw [eq] at among ⊢
  obtain ⟨n₀, listed, c, scope, rfl⟩ := Node.mem_resolveParts _ 0 among
  have inner (i : Nat) : ((ScopeContext.program strictHere).part [] s.form s.statements i).Inner :=
    top.inner
  obtain ⟨p, _, j, _, _, t₁, before, rfl, after⟩ := Node.mem_declareParts inner _ 0 .empty listed
  exact (Node.exportsAtRoot_declare top p (before.keeps_rootOpen ScopeTable.empty_rootOpen)
    after).resolve c scope

end ModuleLowering
