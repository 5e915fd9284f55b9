import ModuleLowering.Proofs.Scope.Resolution

/-!
Programs that open no scopes inside. All that they declare is the program's own, a name stands for
one symbol throughout, and analysis just spells that out.
-/

set_option autoImplicit false

namespace ModuleLowering

/-- Forms that open no scope, and whose names look for values. -/
def Form.isFlat : Form → Bool
  | .program .. | .varDecl .. | .declarator _ | .expression | .exportDeclaration
  | .exportNamed _ | .exportSpecifier _ | .number _ | .ident .. | .binary _ | .sequence
  | .assign _ | .target .. | .binder .. | .word _ | .string _ | .absent => true
  | .mention x _ meaning => meaning != .type && x != "this"
  | _ => false

mutual

/-- Trees of such forms. Names are declared only where `outer` or a declaration around says so. -/
def Node.isFlat (outer : Bool) : Node → Bool
  | .mk f _ ps => f.isFlat && (outer || !f.isBinder) && areFlat outer f 0 ps

def Node.areFlat (outer : Bool) (f : Form) (i : Nat) : List Node → Bool
  | [] => true
  | p :: ps => p.isFlat (f.declaresIn outer i) && areFlat outer f (i + 1) ps

end

structure ScopeContext.IsFlat (c : ScopeContext) : Prop where
  chain : c.chain = [[]]
  home : c.home = []
  alsoIn : c.alsoIn = []
  passed : c.passed = []
  varHome : c.varHome = []
  meaning : c.meaning = .value
  kind : ∀ kind, c.kind = some kind → kind = .varName ∨ kind = .lexical

theorem ScopeContext.program_isFlat (isStrict : Bool) : (program isStrict).IsFlat :=
  ⟨rfl, rfl, rfl, rfl, rfl, rfl, by simp [program]⟩

theorem ScopeContext.IsFlat.part {c : ScopeContext} (h : c.IsFlat) {f : Form}
    (flat : f.isFlat = true) (scope : ScopeId) (ps : List Node) (i : Nat) :
    (c.part scope f ps i).IsFlat := by
  cases f
  case varDecl kind isDeclared =>
    refine ⟨h.chain, h.home, h.alsoIn, h.passed, h.varHome, h.meaning, fun kind' declares => ?_⟩
    rw [← Option.some.inj declares]
    split
    · exact .inl rfl
    · exact .inr rfl
  all_goals first | exact h | cases flat

/-- Only the program's own scope holds names, and a name stands for the symbol of its name. -/
structure ScopeTable.IsFlat (t : ScopeTable) : Prop where
  reserved : t.reserved = []
  bindings : ∀ b ∈ t.bindings, b.scope = [] ∧ b.symbol = ⟨[], b.name⟩ ∧
    ∃ kind ∈ t.kindsOf b.symbol, kind = .varName ∨ kind = .lexical

def ScopeTable.rootReference (t : ScopeTable) (x : String) : Reference :=
  match t.root? x with
  | some s => .symbol s
  | none => .global

namespace ScopeTable

variable {t : ScopeTable}

theorem empty_isFlat : empty.IsFlat := ⟨rfl, by simp [empty]⟩

theorem IsFlat.root? (h : t.IsFlat) {x : String} {s : Symbol} (found : t.root? x = some s) :
    s = ⟨[], x⟩ :=
  (h.bindings _ (mem_of_binding? found)).2.1

theorem mem_kindsOf_cons {s s' : Symbol} {kind kind' : DeclarationKind}
    (known : kind ∈ t.kindsOf s) :
    kind ∈ kindsOf { t with declared := (s', kind') :: t.declared } s := by
  simp only [kindsOf, List.filterMap_cons]
  split
  · exact known
  · exact List.mem_cons_of_mem _ known

theorem kindsOf_cons_self (s : Symbol) (kind : DeclarationKind) :
    kind ∈ kindsOf { t with declared := (s, kind) :: t.declared } s := by
  simp [kindsOf]

theorem IsFlat.declare (h : t.IsFlat) (x : String) {kind : DeclarationKind}
    (plain : kind = .varName ∨ kind = .lexical) :
    (t.declare [] x kind).1 = ⟨[], x⟩ ∧ (t.declare [] x kind).2.IsFlat ∧
      ∀ y, (t.declare [] x kind).2.root? y = if y = x then some ⟨[], x⟩ else t.root? y := by
  have existing : t.existing? [] x = t.root? x := by
    rw [existing?_eq, h.reserved]
    exact Option.or_none
  unfold ScopeTable.declare
  rw [existing]
  cases found : t.root? x with
  | some s =>
    obtain rfl := h.root? found
    refine ⟨rfl, ⟨h.reserved, fun b among => ?_⟩, fun y => ?_⟩
    · obtain ⟨scope, symbol, k, known, plain⟩ := h.bindings b among
      exact ⟨scope, symbol, k, mem_kindsOf_cons known, plain⟩
    · by_cases same : y = x
      · rw [if_pos same, same]
        exact found
      · rw [if_neg same]
        rfl
  | none =>
    refine ⟨rfl, ⟨h.reserved, fun b among => ?_⟩, fun y => ?_⟩
    · rcases List.mem_cons.mp among with rfl | old
      · exact ⟨rfl, rfl, kind, kindsOf_cons_self _ _, plain⟩
      · obtain ⟨scope, symbol, k, known, plain⟩ := h.bindings b old
        exact ⟨scope, symbol, k, mem_kindsOf_cons known, plain⟩
    · simp only [ScopeTable.root?, binding?_eq, List.find?_cons]
      by_cases same : y = x
      · simp [same]
      · have other : (x == y) = false := by simpa using Ne.symm same
        simp [same, other]

theorem IsFlat.refer (h : t.IsFlat) {c : ScopeContext} (flat : c.IsFlat) (x : String)
    {meaning : Meaning} (value : meaning ≠ .type) : t.refer c x meaning = t.rootReference x := by
  rw [ScopeTable.refer, flat.chain, rootReference]
  have found : t.lookup [[]] x meaning = t.root? x := by
    simp only [ScopeTable.lookup, List.findSome?_cons, List.findSome?_nil]
    cases known : t.root? x with
    | none => rw [show t.binding? [] x = none from known]; rfl
    | some s =>
      obtain ⟨-, -, kind, declared, plain⟩ := h.bindings _ (mem_of_binding? known)
      have serves : (t.kindsOf s).any (·.serves meaning) = true := by
        refine List.any_eq_true.mpr ⟨kind, declared, ?_⟩
        rcases plain with rfl | rfl <;> cases meaning <;> first | rfl | exact absurd rfl value
      rw [show t.binding? [] x = some s from known, Option.filter_some, if_pos serves]
  cases known : t.root? x <;> simp only [found.trans known]

end ScopeTable

theorem ScopeContext.IsFlat.declare {c : ScopeContext} (flat : c.IsFlat) {t : ScopeTable}
    (h : t.IsFlat) (x : String) {kind : DeclarationKind} (declares : c.kind = some kind) :
    (c.declare kind x t).1 = ⟨[], x⟩ ∧ (c.declare kind x t).2.IsFlat ∧
      ∀ y, (c.declare kind x t).2.root? y = if y = x then some ⟨[], x⟩ else t.root? y := by
  have plain := flat.kind kind declares
  obtain ⟨symbol, kept, root⟩ := h.declare x plain
  rcases plain with rfl | rfl
  · simp only [ScopeContext.declare, if_pos, ScopeTable.hoist, flat.passed, flat.varHome,
      List.findSome?_nil, ScopeTable.reserve, List.map_nil, List.nil_append]
    exact ⟨symbol, kept, root⟩
  · rw [ScopeContext.declare, if_neg (by decide), flat.home, flat.alsoIn]
    exact ⟨symbol, kept, root⟩

/-- A form with its name spelled anew, and told what it refers to. -/
def Form.respell (name : String → String) (ref : String → Reference) : Form → Form
  | .ident x _ => .ident (name x) (ref x)
  | .target x _ => .target (name x) (ref x)
  | .mention x _ meaning => .mention (name x) (ref x) meaning
  | .binder x _ => .binder (name x) (some ⟨[], x⟩)
  | f => f

mutual

def Node.respell (name : String → String) (ref : String → Reference) : Node → Node
  | .mk f s ps => .mk (f.respell name ref) s (respellParts name ref ps)

def Node.respellParts (name : String → String) (ref : String → Reference) : List Node → List Node
  | [] => []
  | p :: ps => p.respell name ref :: respellParts name ref ps

end

theorem Node.respellParts_eq_map (name : String → String) (ref : String → Reference)
    (ps : List Node) :
    respellParts name ref ps = ps.map (respell name ref) := by
  induction ps with
  | nil => rfl
  | cons p ps ih => simp [respellParts, ih]

theorem Node.respell_mk (name : String → String) (ref : String → Reference) (f : Form)
    (s : Option Span) (ps : List Node) :
    (mk f s ps).respell name ref = .mk (f.respell name ref) s (ps.map (respell name ref)) := by
  rw [respell, respellParts_eq_map]

theorem Node.isFlat_mk {outer : Bool} {f : Form} {s : Option Span} {ps : List Node}
    (h : (mk f s ps).isFlat outer = true) :
    f.isFlat = true ∧ (f.isBinder = true → outer = true) ∧ areFlat outer f 0 ps = true := by
  simp only [isFlat, Bool.and_eq_true, Bool.or_eq_true, Bool.not_eq_true'] at h
  refine ⟨h.1.1, fun binder => ?_, h.2⟩
  rcases h.1.2 with here | plain
  · exact here
  · rw [binder] at plain
    cases plain

theorem Form.enter_flat {c : ScopeContext} (flat : c.IsFlat) {t : ScopeTable} (h : t.IsFlat)
    {f : Form} (fits : f.isFlat = true) (binds : f.isBinder = true → c.kind.isSome = true)
    (ps : List Node) :
    (f.enter c ps t).2.IsFlat ∧
      (∀ y, (f.enter c ps t).2.root? y = if y ∈ f.declaredNames c.kind.isSome ps then some ⟨[], y⟩
        else t.root? y) ∧
      ∀ t', t'.IsFlat → (f.enter c ps t).1.resolve t' c = f.respell id t'.rootReference := by
  cases f
  case binder x symbol =>
    obtain ⟨kind, declares⟩ := Option.isSome_iff_exists.mp (binds rfl)
    obtain ⟨symbol', kept, root⟩ := flat.declare h x declares
    simp only [enter, declares, declaredNames, Option.isSome_some, if_true,
      List.mem_singleton, symbol']
    refine ⟨kept, fun y => ?_, fun _ _ => rfl⟩
    rw [root]
    by_cases same : y = x
    · rw [if_pos same, if_pos same, same]
    · rw [if_neg same, if_neg same]
  case ident x ref =>
    refine ⟨h, fun y => by simp [enter, declaredNames], fun t' h' => ?_⟩
    simp only [enter, resolve, respell, id, h'.refer flat x
      (flat.meaning ▸ (by decide) : c.meaning ≠ .type)]
  case target x ref =>
    refine ⟨h, fun y => by simp [enter, declaredNames], fun t' h' => ?_⟩
    simp only [enter, resolve, respell, id, h'.refer flat x (by decide : Meaning.value ≠ .type)]
  case mention x ref meaning =>
    obtain ⟨value, other⟩ : meaning ≠ .type ∧ x ≠ "this" := by simpa [isFlat] using fits
    refine ⟨h, fun y => by simp [enter, declaredNames], fun t' h' => ?_⟩
    simp only [enter, resolve, respell, id, h'.refer flat x value, if_neg other]
  all_goals first
    | cases fits; done
    | exact ⟨h, fun y => by simp [enter, declaredNames], fun _ _ => rfl⟩

theorem ScopeContext.part_enter {f : Form} (fits : f.isFlat = true) (c : ScopeContext)
    (scope : ScopeId) (ps : List Node) (t : ScopeTable) (all all' : List Node) (i : Nat) :
    c.part scope (f.enter c ps t).1 all' i = c.part scope f all i := by
  cases f
  case binder x symbol => cases h : c.kind <;> simp [Form.enter, h, part]
  all_goals first | rfl | cases fits

mutual

theorem Node.declare_flat : ∀ (n : Node) (c : ScopeContext) (scope : ScopeId)
    (t : ScopeTable), c.IsFlat → t.IsFlat →
    n.isFlat c.kind.isSome = true →
    ((n.declare c scope).run t).2.IsFlat ∧
      (∀ y, ((n.declare c scope).run t).2.root? y =
        if y ∈ n.declaredNames c.kind.isSome then some ⟨[], y⟩ else t.root? y) ∧
      ∀ t', t'.IsFlat → ((n.declare c scope).run t).1.resolve t' c scope = n.respell id
      t'.rootReference
  | .mk f s ps, c, scope, t, flat, h, fits => by
    obtain ⟨form, binds, parts⟩ := isFlat_mk fits
    obtain ⟨kept, root, spelled⟩ := Form.enter_flat flat h form binds ps
    obtain ⟨kept', root', spelled'⟩ := declareParts_flat ps c scope f ps 0 _ flat kept form parts
    simp only [declare_run]
    refine ⟨kept', fun y => ?_, fun t' h' => ?_⟩
    · rw [root', root, declaredNames]
      by_cases below : y ∈ declaredNamesOfParts c.kind.isSome f 0 ps <;> simp [below]
    · rw [resolve, respell, spelled t' h']
      exact congrArg _ (spelled' t' h' _ (fun j all => ScopeContext.part_enter form c scope ps
        t ps all j) _)

theorem Node.declareParts_flat : ∀ (ps : List Node) (c : ScopeContext) (scope : ScopeId) (f : Form)
    (all : List Node) (i : Nat) (t : ScopeTable), c.IsFlat → t.IsFlat → f.isFlat = true →
      areFlat c.kind.isSome f i ps = true →
    ((declareParts c scope f all i ps).run t).2.IsFlat ∧
      (∀ y, ((declareParts c scope f all i ps).run t).2.root? y =
        if y ∈ declaredNamesOfParts c.kind.isSome f i ps then some ⟨[], y⟩ else t.root? y) ∧
      ∀ t', t'.IsFlat → ∀ f', (∀ j all', c.part scope f' all' j = c.part scope f all j) → ∀ all',
        resolveParts t' c scope f' all' i ((declareParts c scope f all i ps).run t).1 =
          respellParts id t'.rootReference ps
  | [], _, _, _, _, _, _, _, h, _, _ => ⟨h, fun _ => rfl, fun _ _ _ _ _ => rfl⟩
  | p :: ps, c, scope, f, all, i, t, flat, h, form, fits => by
    simp only [areFlat, Bool.and_eq_true] at fits
    have inside := flat.part form scope all i
    rw [← ScopeContext.part_kind scope c f all i] at fits
    obtain ⟨kept, root, spelled⟩ := declare_flat p _ (i :: scope) t inside h fits.1
    obtain ⟨kept', root', spelled'⟩ :=
      declareParts_flat ps c scope f all (i + 1) _ flat kept form fits.2
    simp only [declareParts_cons]
    refine ⟨kept', fun y => ?_, fun t' h' f' same all' => ?_⟩
    · rw [root', root, declaredNamesOfParts, ScopeContext.part_kind]
      by_cases later : y ∈ declaredNamesOfParts c.kind.isSome f (i + 1) ps <;> simp [later]
    · rw [resolveParts, respellParts, same, spelled t' h', spelled' t' h' f' same]

end

theorem Node.areFlat_of_forall {outer inner : Bool} {f : Form}
    (same : ∀ i, f.declaresIn outer i = inner) {ps : List Node}
    (flat : ∀ p ∈ ps, p.isFlat inner = true) (i : Nat) : areFlat outer f i ps = true := by
  induction ps generalizing i with
  | nil => rfl
  | cons p ps ih =>
    rw [areFlat, same, flat p List.mem_cons_self, Bool.true_and]
    exact ih (fun q among => flat q (List.mem_cons_of_mem _ among)) (i + 1)

/-- A module without scopes inside: every name that it declares stands for the symbol of its name,
and every occurrence is told so. -/
theorem Original.flat {s : Original} (flat : ∀ p ∈ s.statements, p.isFlat false = true) :
    s.analysed.scopes.IsFlat ∧
      (∀ y, s.analysed.scopes.root? y =
        if y ∈ s.statements.flatMap (Node.declaredNames false) then some ⟨[], y⟩ else none) ∧
      s.analysed.program = .mk s.form s.span
        (s.statements.map (Node.respell id s.analysed.scopes.rootReference)) := by
  have fits : s.program.isFlat false = true := by
    rw [program, Node.isFlat, Node.areFlat_of_forall (fun _ => rfl) flat]
    rfl
  obtain ⟨kept, root, spelled⟩ := Node.declare_flat _
    (.program (s.isStrict || s.directives.any (·.raw == "use strict"))) [] .empty
    (ScopeContext.program_isFlat _) ScopeTable.empty_isFlat fits
  refine ⟨kept, fun y => ?_, (spelled _ kept).trans ?_⟩
  · rw [← Node.declaredNamesOfParts_program s.hashbang s.directives 0]
    exact root y
  · rw [program, Node.respell, Node.respellParts_eq_map]
    rfl

end ModuleLowering
