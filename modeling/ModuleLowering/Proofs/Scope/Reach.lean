import ModuleLowering.Proofs.Scope.Resolution

/-!
How far the declarations in a tree reach. A tree says by itself which of the names that it declares
belong to the program's own scope. That scope holds no others, and the scopes inside a statement
hold names that the statement declares.
-/

set_option autoImplicit false

namespace ModuleLowering

/-- Which declarations at a place in a program belong to the program's own scope. -/
structure Reach where
  vars : Bool
  others : Bool
  /-- Whether the next names are declared by `var`; nothing where names are not declared at all. -/
  isVar? : Option Bool

namespace Reach

def top : Reach := ⟨true, true, none⟩

def block (o : Reach) : Reach := { o with others := false }

def closed (o : Reach) : Reach := { o with vars := false, others := false }

def declaring (o : Reach) (isVar : Bool) : Reach := { o with isVar? := some isVar }

end Reach

def Form.reach (f : Form) (o : Reach) (i : Nat) : Reach :=
  match f with
  | .function t =>
    if i = 0 then (if t.role == .expression then o.closed else o).declaring false
    else if i = 4 then o.closed else o.closed.declaring false
  | .arrow .. => if i = 3 then o.closed else o.closed.declaring false
  | .classDef t =>
    if i = 0 then (if t.isExpression then o.block else o).declaring false
    else if i ≤ 5 then o.block else o
  | .block | .forStmt | .forIn | .forOf _ => o.block
  | .switchStmt => if i = 0 then o else o.block
  | .staticBlock | .globalDecl _ => o.closed
  | .catchClause => if i = 0 then o.block.declaring false else o.block
  | .varDecl kind _ => o.declaring (kind == .functionScoped)
  | .importDecl .. | .importEquals | .typeParameter _ => o.declaring false
  | .importNamed isType => if isType then o.declaring false else o
  | .interface | .typeAlias _ | .enumDecl .. => if i = 0 then o.declaring false else o.block
  | .namespaceDecl .. => if i = 0 then o.declaring false else o.closed
  | .functionType | .constructorType _ | .methodSignature .. | .callSignature _ =>
    { o.block with isVar? := none }
  | .mappedType .. => o.block.declaring false
  | .conditionalType => if i = 1 || i = 2 then o.block else o
  | _ => o

namespace ScopeContext

/-- What the surroundings `c` of a place in the `i`-th statement of a program have to do with its
reach. -/
structure Reaches (i : Nat) (o : Reach) (c : ScopeContext) : Prop where
  chain : ∀ s ∈ c.chain, s = [] ∨ [i] <:+ s
  vars : c.varHome = [] ∧ o.vars = true ∨ [i] <:+ c.varHome
  others : c.home = [] ∧ o.others = true ∨ [i] <:+ c.home
  conditional : ∀ s, c.conditional = some s → [i] <:+ s
  isVar? : o.isVar? = c.kind.map (· == .varName)

namespace Reaches

variable {i : Nat} {o : Reach} {c : ScopeContext} {scope : ScopeId}

theorem program (i : Nat) (isStrict : Bool) : Reaches i .top (.program isStrict) where
  chain s among := .inl (List.mem_singleton.mp among)
  vars := .inl ⟨rfl, rfl⟩
  others := .inl ⟨rfl, rfl⟩
  conditional s none := by cases none
  isVar? := rfl

theorem strict (h : Reaches i o c) (isStrict : Bool) : Reaches i o { c with isStrict } :=
  ⟨h.chain, h.vars, h.others, h.conditional, h.isVar?⟩

theorem declaring (h : Reaches i o c) {kind : DeclarationKind} {isVar : Bool}
    (same : isVar = (kind == .varName)) :
    Reaches i (o.declaring isVar) (c.declaring kind) :=
  ⟨h.chain, h.vars, h.others, h.conditional, by rw [same]; rfl⟩

theorem chain_cons (h : Reaches i o c) (inside : [i] <:+ scope) : ∀ s ∈ scope :: c.chain, s = [] ∨
    [i] <:+ s := by
  intro s among
  rcases List.mem_cons.mp among with rfl | outer
  · exact .inr inside
  · exact h.chain s outer

theorem block (h : Reaches i o c) (inside : [i] <:+ scope) : Reaches i o.block (c.block scope) :=
  ⟨h.chain_cons inside, h.vars, .inr inside, h.conditional, h.isVar?⟩

theorem closed (h : Reaches i o c) (inside : [i] <:+ scope) : Reaches i o.closed (c.closed scope) :=
  ⟨h.chain_cons inside, .inr inside, .inr inside, h.conditional, h.isVar?⟩

theorem functionPart (h : Reaches i o c) (inside : [i] <:+ scope) (bodyIndex : Nat)
    (isUnique : Bool) (j : Nat) :
    Reaches i (if j = bodyIndex then o.closed else o.closed.declaring false)
      (c.functionPart scope bodyIndex isUnique j) := by
  have inner := h.closed inside
  unfold ScopeContext.functionPart
  by_cases body : j = bodyIndex
  · simp only [body, if_true]
    exact inner.closed (inside.trans (List.suffix_cons _ _))
  · simp only [body, if_false]
    refine ⟨inner.chain, inner.vars, inner.others, inner.conditional, ?_⟩
    cases isUnique <;> rfl

theorem part (h : Reaches i o c) (inside : [i] <:+ scope) (f : Form) (ps : List Node) (j : Nat) :
    Reaches i (f.reach o j) (c.part scope f ps j) := by
  have block := h.block inside
  have closed := h.closed inside
  cases f
  case function t =>
    -- The name of a function expression is kept in a scope of its own.
    have named : ∀ isStrict, Reaches i o.closed (ScopeContext.closed { c with isStrict }
      (0 :: scope)) :=
      fun isStrict => (h.strict isStrict).closed (inside.trans (List.suffix_cons _ _))
    simp only [ScopeContext.part, Form.reach]
    by_cases expression : (t.role == .expression) = true
    · simp only [expression, if_true]
      split
      · exact (named _).declaring rfl
      · exact (named _).functionPart inside 4 _ j
    · simp only [expression, if_false, Bool.false_eq_true]
      split
      · exact (h.strict _).declaring rfl
      · exact (h.strict _).functionPart inside 4 _ j
  case arrow => exact (h.strict _).functionPart inside 3 _ j
  case classDef t =>
    have inner : Reaches i o.block { c.block scope with isStrict := true } := block.strict true
    simp only [ScopeContext.part, Form.reach]
    split
    · cases t.isExpression with
      | true => exact inner.declaring rfl
      | false => exact h.declaring rfl
    · split
      · exact inner
      · exact h
  case catchClause =>
    -- What is caught is declared in the block.
    have caught (kind : DeclarationKind) (other : (kind == .varName) = false) :
        Reaches i (o.block.declaring false)
          { c.block scope with home := 2 :: scope, kind := some kind } :=
      ⟨block.chain, block.vars, .inr (inside.trans (List.suffix_cons _ _)), block.conditional, by
        rw [Option.map_some, other]; rfl⟩
    simp only [ScopeContext.part, Form.reach]
    split
    · exact caught _ (by split <;> rfl)
    · exact block
  case inferType =>
    refine ⟨h.chain, h.vars, ?_, h.conditional, h.isVar?⟩
    simp only [ScopeContext.part]
    cases around : c.conditional with
    | none => exact h.others
    | some s => exact .inr (h.conditional s around)
  case conditionalType =>
    simp only [ScopeContext.part, Form.reach]
    split
    · exact ⟨block.chain, block.vars, block.others, fun s same => Option.some.inj same ▸
        inside, block.isVar?⟩
    · exact h
  case varDecl kind isDeclared => exact h.declaring (by cases kind <;> rfl)
  case importDecl isType _ _ => exact h.declaring (by cases isType <;> rfl)
  case importNamed isType =>
    cases isType with
    | true => exact h.declaring rfl
    | false => exact h
  case heritage => exact ⟨h.chain, h.vars, h.others, h.conditional, h.isVar?⟩
  case enumDecl isConst _ =>
    simp only [ScopeContext.part, Form.reach]
    split
    · exact h.declaring (by cases isConst <;> rfl)
    · exact block
  case namespaceDecl =>
    simp only [ScopeContext.part, Form.reach]
    split
    · exact h.declaring (by split <;> rfl)
    · exact closed
  case switchStmt | interface | typeAlias =>
    simp only [ScopeContext.part, Form.reach]
    split
    · first | exact h | exact h.declaring rfl
    · exact block
  case functionType | constructorType | methodSignature | callSignature =>
    exact ⟨block.chain, block.vars, block.others, block.conditional, rfl⟩
  case importEquals | typeParameter => exact h.declaring rfl
  case mappedType => exact block.declaring rfl
  case block | forStmt | forIn | forOf => exact block
  case staticBlock | globalDecl => exact closed
  all_goals exact h

end Reaches

end ScopeContext

structure Declaration where
  name : String
  symbol : Option Symbol
  isTop : Bool
  deriving DecidableEq, Repr

def Form.declarations (f : Form) (o : Reach) (ps : List Node) : List Declaration :=
  match f with
  | .binder x symbol => match o.isVar? with
    | some isVar => [⟨x, symbol, if isVar then o.vars else o.others⟩]
    | none => []
  | .enumMember _ => [⟨(ps.head?.map Node.nameText).getD "", none, o.others⟩]
  | _ => []

mutual

def Node.declarations (o : Reach) : Node → List Declaration
  | .mk f _ ps => f.declarations o ps ++ declarationsOfParts o f 0 ps

def Node.declarationsOfParts (o : Reach) (f : Form) (i : Nat) : List Node → List Declaration
  | [] => []
  | p :: ps => p.declarations (f.reach o i) ++ declarationsOfParts o f (i + 1) ps

end

theorem Node.exists_getElem?_cons {P : Nat → Node → Prop} {i : Nat} {p : Node} {ps : List Node} :
    (∃ j q, (p :: ps)[j]? = some q ∧ P (i + j) q) ↔ P i p ∨ ∃ j q, ps[j]? = some q ∧
      P (i + 1 + j) q := by
  constructor
  · rintro ⟨j, q, found, below⟩
    cases j with
    | zero => exact .inl (Option.some.inj found ▸ below)
    | succ j => exact .inr ⟨j, q, found, by rwa [Nat.add_assoc, Nat.add_comm 1]⟩
  · rintro (here | ⟨j, q, found, below⟩)
    · exact ⟨0, p, rfl, here⟩
    · exact ⟨j + 1, q, found, by rwa [Nat.add_assoc, Nat.add_comm 1] at below⟩

theorem Node.mem_declarationsOfParts {o : Reach} {f : Form} {d : Declaration}
    {ps : List Node} (i : Nat) :
    d ∈ declarationsOfParts o f i ps ↔ ∃ (j : Nat) (p : Node), ps[j]? = some p ∧
      d ∈ p.declarations (f.reach o (i + j)) := by
  induction ps generalizing i with
  | nil => simp [declarationsOfParts]
  | cons p ps ih =>
    rw [declarationsOfParts, List.mem_append, ih, exists_getElem?_cons
      (P := fun j q => d ∈ q.declarations (f.reach o j))]

theorem Node.mem_declarations {o : Reach} {f : Form} {s : Option Span} {ps : List Node}
    {d : Declaration} :
    d ∈ (mk f s ps).declarations o ↔
      d ∈ f.declarations o ps ∨ ∃ (j : Nat) (p : Node), ps[j]? = some p ∧
      d ∈ p.declarations (f.reach o j) := by
  rw [declarations, List.mem_append, mem_declarationsOfParts]
  simp only [Nat.zero_add]

theorem Form.isSome_reach (f : Form) (o : Reach) (i : Nat) :
    (f.reach o i).isVar?.isSome = f.declaresIn o.isVar?.isSome i := by
  cases f
  case function t =>
    simp only [reach, declaresIn]
    by_cases name : i = 0
    · simp [name, Reach.declaring]
    · by_cases body : i = 4 <;> simp [body, name, Reach.declaring, Reach.closed]
  case classDef t =>
    simp only [reach, declaresIn]
    by_cases name : i = 0
    · simp [name, Reach.declaring]
    · simp only [name, if_false]
      split <;> simp [name, Reach.block]
  case arrow | catchClause | switchStmt | interface | typeAlias | enumDecl | namespaceDecl
    | importNamed | conditionalType =>
    simp only [reach, declaresIn]
    split <;> simp_all [Reach.declaring, Reach.closed, Reach.block]
  all_goals rfl

mutual

theorem Node.name_declarations : ∀ (n : Node) (o : Reach),
    (n.declarations o).map Declaration.name = n.declaredNames o.isVar?.isSome
  | .mk f s ps, o => by
    rw [declarations, declaredNames, List.map_append, name_declarationsOfParts ps]
    cases f
    case binder => cases h : o.isVar? <;> simp [Form.declarations, Form.declaredNames, h]
    all_goals rfl

theorem Node.name_declarationsOfParts : ∀ (ps : List Node) (o : Reach) (f : Form) (i : Nat),
    (declarationsOfParts o f i ps).map Declaration.name = declaredNamesOfParts
    o.isVar?.isSome f i ps
  | [], _, _, _ => rfl
  | p :: ps, o, f, i => by
    rw [declarationsOfParts, declaredNamesOfParts, List.map_append, name_declarations p,
      Form.isSome_reach, name_declarationsOfParts ps]

end

theorem Node.exists_declarations (outer : Bool) :
    ∃ o : Reach, ∀ n : Node, (n.declarations o).map Declaration.name = n.declaredNames outer := by
  cases outer with
  | false => exact ⟨.top, fun n => n.name_declarations .top⟩
  | true => exact ⟨Reach.top.declaring false, fun n => n.name_declarations _⟩

theorem Node.mem_declaredNames_iff {n : Node} {x : String} :
    x ∈ n.declaredNames false ↔ ∃ d ∈ n.declarations .top, d.name = x := by
  have names := n.name_declarations .top
  rw [show Reach.top.isVar?.isSome = false from rfl] at names
  rw [← names, List.mem_map]

theorem ScopeContext.declare_bindings {c : ScopeContext} {kind : DeclarationKind} {x : String}
    {t : ScopeTable} {b : Binding} (among : b ∈ (c.declare kind x t).2.bindings) :
    b ∈ t.bindings ∨ b.name = x ∧ b.scope = if kind = .varName then c.varHome else c.home := by
  have declare (home : ScopeId) (kind : DeclarationKind)
    (among : b ∈ (t.declare home x kind).2.bindings) :
      b ∈ t.bindings ∨ b.name = x ∧ b.scope = home := by
    unfold ScopeTable.declare at among
    split at among
    · exact .inl among
    · rcases List.mem_cons.mp among with rfl | old
      · exact .inr ⟨rfl, rfl⟩
      · exact .inl old
  unfold ScopeContext.declare at among
  split at among
  · next isVar =>
    rw [if_pos isVar]
    unfold ScopeTable.hoist at among
    -- A `var` is declared at its home, or it takes what it meets on the way there.
    cases met : c.passed.findSome? fun scope => (t.existing? scope x).map fun s => (scope, s) with
    | none =>
      rw [met] at among
      exact declare c.varHome .varName among
    | some found =>
      rw [met] at among
      dsimp only [ScopeTable.reserve] at among
      split at among
      · exact .inl among
      · rcases List.mem_cons.mp among with rfl | old
        · exact .inr ⟨rfl, rfl⟩
        · exact .inl (List.mem_of_mem_filter old)
  · next notVar =>
    rw [if_neg notVar]
    exact declare c.home kind among

/-- The binding `b` comes from one of the declarations of the `i`-th statement of a program. -/
def Binding.ComesFrom (i : Nat) (ds : List Declaration) (b : Binding) : Prop :=
  ∃ d ∈ ds, d.name = b.name ∧ (b.scope = [] ∧ d.isTop = true ∨ [i] <:+ b.scope)

theorem Binding.ComesFrom.mono {i : Nat} {ds ds' : List Declaration} {b : Binding}
    (h : b.ComesFrom i ds) (sub : ds ⊆ ds') :
    b.ComesFrom i ds' := by
  obtain ⟨d, among, rest⟩ := h
  exact ⟨d, sub among, rest⟩

section
variable {i : Nat} {o : Reach} {c : ScopeContext} {b : Binding}

theorem Form.enter_bindings (h : c.Reaches i o) {f : Form} {ps : List Node} {t : ScopeTable}
    (among : b ∈ (f.enter c ps t).2.bindings) : b ∈ t.bindings ∨ b.ComesFrom i
    (f.declarations o ps) := by
  cases f
  case binder x symbol =>
    have isVar := h.isVar?
    cases declares : c.kind with
    | none =>
      simp only [enter, declares] at among
      exact .inl among
    | some kind =>
      rw [declares, Option.map_some] at isVar
      simp only [enter, declares] at among
      rcases ScopeContext.declare_bindings among with old | ⟨name, scope⟩
      · exact .inl old
      · refine .inr ⟨⟨x, symbol, if kind == .varName then o.vars else o.others⟩, ?_, name.symm, ?_⟩
        · simp [declarations, isVar]
        · rw [scope]
          by_cases var : kind = .varName
          · simp only [var, if_true, beq_self_eq_true]
            exact h.vars
          · simp only [var, if_false, beq_eq_false_iff_ne.mpr var, Bool.false_eq_true]
            exact h.others
  case enumMember isComputed =>
    rcases ScopeContext.declare_bindings among with old | ⟨name, scope⟩
    · exact .inl old
    · rw [if_neg (by decide)] at scope
      exact .inr ⟨_, List.mem_singleton_self _, name.symm, scope ▸ h.others⟩
  all_goals exact .inl among

mutual

theorem Node.declare_bindings : ∀ (n : Node) (o : Reach) (c : ScopeContext) (scope : ScopeId)
    (t : ScopeTable), c.Reaches i o → [i] <:+ scope → b ∈ ((n.declare c scope).run t).2.bindings →
    b ∈ t.bindings ∨ b.ComesFrom i (n.declarations o)
  | .mk f s ps, o, c, scope, t, h, inside, among => by
    rw [declare_run] at among
    rw [declarations]
    rcases declareParts_bindings ps o c scope f ps 0 _ h inside among with before | below
    · exact (Form.enter_bindings h before).imp_right fun here =>
        here.mono (List.subset_append_left _ _)
    · exact .inr (below.mono (List.subset_append_right _ _))

theorem Node.declareParts_bindings : ∀ (ps : List Node) (o : Reach) (c : ScopeContext)
    (scope : ScopeId) (f : Form) (all : List Node) (j : Nat) (t : ScopeTable), c.Reaches i o →
      [i] <:+ scope →
    b ∈ ((declareParts c scope f all j ps).run t).2.bindings →
    b ∈ t.bindings ∨ b.ComesFrom i (declarationsOfParts o f j ps)
  | [], _, _, _, _, _, _, _, _, _, among => .inl among
  | p :: ps, o, c, scope, f, all, j, t, h, inside, among => by
    rw [declareParts_cons] at among
    rw [declarationsOfParts]
    rcases declareParts_bindings ps o c scope f all (j + 1) _ h inside among with before | later
    · rcases declare_bindings p (f.reach o j) _ (j :: scope) t (h.part inside f all j)
        (inside.trans (List.suffix_cons _ _)) before with old | here
      · exact .inl old
      · exact .inr (here.mono (List.subset_append_left _ _))
    · exact .inr (later.mono (List.subset_append_right _ _))

end

end

/-- Every binding of a program comes from a declaration of one of its statements. -/
theorem Original.exists_declaration {s : Original} {b : Binding}
    (among : b ∈ s.analysed.scopes.bindings) :
    ∃ (i : Nat) (p : Node), s.statements[i]? = some p ∧ b.ComesFrom i (p.declarations .top) := by
  obtain ⟨strictHere, eq⟩ := s.exists_analysed
  -- The statements from the `j`-th on are entered into the table that the others left.
  have statements (all rest : List Node) (j : Nat) (t : ScopeTable)
      (among : b ∈ ((Node.declareParts (.program strictHere) [] s.form all j rest).run
        t).2.bindings) :
      b ∈ t.bindings ∨ ∃ (i : Nat) (p : Node), rest[i]? = some p ∧
        b.ComesFrom (j + i) (p.declarations .top) := by
    induction rest generalizing j t with
    | nil => exact .inl among
    | cons p rest ih =>
      rw [Node.declareParts_cons] at among
      rcases ih (j + 1) _ among with before | ⟨i, q, found, later⟩
      · rcases Node.declare_bindings p .top _ [j] t (.program j strictHere) List.suffix_rfl before
          with old | here
        · exact .inl old
        · exact .inr ⟨0, p, rfl, here⟩
      · exact .inr ⟨i + 1, q, found, by rwa [Nat.add_assoc, Nat.add_comm 1] at later⟩
  rw [eq] at among
  rcases statements _ s.statements 0 .empty among with none | ⟨i, p, found, here⟩
  · cases none
  · exact ⟨i, p, found, by rwa [Nat.zero_add] at here⟩

end ModuleLowering
