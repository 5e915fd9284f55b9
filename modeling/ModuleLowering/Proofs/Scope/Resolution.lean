import ModuleLowering.Proofs.Scope.Declaration

/-!
What the analysis of a whole program finds. A name that one statement of the program declares, and
nothing else anywhere, is found from everywhere in it.
-/

set_option autoImplicit false

namespace ModuleLowering

namespace ScopeContext

theorem program_inner (isStrict : Bool) : (program isStrict).Inner := by
  simp [Inner, program]

theorem part_meaning (scope : ScopeId) (c : ScopeContext) (f : Form) (ps : List Node) (i : Nat)
    (plain : f ≠ .heritage) : (c.part scope f ps i).meaning = c.meaning := by
  unfold part functionPart
  split
  all_goals try exact absurd rfl plain
  all_goals simp only [declaring, block, closed]
  all_goals try (repeat' split) <;> rfl

end ScopeContext

namespace ScopeTable

theorem empty_named : empty.Named := by simp [Named, empty]

theorem empty_rootOpen : empty.RootOpen := by simp [RootOpen, empty]

def DeclaresOnce (t : ScopeTable) (kind : DeclarationKind) (x : String) : Prop :=
  t.about x = ([⟨[], x, ⟨[], x⟩⟩], [], [(⟨[], x⟩, kind)])

theorem binding?_of_about {t : ScopeTable} {x : String} (scope : ScopeId) :
    t.binding? scope x = ((t.about x).1.find? fun b => b.scope == scope).map Binding.symbol := by
  rw [binding?_eq, about, List.find?_filter]
  congr 2
  funext b
  rw [Bool.eq_iff_iff]
  simp only [Bool.and_eq_true, beq_iff_eq, decide_eq_true_eq, and_comm]

theorem existing?_of_about {t : ScopeTable} {x : String} (absent : t.about x = ([], [], []))
    (scope : ScopeId) :
    t.existing? scope x = none := by
  have reserved : t.reserved.filter (·.name = x) = [] := congrArg (fun a => a.2.1) absent
  rw [existing?_eq, binding?_of_about, absent, Option.or_eq_none_iff]
  refine ⟨rfl, Option.map_eq_none_iff.mpr (List.find?_eq_none.mpr fun b among found => ?_)⟩
  have kept : b ∈ t.reserved.filter (·.name = x) := by
    simp only [List.mem_filter, decide_eq_true_eq]
    simp only [Bool.and_eq_true, beq_iff_eq] at found
    exact ⟨among, found.2⟩
  rw [reserved] at kept
  cases kept

namespace DeclaresOnce

variable {t : ScopeTable} {kind : DeclarationKind} {x : String}

theorem binding? (h : t.DeclaresOnce kind x) (scope : ScopeId) :
    t.binding? scope x = if scope = [] then some ⟨[], x⟩ else none := by
  rw [binding?_of_about, h]
  by_cases root : scope = []
  · simp [root]
  · simp [root]

theorem kindsOf (h : t.DeclaresOnce kind x) : t.kindsOf ⟨[], x⟩ = [kind] := by
  have declared : t.declared.filter (·.1.name = x) = [(⟨[], x⟩, kind)] :=
    congrArg (fun a => a.2.2) h
  have narrowed : t.kindsOf ⟨[], x⟩ = (t.declared.filter (·.1.name = x)).filterMap fun d =>
      if d.1 = ⟨[], x⟩ then some d.2 else none := by
    rw [List.filterMap_filter, ScopeTable.kindsOf]
    refine List.filterMap_congr fun d _ => ?_
    by_cases same : d.1 = ⟨[], x⟩ <;> simp [same]
  rw [narrowed, declared]
  simp

theorem lookup (h : t.DeclaresOnce kind x) (serves : kind.serves .value = true)
    {chain : List ScopeId} (root : [] ∈ chain) : t.lookup chain x .value = some ⟨[], x⟩ := by
  have step (scope : ScopeId) :
      ((t.binding? scope x).filter fun s => (t.kindsOf s).any (·.serves .value)) =
      if scope = [] then some ⟨[], x⟩ else none := by
    rw [h.binding?]
    split
    · simp [h.kindsOf, serves]
    · rfl
  simp only [ScopeTable.lookup, step]
  induction chain with
  | nil => cases root
  | cons scope chain ih =>
    by_cases here : scope = []
    · simp [here]
    · have later : [] ∈ chain := (List.mem_cons.mp root).resolve_left (Ne.symm here)
      simp [here, ih later]

end DeclaresOnce

end ScopeTable

theorem ScopeContext.declare_once {c : ScopeContext} {t : ScopeTable} {kind : DeclarationKind}
    {x : String} (home : c.home = []) (varHome : c.varHome = []) (passed : c.passed = [])
    (alsoIn : c.alsoIn = []) (absent : t.about x = ([], [], [])) :
    (c.declare kind x t).2.DeclaresOnce kind x := by
  have new : t.declare [] x kind = (⟨[], x⟩, { t with
      bindings := ⟨[], x, ⟨[], x⟩⟩ :: t.bindings
      declared := (⟨[], x⟩, kind) :: t.declared }) := by
    rw [ScopeTable.declare, ScopeTable.existing?_of_about absent]
  simp only [ScopeTable.about, Prod.mk.injEq] at absent
  have entered : (c.declare kind x t).2 = (t.declare [] x kind).2.reserve [] x ⟨[], x⟩ := by
    rw [ScopeContext.declare, home, varHome, passed, alsoIn]
    split
    · next isVar => subst isVar; rw [ScopeTable.hoist, List.findSome?_nil, new]
    · rw [new]
  rw [ScopeTable.DeclaresOnce, entered, new]
  simp [ScopeTable.about, ScopeTable.reserve, absent.1, absent.2.1, absent.2.2]

def Form.referenceTo? (x : String) : Form → Option Reference
  | .ident y ref | .target y ref | .tagRef y ref => if y = x then some ref else none
  | _ => none

mutual

/-- What the occurrences of a name as a value refer to. What an interface extends are types. -/
def Node.referencesTo (x : String) : Node → List Reference
  | .mk f _ ps => if f = .heritage then [] else (f.referenceTo? x).toList ++ referencesInParts x ps

def Node.referencesInParts (x : String) : List Node → List Reference
  | [] => []
  | p :: ps => p.referencesTo x ++ referencesInParts x ps

end

theorem Form.referenceTo?_resolve {t : ScopeTable} {c : ScopeContext} {f : Form} {x : String}
    {ref : Reference} (value : c.meaning = .value) (h : (f.resolve t c).referenceTo? x = some ref) :
    ref = t.refer c x .value := by
  cases f
  case ident y _ | target y _ | tagRef y _ =>
    simp only [resolve, referenceTo?, Option.ite_none_right_eq_some, Option.some.injEq] at h
    obtain ⟨rfl, rfl⟩ := h
    first | rfl | rw [value]
  all_goals cases h

theorem Form.resolve_eq_heritage (t : ScopeTable) (c : ScopeContext) (f : Form) :
    f.resolve t c = .heritage ↔ f = .heritage := by
  cases f <;> simp [resolve]

section
variable {t : ScopeTable} {x : String} {s : Symbol}

mutual

theorem Node.referencesTo_resolve (found : ∀ chain, [] ∈ chain → t.lookup chain x .value = some s) :
    ∀ (n : Node) (c : ScopeContext) (scope : ScopeId), [] ∈ c.chain → c.meaning = .value →
    ∀ ref ∈ (n.resolve t c scope).referencesTo x, ref = .symbol s
  | .mk f span ps, c, scope, root, value, ref, among => by
    simp only [resolve, referencesTo, Form.resolve_eq_heritage] at among
    split at among
    · cases among
    · next plain =>
      rcases List.mem_append.mp among with here | below
      · have same := Form.referenceTo?_resolve value (Option.mem_toList.mp here)
        rw [same, ScopeTable.refer, found c.chain root]
      · exact referencesInParts_resolve found ps c scope f ps 0 root value plain ref below

theorem Node.referencesInParts_resolve
    (found : ∀ chain, [] ∈ chain → t.lookup chain x .value = some s) :
    ∀ (ps : List Node) (c : ScopeContext) (scope : ScopeId) (f : Form) (all : List Node) (i : Nat),
    [] ∈ c.chain → c.meaning = .value → f ≠ .heritage →
    ∀ ref ∈ referencesInParts x (resolveParts t c scope f all i ps), ref = .symbol s
  | [], _, _, _, _, _, _, _, _, _, among => by cases among
  | p :: ps, c, scope, f, all, i, root, value, plain, ref, among => by
    simp only [resolveParts, referencesInParts] at among
    rcases List.mem_append.mp among with here | later
    · have around : [] ∈ (c.part scope f all i).chain :=
        (ScopeContext.Within.part scope c f all i).chain.subset root
      have meaning := (ScopeContext.part_meaning scope c f all i plain).trans value
      exact referencesTo_resolve found p _ (i :: scope) around meaning ref here
    · exact referencesInParts_resolve found ps c scope f all (i + 1) root value plain ref later

end

end

theorem Node.declaredNamesOfParts_program (hashbang : Option String) (ds : List Directive) (i : Nat)
    (ps : List Node) :
    declaredNamesOfParts false (.program hashbang ds) i ps = ps.flatMap (declaredNames false) := by
  induction ps generalizing i with
  | nil => rfl
  | cons p ps ih => simp only [declaredNamesOfParts, ih, List.flatMap_cons]; rfl

theorem Node.declareParts_append (c : ScopeContext) (scope : ScopeId) (f : Form)
    (all ps qs : List Node) (i : Nat) (t : ScopeTable) :
    let first := (declareParts c scope f all i ps).run t
    ((declareParts c scope f all i (ps ++ qs)).run t).2 =
      ((declareParts c scope f all (i + ps.length) qs).run first.2).2 := by
  induction ps generalizing i t with
  | nil => rfl
  | cons p ps ih =>
    simp only [List.cons_append, declareParts_cons, ih, List.length_cons]
    rw [Nat.add_assoc, Nat.add_comm 1]

/-- A program as it is read, before its names are looked up. -/
structure Original where
  isStrict : Bool
  hashbang : Option String
  directives : List Directive
  span : Option Span
  statements : List Node

namespace Original

variable (s : Original)

def form : Form := .program s.hashbang s.directives

def program : Node := .mk s.form s.span s.statements

def analysed : Module := .analyse s.isStrict s.program

theorem exists_analysed :
    ∃ strictHere,
      let c := ScopeContext.program strictHere
      let entered := (Node.declareParts c [] s.form s.statements 0 s.statements).run .empty
      s.analysed = ⟨.mk s.form s.span (Node.resolveParts entered.2 c [] s.form entered.1 0
        entered.1), entered.2⟩ := ⟨_, rfl⟩

theorem analysed_enters : ScopeTable.Run (s.statements.flatMap (Node.declaredNames false)) .empty
    s.analysed.scopes := by
  obtain ⟨strictHere, eq⟩ := s.exists_analysed
  rw [eq, ← Node.declaredNamesOfParts_program s.hashbang s.directives 0]
  exact Node.declareParts_enters _ (.program strictHere) [] _ _ 0 .empty fun _ =>
    ScopeContext.program_inner strictHere

end Original

/-- As a statement of a program, the node declares `x` as `kind` before anything else, and only
once. -/
def Node.Introduces (kind : DeclarationKind) (x : String) (d : Node) : Prop :=
  ∀ (isStrict : Bool) (scope : ScopeId) (t : ScopeTable), scope ≠ [] →
    ∃ (c : ScopeContext) (rest : List String), (c.home = [] ∧ c.varHome = [] ∧ c.passed = [] ∧
      c.alsoIn = []) ∧ x ∉ rest ∧
    ScopeTable.Run rest (c.declare kind x t).2 ((d.declare (.program isStrict) scope).run t).2

theorem Original.declaresOnce {s : Original} {kind : DeclarationKind} {x : String} {d : Node}
    (introduces : d.Introduces kind x) {before after : List Node}
    (split : s.statements = before ++ d :: after)
    (absentBefore : x ∉ before.flatMap (Node.declaredNames false))
    (absentAfter : x ∉ after.flatMap (Node.declaredNames false)) :
    s.analysed.scopes.DeclaresOnce kind x := by
  obtain ⟨strictHere, eq⟩ := s.exists_analysed
  rw [eq, split, Node.declareParts_append]
  generalize before ++ d :: after = all
  have inner (i : Nat) : ((ScopeContext.program strictHere).part [] s.form all i).Inner :=
    ScopeContext.program_inner strictHere
  rw [← Node.declaredNamesOfParts_program s.hashbang s.directives 0] at absentBefore
  rw [← Node.declaredNamesOfParts_program s.hashbang s.directives (0 + before.length + 1)]
    at absentAfter
  have early := Node.declareParts_enters before _ _ _ all 0 .empty inner
  have named := early.keeps_named ScopeTable.empty_named
  have fresh := early.about ScopeTable.empty_named absentBefore
  generalize ((Node.declareParts (.program strictHere) [] s.form all 0 before).run .empty).2 =
    t₀ at *
  obtain ⟨c, rest, ⟨home, varHome, passed, alsoIn⟩, unused, run⟩ :=
    introduces strictHere [0 + before.length] t₀ (by simp)
  have once : (c.declare kind x t₀).2.DeclaresOnce kind x :=
    ScopeContext.declare_once home varHome passed alsoIn fresh
  have named₁ := (c.declare_entered kind x t₀).keeps_named named
  have late := Node.declareParts_enters after _ _ _ all (0 + before.length + 1)
    ((d.declare (.program strictHere) [0 + before.length]).run t₀).2 inner
  rw [ScopeTable.DeclaresOnce] at once ⊢
  rw [← once, ← run.about named₁ unused]
  exact late.about (run.keeps_named named₁) absentAfter

end ModuleLowering
