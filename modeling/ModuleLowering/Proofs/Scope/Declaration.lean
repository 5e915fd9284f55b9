import ModuleLowering.Proofs.Scope.Context
import ModuleLowering.Proofs.Scope.Table
import ModuleLowering.Proofs.Tree

/-!
Entering the declarations of a tree. A tree says by itself which names it declares; those come into
the table, every other name is left alone, and the tree changes in nothing but what its names refer
to.
-/

set_option autoImplicit false

namespace ModuleLowering

def Form.enter (c : ScopeContext) (ps : List Node) (f : Form) (t : ScopeTable) :
    Form × ScopeTable :=
  match f with
  | .binder x symbol => match c.kind with
    | some kind => (.binder x (some (c.declare kind x t).1), (c.declare kind x t).2)
    | none => (.binder x symbol, t)
  | .enumMember isComputed =>
    (.enumMember isComputed, (c.declare .enumMember ((ps.head?.map Node.nameText).getD "") t).2)
  | f => (f, t)

theorem Node.declare_run (c : ScopeContext) (scope : ScopeId) (f : Form) (s : Option Span)
    (ps : List Node) (t : ScopeTable) :
    ((mk f s ps).declare c scope).run t =
      (.mk (f.enter c ps t).1 s ((declareParts c scope f ps 0 ps).run (f.enter c ps t).2).1,
        ((declareParts c scope f ps 0 ps).run (f.enter c ps t).2).2) := by
  cases f with
  | binder x symbol => cases h : c.kind <;> simp [Node.declare, Form.enter, h] <;> rfl
  | _ => rfl

theorem Node.declareParts_cons (c : ScopeContext) (scope : ScopeId) (f : Form) (all : List Node)
    (i : Nat) (p : Node) (ps : List Node) (t : ScopeTable) :
    let first := (p.declare (c.part scope f all i) (i :: scope)).run t
    let rest := (declareParts c scope f all (i + 1) ps).run first.2
    (declareParts c scope f all i (p :: ps)).run t = (first.1 :: rest.1, rest.2) := rfl

theorem Form.bare_enter (c : ScopeContext) (ps : List Node) (f : Form) (t : ScopeTable) :
    (f.enter c ps t).1.bare = f.bare := by
  cases f with
  | binder x symbol => cases h : c.kind <;> simp [enter, h, bare]
  | _ => rfl

theorem Form.bare_resolve (t : ScopeTable) (c : ScopeContext) (f : Form) :
    (f.resolve t c).bare = f.bare := by
  cases f <;> rfl

mutual

theorem Node.bare_declare : ∀ (n : Node) (c : ScopeContext) (scope : ScopeId) (t : ScopeTable),
    ((n.declare c scope).run t).1.bare = n.bare
  | .mk f s ps, c, scope, t => by
    simp only [declare_run, bare, Form.bare_enter, bareParts_declare ps]

theorem Node.bareParts_declare : ∀ (ps : List Node) (c : ScopeContext) (scope : ScopeId) (f : Form)
    (all : List Node) (i : Nat) (t : ScopeTable),
    bareParts ((declareParts c scope f all i ps).run t).1 = bareParts ps
  | [], _, _, _, _, _, _ => rfl
  | p :: ps, c, scope, f, all, i, t => by
    simp only [declareParts_cons, bareParts, bare_declare p, bareParts_declare ps]

end

mutual

theorem Node.bare_resolve (t : ScopeTable) : ∀ (n : Node) (c : ScopeContext) (scope : ScopeId),
    (n.resolve t c scope).bare = n.bare
  | .mk f s ps, c, scope => by
    simp only [resolve, bare, Form.bare_resolve, bareParts_resolve t ps]

theorem Node.bareParts_resolve (t : ScopeTable) :
    ∀ (ps : List Node) (c : ScopeContext) (scope : ScopeId) (f : Form) (all : List Node) (i : Nat),
      bareParts (resolveParts t c scope f all i ps) = bareParts ps
  | [], _, _, _, _, _ => rfl
  | p :: ps, c, scope, f, all, i => by
    simp only [resolveParts, bareParts, bare_resolve t p, bareParts_resolve t ps]

end

theorem Module.bare_analyse (isStrict : Bool) (program : Node) :
    (analyse isStrict program).program.bare = program.bare := by
  exact (Node.bare_resolve _ _ _ _).trans (Node.bare_declare _ _ _ _)

def Form.declaredNames (f : Form) (outer : Bool) (ps : List Node) : List String :=
  match f with
  | .binder x _ => if outer then [x] else []
  | .enumMember _ => [(ps.head?.map Node.nameText).getD ""]
  | _ => []

mutual

/-- The names that a tree declares, in order. Those of the tree's own root are declared only if
`outer` says so. -/
def Node.declaredNames (outer : Bool) : Node → List String
  | .mk f _ ps => f.declaredNames outer ps ++ declaredNamesOfParts outer f 0 ps

def Node.declaredNamesOfParts (outer : Bool) (f : Form) (i : Nat) : List Node → List String
  | [] => []
  | p :: ps => p.declaredNames (f.declaresIn outer i) ++ declaredNamesOfParts outer f (i + 1) ps

end

theorem Node.nameText_bare (n : Node) : n.bare.nameText = n.nameText := by
  obtain ⟨f, s, ps⟩ := n
  cases f <;> rfl

theorem Form.declaresIn_bare (f : Form) (outer : Bool) (i : Nat) :
    f.bare.declaresIn outer i = f.declaresIn outer i := by
  cases f <;> rfl

theorem Form.declaredNames_bare (f : Form) (outer : Bool) (ps : List Node) :
    f.bare.declaredNames outer (Node.bareParts ps) = f.declaredNames outer ps := by
  cases f with
  | enumMember => cases ps <;> simp [bare, declaredNames, Node.bareParts, Node.nameText_bare]
  | _ => rfl

mutual

theorem Node.declaredNames_bare :
    ∀ (n : Node) (outer : Bool), n.bare.declaredNames outer = n.declaredNames outer
  | .mk f s ps, outer => by
    simp only [bare, declaredNames, Form.declaredNames_bare, declaredNamesOfParts_bare ps]

theorem Node.declaredNamesOfParts_bare : ∀ (ps : List Node) (outer : Bool) (f : Form) (i : Nat),
    declaredNamesOfParts outer f.bare i (bareParts ps) = declaredNamesOfParts outer f i ps
  | [], _, _, _ => rfl
  | p :: ps, outer, f, i => by
    simp only [bareParts, declaredNamesOfParts, Form.declaresIn_bare, declaredNames_bare p,
      declaredNamesOfParts_bare ps]

end

namespace ScopeContext

def Inner (c : ScopeContext) : Prop := ∀ scope ∈ c.passed ++ c.alsoIn, scope ≠ []

theorem Within.inner {scope : ScopeId} {c c' : ScopeContext} (h : Within scope c c')
    (inside : scope ≠ []) (inner : c.Inner) : c'.Inner := by
  have deeper {s : ScopeId} (suffix : scope <:+ s) : s ≠ [] := by
    rintro rfl
    exact inside (List.suffix_nil.mp suffix)
  intro s among
  rcases List.mem_append.mp among with passed | also
  · rcases h.passed s passed with old | new
    · exact inner s (List.mem_append_left _ old)
    · exact deeper new
  · rcases h.alsoIn s also with old | new
    · exact inner s (List.mem_append_right _ old)
    · exact deeper new

end ScopeContext

theorem Form.enter_run {c : ScopeContext} (inner : c.Inner) (ps : List Node) (f : Form)
    (t : ScopeTable) :
    ScopeTable.Run (f.declaredNames c.kind.isSome ps) t (f.enter c ps t).2 := by
  cases f with
  | binder x symbol =>
    cases h : c.kind with
    | none => simpa [declaredNames, enter, h] using .nil t
    | some kind =>
      simpa [declaredNames, enter, h] using .cons inner (c.declare_entered kind x t) (.nil _)
  | enumMember => exact .cons inner (c.declare_entered _ _ t) (.nil _)
  | _ => exact .nil t

mutual

theorem Node.declare_enters : ∀ (n : Node) (c : ScopeContext) (scope : ScopeId)
    (t : ScopeTable), scope ≠ [] → c.Inner →
    ScopeTable.Run (n.declaredNames c.kind.isSome) t ((n.declare c scope).run t).2
  | .mk f s ps, c, scope, t, inside, inner => by
    simp only [declare_run, declaredNames]
    exact (Form.enter_run inner ps f t).append
      (declareParts_enters ps c scope f ps 0 _ fun i => (ScopeContext.Within.part scope c f ps
      i).inner inside inner)

theorem Node.declareParts_enters : ∀ (ps : List Node) (c : ScopeContext) (scope : ScopeId)
    (f : Form) (all : List Node) (i : Nat) (t : ScopeTable), (∀ i, (c.part scope f all i).Inner) →
    ScopeTable.Run (declaredNamesOfParts c.kind.isSome f i ps) t
    ((declareParts c scope f all i ps).run t).2
  | [], _, _, _, _, _, t, _ => .nil t
  | p :: ps, c, scope, f, all, i, t, inner => by
    simp only [declareParts_cons, declaredNamesOfParts, ← ScopeContext.part_kind scope c f all i]
    exact (declare_enters p _ (i :: scope) t (by simp) (inner i)).append
      (declareParts_enters ps c scope f all (i + 1) _ inner)

end

theorem Node.mem_declareParts {c : ScopeContext} {scope : ScopeId} {f : Form} {all : List Node}
    (inner : ∀ i, (c.part scope f all i).Inner) {p' : Node} (ps : List Node) (i : Nat)
    (t : ScopeTable) (among : p' ∈ ((declareParts c scope f all i ps).run t).1) :
    ∃ p ∈ ps, ∃ j xs ys t₁, ScopeTable.Run xs t t₁ ∧
      p' = ((p.declare (c.part scope f all j) (j :: scope)).run t₁).1 ∧
      ScopeTable.Run ys ((p.declare (c.part scope f all j) (j :: scope)).run t₁).2
        ((declareParts c scope f all i ps).run t).2 := by
  induction ps generalizing i t with
  | nil => cases among
  | cons p ps ih =>
    simp only [declareParts_cons, List.mem_cons] at among ⊢
    rcases among with rfl | later
    · exact ⟨p, .inl rfl, i, [], _, t, .nil t, rfl, declareParts_enters ps c scope f all
        (i + 1) _ inner⟩
    · obtain ⟨q, member, j, xs, ys, t₁, before, eq, after⟩ := ih (i + 1) _ later
      have first := declare_enters p _ (i :: scope) t (by simp) (inner i)
      exact ⟨q, .inr member, j, _, ys, t₁, first.append before, eq, after⟩

end ModuleLowering
