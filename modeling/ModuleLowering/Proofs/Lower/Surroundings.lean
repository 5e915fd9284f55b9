import ModuleLowering.Proofs.Lower.LivePath
import ModuleLowering.Proofs.Scope.Analysis
import ModuleLowering.Proofs.Scope.Reach

/-!
What is declared around a place in a program: at the top, by any of its statements, and inside, by
the statement that the place is in.
-/

set_option autoImplicit false

namespace ModuleLowering

namespace Node

def contextAt (c : ScopeContext) (scope : ScopeId) (n : Node) : List Nat → ScopeContext
  | [] => c
  | i :: way => match n.parts[i]? with
    | some p => p.contextAt (c.part scope n.form n.parts i) (i :: scope) way
    | none => c

theorem getElem?_resolveParts (t : ScopeTable) (c : ScopeContext) (scope : ScopeId) (f : Form)
    (all ps : List Node) (i j : Nat) : (resolveParts t c scope f all i ps)[j]? =
      ps[j]?.map fun p => p.resolve t (c.part scope f all (i + j)) ((i + j) :: scope) := by
  induction ps generalizing i j with
  | nil => rfl
  | cons p ps ih =>
    cases j with
    | zero => rfl
    | succ j =>
      rw [resolveParts, List.getElem?_cons_succ, ih, List.getElem?_cons_succ]
      simp only [Nat.add_assoc, Nat.add_comm 1]

theorem resolve_at? {t : ScopeTable} {way : List Nat} {n p : Node} {c : ScopeContext}
    {scope : ScopeId} (stable : n.resolve t c scope = n) (found : n.at? way = some p) :
    p.form.resolve t (n.contextAt c scope way) = p.form := by
  induction way generalizing n c scope with
  | nil =>
    cases found
    rw [contextAt, ← form_resolve t c scope, stable]
  | cons i way ih =>
    obtain ⟨f, s, ps⟩ := n
    obtain ⟨-, q, child, below⟩ := exists_of_at?_cons found
    have part := getElem?_resolveParts t c scope f ps ps 0 i
    rw [(mk.inj stable).2.2, Nat.zero_add, child, Option.map_some] at part
    have step : (mk f s ps).contextAt c scope (i :: way) = q.contextAt (c.part scope f ps i)
      (i :: scope) way := by
      simp only [contextAt, parts, child]
      rfl
    rw [step]
    exact ih (Option.some.inj part).symm below

theorem at?_bare (n : Node) (way : List Nat) : n.bare.at? way = (n.at? way).map bare := by
  induction way generalizing n with
  | nil => rfl
  | cons i way ih =>
    obtain ⟨f, s, ps⟩ := n
    have same : f.bare.isOccurrence = f.isOccurrence := by cases f <;> rfl
    rw [bare, bareParts_eq_map, at?_cons, at?_cons, same, List.getElem?_map]
    split
    · rfl
    · cases ps[i]? with
      | none => rfl
      | some p => exact ih p

end Node

/-- Forms that open no scope: all parts of theirs see what they see. -/
def Form.isOpen : Form → Bool
  | .program .. | .expression | .assign _ | .member _ | .index _ | .varDecl .. | .declarator _ =>
    true
  | _ => false

def Node.isOpenAlong (n : Node) : List Nat → Bool
  | [] => true
  | i :: way => n.form.isOpen && match n.parts[i]? with
    | some p => p.isOpenAlong way
    | none => true

theorem ScopeContext.chain_part_of_isOpen {f : Form} (isOpen : f.isOpen = true) (c : ScopeContext)
    (scope : ScopeId) (ps : List Node) (i : Nat) : (c.part scope f ps i).chain = c.chain := by
  cases f <;> first | rfl | cases isOpen

theorem Node.chain_contextAt {n : Node} {way : List Nat} (isOpen : n.isOpenAlong way = true)
    (c : ScopeContext) (scope : ScopeId) : (n.contextAt c scope way).chain = c.chain := by
  induction way generalizing n c scope with
  | nil => rfl
  | cons i way ih =>
    simp only [isOpenAlong, Bool.and_eq_true] at isOpen
    simp only [contextAt]
    cases child : n.parts[i]? with
    | none => rfl
    | some p =>
      simp only [child] at isOpen ⊢
      rw [ih isOpen.2, ScopeContext.chain_part_of_isOpen isOpen.1]

theorem Node.isOpenAlong_bare (n : Node) (way : List Nat) :
    n.bare.isOpenAlong way = n.isOpenAlong way := by
  induction way generalizing n with
  | nil => rfl
  | cons i way ih =>
    obtain ⟨f, s, ps⟩ := n
    have same : f.bare.isOpen = f.isOpen := by cases f <;> rfl
    simp only [bare, bareParts_eq_map, isOpenAlong, form, parts, same, List.getElem?_map]
    cases ps[i]? with
    | none => rfl
    | some p => rw [Option.map_some]; simp only [ih p]

/-- Inside a statement, the scopes around are the program's own and those that the statement
opens. -/
theorem ScopeContext.Reaches.contextAt {i : Nat} {o : Reach} {c : ScopeContext} {scope : ScopeId}
    (h : c.Reaches i o) (inside : [i] <:+ scope) (n : Node) (way : List Nat) :
    ∀ s ∈ (n.contextAt c scope way).chain, s = [] ∨ [i] <:+ s := by
  induction way generalizing n o c scope with
  | nil => exact h.chain
  | cons j way ih =>
    simp only [Node.contextAt]
    split
    · exact ih (h.part inside _ _ j) (inside.trans (List.suffix_cons _ _)) _
    · exact h.chain

theorem Node.chain_contextAt_program {n : Node} {hashbang : Option String} {ds : List Directive}
    (form : n.form = .program hashbang ds) {isStrict : Bool} {i : Nat} {way : List Nat}
    {scope : ScopeId} (around : scope ∈ (n.contextAt (.program isStrict) [] (i :: way)).chain) :
    scope = [] ∨ [i] <:+ scope := by
  obtain ⟨_, span, ps⟩ := n
  cases form
  have start := ScopeContext.Reaches.program i isStrict
  simp only [contextAt] at around
  split at around
  · exact start.contextAt List.suffix_rfl _ way scope around
  · exact start.chain scope around

theorem eq_of_singleton_suffix {i j : Nat} {s : ScopeId} (first : [i] <:+ s) (second : [j] <:+ s) :
    i = j := by
  have one := List.suffix_of_suffix_length_le first second (Nat.le_refl 1)
  simpa using one.eq_of_length rfl

namespace Module

/-- The scopes around the end of a way that declare a name, innermost first. -/
def declaringScopes (m : Module) (way : List Nat) (x : String) : List ScopeId :=
  (m.program.contextAt (.program true) [] way).chain.filter fun scope =>
    (m.scopes.binding? scope x).isSome

theorem declared_of_mem_declaringScopes {s : Original} {scope : ScopeId} {i : Nat} {way : List Nat}
    {x : String} (among : scope ∈ s.analysed.declaringScopes (i :: way) x) :
    (scope = [] ∧ ∃ p ∈ s.statements, ∃ d ∈ p.declarations .top, d.name = x ∧ d.isTop = true) ∨
      scope ≠ [] ∧ ∃ p, s.statements[i]? = some p ∧ x ∈ p.declaredNames false := by
  obtain ⟨around, declared⟩ := List.mem_filter.mp among
  obtain ⟨symbol, bound⟩ := Option.isSome_iff_exists.mp declared
  obtain ⟨j, p, found, d, listed, name, place⟩ :=
    Original.exists_declaration (ScopeTable.mem_of_binding? bound)
  rcases place with ⟨root, isTop⟩ | inside
  · exact .inl ⟨root, p, List.mem_of_getElem? found, d, listed, name, isTop⟩
  · have inner : scope ≠ [] := by
      rintro rfl
      exact absurd (List.suffix_nil.mp inside) (by simp)
    refine .inr ⟨inner, ?_⟩
    have statement : [i] <:+ scope := (Node.chain_contextAt_program rfl around).resolve_left inner
    obtain rfl := eq_of_singleton_suffix statement inside
    exact ⟨p, found, Node.mem_declaredNames_iff.mpr ⟨d, listed, name⟩⟩

theorem eq_nil_of_isOpenAlong {program : Node} {isStrict : Bool} {way : List Nat} {x : String}
    {scope : ScopeId} (isOpen : program.isOpenAlong way = true)
    (among : scope ∈ (analyse isStrict program).declaringScopes way x) :
    scope = [] := by
  rw [← Node.isOpenAlong_bare, ← bare_analyse isStrict, Node.isOpenAlong_bare] at isOpen
  have around := (List.mem_filter.mp among).1
  rw [Node.chain_contextAt isOpen] at around
  exact List.mem_singleton.mp around

end Module

end ModuleLowering
