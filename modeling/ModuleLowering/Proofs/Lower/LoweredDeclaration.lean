import ModuleLowering.Proofs.Lower.DeclaredName
import ModuleLowering.Proofs.Scope.RenamedTable

/-!
What becomes of a module's declarations when its statements are lowered. None of them comes into the
program's own scope from another.
-/

set_option autoImplicit false

namespace ModuleLowering

theorem Declaration.isTop_rename (r : Renaming) (d : Declaration) :
    (d.rename r).isTop = d.isTop := by
  unfold rename
  split <;> rfl

theorem Declaration.kept_of_rename {r : Renaming} (distinct : (r.entries.map Prod.fst).Nodup)
    {d : Declaration} (old : ∀ s, (s, (d.rename r).name) ∉ r.entries) :
    (d.rename r).name = d.name ∧ ∀ s y, d.symbol = some s → (s, y) ∉ r.entries := by
  cases symbol : d.symbol with
  | none => exact ⟨by simp [rename, symbol], by simp⟩
  | some s =>
    have name : (d.rename r).name = r.nameOf s d.name := by simp [rename, symbol]
    rw [name] at old ⊢
    refine ⟨(r.nameOf_cases s d.name).resolve_right (old s), fun s' y same entry => ?_⟩
    cases same
    rw [Renaming.nameOf_of_mem distinct entry] at old
    exact old s entry

structure Reach.Within (o o' : Reach) : Prop where
  vars : o.vars = true → o'.vars = true
  others : o.others = true → o'.others = true
  isVar? : o.isVar? = o'.isVar?

structure Declaration.Inside (d d' : Declaration) : Prop where
  name : d.name = d'.name
  isTop : d.isTop = true → d'.isTop = true

namespace Reach.Within

variable {o o' : Reach}

theorem refl (o : Reach) : o.Within o := ⟨id, id, rfl⟩

theorem block_self (o : Reach) : o.block.Within o := ⟨id, by simp [Reach.block], rfl⟩

theorem closed_self (o : Reach) : o.closed.Within o :=
  ⟨by simp [Reach.closed], by simp [Reach.closed], rfl⟩

theorem block (h : o.Within o') : o.block.Within o'.block := ⟨h.vars, id, h.isVar?⟩

theorem closed (h : o.Within o') : o.closed.Within o'.closed := ⟨id, id, h.isVar?⟩

theorem declaring (h : o.Within o') (isVar : Bool) : (o.declaring isVar).Within
    (o'.declaring isVar) :=
  ⟨h.vars, h.others, rfl⟩

theorem reach (h : o.Within o') (f : Form) (i : Nat) : (f.reach o i).Within (f.reach o' i) := by
  have block := h.block
  have closed := h.closed
  cases f
  case function t =>
    simp only [Form.reach]
    split
    · split
      · exact closed.declaring false
      · exact h.declaring false
    · split
      · exact closed
      · exact closed.declaring false
  case classDef t =>
    simp only [Form.reach]
    split
    · split
      · exact block.declaring false
      · exact h.declaring false
    · split
      · exact block
      · exact h
  case functionType | constructorType | methodSignature | callSignature =>
    exact ⟨block.vars, block.others, rfl⟩
  case arrow | switchStmt | catchClause | importNamed | interface | typeAlias | enumDecl
      | namespaceDecl | conditionalType =>
    simp only [Form.reach]
    split <;> first
      | exact h
      | exact block
      | exact closed
      | exact closed.declaring false
      | exact block.declaring false
      | exact h.declaring false
  all_goals first
    | exact h
    | exact block
    | exact closed
    | exact block.declaring false
    | exact h.declaring _

theorem declarations (h : o.Within o') {n : Node} {d : Declaration}
    (declared : d ∈ n.declarations o) :
    ∃ d' ∈ n.declarations o', d.Inside d' := by
  induction n using Node.induction generalizing o o' with
  | step f s ps ih =>
    rw [Node.mem_declarations] at declared
    rcases declared with here | ⟨j, p, found, below⟩
    · cases f
      case binder x symbol =>
        have declares := h.isVar?
        cases kind : o.isVar? with
        | none => simp [Form.declarations, kind] at here
        | some isVar =>
          rw [kind] at declares
          simp only [Form.declarations, kind, List.mem_singleton] at here
          subst here
          refine ⟨⟨x, symbol, if isVar then o'.vars else o'.others⟩, Node.mem_declarations.mpr
            (.inl ?_), ⟨rfl, ?_⟩⟩
          · simp [Form.declarations, ← declares]
          · cases isVar with
            | true => exact h.vars
            | false => exact h.others
      case enumMember =>
        cases List.mem_singleton.mp here
        exact ⟨_, Node.mem_declarations.mpr (.inl (List.mem_singleton_self _)), ⟨rfl, h.others⟩⟩
      all_goals cases here
    · obtain ⟨d', listed, inside⟩ := ih p (List.mem_of_getElem? found) (h.reach f j) below
      exact ⟨d', Node.mem_declarations.mpr (.inr ⟨j, p, found, listed⟩), inside⟩

end Reach.Within

/-- Declarations that change their form, but no more than the name becomes one of an inner scope. -/
theorem Node.declarations_form {f f' : Form} {s s' : Option Span} {o : Reach} {ps : List Node}
    {d : Declaration} (declared : d ∈ (mk f' s' ps).declarations o)
    (own : f'.declarations o ps = f.declarations o ps)
    (smaller : ∀ i, (f'.reach o i).Within (f.reach o i)) :
    ∃ d' ∈ (mk f s ps).declarations o, d.Inside d' := by
  rcases mem_declarations.mp declared with here | ⟨j, p, found, below⟩
  · exact ⟨d, mem_declarations.mpr (.inl (own ▸ here)), ⟨rfl, id⟩⟩
  · obtain ⟨d', listed, inside⟩ := (smaller j).declarations below
    exact ⟨d', mem_declarations.mpr (.inr ⟨j, p, found, listed⟩), inside⟩

theorem Node.declarations_asExpression {n : Node} {o : Reach} {d : Declaration}
    (declared : d ∈ n.asExpression.declarations o) : ∃ d' ∈ n.declarations o, d.Inside d' := by
  unfold asExpression at declared
  split at declared
  · next t s ps =>
    refine declarations_form declared rfl fun i => ?_
    by_cases first : i = 0
    · simp only [Form.reach, first, if_true]
      show (o.closed.declaring false).Within _
      split
      · exact .refl _
      · exact (Reach.Within.closed_self o).declaring false
    · simp only [Form.reach, first, if_false]
      exact .refl _
  · next t s ps =>
    refine declarations_form declared rfl fun i => ?_
    by_cases first : i = 0
    · simp only [Form.reach, first, if_true]
      split
      · exact .refl _
      · exact (Reach.Within.block_self o).declaring false
    · simp only [Form.reach, first, if_false]
      exact .refl _
  · exact ⟨d, declared, rfl, id⟩

theorem Draft.declarations_exportDeclarator {n : Node} {o : Reach} {d : Declaration}
    (declared : d ∈ (exportDeclarator n).declarations o) : d ∈ n.declarations o := by
  unfold exportDeclarator at declared
  split at declared
  · next isDefinite s p t value =>
    have filled : d ∈ (if value.isAbsent then Made.ident "undefined" else value).declarations o →
      d ∈ value.declarations o := by
      split
      · exact fun none => by cases none
      · exact id
    have exported (name : String) (v : Node) :
        (Made.exportAssignment name v).declarations o = v.declarations o :=
      Made.declarations_assign o "exports" name v
    dsimp only at declared
    split at declared <;>
      simp only [Node.declarations, Node.declarationsOfParts, Form.reach, exported, List.mem_append]
        at declared ⊢ <;>
      exact declared.imp id (Or.imp id (Or.imp id (Or.imp filled id)))
  · exact declared

theorem Node.declaredNames_of_declarations {n n' : Node}
    (made : ∀ o, ∀ d ∈ n.declarations o, ∃ d' ∈ n'.declarations o, d.Inside d') {outer : Bool}
    {x : String} (declared : x ∈ n.declaredNames outer) : x ∈ n'.declaredNames outer := by
  obtain ⟨o, names⟩ := exists_declarations outer
  rw [← names] at declared ⊢
  obtain ⟨d, listed, rfl⟩ := List.mem_map.mp declared
  obtain ⟨d', listed', inside⟩ := made o d listed
  exact inside.name ▸ List.mem_map_of_mem listed'

end ModuleLowering
