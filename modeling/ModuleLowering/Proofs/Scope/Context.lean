import Mathlib.Data.List.Basic
import ModuleLowering.Scope.Resolve

/-!
How the surroundings of a node grow from those of the construct around it: scopes are only added,
and those that are added lie inside the construct.
-/

set_option autoImplicit false

namespace ModuleLowering

/-- Whether the names that the `i`-th part of a construct declares are entered into the table. The
construct itself is told by `outer` whether its own are. -/
def Form.declaresIn (f : Form) (outer : Bool) (i : Nat) : Bool :=
  match f with
  | .function _ => i != 4 || outer
  | .arrow .. => i != 3 || outer
  | .classDef _ | .catchClause | .interface | .typeAlias _ | .enumDecl .. | .namespaceDecl .. =>
    i == 0 || outer
  | .varDecl .. | .importDecl .. | .importEquals | .typeParameter _ | .mappedType .. => true
  | .importNamed isType => isType || outer
  | .functionType | .constructorType _ | .methodSignature .. | .callSignature _ => false
  | _ => outer

namespace ScopeContext

/-- The surroundings `c'` are those of a part of a construct at `scope` with the surroundings
`c`. -/
structure Within (scope : ScopeId) (c c' : ScopeContext) : Prop where
  chain : c.chain <:+ c'.chain
  passed : ∀ s ∈ c'.passed, s ∈ c.passed ∨ scope <:+ s
  alsoIn : ∀ s ∈ c'.alsoIn, s ∈ c.alsoIn ∨ scope <:+ s

theorem Within.same {scope : ScopeId} {c c' : ScopeContext} (chain : c'.chain = c.chain)
    (passed : c'.passed = c.passed) (alsoIn : c'.alsoIn = c.alsoIn) : Within scope c c' :=
  ⟨chain ▸ List.suffix_rfl, fun _ h => .inl (passed ▸ h), fun _ h => .inl (alsoIn ▸ h)⟩

theorem Within.strict (scope : ScopeId) (c : ScopeContext) (isStrict : Bool) :
    Within scope c { c with isStrict } :=
  .same rfl rfl rfl

theorem Within.block (scope : ScopeId) (c : ScopeContext) : Within scope c (c.block scope) where
  chain := List.suffix_cons scope c.chain
  passed s h := by
    rcases List.mem_cons.mp h with rfl | h
    · exact .inr List.suffix_rfl
    · exact .inl h
  alsoIn s h := by cases h

theorem Within.closed {scope inner : ScopeId} (c : ScopeContext) :
    Within scope c (c.closed inner) where
  chain := List.suffix_cons inner c.chain
  passed s h := by cases h
  alsoIn s h := by cases h

theorem Within.trans {scope : ScopeId} {c c₁ c₂ : ScopeContext} (first : Within scope c c₁)
    (second : Within scope c₁ c₂) : Within scope c c₂ where
  chain := first.chain.trans second.chain
  passed s h := (second.passed s h).elim (first.passed s) .inr
  alsoIn s h := (second.alsoIn s h).elim (first.alsoIn s) .inr

theorem Within.functionPart (scope : ScopeId) (c : ScopeContext) (bodyIndex : Nat)
    (isUnique : Bool) (i : Nat) :
    Within scope c (c.functionPart scope bodyIndex isUnique i) := by
  have inner : Within scope c (c.closed scope) := .closed c
  simp only [ScopeContext.functionPart]
  split
  · exact inner.trans (.closed _)
  · refine ⟨inner.chain, inner.passed, fun s h => .inr ?_⟩
    obtain rfl := List.mem_singleton.mp h
    exact List.suffix_cons bodyIndex scope

theorem Within.part (scope : ScopeId) (c : ScopeContext) (f : Form) (ps : List Node) (i : Nat) :
    Within scope c (c.part scope f ps i) := by
  have block := Within.block scope c
  unfold ScopeContext.part
  split
  · -- A function: the name of an expression has a scope of its own.
    dsimp only
    split
    · have named : ∀ isStrict, Within scope c (ScopeContext.closed { c with isStrict }
        (0 :: scope)) :=
        fun isStrict => .trans (.strict scope c isStrict) (.closed _)
      split
      · exact ⟨(named true).chain, (named true).passed, (named true).alsoIn⟩
      · exact (named _).trans (.functionPart scope _ 4 _ i)
    · split
      · exact .same rfl rfl rfl
      · exact .trans (.strict scope c _) (.functionPart scope _ 4 _ i)
  · exact .trans (.strict scope c _) (.functionPart scope _ 3 _ i)
  · -- A class: its name stands inside or outside of its scope.
    dsimp only
    have inner : Within scope c { c.block scope with isStrict := true } :=
      ⟨block.chain, block.passed, block.alsoIn⟩
    split
    · split
      · exact ⟨inner.chain, inner.passed, inner.alsoIn⟩
      · exact .same rfl rfl rfl
    · split
      · exact inner
      · exact .same rfl rfl rfl
  all_goals first
    | exact block
    | exact .closed c
    | exact .same rfl rfl rfl
    | exact ⟨block.chain, block.passed, block.alsoIn⟩
    | (split <;> first
        | exact block
        | exact .closed c
        | exact .same rfl rfl rfl
        | exact ⟨block.chain, block.passed, block.alsoIn⟩)

theorem functionPart_kind (scope : ScopeId) (c : ScopeContext) (bodyIndex : Nat)
    (isUnique : Bool) (i : Nat) :
    (c.functionPart scope bodyIndex isUnique i).kind.isSome =
      (i != bodyIndex || c.kind.isSome) := by
  simp only [functionPart]
  split
  · simp_all [closed]
  · simp_all

theorem part_kind (scope : ScopeId) (c : ScopeContext) (f : Form) (ps : List Node) (i : Nat) :
    (c.part scope f ps i).kind.isSome = f.declaresIn c.kind.isSome i := by
  unfold part Form.declaresIn
  split
  · dsimp only
    split
    · split
      · simp_all [declaring]
      · simp [functionPart_kind, closed]
    · split
      · simp_all [declaring]
      · simp [functionPart_kind]
  · simp [functionPart_kind]
  all_goals simp only [declaring, block, closed]
  all_goals try (repeat' split) <;> simp_all

end ScopeContext

end ModuleLowering
