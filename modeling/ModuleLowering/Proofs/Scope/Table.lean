import Mathlib.Data.List.Basic
import ModuleLowering.Scope.Resolve

/-!
What entering a name does to the table of declarations: it leaves every other name alone, and what
the program's own scope holds stays there.
-/

set_option autoImplicit false

namespace ModuleLowering

namespace ScopeTable

def Named (t : ScopeTable) : Prop := ∀ b ∈ t.bindings ++ t.reserved, b.symbol.name = b.name

/-- Nothing is kept from being declared in the program's own scope. -/
def RootOpen (t : ScopeTable) : Prop := ∀ b ∈ t.reserved, b.scope ≠ []

theorem binding?_eq (t : ScopeTable) (scope : ScopeId) (x : String) :
    t.binding? scope x = (t.bindings.find? fun b => b.scope == scope && b.name == x).map
      Binding.symbol := rfl

theorem existing?_eq (t : ScopeTable) (scope : ScopeId) (x : String) :
    t.existing? scope x = (t.binding? scope x).or
      ((t.reserved.find? fun b => b.scope == scope && b.name == x).map Binding.symbol) := by
  rw [existing?]
  cases t.binding? scope x <;> rfl

theorem mem_of_binding? {t : ScopeTable} {scope : ScopeId} {x : String} {s : Symbol}
    (h : t.binding? scope x = some s) : ⟨scope, x, s⟩ ∈ t.bindings := by
  rw [binding?_eq, Option.map_eq_some_iff] at h
  obtain ⟨⟨scope', x', s'⟩, found, rfl⟩ := h
  have key : scope' = scope ∧ x' = x := by simpa using List.find?_some found
  obtain ⟨rfl, rfl⟩ := key
  exact List.mem_of_find?_eq_some found

theorem mem_of_existing? {t : ScopeTable} {scope : ScopeId} {x : String} {s : Symbol}
    (h : t.existing? scope x = some s) : ⟨scope, x, s⟩ ∈ t.bindings ++ t.reserved := by
  rw [existing?_eq, Option.or_eq_some_iff] at h
  rcases h with bound | ⟨-, kept⟩
  · exact List.mem_append_left _ (mem_of_binding? bound)
  · refine List.mem_append_right _ ?_
    -- The reserved names of a table are the bindings of another one.
    exact mem_of_binding? (t := { t with bindings := t.reserved }) kept

theorem RootOpen.existing? {t : ScopeTable} (h : t.RootOpen) (x : String) :
    t.existing? [] x = t.root? x := by
  have none : t.reserved.find? (fun b => b.scope == [] && b.name == x) = none :=
    List.find?_eq_none.mpr fun b kept => by simp [h b kept]
  rw [existing?_eq, none]
  exact Option.or_none

/-- What entering the name `x` does: the symbol is declared once more, and at most one binding is
added, which may take the place of others in the scopes `passed`. -/
structure Entered (passed : List ScopeId) (kind : DeclarationKind) (x : String) (t : ScopeTable)
    (s : Symbol) (t' : ScopeTable) : Prop where
  named : t.Named → s.name = x
  declared : t'.declared = (s, kind) :: t.declared
  reserved : ∃ added, t'.reserved = added ++ t.reserved ∧
    ∀ b ∈ added, b.name = x ∧ b.symbol = s ∧ b.scope ∈ passed
  bindings : t'.bindings = t.bindings ∨ ∃ (home : ScopeId) (keep : Binding → Bool),
    t.existing? home x = none ∧
    t'.bindings = ⟨home, x, s⟩ :: t.bindings.filter keep ∧ ∀ b, keep b = false → b.name = x ∧
    b.scope ∈ passed

theorem Entered.mono {passed more : List ScopeId} {kind : DeclarationKind} {x : String}
    {t t' : ScopeTable} {s : Symbol} (h : Entered passed kind x t s t') (sub : passed ⊆ more) :
    Entered more kind x t s t' where
  named := h.named
  declared := h.declared
  reserved := by
    obtain ⟨added, eq, known⟩ := h.reserved
    exact ⟨added, eq, fun b among => ⟨(known b among).1, (known b among).2.1,
      sub (known b among).2.2⟩⟩
  bindings := by
    rcases h.bindings with same | ⟨home, keep, missing, bound, dropped⟩
    · exact .inl same
    · exact .inr ⟨home, keep, missing, bound,
        fun b out => ⟨(dropped b out).1, sub (dropped b out).2⟩⟩

theorem Entered.reserve {passed scopes : List ScopeId} {kind : DeclarationKind} {x : String}
    {t t' : ScopeTable} {s : Symbol} (h : Entered passed kind x t s t') (sub : scopes ⊆ passed) :
    Entered passed kind x t s (t'.reserve scopes x s) where
  named := h.named
  declared := h.declared
  reserved := by
    obtain ⟨before, eq, known⟩ := h.reserved
    refine ⟨scopes.map (fun scope => ⟨scope, x, s⟩) ++ before, by simp [ScopeTable.reserve, eq],
      fun b among => ?_⟩
    rcases List.mem_append.mp among with new | old
    · obtain ⟨scope, listed, rfl⟩ := List.mem_map.mp new
      exact ⟨rfl, rfl, sub listed⟩
    · exact known b old
  bindings := h.bindings

theorem Entered.declare (passed : List ScopeId) (t : ScopeTable) (scope : ScopeId) (x : String)
    (kind : DeclarationKind) : Entered passed kind x t (t.declare scope x kind).1
    (t.declare scope x kind).2 := by
  unfold ScopeTable.declare
  split
  · next s found =>
    exact ⟨fun named => named _ (mem_of_existing? found), rfl, ⟨[], rfl, by simp⟩, .inl rfl⟩
  · next missing =>
    refine ⟨fun _ => rfl, rfl, ⟨[], rfl, by simp⟩,
      .inr ⟨scope, fun _ => true, missing, ?_, by simp⟩⟩
    simp

theorem Entered.hoist (t : ScopeTable) (passed : List ScopeId) (home : ScopeId) (x : String) :
    Entered passed .varName x t (t.hoist passed home x).1 (t.hoist passed home x).2 := by
  unfold ScopeTable.hoist
  cases met : passed.findSome? fun scope => (t.existing? scope x).map fun s => (scope, s) with
  | none => exact (Entered.declare passed t home x .varName).reserve (List.Subset.refl passed)
  | some found =>
    obtain ⟨scope, listed, shared⟩ := List.exists_of_findSome?_eq_some met
    obtain ⟨s, present, rfl⟩ := Option.map_eq_some_iff.mp shared
    have symbol : t.Named → s.name = x := fun named => named _ (mem_of_existing? present)
    have redeclared : Entered passed .varName x t s (t.redeclare s x .varName) :=
      ⟨symbol, rfl, ⟨[], rfl, by simp⟩, .inl rfl⟩
    refine reserve ?_ (List.Subset.refl passed)
    dsimp only
    split
    · exact redeclared
    · next missing =>
      refine ⟨symbol, rfl, redeclared.reserved, .inr ?_⟩
      refine ⟨home, fun b => !(b.scope == scope && b.name == x), by simpa using missing, rfl,
        fun b out => ?_⟩
      have key : b.scope = scope ∧ b.name = x := by simpa using out
      exact ⟨key.2, key.1 ▸ listed⟩

end ScopeTable

theorem ScopeContext.declare_entered (c : ScopeContext) (kind : DeclarationKind) (x : String)
    (t : ScopeTable) :
    ScopeTable.Entered (c.passed ++ c.alsoIn) kind x t (c.declare kind x t).1
      (c.declare kind x t).2 := by
  unfold ScopeContext.declare
  split
  · next isVar =>
    subst isVar
    exact (ScopeTable.Entered.hoist t c.passed c.varHome x).mono (List.subset_append_left _ _)
  · exact (ScopeTable.Entered.declare _ t c.home x kind).reserve (List.subset_append_right _ _)

namespace ScopeTable

section
variable {passed : List ScopeId} {kind : DeclarationKind} {x : String}
    {t t' : ScopeTable} {s : Symbol}

theorem Entered.keeps_named (h : Entered passed kind x t s t') (named : t.Named) : t'.Named := by
  have symbol := h.named named
  obtain ⟨added, reserved, known⟩ := h.reserved
  intro b among
  rcases List.mem_append.mp among with bound | kept
  · rcases h.bindings with same | ⟨home, keep, -, eq, -⟩
    · exact named b (List.mem_append_left _ (same ▸ bound))
    · rcases List.mem_cons.mp (eq ▸ bound) with rfl | old
      · exact symbol
      · exact named b (List.mem_append_left _ (List.mem_of_mem_filter old))
  · rcases List.mem_append.mp (reserved ▸ kept) with new | old
    · rw [(known b new).1, (known b new).2.1, symbol]
    · exact named b (List.mem_append_right _ old)

def about (t : ScopeTable) (x : String) : List Binding × List Binding × List
    (Symbol × DeclarationKind) :=
  (t.bindings.filter (·.name = x), t.reserved.filter (·.name = x), t.declared.filter (·.1.name = x))

/-- Another name is not touched. -/
theorem Entered.about (h : Entered passed kind x t s t') (named : t.Named) {y : String}
    (other : x ≠ y) :
    t'.about y = t.about y := by
  have symbol := h.named named
  obtain ⟨added, reserved, known⟩ := h.reserved
  have bindings : t'.bindings.filter (·.name = y) = t.bindings.filter (·.name = y) := by
    rcases h.bindings with same | ⟨home, keep, -, eq, dropped⟩
    · rw [same]
    · rw [eq, List.filter_cons_of_neg (by simpa using other), List.filter_filter]
      refine List.filter_congr fun b _ => ?_
      by_cases kept : keep b = true
      · simp [kept]
      · have renamed := (dropped b (by simpa using kept)).1
        simp [renamed, other]
  have absent : added.filter (·.name = y) = [] :=
    List.filter_eq_nil_iff.mpr fun b among => by simpa [(known b among).1] using other
  simp only [ScopeTable.about, bindings, reserved, h.declared, List.filter_append, absent,
    List.nil_append, List.filter_cons_of_neg (p := fun d : Symbol × DeclarationKind => decide
      (d.1.name = y)) (by simpa [symbol] using other : ¬ decide ((s, kind).1.name = y) = true)]

theorem Entered.symbolNames (h : Entered passed kind x t s t') (named : t.Named) :
    t'.symbolNames = x :: t.symbolNames := by
  simp [ScopeTable.symbolNames, h.declared, h.named named]

theorem Entered.keeps_rootOpen (h : Entered passed kind x t s t')
    (inner : ∀ scope ∈ passed, scope ≠ []) (rootOpen : t.RootOpen) : t'.RootOpen := by
  obtain ⟨added, reserved, known⟩ := h.reserved
  intro b among
  rcases List.mem_append.mp (reserved ▸ among) with new | old
  · exact inner _ (known b new).2.2
  · exact rootOpen b old

theorem Entered.keeps_root (h : Entered passed kind x t s t') (inner : ∀ scope ∈ passed, scope ≠ [])
    (rootOpen : t.RootOpen) {y : String} {s' : Symbol} (held : t.root? y = some s') :
    t'.root? y = some s' := by
  rcases h.bindings with same | ⟨home, keep, missing, eq, dropped⟩
  · rw [← held, ScopeTable.root?, ScopeTable.root?, binding?_eq, binding?_eq, same]
  · have apart : ¬ (home = [] ∧ x = y) := by
      rintro ⟨rfl, rfl⟩
      rw [rootOpen.existing?, held] at missing
      cases missing
    rw [ScopeTable.root?, binding?_eq] at held ⊢
    rw [← held, eq, List.find?_cons_of_neg (by simpa using apart), List.find?_filter]
    congr 2
    funext b
    by_cases kept : keep b = true
    · simp only [kept, true_and, Bool.decide_eq_true]
    · have scope := inner _ (dropped b (by simpa using kept)).2
      simp [scope]

end

inductive Run : List String → ScopeTable → ScopeTable → Prop
  | nil (t : ScopeTable) : Run [] t t
  | cons {passed : List ScopeId} {kind : DeclarationKind} {x : String} {xs : List String}
    {t t₁ t₂ : ScopeTable} {s : Symbol} : (∀ scope ∈ passed, scope ≠ []) →
    Entered passed kind x t s t₁ → Run xs t₁ t₂ → Run (x :: xs) t t₂

namespace Run

variable {xs ys : List String} {t t₁ t₂ : ScopeTable}

theorem append (first : Run xs t t₁) (second : Run ys t₁ t₂) : Run (xs ++ ys) t t₂ := by
  induction first with
  | nil => exact second
  | cons inner entered _ ih => exact .cons inner entered (ih second)

theorem keeps_named (h : Run xs t t₁) (named : t.Named) : t₁.Named := by
  induction h with
  | nil => exact named
  | cons _ entered _ ih => exact ih (entered.keeps_named named)

theorem symbolNames (h : Run xs t t₁) (named : t.Named) :
    t₁.symbolNames = xs.reverse ++ t.symbolNames := by
  induction h with
  | nil => rfl
  | cons _ entered _ ih => simp [ih (entered.keeps_named named), entered.symbolNames named]

theorem about (h : Run xs t t₁) (named : t.Named) {y : String} (absent : y ∉ xs) :
    t₁.about y = t.about y := by
  induction h with
  | nil => rfl
  | cons _ entered _ ih =>
    simp only [List.mem_cons, not_or] at absent
    rw [ih (entered.keeps_named named) absent.2, entered.about named (Ne.symm absent.1)]

theorem keeps_rootOpen (h : Run xs t t₁) (rootOpen : t.RootOpen) : t₁.RootOpen := by
  induction h with
  | nil => exact rootOpen
  | cons inner entered _ ih => exact ih (entered.keeps_rootOpen inner rootOpen)

theorem keeps_root (h : Run xs t t₁) (rootOpen : t.RootOpen) {y : String} {s : Symbol}
    (held : t.root? y = some s) :
    t₁.root? y = some s := by
  induction h with
  | nil => exact held
  | cons inner entered _ ih =>
    exact ih (entered.keeps_rootOpen inner rootOpen) (entered.keeps_root inner rootOpen held)

end Run

end ScopeTable

theorem ScopeContext.declare_root {c : ScopeContext} {kind : DeclarationKind} {x : String}
    {t : ScopeTable} (home : c.home = []) (notVar : kind ≠ .varName) (rootOpen : t.RootOpen) :
    (c.declare kind x t).2.root? x = some (c.declare kind x t).1 := by
  simp only [ScopeContext.declare, if_neg notVar, home, ScopeTable.declare, rootOpen.existing?]
  cases held : t.root? x with
  | some s => exact held
  | none => simp [ScopeTable.root?, ScopeTable.binding?_eq, ScopeTable.reserve]

end ModuleLowering
