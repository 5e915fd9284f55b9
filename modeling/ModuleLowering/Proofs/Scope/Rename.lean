import ModuleLowering.Proofs.Lower.FreshName
import ModuleLowering.Proofs.Scope.Table
import ModuleLowering.Scope.Rename

/-!
Renaming of a module's own names: the new names are made up, and what the program declared under an
old name it declares under the new one.
-/

set_option autoImplicit false

namespace ModuleLowering

namespace Renaming

theorem choose_generates (scopes : ScopeTable) (names : List String) (t : TakenNames) :
    t.Generates ((choose scopes names t).1.entries.map Prod.snd) (choose scopes names t).2 := by
  induction names generalizing t with
  | nil => exact .nothing t
  | cons name names ih =>
    rw [choose]
    split
    · exact (TakenNames.Generates.one t name).trans (ih _)
    · exact ih t

/-- At most the given names are given up, each once. -/
theorem choose_sublist {scopes : ScopeTable} (named : scopes.Named) (names : List String)
    (t : TakenNames) :
    ((choose scopes names t).1.entries.map fun e => e.1.name).Sublist names := by
  induction names generalizing t with
  | nil => exact .slnil
  | cons name names ih =>
    rw [choose]
    split
    · next s found =>
      have same : s.name = name :=
        named _ (List.mem_append_left _ (ScopeTable.mem_of_binding? found))
      simp only [List.map_cons, same]
      exact (ih _).cons_cons name
    · exact (ih t).cons name

theorem choose_distinct {scopes : ScopeTable} (named : scopes.Named) {names : List String}
    (distinct : names.Nodup) (t : TakenNames) :
    ((choose scopes names t).1.entries.map Prod.fst).Nodup := by
  have apart := (choose_sublist named names t).nodup distinct
  rw [show (fun e : Symbol × String => e.1.name) = Symbol.name ∘ Prod.fst from rfl, ← List.map_map]
    at apart
  exact List.Nodup.of_map _ apart

theorem nameOf_cons (s s' : Symbol) (y x : String) (rest : List (Symbol × String)) :
    nameOf ⟨(s', y) :: rest⟩ s x = if s' = s then y else nameOf ⟨rest⟩ s x := by
  by_cases h : s' = s <;> simp [nameOf, h]

theorem nameOf_cases (r : Renaming) (s : Symbol) (x : String) :
    r.nameOf s x = x ∨ (s, r.nameOf s x) ∈ r.entries := by
  obtain ⟨entries⟩ := r
  induction entries with
  | nil => exact .inl rfl
  | cons entry rest ih =>
    obtain ⟨s', y⟩ := entry
    rw [nameOf_cons]
    split
    · next here => exact .inr (here ▸ List.mem_cons_self)
    · exact ih.imp_right (List.mem_cons_of_mem _)

theorem nameOf_of_forall_ne {r : Renaming} {s : Symbol} (other : ∀ e ∈ r.entries, e.1 ≠ s)
    (x : String) :
    r.nameOf s x = x :=
  (r.nameOf_cases s x).resolve_right fun listed => other _ listed rfl

end Renaming

namespace ScopeTable

theorem root?_isSome_iff {t : ScopeTable} {x : String} :
    (t.root? x).isSome = true ↔ ∃ s, ⟨[], x, s⟩ ∈ t.bindings := by
  constructor
  · intro h
    obtain ⟨s, found⟩ := Option.isSome_iff_exists.mp h
    exact ⟨s, mem_of_binding? found⟩
  · rintro ⟨s, among⟩
    rw [root?, binding?_eq, Option.isSome_map]
    exact List.find?_isSome.mpr ⟨_, among, by simp⟩

theorem bindings_rename (r : Renaming) (distinct : (r.entries.map Prod.fst).Nodup)
    (t : ScopeTable) :
    (t.rename r).bindings = t.bindings.map fun b =>
      if b.scope = [] then { b with name := r.nameOf b.symbol b.name } else b := by
  obtain ⟨entries⟩ := r
  induction entries generalizing t with
  | nil =>
    have same (b : Binding) :
        (if b.scope = [] then { b with name := Renaming.nameOf ⟨[]⟩ b.symbol b.name } else b) =
          b := by
      split <;> rfl
    simp only [same, List.map_id']
    rfl
  | cons entry rest ih =>
    obtain ⟨s, y⟩ := entry
    obtain ⟨new, distinct⟩ := List.nodup_cons.mp distinct
    refine (ih (t.renameRoot s y) distinct).trans ?_
    rw [renameRoot, List.map_map]
    refine List.map_congr_left fun b _ => ?_
    obtain ⟨scope, x, symbol⟩ := b
    simp only [Function.comp_apply, Renaming.nameOf_cons]
    by_cases root : scope = []
    · by_cases same : symbol = s
      · -- The entries behind it do not rename the symbol again.
        have other : ∀ e ∈ rest, e.1 ≠ symbol :=
          fun e listed eq => new (List.mem_map.mpr ⟨e, listed, eq.trans same⟩)
        simp [root, same, same ▸ Renaming.nameOf_of_forall_ne (r := ⟨rest⟩) other y]
      · simp [root, same, Ne.symm same]
    · simp [root]

theorem mem_rename {s : Symbol} (r : Renaming) (distinct : (r.entries.map Prod.fst).Nodup)
    {t : ScopeTable} {x : String} (among : ⟨[], x, s⟩ ∈ t.bindings) : ⟨[], r.nameOf s x, s⟩ ∈
    (t.rename r).bindings := by
  rw [bindings_rename r distinct]
  exact List.mem_map.mpr ⟨_, among, rfl⟩

end ScopeTable

end ModuleLowering
