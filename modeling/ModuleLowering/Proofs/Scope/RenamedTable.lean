import ModuleLowering.Proofs.Lower.DeclaredName
import ModuleLowering.Proofs.Scope.Rename
import ModuleLowering.Proofs.Scope.Resolution

/-!
Looking names up in a table in which some symbols of the program's own scope have new names. Such a
symbol is found under its new name from wherever it was found before, and everything else under its
old one.
-/

set_option autoImplicit false

namespace ModuleLowering

namespace ScopeTable

def Keyed (t : ScopeTable) : Prop := (t.bindings.map fun b => (b.scope, b.name)).Nodup

theorem Keyed.binding?_eq_some_iff {t : ScopeTable} (keyed : t.Keyed) {scope : ScopeId} {x : String}
    {s : Symbol} :
    t.binding? scope x = some s ↔ ⟨scope, x, s⟩ ∈ t.bindings := by
  refine ⟨mem_of_binding?, fun among => ?_⟩
  cases found : t.binding? scope x with
  | none =>
    rw [binding?_eq, Option.map_eq_none_iff, List.find?_eq_none] at found
    simpa using found _ among
  | some s' =>
    have same := List.inj_on_of_nodup_map keyed (mem_of_binding? found) among rfl
    cases same
    rfl

theorem Entered.keeps_keyed {passed : List ScopeId} {kind : DeclarationKind} {x : String}
    {t t' : ScopeTable} {s : Symbol} (h : Entered passed kind x t s t') (keyed : t.Keyed) :
    t'.Keyed := by
  rcases h.bindings with same | ⟨home, keep, missing, eq, -⟩
  · rw [Keyed, same]
    exact keyed
  · rw [Keyed, eq, List.map_cons, List.nodup_cons]
    refine ⟨fun among => ?_, keyed.sublist (List.filter_sublist.map _)⟩
    obtain ⟨⟨scope, y, s'⟩, listed, key⟩ := List.mem_map.mp among
    obtain ⟨rfl, rfl⟩ := Prod.mk.inj key
    have bound := keyed.binding?_eq_some_iff.mpr (List.mem_of_mem_filter listed)
    rw [existing?_eq, bound] at missing
    cases missing

theorem Run.keeps_keyed {xs : List String} {t t' : ScopeTable} (h : Run xs t t') (keyed : t.Keyed) :
    t'.Keyed := by
  induction h with
  | nil => exact keyed
  | cons _ entered _ ih => exact ih (entered.keeps_keyed keyed)

theorem Run.bound_symbolNames {xs : List String} {t : ScopeTable} (h : Run xs .empty t)
    {b : Binding} (bound : b ∈ t.bindings) : b.name ∈ t.symbolNames := by
  rw [h.symbolNames (by simp [Named, empty])]
  by_contra absent
  have nothing := h.about (by simp [Named, empty]) (y := b.name) fun among =>
    absent (by simpa using .inl among)
  have listed : b ∈ (t.about b.name).1 := List.mem_filter.mpr ⟨bound, by simp⟩
  rw [nothing] at listed
  cases listed

/-- What an occurrence finds in a single scope. -/
def serving? (t : ScopeTable) (x : String) (meaning : Meaning) (scope : ScopeId) : Option Symbol :=
  (t.binding? scope x).filter fun s => (t.kindsOf s).any (·.serves meaning)

theorem lookup_eq (t : ScopeTable) (chain : List ScopeId) (x : String) (meaning : Meaning) :
    t.lookup chain x meaning = chain.findSome? (t.serving? x meaning) := rfl

theorem serving?_eq_some_iff {t : ScopeTable} {x : String} {meaning : Meaning} {scope : ScopeId}
    {s : Symbol} :
    t.serving? x meaning scope = some s ↔
      t.binding? scope x = some s ∧ (t.kindsOf s).any (·.serves meaning) = true :=
      Option.filter_eq_some_iff

theorem exists_serving {t : ScopeTable} {chain : List ScopeId} {x : String} {meaning : Meaning}
    {s : Symbol} (found : t.lookup chain x meaning = some s) :
    ∃ scope ∈ chain, t.serving? x meaning scope = some s :=
  List.exists_of_findSome?_eq_some found

end ScopeTable

/-- The renaming gives new names to symbols of the program's own scope. -/
structure Renaming.Suits (r : Renaming) (t : ScopeTable) : Prop where
  named : t.Named
  keyed : t.Keyed
  distinct : (r.entries.map Prod.fst).Nodup
  apart : (r.entries.map Prod.snd).Nodup
  rooted : ∀ e ∈ r.entries, t.root? e.1.name = some e.1
  unbound : ∀ e ∈ r.entries, ∀ b ∈ t.bindings, b.name ≠ e.2
  head : ∀ e ∈ r.entries, e.2.toList.head? = some '_'

namespace Renaming

def new? (r : Renaming) (s : Symbol) : Option String :=
  (r.entries.find? fun (s', _) => s' = s).map Prod.snd

theorem nameOf_eq (r : Renaming) (s : Symbol) (x : String) : r.nameOf s x = (r.new? s).getD x := rfl

theorem new?_eq_some_iff {r : Renaming} (distinct : (r.entries.map Prod.fst).Nodup) {s : Symbol}
    {y : String} :
    r.new? s = some y ↔ (s, y) ∈ r.entries := by
  constructor
  · intro found
    obtain ⟨⟨s', y'⟩, first, rfl⟩ := Option.map_eq_some_iff.mp found
    obtain rfl : s' = s := by simpa using List.find?_some first
    exact List.mem_of_find?_eq_some first
  · intro entry
    unfold new?
    cases found : r.entries.find? fun (s', _) => s' = s with
    | none => simpa using List.find?_eq_none.mp found _ entry
    | some e =>
      have same : e.1 = s := by simpa using List.find?_some found
      have eq := List.inj_on_of_nodup_map distinct (List.mem_of_find?_eq_some found) entry same
      rw [eq]
      rfl

theorem nameOf_of_mem {r : Renaming} (distinct : (r.entries.map Prod.fst).Nodup) {s : Symbol}
    {y : String} (entry : (s, y) ∈ r.entries) (x : String) : r.nameOf s x = y := by
  rw [nameOf_eq, (new?_eq_some_iff distinct).mpr entry]
  rfl

theorem choose_rooted {scopes : ScopeTable} {names : List String} {taken : TakenNames}
    {e : Symbol × String} (entry : e ∈ (choose scopes names taken).1.entries) :
    ∃ x ∈ names, scopes.root? x = some e.1 := by
  induction names generalizing taken with
  | nil => cases entry
  | cons name names ih =>
    rw [choose] at entry
    split at entry
    · next s found =>
      rcases List.mem_cons.mp entry with rfl | later
      · exact ⟨name, List.mem_cons_self, found⟩
      · obtain ⟨x, among, held⟩ := ih later
        exact ⟨x, List.mem_cons_of_mem _ among, held⟩
    · obtain ⟨x, among, held⟩ := ih entry
      exact ⟨x, List.mem_cons_of_mem _ among, held⟩

theorem exists_chosen {scopes : ScopeTable} {names : List String} (taken : TakenNames) {x : String}
    {s : Symbol} (among : x ∈ names) (held : scopes.root? x = some s) :
    ∃ y, (s, y) ∈ (choose scopes names taken).1.entries := by
  induction names generalizing taken with
  | nil => cases among
  | cons name names ih =>
    rw [choose]
    rcases List.mem_cons.mp among with rfl | later
    · simp only [held]
      exact ⟨_, List.mem_cons_self⟩
    · split
      · obtain ⟨y, entry⟩ := ih (taken.generate name).2 later
        exact ⟨y, List.mem_cons_of_mem _ entry⟩
      · exact ih taken later

end Renaming

namespace Renaming.Suits

variable {r : Renaming} {t : ScopeTable} (h : r.Suits t)
include h

theorem mem_bindings_iff {b' : Binding} : b' ∈ (t.rename r).bindings ↔
    (b'.scope ≠ [] ∧ b' ∈ t.bindings) ∨
    (b'.scope = [] ∧ ∃ x, ⟨[], x, b'.symbol⟩ ∈ t.bindings ∧ b'.name = r.nameOf b'.symbol x) := by
  rw [ScopeTable.bindings_rename r h.distinct, List.mem_map]
  constructor
  · rintro ⟨⟨scope, x, s⟩, among, rfl⟩
    by_cases root : scope = []
    · subst root
      exact .inr ⟨rfl, x, among, rfl⟩
    · rw [if_neg root]
      exact .inl ⟨root, among⟩
  · obtain ⟨scope, y, s⟩ := b'
    rintro (⟨inner, among⟩ | ⟨root, x, among, name⟩)
    · exact ⟨_, among, if_neg inner⟩
    · dsimp only at root among name
      subst root name
      exact ⟨_, among, rfl⟩

theorem nameOf_injective {x x' : String} {s s' : Symbol} (bound : ⟨[], x, s⟩ ∈ t.bindings)
    (bound' : ⟨[], x', s'⟩ ∈ t.bindings) (same : r.nameOf s x = r.nameOf s' x') : x = x' := by
  rcases r.nameOf_cases s x with old | new <;> rcases r.nameOf_cases s' x' with old' | new'
  · rw [← old, same, old']
  · exact absurd (old.symm.trans same) (h.unbound _ new' _ bound)
  · exact absurd (old'.symm.trans same.symm) (h.unbound _ new _ bound')
  · have entry := List.inj_on_of_nodup_map h.apart new new' same
    have symbols : s = s' := congrArg Prod.fst entry
    have name : s.name = x := h.named _ (List.mem_append_left _ bound)
    have name' : s'.name = x' := h.named _ (List.mem_append_left _ bound')
    rw [← name, ← name', symbols]

theorem keyed_rename : (t.rename r).Keyed := by
  rw [ScopeTable.Keyed, ScopeTable.bindings_rename r h.distinct, List.map_map]
  refine (h.keyed.of_map _).map_on fun b among b' among' same => ?_
  obtain ⟨scope, x, s⟩ := b
  obtain ⟨scope', x', s'⟩ := b'
  refine List.inj_on_of_nodup_map h.keyed among among' ?_
  by_cases root : scope = [] <;> by_cases root' : scope' = []
  · subst root root'
    simpa using h.nameOf_injective among among' (by simpa using same)
  · simp [root, root'] at same
  · simp [root, root'] at same
  · simpa [root, root'] using same

theorem binding?_inner {scope : ScopeId} (inner : scope ≠ []) (x : String) :
    (t.rename r).binding? scope x = t.binding? scope x := by
  refine Option.ext fun s => ?_
  rw [h.keyed_rename.binding?_eq_some_iff, h.keyed.binding?_eq_some_iff, h.mem_bindings_iff]
  simp [inner]

theorem root?_new {s : Symbol} {y : String} (entry : (s, y) ∈ r.entries) :
    (t.rename r).root? y = some s := by
  refine h.keyed_rename.binding?_eq_some_iff.mpr
    (h.mem_bindings_iff.mpr (.inr ⟨rfl, s.name, ?_, ?_⟩))
  · exact ScopeTable.mem_of_binding? (h.rooted _ entry)
  · exact (Renaming.nameOf_of_mem h.distinct entry s.name).symm

/-- Under an old name, what was not renamed is left. -/
theorem root?_old {x : String} (old : ∀ e ∈ r.entries, e.2 ≠ x) :
    (t.rename r).root? x = (t.root? x).filter fun s => decide (s ∉ r.entries.map Prod.fst) := by
  refine Option.ext fun s => ?_
  rw [ScopeTable.root?, h.keyed_rename.binding?_eq_some_iff, h.mem_bindings_iff,
    Option.filter_eq_some_iff, ScopeTable.root?, h.keyed.binding?_eq_some_iff, decide_eq_true_iff]
  constructor
  · rintro (⟨inner, -⟩ | ⟨-, y, among, name⟩)
    · exact absurd rfl inner
    · change x = r.nameOf s y at name
      rcases r.nameOf_cases s y with same | new
      · rw [same] at name
        subst name
        refine ⟨among, fun listed => ?_⟩
        obtain ⟨⟨s', z⟩, entry, rfl⟩ := List.mem_map.mp listed
        rw [Renaming.nameOf_of_mem h.distinct entry] at same
        exact old _ entry same
      · exact absurd name.symm (old _ new)
  · rintro ⟨among, kept⟩
    refine .inr ⟨rfl, x, among, (Renaming.nameOf_of_forall_ne (fun e entry same => kept ?_) x).symm⟩
    exact List.mem_map.mpr ⟨e, entry, same⟩

end Renaming.Suits

theorem ScopeTable.declared_rename (r : Renaming) (t : ScopeTable) :
    (t.rename r).declared = t.declared := by
  obtain ⟨entries⟩ := r
  induction entries generalizing t with
  | nil => rfl
  | cons entry rest ih => exact ih (t.renameRoot entry.1 entry.2)

theorem ScopeTable.kindsOf_rename (r : Renaming) (t : ScopeTable) (s : Symbol) :
    (t.rename r).kindsOf s = t.kindsOf s := by
  rw [kindsOf, declared_rename]
  rfl

namespace Renaming.Suits

variable {r : Renaming} {t : ScopeTable} (h : r.Suits t) {chain : List ScopeId} {x : String}
    {meaning : Meaning}
include h

theorem serving?_inner {scope : ScopeId} (inner : scope ≠ []) (y : String) :
    (t.rename r).serving? y meaning scope = t.serving? y meaning scope := by
  simp only [ScopeTable.serving?, h.binding?_inner inner, ScopeTable.kindsOf_rename]

theorem lookup_new {s : Symbol} {y : String} (entry : (s, y) ∈ r.entries) (root : [] ∈ chain)
    (found : t.lookup chain x meaning = some s) : (t.rename r).lookup chain y meaning = some s := by
  obtain ⟨_, -, bound⟩ := ScopeTable.exists_serving found
  have atRoot : (t.rename r).serving? y meaning [] = some s := by
    rw [ScopeTable.serving?_eq_some_iff, ScopeTable.kindsOf_rename]
    exact ⟨h.root?_new entry, (ScopeTable.serving?_eq_some_iff.mp bound).2⟩
  -- No inner scope knows the new name.
  have deeper {scope : ScopeId} (inner : scope ≠ []) :
      (t.rename r).serving? y meaning scope = none := by
    rw [h.serving?_inner inner]
    refine Option.eq_none_iff_forall_ne_some.mpr fun s' found' => ?_
    exact h.unbound _ entry _
      (ScopeTable.mem_of_binding? (ScopeTable.serving?_eq_some_iff.mp found').1) rfl
  clear found
  rw [ScopeTable.lookup_eq]
  induction chain with
  | nil => cases root
  | cons scope chain ih =>
    rw [List.findSome?_cons]
    by_cases here : scope = []
    · rw [here, atRoot]
    · rw [deeper here]
      exact ih ((List.mem_cons.mp root).resolve_left (Ne.symm here))

theorem serving?_old (old : ∀ e ∈ r.entries, e.2 ≠ x) {scope : ScopeId}
    (kept : ∀ s, t.serving? x meaning scope = some s → s ∉ r.entries.map Prod.fst) :
    (t.rename r).serving? x meaning scope = t.serving? x meaning scope := by
  by_cases root : scope = []
  · subst root
    refine Option.ext fun s => ?_
    have bound : (t.rename r).binding? [] x = some s ↔ t.binding? [] x = some s ∧
      s ∉ r.entries.map Prod.fst := by
      rw [show (t.rename r).binding? [] x = _ from h.root?_old old, Option.filter_eq_some_iff,
        decide_eq_true_iff]
      rfl
    rw [ScopeTable.serving?_eq_some_iff, ScopeTable.kindsOf_rename, bound,
      ScopeTable.serving?_eq_some_iff]
    refine ⟨fun both => ⟨both.1.1, both.2⟩, fun both => ⟨⟨both.1, kept s ?_⟩, both.2⟩⟩
    exact ScopeTable.serving?_eq_some_iff.mpr both
  · exact h.serving?_inner root x

theorem lookup_old (old : ∀ e ∈ r.entries, e.2 ≠ x)
    (kept : ∀ s, t.lookup chain x meaning = some s → s ∉ r.entries.map Prod.fst) :
    (t.rename r).lookup chain x meaning = t.lookup chain x meaning := by
  simp only [ScopeTable.lookup_eq] at kept ⊢
  induction chain with
  | nil => rfl
  | cons scope chain ih =>
    simp only [List.findSome?_cons] at kept ⊢
    rw [h.serving?_old old fun s found => kept s (by rw [found])]
    cases found : t.serving? x meaning scope with
    | some s => rfl
    | none => exact ih fun s below => kept s (by rw [found]; exact below)

theorem ne_new_of_lookup {s : Symbol} (found : t.lookup chain x meaning = some s) :
    ∀ e ∈ r.entries, e.2 ≠ x := by
  intro e entry same
  obtain ⟨_, -, bound⟩ := ScopeTable.exists_serving found
  exact h.unbound e entry _
    (ScopeTable.mem_of_binding? (ScopeTable.serving?_eq_some_iff.mp bound).1) same.symm

theorem refer_rename {c c' : ScopeContext} (same : c'.chain = c.chain) (root : [] ∈ c.chain)
    (free : t.refer c x meaning = .global → ∀ e ∈ r.entries, e.2 ≠ x) :
    (t.rename r).refer c' (r.referred (t.refer c x meaning) x) meaning = t.refer c x meaning := by
  unfold ScopeTable.refer at free ⊢
  rw [same]
  cases found : t.lookup c.chain x meaning with
  | none =>
    rw [found] at free
    simp only [Renaming.referred]
    rw [h.lookup_old (free rfl) (by simp [found]), found]
  | some s =>
    simp only [Renaming.referred]
    have old := h.ne_new_of_lookup found
    rcases r.nameOf_cases s x with same | new
    · rw [same, h.lookup_old old, found]
      intro s' eq listed
      obtain rfl : s = s' := Option.some.inj (found.symm.trans eq)
      obtain ⟨⟨s, y⟩, entry, rfl⟩ := List.mem_map.mp listed
      exact old _ entry ((Renaming.nameOf_of_mem h.distinct entry x).symm.trans same)
    · rw [h.lookup_new new root found]

end Renaming.Suits

end ModuleLowering
