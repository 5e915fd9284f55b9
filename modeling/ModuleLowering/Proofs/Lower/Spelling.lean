import Mathlib.Data.List.Find
import ModuleLowering.Proofs.Lower.DeclaredName
import ModuleLowering.Proofs.Lower.Run
import ModuleLowering.Proofs.Scope.Flat
import ModuleLowering.Proofs.Scope.Rename

/-!
How the names of a module without inner scopes are spelled once its own `module`, `exports` and
`require` are renamed. No two names that the module uses come to be spelled alike.
-/

set_option autoImplicit false

namespace ModuleLowering

/-- What names are spelled as. Those that are used keep apart, and those that are known without a
declaration stay. -/
structure Spelling where
  name : String → String
  used : String → Prop
  injective : ∀ {x y : String}, used x → used y → name x = name y → x = y
  ambient : ∀ x ∈ ["undefined", "Object"], used x ∧ name x = x

theorem Spelling.undefined (σ : Spelling) :
    σ.used "undefined" ∧ σ.name "undefined" = "undefined" :=
  σ.ambient _ List.mem_cons_self

theorem Spelling.object (σ : Spelling) : σ.used "Object" ∧ σ.name "Object" = "Object" :=
  σ.ambient _ (List.mem_cons_of_mem _ List.mem_cons_self)

theorem Renaming.referred_cases (r : Renaming) (ref : Reference) (x : String) :
    r.referred ref x = x ∨ ∃ s, ref = .symbol s ∧ (s, r.referred ref x) ∈ r.entries := by
  cases ref with
  | symbol s => exact (r.nameOf_cases s x).imp id fun new => ⟨s, rfl, new⟩
  | none | global => exact .inl rfl

theorem Form.rename_respell {f : Form} (flat : f.isFlat = true) {ref : String → Reference}
    (r : Renaming) (known : ∀ x symbol, f = .binder x symbol → ref x = .symbol ⟨[], x⟩)
    (ps : List Node) :
    ((f.respell id ref).rename r).expandShorthand ps = f.respell
      (fun x => r.referred (ref x) x) ref := by
  cases f
  case binder x symbol =>
    simp [respell, rename, expandShorthand, known x symbol rfl, Renaming.referred]
  all_goals first | rfl | cases flat

theorem Node.mem_declaredNames_of_flat {outer : Bool} {f : Form} {s : Option Span} {ps : List Node}
    {p : Node} {x : String} {j : Nat} (found : ps[j]? = some p)
    (declared : x ∈ p.declaredNames (f.declaresIn outer j)) :
    x ∈ (mk f s ps).declaredNames outer :=
  List.mem_append_right _ ((mem_declaredNamesOfParts 0).mpr ⟨j, p, found, by rwa [Nat.zero_add]⟩)

theorem Node.areFlat_getElem? {outer : Bool} {f : Form} {ps : List Node} {i : Nat}
    (h : areFlat outer f i ps = true) {j : Nat} {p : Node} (found : ps[j]? = some p) :
    p.isFlat (f.declaresIn outer (i + j)) = true := by
  induction ps generalizing i j with
  | nil => cases found
  | cons q ps ih =>
    simp only [areFlat, Bool.and_eq_true] at h
    cases j with
    | zero => cases found; exact h.1
    | succ j =>
      have rest := ih h.2 (j := j) (by simpa using found)
      rwa [Nat.add_assoc, Nat.add_comm 1] at rest

theorem Node.rename_respell {ref : String → Reference} (r : Renaming) (n : Node) {outer : Bool}
    (flat : n.isFlat outer = true) (known : ∀ x ∈ n.declaredNames outer, ref x = .symbol ⟨[], x⟩) :
    (n.respell id ref).rename r = n.respell (fun x => r.referred (ref x) x) ref := by
  induction n using Node.induction generalizing outer with
  | step f s ps ih =>
    obtain ⟨form, binds, parts⟩ := isFlat_mk flat
    rw [respell, rename_mk, respell, respellParts_eq_map, respellParts_eq_map]
    have below : (ps.map (respell id ref)).map (rename r) =
        ps.map (respell (fun x => r.referred (ref x) x) ref) := by
      rw [List.map_map]
      refine List.map_congr_left fun p among => ?_
      obtain ⟨j, found⟩ := List.getElem?_of_mem among
      have fits := areFlat_getElem? parts found
      rw [Nat.zero_add] at fits
      exact ih p among fits fun x here => known x (mem_declaredNames_of_flat found here)
    rw [below, Form.rename_respell form r]
    rintro x symbol rfl
    exact known x (by simp [declaredNames, Form.declaredNames, binds rfl])

namespace ScopeTable.IsFlat

variable {t : ScopeTable}

theorem named (h : t.IsFlat) : t.Named := by
  intro b among
  rw [h.reserved, List.append_nil] at among
  rw [(h.bindings b among).2.1]

theorem mem_symbolNames (h : t.IsFlat) {b : Binding} (among : b ∈ t.bindings) :
    b.name ∈ t.symbolNames := by
  obtain ⟨-, symbol, kind, known, -⟩ := h.bindings b among
  obtain ⟨⟨s, kind'⟩, listed, found⟩ := List.mem_filterMap.mp known
  have same : s = b.symbol := by
    by_contra other
    simp [other] at found
  exact List.mem_map.mpr ⟨_, listed, by rw [same, symbol]⟩

theorem rootReference_of_mem (h : t.IsFlat) {b : Binding} (among : b ∈ t.bindings) :
    t.rootReference b.name = .symbol b.symbol := by
  obtain ⟨scope, symbol, -⟩ := h.bindings b among
  have held : (t.root? b.name).isSome = true :=
    root?_isSome_iff.mpr ⟨b.symbol, by rw [← scope]; exact among⟩
  obtain ⟨s, found⟩ := Option.isSome_iff_exists.mp held
  rw [rootReference, found, h.root? found, symbol]

theorem eq_of_rootReference (h : t.IsFlat) {x : String} {s : Symbol}
    (symbol : t.rootReference x = .symbol s) :
    s = ⟨[], x⟩ := by
  unfold rootReference at symbol
  split at symbol
  · next found =>
    cases symbol
    exact h.root? found
  · cases symbol

end ScopeTable.IsFlat

namespace Module

variable {m : Module}

def newName (m : Module) (x : String) : String := m.newNames.referred (m.scopes.rootReference x) x

section
variable (flat : m.scopes.IsFlat)
include flat

theorem newName_injective {x y : String} (oldX : x ∉ m.newNames.entries.map Prod.snd)
    (oldY : y ∉ m.newNames.entries.map Prod.snd) (same : m.newName x = m.newName y) : x = y := by
  have generates := Renaming.choose_generates m.scopes runtimeNames ⟨m.takenNames⟩
  rcases m.newNames.referred_cases (m.scopes.rootReference x) x with keptX | ⟨s, symbolX, newX⟩ <;>
    rcases m.newNames.referred_cases (m.scopes.rootReference y) y with keptY | ⟨s', symbolY, newY⟩
  · exact keptX.symm.trans (same.trans keptY)
  · exact absurd (List.mem_map.mpr ⟨_, newY, same.symm.trans keptX⟩) oldX
  · exact absurd (List.mem_map.mpr ⟨_, newX, same.trans keptY⟩) oldY
  · have entry := List.inj_on_of_nodup_map generates.nodup newX newY same
    have symbols : s = s' := congrArg Prod.fst entry
    rw [flat.eq_of_rootReference symbolX, flat.eq_of_rootReference symbolY] at symbols
    exact congrArg Symbol.name symbols

theorem newName_eq {x : String} (other : x ∉ runtimeNames) : m.newName x = x := by
  rcases m.newNames.referred_cases (m.scopes.rootReference x) x with kept | ⟨s, symbol, new⟩
  · exact kept
  · refine absurd ((Renaming.choose_sublist flat.named runtimeNames ⟨m.takenNames⟩).subset
      (List.mem_map.mpr ⟨_, new, ?_⟩)) other
    rw [flat.eq_of_rootReference symbol]

end

/-- How names are spelled in a module that declares the given ones. -/
def spelling (m : Module) (flat : m.scopes.IsFlat) (own : List String) : Spelling where
  name := m.newName
  used x := x ∉ m.newNames.entries.map Prod.snd ∧ (x ∈ runtimeNames → x ∈ own)
  injective usedX usedY := newName_injective flat usedX.1 usedY.1
  ambient x among := by
    have plain : x ∉ runtimeNames ∧ x.toList.head? ≠ some '_' := by
      revert x
      decide
    exact ⟨⟨fun new => plain.2 ((Renaming.choose_generates m.scopes runtimeNames
      ⟨m.takenNames⟩).head _ new), fun runtime => absurd runtime plain.1⟩, newName_eq flat plain.1⟩

theorem not_mem_newNames {x : String} (taken : x ∈ m.takenNames) :
    x ∉ m.newNames.entries.map Prod.snd := fun new =>
  (Renaming.choose_generates m.scopes runtimeNames ⟨m.takenNames⟩).fresh x new taken

theorem renamed_scopes (m : Module) : m.renamed.scopes = m.scopes.rename m.newNames := by
  unfold renamed
  split
  · next empty =>
    rw [ScopeTable.rename, List.isEmpty_iff.mp empty]
    rfl
  · rfl

/-- In the renamed module a name stands for what it stood for before, under its new spelling. -/
theorem root?_renamed (flat : m.scopes.IsFlat) {x : String}
    (old : x ∉ m.newNames.entries.map Prod.snd) :
    m.renamed.scopes.root? (m.newName x) = m.scopes.root? x := by
  have distinct : (m.newNames.entries.map Prod.fst).Nodup :=
    Renaming.choose_distinct flat.named (by decide) _
  have renamed : m.renamed.scopes.bindings = m.scopes.bindings.map fun b =>
      { b with name := m.newName b.name } := by
    rw [renamed_scopes, ScopeTable.bindings_rename m.newNames distinct]
    refine List.map_congr_left fun b among => ?_
    rw [if_pos (flat.bindings b among).1]
    show _ = { b with name := m.newNames.referred (m.scopes.rootReference b.name) b.name }
    rw [flat.rootReference_of_mem among]
    rfl
  rw [ScopeTable.root?, ScopeTable.binding?_eq, renamed, List.find?_map, Option.map_map,
    ScopeTable.root?, ScopeTable.binding?_eq]
  congr 1
  refine List.find?_congr fun b among => ?_
  have taken : b.name ∈ m.takenNames := List.mem_append_left _ (flat.mem_symbolNames among)
  rw [Function.comp_apply, Bool.eq_iff_iff]
  simp only [Bool.and_eq_true, beq_iff_eq]
  refine and_congr_right fun _ => ⟨fun same => ?_, fun same => by rw [same]⟩
  exact newName_injective flat (not_mem_newNames taken) old same

theorem renamed_statements {statements : List Node}
    (spelled : m.statements = statements.map (Node.respell id m.scopes.rootReference))
    (fits : ∀ n ∈ statements, n.isFlat false = true)
    (known : ∀ n ∈ statements, ∀ x ∈ n.declaredNames false, m.scopes.rootReference x =
    .symbol ⟨[], x⟩) :
    m.renamed.statements = statements.map (Node.respell m.newName m.scopes.rootReference) := by
  have renamed : m.statements.map (Node.rename m.newNames) =
      statements.map (Node.respell m.newName m.scopes.rootReference) := by
    rw [spelled, List.map_map]
    exact List.map_congr_left fun n among => Node.rename_respell m.newNames n (fits n among)
      (known n among)
  unfold Module.renamed
  split
  · next empty =>
    -- Without new names all names are spelled as before.
    have same : m.newName = id := by
      funext x
      rcases m.newNames.referred_cases (m.scopes.rootReference x) x with kept | ⟨s, -, new⟩
      · exact kept
      · rw [List.isEmpty_iff.mp empty] at new
        cases new
    rw [same, spelled]
  · rw [statements_rename, renamed]

end Module

end ModuleLowering
