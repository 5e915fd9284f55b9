import ModuleLowering.Proofs.Lower.DeclaredName
import ModuleLowering.Proofs.Lower.ExportWrite
import ModuleLowering.Proofs.Lower.Table

/-!
Which properties of `exports` a tree sets. The live pass keeps them, and adds those under which an
exported variable is written once more.
-/

set_option autoImplicit false

namespace ModuleLowering

namespace Node

def definedName? (n : Node) : Option String := (n.exportWrite? none).map ExportWrite.name

def definedNames (n : Node) : List String := (n.exportWrites none).map ExportWrite.name

theorem definedName?_eq (n : Node) (into : Option String) :
    (n.exportWrite? into).map ExportWrite.name = n.definedName? := by
  unfold definedName? exportWrite?
  split
  · simp only [Option.map_map]
    rfl
  · rfl
  · rfl

theorem definedNames_eq (n : Node) (into : Option String) :
    (n.exportWrites into).map ExportWrite.name = n.definedNames := by
  obtain ⟨f, s, ps⟩ := n
  simp only [definedNames, exportWrites, List.map_append, ← Option.toList_map, definedName?_eq]

theorem mem_definedNamesOfParts {f : Form} {all : List Node} {e : String}
    {ps : List Node} (i : Nat) :
    e ∈ (exportWritesOfParts f all i ps).map ExportWrite.name ↔ ∃ p ∈ ps, e ∈ p.definedNames := by
  induction ps generalizing i with
  | nil => simp [exportWritesOfParts]
  | cons p ps ih =>
    rw [exportWritesOfParts, List.map_append, List.mem_append, definedNames_eq, ih,
      List.exists_mem_cons_iff]

theorem mem_definedNames {f : Form} {s : Option Span} {ps : List Node} {e : String} :
    e ∈ (mk f s ps).definedNames ↔
      (mk f s ps).definedName? = some e ∨ f.isOccurrence = false ∧
      ∃ p ∈ ps, e ∈ p.definedNames := by
  rw [definedNames, exportWrites, List.map_append, List.mem_append, ← Option.toList_map,
    definedName?_eq, Option.mem_toList]
  cases name : f.isOccurrence with
  | true => simp
  | false => simp [mem_definedNamesOfParts]

theorem definedNames_of_isLookedUp {n : Node} (h : n.isLookedUp = true) : n.definedNames = [] := by
  rw [definedNames, exportWrites_of_isLookedUp h none]
  rfl

theorem word?_eq_some_iff {n : Node} {x : String} : n.word? = some x ↔ n.form = .word x := by
  unfold word?
  split <;> simp_all

theorem string?_eq_some_iff {n : Node} {x : String} : n.string? = some x ↔ n.form = .string x := by
  unfold string?
  split <;> simp_all

end Node

namespace Made

theorem mem_definedNames_exportChain {names : List String} {value : Node} {e : String} :
    e ∈ (exportChain names value).definedNames ↔ e ∈ names ∨ e ∈ value.definedNames := by
  induction names generalizing value with
  | nil => simp [exportChain]
  | cons name names ih =>
    have first : (exportAssignment name value).definedNames = name :: value.definedNames := by
      rw [Node.definedNames, exportWrites_exportAssignment]
      rfl
    show e ∈ (exportChain names (exportAssignment name value)).definedNames ↔ _
    rw [ih, first, List.mem_cons, List.mem_cons]
    tauto

theorem definedNames_member (object : Node) (property : String) :
    (member object property).definedNames = object.definedNames := by
  rw [Node.definedNames, exportWrites_member]
  rfl

end Made

def Redirect.object : Redirect → String
  | .binding name | .member name _ => name

theorem Redirect.definedNames_toNode (r : Redirect) : r.toNode.definedNames = [] := by
  cases r with
  | binding => rfl
  | member object property => exact Made.definedNames_member _ property

/-- Forms that the live pass neither makes nor takes away: labels, and names of the runtime's
objects. -/
def Form.isFixed : Form → Bool
  | .word _ | .string _ => true
  | .ident x .none => x.toList.head? != some '_'
  | _ => false

/-- Neither a label, nor an object of the runtime, nor a property of one. -/
structure Node.IsInert (n : Node) : Prop where
  form : n.form.isFixed = false
  property : n.exportsProperty? = none
  notDefine : n.isDefineProperty = false

namespace Node.IsInert

theorem exportChain (names : List String) {n : Node} (h : n.IsInert) :
    (Made.exportChain names n).IsInert := by
  induction names generalizing n with
  | nil => exact h
  | cons name names ih => exact ih (n := Made.exportAssignment name n) ⟨rfl, rfl, rfl⟩

theorem updateExpression (op : UpdateOp) (isPrefixed : Bool) (x : String) (ref : Reference)
    (names : List String) (isDropped : Bool) :
    (LiveBindings.updateExpression op isPrefixed x ref names isDropped).IsInert := by
  simp only [LiveBindings.updateExpression]
  split
  · exact exportChain names ⟨rfl, rfl, rfl⟩
  · exact ⟨rfl, rfl, rfl⟩

theorem toNode {r : Redirect} (made : r.object.toList.head? = some '_') : r.toNode.IsInert := by
  cases r with
  | binding name =>
    refine ⟨?_, rfl, rfl⟩
    have head : name.toList.head? = some '_' := made
    simp [Redirect.toNode, Made.ident, Node.made, Node.form, Form.isFixed, head]
  | member name property =>
    have apart {x : String} (known : x.toList.head? ≠ some '_') : name ≠ x := by
      rintro rfl
      exact known made
    have exports := apart (x := "exports") (by decide)
    have object := apart (x := "Object") (by decide)
    refine ⟨?_, ?_, ?_⟩
    · simp only [Redirect.toNode, Made.member]
      split <;> rfl
    · rw [Redirect.toNode, Made.exportsProperty?_member]
      simp [Made.ident, Node.made, Node.isExportsObject, Node.form, exports]
    · simp only [Redirect.toNode, Made.member]
      split
      · simp [Node.made, Made.ident, Node.isDefineProperty, Node.form, object]
      · rfl

end Node.IsInert

namespace LiveBindings

variable (l : LiveBindings)

theorem mem_definedNames_updateExpression {op : UpdateOp} {isPrefixed : Bool} {x : String}
    {ref : Reference} {names : List String} {isDropped : Bool} {e : String} :
    e ∈ (updateExpression op isPrefixed x ref names isDropped).definedNames ↔ e ∈ names := by
  have chain (forward : BinaryOp) : e ∈ (Made.exportChain names (.made (.assign (.combined forward))
      [.made (.target x ref) [], Made.number 1])).definedNames ↔ e ∈ names := by
    rw [Made.mem_definedNames_exportChain]
    exact or_iff_left List.not_mem_nil
  have behind (backward : BinaryOp) :
      e ∉ (Node.made (.binary backward) [.made (.ident x ref) [], Made.number 1]).definedNames :=
        List.not_mem_nil
  have pair (a b : Node) : e ∈ (Node.made .sequence [a, b]).definedNames ↔ e ∈ a.definedNames ∨
    e ∈ b.definedNames := by
    simp [Node.made, Node.mem_definedNames, Node.definedName?, Node.exportWrite?, Form.isOccurrence]
  simp only [updateExpression]
  split
  · exact chain _
  · rw [pair, chain, or_iff_left (behind _)]

theorem lists_of_exportedNames? {x e : String} {ref : Reference} {names : List String}
    (exported : l.exportedNames? x ref = some names) (among : e ∈ names) : l.exports.Lists x e :=
  ⟨names, (Option.filter_eq_some_iff.mp exported).1, among⟩

theorem lists_of_echoes {n : Node} {e : String} (among : e ∈ l.echoes n) :
    ∃ x, l.exports.Lists x e := by
  unfold echoes at among
  split at among
  · next t _ =>
    cases target : t.target? with
    | none => simp [target] at among
    | some written =>
      obtain ⟨x, ref⟩ := written
      cases exported : l.exportedNames? x ref with
      | none => simp [target, exported] at among
      | some names =>
        exact ⟨x, l.lists_of_exportedNames? exported (by simpa [target, exported] using among)⟩
  · cases among

theorem getElem?_partsAt_of {completes : Bool} {position : Position} {f : Form} {ps : List Node}
    {j : Nat} {p : Node} (found : ps[j]? = some p) : (l.partsAt completes position f ps)[j]? =
      some (l.liveAt (f.completes completes ps.length j) (f.positionOf ps position j) p) := by
  simp [partsAt, List.getElem?_mapIdx, found]

variable {l}

def IsForeign (l : LiveBindings) : Prop :=
  ∀ e ∈ l.redirects.entries, e.2.object.toList.head? = some '_'

namespace IsForeign

variable (foreign : l.IsForeign)
include foreign

theorem object {x : String} {ref : Reference} {r : Redirect} (found : l.redirect? x ref = some r) :
    ref ≠ .none ∧ r.object.toList.head? = some '_' := by
  obtain ⟨held, here⟩ := Option.filter_eq_some_iff.mp found
  refine ⟨?_, foreign _ (OrderedMap.mem_of_get? held)⟩
  rintro rfl
  cases here

theorem liveAt_cases (completes : Bool) (position : Position) (f : Form) (s : Option Span)
    (ps : List Node) :
    ((Node.mk f s ps).IsInert ∧ (l.liveAt completes position (.mk f s ps)).IsInert) ∨
    l.liveAt completes position (.mk f s ps) = .mk f s ps ∨
    l.liveAt completes position (.mk f s ps) =
      .mk (f.truthful (l.partsAt completes position f ps)) s
      (l.partsAt completes position f ps) := by
  cases l.view (.mk f s ps) with
  | ident x ref =>
    rw [liveAt_ident]
    cases found : l.redirect? x ref with
    | none => exact .inr (.inl rfl)
    | some r =>
      obtain ⟨known, made⟩ := foreign.object found
      refine .inl ⟨⟨?_, rfl, rfl⟩, ?_⟩
      · cases ref <;> first | rfl | exact absurd rfl known
      · dsimp only
        split
        · exact ⟨rfl, rfl, rfl⟩
        · exact .toNode made
  | tagRef x ref =>
    rw [liveAt_tagRef]
    cases l.tagRedirect? x ref with
    | none => exact .inr (.inl rfl)
    | some r => exact .inl ⟨⟨rfl, rfl, rfl⟩, by cases r <;> exact ⟨rfl, rfl, rfl⟩⟩
  | update op isPrefixed _ x ref s' qs names exported =>
    rw [liveAt_update l exported]
    exact .inl ⟨⟨rfl, rfl, rfl⟩, .updateExpression ..⟩
  | other _ _ _ notIdent notTag notUpdated =>
    rw [liveAt_other l notIdent notTag notUpdated]
    unfold echoes
    split
    · next eq =>
      obtain ⟨rfl, -, -⟩ := Node.mk.inj eq
      exact .inl ⟨⟨rfl, rfl, rfl⟩, .exportChain _ ⟨rfl, rfl, rfl⟩⟩
    · exact .inr (.inr rfl)

theorem form_liveAt {g : Form} (fixed : g.isFixed = true) (completes : Bool)
    (position : Position) (n : Node) :
    (l.liveAt completes position n).form = g ↔ n.form = g := by
  obtain ⟨f, s, ps⟩ := n
  have other {n : Node} (h : n.IsInert) : n.form ≠ g := by
    rintro rfl
    rw [h.form] at fixed
    cases fixed
  rcases foreign.liveAt_cases completes position f s ps with ⟨before, after⟩ | same | through
  · exact iff_of_false (other after) (other before)
  · rw [same]
  · rw [through]
    show f.truthful _ = g ↔ f = g
    unfold Form.truthful
    split
    · exact iff_of_false (by rintro rfl; cases fixed) (by rintro rfl; cases fixed)
    · rfl

theorem isExportsObject_liveAt (completes : Bool) (position : Position) (n : Node) :
    (l.liveAt completes position n).isExportsObject = n.isExportsObject := by
  rw [Bool.eq_iff_iff]
  simp only [Node.isExportsObject, beq_iff_eq]
  exact foreign.form_liveAt (by decide) completes position n

theorem word?_liveAt (completes : Bool) (position : Position) (n : Node) :
    (l.liveAt completes position n).word? = n.word? :=
  Option.ext fun x => by
    rw [Node.word?_eq_some_iff, Node.word?_eq_some_iff]
    exact foreign.form_liveAt rfl completes position n

theorem string?_liveAt (completes : Bool) (position : Position) (n : Node) :
    (l.liveAt completes position n).string? = n.string? :=
  Option.ext fun x => by
    rw [Node.string?_eq_some_iff, Node.string?_eq_some_iff]
    exact foreign.form_liveAt rfl completes position n

theorem exportsProperty?_liveAt (completes : Bool) (position : Position) (n : Node) :
    (l.liveAt completes position n).exportsProperty? = n.exportsProperty? := by
  obtain ⟨f, s, ps⟩ := n
  rcases foreign.liveAt_cases completes position f s ps with ⟨before, after⟩ | same | through
  · rw [before.property, after.property]
  · rw [same]
  · rw [through]
    cases f
    case member | index =>
      obtain _ | ⟨o, _ | ⟨key, _ | ⟨third, rest⟩⟩⟩ := ps
      · rfl
      · rfl
      · simp [partsAt, Form.truthful, Node.exportsProperty?, foreign.isExportsObject_liveAt,
          foreign.word?_liveAt, foreign.string?_liveAt]
      · simp [partsAt, List.mapIdx_cons, Form.truthful, Node.exportsProperty?]
    case property =>
      simp only [Form.truthful]
      split <;> rfl
    all_goals rfl

theorem isDefineProperty_liveAt (completes : Bool) (position : Position) (n : Node) :
    (l.liveAt completes position n).isDefineProperty = n.isDefineProperty := by
  obtain ⟨f, s, ps⟩ := n
  rcases foreign.liveAt_cases completes position f s ps with ⟨before, after⟩ | same | through
  · rw [before.notDefine, after.notDefine]
  · rw [same]
  · rw [through]
    cases f
    case member =>
      obtain _ | ⟨o, _ | ⟨key, _ | ⟨third, rest⟩⟩⟩ := ps
      · rfl
      · rfl
      · rw [Bool.eq_iff_iff]
        simp only [partsAt, Form.truthful, Node.isDefineProperty, List.mapIdx_cons, List.mapIdx_nil,
          Bool.and_eq_true, beq_iff_eq]
        exact and_congr (foreign.form_liveAt (by decide) _ _ o) (foreign.form_liveAt rfl _ _ key)
      · simp [partsAt, List.mapIdx_cons, Form.truthful, Node.isDefineProperty]
    case property =>
      simp only [Form.truthful]
      split <;> rfl
    all_goals rfl

theorem definedName?_partsAt (completes : Bool) (position : Position) (f : Form) (s : Option Span)
    (ps : List Node) :
    (Node.mk (f.truthful (l.partsAt completes position f ps)) s
      (l.partsAt completes position f ps)).definedName? =
      (Node.mk f s ps).definedName? := by
  cases f
  case assign op =>
    cases op with
    | plain =>
      obtain _ | ⟨t, _ | ⟨value, _ | ⟨third, rest⟩⟩⟩ := ps
      · rfl
      · rfl
      · simp [partsAt, Form.truthful, Node.definedName?, Node.exportWrite?,
          foreign.exportsProperty?_liveAt, Function.comp_def, ExportWrite.name]
      · simp [partsAt, List.mapIdx_cons, Form.truthful, Node.definedName?, Node.exportWrite?]
    | combined => rfl
  case call =>
    obtain _ | ⟨callee, _ | ⟨types, _ | ⟨o, _ | ⟨key, _ | ⟨descriptor, _ | ⟨sixth, rest⟩⟩⟩⟩⟩⟩ := ps
    case cons.cons.cons.cons.cons.nil =>
      simp only [partsAt, Form.truthful, Node.definedName?, Node.exportWrite?, List.mapIdx_cons,
        List.mapIdx_nil, foreign.isExportsObject_liveAt, foreign.isDefineProperty_liveAt,
        foreign.string?_liveAt]
      split <;> simp [Function.comp_def, ExportWrite.name]
    case cons.cons.cons.cons.cons.cons =>
      simp [partsAt, List.mapIdx_cons, Form.truthful, Node.definedName?, Node.exportWrite?]
    all_goals rfl
  case property =>
    simp only [Form.truthful]
    split <;> rfl
  all_goals rfl

theorem definedNames_subset (completes : Bool) (position : Position) {n : Node} {e : String}
    (defined : e ∈ n.definedNames) : e ∈ (l.liveAt completes position n).definedNames := by
  induction n using Node.induction generalizing completes position with
  | step f s ps ih =>
    cases l.view (.mk f s ps) with
    | ident | tagRef | update => cases defined
    | other _ _ _ notIdent notTag notUpdated =>
      rw [liveAt_other l notIdent notTag notUpdated, Made.mem_definedNames_exportChain,
        Node.mem_definedNames]
      refine .inr ?_
      rcases Node.mem_definedNames.mp defined with here | ⟨through, p, among, below⟩
      · exact .inl ((foreign.definedName?_partsAt completes position f s ps).trans here)
      · obtain ⟨j, found⟩ := List.getElem?_of_mem among
        refine .inr ⟨(isOccurrence_truthful f _).trans through, _, List.mem_of_getElem?
          (l.getElem?_partsAt_of found), ?_⟩
        exact ih p among _ _ below

theorem definedNames_liveAt (completes : Bool) (position : Position) {n : Node} {e : String}
    (defined : e ∈ (l.liveAt completes position n).definedNames) :
    e ∈ n.definedNames ∨ ∃ x, l.exports.Lists x e := by
  induction n using Node.induction generalizing completes position with
  | step f s ps ih =>
    cases l.view (.mk f s ps) with
    | ident x ref =>
      rw [liveAt_ident] at defined
      cases found : l.redirect? x ref with
      | none => exact .inl (by simpa only [found] using defined)
      | some r =>
        simp only [found] at defined
        split at defined
        · simp [Made.detached, Node.made, Made.number, Node.mem_definedNames, Node.definedName?,
            Node.exportWrite?, r.definedNames_toNode] at defined
        · rw [r.definedNames_toNode] at defined
          cases defined
    | tagRef x ref =>
      rw [liveAt_tagRef] at defined
      cases found : l.tagRedirect? x ref with
      | none => exact .inl (by simpa only [found] using defined)
      | some r =>
        simp only [found] at defined
        cases r <;> cases defined
    | update op isPrefixed _ x ref s' qs names exported =>
      rw [liveAt_update l exported, mem_definedNames_updateExpression] at defined
      exact .inr ⟨x, l.lists_of_exportedNames? exported defined⟩
    | other _ _ _ notIdent notTag notUpdated =>
      rw [liveAt_other l notIdent notTag notUpdated, Made.mem_definedNames_exportChain,
        Node.mem_definedNames] at defined
      rcases defined with echo | here | ⟨through, q, among, below⟩
      · exact .inr (l.lists_of_echoes echo)
      · exact .inl (Node.mem_definedNames.mpr
          (.inl ((foreign.definedName?_partsAt completes position f s ps).symm.trans here)))
      · obtain ⟨j, found⟩ := List.getElem?_of_mem among
        obtain ⟨p, original, rfl⟩ := l.getElem?_partsAt found
        have member := List.mem_of_getElem? original
        rw [isOccurrence_truthful] at through
        exact (ih p member _ _ below).imp_left fun old =>
          Node.mem_definedNames.mpr (.inr ⟨through, p, member, old⟩)

end IsForeign

end LiveBindings

end ModuleLowering
