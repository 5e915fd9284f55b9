import ModuleLowering.Lower.Module
import ModuleLowering.Proofs.Lower.LiveTree
import ModuleLowering.Proofs.Scope.Reach
import ModuleLowering.Proofs.Scope.Rename

/-!
What a module declares after its tree was changed. Renaming brings in new names only for old ones,
and the live pass declares nothing.
-/

set_option autoImplicit false

namespace ModuleLowering

theorem Node.renameParts_eq_map (r : Renaming) (ps : List Node) : renameParts r ps = ps.map
    (rename r) := by
  induction ps with
  | nil => rfl
  | cons p ps ih => simp [renameParts, ih]

theorem Node.rename_mk (r : Renaming) (f : Form) (s : Option Span) (ps : List Node) :
    (mk f s ps).rename r =
      .mk ((f.rename r).expandShorthand (ps.map (rename r))) s (ps.map (rename r)) := by
  simp only [rename, renameParts_eq_map]

theorem Module.statements_rename (m : Module) (r : Renaming) :
    (m.rename r).statements = m.statements.map (Node.rename r) := by
  obtain ⟨⟨f, s, ps⟩, scopes⟩ := m
  exact Node.renameParts_eq_map r ps

inductive Form.Renamed (r : Renaming) : Form → Form → Prop
  | same (f : Form) : Renamed r f f
  | ident (x y : String) (ref : Reference) : Renamed r (.ident x ref) (.ident y ref)
  | target (x y : String) (ref : Reference) : Renamed r (.target x ref) (.target y ref)
  | tagRef (x y : String) (ref : Reference) : Renamed r (.tagRef x ref) (.tagRef y ref)
  | mention (x y : String) (ref : Reference) (meaning : Meaning) :
    Renamed r (.mention x ref meaning) (.mention y ref meaning)
  | binder (x : String) (s : Symbol) : Renamed r (.binder x (some s))
    (.binder (r.nameOf s x) (some s))
  | property (isShorthand isShorthand' isComputed : Bool) :
    Renamed r (.property isShorthand isComputed) (.property isShorthand' isComputed)
  | bindingProperty (isShorthand isShorthand' isComputed : Bool) :
    Renamed r (.bindingProperty isShorthand isComputed) (.bindingProperty isShorthand' isComputed)

namespace Form.Renamed

theorem expandShorthand {r : Renaming} {f f' : Form} (h : Renamed r f f') (ps : List Node) :
    Renamed r f (f'.expandShorthand ps) := by
  unfold Form.expandShorthand
  split
  · cases h with
    | same => exact .property _ _ _
    | property => exact .property _ _ _
  · cases h with
    | same => exact .bindingProperty _ _ _
    | bindingProperty => exact .bindingProperty _ _ _
  · exact h

theorem rename (r : Renaming) (f : Form) : Renamed r f (f.rename r) := by
  unfold Form.rename
  split
  · exact .ident _ _ _
  · exact .target _ _ _
  · exact .tagRef _ _ _
  · exact .mention _ _ _ _
  · exact .binder _ _
  · exact .same _

variable {r : Renaming} {f f' : Form}

theorem isBinder (h : Renamed r f f') : f'.isBinder = f.isBinder := by cases h <;> rfl

theorem isLabel (h : Renamed r f f') : f'.isLabel = f.isLabel := by cases h <;> rfl

theorem fits (h : Renamed r f f') (ps : List Node) : f'.fits ps = f.fits ps := by cases h <;> rfl

theorem reach (h : Renamed r f f') (o : Reach) (i : Nat) : f'.reach o i = f.reach o i := by
  cases h <;> rfl

end Form.Renamed

theorem Node.renamed_form (r : Renaming) (n : Node) : Form.Renamed r n.form (n.rename r).form := by
  obtain ⟨f, s, ps⟩ := n
  rw [rename_mk]
  exact (Form.Renamed.rename r f).expandShorthand _

theorem Node.isWellFormed_rename (r : Renaming) (n : Node) :
    (n.rename r).isWellFormed = n.isWellFormed := by
  induction n using Node.induction with
  | step f s ps ih =>
    have same : ((f.rename r).expandShorthand (ps.map (rename r))).fits (ps.map (rename r)) =
      f.fits ps := by
      rw [((Form.Renamed.rename r f).expandShorthand _).fits]
      exact Form.fits_map (fun p => (renamed_form r p).isBinder)
        (fun p => (renamed_form r p).isLabel) f ps
    rw [Bool.eq_iff_iff]
    simp only [rename_mk, isWellFormed_mk, same, List.forall_mem_map]
    exact and_congr_right fun _ => forall₂_congr fun p among => by rw [ih p among]

theorem Node.mem_declaredNamesOfParts {outer : Bool} {f : Form} {x : String}
    {ps : List Node} (i : Nat) :
    x ∈ declaredNamesOfParts outer f i ps ↔
      ∃ (j : Nat) (p : Node), ps[j]? = some p ∧
      x ∈ p.declaredNames (f.declaresIn outer (i + j)) := by
  induction ps generalizing i with
  | nil => simp [declaredNamesOfParts]
  | cons p ps ih =>
    rw [declaredNamesOfParts, List.mem_append, ih,
      exists_getElem?_cons (P := fun j q => x ∈ q.declaredNames (f.declaresIn outer j))]

theorem Node.nameText_rename {n : Node} (label : n.form.isLabel = true) (r : Renaming) :
    (n.rename r).nameText = n.nameText := by
  obtain ⟨f, s, ps⟩ := n
  cases f <;> first | rfl | cases label

def Declaration.rename (r : Renaming) (d : Declaration) : Declaration :=
  match d.symbol with
  | some s => { d with name := r.nameOf s d.name }
  | none => d

theorem Node.declarations_rename (r : Renaming) {n : Node} (wellFormed : n.isWellFormed = true)
    {o : Reach} {d' : Declaration} (declared : d' ∈ (n.rename r).declarations o) :
    ∃ d ∈ n.declarations o, d' = d.rename r := by
  induction n using Node.induction generalizing o with
  | step f s ps ih =>
    have renamed := (Form.Renamed.rename r f).expandShorthand (ps.map (rename r))
    obtain ⟨fits, parts⟩ := isWellFormed_mk.mp wellFormed
    rw [rename_mk, mem_declarations] at declared
    rcases declared with here | ⟨j, q, found, below⟩
    · suffices own : ∃ d ∈ f.declarations o ps, d' = d.rename r by
        obtain ⟨d, among, eq⟩ := own
        exact ⟨d, mem_declarations.mpr (.inl among), eq⟩
      cases f
      case binder x symbol =>
        cases declares : o.isVar? with
        | none =>
          cases symbol <;> simp [Form.rename, Form.expandShorthand, Form.declarations, declares]
            at here
        | some isVar =>
          cases symbol <;>
            simp only [Form.rename, Form.expandShorthand, Form.declarations, declares,
              List.mem_singleton] at here ⊢ <;>
            exact ⟨_, rfl, here⟩
      case enumMember =>
        cases ps with
        | nil => exact ⟨d', here, by rw [List.mem_singleton.mp here]; rfl⟩
        | cons p ps =>
          have same := nameText_rename (n := p) fits r
          refine ⟨d', ?_, by rw [List.mem_singleton.mp here]; rfl⟩
          simpa [Form.rename, Form.expandShorthand, Form.declarations, same] using here
      all_goals
        generalize Form.expandShorthand _ _ = f' at renamed here
        cases renamed <;> cases here
    · obtain ⟨p, original, rfl⟩ : ∃ p, ps[j]? = some p ∧ p.rename r = q := by simpa using found
      rw [renamed.reach] at below
      have among := List.mem_of_getElem? original
      obtain ⟨d, listed, eq⟩ := ih p among (parts p among) below
      exact ⟨d, mem_declarations.mpr (.inr ⟨j, p, original, listed⟩), eq⟩

theorem Node.declaredNames_rename (r : Renaming) {n : Node} (wellFormed : n.isWellFormed = true)
    {outer : Bool} {x : String} (declared : x ∈ (n.rename r).declaredNames outer) :
    x ∈ n.declaredNames outer ∨ x ∈ r.entries.map Prod.snd := by
  obtain ⟨o, names⟩ := exists_declarations outer
  rw [← names] at declared ⊢
  obtain ⟨d', listed, rfl⟩ := List.mem_map.mp declared
  obtain ⟨d, among, rfl⟩ := declarations_rename r wellFormed listed
  unfold Declaration.rename
  split
  · next s symbol =>
    rcases r.nameOf_cases s d.name with same | new
    · exact .inl (List.mem_map.mpr ⟨d, among, same.symm⟩)
    · exact .inr (List.mem_map_of_mem new)
  · exact .inl (List.mem_map_of_mem among)

theorem Node.declarations_eq_nil {n : Node} {o : Reach} (h : n.declaredNames o.isVar?.isSome = []) :
    n.declarations o = [] :=
  List.map_eq_nil_iff.mp ((n.name_declarations o).trans h)

section Made

variable (outer : Bool)

theorem Made.declaredNames_member (object : Node) (property : String) :
    (member object property).declaredNames outer = object.declaredNames outer := by
  simp only [member]
  split <;>
    simp [Node.made, word, string, Node.declaredNames, Node.declaredNamesOfParts,
      Form.declaredNames, Form.declaresIn]

theorem Made.declaredNames_exportChain (names : List String) (value : Node) :
    (exportChain names value).declaredNames outer = value.declaredNames outer := by
  induction names generalizing value with
  | nil => rfl
  | cons name names ih =>
    refine (ih _).trans ?_
    simp [exportAssignment, assign, ident, Node.made, Node.declaredNames, Node.declaredNamesOfParts,
      Form.declaredNames, Form.declaresIn, declaredNames_member]

theorem Redirect.declaredNames_toNode (r : Redirect) : r.toNode.declaredNames outer = [] := by
  cases r with
  | binding => rfl
  | member object property => exact Made.declaredNames_member outer _ property

theorem LiveBindings.declaredNames_updateExpression (op : UpdateOp) (isPrefixed : Bool) (x : String)
    (ref : Reference) (names : List String) (isDropped : Bool) :
    (updateExpression op isPrefixed x ref names isDropped).declaredNames outer = [] := by
  simp only [updateExpression]
  split
  · exact Made.declaredNames_exportChain outer names _
  · simp only [Node.made, Node.declaredNames, Node.declaredNamesOfParts,
      Made.declaredNames_exportChain]
    rfl

end Made

section Made

variable (o : Reach)

theorem Made.declarations_assign (object property : String) (value : Node) :
    (assign (member (ident object) property) value).declarations o = value.declarations o := by
  have target : (member (ident object) property).declarations o = [] :=
    Node.declarations_eq_nil (declaredNames_member _ _ property)
  show [] ++ ((member (ident object) property).declarations o ++ (value.declarations o ++ [])) = _
  rw [target, List.append_nil]
  rfl

theorem Made.declarations_expression (e : Node) (span : Option Span) :
    (expression e span).declarations o = e.declarations o := List.append_nil _

theorem Made.declarations_exportChain (names : List String) (value : Node) :
    (exportChain names value).declarations o = value.declarations o := by
  induction names generalizing value with
  | nil => rfl
  | cons name names ih => exact (ih _).trans (declarations_assign o "exports" name value)

end Made

theorem Form.reach_truthful (f : Form) (ps : List Node) (o : Reach) (i : Nat) :
    (f.truthful ps).reach o i = f.reach o i := by
  unfold truthful
  split <;> rfl

namespace LiveBindings

variable (l : LiveBindings)

theorem nameText_liveAt {n : Node} (label : n.form.isLabel = true) (completes : Bool)
    (position : Position) :
    (l.liveAt completes position n).nameText = n.nameText := by
  obtain ⟨f, s, ps⟩ := n
  cases f
  case word | string | template =>
    rw [liveAt_other l (by simp) (by simp) rfl]
    rfl
  all_goals cases label

theorem getElem?_partsAt {completes : Bool} {position : Position} {f : Form} {ps : List Node}
    {j : Nat} {q : Node} (found : (l.partsAt completes position f ps)[j]? = some q) :
    ∃ p, ps[j]? = some p ∧ l.liveAt (f.completes completes ps.length j)
      (f.positionOf ps position j) p = q := by
  simpa [partsAt, List.getElem?_mapIdx] using found

theorem declarations_liveAt {n : Node} (wellFormed : n.isWellFormed = true)
    {completes : Bool} {position : Position} {o : Reach} {d : Declaration}
    (declared : d ∈ (l.liveAt completes position n).declarations o) : d ∈ n.declarations o := by
  induction n using Node.induction generalizing o completes position with
  | step f s ps ih =>
    cases l.view (.mk f s ps) with
    | ident y ref =>
      rw [liveAt_ident] at declared
      cases h : l.redirect? y ref with
      | none => simpa only [h] using declared
      | some r =>
        have silent : r.toNode.declarations o = [] :=
          Node.declarations_eq_nil (r.declaredNames_toNode _)
        simp only [h] at declared
        split at declared
        · change d ∈ [] ++ ([] ++ (r.toNode.declarations o ++ [])) at declared
          rw [silent] at declared
          cases declared
        · rw [silent] at declared
          cases declared
    | tagRef y ref =>
      rw [liveAt_tagRef] at declared
      cases h : l.tagRedirect? y ref with
      | none => simpa only [h] using declared
      | some r =>
        simp only [h] at declared
        cases r <;> cases declared
    | update op isPrefixed _ y ref s' qs names exported =>
      rw [liveAt_update l exported, Node.declarations_eq_nil (declaredNames_updateExpression ..)]
        at declared
      cases declared
    | other _ _ _ notIdent notTag notUpdated =>
      obtain ⟨fits, parts⟩ := Node.isWellFormed_mk.mp wellFormed
      rw [liveAt_other l notIdent notTag notUpdated, Made.declarations_exportChain,
        Node.mem_declarations] at declared
      rw [Node.mem_declarations]
      rcases declared with here | ⟨j, q, found, below⟩
      · refine .inl ?_
        -- An enum member declares the name of its part, which is kept; else only the mark of a
        -- property changes.
        cases f
        case enumMember =>
          cases ps with
          | nil => exact here
          | cons p ps =>
            have same := l.nameText_liveAt (n := p) fits
            simpa [Form.declarations, Form.truthful, partsAt, same] using here
        case property =>
          simp only [Form.truthful] at here
          split at here <;> exact here
        all_goals exact here
      · obtain ⟨p, original, rfl⟩ := l.getElem?_partsAt found
        rw [Form.reach_truthful] at below
        have among := List.mem_of_getElem? original
        exact .inr ⟨j, p, original, ih p among (parts p among) below⟩

theorem declaredNames_liveAt {n : Node} (wellFormed : n.isWellFormed = true) {completes : Bool}
    {position : Position} {outer : Bool} {x : String}
    (declared : x ∈ (l.liveAt completes position n).declaredNames outer) :
    x ∈ n.declaredNames outer := by
  obtain ⟨o, names⟩ := Node.exists_declarations outer
  rw [← names] at declared ⊢
  obtain ⟨d, listed, rfl⟩ := List.mem_map.mp declared
  exact List.mem_map_of_mem (l.declarations_liveAt wellFormed listed)

end LiveBindings

mutual

/-- Nothing in the tree was looked up, and no property is written as one name. -/
def Node.isUnresolved : Node → Bool
  | .mk f _ ps => (match f with
    | .ident _ ref | .target _ ref | .tagRef _ ref => ref == .none
    | .property isShorthand _ => !isShorthand
    | _ => true) && areUnresolved ps

def Node.areUnresolved : List Node → Bool
  | [] => true
  | p :: ps => p.isUnresolved && areUnresolved ps

end

theorem Node.areUnresolved_iff {ps : List Node} :
    areUnresolved ps = true ↔ ∀ p ∈ ps, p.isUnresolved = true := by
  induction ps with
  | nil => simp [areUnresolved]
  | cons p ps ih => simp [areUnresolved, ih]

theorem LiveBindings.liveAt_of_isUnresolved (l : LiveBindings) {n : Node}
    (h : n.isUnresolved = true) (completes : Bool) (position : Position) :
    l.liveAt completes position n = n := by
  induction n using Node.induction generalizing completes position with
  | step f s ps ih =>
    simp only [Node.isUnresolved, Bool.and_eq_true, Node.areUnresolved_iff] at h
    obtain ⟨plain, parts⟩ := h
    have same : l.partsAt completes position f ps = ps := by
      refine List.ext_getElem? fun j => ?_
      simp only [partsAt, List.getElem?_mapIdx]
      cases found : ps[j]? with
      | none => rfl
      | some p => simp [ih p (List.mem_of_getElem? found) (parts p (List.mem_of_getElem? found))]
    cases l.view (.mk f s ps) with
    | ident y ref =>
      obtain rfl : ref = .none := by simpa using plain
      have missed : l.redirect? y .none = none := by simp [redirect?, isModuleLevel]
      rw [liveAt_ident, missed]
    | tagRef y ref =>
      obtain rfl : ref = .none := by simpa using plain
      have missed : l.tagRedirect? y .none = none := by
        simp [tagRedirect?, redirect?, isModuleLevel]
      rw [liveAt_tagRef, missed]
    | update op isPrefixed _ y ref s' qs names exported =>
      have inside := parts _ (List.mem_singleton_self _)
      simp only [Node.isUnresolved, Bool.and_eq_true, beq_iff_eq] at inside
      simp [exportedNames?, isModuleLevel, inside.1] at exported
    | other _ _ _ notIdent notTag notUpdated =>
      -- An assignment is repeated only if its target refers to something.
      have silent : l.echoes (.mk f s ps) = [] := by
        unfold echoes
        split
        · next t e eq =>
          obtain ⟨f', s', qs⟩ := t
          cases f'
          case target y ref =>
            have inside := parts (.mk (.target y ref) s' qs) (by simp [(Node.mk.inj eq).2.2])
            simp only [Node.isUnresolved, Bool.and_eq_true, beq_iff_eq] at inside
            simp [Node.target?, exportedNames?, isModuleLevel, inside.1]
          all_goals rfl
        · rfl
      have form : f.truthful ps = f := by
        unfold Form.truthful
        split
        · cases plain
        · rfl
      rw [liveAt_other l notIdent notTag notUpdated, same, silent, form]
      rfl

end ModuleLowering
