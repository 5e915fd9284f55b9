import ModuleLowering.Proofs.Lower.DefinedName
import ModuleLowering.Proofs.Trace.Run

/-!
What the live pass does to the effects of a program: what an assignment or an update writes to an
exported variable is written to `exports` at once, and nothing else is.
-/

set_option autoImplicit false

namespace ModuleLowering

open Computability

namespace LiveBindings

variable (l : LiveBindings)

def namesOf (x : String) (ref : Reference) : List String := (l.exportedNames? x ref).getD []

variable {V : Type}

/-- What an effect becomes in the live program. -/
def repeated : Effect V → List (Effect V)
  | .written .direct x ref v => .written .direct x ref v :: (l.namesOf x ref).map (.exported · v)
  | .kept x ref v => .kept x ref v :: (l.namesOf x ref).map (.exported · v)
  | .written .cast x ref v =>
    match l.redirect? x ref with
    | some (.binding y) => [.written .cast y .none v]
    | some (.member ..) => []
    | none => [.written .cast x ref v]
  | e => [e]

end LiveBindings

def Action.names (l : LiveBindings) : Action → List String
  | .assignment _ x ref => l.namesOf x ref
  | _ => []

def Setting.live {V : Type} (l : LiveBindings) (w : Setting V) : Setting V :=
  ⟨rewritten l.repeated w.later, w.ofBool⟩

section
variable {V : Type} (w : Setting V) (l : LiveBindings)

theorem Form.ordered?_map {α β : Type} (g : α → β) (f : Form) (as : List α) :
    f.ordered? (as.map g) = (f.ordered? as).map (List.map g) := by
  cases f
  case declarator => simp [ordered?]
  all_goals rfl

theorem Form.through_composed (f : Form) (ks : List (Behaviour V)) :
    (f.composed w ks).through l.repeated = f.composed (w.live l)
      (ks.map (.through l.repeated)) := by
  unfold composed
  rw [ordered?_map]
  cases f.ordered? ks with
  | none => exact Behaviour.through_mixed w.later ks
  | some ks =>
    have idle := Behaviour.through_idle (f := l.repeated) w.later
    simp only [Option.map_some, Behaviour.through_inOrder, List.map_append, List.map_cons,
      List.map_nil, idle]
    rfl

theorem Form.through_behaviour (f : Form) (ks : List (Behaviour V)) :
    (f.behaviour w ks).through l.repeated = f.behaviour (w.live l)
      (ks.map (.through l.repeated)) := by
  unfold behaviour
  split
  · rw [Behaviour.through_opening rfl, through_composed]
  · exact f.through_composed w l ks

theorem getLastD_map_through (ks : List (Behaviour V)) :
    (ks.map (.through l.repeated)).getLastD (.idle (w.live l).later) =
      (ks.getLastD (.idle w.later)).through l.repeated := by
  rw [List.getLastD_eq_getLast?, List.getLastD_eq_getLast?, List.getLast?_map]
  cases ks.getLast? with
  | none => exact (Behaviour.through_idle w.later).symm
  | some k => rfl

theorem Action.through_behaviour {isWritten : Bool} {a : Action}
    (notIdent : ∀ x ref, a ≠ .ident x ref)
    (notUpdated : ∀ isPrefixed x ref, a = .update isPrefixed x ref → l.namesOf x ref = [])
    (ks : List (Behaviour V)) :
    (a.behaviour w isWritten ks).through l.repeated =
      .exportingAll (a.names l)
      (a.behaviour (w.live l) isWritten (ks.map (.through l.repeated))) := by
  have last := getLastD_map_through w l ks
  cases a with
  | ident x ref => exact absurd rfl (notIdent x ref)
  | assignment op x ref =>
    cases op with
    | plain =>
      rw [behaviour, behaviour, last]
      exact Behaviour.through_assigning (fun v => rfl) _
    | combined op =>
      rw [behaviour, behaviour, last]
      exact Behaviour.through_combining w.later (fun v => rfl) (fun v => rfl) _ _
  | exporting name =>
    rw [behaviour, behaviour, last]
    exact Behaviour.through_exporting (fun v => rfl) _
  | update isPrefixed x ref =>
    have fixed (v : V) : l.repeated (.written .direct x ref v) = .written .direct x ref v ::
      [].map (.exported · v) := by
      rw [LiveBindings.repeated, notUpdated _ _ _ rfl]
    have step := Behaviour.through_stepping w.later fixed
    cases isPrefixed with
    | true => exact step
    | false =>
      refine (Behaviour.through_inOrder _).trans ?_
      simp only [List.map_cons, List.map_nil, step, Behaviour.through_idle]
      rfl
  | target x ref => exact Behaviour.through_taking fun v => rfl
  | tag => exact Behaviour.through_idle w.later
  | boolean b => exact Behaviour.through_constant _
  | other f => exact f.through_behaviour w l ks

end

section Made
variable {V : Type} (w : Setting V)

theorem Node.runs_of_quiet {f : Form} {ps : List Node} {isWritten : Bool}
    (plain : (made f ps).action = .other f)
    (unordered : f.ordered? (ps.mapIdx fun i p => p.runs w (f.writesPart isWritten i)) = none)
    (inside : f.isStatement = false) (quiet : ∀ p ∈ ps, p.runs w false = .idle w.later)
    (reads : ∀ i, f.writesPart isWritten i = false) :
    (made f ps).runs w isWritten = .idle w.later := by
  rw [made, runs_mk, ← made, plain]
  show f.behaviour w _ = _
  rw [Form.behaviour, inside, if_neg Bool.false_ne_true, Form.composed, unordered]
  refine Behaviour.mixed_idle w.later fun k among => ?_
  obtain ⟨i, bound, rfl⟩ := List.mem_mapIdx.mp among
  rw [reads]
  exact quiet _ (List.getElem_mem bound)

namespace Made

theorem runs_word (x : String) (isWritten : Bool) : (word x).runs w isWritten = .idle w.later :=
  Node.runs_of_quiet w rfl rfl rfl (by simp) (fun _ => rfl)

theorem runs_string (x : String) (isWritten : Bool) : (string x).runs w isWritten = .idle w.later :=
  Node.runs_of_quiet w rfl rfl rfl (by simp) (fun _ => rfl)

theorem runs_number (n : Nat) (isWritten : Bool) : (number n).runs w isWritten = .idle w.later :=
  Node.runs_of_quiet w rfl rfl rfl (by simp) (fun _ => rfl)

theorem runs_member (object : String) (property : String) (isWritten : Bool) :
    (member (ident object) property).runs w isWritten = .idle w.later := by
  unfold member
  split
  · exact Node.runs_of_quiet w rfl rfl rfl (List.forall_mem_cons.mpr ⟨rfl, by simp [runs_word]⟩)
      fun _ => rfl
  · exact Node.runs_of_quiet w rfl rfl rfl (List.forall_mem_cons.mpr ⟨rfl, by simp [runs_string]⟩)
      fun _ => rfl

theorem action_exportAssignment (name : String) (value : Node) :
    (exportAssignment name value).action = .exporting name := by
  have property : (member (ident "exports") name).exportsProperty? = some name :=
    exportsProperty?_member ..
  have plain : (member (ident "exports") name).target? = none :=
    (LiveBindings.target?_eq _).trans
      (LiveBindings.target?_of_isRemade _ (LiveBindings.isRemade_toNode (.member "exports" name)))
  show Action.ofAssign .plain _ _ = _
  rw [plain, property]
  rfl

theorem runs_exportAssignment (name : String) (value : Node) (isWritten : Bool) :
    (exportAssignment name value).runs w isWritten = .exporting name (value.runs w false) := by
  have action := action_exportAssignment name value
  rw [exportAssignment, assign, Node.made] at action ⊢
  rw [Node.runs_mk, action]
  rfl

theorem runs_exportChain (names : List String) {n : Node} {isWritten : Bool}
    (same : n.runs w isWritten = n.runs w false) :
    (exportChain names n).runs w isWritten = .exportingAll names (n.runs w false) := by
  induction names generalizing n with
  | nil => exact same
  | cons name names ih =>
    refine (ih (n := exportAssignment name n) ?_).trans ?_
    · rw [runs_exportAssignment, runs_exportAssignment]
    · rw [runs_exportAssignment]
      rfl

theorem runs_detached {value : Node} (quiet : value.runs w false = .idle w.later)
    (isWritten : Bool) :
    (detached value).runs w isWritten = .idle w.later := by
  have := w.nonempty
  rw [detached, Node.made, Node.runs_mk]
  show Behaviour.inOrder [(number 0).runs w false, value.runs w false, .idle w.later] = _
  rw [runs_number, quiet, Behaviour.inOrder_idle, Behaviour.inOrder_idle,
    Behaviour.inOrder_singleton_idle]

end Made

end Made

namespace Form

theorem read_of_callee (f : Form) (ps : List Node) (position : Position) (isWritten : Bool)
    (i : Nat) (callee : f.positionOf ps position i = .callee) :
    f.writesPart isWritten i = false := by
  unfold positionOf at callee
  split at callee <;> first | rfl | cases callee

theorem expression_of_statement (f : Form) (ps : List Node) (position : Position) (i : Nat)
    (statement : f.positionOf ps position i = .statement) : ∃ e, f = .expression ∧ ps = [e] := by
  unfold positionOf at statement
  split at statement
  · exact ⟨_, rfl, rfl⟩
  · split at statement <;> cases statement
  · cases statement
  · cases statement

end Form

namespace LiveBindings

variable {V : Type} {l : LiveBindings} (w : Setting V)

theorem echoes_eq_names (n : Node) : l.echoes n = n.action.names l := by
  have acts := n.acts
  generalize action : n.action = a at acts
  cases acts with
  | assignment op s t e target => simp [echoes, target, Action.names, namesOf]
  | exporting s t e property =>
    have plain : t.target? = none := by
      unfold Node.exportsProperty? at property
      split at property <;> first | rfl | cases property
    simp [echoes, plain, Action.names]
  | other f s ps =>
    unfold echoes
    split
    · next op s' t e eq =>
      obtain ⟨rfl, rfl, rfl⟩ := Node.mk.inj eq
      cases target : t.target? with
      | none => rfl
      | some written =>
        change Action.ofAssign op t.target? _ = _ at action
        rw [target] at action
        cases action
    · rfl
  | update | target | ident | tag | boolean => rfl

theorem namesOf_of_update {n : Node} (notUpdated : l.updatedNames? n = none) (isPrefixed : Bool)
    (x : String) (ref : Reference) (action : n.action = .update isPrefixed x ref) :
    l.namesOf x ref = [] := by
  have acts := n.acts
  rw [action] at acts
  cases acts with
  | update op _ s t target =>
    obtain ⟨f, s', ps⟩ := t
    cases f
    case target =>
      cases target
      have none : l.exportedNames? x ref = none := notUpdated
      rw [namesOf, none]
      rfl
    all_goals cases target

theorem IsForeign.action_partsAt {α : Type} (foreign : l.IsForeign) (see : Action → α)
    (blind : ∀ isShorthand isComputed,
      see (.other (.property isShorthand isComputed)) = see (.other (.property true isComputed)))
    (completes : Bool) (position : Position) (f : Form) (s : Option Span) (ps : List Node) :
    see (Node.mk (f.truthful (l.partsAt completes position f ps)) s
      (l.partsAt completes position f ps)).action =
      see (Node.mk f s ps).action := by
  cases f
  case property isShorthand isComputed =>
    cases isShorthand with
    | false => rfl
    | true =>
      unfold Form.truthful
      split
      · next eq _ =>
        cases eq
        exact blind _ _
      · rfl
  case assign op =>
    rcases ps with _ | ⟨t, _ | ⟨e, _ | ⟨other, rest⟩⟩⟩
    · rfl
    · rfl
    · show see (Action.ofAssign op (l.liveAt _ _ t).target? (l.liveAt _ _ t).exportsProperty?) = _
      rw [target?_liveAt, foreign.exportsProperty?_liveAt]
      rfl
    · simp [partsAt, List.mapIdx_cons, Form.truthful, Node.action]
  case update op isPrefixed =>
    rcases ps with _ | ⟨t, _ | ⟨other, rest⟩⟩
    · rfl
    · show see (Action.ofUpdate op isPrefixed (l.liveAt _ _ t).target?) = _
      rw [target?_liveAt]
      rfl
    · simp [partsAt, List.mapIdx_cons, Form.truthful, Node.action]
  all_goals rfl

theorem writesPart_truthful (f : Form) (ps : List Node) (isWritten : Bool) (i : Nat) :
    (f.truthful ps).writesPart isWritten i = f.writesPart isWritten i := by
  unfold Form.truthful
  split <;> rfl

theorem IsForeign.runs_partsAt (foreign : l.IsForeign) {completes : Bool} {position : Position}
    {f : Form} {ps : List Node} {isWritten : Bool}
      (parts : ∀ (i : Nat) (p : Node), ps[i]? = some p →
      (l.liveAt (f.completes completes ps.length i) (f.positionOf ps position i) p).runs (w.live l)
        (f.writesPart isWritten i) =
        (p.runs w (f.writesPart isWritten i)).through l.repeated) (s : Option Span) :
    (Node.mk (f.truthful (l.partsAt completes position f ps)) s
      (l.partsAt completes position f ps)).runs (w.live l) isWritten =
        (Node.mk f s ps).action.behaviour (w.live l) isWritten
        ((ps.mapIdx fun i p => p.runs w (f.writesPart isWritten i)).map (.through l.repeated)) := by
  rw [Node.runs_mk, foreign.action_partsAt (·.behaviour (w.live l) isWritten) fun _ _ => rfl]
  congr 1
  refine List.ext_getElem? fun i => ?_
  simp only [writesPart_truthful, List.getElem?_mapIdx, List.getElem?_map, partsAt, Option.map_map]
  cases found : ps[i]? with
  | none => rfl
  | some p => exact congrArg some (parts i p found)

theorem runs_combined {op : BinaryOp} (plain : op.isLogical = false) (x : String) (ref : Reference)
    (isWritten : Bool) :
    (Node.made (.assign (.combined op)) [.made (.target x ref) [], Made.number 1]).runs w
      isWritten =
      .stepping w.later x ref := by
  have := w.nonempty
  show Behaviour.combining w.later x ref op.isLogical ((Made.number 1).runs w false) = _
  rw [plain, Made.runs_number, Behaviour.combining_idle]

theorem runs_updateExpression (op : UpdateOp) (isPrefixed : Bool) (x : String) (ref : Reference)
    (names : List String) (isDropped isWritten : Bool) :
    (updateExpression op isPrefixed x ref names isDropped).runs w isWritten =
      if isDropped || isPrefixed then .exportingAll names (.stepping w.later x ref)
      else .inOrder [.exportingAll names (.stepping w.later x ref), .idle w.later] := by
  have := w.nonempty
  have chain {forward : BinaryOp} (plain : forward.isLogical = false) (isWritten : Bool) :
      (Made.exportChain names (.made (.assign (.combined forward)) [.made (.target x ref) [],
        Made.number 1])).runs w isWritten = .exportingAll names (.stepping w.later x ref) := by
    have steps (isWritten : Bool) := runs_combined w plain x ref isWritten
    rw [Made.runs_exportChain w names ((steps _).trans (steps _).symm), steps]
  have behind {forward backward : BinaryOp} (plain : forward.isLogical = false) :
      (Node.made .sequence [Made.exportChain names (.made (.assign (.combined forward))
          [.made (.target x ref) [], Made.number 1]),
        .made (.binary backward) [.made (.ident x ref) [], Made.number 1]]).runs w isWritten =
        .inOrder [.exportingAll names (.stepping w.later x ref), .idle w.later] := by
    have quiet : (Node.made (.binary backward) [.made (.ident x ref) [], Made.number 1]).runs w
      false = .idle w.later := by
      refine Node.runs_of_quiet w rfl rfl rfl (fun p among => ?_) fun _ => rfl
      rcases List.mem_pair.mp among with rfl | rfl
      · rfl
      · exact Made.runs_number w 1 false
    rw [Node.made, Node.runs_mk]
    show Behaviour.inOrder [Node.runs w false _, Node.runs w false _, .idle w.later] = _
    rw [chain plain, quiet]
    exact Behaviour.inOrder_cons_congr (Behaviour.inOrder_idle w.later []) _
  cases op with
  | increment =>
    rw [updateExpression]
    split
    · exact chain rfl isWritten
    · exact behind rfl
  | decrement =>
    rw [updateExpression]
    split
    · exact chain rfl isWritten
    · exact behind rfl

theorem runs_liveAt_ident (completes : Bool) (position : Position) (x : String) (ref : Reference)
    (s : Option Span) (ps : List Node) {isWritten : Bool}
    (read : position = .callee → isWritten = false) :
    (l.liveAt completes position (.mk (.ident x ref) s ps)).runs (w.live l) isWritten =
      ((Node.mk (.ident x ref) s ps).runs w isWritten).through l.repeated := by
  have before : (Node.mk (.ident x ref) s ps).runs w isWritten =
      if isWritten then .casting w.later x ref else .idle w.later := rfl
  have idle : (Behaviour.idle w.later).through l.repeated = .idle (w.live l).later :=
    Behaviour.through_idle w.later
  rw [liveAt_ident, before]
  cases found : l.redirect? x ref with
  | none =>
    have fixed (v : V) : l.repeated (.written .cast x ref v) = [.written .cast x ref v] := by
      simp [repeated, found]
    cases isWritten with
    | false => exact idle.symm
    | true => exact (Behaviour.through_casting w.later fixed).symm
  | some r =>
    cases r with
    | binding y =>
      have replaced (v : V) : l.repeated (.written .cast x ref v) = [.written .cast y .none v] := by
        simp [repeated, found]
      have quiet : (Redirect.binding y).toNode.runs (w.live l) false = .idle (w.live l).later := rfl
      cases isWritten with
      | false =>
        refine Eq.trans ?_ idle.symm
        dsimp only
        split
        · exact Made.runs_detached (w.live l) quiet false
        · exact quiet
      | true =>
        refine Eq.trans ?_ (Behaviour.through_casting w.later replaced).symm
        dsimp only
        -- A callee is only read, so a name that is cast is not detached.
        rw [if_neg fun callee => Bool.noConfusion (read callee)]
        rfl
    | member object property =>
      have dropped (v : V) : l.repeated (.written .cast x ref v) = [] := by simp [repeated, found]
      have quiet (isWritten : Bool) :
          (Redirect.member object property).toNode.runs (w.live l) isWritten = .idle
            (w.live l).later :=
        Made.runs_member (w.live l) object property isWritten
      have after : (if isWritten then Behaviour.casting w.later x ref else .idle w.later).through
        l.repeated =
          .idle (w.live l).later := by
        split
        · exact Behaviour.through_casting_of_dropped w.later dropped
        · exact idle
      rw [after]
      dsimp only
      split
      · exact Made.runs_detached (w.live l) (quiet false) isWritten
      · exact quiet isWritten

theorem runs_liveAt_update {x : String} {ref : Reference} {names : List String}
    (exported : l.exportedNames? x ref = some names) (completes : Bool) (position : Position)
    (op : UpdateOp) (isPrefixed : Bool) (s s' : Option Span) (ps : List Node) (isWritten : Bool) :
    let n := Node.mk (.update op isPrefixed) s [.mk (.target x ref) s' ps]
    (l.liveAt completes position n).runs (w.live l) isWritten =
      (n.runs w isWritten).through l.repeated ∨
    position = .statement ∧
      Behaviour.inOrder [(l.liveAt completes position n).runs (w.live l) isWritten,
        .idle (w.live l).later] =
        .inOrder [(n.runs w isWritten).through l.repeated, .idle (w.live l).later] := by
  intro n
  have := w.nonempty
  have written (v : V) : l.repeated (.written .direct x ref v) = .written .direct x ref v ::
    names.map (.exported · v) := by
    simp [repeated, namesOf, exported]
  have step := Behaviour.through_stepping w.later written
  have before : n.runs w isWritten = .updating w.later x ref isPrefixed := rfl
  have behind : (Behaviour.updating w.later x ref false).through l.repeated =
      .inOrder [.exportingAll names (.stepping (w.live l).later x ref),
      .idle (w.live l).later] := by
    rw [Behaviour.updating, if_neg Bool.false_ne_true, Behaviour.through_inOrder]
    simp only [List.map_cons, List.map_nil, step, Behaviour.through_idle]
    rfl
  rw [liveAt_update l exported, runs_updateExpression, before]
  cases isPrefixed with
  | true =>
    rw [Bool.or_true, if_pos rfl]
    exact .inl step.symm
  | false =>
    rw [Bool.or_false, behind]
    split
    · next dropped =>
      refine .inr ⟨by simpa using And.left (by simpa using dropped), ?_⟩
      rw [Behaviour.inOrder_inOrder]
      exact (Behaviour.inOrder_cons_congr (Behaviour.inOrder_idle _ []) _).symm
    · exact .inl rfl

/-- What is repeated on `exports` does not depend on whether a write of it is asked for. -/
theorem runs_of_echoes {n : Node} (echoing : l.echoes n ≠ []) (isWritten : Bool) :
    n.runs w isWritten = n.runs w false := by
  have acts := n.acts
  rw [echoes_eq_names] at echoing
  generalize action : n.action = a at acts echoing
  cases acts with
  | assignment op s t e target =>
    rw [Node.runs_mk, Node.runs_mk, action]
    cases op <;> rfl
  | exporting | update | target | ident | tag | boolean | other => exact absurd rfl echoing

theorem runs_liveAt_other {f : Form} {s : Option Span} {ps : List Node}
    (notIdent : ∀ x ref, f ≠ .ident x ref) (notTag : ∀ x ref, f ≠ .tagRef x ref)
    (notUpdated : l.updatedNames? (.mk f s ps) = none) {completes : Bool} {position : Position}
    {isWritten : Bool} (parts : (Node.mk (f.truthful (l.partsAt completes position f ps)) s
      (l.partsAt completes position f ps)).runs (w.live l) isWritten =
        (Node.mk f s ps).action.behaviour (w.live l) isWritten
        ((ps.mapIdx fun i p => p.runs w (f.writesPart isWritten i)).map (.through l.repeated))) :
    (l.liveAt completes position (.mk f s ps)).runs (w.live l) isWritten =
      ((Node.mk f s ps).runs w isWritten).through l.repeated := by
  have plain : ∀ x ref, (Node.mk f s ps).action ≠ .ident x ref := by
    intro x ref action
    have acts := (Node.mk f s ps).acts
    rw [action] at acts
    cases acts
    exact notIdent x ref rfl
  rw [liveAt_other l notIdent notTag notUpdated, Node.runs_mk,
    Action.through_behaviour w l plain (namesOf_of_update notUpdated), ← parts, ← echoes_eq_names]
  by_cases echoing : l.echoes (.mk f s ps) = []
  · rw [echoing]
    rfl
  · rw [← l.echoes_partsAt completes position] at echoing
    have same := runs_of_echoes (w.live l) echoing isWritten
    rw [Made.runs_exportChain _ _ same, same]

/-- The runs of a live tree are those of the tree, with what is written to exported variables
repeated. All that a statement leaves out is to look at the variable that it has updated. -/
theorem IsForeign.runs_liveAt_cases (foreign : l.IsForeign) (n : Node) (completes : Bool)
    (position : Position) (isWritten : Bool) (read : position = .callee → isWritten = false) :
    (l.liveAt completes position n).runs (w.live l) isWritten =
      (n.runs w isWritten).through l.repeated ∨
    position = .statement ∧
      Behaviour.inOrder [(l.liveAt completes position n).runs (w.live l) isWritten,
        .idle (w.live l).later] =
        .inOrder [(n.runs w isWritten).through l.repeated, .idle (w.live l).later] := by
  induction n using Node.induction generalizing completes position isWritten with
  | step f s ps ih =>
  cases l.view (.mk f s ps) with
  | ident x ref => exact .inl (runs_liveAt_ident w completes position x ref s ps read)
  | tagRef x ref =>
    refine .inl ?_
    have before : ((Node.mk (.tagRef x ref) s ps).runs w isWritten).through l.repeated = .idle
      (w.live l).later :=
      Behaviour.through_idle w.later
    rw [before, liveAt_tagRef]
    cases l.tagRedirect? x ref with
    | none => rfl
    | some r =>
      cases r with
      | binding => rfl
      | member =>
        refine Node.runs_of_quiet (w.live l) rfl rfl rfl (fun p among => ?_) fun _ => rfl
        rcases List.mem_pair.mp among with rfl | rfl
        · rfl
        · exact Made.runs_word (w.live l) _ false
  | update op isPrefixed _ x ref s' qs names exported =>
    exact runs_liveAt_update w exported completes position op isPrefixed s s' qs isWritten
  | other _ _ _ notIdent notTag notUpdated =>
    refine .inl (runs_liveAt_other w notIdent notTag notUpdated ?_)
    -- Only the one expression of a statement stands where its value is not used.
    by_cases single : ∃ e, f = .expression ∧ ps = [e]
    · obtain ⟨e, rfl, rfl⟩ := single
      show Behaviour.opening (.inOrder [(l.liveAt completes .statement e).runs (w.live l) false,
        .idle (w.live l).later]) =
        .opening (.inOrder [(e.runs w false).through l.repeated, .idle (w.live l).later])
      rcases ih e (by simp) completes .statement false (fun _ => rfl) with same
        | ⟨_, same⟩ <;> rw [same]
    · refine foreign.runs_partsAt w (fun i p found => ?_) s
      rcases ih p (List.mem_of_getElem? found) _ _ _ (Form.read_of_callee f ps position isWritten i)
        with same | ⟨dropped, _⟩
      · exact same
      · exact absurd (Form.expression_of_statement f ps position i dropped) single

theorem IsForeign.runs_liveAt (foreign : l.IsForeign) (n : Node) (completes : Bool)
    {position : Position} {isWritten : Bool} (read : position = .callee → isWritten = false)
    (inside : position ≠ .statement) :
    (l.liveAt completes position n).runs (w.live l) isWritten =
      (n.runs w isWritten).through l.repeated :=
  (foreign.runs_liveAt_cases w n completes position isWritten read).resolve_right fun dropped =>
    inside dropped.1

theorem IsForeign.runs_liveAt_ordinary (foreign : l.IsForeign) (n : Node)
    (completes isWritten : Bool) :
    (l.liveAt completes .ordinary n).runs (w.live l) isWritten =
      (n.runs w isWritten).through l.repeated :=
  foreign.runs_liveAt w n completes (fun callee => by cases callee) fun statement => by
    cases statement

section Deferred

theorem IsForeign.runs_partsAt_of_deferred (foreign : l.IsForeign) {f : Form}
    (deferred : f.isDeferred = true) (completes : Bool) (position : Position) (s : Option Span)
    (ps : List Node) :
    (Node.mk (f.truthful (l.partsAt completes position f ps)) s
      (l.partsAt completes position f ps)).runs (w.live l) false =
      ((Node.mk f s ps).runs w false).through l.repeated := by
  have plain : l.updatedNames? (.mk f s ps) = none ∧ l.echoes (.mk f s ps) = [] ∧
    ∀ isOptional, f ≠ .call isOptional := by
    cases f
    case function | arrow | classDef => exact ⟨rfl, rfl, fun _ same => by cases same⟩
    all_goals cases deferred
  obtain ⟨notUpdated, silent, notCall⟩ := plain
  have live := l.liveAt_other (by rintro _ _ rfl; cases deferred)
    (by rintro _ _ rfl; cases deferred) notUpdated completes .ordinary
  rw [silent, Made.exportChain, List.foldl_nil] at live
  rw [l.partsAt_of_same (Form.positionOf_of_ne_call notCall ps position), ← live]
  exact foreign.runs_liveAt_ordinary w _ completes false

theorem isDeferred_truthful (f : Form) (qs : List Node) :
    (f.truthful qs).isDeferred = f.isDeferred := by
  unfold Form.truthful
  split <;> rfl

theorem deferred_exportChain (names : List String) (n : Node) :
    (Made.exportChain names n).deferred = n.deferred := by
  induction names generalizing n with
  | nil => rfl
  | cons name names ih =>
    refine (ih (Made.exportAssignment name n)).trans ?_
    have action := Made.action_exportAssignment name n
    rw [Made.exportAssignment, Made.assign, Node.made] at action ⊢
    rw [Node.deferred_mk, action]
    exact List.append_nil _

theorem deferred_toNode (r : Redirect) : r.toNode.deferred = [] := by
  cases r with
  | binding => rfl
  | member object property =>
    rw [Redirect.toNode, Made.member]
    split <;> rfl

theorem deferred_updateExpression (op : UpdateOp) (isPrefixed : Bool) (x : String) (ref : Reference)
    (names : List String) (isDropped : Bool) :
    (updateExpression op isPrefixed x ref names isDropped).deferred = [] := by
  have chain (op : BinaryOp) : (Made.exportChain names (.made (.assign (.combined op))
      [.made (.target x ref) [], Made.number 1])).deferred = [] := deferred_exportChain ..
  simp only [updateExpression]
  split
  · exact chain _
  · rw [Node.made, Node.deferred_mk]
    show (Made.exportChain _ _).deferred ++ [] = []
    rw [chain, List.append_nil]

theorem IsForeign.deferred_liveAt (foreign : l.IsForeign) (n : Node) (completes : Bool)
    (position : Position) :
    (l.liveAt completes position n).deferred.map (·.runs (w.live l) false) =
      n.deferred.map fun g => (g.runs w false).through l.repeated := by
  induction n using Node.induction generalizing completes position with
  | step f s ps ih =>
  cases l.view (.mk f s ps) with
  | ident x ref =>
    rw [liveAt_ident]
    cases l.redirect? x ref with
    | none => rfl
    | some r =>
      dsimp only
      split
      · rw [Made.detached, Node.made, Node.deferred_mk]
        show List.map _ ([] ++ (r.toNode.deferred ++ [])) = []
        rw [deferred_toNode]
        rfl
      · rw [deferred_toNode]
        rfl
  | tagRef x ref =>
    rw [liveAt_tagRef]
    cases l.tagRedirect? x ref with
    | none => rfl
    | some r => cases r <;> rfl
  | update op isPrefixed _ x ref s' qs names exported =>
    rw [liveAt_update l exported, deferred_updateExpression]
    rfl
  | other _ _ _ notIdent notTag notUpdated =>
    have inside : ((l.partsAt completes position f ps).map Node.deferred).map
      (List.map (·.runs (w.live l) false)) =
        (ps.map Node.deferred).map (List.map fun g => (g.runs w false).through l.repeated) := by
      refine List.ext_getElem? fun i => ?_
      simp only [List.getElem?_map, partsAt, List.getElem?_mapIdx, Option.map_map]
      cases found : ps[i]? with
      | none => rfl
      | some p => exact congrArg some (ih p (List.mem_of_getElem? found) _ _)
    rw [liveAt_other l notIdent notTag notUpdated, deferred_exportChain, Node.deferred_mk,
      Node.deferred_mk, foreign.action_partsAt (·.used _) fun _ _ =>
      rfl, List.map_append, List.map_append, List.map_flatten, List.map_flatten, ← Action.used_map,
        ← Action.used_map, inside]
    -- The parts agree, and what is left is the code of the function itself.
    congr 1
    rw [isDeferred_truthful]
    split
    · next deferred =>
        exact congrArg (fun k => [k]) (foreign.runs_partsAt_of_deferred w deferred completes
          position s ps)
    · rfl

theorem IsForeign.setting_live (foreign : l.IsForeign) (ofBool : Bool → V) (program : Node)
    (completes : Bool) (depth : Nat) :
    (program.live l completes).setting ofBool depth = (program.setting ofBool depth).live l := by
  induction depth with
  | zero => exact congrArg (Setting.mk · ofBool) rewritten_zero.symm
  | succ depth ih =>
    refine congrArg (Setting.mk · ofBool) ?_
    have same := foreign.deferred_liveAt (program.setting ofBool depth) program completes .ordinary
    rw [← ih] at same
    refine (congrArg Behaviour.anyOf same).trans ?_
    rw [← Function.comp_def, ← List.map_map]
    exact Behaviour.anyOf_through _

theorem IsForeign.runsAt_live (foreign : l.IsForeign) (ofBool : Bool → V) (program : Node)
    (completes : Bool) (depth : Nat) :
    (program.live l completes).runsAt ofBool depth = (program.runsAt ofBool depth).through
      l.repeated := by
  rw [Node.runsAt, foreign.setting_live]
  show (l.liveAt completes .ordinary program).runs _ false = _
  exact foreign.runs_liveAt_ordinary _ program completes false

end Deferred

end LiveBindings

end ModuleLowering
