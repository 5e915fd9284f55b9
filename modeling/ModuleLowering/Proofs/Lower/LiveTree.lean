import ModuleLowering.Lower.Live
import ModuleLowering.Proofs.Tree

/-!
What the live pass makes of a single node. How a node is treated depends on where it stands: an
update that is a statement need not give its old value, and a callee must not become a method.
-/

set_option autoImplicit false

namespace ModuleLowering

inductive Position where
  | ordinary
  /-- It is all of a statement. -/
  | statement
  /-- It is what a call calls. -/
  | callee
  /-- It is all of an optional chain. -/
  | chained
  deriving DecidableEq, Repr

def Form.positionOf (f : Form) (ps : List Node) (position : Position) (i : Nat) : Position :=
  match f, ps with
  | .expression, [_] => .statement
  | .call _, _ => if i = 0 ∧ position ≠ .chained then .callee else .ordinary
  | .chain, [_] => .chained
  | _, _ => .ordinary

/-- The forms of the nodes that the pass replaces, and of those that it puts in their place. -/
def Form.isRemade : Form → Bool
  | .ident .. | .member _ | .index _ | .sequence | .assign _ | .update .. | .tagRef ..
  | .tagMember => true
  | _ => false

def Node.target? : Node → Option (String × Reference)
  | .mk (.target x ref) _ _ => some (x, ref)
  | _ => none

def UpdateOp.forward : UpdateOp → BinaryOp
  | .increment => .add
  | .decrement => .subtract

def UpdateOp.backward : UpdateOp → BinaryOp
  | .increment => .subtract
  | .decrement => .add

theorem LiveBindings.updateExpression_eq (op : UpdateOp) (isPrefixed : Bool) (x : String)
    (ref : Reference) (names : List String) (isDropped : Bool) :
    updateExpression op isPrefixed x ref names isDropped =
      let echo := Made.exportChain names
        (.made (.assign (.combined op.forward)) [.made (.target x ref) [], Made.number 1])
      if isDropped || isPrefixed then echo
      else .made .sequence [echo, .made (.binary op.backward) [.made (.ident x ref) [],
        Made.number 1]] := by
  cases op <;> rfl

namespace LiveBindings

variable (l : LiveBindings)

def liveAt (completes : Bool) (position : Position) (n : Node) : Node :=
  match position with
  | .ordinary => n.live l completes
  | .statement => (l.update? n (!completes)).getD (n.live l completes)
  | .callee => match l.calleeRedirect? n with
    | some r => Made.detached r.toNode
    | none => n.live l completes
  | .chained => match n with
    | .mk (.call isOptional) s ps =>
      .mk (.call isOptional) s (Node.liveParts l completes (.call isOptional) 0 ps)
    | n => n.live l completes

def partsAt (completes : Bool) (position : Position) (f : Form) (ps : List Node) : List Node :=
  ps.mapIdx fun i p => l.liveAt (f.completes completes ps.length i) (f.positionOf ps position i) p

theorem liveParts_eq_mapIdx (completes : Bool) (f : Form) (i : Nat) (ps : List Node) :
    Node.liveParts l completes f i ps = ps.mapIdx fun j p =>
      p.live l (f.completes completes (i + ps.length) (i + j)) := by
  induction ps generalizing i with
  | nil => rfl
  | cons p ps ih =>
    rw [Node.liveParts, ih, List.mapIdx_cons]
    simp only [List.length_cons, Nat.add_zero, Nat.add_assoc, Nat.add_comm 1]

def echoes (n : Node) : List String :=
  match n with
  | .mk (.assign _) _ [t, _] => (t.target?.bind fun (x, ref) => l.exportedNames? x ref).getD []
  | _ => []

theorem partsAt_of_ordinary {f : Form} {ps : List Node} {position : Position}
    (ordinary : ∀ i, f.positionOf ps position i = .ordinary) (completes : Bool) :
    l.partsAt completes position f ps = Node.liveParts l completes f 0 ps := by
  simp only [partsAt, liveParts_eq_mapIdx, Nat.zero_add, ordinary, liveAt]

theorem partsAt_eq_map {f : Form} {ps : List Node} {position : Position} {completes : Bool}
    (ordinary : ∀ i, f.positionOf ps position i = .ordinary)
    (alike : ∀ count i, f.completes completes count i = completes) :
    l.partsAt completes position f ps = ps.map (Node.live l completes) := by
  rw [partsAt_of_ordinary l ordinary, liveParts_eq_mapIdx]
  exact List.ext_getElem? fun i => by simp [alike]

theorem liveAt_ident (completes : Bool) (position : Position) (x : String) (ref : Reference)
    (s : Option Span) (ps : List Node) :
    l.liveAt completes position (.mk (.ident x ref) s ps) =
      match l.redirect? x ref with
      | some r => if position = .callee then Made.detached r.toNode else r.toNode
      | none => .mk (.ident x ref) s ps := by
  cases position <;> simp only [liveAt, Node.live, update?, calleeRedirect?, Option.getD_none] <;>
    cases l.redirect? x ref <;> rfl

theorem liveAt_tagRef (completes : Bool) (position : Position) (x : String) (ref : Reference)
    (s : Option Span) (ps : List Node) :
    l.liveAt completes position (.mk (.tagRef x ref) s ps) =
      match l.tagRedirect? x ref with
      | some r => tagNode r
      | none => .mk (.tagRef x ref) s ps := by
  cases position <;> rfl

def updatedNames? (n : Node) : Option (List String) :=
  match n with
  | .mk (.update ..) _ [.mk (.target x ref) _ _] => l.exportedNames? x ref
  | _ => none

theorem update?_eq_none {n : Node} {isDropped : Bool} : l.update? n isDropped = none ↔
    l.updatedNames? n = none := by
  unfold update? updatedNames?
  split <;> simp

theorem liveAt_update {x : String} {ref : Reference} {names : List String}
    (exported : l.exportedNames? x ref = some names) (completes : Bool) (position : Position)
    (op : UpdateOp) (isPrefixed : Bool) (s s' : Option Span) (ps : List Node) :
    l.liveAt completes position (.mk (.update op isPrefixed) s [.mk (.target x ref) s' ps]) =
      updateExpression op isPrefixed x ref names (position = .statement && !completes) := by
  cases position <;> simp [liveAt, Node.live, update?, calleeRedirect?, exported]

theorem live_eq_echoed {f : Form} {s : Option Span} {ps : List Node}
    (notIdent : ∀ x ref, f ≠ .ident x ref) (notTag : ∀ x ref, f ≠ .tagRef x ref)
    (notUpdated : l.updatedNames? (.mk f s ps) = none) (completes : Bool) :
    (Node.mk f s ps).live l completes =
      l.echoed (.mk (f.truthful (l.partsAt completes .ordinary f ps)) s
      (l.partsAt completes .ordinary f ps)) := by
  cases f
  case ident x ref => exact absurd rfl (notIdent x ref)
  case tagRef x ref => exact absurd rfl (notTag x ref)
  case call isOptional =>
    cases ps with
    | nil => rfl
    | cons callee args =>
      simp only [Node.live, liveParts_eq_mapIdx, partsAt, List.mapIdx_cons]
      cases h : l.calleeRedirect? callee <;> simp [liveAt, Form.positionOf, h, Nat.add_comm 1] <;>
        rfl
  case chain =>
    match ps with
    | [] => rfl
    | [.mk f' s' ps'] => cases f' <;> rfl
    | .mk f' s' ps' :: _ :: _ =>
      rw [partsAt_of_ordinary l (fun _ => rfl)]
      cases f' <;> rfl
  case update op isPrefixed =>
    rw [partsAt_of_ordinary l (fun _ => rfl)]
    simp only [Node.live, (l.update?_eq_none).mpr notUpdated]
    rfl
  case expression =>
    match ps with
    | [] => rfl
    | [e] =>
      simp only [Node.live]
      cases h : l.update? e (!completes) <;>
        simp [partsAt, liveAt, Form.positionOf, Form.completes, h] <;> rfl
    | _ :: _ :: _ =>
      rw [partsAt_of_ordinary l (fun _ => rfl)]
      rfl
  case assign op =>
    rw [partsAt_of_ordinary l (fun _ => rfl)]
    rfl
  case property =>
    rw [partsAt_of_ordinary l (fun _ => rfl)]
    simp only [Node.live, Form.truthful]
    split <;> rfl
  all_goals
    rw [partsAt_of_ordinary l (fun _ => rfl)]
    rfl

theorem partsAt_of_same {position : Position} {f : Form} {ps : List Node}
    (same : ∀ i, f.positionOf ps position i = f.positionOf ps .ordinary i) (completes : Bool) :
    l.partsAt completes position f ps = l.partsAt completes .ordinary f ps := by
  simp only [partsAt, same]

end LiveBindings

theorem Form.positionOf_of_ne_chained {position : Position} (other : position ≠ .chained) (f : Form)
    (ps : List Node) (i : Nat) : f.positionOf ps position i = f.positionOf ps .ordinary i := by
  unfold positionOf
  split <;> simp [other]

theorem Form.positionOf_of_ne_call {f : Form} (other : ∀ isOptional, f ≠ .call isOptional)
    (ps : List Node) (position : Position) (i : Nat) :
    f.positionOf ps position i = f.positionOf ps .ordinary i := by
  unfold positionOf
  split
  · rfl
  · exact absurd rfl (other _)
  · rfl
  · rfl

namespace LiveBindings

variable (l : LiveBindings)

theorem liveAt_eq_echoed {f : Form} {s : Option Span} {ps : List Node}
    (notIdent : ∀ x ref, f ≠ .ident x ref) (notTag : ∀ x ref, f ≠ .tagRef x ref)
    (notUpdated : l.updatedNames? (.mk f s ps) = none) (completes : Bool) (position : Position) :
    l.liveAt completes position (.mk f s ps) =
      l.echoed (.mk (f.truthful (l.partsAt completes position f ps)) s
      (l.partsAt completes position f ps)) := by
  have live := l.live_eq_echoed notIdent notTag notUpdated completes
  cases position with
  | ordinary => exact live
  | statement =>
    rw [partsAt_of_same l (Form.positionOf_of_ne_chained (by decide) f ps), ← live, liveAt,
      (l.update?_eq_none).mpr notUpdated, Option.getD_none]
  | callee =>
    have unnamed : l.calleeRedirect? (.mk f s ps) = none := by
      unfold calleeRedirect?
      split
      · next eq => exact absurd (Node.mk.inj eq).1 (notIdent _ _)
      · rfl
    rw [partsAt_of_same l (Form.positionOf_of_ne_chained (by decide) f ps), ← live, liveAt, unnamed]
  | chained =>
    by_cases call : ∃ isOptional, f = .call isOptional
    · obtain ⟨isOptional, rfl⟩ := call
      rw [partsAt_of_ordinary l (fun i => by simp [Form.positionOf])]
      rfl
    · have other : ∀ isOptional, f ≠ .call isOptional := fun isOptional eq => call ⟨isOptional, eq⟩
      rw [partsAt_of_same l (Form.positionOf_of_ne_call other ps _), ← live, liveAt]
      exact fun isOptional _ _ eq => other isOptional (Node.mk.inj eq).1

theorem echoed_eq_exportChain (n : Node) : l.echoed n = Made.exportChain (l.echoes n) n := by
  unfold echoed
  split
  · next x ref _ _ _ =>
      cases h : l.exportedNames? x ref <;> simp [echoes, Node.target?, h, Made.exportChain]
  · next other =>
    have silent : l.echoes n = [] := by
      unfold echoes
      split
      · next t e =>
        have plain : t.target? = none := by
          unfold Node.target?
          split
          · exact absurd rfl (other _ _ _ _ _ _ _)
          · rfl
        rw [plain]
        rfl
      · rfl
    rw [silent]
    rfl

theorem isRemade_exportChain (names : List String) {n : Node} (remade : n.form.isRemade = true) :
    (Made.exportChain names n).form.isRemade = true := by
  induction names generalizing n with
  | nil => exact remade
  | cons name names ih => exact ih rfl

theorem isRemade_toNode (r : Redirect) : r.toNode.form.isRemade = true := by
  cases r with
  | binding => rfl
  | member object property =>
    simp only [Redirect.toNode, Made.member]
    split <;> rfl

inductive View : Node → Prop
  | ident (x : String) (ref : Reference) (s : Option Span) (ps : List Node) :
    View (.mk (.ident x ref) s ps)
  | tagRef (x : String) (ref : Reference) (s : Option Span) (ps : List Node) :
    View (.mk (.tagRef x ref) s ps)
  | update (op : UpdateOp) (isPrefixed : Bool) (s : Option Span) (x : String) (ref : Reference)
    (s' : Option Span) (ps : List Node) (names : List String)
    (exported : l.exportedNames? x ref = some names) :
    View (.mk (.update op isPrefixed) s [.mk (.target x ref) s' ps])
  | other (f : Form) (s : Option Span) (ps : List Node) (notIdent : ∀ x ref, f ≠ .ident x ref)
    (notTag : ∀ x ref, f ≠ .tagRef x ref) (notUpdated : l.updatedNames? (.mk f s ps) = none) :
    View (.mk f s ps)

theorem view (n : Node) : l.View n := by
  obtain ⟨f, s, ps⟩ := n
  cases updated : l.updatedNames? (.mk f s ps) with
  | some names =>
    unfold updatedNames? at updated
    split at updated
    · next eq => exact eq ▸ .update _ _ _ _ _ _ _ names updated
    · cases updated
  | none =>
    cases f
    case ident x ref => exact .ident x ref s ps
    case tagRef x ref => exact .tagRef x ref s ps
    all_goals exact .other _ s ps (by simp) (by simp) updated

theorem form_liveAt_cases (completes : Bool) (position : Position) (n : Node) :
    n.form.isRemade = true ∧ (l.liveAt completes position n).form.isRemade = true ∨
    ∃ qs, (l.liveAt completes position n).form = n.form.truthful qs := by
  cases l.view n with
  | ident x ref s ps =>
    refine .inl ⟨rfl, ?_⟩
    rw [liveAt_ident]
    cases l.redirect? x ref with
    | none => rfl
    | some r =>
      dsimp only
      split
      · rfl
      · exact isRemade_toNode r
  | tagRef x ref s ps =>
    refine .inl ⟨rfl, ?_⟩
    rw [liveAt_tagRef]
    cases l.tagRedirect? x ref with
    | none => rfl
    | some r => cases r <;> rfl
  | update op isPrefixed s x ref s' ps names exported =>
    refine .inl ⟨rfl, ?_⟩
    rw [liveAt_update l exported, updateExpression_eq]
    dsimp only
    split
    · exact isRemade_exportChain names rfl
    · rfl
  | other f s ps notIdent notTag notUpdated =>
    rw [liveAt_eq_echoed l notIdent notTag notUpdated, echoed_eq_exportChain]
    cases f
    case assign op => exact .inl ⟨rfl, isRemade_exportChain _ rfl⟩
    -- The mark of a property depends on its parts, but not whether its key is computed.
    case property isMarked isComputed =>
      generalize l.partsAt completes position (.property isMarked isComputed) ps = qs
      obtain ⟨isMarked', same⟩ : ∃ m, (Form.property isMarked isComputed).truthful qs = .property m
        isComputed := by
        unfold Form.truthful
        split
        · next eq => exact ⟨_, by rw [(Form.property.inj eq).2]⟩
        · exact ⟨_, rfl⟩
      rw [same]
      exact .inr ⟨qs, same.symm⟩
    all_goals exact .inr ⟨[], rfl⟩

/-- What such forms have in common, and what does not depend on how a property is marked, stays as
it is. -/
theorem form_liveAt_eq {β : Type} (g : Form → β) (d : β) (remade : ∀ f, f.isRemade = true → g f = d)
    (marked : ∀ a b isComputed, g (.property a isComputed) = g (.property b isComputed))
    (completes : Bool) (position : Position) (n : Node) :
    g (l.liveAt completes position n).form = g n.form := by
  rcases l.form_liveAt_cases completes position n with ⟨before, after⟩ | ⟨qs, through⟩
  · rw [remade _ before, remade _ after]
  · rw [through]
    unfold Form.truthful
    split
    · next form => exact form ▸ marked ..
    · rfl

theorem target?_eq (n : Node) : n.target? = (Node.mk n.form none []).target? := by
  obtain ⟨f, s, ps⟩ := n
  cases f <;> rfl

theorem target?_of_isRemade (f : Form) (remade : f.isRemade = true) :
    (Node.mk f none []).target? = none := by
  cases f <;> first | rfl | cases remade

theorem target?_liveAt (completes : Bool) (position : Position) (n : Node) :
    (l.liveAt completes position n).target? = n.target? := by
  rw [target?_eq, target?_eq n]
  exact l.form_liveAt_eq (fun f => (Node.mk f none []).target?) none target?_of_isRemade
    (fun _ _ _ => rfl) ..

theorem echoes_partsAt (completes : Bool) (position : Position) (f : Form) (s : Option Span)
    (ps : List Node) :
    l.echoes (.mk (f.truthful (l.partsAt completes position f ps)) s
      (l.partsAt completes position f ps)) =
      l.echoes (.mk f s ps) := by
  cases f
  case assign op =>
    match ps with
    | [] | [_] => rfl
    | [t, e] => simp [partsAt, Form.truthful, echoes, target?_liveAt]
    | _ :: _ :: _ :: _ => simp [partsAt, List.mapIdx_cons, Form.truthful, echoes]
  case property =>
    simp only [Form.truthful]
    split <;> rfl
  all_goals rfl

/-- What the pass makes of a node that it goes through: its parts are put in their places, and an
assignment to an exported variable is repeated. -/
theorem liveAt_other {f : Form} {s : Option Span} {ps : List Node}
    (notIdent : ∀ x ref, f ≠ .ident x ref) (notTag : ∀ x ref, f ≠ .tagRef x ref)
    (notUpdated : l.updatedNames? (.mk f s ps) = none) (completes : Bool) (position : Position) :
    l.liveAt completes position (.mk f s ps) = Made.exportChain (l.echoes (.mk f s ps))
      (.mk (f.truthful (l.partsAt completes position f ps)) s
      (l.partsAt completes position f ps)) := by
  rw [liveAt_eq_echoed l notIdent notTag notUpdated, echoed_eq_exportChain, echoes_partsAt]

-- With nothing exported there is nothing to repeat.
section Silent

variable {l}
variable (silent : l.exports.entries = [])
include silent

theorem exportedNames?_of_silent (x : String) (ref : Reference) :
    l.exportedNames? x ref = none := by
  simp [exportedNames?, OrderedMap.get?, silent]

theorem updatedNames?_of_silent (n : Node) : l.updatedNames? n = none := by
  unfold updatedNames?
  split
  · exact exportedNames?_of_silent silent _ _
  · rfl

theorem echoes_of_silent (n : Node) : l.echoes n = [] := by
  unfold echoes
  split
  · simp [exportedNames?_of_silent silent]
  · rfl

end Silent

end LiveBindings

end ModuleLowering
