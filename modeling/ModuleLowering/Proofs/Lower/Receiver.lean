import ModuleLowering.Proofs.Lower.LoweredItem

/-!
What imported functions are called on. A call of a plain name is taken off the module that the name
comes from; where the name is invoked in another way, it becomes a property of the module and is
called on it.
-/

set_option autoImplicit false

namespace ModuleLowering

namespace Node

def erased : Node → Node
  | .mk .nonNull _ [e] | .mk .asType _ [e, _] | .mk .satisfiesType _
    [e, _] | .mk .typeAssertion _ [_, e]
  | .mk .instantiation _ [e, _] => e.erased
  | n => n
termination_by structural n => n

def invoked? : Node → Option Node
  | .mk (.call _) _ (callee :: _) => some callee
  | .mk .tagged _ (tag :: _) => some tag
  | _ => none

def owner? : Node → Option Node
  | .mk (.member _) _ [object, _] | .mk (.index _) _ [object, _] => some object
  | _ => none

def receiver? (n : Node) : Option Node := n.erased.owner?

def isPlainName (n : Node) : Bool := n.form matches .ident ..

def callsByName (position : Position) : Node → Bool
  | .mk (.call _) _ (callee :: _) => position ≠ .chained && callee.isPlainName
  | _ => false

theorem exists_of_invoked? {p callee : Node} (invoked : p.invoked? = some callee) :
    ∃ f s ps, p = .mk f s (callee :: ps) ∧ ((∃ isOptional, f = .call isOptional) ∨
      f = .tagged) := by
  unfold invoked? at invoked
  split at invoked <;> cases invoked
  · exact ⟨_, _, _, rfl, .inl ⟨_, rfl⟩⟩
  · exact ⟨_, _, _, rfl, .inr rfl⟩

theorem callsByName_iff {p callee : Node} (invoked : p.invoked? = some callee)
    (position : Position) :
    p.callsByName position = true ↔
      p.form.positionOf p.parts position 0 = .callee ∧ callee.isPlainName = true := by
  obtain ⟨f, s, ps, rfl, ⟨isOptional, rfl⟩ | rfl⟩ := exists_of_invoked? invoked
  · simp [callsByName, Form.positionOf, form]
  · simp [callsByName, Form.positionOf, form]

end Node

theorem Redirect.erased_toNode (r : Redirect) : r.toNode.erased = r.toNode := by
  cases r with
  | binding => rfl
  | member object property =>
    simp only [toNode, Made.member]
    split <;> rfl

theorem Made.owner?_member (object : Node) (property : String) :
    (member object property).owner? = some object := by
  unfold member
  split <;> rfl

namespace LiveBindings

variable (l : LiveBindings)

theorem liveAt_typed {f : Form}
    (typed : f ∈ [Form.nonNull, .asType, .satisfiesType, .typeAssertion, .instantiation])
    (s : Option Span) (ps : List Node) (completes : Bool) (position : Position) :
    l.liveAt completes position (.mk f s ps) = .mk f s (ps.map (l.liveAt completes .ordinary)) := by
  simp only [List.mem_cons, List.not_mem_nil, or_false] at typed
  rcases typed with rfl | rfl | rfl | rfl | rfl
  all_goals
    rw [liveAt_other l (by simp) (by simp) rfl, partsAt_of_ordinary l (fun _ => rfl),
      liveParts_eq_mapIdx]
    exact congrArg (Node.mk _ s) (List.mapIdx_eq_iff.mpr fun i => List.getElem?_map ..)

section Redirected

variable {n : Node} {x : String} {ref : Reference} {r : Redirect}
    (named : n.erased.form = .ident x ref)
  (redirected : l.redirect? x ref = some r)
include named redirected

theorem liveAt_of_isPlainName (plain : n.isPlainName = true) (completes : Bool) :
    l.liveAt completes .callee n = Made.detached r.toNode := by
  obtain ⟨f, s, ps⟩ := n
  cases f
  case ident =>
    cases named
    rw [liveAt_ident, redirected]
    rfl
  all_goals cases plain

theorem erased_liveAt (completes : Bool) (position : Position)
    (other : ¬ (position = .callee ∧ n.isPlainName = true)) :
    (l.liveAt completes position n).erased = r.toNode := by
  fun_induction Node.erased n generalizing completes position
  case case1 ih | case2 ih | case3 ih | case4 ih | case5 ih =>
    rw [l.liveAt_typed (by simp)]
    exact ih named completes .ordinary (by simp)
  case case6 n _ _ _ _ _ =>
    obtain ⟨f, s, ps⟩ := n
    cases named
    have elsewhere : position ≠ .callee := fun called => other ⟨called, rfl⟩
    rw [liveAt_ident, redirected]
    dsimp only
    rw [if_neg elsewhere, r.erased_toNode]

end Redirected

theorem at?_place_invoked {n : Node} {way : List Nat} {p callee : Node} (found : n.at? way = some p)
    (invoked : p.invoked? = some callee) (completes : Bool) :
    ∃ q completes', (n.live l completes).at? (l.place completes .ordinary n way) = some q ∧
      q.form = p.form ∧
      q.invoked? =
        some (l.liveAt completes' (p.form.positionOf p.parts (n.positionAt .ordinary way) 0)
        callee) := by
  obtain ⟨f, s, ps, rfl, invokes⟩ := Node.exists_of_invoked? invoked
  rcases l.at?_place found completes .ordinary with ⟨completes', here⟩ | ⟨x, ref, names, form, -⟩
  · rcases invokes with ⟨isOptional, rfl⟩ | rfl
    all_goals
      refine ⟨_, completes', here, ?_⟩
      rw [liveAt_other l (by simp) (by simp) rfl, partsAt, List.mapIdx_cons]
      exact ⟨rfl, rfl⟩
  · rcases invokes with ⟨isOptional, rfl⟩ | rfl <;> cases form

end LiveBindings

namespace Module

variable {m : Module} {options : Options} {hints : Hints} {r : Draft}

theorem lowered_program {x : String} {ref : Reference} {target : Redirect}
    (redirected : (m.liveBindings r).redirect? x ref = some target) :
    (m.lowered r).program = (m.assembled r).program.live (m.liveBindings r) true := by
  have some : r.redirects.isEmpty = false :=
    OrderedMap.isEmpty_of_get? (Option.filter_eq_some_iff.mp redirected).1
  rw [lowered, makeLive_eq, some]
  rfl

theorem Consistent.redirected_to_require (consistent : m.Consistent)
    (drafted : m.draft options hints = .ok r) {x : String} {ref : Reference} {target : Redirect}
    (redirected : (m.liveBindings r).redirect? x ref = some target) :
    ∃ path span, (Item.requireBinding target.object path span).toNode ∈ (m.lowered r).statements ∧
      (m.lowered r).program.DeclaresOnce .varName target.object := by
  have listed : (x, target) ∈ r.redirects.entries :=
    OrderedMap.mem_of_get? (Option.filter_eq_some_iff.mp redirected).1
  obtain ⟨path, required⟩ :=
    (placed_of_draft drafted).exists_of_redirected (consistent.sound drafted) listed
  obtain ⟨span, among⟩ := (consistent.sound drafted).exists_requireBinding required
  exact ⟨path, span, consistent.declaresOnce drafted among rfl⟩

/-- Wherever an import is invoked, by a call or as the tag of a template, the pass replaces it by a
property of the variable that holds its module. Only where a call names the import and is not all of
an optional chain is the property taken off the variable first; elsewhere it is called on it. -/
theorem invoked_import_receiver (s : Original) (wellFormed : s.program.isWellFormed = true)
    (options : Options) (hints : Hints) :
    let m := s.analysed
    ∀ r, m.draft options hints = .ok r → ∀ way p callee, (m.assembled r).program.at? way = some p →
      p.invoked? = some callee → ∀ x ref object property, callee.erased.form = .ident x ref →
      (m.liveBindings r).redirect? x ref = some (.member object property) →
      (∃ path span', (Item.requireBinding object path span').toNode ∈ (m.lowered r).statements ∧
        (m.lowered r).program.DeclaresOnce .varName object) ∧
      ∃ q callee', (m.lowered r).program.at? ((m.liveBindings r).place true .ordinary
        (m.assembled r).program way) = some q ∧
        q.form = p.form ∧ q.invoked? = some callee' ∧
        (p.callsByName ((m.assembled r).program.positionAt .ordinary way) = true →
          callee' = Made.detached (Made.member (Made.ident object) property) ∧
            callee'.receiver? = none) ∧
        (p.callsByName ((m.assembled r).program.positionAt .ordinary way) = false →
          callee'.erased = Made.member (Made.ident object) property ∧
          callee'.receiver? = some (Made.ident object)) := by
  intro m r drafted way p callee found invoked x ref object property named redirected
  have consistent : m.Consistent := Original.consistent wellFormed
  constructor
  · exact consistent.redirected_to_require drafted redirected
  · obtain ⟨q, completes, here, form, invokes⟩ :=
      (m.liveBindings r).at?_place_invoked found invoked true
    refine ⟨q, _, (lowered_program redirected).symm ▸ here, form, invokes, ?_⟩
    have byName := Node.callsByName_iff invoked ((m.assembled r).program.positionAt .ordinary way)
    constructor
    · intro called
      obtain ⟨position, plain⟩ := byName.mp called
      rw [position, (m.liveBindings r).liveAt_of_isPlainName named redirected plain]
      exact ⟨rfl, rfl⟩
    · intro other
      have erased := (m.liveBindings r).erased_liveAt named redirected completes _ fun called =>
        Bool.eq_false_iff.mp other (byName.mpr called)
      refine ⟨erased, ?_⟩
      rw [Node.receiver?, erased]
      exact Made.owner?_member _ _

section Example

/-- `import { f } from "m"; f(); f?.(); f!();` and a template that `f` tags. -/
def invokingStatements : List Node :=
  let f := Made.ident "f"
  [.made (.importDecl false false "m")
    [.made (.importNamed false) [Made.word "f", .made (.binder "f" none) []], .absent],
   .made .expression [Made.call f []],
   .made .expression [.made .chain [.made (.call true) [f, .absent]]],
   .made .expression [Made.call (.made .nonNull [f]) []],
   .made .expression [.made .tagged [f, .absent, .made (.template [""]) []]]]

def invoking : Module := .analyse true (.mk (.program none []) none invokingStatements)

/-- The places of the invocations, behind the module's variable and the import's own. -/
def invocations : List (List Nat) := [[2, 0], [3, 0, 0], [4, 0], [5, 0]]

def invocation? (n : Node) (way : List Nat) : Option (Form × Bool) :=
  (n.at? way).bind fun p => p.invoked?.map fun callee =>
    (callee.erased.form, p.callsByName (n.positionAt .ordinary way))

theorem exists_draft_invoking : ∃ r, invoking.draft .default .none = .ok r ∧
    (∀ way ∈ invocations, invocation? (invoking.assembled r).program way =
      some (.ident "f" (.symbol ⟨[], "f"⟩), decide (way = [2, 0]))) ∧
    (invoking.liveBindings r).redirect? "f" (.symbol ⟨[], "f"⟩) = some (.member "_m" "f") := by
  obtain ⟨r, drafted, computed⟩ := invoking.exists_draft .default .none
    (fun r : Draft => decide ((∀ way ∈ invocations,
      invocation? (invoking.renamed.withStatements (r.unarranged.map Item.toNode)).program way =
        some (.ident "f" (.symbol ⟨[], "f"⟩), decide (way = [2, 0]))) ∧
      (invoking.liveBindings r).redirect? "f" (.symbol ⟨[], "f"⟩) = some (.member "_m" "f")))
      (by decide +kernel)
  obtain ⟨invoked, redirected⟩ := of_decide_eq_true computed
  rw [← (placed_of_draft drafted).items_eq] at invoked
  exact ⟨r, drafted, invoked, redirected⟩

theorem invoked_import_receiver_invoking : ∃ r, invoking.draft .default .none = .ok r ∧
    ∀ way ∈ invocations, ∃ q callee,
      (invoking.lowered r).program.at?
        ((invoking.liveBindings r).place true .ordinary (invoking.assembled r).program way) =
        some q ∧ q.invoked? = some callee ∧
      callee.receiver? = if way = [2, 0] then none else some (Made.ident "_m") := by
  obtain ⟨r, drafted, invoked, redirected⟩ := exists_draft_invoking
  refine ⟨r, drafted, fun way among => ?_⟩
  obtain ⟨p, found, here⟩ := Option.bind_eq_some_iff.mp (invoked way among)
  obtain ⟨callee, invokes, eq⟩ := Option.map_eq_some_iff.mp here
  obtain ⟨named, byName⟩ := Prod.mk.inj eq
  obtain ⟨-, q, callee', there, -, invokes', detached, called⟩ :=
    invoked_import_receiver ⟨true, none, [], none, invokingStatements⟩ (by decide +kernel) .default
      .none r drafted way p callee found invokes "f" _ "_m" "f" named redirected
  refine ⟨q, callee', there, invokes', ?_⟩
  by_cases first : way = [2, 0]
  · rw [if_pos first]
    exact (detached (byName.trans (decide_eq_true first))).2
  · rw [if_neg first]
    exact (called (byName.trans (decide_eq_false first))).2

end Example

end Module

end ModuleLowering
