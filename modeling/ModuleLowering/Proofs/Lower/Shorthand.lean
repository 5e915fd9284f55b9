import ModuleLowering.Proofs.Lower.PropertyKey
import ModuleLowering.Proofs.Lower.RequireBinding
import ModuleLowering.Proofs.Lower.Selection

/-!
Properties that are written as one name, when names become live. Where the name becomes something
else than a name, the key is written out. Where it becomes the variable of a module it is not,
although that has a name of its own.
-/

set_option autoImplicit false

namespace ModuleLowering

/-- What has a key in an object literal: properties, methods, getters and setters. -/
def Form.isProperty : Form → Bool
  | .property .. | .accessor .. => true
  | _ => false

theorem Form.isProperty_isPassedOver : IsPassedOver isProperty where
  other f rewritten := by cases f <;> first | rfl | cases rewritten
  stable f ps := by
    unfold truthful
    split <;> rfl

def PropertyKey.live (l : LiveBindings) (completes : Bool) : PropertyKey → PropertyKey
  | .literal form => .literal form
  | .computed e => .computed (e.live l completes)

namespace Node

def properties (n : Node) : List Node := n.select Form.isProperty

def ownKey? : Node → Option PropertyKey
  | .mk (.property _ isComputed) _ [k, _] | .mk (.accessor _ isComputed) _ (k :: _) =>
    k.writtenKey? isComputed
  | _ => none

def isMarked : Node → Bool
  | .mk (.property isMarked _) _ _ => isMarked
  | _ => false

/-- If a property is marked as written by one name, then its value is a read of the name that is its
key. -/
def isTrueShorthand : Node → Bool
  | .mk (.property true _) _ [.mk (.word key) _ _, .mk (.ident x _) _ _] => key == x
  | n => !n.isMarked

end Node

/-- A property that is written as one name, which becomes the variable of a module with another
name. -/
def LiveBindings.misnames (l : LiveBindings) : Node → Bool
  | .mk (.property true _) _ [_, .mk (.ident x ref) _ _] =>
    match l.redirect? x ref with
    | some (.binding b) => b != x
    | _ => false
  | _ => false

namespace Node

theorem cases_of_isTrueShorthand {e : Node} (plain : e.isTrueShorthand = true) :
    e.isMarked = false ∨ ∃ isComputed s x sk ks ref sv vs, e = .mk (.property true isComputed) s
      [.mk (.word x) sk ks, .mk (.ident x ref) sv vs] := by
  unfold isTrueShorthand at plain
  split at plain
  · next isComputed s key sk ks x ref sv vs =>
    obtain rfl := eq_of_beq plain
    exact .inr ⟨isComputed, s, key, sk, ks, ref, sv, vs, rfl⟩
  · exact .inl (by simpa using plain)

theorem isTrueShorthand_of_unmarked {e : Node} (unmarked : e.isMarked = false) :
    e.isTrueShorthand = true := by
  unfold isTrueShorthand
  split
  · cases unmarked
  · rw [unmarked]
    rfl

theorem isTruthful_property {isMarked isComputed : Bool} {s : Option Span} {ps : List Node}
    (plain : (mk (.property isMarked isComputed) s ps).isTrueShorthand = true) :
    (mk (.property isMarked isComputed) s ps).IsTruthful := by
  rcases cases_of_isTrueShorthand plain with unmarked
    | ⟨isComputed, s, x, sk, ks, ref, sv, vs, eq⟩
  · obtain rfl : isMarked = false := unmarked
    trivial
  · rw [eq]
    exact rfl

theorem propertyKey?_of_isTrueShorthand {e : Node} (property : e.form.isProperty = true)
    (plain : e.isTrueShorthand = true) :
    e.propertyKey? = e.ownKey? := by
  obtain ⟨f, s, ps⟩ := e
  cases f
  case property isMarked isComputed =>
    rcases ps with _ | ⟨k, _ | ⟨value, _ | ⟨p, ps⟩⟩⟩
    case cons.cons.nil => exact propertyKey?_property (isTruthful_property plain)
    all_goals rfl
  case accessor => cases ps <;> rfl
  all_goals cases property

end Node

namespace LiveBindings

variable (l : LiveBindings)

theorem isKey_liveAt (completes : Bool) (position : Position) (n : Node) :
    (l.liveAt completes position n).form.isKey = n.form.isKey := by
  refine l.form_liveAt_eq Form.isKey false (fun f remade => ?_) (fun _ _ _ => rfl)
    completes position n
  cases f <;> first | rfl | cases remade

theorem form_live_of_isKey {k : Node} (key : k.form.isKey = true) (completes : Bool) :
    (k.live l completes).form = k.form := by
  obtain ⟨f, s, ps⟩ := k
  cases f
  case word | privateWord | string | number | bigint => rfl
  all_goals cases key

theorem writtenKey?_live (k : Node) (completes isComputed : Bool) :
    (k.live l completes).writtenKey? isComputed = (k.writtenKey? isComputed).map
      (PropertyKey.live l completes) := by
  have same : (k.live l completes).form.isKey = k.form.isKey := l.isKey_liveAt completes .ordinary k
  unfold Node.writtenKey?
  rw [same]
  cases isComputed with
  | true => rfl
  | false =>
    by_cases key : k.form.isKey = true
    · rw [l.form_live_of_isKey key, key]
      rfl
    · simp [key]

theorem liveAt_property {f : Form} (property : f.isProperty = true) (completes : Bool)
    (position : Position) (s : Option Span) (ps : List Node) :
    l.liveAt completes position (.mk f s ps) =
      .mk (f.truthful (ps.map (Node.live l completes))) s (ps.map (Node.live l completes)) := by
  cases f
  case property | accessor =>
    rw [l.liveAt_other (by simp) (by simp) rfl, l.partsAt_eq_map (fun _ => rfl) fun _ _ => rfl]
    rfl
  all_goals cases property

theorem ownKey?_liveAt {e : Node} (property : e.form.isProperty = true) (completes : Bool)
    (position : Position) : (l.liveAt completes position e).ownKey? =
      e.ownKey?.map (PropertyKey.live l completes) := by
  obtain ⟨f, s, ps⟩ := e
  rw [l.liveAt_property (f := f) property]
  cases f
  case property isMarked isComputed =>
    rcases ps with _ | ⟨k, _ | ⟨value, _ | ⟨p, ps⟩⟩⟩
    case cons.cons.nil =>
      cases isMarked <;> exact l.writtenKey?_live k completes isComputed
    all_goals cases isMarked <;> rfl
  case accessor kind isComputed =>
    cases ps with
    | nil => rfl
    | cons k ps => exact l.writtenKey?_live k completes isComputed
  all_goals cases property

structure MakesLive (e e' : Node) : Prop where
  key : ∃ completes, e'.ownKey? = e.ownKey?.map (PropertyKey.live l completes)
  /-- A property that is still marked was so before, and has a name for its value. -/
  marked : e'.isMarked = true → e.isMarked = true ∧
    ∃ k x ref s vs, e'.parts = [k, .mk (.ident x ref) s vs]
  truthful : e'.isTrueShorthand = true ↔ l.misnames e = false
  /-- The key is printed as it was, unless it is the one that is left out for the mark alone. -/
  printed : (∃ completes, e'.propertyKey? = e.propertyKey?.map (PropertyKey.live l completes)) ↔
    ¬ (l.misnames e = true ∧ e.ownKey? = some (.literal (.word "__proto__")))

theorem makesLive_unmarked {e : Node} (property : e.form.isProperty = true)
    (unmarked : e.isMarked = false) (completes : Bool) (position : Position) :
    l.MakesLive e (l.liveAt completes position e) := by
  have key := l.ownKey?_liveAt property completes position
  have printed := Node.propertyKey?_of_isTrueShorthand property
    (Node.isTrueShorthand_of_unmarked unmarked)
  have after : (l.liveAt completes position e).form.isProperty = true ∧
      (l.liveAt completes position e).isMarked = false := by
    obtain ⟨f, s, ps⟩ := e
    rw [l.liveAt_property (f := f) property]
    cases f
    case property isMarked isComputed =>
      obtain rfl : isMarked = false := unmarked
      exact ⟨rfl, rfl⟩
    case accessor => exact ⟨rfl, rfl⟩
    all_goals cases property
  have plain := Node.isTrueShorthand_of_unmarked after.2
  have named : l.misnames e = false := by
    unfold misnames
    split
    · cases unmarked
    · rfl
  refine ⟨⟨completes, key⟩, fun marked => ?_, iff_of_true plain named,
    iff_of_true ⟨completes, ?_⟩ fun h => ?_⟩
  · rw [after.2] at marked
    cases marked
  · rw [Node.propertyKey?_of_isTrueShorthand after.1 plain, printed, key]
  · rw [named] at h
    cases h.1

theorem propertyKey?_marked (s : Option Span) (x : String) (sk : Option Span) (ks : List Node)
    (y : String) (ref : Reference) (sv : Option Span) (vs : List Node) :
    (Node.mk (.property true false) s [.mk (.word x) sk ks, .mk (.ident y ref) sv
      vs]).propertyKey? =
      some (.literal (.word (if x = "__proto__" then y else x))) := by
  by_cases proto : x = "__proto__"
  · subst proto
    rfl
  · have abridged : Print.isShorthand true (.mk (.word x) sk ks) (.mk (.ident y ref) sv vs) =
      (x == y) := by
      simp [Print.isShorthand, Node.form]
    simp only [Node.propertyKey?, Node.form, abridged, if_neg proto]
    by_cases same : x = y
    · subst same
      simp
    · have apart : (x == y) = false := by simpa using same
      rw [apart]
      rfl

section Marked
variable {l} {e : Node} {isComputed : Bool} {s : Option Span} {x : String} {sk : Option Span}
    {ks : List Node} {ref : Reference}
  {sv : Option Span} {vs : List Node}
  (eq : e = .mk (.property true isComputed) s [.mk (.word x) sk ks, .mk (.ident x ref) sv vs])
include eq

theorem makesLive_named {completes : Bool} {position : Position} {y : String} {ref' : Reference}
    {sv' : Option Span} {vs' : List Node}
    (live : (Node.mk (.ident x ref) sv vs).live l completes = .mk (.ident y ref') sv' vs')
    (named : l.misnames e = (y != x)) : l.MakesLive e (l.liveAt completes position e) := by
  have key := l.ownKey?_liveAt (e := e) (by rw [eq]; rfl) completes position
  have after : l.liveAt completes position e = .mk (.property true isComputed) s
      [.mk (.word x) sk (Node.liveParts l completes (.word x) 0 ks), .mk (.ident y ref')
      sv' vs'] := by
    rw [eq, l.liveAt_property rfl, List.map_cons, List.map_cons, live]
    rfl
  rw [after] at key
  rw [after]
  refine ⟨⟨completes, key⟩, fun _ => ⟨by rw [eq]; rfl, _, y, ref', sv', vs', rfl⟩, ?_, ?_⟩
  · rw [named]
    show (x == y) = true ↔ _
    simp [eq_comm (a := x)]
  · subst eq
    cases isComputed with
    | true => exact iff_of_true ⟨completes, key⟩ fun h => nomatch h.2
    | false =>
      rw [propertyKey?_marked, propertyKey?_marked, named]
      show (∃ _, some _ = some (PropertyKey.literal _)) ↔
        ¬ (_ ∧ some (PropertyKey.literal (.word x)) = some _)
      by_cases proto : x = "__proto__" <;> simp [proto]

theorem makesLive_spelled (completes : Bool) (position : Position) {object property : String}
    (found : l.redirect? x ref = some (.member object property)) :
    l.MakesLive e (l.liveAt completes position e) := by
  have key := l.ownKey?_liveAt (e := e) (by rw [eq]; rfl) completes position
  have after : ∃ qs, l.liveAt completes position e = .mk (.property false isComputed) s qs := by
    rw [eq]
    refine ⟨_, (l.liveAt_property rfl completes position ..).trans (congrArg (Node.mk · s _) ?_)⟩
    simp only [List.map_cons, List.map_nil, Node.live, found, Redirect.toNode, Made.member]
    split <;> rfl
  obtain ⟨qs, after⟩ := after
  rw [after] at key
  rw [after]
  have named : l.misnames e = false := by
    rw [eq]
    simp only [misnames, found]
  have printed : e.propertyKey? = e.ownKey? := by
    rw [eq]
    exact Node.propertyKey?_of_isTrueShorthand rfl (beq_self_eq_true x)
  have printed' :=
    Node.propertyKey?_of_isTrueShorthand (e := .mk (.property false isComputed) s qs) rfl rfl
  refine ⟨⟨completes, key⟩, fun h => ?_, iff_of_true rfl named,
    iff_of_true ⟨completes, ?_⟩ fun h => ?_⟩
  · cases h
  · rw [printed, ← key, printed']
  · rw [named] at h
    cases h.1

end Marked

variable {l}

theorem makesLive {e : Node} (property : e.form.isProperty = true)
    (plain : e.isTrueShorthand = true) (completes : Bool) (position : Position) :
    l.MakesLive e (l.liveAt completes position e) := by
  rcases Node.cases_of_isTrueShorthand plain with
    unmarked | ⟨isComputed, s, x, sk, ks, ref, sv, vs, eq⟩
  · exact l.makesLive_unmarked property unmarked completes position
  · have live := l.liveAt_ident completes .ordinary x ref sv vs
    cases found : l.redirect? x ref with
    | none =>
      rw [found] at live
      exact makesLive_named eq live (by simp [eq, misnames, found])
    | some r =>
      rw [found] at live
      cases r with
      | binding b => exact makesLive_named eq live (by simp only [eq, misnames, found])
      | member object property => exact makesLive_spelled eq completes position found

theorem misnames_of_lenient {m : Module} {options : Options} {hints : Hints} {r : Draft}
    (drafted : m.draft options hints = .ok r) (lenient : options.strict = false) (e : Node) :
    (m.liveBindings r).misnames e = false := by
  have spelled (x : String) (ref : Reference) (b : String) :
      (m.liveBindings r).redirect? x ref ≠ some (.binding b) := by
    intro found
    have entry := OrderedMap.mem_of_get? (Option.filter_eq_some_iff.mp found).1
    obtain ⟨path, -, here⟩ := (Module.placed_of_draft drafted).mem_redirects entry
    obtain ⟨s, -, -, target⟩ := ImportGroup.mem_redirects_emission here
    rw [lenient] at target
    cases s with
    | «namespace» y | default y => cases target
    | named y imported =>
      simp only [Specifier.redirect?] at target
      split at target <;> cases target
  unfold misnames
  split
  · next x ref _ _ =>
    split
    · next b found => exact absurd found (spelled x ref b)
    · rfl
  · rfl

end LiveBindings

/-- Making names live keeps every property and method of every object literal, with its key. A
property that was written as one name and still is has a name for its value; that is the name of its
key unless it stands for a module as a whole, whose variable is called otherwise. In ordinary mode
there is no such name. -/
theorem shorthand_truthful_iff (l : LiveBindings) (n : Node)
    (plain : ∀ e ∈ n.properties, e.isTrueShorthand = true) (completes : Bool) :
    List.Forall₂ l.MakesLive n.properties (n.live l completes).properties ∧
      ((∀ e ∈ (n.live l completes).properties, e.isTrueShorthand = true) ↔
        ∀ e ∈ n.properties, l.misnames e = false) ∧
      ∀ (m : Module) (options : Options) (hints : Hints) (r : Draft), m.draft options
        hints = .ok r →
        l = m.liveBindings r → options.strict = false →
        ∀ e ∈ (n.live l completes).properties, e.isTrueShorthand = true := by
  have known : ∀ e ∈ n.properties, e.form.isProperty = true ∧ e.isTrueShorthand = true :=
    fun e among =>
    ⟨Node.form_of_mem_select among, plain e among⟩
  have same := LiveBindings.select_liveAt (l := l) Form.isProperty_isPassedOver n
    completes .ordinary
  have pairs : List.Forall₂ l.MakesLive n.properties (n.live l completes).properties := by
    refine ((List.forall₂_and_left _ _).mpr ⟨known, same⟩).imp ?_
    rintro e e' ⟨⟨property, plain⟩, completes, position, rfl⟩
    exact LiveBindings.makesLive property plain completes position
  have truth : (∀ e ∈ (n.live l completes).properties, e.isTrueShorthand = true) ↔
      ∀ e ∈ n.properties, l.misnames e = false := by
    obtain ⟨onward, back⟩ := exists_of_forall₂ pairs
    constructor
    · intro all e among
      obtain ⟨e', after, made⟩ := onward e among
      exact made.truthful.mp (all e' after)
    · intro none e' after
      obtain ⟨e, among, made⟩ := back e' after
      exact made.truthful.mpr (none e among)
  refine ⟨pairs, truth, fun m options hints r drafted eq lenient => truth.mpr fun e _ => ?_⟩
  rw [eq]
  exact LiveBindings.misnames_of_lenient drafted lenient e

section Example

/-- `import * as __proto__ from "m"; f({ __proto__, a: __proto__, get b() {} });` -/
def Node.readingWholeStatements : List Node :=
  let name (x : String) := made (.binder x none) []
  [.made (.importDecl false true "m") [.made .importNamespace [name "__proto__"], .absent],
   .made .expression [Made.call (Made.ident "f")
     [.made .object
       [.made (.property true false) [Made.word "__proto__", Made.ident "__proto__"],
        .made (.property false false) [Made.word "a", Made.ident "__proto__"],
        .made (.accessor .getter false) [Made.word "b", Made.function [] []]]]]]

def Module.readingWhole : Module :=
  .analyse true (.mk (.program none []) none Node.readingWholeStatements)

/-- In strict mode the first property becomes `_m`, which is its key then. -/
theorem shorthand_truthful_iff_readingWhole : ∃ r,
    Module.readingWhole.draft { Options.default with strict := true } .none = .ok r ∧
      (∀ e ∈ Module.readingWhole.program.properties, e.isTrueShorthand = true) ∧
      (¬ ∀ e ∈ (Module.readingWhole.program.live (Module.readingWhole.liveBindings r)
        true).properties, e.isTrueShorthand = true) ∧
      (Module.readingWhole.program.live (Module.readingWhole.liveBindings r) true).properties.map
        Node.propertyKey? = [some (.literal (.word "_m")), some (.literal (.word "a")),
        some (.literal (.word "b"))] := by
  have plain : ∀ e ∈ Module.readingWhole.program.properties, e.isTrueShorthand = true := by
    decide +kernel
  refine ⟨_, rfl, plain, ?_, rfl⟩
  obtain ⟨-, truth, -⟩ := shorthand_truthful_iff _ _ plain true
  rw [truth]
  decide +kernel

end Example

end ModuleLowering
