import ModuleLowering.Proofs.Lower.LivePath
import ModuleLowering.Proofs.Lower.Table
import ModuleLowering.Proofs.Lower.WriteOnce

/-!
Where the old value of an update is observed. An update that is all of a statement gives its value
to nobody, unless the statement is the last thing done by the program or by an arrow function
without braces.
-/

set_option autoImplicit false

namespace ModuleLowering

structure Enclosure where
  form : Form
  index : Nat
  count : Nat
  deriving DecidableEq, Repr

def Node.enclosures (n : Node) : List Nat → List Enclosure
  | [] => []
  | i :: way => ⟨n.form, i, n.parts.length⟩ ::
    match n.parts[i]? with
    | some p => p.enclosures way
    | none => []

namespace Enclosure

def statement : Enclosure := ⟨.expression, 0, 1⟩

/-- Functions, methods among them, and static blocks: what runs apart from the code around it. -/
def isBoundary (e : Enclosure) : Bool :=
  match e.form with
  | .function _ | .arrow .. | .staticBlock => true
  | _ => false

/-- Lists of statements and the cases of a switch. The value that a switch or a case tests is a part
as well, but there are no statements in it outside of functions. -/
def isList (e : Enclosure) : Bool :=
  match e.form with
  | .program .. | .body _ | .block | .namespaceBody _ | .switchStmt | .switchCase => true
  | _ => false

def isLast (e : Enclosure) : Bool :=
  e.index + 1 == e.count

def isExpressionArrow (e : Enclosure) : Bool :=
  match e.form with
  | .arrow _ isExpression _ => isExpression
  | _ => false

def completes (e : Enclosure) (outer : Bool) : Bool :=
  e.form.completes outer e.count e.index

theorem completes_of_isBoundary {e : Enclosure} (boundary : e.isBoundary = true) (outer : Bool) :
    e.completes outer = e.isExpressionArrow := by
  obtain ⟨f, i, count⟩ := e
  cases f
  case function | arrow | staticBlock => rfl
  all_goals cases boundary

theorem completes_of_not_isBoundary {e : Enclosure} (inner : e.isBoundary = false) (outer : Bool) :
    e.completes outer = (outer && (!e.isList || e.isLast)) := by
  obtain ⟨f, i, count⟩ := e
  cases f
  case function | arrow | staticBlock => cases inner
  case program | body | block | namespaceBody | switchStmt | switchCase => rfl
  all_goals exact (Bool.and_true outer).symm

end Enclosure

def Enclosure.passed (outward : List Enclosure) : List Enclosure :=
  outward.takeWhile fun e => !e.isBoundary

/-- From the inside out, every list up to the nearest boundary is left at its end, and the boundary
is the program itself or an arrow function without braces. -/
structure InCompletion (outward : List Enclosure) : Prop where
  last : ∀ e ∈ Enclosure.passed outward, e.isList = true → e.isLast = true
  boundary : ∀ e ∈ outward.find? Enclosure.isBoundary, e.isExpressionArrow = true

instance (outward : List Enclosure) : Decidable (InCompletion outward) :=
  decidable_of_iff ((∀ e ∈ Enclosure.passed outward, e.isList = true → e.isLast = true) ∧
    ∀ e ∈ outward.find? Enclosure.isBoundary, e.isExpressionArrow = true)
    ⟨fun h => ⟨h.1, h.2⟩, fun h => ⟨h.last, h.boundary⟩⟩

namespace InCompletion

theorem nil : InCompletion [] :=
  ⟨by simp [Enclosure.passed], by simp⟩

theorem cons_of_isBoundary {e : Enclosure} (boundary : e.isBoundary = true)
    (outward : List Enclosure) :
    InCompletion (e :: outward) ↔ e.isExpressionArrow = true := by
  constructor
  · intro completion
    exact completion.boundary e (by simp [boundary])
  · intro arrow
    exact ⟨by simp [Enclosure.passed, boundary], by simpa [boundary] using arrow⟩

theorem cons_of_not_isBoundary {e : Enclosure} (inner : e.isBoundary = false)
    (outward : List Enclosure) :
    InCompletion (e :: outward) ↔ InCompletion outward ∧ (e.isList = true → e.isLast = true) := by
  have passed : Enclosure.passed (e :: outward) = e :: Enclosure.passed outward := by
    simp [Enclosure.passed, inner]
  have beyond : (e :: outward).find? Enclosure.isBoundary = outward.find? Enclosure.isBoundary := by
    simp [inner]
  constructor
  · intro completion
    have last := passed ▸ completion.last
    exact ⟨⟨fun e' among => last e' (List.mem_cons_of_mem _ among), beyond ▸ completion.boundary⟩,
      last e List.mem_cons_self⟩
  · intro h
    exact ⟨passed ▸ List.forall_mem_cons.mpr ⟨h.2, h.1.last⟩, beyond ▸ h.1.boundary⟩

end InCompletion

/-- The flag that is handed down a tree holds where the constructs passed say so. -/
theorem foldr_completes_iff (outward : List Enclosure) :
    outward.foldr Enclosure.completes true = true ↔ InCompletion outward := by
  induction outward with
  | nil => exact iff_of_true rfl InCompletion.nil
  | cons e outward ih =>
    rw [List.foldr_cons]
    cases boundary : e.isBoundary with
    | true =>
      rw [Enclosure.completes_of_isBoundary boundary, InCompletion.cons_of_isBoundary boundary]
    | false =>
      rw [Enclosure.completes_of_not_isBoundary boundary, InCompletion.cons_of_not_isBoundary
        boundary, Bool.and_eq_true, ih]
      cases e.isList <;> simp

theorem Form.positionOf_eq_statement_iff {f : Form} {ps : List Node} {i : Nat} {p : Node}
    (child : ps[i]? = some p) (position : Position) : f.positionOf ps position i = .statement ↔
    Enclosure.mk f i ps.length = .statement := by
  have bound : i < ps.length := (List.getElem?_eq_some_iff.mp child).1
  constructor
  · intro stands
    unfold positionOf at stands
    split at stands
    · have first : i = 0 := Nat.lt_one_iff.mp bound
      rw [first]
      rfl
    · split at stands <;> cases stands
    · cases stands
    · cases stands
  · intro eq
    obtain ⟨rfl, -, one⟩ := Enclosure.mk.inj eq
    obtain ⟨e, rfl⟩ := List.length_eq_one_iff.mp one
    rfl

theorem Node.positionAt_cons_eq_statement_iff {n p : Node} {i : Nat} {way : List Nat}
    (found : n.at? (i :: way) = some p) (position : Position) :
    n.positionAt position (i :: way) = .statement ↔ (n.enclosures (i :: way)).getLast? =
      some .statement := by
  induction way generalizing n i position with
  | nil =>
    obtain ⟨f, s, ps⟩ := n
    obtain ⟨-, q, child, -⟩ := exists_of_at?_cons found
    simpa [positionAt, enclosures, form, parts, child] using
      Form.positionOf_eq_statement_iff (f := f) child position
  | cons j way ih =>
    obtain ⟨f, s, ps⟩ := n
    obtain ⟨-, q, child, below⟩ := exists_of_at?_cons found
    have inside : q.enclosures (j :: way) ≠ [] := by simp [enclosures]
    rw [positionAt, enclosures, parts, child]
    rw [ih below, List.getLast?_cons_of_ne_nil inside]

theorem Node.positionAt_ordinary_eq_statement_iff {n p : Node} {way : List Nat}
    (found : n.at? way = some p) :
    n.positionAt .ordinary way = .statement ↔ (n.enclosures way).getLast? = some .statement := by
  cases way with
  | nil => simp [positionAt, enclosures]
  | cons i way => exact positionAt_cons_eq_statement_iff found .ordinary

namespace LiveBindings

variable (l : LiveBindings)

/-- The way to what is put in the place of the part at the end of a way. -/
def seat (n : Node) : List Nat → List Nat
  | [] => []
  | i :: way => List.replicate (l.echoes n).length 1 ++ i ::
    match n.parts[i]? with
    | some p => seat p way
    | none => way

theorem target?_below_update {n : Node} {names : List String}
    (updated : l.updatedNames? n = some names) {i : Nat} {way : List Nat} {p : Node}
    (found : n.at? (i :: way) = some p) : p.target? ≠ none := by
  unfold updatedNames? at updated
  split at updated
  · obtain ⟨-, q, child, found⟩ := Node.exists_of_at?_cons found
    obtain rfl := List.mem_singleton.mp (List.mem_of_getElem? child)
    cases way with
    | nil => cases found; simp [Node.target?]
    | cons j way => cases found
  · cases updated

/-- The part at the end of a way is found again as the pass leaves it there. The variable of an
update is written anew. -/
theorem at?_seat {n : Node} {way : List Nat} {p : Node} (found : n.at? way = some p)
    (other : p.target? = none) (completes : Bool) (position : Position) :
    (l.liveAt completes position n).at? (l.seat n way) =
      some (l.liveAt ((n.enclosures way).reverse.foldr Enclosure.completes completes)
      (n.positionAt position way) p) := by
  induction way generalizing n completes position with
  | nil =>
    cases found
    rfl
  | cons i way ih =>
    have notUpdated : l.updatedNames? n = none := by
      apply Option.eq_none_iff_forall_ne_some.mpr
      intro names updated
      exact l.target?_below_update updated found other
    obtain ⟨f, s, ps⟩ := n
    obtain ⟨parted, q, child, below⟩ := Node.exists_of_at?_cons found
    rw [seat, Node.enclosures, Node.positionAt, Node.parts, child]
    rw [l.at?_liveAt_part notUpdated parted child, ih below, List.reverse_cons, List.foldr_append]
    rfl

def mirrored (op : UpdateOp) (x : String) (ref : Reference) (names : List String) : Node :=
  Made.exportChain names (.made (.assign (.combined op.forward)) [.made (.target x ref) [],
    Made.number 1])

def previous (op : UpdateOp) (x : String) (ref : Reference) : Node :=
  .made (.binary op.backward) [.made (.ident x ref) [], Made.number 1]

end LiveBindings

namespace Module

theorem makeLive_program {m : Module} {redirects : RedirectTable} {exports : ExportTable}
    {x : String} {ref : Reference} {names : List String}
    (exported : LiveBindings.exportedNames? ⟨m.scopes, redirects, exports⟩ x ref = some names) :
    (m.makeLive redirects exports).1.program = m.program.live
      ⟨m.scopes, redirects, exports⟩ true := by
  have some : exports.isEmpty = false :=
    OrderedMap.isEmpty_of_get? (Option.filter_eq_some_iff.mp exported).1
  rw [makeLive_eq, some, Bool.and_false]
  rfl

/-- Wherever a module updates a variable that it exports, the pass repeats the write on `exports`.
The old value is computed after it unless the update gives the new one, or is all of a statement
that is not in completion position. -/
theorem makeLive_update (m : Module) (redirects : RedirectTable) (exports : ExportTable)
    (way : List Nat) (op : UpdateOp) (isPrefixed : Bool) (s : Option Span) (x : String)
    (ref : Reference) (s' : Option Span) (ps : List Node) (names : List String)
    (found : m.program.at? way = some (.mk (.update op isPrefixed) s [.mk (.target x ref) s' ps]))
    (exported : LiveBindings.exportedNames? ⟨m.scopes, redirects, exports⟩ x ref = some names) :
    (m.makeLive redirects exports).1.program.at? (LiveBindings.seat ⟨m.scopes, redirects, exports⟩
      m.program way) =
      some (if isPrefixed = true ∨ (m.program.enclosures way).getLast? = some .statement ∧
          ¬ InCompletion (m.program.enclosures way).reverse
        then LiveBindings.mirrored op x ref names
        else .made .sequence [LiveBindings.mirrored op x ref names, LiveBindings.previous
        op x ref]) := by
  have here := LiveBindings.at?_seat ⟨m.scopes, redirects, exports⟩ found rfl true .ordinary
  rw [LiveBindings.liveAt_update _ exported, LiveBindings.updateExpression_eq] at here
  rw [makeLive_program exported]
  refine here.trans (congrArg some (if_congr ?_ rfl rfl))
  rw [Bool.or_eq_true, Bool.and_eq_true, decide_eq_true_iff, Bool.not_eq_true', ← Bool.not_eq_true,
    foldr_completes_iff, m.program.positionAt_ordinary_eq_statement_iff found]
  exact or_comm

section Example

def counting : Node :=
  .made .expression [.made (.update .increment false) [.made (.target "x" (.symbol ⟨[], "x"⟩)) []]]

/-- `let x; () => x++; switch (0) { case 1: x++; case 2: { x++; x++; } }` -/
def countingProgram : Node :=
  .made (.program none [])
    [.made (.varDecl .blockScoped false)
      [.made (.declarator false) [.made (.binder "x" (some ⟨[], "x"⟩)) [], .absent, .absent]],
     .made .expression
      [.made (.arrow false true false) [.absent, .made .parameters [], .absent, .made (.body [])
     [counting]]], .made .switchStmt [Made.number 0, .made .switchCase [Made.number 1, counting],
      .made .switchCase [Made.number 2, .made .block [counting, counting]]]]

/-- The ways to the updates whose old value is observed, and to the others. -/
def observed : List (List Nat) := [[1, 0, 3, 0, 0], [2, 2, 1, 1, 0]]

def unobserved : List (List Nat) := [[2, 1, 1, 0], [2, 2, 1, 0, 0]]

theorem makeLive_update_countingProgram :
    let m := Module.analyse true countingProgram
    let l : LiveBindings := ⟨m.scopes, .empty, ⟨[("x", ["x"])]⟩⟩
    ∀ way ∈ observed ++ unobserved, (m.makeLive l.redirects l.exports).1.program.at?
      (l.seat m.program way) =
      some (if way ∈ unobserved then LiveBindings.mirrored .increment "x" (.symbol ⟨[], "x"⟩) ["x"]
        else .made .sequence [LiveBindings.mirrored .increment "x" (.symbol ⟨[], "x"⟩) ["x"],
          LiveBindings.previous .increment "x" (.symbol ⟨[], "x"⟩)]) := by
  intro m l way among
  have found : ∀ way ∈ observed ++ unobserved, m.program.at? way =
      some (.made (.update .increment false) [.made (.target "x" (.symbol ⟨[], "x"⟩)) []]) := by
    simp only [observed, unobserved, List.cons_append, List.nil_append, List.forall_mem_cons]
    exact ⟨rfl, rfl, rfl, rfl, List.forall_mem_nil _⟩
  have exported : l.exportedNames? "x" (.symbol ⟨[], "x"⟩) = some ["x"] := by decide +kernel
  have dropped : ∀ way ∈ observed ++ unobserved, (false = true ∨
    (m.program.enclosures way).getLast? = some .statement ∧
      ¬ InCompletion (m.program.enclosures way).reverse) ↔ way ∈ unobserved := by decide +kernel
  rw [makeLive_update m l.redirects l.exports way .increment false none "x" _ none [] ["x"]
    (found way among) exported]
  exact congrArg some (if_congr (dropped way among) rfl rfl)

end Example

end Module

end ModuleLowering
