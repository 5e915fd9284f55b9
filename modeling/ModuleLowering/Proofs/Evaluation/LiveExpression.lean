import ModuleLowering.Proofs.Evaluation.Expression
import ModuleLowering.Proofs.Lower.LiveTree
import ModuleLowering.Proofs.Lower.Table
import ModuleLowering.Proofs.Lower.WriteOnce

/-!
Live expressions evaluate like the expressions they come from.

The pass repeats each assignment to an exported variable on the exports object, also one that leaves
the variable as it is. Behind an expression, the exports of every variable that it came to assign
hold what the variable holds, and all others are as they were; the values and the variables
themselves do not notice.
-/

set_option autoImplicit false

namespace ModuleLowering

namespace Primitives

variable {V : Type} (P : Primitives V)

def Computes (op : BinaryOp) : Prop := ∀ v w, ∃ u, P.apply op v w = some u

/-- A step is the addition of one, and can be taken back. -/
def Inverts (op : UpdateOp) : Prop :=
  ∃ one, P.literal (Numeral.ofNat 1) = some one ∧ ∀ v, ∃ u, P.step op v = some (v, u) ∧
    P.apply op.forward v one = some u ∧ P.apply op.backward u one = some v

end Primitives

theorem UpdateOp.forward_strict (op : UpdateOp) : op.forward.isLogical = false := by
  cases op <;> rfl

theorem UpdateOp.backward_strict (op : UpdateOp) : op.backward.isLogical = false := by
  cases op <;> rfl

structure Vocabulary where
  numeral : Numeral → Prop
  operator : BinaryOp → Prop
  update : UpdateOp → Prop

structure Vocabulary.Computes {V : Type} (W : Vocabulary) (P : Primitives V) : Prop where
  numeral : ∀ n, W.numeral n → ∃ v, P.literal n = some v
  operator : ∀ op, W.operator op → P.Computes op
  update : ∀ op, W.update op → P.Inverts op

/-- Expressions without calls, all of whose names are the module's own variables. -/
inductive Straight (W : Vocabulary) (l : LiveBindings) : Node → Prop
  | number {n : Numeral} {s : Option Span} : W.numeral n → Straight W l (.mk (.number n) s [])
  | ident {x : String} {ref : Reference} {s : Option Span} :
    l.isModuleLevel x ref = true → l.redirects.get? x = none →
      Straight W l (.mk (.ident x ref) s [])
  | binary {op : BinaryOp} {a b : Node} {s : Option Span} :
    W.operator op → Straight W l a → Straight W l b → Straight W l (.mk (.binary op) s [a, b])
  | sequence {es : List Node} {s : Option Span} :
    es ≠ [] → (∀ e ∈ es, Straight W l e) → Straight W l (.mk .sequence s es)
  | assign {x : String} {ref : Reference} {e : Node} {s s' : Option Span} :
    l.isModuleLevel x ref = true → Straight W l e →
    Straight W l (.mk (.assign .plain) s [.mk (.target x ref) s' [], e])
  | combine {op : BinaryOp} {x : String} {ref : Reference} {e : Node} {s s' : Option Span} :
    W.operator op → l.isModuleLevel x ref = true → Straight W l e →
    Straight W l (.mk (.assign (.combined op)) s [.mk (.target x ref) s' [], e])
  | update {op : UpdateOp} {isPrefixed : Bool} {x : String} {ref : Reference} {s s' : Option Span} :
    W.update op → l.isModuleLevel x ref = true →
    Straight W l (.mk (.update op isPrefixed) s [.mk (.target x ref) s' []])

section
variable {V : Type} (P : Primitives V)

mutual

/-- The variables of the assignments that an evaluation comes to. A logical one counts also where it
leaves its variable as it is. -/
def Node.touched : Node → Memory V → List String
  | .mk (.binary op) _ [a, b], m =>
    a.touched m ++
      ((a.eval P m).filter fun r => !P.decides op r.1).elim [] fun r => b.touched r.2
  | .mk .sequence _ es, m => touchedInTurn es m
  | .mk (.assign .plain) _ [t, e], m => e.touched m ++ (t.target?.map Prod.fst).toList
  | .mk (.assign (.combined op)) _ [t, e], m =>
    (if (t.slot?.bind (m.load P)).any (P.decides op) then [] else e.touched m) ++
      (t.target?.map Prod.fst).toList
  | .mk (.update ..) _ [t], _ => (t.target?.map Prod.fst).toList
  | _, _ => []

def Node.touchedInTurn : List Node → Memory V → List String
  | [], _ => []
  | e :: es, m => e.touched m ++ (e.eval P m).elim [] fun r => touchedInTurn es r.2

end

variable {P}

theorem Node.touched_binary {op : BinaryOp} {s : Option Span} {a b : Node} {m m₁ : Memory V} {u : V}
    (left : a.eval P m = some (u, m₁)) :
    (mk (.binary op) s [a, b]).touched P m =
      a.touched P m ++ if P.decides op u then [] else b.touched P m₁ := by
  rw [touched, left]
  cases decides : P.decides op u <;> simp [Option.filter, decides]

theorem Node.touched_combine {op : BinaryOp} {s s' : Option Span} {x : String} {ref : Reference}
    {ps : List Node} {e : Node} {m : Memory V} {old : V} (read : m.read P x = some old) :
    (mk (.assign (.combined op)) s [.mk (.target x ref) s' ps, e]).touched P m =
      (if P.decides op old then [] else e.touched P m) ++ [x] := by
  have load : ((mk (.target x ref) s' ps).slot?.bind (m.load P)) = some old := read
  rw [touched, load]
  rfl

theorem Node.touchedInTurn_singleton {e : Node} {m : Memory V} :
    touchedInTurn P [e] m = e.touched P m := by
  rw [touchedInTurn]
  cases e.eval P m <;> exact List.append_nil _

theorem Node.touchedInTurn_cons {e : Node} {es : List Node} {m m₁ : Memory V} {u : V}
    (first : e.eval P m = some (u, m₁)) :
    touchedInTurn P (e :: es) m = e.touched P m ++ touchedInTurn P es m₁ := by
  rw [touchedInTurn, first]
  rfl

end

namespace Memory

variable {V : Type}

structure SameVariables (m m' : Memory V) : Prop where
  kinds : m'.kinds = m.kinds
  locals : m'.locals = m.locals

def Agrees (t : ExportTable) (m : Memory V) : Prop :=
  ∀ x names p, t.get? x = some names → p ∈ names → m.exports p = m.locals x

/-- From one memory to the other, the variables in `W` were assigned, and so were their exports. -/
structure Follows (P : Primitives V) (t : ExportTable) (W : String → Prop) (m m' : Memory V) :
    Prop where
  kinds : m'.kinds = m.kinds
  locals : ∀ x, ¬ W x → m'.locals x = m.locals x
  alive : ∀ x, W x → (m'.read P x).isSome = true
  echoed : ∀ x names p, t.get? x = some names → p ∈ names → W x → m'.exports p = m'.read P x
  kept : ∀ p, (∀ x names, t.get? x = some names → p ∈ names → ¬ W x) → m'.exports p = m.exports p

section
variable {P : Primitives V} {t : ExportTable}

theorem Follows.refl (m : Memory V) : Follows P t (fun _ => False) m m :=
  ⟨rfl, fun _ _ => rfl, fun _ h => h.elim, fun _ _ _ _ _ h => h.elim, fun _ _ => rfl⟩

theorem Follows.read {W : String → Prop} {m m' : Memory V} (h : Follows P t W m m') {x : String}
    (other : ¬ W x) : m'.read P x = m.read P x := by
  simp only [Memory.read, h.kinds, h.locals x other]

theorem Follows.trans (ht : t.IsUnambiguous) {W W' : String → Prop} {m m₁ m₂ : Memory V}
    (first : Follows P t W m m₁) (second : Follows P t W' m₁ m₂) :
    Follows P t (fun x => W x ∨ W' x) m m₂ where
  kinds := second.kinds.trans first.kinds
  locals x h := (second.locals x (fun w => h (.inr w))).trans (first.locals x (fun w => h (.inl w)))
  alive x w := by
    by_cases last : W' x
    · exact second.alive x last
    · rw [second.read last]
      exact first.alive x (w.resolve_right last)
  echoed x names p found listed w := by
    by_cases last : W' x
    · exact second.echoed x names p found listed last
    · -- The second part leaves the export alone, as no other variable has it.
      have kept := second.kept p fun y names' found' listed' w' =>
        last (ht.owner found found' listed listed' ▸ w')
      rw [kept, second.read last]
      exact first.echoed x names p found listed (w.resolve_right last)
  kept p h := by
    have later := second.kept p fun x names found listed w => h x names found listed (.inr w)
    have earlier := first.kept p fun x names found listed w => h x names found listed (.inl w)
    exact later.trans earlier

theorem Follows.congr {W W' : String → Prop} {m m' : Memory V} (h : Follows P t W m m')
    (same : ∀ x, W x ↔ W' x) : Follows P t W' m m' := by
  have equal : W = W' := funext fun x => propext (same x)
  exact equal ▸ h

theorem Follows.agrees (ht : t.IsUnambiguous) {W : String → Prop} {m m' : Memory V}
    (h : Follows P t W m m') (declared : ∀ x, W x → ∃ k, m.kinds x = some k)
    (before : m.Agrees t) : m'.Agrees t := by
  intro x names p found listed
  by_cases w : W x
  · obtain ⟨k, known⟩ := declared x w
    rw [h.echoed x names p found listed w, Memory.read, h.kinds, known]
  · have kept := h.kept p fun y names' found' listed' w' =>
      w (ht.owner found found' listed listed' ▸ w')
    rw [kept, h.locals x w]
    exact before x names p found listed

end

def setExports (m : Memory V) (names : List String) (v : V) : Memory V :=
  names.foldl (fun m p => m.setExport p v) m

@[simp] theorem setExports_kinds (m : Memory V) (names : List String) (v : V) :
    (m.setExports names v).kinds = m.kinds := by
  induction names generalizing m with
  | nil => rfl
  | cons p names ih => exact ih _

@[simp] theorem setExports_locals (m : Memory V) (names : List String) (v : V) :
    (m.setExports names v).locals = m.locals := by
  induction names generalizing m with
  | nil => rfl
  | cons p names ih => exact ih _

theorem setExports_read (P : Primitives V) (m : Memory V) (names : List String) (v : V)
    (x : String) : (m.setExports names v).read P x = m.read P x := by
  simp [Memory.read]

theorem setExports_exports (m : Memory V) (names : List String) (v : V) (q : String) :
    (m.setExports names v).exports q = if q ∈ names then some v else m.exports q := by
  induction names generalizing m with
  | nil => rfl
  | cons p names ih =>
    have step := ih (m.setExport p v)
    simp only [setExports, List.foldl_cons] at step ⊢
    rw [step]
    by_cases h : q = p <;> simp [h, setExport]

theorem write_eq_some {m m' : Memory V} {x : String} {v : V} (h : m.write x v = some m') :
    m' = m.set x v ∧ ∃ k, m.kinds x = some k := by
  simp only [write] at h
  split at h
  · cases h
  · cases h
  · next k _ known =>
    split at h
    · exact ⟨(Option.some.inj h).symm, k, known⟩
    · cases h

/-- Between the two, at most the variable `x` was written, which reads as `v` then. -/
structure Settles (P : Primitives V) (x : String) (v : V) (m m' : Memory V) : Prop where
  kinds : m'.kinds = m.kinds
  locals : ∀ y, y ≠ x → m'.locals y = m.locals y
  exports : m'.exports = m.exports
  read : m'.read P x = some v

theorem Settles.write {P : Primitives V} {m m' : Memory V} {x : String} {v : V}
    (done : m.write x v = some m') : Settles P x v m m' := by
  obtain ⟨rfl, k, known⟩ := write_eq_some done
  exact ⟨rfl, fun y other => by simp [set, other], rfl, by simp [Memory.read, set, known]⟩

theorem Settles.refl {P : Primitives V} {m : Memory V} {x : String} {v : V}
    (read : m.read P x = some v) : Settles P x v m m :=
  ⟨rfl, fun _ _ => rfl, rfl, read⟩

theorem Settles.follows {P : Primitives V} {t : ExportTable} {m m' : Memory V} {x : String} {v : V}
    (h : Settles P x v m m') : Follows P t (· = x) m (m'.setExports ((t.get? x).getD []) v) where
  kinds := by simp [h.kinds]
  locals y other := by simp [h.locals y other]
  alive y same := by
    subst same
    simp [setExports_read, h.read]
  echoed y names p found listed same := by
    subst same
    rw [found, setExports_read, h.read, setExports_exports]
    exact if_pos listed
  kept p unlisted := by
    have absent : p ∉ (t.get? x).getD [] := by
      cases found : t.get? x with
      | none => simp
      | some names => exact fun listed => unlisted x names found listed rfl
    rw [setExports_exports, if_neg absent, h.exports]

end Memory

section
variable {V : Type} {P : Primitives V}

theorem Made.slot?_exportMember (p : String) :
    (member (ident "exports") p).slot? = some (.exported p) := by
  unfold member
  split <;> rfl

theorem Made.eval_exportChain_iff {names : List String} {e : Node} {m m' : Memory V} {v : V} :
    (exportChain names e).eval P m = some (v, m') ↔
      ∃ m₁, e.eval P m = some (v, m₁) ∧ m' = m₁.setExports names v := by
  induction names generalizing e m' with
  | nil => simp [exportChain, Memory.setExports]
  | cons p names ih =>
    have step : exportChain (p :: names) e = exportChain names (exportAssignment p e) := rfl
    rw [step, ih]
    simp only [exportAssignment, assign, Node.made, Node.eval_assign_iff, slot?_exportMember,
      Option.some.injEq]
    constructor
    · rintro ⟨_, ⟨_, m₁, rfl, value, stored⟩, rfl⟩
      simp only [Memory.store, Option.some.injEq] at stored
      exact ⟨m₁, value, stored ▸ rfl⟩
    · rintro ⟨m₁, value, rfl⟩
      exact ⟨m₁.setExport p v, ⟨_, m₁, rfl, value, rfl⟩, rfl⟩

theorem Memory.SameVariables.read {m m' : Memory V} (h : m.SameVariables m') (x : String) :
    m'.read P x = m.read P x := by
  simp only [Memory.read, h.kinds, h.locals]

theorem Memory.SameVariables.write {m m' m₁ : Memory V} {x : String} {v : V}
    (h : m.SameVariables m') (done : m.write x v = some m₁) : m'.write x v = some (m'.set x v) ∧
    m₁.SameVariables (m'.set x v) := by
  obtain ⟨rfl, -⟩ := Memory.write_eq_some done
  constructor
  · simp only [Memory.write, h.kinds, h.locals] at done ⊢
    split at done
    · cases done
    · cases done
    · split at done
      · rename_i alive
        simp [alive]
      · cases done
  · exact ⟨h.kinds, by simp [Memory.set, h.locals]⟩

theorem LiveBindings.exportedNames?_of_moduleLevel {l : LiveBindings} {x : String} {ref : Reference}
    (h : l.isModuleLevel x ref = true) : l.exportedNames? x ref = l.exports.get? x := by
  cases found : l.exports.get? x <;> simp [exportedNames?, found, h]

end

/-- Where `e` has a value, `e'` has the same one, and leaves the same variables behind; the exports
of the variables that `e` comes to assign follow them. -/
structure Matches {V : Type} (P : Primitives V) (l : LiveBindings) (e e' : Node) : Prop where
  run : ∀ {m m' m₁ : Memory V} {v : V}, m.SameVariables m' → e.eval P m = some (v, m₁) →
    ∃ m₂, e'.eval P m' = some (v, m₂) ∧ m₁.SameVariables m₂ ∧
      Memory.Follows P l.exports (· ∈ e.touched P m) m' m₂

namespace Matches

variable {V : Type} {P : Primitives V} {l : LiveBindings}

theorem number {n : Numeral} {s : Option Span} :
    Matches P l (.mk (.number n) s []) (.mk (.number n) s []) := by
  constructor
  intro m m' m₁ v same run
  obtain ⟨literal, rfl⟩ := Node.eval_number_iff.mp run
  exact ⟨m', Node.eval_number_iff.mpr ⟨literal, rfl⟩, same,
    (Memory.Follows.refl m').congr fun x => by simp [Node.touched]⟩

theorem ident {x : String} {ref : Reference} {s : Option Span} :
    Matches P l (.mk (.ident x ref) s []) (.mk (.ident x ref) s []) := by
  constructor
  intro m m' m₁ v same run
  obtain ⟨read, rfl⟩ := Node.eval_ident_iff.mp run
  exact ⟨m', Node.eval_ident_iff.mpr ⟨same.read x ▸ read, rfl⟩, same,
    (Memory.Follows.refl m').congr fun x => by simp [Node.touched]⟩

theorem binary (ht : l.exports.IsUnambiguous) {op : BinaryOp} {a a' b b' : Node} {s : Option Span}
    (left : Matches P l a a') (right : Matches P l b b') :
    Matches P l (.mk (.binary op) s [a, b]) (.mk (.binary op) s [a', b']) := by
  constructor
  intro m m' m₁ v same run
  obtain ⟨u, n, runLeft, rest⟩ := Node.eval_binary_iff.mp run
  obtain ⟨n', runLeft', same₁, follows₁⟩ := left.run same runLeft
  rcases rest with ⟨decided, rfl, rfl⟩ | ⟨open', w, runRight, result⟩
  · refine ⟨n', Node.eval_binary_iff.mpr ⟨v, n', runLeft', .inl ⟨decided, rfl, rfl⟩⟩, same₁,
      follows₁.congr fun x => ?_⟩
    simp [Node.touched_binary runLeft, decided]
  · obtain ⟨m₂, runRight', same₂, follows₂⟩ := right.run same₁ runRight
    refine ⟨m₂, Node.eval_binary_iff.mpr ⟨u, n', runLeft', .inr ⟨open', w, runRight', result⟩⟩,
      same₂, (follows₁.trans ht follows₂).congr fun x => ?_⟩
    simp [Node.touched_binary runLeft, open']

/-- An assignment is repeated on the exports of its variable. What it is given as is what it does
before the chain of exports around it runs. -/
theorem echoed {op : AssignOp} {x : String} {ref : Reference} {e : Node} {s s' : Option Span}
    (level : l.isModuleLevel x ref = true) {m m₃ : Memory V} {v : V}
    (run : (Node.mk (.assign op) s [.mk (.target x ref) s' [], e]).eval P m = some (v, m₃)) :
    (l.echoed (.mk (.assign op) s [.mk (.target x ref) s' [], e])).eval P m =
      some (v, m₃.setExports ((l.exports.get? x).getD []) v) := by
  have names : l.echoes (.mk (.assign op) s [.mk (.target x ref) s' [], e]) =
      (l.exports.get? x).getD [] := by
    simp [LiveBindings.echoes, Node.target?, LiveBindings.exportedNames?_of_moduleLevel level]
  rw [LiveBindings.echoed_eq_exportChain, names]
  exact Made.eval_exportChain_iff.mpr ⟨m₃, run, rfl⟩

theorem sameVariables_setExports {m m' : Memory V} (h : m.SameVariables m') (names : List String)
    (v : V) : m.SameVariables (m'.setExports names v) :=
  ⟨by simpa using h.kinds, by simpa using h.locals⟩

theorem assign (ht : l.exports.IsUnambiguous) {x : String} {ref : Reference} {e e' : Node}
    {s s' : Option Span} (level : l.isModuleLevel x ref = true) (value : Matches P l e e') :
    Matches P l (.mk (.assign .plain) s [.mk (.target x ref) s' [], e])
      (l.echoed (.mk (.assign .plain) s [.mk (.target x ref) s' [], e'])) := by
  constructor
  intro m m' m₁ v same run
  obtain ⟨p, n, slot, runValue, stored⟩ := Node.eval_assign_iff.mp run
  obtain rfl := Option.some.inj slot
  obtain ⟨n', runValue', same', follows⟩ := value.run same runValue
  obtain ⟨stored', written⟩ := same'.write stored
  refine ⟨_, echoed level (Node.eval_assign_iff.mpr ⟨_, n', rfl, runValue', stored'⟩),
    sameVariables_setExports written _ v,
    (follows.trans ht (Memory.Settles.write stored').follows).congr fun y => ?_⟩
  simp [Node.touched, Node.target?]

theorem combine (ht : l.exports.IsUnambiguous) {op : BinaryOp} {x : String} {ref : Reference}
    {e e' : Node} {s s' : Option Span} (level : l.isModuleLevel x ref = true)
    (value : Matches P l e e') :
    Matches P l (.mk (.assign (.combined op)) s [.mk (.target x ref) s' [], e])
      (l.echoed (.mk (.assign (.combined op)) s [.mk (.target x ref) s' [], e'])) := by
  constructor
  intro m m' m₁ v same run
  obtain ⟨p, old, slot, loaded, rest⟩ := Node.eval_combine_iff.mp run
  obtain rfl := Option.some.inj slot
  have loaded' : m'.load P (.variable x) = some old := (same.read x).trans loaded
  have touched : (Node.mk (.assign (.combined op)) s [.mk (.target x ref) s' [], e]).touched P m =
      (if P.decides op old then [] else e.touched P m) ++ [x] := Node.touched_combine loaded
  rcases rest with ⟨decided, rfl, rfl⟩ | ⟨undecided, u, n, runValue, result, stored⟩
  · -- The variable keeps its value, which is exported once more.
    refine ⟨_, echoed level (Node.eval_combine_iff.mpr
        ⟨_, v, rfl, loaded', .inl ⟨decided, rfl, rfl⟩⟩), sameVariables_setExports same _ v,
      (Memory.Settles.refl loaded').follows.congr fun y => ?_⟩
    simp [touched, decided]
  · obtain ⟨n', runValue', same', follows⟩ := value.run same runValue
    obtain ⟨stored', written⟩ := same'.write stored
    refine ⟨_, echoed level (Node.eval_combine_iff.mpr
        ⟨_, old, rfl, loaded', .inr ⟨undecided, u, n', runValue', result, stored'⟩⟩),
      sameVariables_setExports written _ v,
      (follows.trans ht (Memory.Settles.write stored').follows).congr fun y => ?_⟩
    simp [touched, undecided]

theorem step_run {op : UpdateOp} {x : String} (ref : Reference) (names : List String)
    {m m₁ : Memory V} {v u one : V} (read : m.read P x = some v)
    (unit : P.literal (Numeral.ofNat 1) = some one) (result : P.apply op.forward v one = some u)
    (written : m.write x u = some m₁) :
    (Made.exportChain names (.made (.assign (.combined op.forward))
      [.made (.target x ref) [], Made.number 1])).eval P m = some (u, m₁.setExports names u) := by
  refine Made.eval_exportChain_iff.mpr ⟨m₁, ?_, rfl⟩
  exact Node.eval_combine_iff.mpr ⟨_, v, rfl, read,
    .inr ⟨P.decides_of_isLogical op.forward_strict v, one, m,
      Node.eval_number_iff.mpr ⟨unit, rfl⟩, result, written⟩⟩

/-- An update of an exported variable: the step with its exports, and the way back where the old
value is wanted. -/
theorem update {op : UpdateOp} {isPrefixed : Bool} {x : String} {ref : Reference}
    {s s' : Option Span} {names : List String} (inverts : P.Inverts op)
    (found : l.exports.get? x = some names) :
    Matches P l (.mk (.update op isPrefixed) s [.mk (.target x ref) s' []])
      (LiveBindings.updateExpression op isPrefixed x ref names false) := by
  constructor
  intro m m' m₁ v same run
  obtain ⟨one, unit, steps⟩ := inverts
  obtain ⟨p, old, number, next, slot, loaded, stepped, stored, value⟩ := Node.eval_update_iff.mp run
  obtain rfl := Option.some.inj slot
  obtain ⟨u, step, forward, backward⟩ := steps old
  obtain ⟨rfl, rfl⟩ : old = number ∧ u = next :=
    Prod.mk.inj (Option.some.inj (step.symm.trans stepped))
  obtain ⟨stored', written⟩ := same.write stored
  have read : m'.read P x = some old := (same.read x).trans loaded
  have echo := step_run ref names read unit forward stored'
  have settles : Memory.Settles P x u m' (m'.set x u) := .write stored'
  have follows : Memory.Follows P l.exports
      (· ∈ (Node.mk (.update op isPrefixed) s [.mk (.target x ref) s' []]).touched P m) m'
      ((m'.set x u).setExports names u) := by
    have all := settles.follows (t := l.exports)
    rw [found] at all
    exact all.congr fun y => by simp [Node.touched, Node.target?]
  have same' : m₁.SameVariables ((m'.set x u).setExports names u) :=
    sameVariables_setExports written names u
  rw [LiveBindings.updateExpression_eq]
  cases isPrefixed with
  | true => exact ⟨_, by simpa [value] using echo, same', follows⟩
  | false =>
    refine ⟨_, ?_, same', follows⟩
    have alive : ((m'.set x u).setExports names u).read P x = some u :=
      (Memory.setExports_read ..).trans settles.read
    simp only [Bool.or_self, Bool.false_eq_true, if_false] at value ⊢
    subst value
    rw [Node.made, Node.eval_sequence, Node.evalSequence_cons_iff]
    refine ⟨u, _, echo, ?_⟩
    rw [Node.evalSequence_singleton]
    exact Node.eval_binary_iff.mpr ⟨u, _, Node.eval_ident_iff.mpr ⟨alive, rfl⟩,
      .inr ⟨P.decides_of_isLogical op.backward_strict u, one,
        Node.eval_number_iff.mpr ⟨unit, rfl⟩, backward⟩⟩

theorem update_of_none {op : UpdateOp} {isPrefixed : Bool} {x : String} {ref : Reference}
    {s s' : Option Span} (missing : l.exports.get? x = none) :
    Matches P l (.mk (.update op isPrefixed) s [.mk (.target x ref) s' []])
      (.mk (.update op isPrefixed) s [.mk (.target x ref) s' []]) := by
  constructor
  intro m m' m₁ v same run
  obtain ⟨p, old, number, next, slot, loaded, stepped, stored, value⟩ := Node.eval_update_iff.mp run
  obtain rfl := Option.some.inj slot
  have loaded' : m'.load P (.variable x) = some old := (same.read x).trans loaded
  obtain ⟨stored', written⟩ := same.write stored
  have follows := (Memory.Settles.write (P := P) stored').follows (t := l.exports)
  rw [missing] at follows
  exact ⟨_, Node.eval_update_iff.mpr ⟨_, old, number, next, rfl, loaded', stepped, stored', value⟩,
    written, follows.congr fun y => by simp [Node.touched, Node.target?]⟩

theorem sequence (ht : l.exports.IsUnambiguous) {f : Node → Node} {s : Option Span}
    {es : List Node} (filled : es ≠ []) (each : ∀ e ∈ es, Matches P l e (f e)) :
    Matches P l (.mk .sequence s es) (.mk .sequence s (es.map f)) := by
  constructor
  intro m m' m₁ v same run
  rw [Node.eval_sequence] at run
  simp only [Node.eval_sequence, Node.touched]
  induction es generalizing m m' with
  | nil => exact absurd rfl filled
  | cons e es ih =>
    have first : Matches P l e (f e) := each e (by simp)
    cases es with
    | nil =>
      rw [Node.evalSequence_singleton] at run
      obtain ⟨m₂, run', same', follows⟩ := first.run same run
      refine ⟨m₂, by simpa [Node.evalSequence_singleton] using run', same',
        follows.congr fun x => ?_⟩
      rw [Node.touchedInTurn_singleton]
    | cons e' es =>
      obtain ⟨u, n, runFirst, runRest⟩ := Node.evalSequence_cons_iff.mp run
      obtain ⟨n', runFirst', same₁, follows₁⟩ := first.run same runFirst
      obtain ⟨m₂, runRest', same₂, follows₂⟩ :=
        ih (by simp) (fun e h => each e (by simp_all)) same₁ runRest
      refine ⟨m₂, Node.evalSequence_cons_iff.mpr ⟨u, n', runFirst', runRest'⟩, same₂,
        (follows₁.trans ht follows₂).congr fun x => ?_⟩
      rw [Node.touchedInTurn_cons runFirst, List.mem_append]

end Matches

theorem Node.liveParts_eq_map {l : LiveBindings} {c : Bool} {f : Form}
    (h : ∀ count i, f.completes c count i = c) (i : Nat) (ps : List Node) :
    liveParts l c f i ps = ps.map (·.live l c) := by
  induction ps generalizing i with
  | nil => rfl
  | cons p ps ih => simp only [liveParts, h, ih, List.map_cons]

namespace Straight

variable {V : Type} {P : Primitives V} {W : Vocabulary} {l : LiveBindings}

theorem matches_live (ht : l.exports.IsUnambiguous) (invertible : ∀ op, W.update op → P.Inverts op)
    (c : Bool) {e : Node} (h : Straight W l e) : Matches P l e (e.live l c) := by
  induction h with
  | number literal => exact Matches.number
  | @ident x ref s level missing =>
    have stays : (Node.mk (.ident x ref) s []).live l c = .mk (.ident x ref) s [] := by
      simp [Node.live, LiveBindings.redirect?, missing]
    rw [stays]
    exact Matches.ident
  | binary computes _ _ left right => exact Matches.binary ht left right
  | @sequence es s filled _ each =>
    have parts : (Node.mk .sequence s es).live l c = .mk .sequence s (es.map (·.live l c)) :=
      congrArg (Node.mk .sequence s) (Node.liveParts_eq_map (fun _ _ => rfl) 0 es)
    rw [parts]
    exact Matches.sequence ht filled each
  | assign level _ value => exact Matches.assign ht level value
  | combine _ level _ value => exact Matches.combine ht level value
  | @update op isPrefixed x ref s s' known level =>
    simp only [Node.live, LiveBindings.update?, LiveBindings.exportedNames?_of_moduleLevel level]
    cases found : l.exports.get? x with
    | none => exact Matches.update_of_none found
    | some names => exact Matches.update (invertible op known) found

end Straight

mutual

def Node.variables : Node → List String
  | .mk (.ident x _) _ _ => [x]
  | .mk (.target x _) _ _ => [x]
  | .mk _ _ ps => variablesOfParts ps

def Node.variablesOfParts : List Node → List String
  | [] => []
  | p :: ps => p.variables ++ variablesOfParts ps

end

theorem Node.mem_variablesOfParts {ps : List Node} {x : String} :
    x ∈ variablesOfParts ps ↔ ∃ p ∈ ps, x ∈ p.variables := by
  induction ps with
  | nil => simp [variablesOfParts]
  | cons p ps ih => simp [variablesOfParts, ih]

theorem exists_of_mem_elim {α : Type} {o : Option α} {f : α → List String} {x : String}
    (among : x ∈ o.elim [] f) : ∃ a, x ∈ f a := by
  cases o with
  | none => cases among
  | some a => exact ⟨a, among⟩

theorem Node.mem_touchedInTurn {V : Type} {P : Primitives V} {es : List Node} {m : Memory V}
    {x : String} (touched : x ∈ touchedInTurn P es m) : ∃ e ∈ es, ∃ m₁, x ∈ e.touched P m₁ := by
  induction es generalizing m with
  | nil => cases touched
  | cons e es ih =>
    rw [touchedInTurn] at touched
    rcases List.mem_append.mp touched with here | later
    · exact ⟨e, List.mem_cons_self, m, here⟩
    · obtain ⟨r, later⟩ := exists_of_mem_elim later
      obtain ⟨e', among, m₁, here⟩ := ih later
      exact ⟨e', List.mem_cons_of_mem _ among, m₁, here⟩

theorem Node.mem_variables_of_touched {V : Type} {P : Primitives V} {e : Node} {m : Memory V}
    {x : String} (touched : x ∈ e.touched P m) : x ∈ e.variables := by
  have targeted {t : Node} (written : x ∈ (t.target?.map Prod.fst).toList) : x ∈ t.variables := by
    obtain ⟨⟨y, ref⟩, found, rfl⟩ := Option.map_eq_some_iff.mp (Option.mem_toList.mp written)
    unfold target? at found
    split at found
    · cases found
      exact List.mem_singleton_self _
    · cases found
  induction e using Node.induction generalizing m with
  | step f s ps ih =>
    unfold Node.touched at touched
    split at touched
    · next a b eq =>
      cases eq
      refine mem_variablesOfParts.mpr ?_
      rcases List.mem_append.mp touched with left | right
      · exact ⟨a, by simp, ih a (by simp) left⟩
      · obtain ⟨r, right⟩ := exists_of_mem_elim right
        exact ⟨b, by simp, ih b (by simp) right⟩
    · next eq =>
      cases eq
      obtain ⟨e, among, m₁, here⟩ := mem_touchedInTurn touched
      exact mem_variablesOfParts.mpr ⟨e, among, ih e among here⟩
    · next t e eq =>
      cases eq
      refine mem_variablesOfParts.mpr ?_
      rcases List.mem_append.mp touched with here | written
      · exact ⟨e, by simp, ih e (by simp) here⟩
      · exact ⟨t, by simp, targeted written⟩
    · next t e eq =>
      cases eq
      refine mem_variablesOfParts.mpr ?_
      rcases List.mem_append.mp touched with here | written
      · split at here
        · cases here
        · exact ⟨e, by simp, ih e (by simp) here⟩
      · exact ⟨t, by simp, targeted written⟩
    · next t eq =>
      cases eq
      exact mem_variablesOfParts.mpr ⟨t, by simp, targeted touched⟩
    · cases touched

namespace Memory

variable {V : Type} {P : Primitives V}

def Holds (m : Memory V) (x : String) : Prop :=
  (∃ k, m.kinds x = some k ∧ k ≠ .constant) ∧ ∃ v, m.locals x = some v

theorem Holds.read {m : Memory V} {x : String} (h : m.Holds x) : ∃ v, m.read P x = some v := by
  obtain ⟨⟨k, declared, _⟩, v, value⟩ := h
  exact ⟨v, by simp [Memory.read, declared, value]⟩

theorem Holds.write {m : Memory V} {x : String} (h : m.Holds x) (v : V) :
    m.write x v = some (m.set x v) := by
  obtain ⟨⟨k, declared, free⟩, u, value⟩ := h
  cases k <;> simp_all [Memory.write]

theorem Holds.set {m : Memory V} {x : String} (h : m.Holds x) (y : String) (v : V) :
    (m.set y v).Holds x := by
  obtain ⟨declared, u, value⟩ := h
  refine ⟨declared, ?_⟩
  by_cases equal : x = y
  · exact ⟨v, by simp [Memory.set, equal]⟩
  · exact ⟨u, by simp [Memory.set, equal, value]⟩

end Memory

theorem Straight.eval_of_holds {V : Type} {P : Primitives V} {W : Vocabulary}
    (computes : W.Computes P) {l : LiveBindings} {e : Node} (h : Straight W l e) {m : Memory V}
    (held : ∀ x ∈ e.variables, m.Holds x) :
    ∃ v m₁, e.eval P m = some (v, m₁) ∧ ∀ x, m.Holds x → m₁.Holds x := by
  induction h generalizing m with
  | @number n s known =>
    obtain ⟨v, literal⟩ := computes.numeral n known
    exact ⟨v, m, Node.eval_number_iff.mpr ⟨literal, rfl⟩, fun _ h => h⟩
  | @ident x ref s level missing =>
    obtain ⟨v, read⟩ := (held x (by simp [Node.variables])).read
    exact ⟨v, m, Node.eval_ident_iff.mpr ⟨read, rfl⟩, fun _ h => h⟩
  | @binary op a b s known _ _ left right =>
    simp only [Node.variables, Node.variablesOfParts, List.append_nil, List.mem_append] at held
    -- What the left side writes takes no value away from the right one.
    obtain ⟨v, m₁, runLeft, grown⟩ := left fun x h => held x (.inl h)
    cases decided : P.decides op v with
    | true =>
      exact ⟨v, m₁, Node.eval_binary_iff.mpr ⟨v, m₁, runLeft, .inl ⟨decided, rfl, rfl⟩⟩, grown⟩
    | false =>
      obtain ⟨w, m₂, runRight, grown'⟩ := right fun x h => grown x (held x (.inr h))
      obtain ⟨u, result⟩ := computes.operator op known v w
      exact ⟨u, m₂,
        Node.eval_binary_iff.mpr ⟨v, m₁, runLeft, .inr ⟨decided, w, runRight, result⟩⟩,
        fun x h => grown' x (grown x h)⟩
  | @sequence es s filled _ each =>
    simp only [Node.variables, Node.mem_variablesOfParts] at held
    simp only [Node.eval_sequence]
    induction es generalizing m with
    | nil => exact absurd rfl filled
    | cons e es ih =>
      obtain ⟨v, m₁, run, grown⟩ := each e (by simp) fun x h => held x ⟨e, by simp, h⟩
      cases es with
      | nil => exact ⟨v, m₁, by simpa [Node.evalSequence_singleton] using run, grown⟩
      | cons e' es =>
        obtain ⟨w, m₂, rest, grown'⟩ :=
          ih (m := m₁) (by simp) (by simp_all) (fun d h => each d (by simp_all))
            fun x ⟨d, among, h⟩ => grown x (held x ⟨d, by simp_all, h⟩)
        exact ⟨w, m₂, Node.evalSequence_cons_iff.mpr ⟨v, m₁, run, rest⟩, fun x h => grown'
          x (grown x h)⟩
  | @assign x ref e s s' level _ value =>
    simp only [Node.variables, Node.variablesOfParts, List.append_nil, List.mem_append,
      List.mem_singleton] at held
    obtain ⟨v, m₁, run, grown⟩ := value fun y h => held y (.inr h)
    have stored := (grown x (held x (.inl rfl))).write v
    exact ⟨v, _, Node.eval_assign_iff.mpr ⟨_, m₁, rfl, run, stored⟩, fun y h => (grown y h).set x v⟩
  | @combine op x ref e s s' known level _ value =>
    simp only [Node.variables, Node.variablesOfParts, List.append_nil, List.mem_append,
      List.mem_singleton] at held
    obtain ⟨old, read⟩ := (held x (.inl rfl)).read
    cases decided : P.decides op old with
    | true =>
      exact ⟨old, m,
        Node.eval_combine_iff.mpr ⟨_, old, rfl, read, .inl ⟨decided, rfl, rfl⟩⟩, fun _ h => h⟩
    | false =>
      obtain ⟨v, m₁, run, grown⟩ := value fun y h => held y (.inr h)
      obtain ⟨u, result⟩ := computes.operator op known old v
      have stored := (grown x (held x (.inl rfl))).write u
      exact ⟨u, _, Node.eval_combine_iff.mpr
        ⟨_, old, rfl, read, .inr ⟨decided, v, m₁, run, result, stored⟩⟩,
        fun y h => (grown y h).set x u⟩
  | @update op isPrefixed x ref s s' known level =>
    have holds : m.Holds x := held x (by simp [Node.variables, Node.variablesOfParts])
    obtain ⟨old, read⟩ := holds.read
    obtain ⟨one, _, steps⟩ := computes.update op known
    obtain ⟨u, step, _, _⟩ := steps old
    exact ⟨_, _, Node.eval_update_iff.mpr ⟨_, old, old, u, rfl, read, step, holds.write u, rfl⟩,
      fun y h => h.set x u⟩

namespace Primitives

def integers : Primitives Int where
  literal n := n.natValue?.map Int.ofNat
  boolean _ := none
  undefined := none
  binary op v w := match op with
    | .add => some (v + w)
    | .subtract => some (v - w)
    | _ => none
  isTruthy v := v != 0
  isNullish _ := false
  step op v := some (v, match op with
    | .increment => v + 1
    | .decrement => v - 1)

theorem integers_inverts (op : UpdateOp) : integers.Inverts op := by
  refine ⟨1, by decide, fun v => ?_⟩
  cases op with
  | increment => exact ⟨v + 1, rfl, rfl, congrArg some (by omega)⟩
  | decrement => exact ⟨v - 1, rfl, rfl, congrArg some (by omega)⟩

end Primitives

def Vocabulary.sums : Vocabulary where
  numeral n := n.natValue?.isSome = true
  operator op := op = .add ∨ op = .subtract
  update _ := True

theorem Vocabulary.sums_computes : sums.Computes Primitives.integers where
  numeral n known := by
    obtain ⟨k, value⟩ := Option.isSome_iff_exists.mp known
    exact ⟨k, by simp [Primitives.integers, value]⟩
  operator op known := by
    rcases known with rfl | rfl
    · exact fun v w => ⟨v + w, rfl⟩
    · exact fun v w => ⟨v - w, rfl⟩
  update op _ := Primitives.integers_inverts op

/-- Over the integers, a live expression has the value of the expression it comes from and leaves
the same variables behind, and exports that agreed with their variables agree with them again. -/
theorem live_evaluates_alike (l : LiveBindings) (unambiguous : l.exports.IsUnambiguous)
    (completes : Bool) (e : Node) (straight : Straight .sums l e) {κ : Type} [DecidableEq κ]
    (key : List Nat → κ) (distinct : Function.Injective key) (m : Memory Int)
    (held : ∀ x ∈ e.variables, m.Holds x) (agrees : m.Agrees l.exports) :
    ∃ v m₁ m₂, e.eval Primitives.integers m = some (v, m₁) ∧
      ((e.liveOnce l key completes []).run []).run.1.eval Primitives.integers m = some (v, m₂) ∧
      m₂.locals = m₁.locals ∧ m₂.Agrees l.exports := by
  rw [Node.run_liveOnce distinct]
  have computes := Vocabulary.sums_computes
  obtain ⟨v, m₁, run, _⟩ := straight.eval_of_holds computes held
  obtain ⟨m₂, run', same, follows⟩ :=
    (straight.matches_live unambiguous computes.update completes).run ⟨rfl, rfl⟩ run
  refine ⟨v, m₁, m₂, run, run', same.locals,
    follows.agrees unambiguous (fun x touched => ?_) agrees⟩
  obtain ⟨⟨k, declared, -⟩, -⟩ := held x (Node.mem_variables_of_touched touched)
  exact ⟨k, declared⟩

section Example

def LiveBindings.twoVariables : LiveBindings where
  scopes := ⟨[⟨[], "a", ⟨[], "a"⟩⟩, ⟨[], "c", ⟨[], "c"⟩⟩], [], [], none⟩
  redirects := .empty
  exports := ⟨[("a", ["a", "b"]), ("c", ["c"])]⟩

def Memory.twoVariables : Memory Int where
  kinds x := if x = "a" ∨ x = "c" then some .blockScoped else none
  locals x := if x = "a" then some 3 else if x = "c" then some 5 else none
  exports p := if p = "a" ∨ p = "b" then some 3 else if p = "c" then some 5 else none
  replacement := none

def Node.nestedWrites : Node :=
  let a : Form := .target "a" (.symbol ⟨[], "a"⟩)
  let c : Form := .target "c" (.symbol ⟨[], "c"⟩)
  .made (.assign .plain) [.made a [], .made (.binary .subtract)
    [.made (.update .increment false) [.made a []],
     .made (.assign (.combined .add)) [.made c [], .made (.ident "a" (.symbol ⟨[], "a"⟩)) []]]]

theorem live_evaluates_alike_nestedWrites :
    ∃ v m₁ m₂, Node.nestedWrites.eval Primitives.integers .twoVariables = some (v, m₁) ∧
      ((Node.nestedWrites.liveOnce .twoVariables id false []).run []).run.1.eval
        Primitives.integers .twoVariables = some (v, m₂) ∧
      m₂.locals = m₁.locals ∧ m₂.Agrees LiveBindings.twoVariables.exports := by
  refine live_evaluates_alike .twoVariables (by decide) false .nestedWrites ?straight id
    Function.injective_id .twoVariables ?held ?agrees
  case straight =>
    exact .assign (by decide) (.binary (.inr rfl) (.update trivial (by decide))
      (.combine (.inl rfl) (by decide) (.ident (by decide) (by decide))))
  case held =>
    intro x among
    have known : x = "a" ∨ x = "c" ∨ x = "a" := by
      simpa [Node.nestedWrites, Node.made, Node.variables, Node.variablesOfParts] using among
    rcases known with rfl | rfl | rfl <;> exact ⟨⟨.blockScoped, rfl, by decide⟩, _, rfl⟩
  case agrees =>
    intro x names p listed among
    have entry : (x = "a" ∧ names = ["a", "b"]) ∨ (x = "c" ∧ names = ["c"]) := by
      simpa [LiveBindings.twoVariables] using OrderedMap.mem_of_get? listed
    rcases entry with ⟨rfl, rfl⟩ | ⟨rfl, rfl⟩
    · rcases (by simpa using among : p = "a" ∨ p = "b") with rfl | rfl <;> rfl
    · obtain rfl : p = "c" := by simpa using among
      rfl

end Example

end ModuleLowering
