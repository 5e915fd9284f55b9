import Mathlib.Logic.Function.Basic
import ModuleLowering.Lower.Live

/-!
What expressions do when they run: an evaluator over any kind of values.

Operands are evaluated from left to right, and a variable that is changed by an operator is read
before the other operand runs. The left operand of a logical operator can decide the value, and then
the right one is left out; so is the write of a logical assignment. An expression that throws, or
that is not of the kinds treated here, has no result.
-/

set_option autoImplicit false

namespace ModuleLowering

/-- What is taken as given about values. An operation without a result throws; a value that a domain
lacks is `none`. -/
structure Primitives (V : Type) where
  literal : Numeral → Option V
  boolean : Bool → Option V
  undefined : Option V
  /-- What any other name stands for that is no variable of the module. -/
  ambient : String → Option V := fun _ => none
  binary : BinaryOp → V → V → Option V
  /-- What a value counts as where a condition is asked for. -/
  isTruthy : V → Bool
  /-- Whether a value is `undefined` or `null`. -/
  isNullish : V → Bool
  /-- The number that a value counts as when it is stepped, and the number after the step. -/
  step : UpdateOp → V → Option (V × V)

namespace Primitives

variable {V : Type} (P : Primitives V)

/-- Whether the left operand is the value of the whole, so that the right one does not run. -/
def decides (op : BinaryOp) (v : V) : Bool :=
  match op with
  | .logicalOr => P.isTruthy v
  | .logicalAnd => !P.isTruthy v
  | .coalesce => !P.isNullish v
  | _ => false

def apply (op : BinaryOp) (v w : V) : Option V :=
  if op.isLogical then some w else P.binary op v w

theorem decides_of_isLogical {op : BinaryOp} (strict : op.isLogical = false) (v : V) :
    P.decides op v = false := by
  cases op <;> first | rfl | cases strict

end Primitives

structure Memory (V : Type) where
  kinds : String → Option VariableKind
  /-- The variables that have come to life, with their values. -/
  locals : String → Option V
  exports : String → Option V
  replacement : Option V

inductive Slot where
  | variable (name : String)
  | exported (name : String)
  | wholeExports
  deriving DecidableEq, Repr

def Slot.property? (object name : String) : Option Slot :=
  if object = "exports" then some (.exported name)
  else if object = "module" ∧ name = "exports" then some .wholeExports
  else none

def Node.slot? : Node → Option Slot
  | .mk (.target x _) _ _ => some (.variable x)
  | .mk (.member false) _ [.mk (.ident o _) _ _, .mk (.word p) _ _] => Slot.property? o p
  | .mk (.index false) _ [.mk (.ident o _) _ _, .mk (.string p) _ _] => Slot.property? o p
  | _ => none

namespace Memory

variable {V : Type}

/-- A variable that is not alive yet cannot be read. -/
def read (P : Primitives V) (m : Memory V) (x : String) : Option V :=
  match m.kinds x with
  | some _ => m.locals x
  | none => if x = "undefined" then P.undefined else P.ambient x

def set (m : Memory V) (x : String) (v : V) : Memory V :=
  { m with locals := Function.update m.locals x (some v) }

/-- Neither a constant nor a variable that is not alive yet can be written. -/
def write (m : Memory V) (x : String) (v : V) : Option (Memory V) :=
  match m.kinds x with
  | none | some .constant => none
  | some _ => if (m.locals x).isSome then some (m.set x v) else none

def setExport (m : Memory V) (p : String) (v : V) : Memory V :=
  { m with exports := Function.update m.exports p (some v) }

def load (P : Primitives V) (m : Memory V) : Slot → Option V
  | .variable x => m.read P x
  | .exported p => (m.exports p).or P.undefined
  | .wholeExports => none

def store (m : Memory V) (v : V) : Slot → Option (Memory V)
  | .variable x => m.write x v
  | .exported p => some (m.setExport p v)
  | .wholeExports => some { m with replacement := some v }

end Memory

def Node.flagged? : Node → Option (String × Bool)
  | .mk (.call false) _ [.mk (.member false) _ [.mk (.ident o _) _ _, .mk (.word f) _ _], _,
      .mk (.ident e _) _ _, .mk (.string p) _ _,
      .mk .object _ [.mk (.property false false) _ [.mk (.word k) _ _, .mk (.boolean b) _ _]]] =>
    if o = "Object" ∧ f = "defineProperty" ∧ e = "exports" ∧ k = "value" then some (p, b) else none
  | _ => none

mutual

def Node.eval {V : Type} (P : Primitives V) : Node → Memory V → Option (V × Memory V)
  | .mk (.number n) _ _, m => (P.literal n).map (·, m)
  | .mk (.boolean b) _ _, m => (P.boolean b).map (·, m)
  | .mk (.ident x _) _ _, m => (m.read P x).map (·, m)
  | .mk (.index o) s ps, m => do
    let p ← (mk (.index o) s ps).slot?
    let v ← m.load P p
    some (v, m)
  | .mk (.binary op) _ [a, b], m => do
    let (v, m) ← a.eval P m
    if P.decides op v then some (v, m)
    else do
      let (w, m) ← b.eval P m
      let u ← P.apply op v w
      some (u, m)
  | .mk .sequence _ es, m => evalSequence P es m
  | .mk (.assign .plain) _ [t, e], m => do
    let p ← t.slot?
    let (v, m) ← e.eval P m
    let m ← m.store v p
    some (v, m)
  | .mk (.assign (.combined op)) _ [t, e], m => do
    let p ← t.slot?
    let old ← m.load P p
    if P.decides op old then some (old, m)
    else do
      let (v, m) ← e.eval P m
      let u ← P.apply op old v
      let m ← m.store u p
      some (u, m)
  | .mk (.update op isPrefixed) _ [t], m => do
    let p ← t.slot?
    let old ← m.load P p
    let (number, next) ← P.step op old
    let m ← m.store next p
    some (if isPrefixed then next else number, m)
  -- A variable of the name hides the runtime's `Object`, and has no value at the start.
  | .mk (.call o) s ps, m => do
    let (p, b) ← (mk (.call o) s ps).flagged?
    if (m.kinds "Object").isSome then none
    else do
      let v ← P.boolean b
      some (v, m.setExport p v)
  | _, _ => none

def Node.evalSequence {V : Type} (P : Primitives V) : List Node → Memory V → Option (V × Memory V)
  | [], _ => none
  | e :: es, m => do
    let (v, m) ← e.eval P m
    match es with
    | [] => some (v, m)
    | _ :: _ => evalSequence P es m

end

-- What a finished evaluation says about its operands, and the other way round.
section
variable {V : Type} {P : Primitives V} {s : Option Span} {m m' : Memory V} {v : V}

theorem Node.eval_number_iff {n : Numeral} {ps : List Node} :
    (mk (.number n) s ps).eval P m = some (v, m') ↔ P.literal n = some v ∧ m' = m := by
  simp only [eval, Option.map_eq_some_iff, Prod.mk.injEq]
  grind

theorem Node.eval_ident_iff {x : String} {ref : Reference} {ps : List Node} :
    (mk (.ident x ref) s ps).eval P m = some (v, m') ↔ m.read P x = some v ∧ m' = m := by
  simp only [eval, Option.map_eq_some_iff, Prod.mk.injEq]
  grind

theorem Node.eval_binary_iff {op : BinaryOp} {a b : Node} :
    (mk (.binary op) s [a, b]).eval P m = some (v, m') ↔
      ∃ u m₁, a.eval P m = some (u, m₁) ∧
        (P.decides op u = true ∧ v = u ∧ m' = m₁ ∨
        P.decides op u = false ∧ ∃ w, b.eval P m₁ = some (w, m') ∧ P.apply op u w = some v) := by
  simp only [eval, Option.bind_eq_bind, Option.bind_eq_some_iff, Prod.exists]
  refine exists₂_congr fun u m₁ => and_congr_right fun _ => ?_
  cases P.decides op u with
  | true => simp [eq_comm]
  | false =>
    simp only [Bool.false_eq_true, if_false, Option.bind_eq_some_iff, Prod.exists, false_and,
      true_and, false_or, Option.some.injEq, Prod.mk.injEq]
    grind

theorem Node.eval_assign_iff {t e : Node} :
    (mk (.assign .plain) s [t, e]).eval P m = some (v, m') ↔
      ∃ p m₁, t.slot? = some p ∧ e.eval P m = some (v, m₁) ∧ m₁.store v p = some m' := by
  simp only [eval, Option.bind_eq_bind, Option.bind_eq_some_iff, Prod.exists, Option.some.injEq,
    Prod.mk.injEq]
  grind

theorem Node.eval_combine_iff {op : BinaryOp} {t e : Node} :
    (mk (.assign (.combined op)) s [t, e]).eval P m = some (v, m') ↔
      ∃ p old, t.slot? = some p ∧ m.load P p = some old ∧
        (P.decides op old = true ∧ v = old ∧ m' = m ∨
        P.decides op old = false ∧ ∃ u m₁, e.eval P m = some (u, m₁) ∧ P.apply op old u = some v ∧
          m₁.store v p = some m') := by
  simp only [eval, Option.bind_eq_bind, Option.bind_eq_some_iff, ← exists_and_left]
  refine exists₂_congr fun p old => and_congr_right fun _ => and_congr_right fun _ => ?_
  cases P.decides op old with
  | true => simp [eq_comm]
  | false =>
    simp only [Bool.false_eq_true, if_false, Option.bind_eq_some_iff, Prod.exists, false_and,
      true_and, false_or, Option.some.injEq, Prod.mk.injEq]
    grind

theorem Node.eval_update_iff {op : UpdateOp} {isPrefixed : Bool} {t : Node} :
    (mk (.update op isPrefixed) s [t]).eval P m = some (v, m') ↔
      ∃ p old number next, t.slot? = some p ∧ m.load P p = some old ∧
        P.step op old = some (number, next) ∧
        m.store next p = some m' ∧ v = if isPrefixed then next else number := by
  simp only [eval, Option.bind_eq_bind, Option.bind_eq_some_iff, Prod.exists, Option.some.injEq,
    Prod.mk.injEq]
  grind

theorem Node.eval_sequence {es : List Node} :
    (mk .sequence s es).eval P m = evalSequence P es m := rfl

theorem Node.evalSequence_singleton {e : Node} : evalSequence P [e] m = e.eval P m := by
  rw [evalSequence]
  cases e.eval P m <;> rfl

theorem Node.evalSequence_cons_iff {e f : Node} {es : List Node} :
    evalSequence P (e :: f :: es) m = some (v, m') ↔
      ∃ u m₁, e.eval P m = some (u, m₁) ∧ evalSequence P (f :: es) m₁ = some (v, m') := by
  rw [evalSequence]
  simp [Option.bind_eq_some_iff]

end

end ModuleLowering
