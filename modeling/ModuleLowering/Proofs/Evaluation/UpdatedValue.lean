import ModuleLowering.Proofs.Evaluation.Double
import ModuleLowering.Proofs.Evaluation.LiveExpression
import ModuleLowering.Proofs.Lower.LiveTree

/-!
Which values an update of an exported variable treats like the update itself. The pass writes an
addition or a subtraction in its place, and these do not take their operands as an update does: a
sum of a text and a number is a text, and a big integer cannot be added to a number at all.
-/

set_option autoImplicit false

namespace ModuleLowering

inductive Numeric where
  | number (x : Double)
  | big (z : Int)
  deriving DecidableEq

namespace Numeric

/-- The two kinds of numbers do not mix. -/
def add : Numeric → Numeric → Option Numeric
  | .number x, .number y => some (.number (x.add y))
  | .big a, .big b => some (.big (a + b))
  | _, _ => none

def subtract : Numeric → Numeric → Option Numeric
  | .number x, .number y => some (.number (x.subtract y))
  | .big a, .big b => some (.big (a - b))
  | _, _ => none

def stepped (op : UpdateOp) : Numeric → Numeric
  | .number x => .number (x.stepped op)
  | .big z => .big (z + op.amount)

end Numeric

inductive Value where
  | undefined
  | null
  | boolean (b : Bool)
  | numeric (n : Numeric)
  | string (s : String)
  | symbol (id : Nat)
  deriving DecidableEq

structure NumberTexts where
  read : String → Double
  write : Double → String

namespace Value

variable (t : NumberTexts)

def numeric? : Value → Option Numeric
  | .undefined => some (.number .nan)
  | .null => some (.number (.ofInt 0))
  | .boolean b => some (.number (.ofInt (if b then 1 else 0)))
  | .numeric n => some n
  | .string s => some (.number (t.read s))
  | .symbol _ => none

def text? : Value → Option String
  | .undefined => some "undefined"
  | .null => some "null"
  | .boolean b => some (if b then "true" else "false")
  | .numeric (.number x) => some (t.write x)
  | .numeric (.big z) => some (toString z)
  | .string s => some s
  | .symbol _ => none

def isString : Value → Bool
  | .string _ => true
  | _ => false

def isTruthy : Value → Bool
  | .undefined | .null | .numeric (.number .nan) => false
  | .boolean b => b
  | .numeric (.number (.finite _ m)) => m.units != 0
  | .numeric (.big z) => z != 0
  | .string s => s != ""
  | .numeric (.number (.infinite _)) | .symbol _ => true

def add (v w : Value) : Option Value :=
  if v.isString || w.isString then do
    let a ← v.text? t
    let b ← w.text? t
    some (.string (a ++ b))
  else do
    let a ← v.numeric? t
    let b ← w.numeric? t
    (a.add b).map .numeric

def subtract (v w : Value) : Option Value := do
  let a ← v.numeric? t
  let b ← w.numeric? t
  (a.subtract b).map .numeric

end Value

def Primitives.values (t : NumberTexts) : Primitives Value where
  literal n := some (.numeric (.number (.ofNumeral n)))
  boolean b := some (.boolean b)
  undefined := some .undefined
  binary op v w := match op with
    | .add => v.add t w
    | .subtract => v.subtract t w
    | _ => none
  isTruthy := Value.isTruthy
  isNullish v := v == .undefined || v == .null
  step op v := (v.numeric? t).map fun n => (.numeric n, .numeric (n.stepped op))

section Updates

variable {V : Type}

def Primitives.updated (P : Primitives V) (op : UpdateOp) (isPrefixed : Bool) (v : V) :
    Option (V × V) :=
  (P.step op v).map fun r => (if isPrefixed then r.2 else r.1, r.2)

/-- The same for the sum that is written for it, and the way back if the old value is wanted. -/
def Primitives.recomputed (P : Primitives V) (op : UpdateOp) (isPrefixed : Bool) (one v : V) :
    Option (V × V) :=
  (P.apply op.forward v one).bind fun u =>
    (if isPrefixed then some u else P.apply op.backward u one).map fun w => (w, u)

/-- The expression `e'` gives the value that `e` gives and leaves the same variables, with all of
the exports holding what `x` holds; and it throws just where `e` does. -/
structure KeepsMeaning (P : Primitives V) (names : List String) (x : String) (e e' : Node)
    (m : Memory V) : Prop where
  throws : e'.eval P m = none ↔ e.eval P m = none
  result : ∀ w m₁, e.eval P m = some (w, m₁) →
    ∃ m₂, e'.eval P m = some (w, m₂) ∧ m₂.locals = m₁.locals ∧
    ∀ p ∈ names, m₂.exports p = m₂.locals x

variable {P : Primitives V}

theorem Made.eval_exportChain (names : List String) (e : Node) (m : Memory V) :
    (exportChain names e).eval P m = (e.eval P m).map fun r => (r.1, r.2.setExports names r.1) := by
  ext r
  obtain ⟨w, m'⟩ := r
  rw [eval_exportChain_iff, Option.map_eq_some_iff]
  constructor
  · rintro ⟨m₁, run, rfl⟩
    exact ⟨(w, m₁), run, rfl⟩
  · rintro ⟨⟨w', m₁⟩, run, eq⟩
    obtain ⟨rfl, rfl⟩ := Prod.mk.inj eq
    exact ⟨m₁, run, rfl⟩

theorem Memory.exports_of_mem (m : Memory V) (x : String) {names : List String} (u : V) {p : String}
    (listed : p ∈ names) :
    ((m.set x u).setExports names u).exports p = ((m.set x u).setExports names u).locals x := by
  simp [setExports_exports, listed, Memory.set]

section Held

variable {m : Memory V} {x : String} {kind : VariableKind} {v : V}
    (declared : m.kinds x = some kind)
  (held : m.locals x = some v)
include declared held

theorem Memory.load_of_held : m.load P (.variable x) = some v := by
  simp [load, read, declared, held]

theorem Memory.write_of_held (u : V) : m.write x u = if kind = .constant then none
    else some (m.set x u) := by
  cases kind <;> simp [write, declared, held]

theorem Node.eval_update (op : UpdateOp) (isPrefixed : Bool) (ref : Reference) (s s' : Option Span)
    (ps : List Node) :
    (mk (.update op isPrefixed) s [.mk (.target x ref) s' ps]).eval P m =
      if kind = .constant then none else (P.updated op isPrefixed v).map fun r =>
      (r.1, m.set x r.2) := by
  simp only [eval, slot?, Option.bind_eq_bind, Option.bind_some, Memory.load_of_held declared held,
    Memory.store, Memory.write_of_held declared held, Primitives.updated]
  by_cases constant : kind = .constant
  · cases P.step op v <;> simp [constant]
  · cases P.step op v <;> simp [constant]

variable {one : V} (unit : P.literal (Numeral.ofNat 1) = some one)
include unit

theorem Made.eval_step (op : UpdateOp) (ref : Reference) (names : List String) :
    (exportChain names (.made (.assign (.combined op.forward)) [.made (.target x ref) [],
      number 1])).eval P m =
      if kind = .constant then none
      else (P.apply op.forward v one).map fun u => (u, (m.set x u).setExports names u) := by
  rw [eval_exportChain]
  simp only [Node.made, number, Node.eval, Node.slot?, Option.bind_eq_bind, Option.bind_some, unit,
    Option.map_some, Memory.load_of_held declared held, Memory.store, Memory.write_of_held
    declared held, P.decides_of_isLogical op.forward_strict, Bool.false_eq_true, if_false]
  by_cases constant : kind = .constant
  · cases P.apply op.forward v one <;> simp [constant]
  · cases P.apply op.forward v one <;> simp [constant]

omit held in
theorem Made.eval_back (op : UpdateOp) (ref : Reference) (names : List String) (u : V) :
    (Node.made (.binary op.backward) [.made (.ident x ref) [], number 1]).eval P
      ((m.set x u).setExports names u) =
      (P.apply op.backward u one).map fun w => (w, (m.set x u).setExports names u) := by
  have alive : ((m.set x u).setExports names u).read P x = some u := by
    simp [Memory.read, Memory.set, declared]
  simp only [Node.made, number, Node.eval, Option.bind_eq_bind, alive, unit, Option.map_some,
    Option.bind_some, P.decides_of_isLogical op.backward_strict, Bool.false_eq_true, if_false]
  cases P.apply op.backward u one <;> rfl

theorem LiveBindings.eval_updateExpression (op : UpdateOp) (isPrefixed : Bool) (ref : Reference)
    (names : List String) :
    (updateExpression op isPrefixed x ref names false).eval P m =
      if kind = .constant then none
      else (P.recomputed op isPrefixed one v).map fun r =>
      (r.1, (m.set x r.2).setExports names r.2) := by
  have step := Made.eval_step declared held unit op ref names
  rw [updateExpression_eq]
  cases isPrefixed with
  | true =>
    refine step.trans ?_
    cases forward : P.apply op.forward v one <;> simp [Primitives.recomputed, forward]
  | false =>
    show Node.evalSequence P [_, _] m = _
    rw [Node.evalSequence, step]
    by_cases constant : kind = .constant
    · simp [constant]
    · cases forward : P.apply op.forward v one with
      | none => simp [Primitives.recomputed, forward]
      | some u =>
        simp only [constant, if_false, Option.map_some, Option.bind_eq_bind, Option.bind_some,
          Node.evalSequence_singleton, Made.eval_back declared unit, Primitives.recomputed, forward,
          Bool.false_eq_true, Option.map_map]
        rfl

theorem keepsMeaning_iff (op : UpdateOp) (isPrefixed : Bool) (ref : Reference) (s s' : Option Span)
    (ps : List Node) (names : List String) :
    KeepsMeaning P names x (.mk (.update op isPrefixed) s [.mk (.target x ref) s' ps])
      (LiveBindings.updateExpression op isPrefixed x ref names false) m ↔
      kind = .constant ∨ P.recomputed op isPrefixed one v = P.updated op isPrefixed v := by
  have before := Node.eval_update (P := P) declared held op isPrefixed ref s s' ps
  have after := LiveBindings.eval_updateExpression declared held unit op isPrefixed ref names
  by_cases constant : kind = .constant
  · rw [if_pos constant] at before after
    exact iff_of_true ⟨by rw [before, after], fun w m₁ run => by rw [before] at run; cases run⟩
      (.inl constant)
  rw [if_neg constant] at before after
  rw [or_iff_right constant]
  constructor
  · rintro ⟨throws, result⟩
    cases updated : P.updated op isPrefixed v with
    | none =>
      rw [before, after, updated, Option.map_eq_none_iff] at throws
      exact throws.mpr rfl
    | some r =>
      rw [updated] at before
      obtain ⟨m₂, run, locals, -⟩ := result _ _ before
      rw [after] at run
      obtain ⟨r', recomputed, eq⟩ := Option.map_eq_some_iff.mp run
      obtain ⟨value, rfl⟩ := Prod.mk.inj eq
      have left := congrFun locals x
      simp only [Memory.setExports_locals, Memory.set, Function.update_self, Option.some.injEq]
        at left
      rw [recomputed, Prod.ext value left]
  · intro same
    rw [same] at after
    constructor
    · rw [before, after, Option.map_eq_none_iff, Option.map_eq_none_iff]
    · intro w m₁ run
      rw [before] at run
      obtain ⟨r, updated, eq⟩ := Option.map_eq_some_iff.mp run
      obtain ⟨rfl, rfl⟩ := Prod.mk.inj eq
      rw [updated] at after
      exact ⟨_, after, Memory.setExports_locals .., fun p listed => m.exports_of_mem x r.2 listed⟩

end Held

end Updates

theorem UpdateOp.backward_eq (op : UpdateOp) : op.backward = op.opposite.forward := by
  cases op <;> rfl

namespace Primitives

variable (t : NumberTexts)

def unitValue : Value := .numeric (.number .one)

theorem literal_one : (values t).literal (Numeral.ofNat 1) = some unitValue := by
  have one : Double.ofNumeral (Numeral.ofNat 1) = Double.one := by decide +kernel
  simp only [values, one]
  rfl

theorem apply_forward (op : UpdateOp) {v : Value} {x : Double}
    (counts : v.numeric? t = some (.number x)) (plain : op = .decrement ∨ v.isString = false) :
    (values t).apply op.forward v unitValue = some (.numeric (.number (x.stepped op))) := by
  have unit : unitValue.numeric? t = some (.number .one) := rfl
  cases op with
  | increment =>
    have other : v.isString = false := plain.resolve_left (by decide)
    have neither : ¬ (v.isString || unitValue.isString) = true := by rw [other]; decide
    show v.add t unitValue = _
    rw [Value.add, if_neg neither, counts, unit]
    rfl
  | decrement =>
    show v.subtract t unitValue = _
    rw [Value.subtract, counts, unit]
    rfl

variable {t} {op : UpdateOp} {isPrefixed : Bool} {v : Value}

theorem recomputed_eq_updated_of_number {x : Double} (counts : v.numeric? t = some (.number x))
    (plain : op = .decrement ∨ v.isString = false) :
    (values t).recomputed op isPrefixed unitValue v = (values t).updated op isPrefixed v ↔
      isPrefixed = true ∨ x.Returns op := by
  have step : (values t).step op v =
    some (.numeric (.number x), .numeric (.number (x.stepped op))) := by
    simp only [values, counts]
    rfl
  have back := apply_forward t op.opposite (v := .numeric (.number (x.stepped op))) rfl (.inr rfl)
  rw [recomputed, updated, apply_forward t op counts plain, step, Option.bind_some,
    op.backward_eq, back]
  cases isPrefixed with
  | true => simp
  | false => simp [Double.Returns]

end Primitives

/-- The values that the sum treats like the update. -/
def Value.Survives (t : NumberTexts) (op : UpdateOp) (isPrefixed : Bool) : Value → Prop
  | .undefined | .null | .boolean _ | .symbol _ => True
  | .numeric (.number x) => isPrefixed = true ∨ x.Returns op
  | .numeric (.big _) => False
  | .string s => op = .decrement ∧ (isPrefixed = true ∨ (t.read s).Returns op)

namespace Primitives

variable (t : NumberTexts) (op : UpdateOp) (isPrefixed : Bool)

theorem recomputed_eq_updated_iff (v : Value) :
    (values t).recomputed op isPrefixed unitValue v = (values t).updated op isPrefixed v ↔
      v.Survives t op isPrefixed := by
  cases v with
  | undefined =>
    refine (recomputed_eq_updated_of_number rfl (.inr rfl)).trans (iff_of_true (.inr ?_) trivial)
    cases op <;> rfl
  | null =>
    refine (recomputed_eq_updated_of_number rfl (.inr rfl)).trans (iff_of_true (.inr ?_) trivial)
    exact Double.returns_ofInt op (by decide)
  | boolean b =>
    refine (recomputed_eq_updated_of_number rfl (.inr rfl)).trans (iff_of_true (.inr ?_) trivial)
    exact Double.returns_ofInt op (by cases b <;> decide)
  | numeric n =>
    cases n with
    | number x => exact recomputed_eq_updated_of_number rfl (.inr rfl)
    | big z =>
      have fails : (values t).recomputed op isPrefixed unitValue (.numeric (.big z)) = none := by
        cases op <;> rfl
      rw [fails]
      exact iff_of_false (fun same => Option.some_ne_none _ same.symm) id
  | string s =>
    cases op with
    | increment =>
      -- The sum leaves a text in the variable, and the update a number.
      refine iff_of_false (fun same => ?_) (fun survives => by cases survives.1)
      obtain ⟨w, -, eq⟩ := Option.map_eq_some_iff.mp same
      cases (Prod.mk.inj eq).2
    | decrement =>
      exact (recomputed_eq_updated_of_number rfl (.inl rfl)).trans (and_iff_right rfl).symm
  | symbol id => cases op <;> exact iff_of_true rfl trivial

end Primitives

/-- The expression that the pass writes for an update of an exported variable keeps the meaning of
the update just for the values that survive it: no big integer, no text that is incremented, and
where the old value is wanted only numbers that the way back returns to. These include all whole
numbers of at most 53 bits, but no number with more than 53 binary places and not the negative zero.
If the expression does not throw, it always leaves the exports with the value of the variable. -/
theorem update_keeps_meaning_iff (t : NumberTexts) (l : LiveBindings) (completes : Bool)
    (op : UpdateOp) (isPrefixed : Bool) (x : String) (ref : Reference) (s s' : Option Span)
    (ps : List Node) (names : List String) (exported : l.exportedNames? x ref = some names)
    (m : Memory Value) (kind : VariableKind) (declared : m.kinds x = some kind) (v : Value)
    (held : m.locals x = some v) :
    let e := Node.mk (.update op isPrefixed) s [.mk (.target x ref) s' ps]
    let e' := e.live l completes
    (KeepsMeaning (.values t) names x e e' m ↔ kind = .constant ∨ v.Survives t op isPrefixed) ∧
    (∀ w m', e'.eval (.values t) m = some (w, m') → ∀ p ∈ names, m'.exports p = m'.locals x) ∧
    (∀ z : Int, z.natAbs < 2 ^ 53 → v = .numeric (.number (.ofInt z)) →
      KeepsMeaning (.values t) names x e e' m) ∧
    (kind ≠ .constant → isPrefixed = false → ∀ y, v = .numeric (.number y) →
      KeepsMeaning (.values t) names x e e' m →
      y.HasPlaces 53 ∧ y ≠ .negativeZero) := by
  intro e e'
  have live : e' = LiveBindings.updateExpression op isPrefixed x ref names false :=
    l.liveAt_update exported completes .ordinary op isPrefixed s s' ps
  have unit := Primitives.literal_one t
  have keeps : KeepsMeaning (.values t) names x e e' m ↔ kind = .constant ∨
    v.Survives t op isPrefixed := by
    rw [live, keepsMeaning_iff declared held unit op isPrefixed,
      Primitives.recomputed_eq_updated_iff]
  refine ⟨keeps, ?_, ?_, ?_⟩
  · intro w m' run p listed
    rw [live, LiveBindings.eval_updateExpression declared held unit] at run
    split at run
    · cases run
    · obtain ⟨r, -, eq⟩ := Option.map_eq_some_iff.mp run
      obtain ⟨-, rfl⟩ := Prod.mk.inj eq
      exact m.exports_of_mem x r.2 listed
  · intro z safe value
    subst value
    exact keeps.mpr (.inr (.inr (Double.returns_ofInt op safe)))
  · intro writable wanted y value kept
    subst value wanted
    have returns : y.Returns op := ((keeps.mp kept).resolve_left writable).resolve_left (by decide)
    refine ⟨Double.hasPlaces_of_returns returns, fun zero => ?_⟩
    rw [zero] at returns
    exact Double.not_returns_negativeZero op returns

section Example

def LiveBindings.exportedTwice : LiveBindings where
  scopes := ⟨[⟨[], "x", ⟨[], "x"⟩⟩], [], [], none⟩
  redirects := .empty
  exports := ⟨[("x", ["x", "y"])]⟩

def Memory.holding (v : Value) : Memory Value :=
  ⟨Function.update (fun _ => none) "x" (some .blockScoped), Function.update (fun _ => none) "x"
    (some v), fun _ => none, none⟩

def NumberTexts.oneDigit : NumberTexts :=
  ⟨fun s => if s = "5" then .ofInt 5 else .nan, fun _ => "1"⟩

def KeepsUpdate (op : UpdateOp) (isPrefixed : Bool) (v : Value) : Prop :=
  let e := Node.made (.update op isPrefixed) [.made (.target "x" (.symbol ⟨[], "x"⟩)) []]
  KeepsMeaning (.values .oneDigit) ["x", "y"] "x" e (e.live .exportedTwice true) (.holding v)

-- The number is `0.1`.
theorem update_keeps_meaning_iff_exportedTwice :
    KeepsUpdate .increment false (.numeric (.number (.ofInt (2 ^ 53 - 1)))) ∧
    KeepsUpdate .decrement false (.string "5") ∧ ¬ KeepsUpdate .increment true (.string "5") ∧
    ¬ KeepsUpdate .increment true (.numeric (.big 5)) ∧
    ¬ KeepsUpdate .increment false (.numeric (.number (.ofNumeral (.ofDecimal 1 (-1))))) := by
  have all (op : UpdateOp) (isPrefixed : Bool) (v : Value) :
      KeepsUpdate op isPrefixed v ↔ v.Survives .oneDigit op isPrefixed :=
    (update_keeps_meaning_iff .oneDigit .exportedTwice true op isPrefixed "x" (.symbol ⟨[], "x"⟩)
      none none [] ["x", "y"] (by decide) (.holding v) .blockScoped (by simp [Memory.holding]) v
      (by simp [Memory.holding])).1.trans (or_iff_right (by decide))
  refine ⟨?_, ?_, ?_, ?_, ?_⟩
  · rw [all]
    exact .inr (Double.returns_ofInt _ (by decide))
  · have read : NumberTexts.oneDigit.read "5" = .ofInt 5 := by simp [NumberTexts.oneDigit]
    rw [all]
    refine ⟨rfl, .inr ?_⟩
    rw [read]
    exact Double.returns_ofInt _ (by decide)
  · rw [all]
    exact fun survives => by cases survives.1
  · rw [all]
    exact id
  · rw [all]
    have lost : ¬ (Double.ofNumeral (.ofDecimal 1 (-1))).Returns .increment := by decide +kernel
    exact fun survives => lost (survives.resolve_left (by decide))

end Example

end ModuleLowering
