import ModuleLowering.Proofs.Evaluation.Statement
import ModuleLowering.Proofs.Lower.Spelling

/-!
Expressions evaluate alike under new names, in a memory that has the same variables under the new
names.
-/

set_option autoImplicit false

namespace ModuleLowering

namespace Memory

variable {V : Type} {P : Primitives V} {σ : Spelling} {m m' m₁ : Memory V}

structure Spelled (σ : Spelling) (m m' : Memory V) : Prop where
  kinds : ∀ x, σ.used x → m'.kinds (σ.name x) = m.kinds x
  locals : ∀ x, σ.used x → m'.locals (σ.name x) = m.locals x
  others : ∀ x, σ.used x → m.kinds x = none → σ.name x = x

theorem Spelled.read (h : Spelled σ m m') {x : String} (used : σ.used x) :
    m'.read P (σ.name x) = m.read P x := by
  simp only [Memory.read, h.kinds x used, h.locals x used]
  cases unknown : m.kinds x with
  | some kind => rfl
  | none => rw [h.others x used unknown]

theorem Spelled.set (h : Spelled σ m m') {x : String} (used : σ.used x) (v : V) :
    Spelled σ (m.set x v) (m'.set (σ.name x) v) where
  kinds := h.kinds
  others := h.others
  locals y usedY := by
    by_cases same : y = x
    · simp [Memory.set, same]
    · have apart : σ.name y ≠ σ.name x := fun eq => same (σ.injective usedY used eq)
      simp [Memory.set, same, apart, h.locals y usedY]

theorem Spelled.setExport (h : Spelled σ m m') (p : String) (v : V) :
    Spelled σ m (m'.setExport p v) := ⟨h.kinds, h.locals, h.others⟩

theorem Spelled.write_rel (h : Spelled σ m m') {x : String} (used : σ.used x) (v : V) :
    Option.Rel (Spelled σ) (m.write x v) (m'.write (σ.name x) v) := by
  simp only [Memory.write, h.kinds x used, h.locals x used]
  split
  · exact .none
  · exact .none
  · split
    · exact .some (h.set used v)
    · exact .none

theorem Spelled.write (h : Spelled σ m m') {x : String} (used : σ.used x) {v : V}
    (done : m.write x v = some m₁) :
    m'.write (σ.name x) v = some (m'.set (σ.name x) v) ∧ Spelled σ m₁ (m'.set (σ.name x) v) := by
  have both := h.write_rel used v
  rw [done] at both
  generalize written : m'.write (σ.name x) v = o at both
  cases both with
  | some spelled =>
    obtain ⟨rfl, -⟩ := Memory.write_eq_some written
    exact ⟨rfl, spelled⟩

end Memory

/-- Where `e` has a value, `e'` has the same one under the new names, comes to the same assignments
and leaves the exports alone. -/
def Respells {V : Type} (P : Primitives V) (σ : Spelling) (e e' : Node) : Prop :=
  ∀ {m m' m₁ : Memory V} {v : V}, Memory.Spelled σ m m' → e.eval P m = some (v, m₁) →
    ∃ m₂, e'.eval P m' = some (v, m₂) ∧ Memory.Spelled σ m₁ m₂ ∧ m₂.exports = m'.exports ∧
      e'.touched P m' = (e.touched P m).map σ.name

theorem Respells.sequence {V : Type} {P : Primitives V} {σ : Spelling} {f : Node → Node}
    {s : Option Span} {es : List Node} (filled : es ≠ []) (each : ∀ e ∈ es, Respells P σ e (f e)) :
    Respells P σ (.mk .sequence s es) (.mk .sequence s (es.map f)) := by
  intro m m' m₁ v spelled run
  rw [Node.eval_sequence] at run
  simp only [Node.eval_sequence, Node.touched]
  induction es generalizing m m' with
  | nil => exact absurd rfl filled
  | cons e es ih =>
    have first : Respells P σ e (f e) := each e List.mem_cons_self
    cases es with
    | nil =>
      rw [Node.evalSequence_singleton] at run
      obtain ⟨m₂, run', spelled', exports, touched⟩ := first spelled run
      refine ⟨m₂, by simpa [Node.evalSequence_singleton] using run', spelled', exports, ?_⟩
      simp only [List.map_cons, List.map_nil, Node.touchedInTurn_singleton, touched]
    | cons e' es =>
      obtain ⟨u, n, runFirst, runRest⟩ := Node.evalSequence_cons_iff.mp run
      obtain ⟨n', runFirst', spelled₁, exports₁, touched₁⟩ := first spelled runFirst
      obtain ⟨m₂, runRest', spelled₂, exports₂, touched₂⟩ :=
        ih (by simp) (fun e h => each e (List.mem_cons_of_mem _ h)) spelled₁ runRest
      refine ⟨m₂, Node.evalSequence_cons_iff.mpr ⟨u, n', runFirst', runRest'⟩, spelled₂,
        exports₂.trans exports₁, ?_⟩
      rw [List.map_cons, Node.touchedInTurn_cons runFirst', Node.touchedInTurn_cons runFirst,
        List.map_append, touched₁, touched₂]

theorem Plain.respells {V : Type} (P : Primitives V) (σ : Spelling) (ref : String → Reference)
    {e : Node} (h : Plain e) (used : ∀ x ∈ e.variables, σ.used x) :
    Respells P σ e (e.respell σ.name ref) := by
  induction h with
  | number n s =>
    intro m m' m₁ v spelled run
    obtain ⟨literal, rfl⟩ := Node.eval_number_iff.mp run
    exact ⟨m', Node.eval_number_iff.mpr ⟨literal, rfl⟩, spelled, rfl, rfl⟩
  | ident x r s =>
    intro m m' m₁ v spelled run
    obtain ⟨read, rfl⟩ := Node.eval_ident_iff.mp run
    have read' := (spelled.read (used x (by simp [Node.variables]))).trans read
    exact ⟨m', Node.eval_ident_iff.mpr ⟨read', rfl⟩, spelled, rfl, rfl⟩
  | @binary op s a b _ _ left right =>
    simp only [Node.variables, Node.variablesOfParts, List.append_nil, List.mem_append] at used
    intro m m' m₁ v spelled run
    obtain ⟨u, n, runLeft, rest⟩ := Node.eval_binary_iff.mp run
    obtain ⟨n', runLeft', spelled₁, exports₁, touched₁⟩ :=
      left (fun x h => used x (.inl h)) spelled runLeft
    have touchedBoth : (Node.mk (.binary op) s [a.respell σ.name ref,
        b.respell σ.name ref]).touched P m' = _ := Node.touched_binary runLeft'
    rcases rest with ⟨decided, rfl, rfl⟩ | ⟨undecided, w, runRight, result⟩
    · refine ⟨n', Node.eval_binary_iff.mpr ⟨v, n', runLeft', .inl ⟨decided, rfl, rfl⟩⟩, spelled₁,
        exports₁, touchedBoth.trans ?_⟩
      simp [Node.touched_binary runLeft, decided, touched₁]
    · obtain ⟨m₂, runRight', spelled₂, exports₂, touched₂⟩ :=
        right (fun x h => used x (.inr h)) spelled₁ runRight
      refine ⟨m₂, Node.eval_binary_iff.mpr ⟨u, n', runLeft',
        .inr ⟨undecided, w, runRight', result⟩⟩, spelled₂,
        exports₂.trans exports₁, touchedBoth.trans ?_⟩
      simp [Node.touched_binary runLeft, undecided, touched₁, touched₂]
  | @sequence s es filled _ each =>
    simp only [Node.variables, Node.mem_variablesOfParts] at used
    rw [Node.respell, Node.respellParts_eq_map]
    exact Respells.sequence filled fun e among => each e among fun x h => used x ⟨e, among, h⟩
  | @assign x r s s' e _ value =>
    simp only [Node.variables, Node.variablesOfParts, List.append_nil, List.mem_append,
      List.mem_singleton] at used
    intro m m' m₁ v spelled run
    obtain ⟨p, n, slot, runValue, stored⟩ := Node.eval_assign_iff.mp run
    obtain rfl := Option.some.inj slot
    obtain ⟨n', runValue', spelled', exports, touched⟩ :=
      value (fun y h => used y (.inr h)) spelled runValue
    obtain ⟨stored', written⟩ := spelled'.write (used x (.inl rfl)) stored
    refine ⟨_, Node.eval_assign_iff.mpr ⟨_, n', rfl, runValue', stored'⟩, written, exports, ?_⟩
    show (e.respell σ.name ref).touched P m' ++ [σ.name x] = (e.touched P m ++ [x]).map σ.name
    rw [touched, List.map_append, List.map_singleton]
  | @combine op x r s s' e _ value =>
    simp only [Node.variables, Node.variablesOfParts, List.append_nil, List.mem_append,
      List.mem_singleton] at used
    intro m m' m₁ v spelled run
    obtain ⟨p, old, slot, loaded, rest⟩ := Node.eval_combine_iff.mp run
    obtain rfl := Option.some.inj slot
    have loaded' : m'.load P (.variable (σ.name x)) = some old :=
      (spelled.read (used x (.inl rfl))).trans loaded
    have touchedHere : (Node.mk (.assign (.combined op)) s [.mk (.target x r) s' [], e]).touched
        P m = _ := Node.touched_combine loaded
    have touchedThere : (Node.mk (.assign (.combined op)) s [.mk (.target (σ.name x) (ref x)) s' [],
        e.respell σ.name ref]).touched P m' = _ := Node.touched_combine loaded'
    rcases rest with ⟨decided, rfl, rfl⟩ | ⟨undecided, u, n, runValue, result, stored⟩
    · refine ⟨m', Node.eval_combine_iff.mpr ⟨_, v, rfl, loaded', .inl ⟨decided, rfl, rfl⟩⟩, spelled,
        rfl, touchedThere.trans ?_⟩
      simp [touchedHere, decided]
    · obtain ⟨n', runValue', spelled', exports, touched⟩ :=
        value (fun y h => used y (.inr h)) spelled runValue
      obtain ⟨stored', written⟩ := spelled'.write (used x (.inl rfl)) stored
      refine ⟨_, Node.eval_combine_iff.mpr
        ⟨_, old, rfl, loaded', .inr ⟨undecided, u, n', runValue', result, stored'⟩⟩, written,
        exports, touchedThere.trans ?_⟩
      simp [touchedHere, undecided, touched]

def Vocabulary.plain : Vocabulary := ⟨fun _ => True, fun _ => True, fun _ => False⟩

theorem Plain.straight {e : Node} (h : Plain e) {name : String → String} {ref : String → Reference}
    {l : LiveBindings} (level : ∀ x ∈ e.variables, l.isModuleLevel (name x) (ref x) = true)
    (direct : ∀ x, l.redirects.get? x = none) :
    Straight .plain l (e.respell name ref) := by
  induction h with
  | number n s => exact .number trivial
  | ident x r s => exact .ident (level x (by simp [Node.variables])) (direct _)
  | binary op s _ _ left right =>
    simp only [Node.variables, Node.variablesOfParts, List.append_nil, List.mem_append] at level
    exact .binary trivial (left fun x h => level x (.inl h)) (right fun x h => level x (.inr h))
  | @sequence s es filled _ each =>
    simp only [Node.variables, Node.mem_variablesOfParts] at level
    rw [Node.respell, Node.respellParts_eq_map]
    refine .sequence (by simpa using filled) ?_
    simp only [List.forall_mem_map]
    exact fun e among => each e among fun x h => level x ⟨e, among, h⟩
  | assign x r s s' _ value =>
    simp only [Node.variables, Node.variablesOfParts, List.append_nil, List.mem_append,
      List.mem_singleton] at level
    exact .assign (level x (.inl rfl)) (value fun y h => level y (.inr h))
  | combine op x r s s' _ value =>
    simp only [Node.variables, Node.variablesOfParts, List.append_nil, List.mem_append,
      List.mem_singleton] at level
    exact .combine trivial (level x (.inl rfl)) (value fun y h => level y (.inr h))

theorem Plain.isFlat {e : Node} (h : Plain e) (outer : Bool) : e.isFlat outer = true := by
  induction h with
  | number | ident => cases outer <;> rfl
  | binary op s _ _ left right =>
    simp [Node.isFlat, Node.areFlat, Form.isFlat, Form.isBinder, Form.declaresIn, left, right]
  | sequence s filled _ each =>
    simp [Node.isFlat, Form.isFlat, Form.isBinder, Node.areFlat_of_forall (f := .sequence)
      (fun _ => rfl) each]
  | assign x r s s' _ value | combine op x r s s' _ value =>
    simp [Node.isFlat, Node.areFlat, Form.isFlat, Form.isBinder, Form.declaresIn, value]

end ModuleLowering
