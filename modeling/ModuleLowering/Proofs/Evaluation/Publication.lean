import ModuleLowering.Proofs.Evaluation.LoweredStep

/-!
What the exports of a module of variables hold when the lowered module has run.

An assignment gives its value to every export of its variable at once. The value of a declaration
goes to `exports` only where the declaration itself exports the variable; a list reads its variables
where it stands. So an export that is listed before its variable gets its value stays behind.
-/

set_option autoImplicit false

namespace ModuleLowering

section
variable {V : Type} {P : Primitives V} {l : LiveBindings} {σ : Spelling} {ref : String → Reference}
  {pairs : List (String × String)}

/-- The variables in `m₂` are those of `m₁`, and its exports those of `m` but for the values
given. -/
structure Publishes (σ : Spelling) (pairs : List (String × String))
    (given : String → String → Option V) (m m₁ m₂ : Memory V) : Prop where
  spelled : Memory.Spelled σ m₁ m₂
  exports : ∀ x e, (x, e) ∈ pairs → m₂.exports e = (given x e).or (m.exports e)

namespace Publishes

variable {given given' : String → String → Option V} {m m₁ m₂ : Memory V}

theorem refl (spelled : Memory.Spelled σ m₁ m) : Publishes σ pairs (fun _ _ => none) m m₁ m :=
  ⟨spelled, fun _ _ _ => rfl⟩

theorem congr (h : Publishes σ pairs given m m₁ m₂)
    (same : ∀ x e, (x, e) ∈ pairs → given x e = given' x e) :
    Publishes σ pairs given' m m₁ m₂ :=
  ⟨h.spelled, fun x e listed => same x e listed ▸ h.exports x e listed⟩

theorem set (h : Publishes σ pairs given m m₁ m₂) {x : String} (used : σ.used x) (v : V) :
    Publishes σ pairs given m (m₁.set x v) (m₂.set (σ.name x) v) :=
  ⟨h.spelled.set used v, h.exports⟩

theorem setExport (h : Publishes σ pairs given m m₁ m₂) (p : String) (v : V) :
    Publishes σ pairs (fun x e => if e = p then some v else given x e) m m₁ (m₂.setExport p v) where
  spelled := h.spelled.setExport p v
  exports x e listed := by
    by_cases same : e = p
    · simp [Memory.setExport, same]
    · simp [Memory.setExport, same, h.exports x e listed]

end Publishes

structure LiveBindings.Serves (l : LiveBindings) (σ : Spelling) (ref : String → Reference)
    (pairs : List (String × String)) : Prop where
  owns : l.Owns σ ref
  table : l.exports = .ofPairs (pairs.map fun p => (σ.name p.1, p.2))
  distinct : (pairs.map Prod.snd).Nodup
  used : ∀ p ∈ pairs, σ.used p.1

namespace LiveBindings.Serves

theorem isUnambiguous (h : l.Serves σ ref pairs) : l.exports.IsUnambiguous := by
  rw [h.table]
  apply ExportTable.isUnambiguous_ofPairs
  rw [List.map_map]
  exact h.distinct

theorem eq_of_listed (h : l.Serves σ ref pairs) {x y e : String} (hx : (x, e) ∈ pairs)
    (hy : (y, e) ∈ pairs) : x = y :=
  congrArg Prod.fst (List.inj_on_of_nodup_map h.distinct hx hy rfl)

theorem lists (h : l.Serves σ ref pairs) {x e : String} (listed : (x, e) ∈ pairs) :
    l.exports.Lists (σ.name x) e := by
  rw [h.table, ExportTable.lists_ofPairs]
  exact List.mem_map.mpr ⟨(x, e), listed, rfl⟩

theorem expression (h : l.Serves σ ref pairs) {e : Node} (plain : Plain e)
    (used : ∀ x ∈ e.variables, σ.used x) {m m' m₁ : Memory V} {v : V}
    (spelled : Memory.Spelled σ m m') (run : e.eval P m = some (v, m₁)) :
    ∃ m₂, ((e.respell σ.name ref).live l true).eval P m' = some (v, m₂) ∧
      Publishes σ pairs (fun x _ => if x ∈ e.touched P m then m₁.read P x else none) m' m₁ m₂ := by
  obtain ⟨n, run', spelled', exports, touched⟩ := plain.respells P σ ref used spelled run
  have noUpdates : ∀ op, Vocabulary.plain.update op → P.Inverts op := fun _ known => known.elim
  obtain ⟨m₂, live, same, follows⟩ :=
    ((h.owns.straight plain used).matches_live h.isUnambiguous noUpdates true).run ⟨rfl, rfl⟩ run'
  have spelled₂ : Memory.Spelled σ m₁ m₂ := by
    refine ⟨fun x usedX => ?_, fun x usedX => ?_, spelled'.others⟩
    · rw [same.kinds]
      exact spelled'.kinds x usedX
    · rw [same.locals]
      exact spelled'.locals x usedX
  refine ⟨m₂, live, spelled₂, fun x p listed => ?_⟩
  have usedX : σ.used x := h.used _ listed
  rw [touched] at follows
  obtain ⟨names, found, among⟩ := h.lists listed
  by_cases written : x ∈ e.touched P m
  · -- The export follows its variable, which can be read.
    have written' : σ.name x ∈ (e.touched P m).map σ.name := List.mem_map_of_mem written
    obtain ⟨u, alive⟩ := Option.isSome_iff_exists.mp (follows.alive _ written')
    rw [if_pos written, follows.echoed _ _ _ found among written', ← spelled₂.read usedX, alive]
    rfl
  · -- The export is no other variable's, so it stays as it was.
    rw [if_neg written]
    refine follows.kept p fun y names' found' among' written' => written ?_
    have owner : σ.name x = y := h.isUnambiguous.owner found found' among among'
    obtain ⟨z, writtenZ, spelledZ⟩ := List.mem_map.mp written'
    have same : z = x := σ.injective (used z (Node.mem_variables_of_touched writtenZ)) usedX
      (spelledZ.trans owner.symm)
    exact same ▸ writtenZ

theorem undefined_read {m m' : Memory V} (spelled : Memory.Spelled σ m m') :
    m'.read P "undefined" = m.read P "undefined" := by
  have read := spelled.read (P := P) σ.undefined.1
  rwa [σ.undefined.2] at read

/-- A declaration with a value evaluates it, lowered or not, and then sets the variable. -/
theorem initialiser (h : l.Serves σ ref pairs) {kind : VariableKind} {isExported : Bool}
    {x : String} {value : Node} (plain : Plain value)
    (used : ∀ y ∈ (Step.declare kind isExported x value).names, σ.used y) {m m' m₁ : Memory V}
    (spelled : Memory.Spelled σ m m')
    (run : (Step.declare kind isExported x value).run P m = some m₁) :
    ∃ v n m₂, value.eval P m = some (v, n) ∧ m₁ = n.set x v ∧
      ((value.respell σ.name ref).live l true).eval P m' = some (v, m₂) ∧
      Publishes σ pairs (fun y _ => if y ∈ value.touched P m then n.read P y else none)
        m' n m₂ := by
  simp only [Step.run, plain.isAbsent, Bool.false_eq_true, if_false, Option.map_eq_some_iff,
    Prod.exists] at run
  obtain ⟨v, n, evaluated, rfl⟩ := run
  obtain ⟨m₂, live, published⟩ :=
    h.expression plain (fun y among => used y (List.mem_cons_of_mem _ among)) spelled evaluated
  exact ⟨v, n, m₂, evaluated, rfl, live, published⟩

theorem declare (h : l.Serves σ ref pairs) {kind : VariableKind} {x : String} {value : Node}
    (plain : (Step.declare kind false x value).IsPlain)
    (used : ∀ y ∈ (Step.declare kind false x value).names, σ.used y) {m m' m₁ : Memory V}
    (spelled : Memory.Spelled σ m m') (run : (Step.declare kind false x value).run P m = some m₁) :
    ∃ m₂, (Step.declare kind false x value).runLowered P l σ.name ref m' = some m₂ ∧
      Publishes σ pairs (fun y e => (Step.declare kind false x value).published? P y e m)
      m' m₁ m₂ := by
  have usedX : σ.used x := used x List.mem_cons_self
  rcases plain with nothing | plain
  · obtain ⟨s, rfl⟩ := Node.isNothing_iff.mp nothing
    have none (y e : String) :
        (Step.declare kind false x (.mk .absent s [])).published? P y e m = none := by
      simp [Step.published?, Node.isAbsent]
    simp only [none]
    change m.initialise P kind x = some m₁ at run
    show ∃ m₂, m'.initialise P kind (σ.name x) = some m₂ ∧ _
    cases kind with
    | functionScoped =>
      cases run
      exact ⟨m', rfl, .refl spelled⟩
    | blockScoped =>
      obtain ⟨u, defined, rfl⟩ := Option.map_eq_some_iff.mp run
      exact ⟨m'.set (σ.name x) u, by simp [Memory.initialise, defined],
        (Publishes.refl spelled).set usedX u⟩
    | constant | disposable | asyncDisposable => cases run
  · obtain ⟨v, n, m₂, evaluated, rfl, live, published⟩ := h.initialiser plain used spelled run
    refine ⟨m₂.set (σ.name x) v, ?_, (published.set usedX v).congr fun y e _ => ?_⟩
    · simp [Step.runLowered, plain.isAbsent, live]
    · simp [Step.published?, plain.isAbsent, evaluated]

theorem exportDeclare (h : l.Serves σ ref pairs) {kind : VariableKind} {x : String} {value : Node}
    (plain : (Step.declare kind true x value).IsPlain)
    (used : ∀ y ∈ (Step.declare kind true x value).names, σ.used y) (own : (x, x) ∈ pairs)
    (kept : σ.name x = x) {u : V} (defined : P.undefined = some u) {m m' m₁ : Memory V}
    (spelled : Memory.Spelled σ m m') (run : (Step.declare kind true x value).run P m = some m₁)
    (blank : (Step.declare kind true x value).IsBlank P m) :
    ∃ m₂, (Step.declare kind true x value).runLowered P l σ.name ref m' = some m₂ ∧
      Publishes σ pairs (fun y e => (Step.declare kind true x value).published? P y e m)
      m' m₁ m₂ := by
  have usedX : σ.used x := used x List.mem_cons_self
  -- The declaration exports the variable under its own name, and no other variable has that name.
  have owner (y e : String) (listed : (y, e) ∈ pairs) : e = x ↔ x = y ∧ e = y := by
    constructor
    · rintro rfl
      have same := h.eq_of_listed own listed
      exact ⟨same, same⟩
    · rintro ⟨rfl, rfl⟩
      rfl
  rcases plain with nothing | plain
  · obtain ⟨s, rfl⟩ := Node.isNothing_iff.mp nothing
    obtain ⟨reads, fresh⟩ := blank rfl
    have read : m'.read P "undefined" = some u :=
      (undefined_read spelled).trans (reads.trans defined)
    -- Without a value the lowered code writes `undefined`, which the variable holds anyway.
    have set : m₁ = m.set x u := by
      change m.initialise P kind x = some m₁ at run
      cases kind with
      | functionScoped =>
        cases run
        have same : Function.update m.locals x (some u) = m.locals := by
          rw [← defined, ← fresh rfl, Function.update_eq_self]
        rw [Memory.set, same]
      | blockScoped => simpa [Memory.initialise, defined, eq_comm] using run
      | constant | disposable | asyncDisposable => cases run
    subst set
    refine ⟨_, ?_, (((Publishes.refl spelled).setExport x u).set usedX u).congr
      fun y e listed => ?_⟩
    · simp [Step.runLowered, Node.isAbsent, read, kept]
    · simp [Step.published?, Node.isAbsent, owner y e listed, defined]
  · obtain ⟨v, n, m₂, evaluated, rfl, live, published⟩ := h.initialiser plain used spelled run
    refine ⟨_, ?_, ((published.setExport x v).set usedX v).congr fun y e listed => ?_⟩
    · simp [Step.runLowered, plain.isAbsent, live, kept]
    · simp [Step.published?, plain.isAbsent, evaluated, owner y e listed]

theorem step (h : l.Serves σ ref pairs) {s : Step} (plain : s.IsPlain)
    (used : ∀ x ∈ s.names, σ.used x) (own : ∀ p, s.pair? = some p → p ∈ pairs)
    (kept : ∀ kind x value, s = .declare kind true x value → σ.name x = x) {u : V}
    (defined : P.undefined = some u) {m m' m₁ : Memory V} (spelled : Memory.Spelled σ m m')
    (run : s.run P m = some m₁) (blank : s.IsBlank P m) (readable : s.IsReadable P m) :
    ∃ m₂, s.runLowered P l σ.name ref m' = some m₂ ∧
      Publishes σ pairs (fun x e => s.published? P x e m) m' m₁ m₂ := by
  cases s with
  | declare kind isExported x value =>
    cases isExported with
    | false => exact h.declare plain used spelled run
    | true =>
      exact h.exportDeclare plain used (own _ rfl) (kept _ _ _ rfl) defined spelled run blank
  | list x exported =>
    cases run
    have read := spelled.read (P := P) (used x List.mem_cons_self)
    obtain ⟨v, value⟩ := Option.isSome_iff_exists.mp readable
    refine ⟨m'.setExport exported v, ?_, ((Publishes.refl spelled).setExport exported v).congr
      fun y e listed => ?_⟩
    · simp [Step.runLowered, read, value]
    · by_cases same : e = exported
      · subst same
        have owner : y = x := h.eq_of_listed listed (own _ rfl)
        simp [Step.published?, owner, value]
      · simp [Step.published?, same, Ne.symm same]
  | perform e =>
    obtain ⟨⟨v, n⟩, evaluated, rfl⟩ := Option.map_eq_some_iff.mp run
    obtain ⟨m₂, live, published⟩ := h.expression plain used spelled evaluated
    refine ⟨m₂, by simp [Step.runLowered, live], published.congr fun y e' _ => ?_⟩
    simp [Step.published?, evaluated]

theorem step_stuck {s : Step} (used : ∀ x ∈ s.names, σ.used x) {m m' : Memory V}
    (spelled : Memory.Spelled σ m m') (unreadable : ¬ s.IsReadable P m) :
    s.runLowered P l σ.name ref m' = none := by
  cases s with
  | declare | perform => exact absurd trivial unreadable
  | list x exported =>
    have read := spelled.read (P := P) (used x List.mem_cons_self)
    have missing : m.read P x = none := by simpa [Step.IsReadable] using unreadable
    simp [Step.runLowered, read, missing]

/-- A run of steps. The lowered steps run just if each list finds its variables readable, and in the
end each export holds what it was given last. -/
theorem steps (h : l.Serves σ ref pairs) {u : V} (defined : P.undefined = some u)
    {steps : List Step} (plain : ∀ s ∈ steps, s.IsPlain)
    (used : ∀ s ∈ steps, ∀ x ∈ s.names, σ.used x)
    (own : ∀ p ∈ steps.filterMap Step.pair?, p ∈ pairs)
    (kept : ∀ kind x value, Step.declare kind true x value ∈ steps → σ.name x = x)
    {m m' M : Memory V} (spelled : Memory.Spelled σ m m')
    (run : steps.foldlM (fun m s => s.run P m) m = some M)
    (blank : Step.Throughout P (Step.IsBlank P) steps m) :
    (Step.Throughout P (Step.IsReadable P) steps m →
      ∃ M', steps.foldlM (fun m s => s.runLowered P l σ.name ref m) m' = some M' ∧
        Memory.Spelled σ M M' ∧
        ∀ x e, (x, e) ∈ pairs → M'.exports e = Step.lastPublished P x e steps m (m'.exports e)) ∧
    (¬ Step.Throughout P (Step.IsReadable P) steps m →
      steps.foldlM (fun m s => s.runLowered P l σ.name ref m) m' = none) := by
  -- By induction on the steps: the two memories stay related until a list cannot be read.
  induction steps generalizing m m' with
  | nil =>
    cases run
    exact ⟨fun _ => ⟨m', rfl, spelled, fun _ _ _ => rfl⟩, fun stuck => absurd trivial stuck⟩
  | cons s steps ih =>
    rw [List.foldlM_cons] at run
    obtain ⟨m₁, first, rest⟩ := Option.bind_eq_some_iff.mp run
    have usedS := used s List.mem_cons_self
    have continued (m₂ : Memory V) (spelled' : Memory.Spelled σ m₁ m₂) := ih
      (fun s among => plain s (List.mem_cons_of_mem _ among))
      (fun s among => used s (List.mem_cons_of_mem _ among))
      (fun p among => own p (List.mem_filterMap.mpr (by
        obtain ⟨s, among, pair⟩ := List.mem_filterMap.mp among
        exact ⟨s, List.mem_cons_of_mem _ among, pair⟩)))
      (fun kind x value among => kept kind x value (List.mem_cons_of_mem _ among)) spelled' rest
        (blank.2 m₁ first)
    by_cases readable : s.IsReadable P m
    · obtain ⟨m₂, lowered, published⟩ := h.step (plain s List.mem_cons_self) usedS
        (fun p pair => own p (List.mem_filterMap.mpr ⟨s, List.mem_cons_self, pair⟩))
        (fun kind x value same => kept kind x value (same ▸ List.mem_cons_self)) defined spelled
        first blank.1 readable
      obtain ⟨runs, stuck⟩ := continued m₂ published.spelled
      have throughout : Step.Throughout P (Step.IsReadable P) (s :: steps) m ↔
          Step.Throughout P (Step.IsReadable P) steps m₁ := by
        simp [Step.Throughout, readable, first]
      rw [throughout, List.foldlM_cons, lowered]
      refine ⟨fun all => ?_, stuck⟩
      obtain ⟨M', run', spelled', exports⟩ := runs all
      refine ⟨M', run', spelled', fun x e listed => ?_⟩
      rw [exports x e listed, published.exports x e listed]
      simp only [Step.lastPublished, first]
    · refine ⟨fun all => absurd all.1 readable, fun _ => ?_⟩
      rw [List.foldlM_cons, step_stuck usedS spelled readable]
      rfl

end LiveBindings.Serves

end

end ModuleLowering
