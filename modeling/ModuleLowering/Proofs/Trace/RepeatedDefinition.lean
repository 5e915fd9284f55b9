import ModuleLowering.Proofs.Trace.SettledExport

/-!
Where a property can be defined again. One that was set early can be, at any time. Any other can be
defined once, unless it was exported before, so that two statements that define it do not both come
to their ends.
-/

set_option autoImplicit false

namespace ModuleLowering

variable {V : Type}

namespace ExportsObject

variable {E : ExportsObject V} {name : String}

/-- There is such a property, and it can be defined again. -/
def IsLoose (E : ExportsObject V) (name : String) : Prop := ∃ p, E name = some p ∧ p.isFixed = false

theorem IsLoose.not_isFixed (loose : E.IsLoose name) : ¬ E.IsFixed name := by
  obtain ⟨p, here, free⟩ := loose
  rintro ⟨p', here', fixed⟩
  rw [here] at here'
  cases here'
  rw [free] at fixed
  cases fixed

theorem isLoose_put_self (free : ¬ E.IsFixed name) (v : V) : (E.put name v).IsLoose name := by
  unfold put
  split
  · exact ⟨_, Function.update_self .., rfl⟩
  · next taken =>
    cases here : E name with
    | none => exact absurd (by rw [here]; rfl) taken
    | some p =>
      refine ⟨p, here, ?_⟩
      cases fixed : p.isFixed with
      | false => rfl
      | true => exact absurd ⟨p, here, fixed⟩ free

theorem not_isFixed_put (free : ¬ E.IsFixed name) (x : String) (v : V) :
    ¬ (E.put x v).IsFixed name := by
  by_cases same : name = x
  · subst same
    exact (isLoose_put_self free v).not_isFixed
  · rintro ⟨p, here, fixed⟩
    exact free ⟨p, (put_of_ne same).symm.trans here, fixed⟩

theorem IsLoose.put (loose : E.IsLoose name) (x : String) (v : V) : (E.put x v).IsLoose name := by
  by_cases same : name = x
  · subst same
    exact isLoose_put_self loose.not_isFixed v
  · obtain ⟨p, here, free⟩ := loose
    exact ⟨p, (put_of_ne same).trans here, free⟩

theorem not_isFixed_after (free : ¬ E.IsFixed name) (τ : List (Effect V)) :
    ¬ (E.after τ).IsFixed name :=
  after_induction (P := fun E => ¬ E.IsFixed name) (fun _ x v free => not_isFixed_put free x v) τ
    free

theorem IsLoose.isLoose_after (loose : E.IsLoose name) (τ : List (Effect V)) :
    (E.after τ).IsLoose name :=
  after_induction (P := fun E => E.IsLoose name) (fun _ x v loose => loose.put x v) τ loose

theorem isLoose_after_of_mem (free : ¬ E.IsFixed name) {τ : List (Effect V)} {v : V}
    (inside : .exported name v ∈ τ) : (E.after τ).IsLoose name := by
  induction τ generalizing E with
  | nil => cases inside
  | cons effect τ ih =>
    rw [after_cons]
    rcases List.mem_cons.mp inside with rfl | later
    · exact (isLoose_put_self free v).isLoose_after τ
    · exact ih (not_isFixed_after free [effect]) later

end ExportsObject

section
variable {S : Supply V} {names shadowed : List String} {path : String → String} {w : Setting V}
    {items : List Item} {ns : List Node}
  (arranged : Arranged S names shadowed path items) (performs : Performs names w items ns)

/-- While statements run, a property that none of them has defined can be defined, and one that was
set early can be defined again. -/
structure Definable (keys : String → List String) (done : List Item) (E : ExportsObject V) :
    Prop where
  fresh : ∀ name, (∀ item ∈ done, name ∉ item.fixed keys) → ¬ E.IsFixed name
  preset : ∀ item ∈ done, ∀ name ∈ item.presets, E.IsLoose name

theorem Definable.start (keys : String → List String) :
    Definable keys [] (Room.empty : Room V).exports where
  fresh name _ fixed := by
    obtain ⟨p, here, -⟩ := fixed
    cases here
  preset := nofun

theorem Item.content?_of_presets {item : Item} {name : String} (preset : name ∈ item.presets)
    (flag : V) : item.content? flag = none := by
  cases item
  case moduleFlag isPlain => cases isPlain <;> first | rfl | cases preset
  case predeclaration => rfl
  all_goals cases preset

include arranged in
theorem Definable.step {done rest : List Item} {item : Item}
    (split : items = done ++ item :: rest) {flag : V} {E E' : ExportsObject V}
    {σ : List (Effect V)} (definable : Definable (starKeys S path) done E)
    (changes : item.Changes names (starKeys S path) flag E E' σ) :
    Definable (starKeys S path) (done ++ [item]) E' := by
  have last : item ∈ done ++ [item] := List.mem_append_right _ (List.mem_singleton_self item)
  cases changes with
  | defined given free reads =>
    constructor
    · intro name new
      have same := (reads name).trans (if_neg (new item last))
      rintro ⟨p, here, fixed⟩
      exact definable.fresh name (fun other among => new other (List.mem_append_left _ among))
        ⟨p, same.symm.trans here, fixed⟩
    · intro other among name preset
      rcases List.mem_append.mp among with before | now
      · obtain ⟨p, here, loose⟩ := definable.preset other before name preset
        by_cases again : name ∈ item.fixed (starKeys S path)
        · refine ⟨_, (reads name).trans (if_pos again), ?_⟩
          rw [here]
          rfl
        · exact ⟨p, (reads name).trans ((if_neg again).trans here), loose⟩
      · obtain rfl := List.mem_singleton.mp now
        rw [Item.content?_of_presets preset] at given
        cases given
  | assigned code fair sets =>
    constructor
    · intro name new
      exact ExportsObject.not_isFixed_after
        (definable.fresh name fun other among => new other (List.mem_append_left _ among)) σ
    · intro other among name preset
      rcases List.mem_append.mp among with before | now
      · exact (definable.preset other before name preset).isLoose_after σ
      · obtain rfl := List.mem_singleton.mp now
        obtain ⟨v, inside⟩ := sets name (List.mem_append_right _ preset)
        exact ExportsObject.isLoose_after_of_mem
          (definable.fresh name (arranged.preset done other rest split name preset)) inside

include arranged performs

/-- Where a statement that was made up stops, it defines a property once more that was not set
early. -/
theorem Arranged.defined_twice {n : Node} {room : Room V} (stops : StopsAt S w ns .empty n room)
    (made : n.instruction? ≠ none) :
    ∃ name, 2 ≤ (items.flatMap (Item.fixed (starKeys S path))).count name ∧
      ∀ item ∈ items, name ∉ item.presets := by
  obtain ⟨before, after, τ, split, reaches, stops⟩ := stops
  obtain ⟨done, rest, eq, written, loaded, definable⟩ := arranged.induction performs
    (I := fun done room _ => Definable (starKeys S path) done room.exports)
    (.start _) (fun _ _ _ _ _ _ _ _ _ _ eq _ _ _ _ changes definable =>
      definable.step arranged eq changes) split reaches
  cases written with
  | @cons item _ rest _ runsAs written =>
  cases stops with
  | code other => exact absurd other made
  | @instruction i known fails =>
    rw [runsAs.instruction] at known
    rcases item.content?_or_load (w.ofBool true) known with ⟨c, given⟩ | ⟨b, p, span, rfl⟩
    · rw [item.run?_eq_defineAll? known given fun b span star =>
        arranged.loaded_star (star ▸ eq) loaded, Option.map_eq_none_iff] at fails
      obtain ⟨name, fixed, again⟩ : ∃ name ∈ item.fixed (starKeys S path),
          room.exports.IsFixed name := by
        by_contra free
        push Not at free
        obtain ⟨E, done, -⟩ := ExportsObject.exists_defineAll? (item.nodup_fixed S path) free
        rw [fails] at done
        cases done
      refine ⟨name, ?_, fun other among preset => ?_⟩
      · obtain ⟨other, among, defined⟩ : ∃ other ∈ done, name ∈ other.fixed (starKeys S path) := by
          by_contra new
          push Not at new
          exact definable.fresh name new again
        rw [eq]
        exact two_le_count_flatMap fixed (.inl among) defined
      · -- What is set early is set before it is defined.
        have before : other ∈ done := by
          rw [eq] at among
          rcases List.mem_append.mp among with before | behind
          · exact before
          · rcases List.mem_cons.mp behind with rfl | later
            · rw [Item.content?_of_presets preset] at given
              cases given
            · obtain ⟨l, l', rfl⟩ := List.append_of_mem later
              have sooner := arranged.preset (done ++ item :: l) other l' (by simp [eq]) name preset
              exact absurd fixed (sooner item (by simp))
        exact (definable.preset other before name preset).not_isFixed again
    · cases known
      cases fails

end

namespace Item

variable {names : List String} {keys : String → List String} {flag : V} {item : Item}
    {E E' : ExportsObject V} {σ : List (Effect V)} {name : String}

theorem Changes.exported_cases (changes : item.Changes names keys flag E E' σ) {v : V}
    (inside : .exported name v ∈ σ) : name ∈ names ∨ name ∈ item.presets := by
  cases changes with
  | defined => cases inside
  | assigned code fair sets => exact (fair name v inside).imp_right And.left

theorem fixed_eq_nil (code : item.content? flag = none) : item.fixed keys = [] := by
  cases item
  case moduleFlag isPlain =>
    cases isPlain with
    | true => rfl
    | false => cases code
  case exportGetter | exportStar => cases code
  all_goals rfl

theorem RunsAs.mem_keys {S : Supply V} {path : String → String} {w : Setting V} {n : Node}
    (runsAs : item.RunsAs names w n) {room : Room V}
    (loaded : ∀ b span, item = .exportStar b span → room.modules b = some (path b))
    (fixed : name ∈ item.fixed (starKeys S path)) :
    ∃ i, n.instruction? = some i ∧ name ∈ i.keys S room.modules := by
  rw [runsAs.instruction]
  cases item
  case moduleFlag isPlain =>
    cases isPlain with
    | true => cases fixed
    | false => exact ⟨_, rfl, fixed⟩
  case exportGetter => exact ⟨_, rfl, fixed⟩
  case exportStar b span =>
    refine ⟨_, rfl, ?_⟩
    rw [Instruction.keys, loaded b span rfl]
    simpa [starSteps, LoopStep.defines, Item.fixed, starKeys, Supply.passedKeys] using fixed
  all_goals cases fixed

end Item

/-- How often a property was defined, if nothing was exported under the name before. -/
def ExportsObject.Tallies (name : String) (k : Nat) (E : ExportsObject V) (τ : List (Effect V)) :
    Prop :=
  k = 0 ∧ ((∀ v, .exported name v ∉ τ) → E name = none) ∨ k = 1 ∧ E.IsFixed name

theorem ExportsObject.Tallies.step {names : List String} {keys : String → List String} {flag : V}
    {item : Item} {E E' : ExportsObject V} {τ σ : List (Effect V)} {name : String} {k : Nat}
    (tallies : E.Tallies name k τ) (distinct : (item.fixed keys).Nodup)
    (changes : item.Changes names keys flag E E' σ)
    (new : name ∈ item.fixed keys → ∀ v, .exported name v ∉ τ) :
    E'.Tallies name (k + (item.fixed keys).count name) (τ ++ σ) := by
  cases changes with
  | defined given free reads =>
    rw [List.append_nil]
    by_cases fixed : name ∈ item.fixed keys
    · have here := (reads name).trans (if_pos fixed)
      rw [List.count_eq_one_of_mem distinct fixed]
      rcases tallies with ⟨rfl, empty⟩ | ⟨-, again⟩
      · rw [empty (new fixed)] at here
        exact .inr ⟨rfl, _, here, rfl⟩
      · exact absurd again (free name fixed)
    · have same := (reads name).trans (if_neg fixed)
      rw [List.count_eq_zero_of_not_mem fixed, Nat.add_zero]
      rcases tallies with ⟨none, empty⟩ | ⟨once, p, here, isFixed⟩
      · exact .inl ⟨none, fun silent => same.trans (empty silent)⟩
      · exact .inr ⟨once, p, same.trans here, isFixed⟩
  | assigned code =>
    rw [Item.fixed_eq_nil code, List.count_nil, Nat.add_zero]
    rcases tallies with ⟨none, empty⟩ | ⟨once, fixed⟩
    · refine .inl ⟨none, fun silent => ?_⟩
      rw [after_of_not_mem fun v inside => silent v (List.mem_append_right τ inside)]
      exact empty fun v inside => silent v (List.mem_append_left σ inside)
    · exact .inr ⟨once, fixed.isFixed_after σ⟩

section
variable {S : Supply V} {names shadowed : List String} {path : String → String} {w : Setting V}
    {items : List Item} {ns : List Node}
  (arranged : Arranged S names shadowed path items) (performs : Performs names w items ns)
include arranged performs

theorem Arranged.exported_cases {before after : List Node} {room : Room V} {τ : List (Effect V)}
    (split : ns = before ++ after) (reaches : Reaches S w before .empty room τ) {name : String}
    {v : V} (inside : .exported name v ∈ τ) :
    name ∈ names ∨ ∃ item ∈ items, name ∈ item.presets := by
  have runs := arranged.induction performs
    (I := fun _ _ τ => ∀ v, .exported name v ∈ τ →
      name ∈ names ∨ ∃ item ∈ items, name ∈ item.presets)
    (fun v inside => absurd inside List.not_mem_nil) ?_ split reaches
  · obtain ⟨-, -, -, -, -, exported⟩ := runs
    exact exported v inside
  · intro done item rest _ _ _ _ _ τ σ eq _ _ _ _ changes exported v inside
    rcases List.mem_append.mp inside with before | now
    · exact exported v before
    · exact (changes.exported_cases now).imp_right fun preset => ⟨item, by simp [eq], preset⟩

/-- A property that statements define twice was exported before, if they all run to their ends. -/
theorem Arranged.exportedBefore {room : Room V} {τ : List (Effect V)}
    (reaches : Reaches S w ns .empty room τ) {name : String}
    (twice : 2 ≤ (items.flatMap (Item.fixed (starKeys S path))).count name) :
    ExportedBefore S w ns .empty name := by
  by_contra never
  have split : ns = ns ++ [] := (List.append_nil ns).symm
  have runs := arranged.induction performs
    (I := fun done room τ => room.exports.Tallies name
      ((done.flatMap (Item.fixed (starKeys S path))).count name) τ)
    (.inl ⟨rfl, fun _ => rfl⟩) ?_ split reaches
  · obtain ⟨done, rest, eq, written, -, tallies⟩ := runs
    cases written
    rw [List.append_nil] at eq
    subst eq
    rcases tallies with ⟨none, -⟩ | ⟨once, -⟩ <;> omega
  · intro done item rest before n after room room' τ σ eq split reaches loaded runsAs changes
      tallies
    rw [List.flatMap_append, List.flatMap_singleton, List.count_append]
    refine tallies.step (item.nodup_fixed S path) changes fun fixed v inside => never ?_
    obtain ⟨i, known, defines⟩ := runsAs.mem_keys
      (fun b span star => arranged.loaded_star (star ▸ eq) loaded) fixed
    exact ⟨before, n, after, room, τ, v, i, split, reaches, inside, known, defines⟩

end

end ModuleLowering
