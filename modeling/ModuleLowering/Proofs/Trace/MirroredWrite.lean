import ModuleLowering.Proofs.Lower.RuntimeName
import ModuleLowering.Proofs.Trace.Mirror
import ModuleLowering.Proofs.Trace.Written

/-!
Which writes to exported variables a lowered module repeats on `exports`: those of assignments and
updates, and no other.
-/

set_option autoImplicit false

namespace ModuleLowering

variable {V : Type}

def Effect.isBegun : Effect V → Bool
  | .begun => true
  | .written .. | .kept .. | .exported .. => false

section
variable {α : Type} {f : α → List α}

theorem rewritten_of_fixed (fixed : ∀ a, f a = [a]) (L : Language α) : rewritten f L = L := by
  have same (σ : List α) : σ.flatMap f = σ := by
    rw [funext fixed]
    exact List.flatMap_singleton' σ
  ext τ
  simp [mem_rewritten, same]

end

namespace LiveBindings

variable {l : LiveBindings}

/-- After each write of one kind that a run makes to an exported variable, the live program exports
the same value under all names of the variable before it begins another statement. -/
def Mirrors (l : LiveBindings) (way : Way) (τ : List (Effect V)) : Prop :=
  ∀ before x ref v after, τ = before ++ .written way x ref v :: after → ∀ name ∈ l.namesOf x ref,
    .exported name v ∈ ((Effect.written way x ref v :: after).flatMap l.repeated).takeWhile
    (!·.isBegun)

theorem mirrors_direct (τ : List (Effect V)) : l.Mirrors .direct τ := by
  rintro before x ref v after - name among
  rw [List.flatMap_cons, repeated, List.cons_append, List.takeWhile_cons_of_pos rfl,
    List.takeWhile_append_of_pos]
  · exact List.mem_cons_of_mem _ (List.mem_append_left _ (List.mem_map_of_mem among))
  · exact List.forall_mem_map.mpr fun _ _ => rfl

theorem not_mem_repeated {way : Way} (indirect : way ≠ .direct) (x y : String)
    (ref : Reference) (v v' : V) :
    .exported y v' ∉ l.repeated (.written way x ref v) := by
  cases way with
  | direct => exact absurd rfl indirect
  | taken => simp [repeated]
  | cast =>
    rw [repeated]
    split <;> simp

theorem repeated_of_isEmpty (redirects : l.redirects.isEmpty = true)
    (exports : l.exports.isEmpty = true) (e : Effect V) :
    l.repeated e = [e] := by
  have silent (x : String) (ref : Reference) : l.namesOf x ref = [] := by
    simp [namesOf, exportedNames?, OrderedMap.get?, List.isEmpty_iff.mp exports]
  have same (x : String) (ref : Reference) : l.redirect? x ref = none := by
    simp [redirect?, OrderedMap.get?, List.isEmpty_iff.mp redirects]
  cases e with
  | begun | exported => rfl
  | kept x ref v => rw [repeated, silent]; rfl
  | written way x ref v =>
    cases way with
    | direct => rw [repeated, silent]; rfl
    | taken => rfl
    | cast => rw [repeated, same]

end LiveBindings

namespace Module

variable {m : Module}

theorem runsAt_lowered {r : Draft} (foreign : (m.liveBindings r).IsForeign) (ofBool : Bool → V)
    (depth : Nat) :
    (m.lowered r).program.runsAt ofBool depth =
      ((m.assembled r).program.runsAt ofBool depth).through (m.liveBindings r).repeated := by
  rw [lowered, makeLive_eq]
  split
  · next empty =>
    obtain ⟨redirects, exports⟩ := Bool.and_eq_true_iff.mp empty
    funext result
    exact (rewritten_of_fixed (LiveBindings.repeated_of_isEmpty (l := m.liveBindings r) redirects
      exports) _).symm
  · exact foreign.runsAt_live ofBool _ true depth

theorem mirrors_iff (l : LiveBindings) (program : Node) (ofBool : Bool → V) (way : Way) :
    (∀ depth result, ∀ τ ∈ program.runsAt ofBool depth result, l.Mirrors way τ) ↔
      way = .direct ∨ ∀ x ref, .variable way x ref ∈ program.writes false →
      l.namesOf x ref = [] := by
  by_cases direct : way = .direct
  · subst direct
    exact ⟨fun _ => .inl rfl, fun _ _ _ τ _ => LiveBindings.mirrors_direct τ⟩
  · rw [or_iff_right direct]
    constructor
    · rintro mirrors x ref written
      obtain ⟨σ, run⟩ := Node.exists_run_of_mem_writes (w := program.setting ofBool 0) written
        direct (ofBool true)
      refine List.eq_nil_iff_forall_not_mem.mpr fun name among => ?_
      have repeated := mirrors 0 none _ run σ x ref (ofBool true) [] rfl name among
      rw [List.flatMap_singleton] at repeated
      exact LiveBindings.not_mem_repeated direct _ _ _ _ _ ((List.takeWhile_sublist _).mem repeated)
    · rintro silent depth result τ run before x ref v after rfl name among
      have place := Node.within_runsAt ofBool program depth result run
        (.written way x ref v) (by simp)
      rw [silent x ref place] at among
      cases among

/-- A lowered module in which nothing hides `exports` does what the module does that it is put
together from, and repeats on `exports` what assignments and updates write to exported variables
before it begins another statement. It never repeats what is written in a pattern, by the head of a
loop or behind a type: no run misses a write only if no exported variable is written there. -/
theorem only_direct_writes_are_mirrored (s : Original) (wellFormed : s.program.isWellFormed = true)
    (options : Options) (hints : Hints) (run : s.Lowering options hints)
    (changed : run.outcome.report.isSome = true) (strictAgain : Bool)
    (visible : SeesRuntime ["exports"] strictAgain run.lowered.program) :
    let m := s.analysed
    ∃ r, m.draft options hints = .ok r ∧ ∀ (V : Type) (ofBool : Bool → V),
      (∀ depth result,
        (seenProgram ["exports"] strictAgain run.lowered.program).runsAt ofBool depth result =
        rewritten (m.liveBindings r).repeated ((m.assembled r).program.runsAt ofBool
          depth result)) ∧
      ∀ way, (∀ depth result, ∀ τ ∈ (m.assembled r).program.runsAt ofBool depth result,
        (m.liveBindings r).Mirrors way τ) ↔
        way = .direct ∨ ∀ x ref, .variable way x ref ∈ (m.assembled r).program.writes false →
          (m.liveBindings r).namesOf x ref = [] := by
  intro m
  have consistent : m.Consistent := Original.consistent wellFormed
  rcases lower_cases run.success with ⟨-, -, same, -⟩ | ⟨r, -, -, drafted, -, same⟩
  · rw [same] at changed
    cases changed
  · have foreign := consistent.isForeign drafted
    refine ⟨r, drafted, fun V ofBool => ⟨fun depth result => ?_, mirrors_iff _ _ ofBool⟩⟩
    rw [visible.seenProgram_eq, same, runsAt_lowered foreign]
    rfl

section Example

/-- `export let x = 1; [x] = [2];` -/
def patternStatements : List Node :=
  [.made .exportDeclaration [.made (.varDecl .blockScoped false)
    [.made (.declarator false) [.made (.binder "x" none) [], .absent, Made.number 1]]],
   .made .expression [.made (.assign .plain)
    [.made .targetArray [.made (.target "x" .none) []], .made .array [Made.number 2]]]]

def pattern : Module := .analyse true (.mk (.program none []) none patternStatements)

def assembledInOrder (m : Module) (r : Draft) : Module :=
  m.renamed.withStatements (((r.header ++ r.top ++ r.body ++ r.footer).map Prod.snd ++
    r.helpers.map fun (h, name) => Item.helperFunction h name).map Item.toNode)

theorem assembled_of_falling {m : Module} {r : Draft}
    (falling : (r.header ++ r.top ++ r.body ++ r.footer).Pairwise fun a b => decide
    (b.1 ≤ a.1) = true) :
    m.assembled r = m.assembledInOrder r := by
  rw [assembled, Draft.items, arrange, List.mergeSort_of_pairwise falling, assembledInOrder]

theorem pattern_writes : ∃ r, pattern.draft .default .none = .ok r ∧
    .variable .taken "x" (pattern.scopes.rootReference "x") ∈
      (pattern.assembled r).program.writes false ∧
    (pattern.liveBindings r).namesOf "x" (pattern.scopes.rootReference "x") = ["x"] := by
  obtain ⟨r, drafted, computed⟩ := pattern.exists_draft .default .none
    (fun r : Draft => decide ((r.header ++ r.top ++ r.body ++ r.footer).Pairwise
        (fun a b : Priority × Item => decide (b.1 ≤ a.1) = true) ∧
      .variable .taken "x" (pattern.scopes.rootReference "x") ∈
        (pattern.assembledInOrder r).program.writes false ∧
      (pattern.liveBindings r).namesOf "x" (pattern.scopes.rootReference "x") = ["x"]))
    (by decide +kernel)
  obtain ⟨falling, facts⟩ := of_decide_eq_true computed
  exact ⟨r, drafted, by rwa [assembled_of_falling falling]⟩

/-- Every assignment of the module is repeated, but some run takes `x` from the array and does not
export it. -/
theorem only_direct_writes_are_mirrored_pattern : ∃ outcome lowered,
    (Module.lower .default .none).run pattern = .ok outcome lowered ∧ outcome.report.isSome = true ∧
    ∃ r, pattern.draft .default .none = .ok r ∧ ∀ (V : Type) (ofBool : Bool → V),
      (∀ depth result, ∀ τ ∈ (pattern.assembled r).program.runsAt ofBool depth result,
        (pattern.liveBindings r).Mirrors .direct τ) ∧
      ∃ depth result, ∃ τ ∈ (pattern.assembled r).program.runsAt ofBool depth result,
        ¬ (pattern.liveBindings r).Mirrors .taken τ := by
  obtain ⟨r, drafted, written, names⟩ := pattern_writes
  obtain ⟨-, success⟩ := lower_of_draft (by decide +kernel) drafted
  have changed : (pattern.outcome r).report.isSome = true := rfl
  refine ⟨_, _, success, changed, r, drafted, fun V ofBool => ?_⟩
  let s : Original := ⟨true, none, [], none, patternStatements⟩
  have visible : SeesRuntime ["exports"] true (pattern.lowered r).program :=
    (Original.consistent (s := s) (by decide)).seesExports s.newNames_suits s.isLookedUp
      (by decide +kernel) (by decide +kernel) success true
  obtain ⟨r', same, facts⟩ :=
    only_direct_writes_are_mirrored s (by decide) .default .none ⟨_, _, success⟩ changed true
      visible
  obtain rfl : r = r' := Except.ok.inj (drafted.symm.trans same)
  have mirrors := (facts V ofBool).2
  refine ⟨(mirrors .direct).mpr (.inl rfl), ?_⟩
  by_contra all
  push Not at all
  rcases (mirrors .taken).mp all with direct | silent
  · cases direct
  · have none := (silent _ _ written).symm.trans names
    cases none

end Example

end Module

end ModuleLowering
