import ModuleLowering.Proofs.Evaluation.ModuleRun
import ModuleLowering.Proofs.Lower.Exposure

/-!
What the export of declarations does to the variables themselves, at every point of a run.

The value of a declaration passes through `exports` on its way to the variable, and every assignment
is repeated there. None of this is seen by the variables. Only a declaration that has no value is
given one when it is exported, which counts where its variable holds something else by then.
-/

set_option autoImplicit false

namespace ModuleLowering

section
variable {V : Type} {P : Primitives V} {l : LiveBindings} {σ : Spelling} {ref : String → Reference}

theorem Memory.Spelled.setExports {m m' : Memory V} (h : Memory.Spelled σ m m')
    (names : List String) (v : V) :
    Memory.Spelled σ m (m'.setExports names v) where
  others := h.others
  kinds x used := by
    rw [Memory.setExports_kinds]
    exact h.kinds x used
  locals x used := by
    rw [Memory.setExports_locals]
    exact h.locals x used

theorem Made.course_exportChain (names : List String) (e : Node) (m : Memory V) :
    (exportChain names e).course P m = (fun r => (r.1, r.2.setExports names r.1)) <$>
      e.course P m := by
  induction names generalizing e with
  | nil => exact (id_map _).symm
  | cons p names ih =>
    have step : exportChain (p :: names) e = exportChain names (exportAssignment p e) := rfl
    rw [step, ih, course_exportAssignment, Functor.map_map]
    rfl

structure EndAlike (σ : Spelling) (r r' : V × Memory V) : Prop where
  value : r'.1 = r.1
  memory : Memory.Spelled σ r.2 r'.2

theorem EndAlike.found (o : Option V) {m m' : Memory V} (spelled : Memory.Spelled σ m m') :
    Option.Rel (EndAlike σ) (o.map (·, m)) (o.map (·, m')) := by
  cases o with
  | none => exact .none
  | some v => exact .some ⟨rfl, spelled⟩

namespace Course.Rel

variable {c c' : Course V (V × Memory V)}

theorem store (h : Course.Rel (Memory.Spelled σ) (EndAlike σ) c c') {x : String} (used : σ.used x)
    (f : V → Option V) :
    Course.Rel (Memory.Spelled σ) (EndAlike σ)
      (c >>= fun r => .unseen (f r.1) >>= fun u => r.2.storing u (.variable x) >>= fun m =>
      Pure.pure (u, m)) (c' >>= fun r => .unseen (f r.1) >>= fun u =>
        r.2.storing u (.variable (σ.name x)) >>= fun m => Pure.pure (u, m)) := by
  apply h.bind
  rintro ⟨v, m⟩ ⟨_, m'⟩ ⟨rfl, spelled⟩
  apply bind_unseen
  intro u
  apply (reaching (spelled.write_rel used u)).bind
  exact fun m₁ m₂ spelled => .pure ⟨rfl, spelled⟩

theorem echoed (h : Course.Rel (Memory.Spelled σ) (EndAlike σ) c c') (names : List String) :
    Course.Rel (Memory.Spelled σ) (EndAlike σ) c
      ((fun r => (r.1, r.2.setExports names r.1)) <$> c') := by
  rw [← id_map c]
  exact h.map fun _ _ alike => ⟨alike.value, alike.memory.setExports names _⟩

theorem courseOfSequence {f : Node → Node} {es : List Node} (filled : es ≠ [])
    (each : ∀ e ∈ es, ∀ m m', Memory.Spelled σ m m' →
      Course.Rel (Memory.Spelled σ) (EndAlike σ) (e.course P m) ((f e).course P m')) {m m' :
    Memory V} (spelled : Memory.Spelled σ m m') :
    Course.Rel (Memory.Spelled σ) (EndAlike σ) (Node.courseOfSequence P es m)
      (Node.courseOfSequence P (es.map f) m') := by
  induction es generalizing m m' with
  | nil => exact absurd rfl filled
  | cons e es ih =>
    rw [List.map_cons, Node.courseOfSequence, Node.courseOfSequence]
    apply (each e List.mem_cons_self m m' spelled).bind
    intro r r' alike
    cases es with
    | nil => exact .pure alike
    | cons e' es =>
      exact ih (by simp) (fun e among => each e (List.mem_cons_of_mem _ among)) alike.memory

end Course.Rel

theorem Plain.course_live (owns : l.Owns σ ref) {e : Node} (h : Plain e)
    (used : ∀ x ∈ e.variables, σ.used x) (c : Bool) {m m' : Memory V}
    (spelled : Memory.Spelled σ m m') :
    Course.Rel (Memory.Spelled σ) (EndAlike σ) (e.course P m)
      (((e.respell σ.name ref).live l c).course P m') := by
  induction h generalizing m m' c with
  | number n s => exact .unseen (EndAlike.found (P.literal n) spelled)
  | ident x r s =>
    have read : m'.read P (σ.name x) = m.read P x :=
      spelled.read (used x (by simp [Node.variables]))
    rw [Node.respell_mk, List.map_nil, Form.respell, owns.live_ident]
    show Course.Rel _ _ (.unseen ((m.read P x).map (·, m)))
      (.unseen ((m'.read P (σ.name x)).map (·, m')))
    rw [read]
    exact .unseen (EndAlike.found _ spelled)
  | @binary op s a b _ _ left right =>
    simp only [Node.variables, Node.variablesOfParts, List.append_nil, List.mem_append] at used
    show Course.Rel _ _ (Node.course P (.mk (.binary op) s [a, b]) m)
      (Node.course P (.mk (.binary op) s [(a.respell σ.name ref).live l _,
      (b.respell σ.name ref).live l _]) m')
    simp only [Node.course]
    apply (left (fun x h => used x (.inl h)) _ spelled).bind
    rintro ⟨_, m₁⟩ ⟨v, m₂⟩ ⟨rfl, spelled⟩
    -- The left operand has the same value in both, and so it decides in both or in neither.
    cases P.decides op v with
    | true =>
      simp only [if_true]
      exact .pure ⟨rfl, spelled⟩
    | false =>
      simp only [Bool.false_eq_true, if_false]
      apply (right (fun x h => used x (.inr h)) _ spelled).bind
      rintro ⟨w, m₁⟩ ⟨_, m₂⟩ ⟨rfl, spelled⟩
      apply Course.Rel.bind_unseen
      exact fun u => .pure ⟨rfl, spelled⟩
  | @sequence s es filled _ each =>
    simp only [Node.variables, Node.mem_variablesOfParts] at used
    have form : Form.sequence.respell σ.name ref = .sequence := rfl
    rw [Node.respell_mk, form, Node.live_sequence, List.map_map]
    exact .courseOfSequence filled (fun e among m m' spelled => each e among
      (fun x h => used x ⟨e, among, h⟩) c spelled) spelled
  | @assign x r s s' e _ value =>
    simp only [Node.variables, Node.variablesOfParts, List.append_nil, List.mem_append,
      List.mem_singleton] at used
    show Course.Rel _ _ _
      ((l.echoed (.mk (.assign .plain) s [.mk (.target (σ.name x) (ref x)) s' [],
      (e.respell σ.name ref).live l _])).course P m')
    -- Around the assignment the value is repeated on the exports; below it the expression is live.
    rw [LiveBindings.echoed_eq_exportChain, Made.course_exportChain]
    exact ((value (fun y h => used y (.inr h)) _ spelled).store (used x (.inl rfl)) some).echoed _
  | @combine op x r s s' e _ value =>
    simp only [Node.variables, Node.variablesOfParts, List.append_nil, List.mem_append,
      List.mem_singleton] at used
    show Course.Rel _ _ _
      ((l.echoed (.mk (.assign (.combined op)) s [.mk (.target (σ.name x) (ref x)) s' [],
      (e.respell σ.name ref).live l _])).course P m')
    rw [LiveBindings.echoed_eq_exportChain, Made.course_exportChain]
    apply Course.Rel.echoed
    -- The old value is read before the other operand runs, in both.
    have read : m'.read P (σ.name x) = m.read P x := spelled.read (used x (.inl rfl))
    simp only [Node.course, Node.slot?, Course.unseen, Course.bind_mk_some, Memory.load, read]
    apply Course.Rel.bind_unseen
    intro old
    cases P.decides op old with
    | true =>
      simp only [if_true]
      exact .pure ⟨rfl, spelled⟩
    | false =>
      simp only [Bool.false_eq_true, if_false]
      exact (value (fun y h => used y (.inr h)) _ spelled).store (used x (.inl rfl))
        (P.apply op old)

theorem Memory.Spelled.initialise_rel {m m' : Memory V} (spelled : Memory.Spelled σ m m')
    (kind : VariableKind) {x : String} (used : σ.used x) : Option.Rel (Memory.Spelled σ)
    (m.initialise P kind x) (m'.initialise P kind (σ.name x)) := by
  cases kind with
  | functionScoped => exact .some spelled
  | blockScoped =>
    simp only [Memory.initialise]
    cases P.undefined with
    | none => exact .none
    | some u => exact .some (spelled.set used u)
  | constant | disposable | asyncDisposable => exact .none

theorem Memory.eq_set_of_initialise {kind : VariableKind} {x : String} {m m₁ : Memory V} {u : V}
    (done : m.initialise P kind x = some m₁) (held : m₁.locals x = some u) : m₁ = m.set x u := by
  cases kind with
  | functionScoped =>
    cases done
    rw [Memory.set, ← held, Function.update_eq_self]
  | blockScoped =>
    obtain ⟨v, -, rfl⟩ := Option.map_eq_some_iff.mp done
    simp only [Memory.set, Function.update_self, Option.some.injEq] at held
    rw [held]
  | constant | disposable | asyncDisposable => cases done

/-- Where the step declares a variable for export and gives it no value, the declaration leaves the
variable with what is read as `undefined`. -/
def Step.KeepsValue (P : Primitives V) (m : Memory V) : Step → Prop
  | .declare kind true x value =>
    value.isAbsent = true → (m.initialise P kind x).map (fun m₁ => m₁.locals x) =
      (m.read P "undefined").map some
  | _ => True

def Memory.exportUndefined (P : Primitives V) (m : Memory V) (x : String) : Option (Memory V) :=
  (m.read P "undefined").map fun u => (m.setExport x u).set x u

theorem Step.loweredCourse_valueless (kind : VariableKind) (x : String) {value : Node}
    (nothing : value.isAbsent = true) (m : Memory V) :
      (Step.declare kind true x value).loweredCourse P l σ.name ref m =
      .reaching (m.exportUndefined P (σ.name x)) := by
  simp only [loweredCourse, nothing, if_true, Memory.exportUndefined]
  cases m.read P "undefined" <;> rfl

theorem Memory.Spelled.exportUndefined_rel {m m' : Memory V} (spelled : Memory.Spelled σ m m')
    {kind : VariableKind} {x : String} (used : σ.used x)
    (keeps : (m.initialise P kind x).map (fun m₁ => m₁.locals x) =
    (m.read P "undefined").map some) :
    Option.Rel (Memory.Spelled σ) (m.initialise P kind x) (m'.exportUndefined P (σ.name x)) := by
  rw [Memory.exportUndefined, LiveBindings.Serves.undefined_read spelled]
  cases read : m.read P "undefined" with
  | none =>
    rw [read, Option.map_none, Option.map_eq_none_iff] at keeps
    rw [keeps]
    exact .none
  | some u =>
    rw [read, Option.map_some, Option.map_eq_some_iff] at keeps
    obtain ⟨m₁, done, held⟩ := keeps
    rw [done, Memory.eq_set_of_initialise done held]
    exact .some ((spelled.setExport _ u).set used u)

def Memory.SameLocals (name : String → String) (xs : List String) (m m' : Memory V) : Prop :=
  ∀ x ∈ xs, m'.locals (name x) = m.locals x

theorem Memory.Spelled.sameLocals {m m' : Memory V} (spelled : Memory.Spelled σ m m')
    {xs : List String} (used : ∀ x ∈ xs, σ.used x) : m.SameLocals σ.name xs m' :=
  fun x among => spelled.locals x (used x among)

theorem Memory.Spelled.keeps_of_rel {m m' : Memory V} (spelled : Memory.Spelled σ m m')
    {kind : VariableKind} {x : String} {xs : List String} (declared : x ∈ xs)
    (both : Option.Rel (Memory.SameLocals σ.name xs) (m.initialise P kind x)
    (m'.exportUndefined P (σ.name x))) :
    (m.initialise P kind x).map (fun m₁ => m₁.locals x) = (m.read P "undefined").map some := by
  rw [Memory.exportUndefined, LiveBindings.Serves.undefined_read spelled] at both
  generalize m.initialise P kind x = o at both
  cases read : m.read P "undefined" with
  | none =>
    rw [read] at both
    cases both
    rfl
  | some u =>
    rw [read] at both
    cases both with
    | some same =>
      have held := same x declared
      simp only [Memory.set, Function.update_self] at held
      rw [Option.map_some, Option.map_some, held]

theorem Step.course_rel (owns : l.Owns σ ref) {s : Step} (plain : s.IsPlain)
    (unlisted : ∀ x e, s ≠ .list x e) (used : ∀ x ∈ s.names, σ.used x) {m m' : Memory V}
    (spelled : Memory.Spelled σ m m') (keeps : s.KeepsValue P m) :
    Course.Rel (Memory.Spelled σ) (Memory.Spelled σ) (s.course P m)
      (s.loweredCourse P l σ.name ref m') := by
  cases s with
  | declare kind isExported x value =>
    have usedX : σ.used x := used x List.mem_cons_self
    rcases plain with nothing | plain
    · obtain ⟨span, rfl⟩ := Node.isNothing_iff.mp nothing
      cases isExported with
      | false => exact .reaching (spelled.initialise_rel kind usedX)
      | true =>
        rw [loweredCourse_valueless kind x rfl]
        exact .reaching (spelled.exportUndefined_rel usedX (keeps rfl))
    · have value :=
        plain.course_live (P := P) owns (fun y among => used y (List.mem_cons_of_mem _ among)) true
          spelled
      simp only [course, Memory.declaring, plain.isAbsent, Bool.false_eq_true, if_false]
      cases isExported <;> simp only [loweredCourse, plain.isAbsent, Bool.false_eq_true, if_false]
      · apply value.bind
        rintro ⟨_, m₁⟩ ⟨v, m₂⟩ ⟨rfl, spelled⟩
        exact .reaching (.some (spelled.set usedX v))
      · apply value.bind
        rintro ⟨_, m₁⟩ ⟨v, m₂⟩ ⟨rfl, spelled⟩
        exact .reaching (.some ((spelled.setExport _ v).set usedX v))
  | list x e => exact absurd rfl (unlisted x e)
  | perform e => exact (plain.course_live owns used true spelled).map fun _ _ alike => alike.memory

/-- A step that does not keep values is told from what becomes of it, whatever follows. -/
theorem Step.keepsValue_of_rel {s : Step} {xs : List String}
    (declared : ∀ b, s.binding? = some b → b.1 ∈ xs) {m m' : Memory V}
    (spelled : Memory.Spelled σ m m') {α α' : Type} {T : α → α' → Prop}
    {next : Memory V → Course V α} {next' : Memory V → Course V α'}
      (h : Course.Rel (Memory.SameLocals σ.name xs) T (s.course P m >>= next)
      (s.loweredCourse P l σ.name ref m' >>= next')) : s.KeepsValue P m := by
  cases s with
  | declare kind isExported x value =>
    cases isExported with
    | false => trivial
    | true =>
      intro nothing
      -- Both begin with the point behind the declaration, if they get there.
      rw [loweredCourse_valueless kind x nothing] at h
      simp only [course, Memory.declaring, nothing, if_true] at h
      exact spelled.keeps_of_rel (declared _ rfl) h.of_reaching
  | list | perform => trivial

def Course.IsQuiet (tail : Memory V → Course V (Memory V)) : Prop :=
  ∀ m, ∃ m₁, tail m = pure m₁ ∧ m₁.locals = m.locals

/-- Steps and what becomes of them pass the same points just if all of them keep values. -/
theorem Step.courses_rel_iff (owns : l.Owns σ ref) {xs : List String} (usedXs : ∀ x ∈ xs, σ.used x)
    {steps : List Step} (plain : ∀ s ∈ steps, s.IsPlain) (unlisted : ∀ x e, Step.list x e ∉ steps)
    (used : ∀ s ∈ steps, ∀ x ∈ s.names, σ.used x)
    (declared : ∀ b ∈ steps.filterMap binding?, b.1 ∈ xs) {tail : Memory V → Course V (Memory V)}
    (quiet : Course.IsQuiet tail) {m m' : Memory V} (spelled : Memory.Spelled σ m m') :
    Course.Rel (Memory.SameLocals σ.name xs) (Memory.SameLocals σ.name xs)
        (steps.foldlM (fun m s => s.course P m) m)
          (steps.foldlM (fun m s => s.loweredCourse P l σ.name ref m) m' >>= tail) ↔
      Throughout P (KeepsValue P) steps m := by
  -- By induction on the steps: the memories stay related until a step does not keep a value.
  induction steps generalizing m m' with
  | nil =>
    obtain ⟨m₁, ended, same⟩ := quiet m'
    refine ⟨fun _ => trivial, fun _ => ?_⟩
    rw [List.foldlM_nil, List.foldlM_nil, pure_bind, ended]
    refine .pure fun x among => ?_
    rw [same]
    exact spelled.sameLocals usedXs x among
  | cons s steps ih =>
    have later (m₁ m₂ : Memory V) (spelled : Memory.Spelled σ m₁ m₂) := ih
      (fun s among => plain s (List.mem_cons_of_mem _ among))
      (fun x e among => unlisted x e (List.mem_cons_of_mem _ among))
      (fun s among => used s (List.mem_cons_of_mem _ among)) (fun b among => declared b (by
        rw [← List.singleton_append, List.filterMap_append]
        exact List.mem_append_right _ among)) spelled
    have own : ∀ b, s.binding? = some b → b.1 ∈ xs := fun b binding =>
      declared b (List.mem_filterMap.mpr ⟨s, List.mem_cons_self, binding⟩)
    rw [List.foldlM_cons, List.foldlM_cons, bind_assoc]
    by_cases keeps : s.KeepsValue P m
    · have first := course_rel owns (plain s List.mem_cons_self)
        (fun x e same => unlisted x e (same ▸ List.mem_cons_self))
        (used s List.mem_cons_self) spelled keeps
      rw [(first.mono fun _ _ spelled => spelled.sameLocals usedXs).bind_iff]
      constructor
      · intro related
        refine ⟨keeps, fun m₁ done => ?_⟩
        rw [← result_course] at done
        obtain ⟨m₂, done', spelled⟩ := first.exists_result done
        exact (later m₁ m₂ spelled).mp (related m₁ m₂ done done' spelled)
      · intro all m₁ m₂ done done' spelled
        rw [result_course] at done
        exact (later m₁ m₂ spelled).mpr (all.2 m₁ done)
    · refine ⟨fun related => absurd (keepsValue_of_rel own spelled related) keeps,
        fun all => absurd all.1 keeps⟩

theorem Node.courseOfRun_declaration {statements : List Node} {taken : List (List Step)}
    (takes : List.Forall₂ Takes statements taken) :
    courseOfRun P (statements.map declaration) = courseOfRun P statements := by
  have bindings : ∀ n ∈ statements, n.declaration.bindings = n.bindings := fun n among => by
    obtain ⟨steps, -, takes⟩ := (exists_of_forall₂ takes).1 n among
    cases takes <;> rfl
  have course (m : Memory V) :
      (statements.map declaration).foldlM (fun m n => n.courseOfExecute P m) m =
      statements.foldlM (fun m n => n.courseOfExecute P m) m := by
    clear bindings
    induction takes generalizing m with
    | nil => rfl
    | @cons n steps ns taken first _ ih =>
      have same : n.declaration.courseOfExecute P m = n.courseOfExecute P m := by
        cases first <;> rfl
      rw [List.map_cons, List.foldlM_cons, List.foldlM_cons, same]
      exact bind_congr ih
  rw [courseOfRun, courseOfRun, List.flatMap_map, List.flatMap_congr bindings]
  exact bind_congr course

/-- The code runs what becomes of the steps, with the variables under new names. What stands in
front of the steps and behind them writes no variable, but needs the runtime's `Object` where it
defines the module flag. -/
structure RunsLowered (P : Primitives V) (definesFlag : Bool) (steps : List Step) (σ : Spelling)
    (code : List Node) : Prop where
  kept : ∀ x, x ∉ runtimeNames → σ.name x = x
  used : ∀ s ∈ steps, ∀ x ∈ s.names, σ.used x
  stops : definesFlag = true → "Object" ∈ Step.declared steps →
    ∃ m₀, Node.courseOfRun P code = ⟨[m₀], none⟩
  course : (definesFlag = true → "Object" ∉ Step.declared steps) →
    ∃ (l : LiveBindings) (ref : String → Reference) (m₀ m₁ : Memory V)
      (tail : Memory V → Course V (Memory V)), l.Owns σ ref ∧
      Memory.Spelled σ (.start P (steps.filterMap Step.binding?)) m₀ ∧
      Memory.Spelled σ (.start P (steps.filterMap Step.binding?)) m₁ ∧ Course.IsQuiet tail ∧
      Node.courseOfRun P code = .reaching (some m₀) >>= fun _ =>
        steps.foldlM (fun m s => s.loweredCourse P l σ.name ref m) m₁ >>= tail

namespace RunsLowered

variable {code : List Node} {definesFlag : Bool}

theorem used_declared {steps : List Step} (h : RunsLowered P definesFlag steps σ code) :
    ∀ x ∈ Step.declared steps, σ.used x := by
  intro x among
  obtain ⟨b, listed, rfl⟩ := List.mem_map.mp among
  obtain ⟨s, among, binding⟩ := List.mem_filterMap.mp listed
  exact h.used s among b.1 (Step.mem_names_of_binding binding)

theorem rel_iff {statements : List Node} {steps : List Step}
    (h : RunsLowered P definesFlag steps σ code) (read : Node.stepsOf? statements = some steps)
    (unlisted : ∀ x e, Step.list x e ∉ steps)
    (free : definesFlag = true → "Object" ∉ Step.declared steps) :
    Course.Rel (Memory.SameLocals σ.name (Step.declared steps))
        (Memory.SameLocals σ.name (Step.declared steps))
          (Node.courseOfRun P (statements.map Node.declaration)) (Node.courseOfRun P code) ↔
      Step.Throughout P (Step.KeepsValue P) steps (.start P (steps.filterMap Step.binding?)) := by
  obtain ⟨taken, takes, rfl⟩ := Node.stepsOf?_eq_some read
  obtain ⟨l, ref, m₀, m₁, tail, owns, spelled₀, spelled₁, quiet, course⟩ := h.course free
  have plain : ∀ s ∈ taken.flatten, s.IsPlain := fun s among => by
    obtain ⟨steps, listed, among⟩ := List.mem_flatten.mp among
    obtain ⟨n, -, takes⟩ := (exists_of_forall₂ takes).2 steps listed
    exact takes.plain s among
  have first := Course.Rel.reaching (.some (spelled₀.sameLocals h.used_declared))
  rw [Node.courseOfRun_declaration takes, Node.courseOfRun_eq takes, course, first.bind_iff,
    ← Step.courses_rel_iff owns h.used_declared plain unlisted h.used
      (fun b among => List.mem_map_of_mem among) quiet spelled₁]
  constructor
  · exact fun related => related _ _ rfl rfl (spelled₀.sameLocals h.used_declared)
  · rintro related _ _ ended - -
    cases ended
    exact related

end RunsLowered

end

namespace Module.OfVariables

variable {V : Type} {P : Primitives V} {m : Module} {statements : List Node}
    {taken : List (List Step)}

theorem runsLowered_itself (h : m.OfVariables statements taken) (options : Options)
    (noSyntax : m.hasModuleSyntax = false) :
    RunsLowered P (definesFlag options statements) taken.flatten .same m.statements := by
  obtain ⟨-, l, ns, serves, lowers⟩ := h.lowers_itself (P := P) noSyntax
  have spelled : Memory.Spelled .same (.start P (taken.flatten.filterMap Step.binding?))
      (.start P (m.statements.flatMap Node.bindings)) := by
    rw [lowers.bindings]
    exact .start (fun _ _ => trivial) fun _ _ _ => rfl
  have undefinedFlag : ¬ definesFlag options statements = true := by
    simp [h.definesFlag_of_noSyntax noSyntax]
  refine ⟨fun _ _ => rfl, fun _ _ _ _ => trivial, fun defines => absurd defines undefinedFlag,
    fun _ => ⟨l, m.scopes.rootReference, _, _, pure, serves.owns, spelled, spelled,
      fun m => ⟨m, rfl, rfl⟩, ?_⟩⟩
  rw [bind_pure, ← lowers.course]
  rfl

theorem runsLowered (h : m.OfVariables statements taken) {u t : V} (defined : P.undefined = some u)
    (flag : P.boolean true = some t)
    (legal : "__esModule" ∉ (taken.flatten.filterMap (Step.spelledPair? m.newName)).map Prod.snd)
    (options : Options) (hasSyntax : m.hasModuleSyntax = true) :
    ∃ r, m.draft options .none = .ok r ∧ RunsLowered P (definesFlag options statements)
      taken.flatten h.spelling (m.lowered r).statements := by
  obtain ⟨r, footer, drafted, direct, -, shape, arranged⟩ := h.draft legal options hasSyntax
  have used : ∀ s ∈ taken.flatten, ∀ x ∈ s.names, h.spelling.used x :=
    fun s among x named => h.used among named
  obtain ⟨code, lowers⟩ := Lowers.statements (P := P) (h.owns direct) h.takes used
  have start := h.start (P := P)
  refine ⟨r, drafted, fun x other => Module.newName_eq h.flat other, used,
    h.course_hidden hasSyntax direct arranged shape lowers,
    fun free => ⟨m.liveBindings r, m.scopes.rootReference, _, _, _, h.owns direct, start,
      start.setExport "__esModule" t, fun m₁ => ?_,
      h.course_flagged flag hasSyntax direct arranged shape lowers free⟩⟩
  obtain ⟨m₂, ended, same, -⟩ := Item.courseOfExecute_footer defined shape m₁
  exact ⟨m₂, ended, same⟩

end Module.OfVariables

theorem Module.unreserved_newName {m : Module} (suits : m.newNames.Suits m.scopes)
    {steps : List Step} (unlisted : ∀ x e, Step.list x e ∉ steps)
    (unreserved : ∀ kind value, Step.declare kind true "__esModule" value ∉ steps) :
    "__esModule" ∉ (steps.filterMap (Step.spelledPair? m.newName)).map Prod.snd := by
  intro reserved
  obtain ⟨p, listed, same⟩ := List.mem_map.mp reserved
  obtain ⟨s, among, pair⟩ := List.mem_filterMap.mp listed
  cases s with
  | declare kind isExported x value =>
    cases isExported <;> cases pair
    obtain rfl := (newName_eq_reserved_iff suits x).mp same
    exact unreserved kind value among
  | list x e => exact unlisted x e among
  | perform => cases pair

theorem Module.exists_runsLowered {V : Type} {P : Primitives V}
    (defined : P.undefined.isSome = true) (flag : (P.boolean true).isSome = true)
    (options : Options) (s : Original) {steps : List Step}
    (read : Node.stepsOf? s.statements = some steps)
    (inside : ∀ s ∈ steps, s.isInside (Step.declared steps) = true)
    (unlisted : ∀ x e, Step.list x e ∉ steps)
    (unreserved : ∀ kind value, Step.declare kind true "__esModule" value ∉ steps) :
    ∃ outcome lowered σ,
      (lower options .none).run s.analysed = .ok outcome lowered ∧
      RunsLowered P (definesFlag options s.statements) steps σ lowered.statements := by
  obtain ⟨u, defined⟩ := Option.isSome_iff_exists.mp defined
  obtain ⟨t, flag⟩ := Option.isSome_iff_exists.mp flag
  obtain ⟨taken, takes, rfl⟩ := Node.stepsOf?_eq_some read
  have h := Original.ofVariables takes inside
  have legal := unreserved_newName s.newNames_suits unlisted unreserved
  cases hasSyntax : s.analysed.hasModuleSyntax with
  | false => exact ⟨_, _, .same, lower_of_plain hasSyntax, h.runsLowered_itself options hasSyntax⟩
  | true =>
    obtain ⟨r, drafted, runs⟩ := h.runsLowered defined flag legal options hasSyntax
    exact ⟨_, _, _, (lower_of_draft hasSyntax drafted).2, runs⟩

/-- A module of declarations and of assignments to its own variables is lowered without error,
whichever of the declarations are exported. If one of them hides the `Object` that the module flag
is defined with, the lowered module stops before all of them. Otherwise, point by point, the
variables hold in the lowered module what they hold in the module without the exports, exactly if
each declaration that is exported without a value would leave `undefined` in its variable by
itself. -/
theorem exporting_keeps_variables_iff {V : Type} (P : Primitives V)
    (defined : P.undefined.isSome = true) (flag : (P.boolean true).isSome = true)
    (options : Options) (s : Original) (steps : List Step)
    (read : Node.stepsOf? s.statements = some steps)
    (inside : ∀ s ∈ steps, s.isInside (Step.declared steps) = true)
    (unlisted : ∀ x e, Step.list x e ∉ steps)
    (unreserved : ∀ kind value, Step.declare kind true "__esModule" value ∉ steps) :
    ∃ outcome lowered, ∃ name : String → String,
      (Module.lower options .none).run s.analysed = .ok outcome lowered ∧
      (∀ x, x ∉ runtimeNames → name x = x) ∧
      (∀ x ∈ Step.declared steps, ∀ y ∈ Step.declared steps, name x = name y → x = y) ∧
      (Module.definesFlag options s.statements = true → "Object" ∈ Step.declared steps →
        ∃ m₀, Node.courseOfRun P lowered.statements = ⟨[m₀], none⟩) ∧
      ((Module.definesFlag options s.statements = true → "Object" ∉ Step.declared steps) →
        (Course.Rel (Memory.SameLocals name (Step.declared steps))
            (Memory.SameLocals name (Step.declared steps))
            (Node.courseOfRun P (s.statements.map Node.declaration))
            (Node.courseOfRun P lowered.statements) ↔
          Step.Throughout P (Step.KeepsValue P) steps
            (.start P (steps.filterMap Step.binding?)))) := by
  obtain ⟨outcome, lowered, σ, done, runs⟩ :=
    Module.exists_runsLowered defined flag options s read inside unlisted unreserved
  refine ⟨outcome, lowered, σ.name, done, runs.kept, fun x declaredX y declaredY same => ?_,
    runs.stops, runs.rel_iff read unlisted⟩
  exact σ.injective (runs.used_declared x declaredX) (runs.used_declared y declaredY) same

section Example

/-- `export var x, exports = 1; x = exports = 2; export let y;` -/
def Node.exportedFirst : List Node := [
  .made .exportDeclaration [.made (.varDecl .functionScoped false) [
    .made (.declarator false) [.made (.binder "x" none) [], .made .absent [], .made .absent []],
    .made (.declarator false) [.made (.binder "exports" none) [], .made .absent [],
      Made.number 1]]],
  .made .expression [.made (.assign .plain) [.made (.target "x" .none) [],
    .made (.assign .plain) [.made (.target "exports" .none) [], Made.number 2]]],
  .made .exportDeclaration [.made (.varDecl .blockScoped false) [
    .made (.declarator false) [.made (.binder "y" none) [], .made .absent [], .made .absent []]]]]

theorem exporting_keeps_variables_iff_exportedFirst :
    ∃ outcome lowered, ∃ name : String → String,
      (Module.lower .default .none).run
        (.analyse true (.made (.program none []) Node.exportedFirst)) = .ok outcome lowered ∧
      name "x" = "x" ∧ name "y" = "y" ∧
      Course.Rel (Memory.SameLocals name ["x", "exports", "y"])
        (Memory.SameLocals name ["x", "exports", "y"])
        (Node.courseOfRun .scalars (Node.exportedFirst.map Node.declaration))
        (Node.courseOfRun .scalars lowered.statements) := by
  obtain ⟨outcome, lowered, name, done, kept, -, -, follows⟩ :=
    exporting_keeps_variables_iff .scalars rfl rfl .default
      ⟨true, none, [], none, Node.exportedFirst⟩ _ rfl (by decide) (by simp) (by simp)
  refine ⟨outcome, lowered, name, done, kept "x" (by decide), kept "y" (by decide),
    (follows fun _ => by decide).mpr ?_⟩
  refine ⟨fun _ => rfl, fun m₁ first => ⟨fun absent => absurd absent (by decide), fun m₂ second =>
    ⟨trivial, fun m₃ third => ?_⟩⟩⟩
  obtain rfl := Option.some.inj first
  obtain rfl := Option.some.inj second
  obtain rfl := Option.some.inj third
  exact ⟨fun _ => rfl, fun _ _ => trivial⟩

/-- `x = 1; export var x;` -/
def Node.assignedFirst : List Node := [
  .made .expression [.made (.assign .plain) [.made (.target "x" .none) [], Made.number 1]],
  .made .exportDeclaration [.made (.varDecl .functionScoped false) [
    .made (.declarator false) [.made (.binder "x" none) [], .made .absent [], .made .absent []]]]]

/-- The variable has a value where it is declared, and loses it when the declaration is exported. -/
theorem exported_declaration_resets_variable :
    ∃ outcome lowered,
      (Module.lower .default .none).run
        (.analyse true (.made (.program none []) Node.assignedFirst)) = .ok outcome lowered ∧
      ¬ Course.Rel (Memory.SameLocals id ["x"]) (Memory.SameLocals id ["x"])
        (Node.courseOfRun .scalars (Node.assignedFirst.map Node.declaration))
        (Node.courseOfRun .scalars lowered.statements) := by
  have read : Node.stepsOf? Node.assignedFirst =
      some [.perform (.made (.assign .plain) [.made (.target "x" .none) [], Made.number 1]),
      .declare .functionScoped true "x" (.made .absent [])] := rfl
  obtain ⟨outcome, lowered, σ, done, runs⟩ :=
    Module.exists_runsLowered (P := .scalars) rfl rfl .default ⟨true, none, [], none, _⟩ read
      (by decide) (by simp) (by simp)
  refine ⟨outcome, lowered, done, fun related => ?_⟩
  have same : Memory.SameLocals (V := Scalar) id ["x"] = Memory.SameLocals σ.name ["x"] := by
    funext m m'
    simp [Memory.SameLocals, runs.kept "x" (by decide)]
  rw [same] at related
  have keeps := (runs.rel_iff read (by simp) fun _ => by decide).mp related
  exact absurd ((keeps.2 _ rfl).1 rfl) (by decide)

end Example

end ModuleLowering
