import ModuleLowering.Proofs.Evaluation.Course
import ModuleLowering.Proofs.Evaluation.LiveExpression
import ModuleLowering.Proofs.Tree
import ModuleLowering.Scope.Rename

/-!
What top-level statements do when they run.

Modules of variables are taken apart into steps: each declares one variable, lists one export, or
evaluates an expression. For every exported name one can then say when it was last given the value
of its variable.
-/

set_option autoImplicit false

namespace ModuleLowering

section
variable {V : Type} (P : Primitives V)

def Memory.initialise (kind : VariableKind) (x : String) (m : Memory V) : Option (Memory V) :=
  match kind with
  | .functionScoped => some m
  | .blockScoped => P.undefined.map (m.set x)
  | _ => none

def Node.bind (kind : VariableKind) : Node → Memory V → Option (Memory V)
  | .mk (.declarator _) _ [.mk (.binder x _) _ _, _, value], m =>
    if value.isAbsent then m.initialise P kind x
    else (value.eval P m).map fun (v, m) => m.set x v
  | _, _ => none

def Node.execute : Node → Memory V → Option (Memory V)
  | .mk (.varDecl kind _) _ ds, m => ds.foldlM (fun m d => d.bind P kind m) m
  | .mk .exportDeclaration _ [d], m => d.execute m
  | .mk (.exportNamed _) _ _, m => some m
  | .mk .expression _ [e], m => (e.eval P m).map Prod.snd
  | _, _ => none

/-- Declares a variable, point by point. There is a point behind every declaration. -/
def Memory.declaring (kind : VariableKind) (x : String) (value : Node) (m : Memory V) :
    Course V (Memory V) :=
  if value.isAbsent then .reaching (m.initialise P kind x)
  else do
    let (v, m) ← value.course P m
    .reaching (some (m.set x v))

def Node.courseOfBind (kind : VariableKind) : Node → Memory V → Course V (Memory V)
  | .mk (.declarator _) _ [.mk (.binder x _) _ _, _, value], m => m.declaring P kind x value
  | d, m => .unseen (d.bind P kind m)

def Node.courseOfExecute : Node → Memory V → Course V (Memory V)
  | .mk (.varDecl kind _) _ ds, m => ds.foldlM (fun m d => d.courseOfBind P kind m) m
  | .mk .exportDeclaration _ [d], m => d.courseOfExecute m
  | .mk .expression _ [e], m => Prod.snd <$> e.course P m
  | n, m => .unseen (n.execute P m)

end

def Node.declaration : Node → Node
  | .mk .exportDeclaration _ [d] => d
  | n => n

def Node.binding? (kind : VariableKind) : Node → Option (String × VariableKind)
  | .mk (.declarator _) _ (.mk (.binder x _) _ _ :: _) => some (x, kind)
  | _ => none

def Node.bindings (n : Node) : List (String × VariableKind) :=
  match n.declaration with
  | .mk (.varDecl kind _) _ ds => ds.filterMap (binding? kind)
  | _ => []

section
variable {V : Type} (P : Primitives V)

/-- The memory before anything runs. All variables are known, but only those of `var` are alive. -/
def Memory.start (declared : List (String × VariableKind)) : Memory V where
  kinds x := declared.lookup x
  locals x := if declared.lookup x = some .functionScoped then P.undefined else none
  exports _ := none
  replacement := none

def Node.run (ns : List Node) : Option (Memory V) :=
  ns.foldlM (fun m n => n.execute P m) (Memory.start P (ns.flatMap bindings))

def Node.courseOfRun (ns : List Node) : Course V (Memory V) := do
  let m ← .reaching (some (Memory.start P (ns.flatMap bindings)))
  ns.foldlM (fun m n => n.courseOfExecute P m) m

end

-- Where the courses end.
section
variable {V : Type} {P : Primitives V}

theorem Memory.kinds_start_eq_none_iff {declared : List (String × VariableKind)} {x : String} :
    (Memory.start P declared).kinds x = none ↔ x ∉ declared.map Prod.fst := by
  rw [Memory.start, List.lookup_eq_none_iff, List.mem_map]
  constructor
  · rintro others ⟨b, among, rfl⟩
    exact bne_iff_ne.mp (others b among) rfl
  · exact fun absent b among => bne_iff_ne.mpr fun same => absent ⟨b, among, same.symm⟩

theorem Memory.result_declaring (kind : VariableKind) (x : String) (value : Node) (m : Memory V) :
    (m.declaring P kind x value).result =
      if value.isAbsent then m.initialise P kind x else (value.eval P m).map fun r =>
      r.2.set x r.1 := by
  unfold declaring
  split
  · rfl
  · rw [Course.result_bind_reaching, Node.result_course]

theorem Node.result_courseOfBind (kind : VariableKind) (d : Node) (m : Memory V) :
    (d.courseOfBind P kind m).result = d.bind P kind m := by
  unfold courseOfBind
  split
  · exact Memory.result_declaring kind _ _ _
  · rfl

theorem Node.result_courseOfExecute (n : Node) (m : Memory V) :
    (n.courseOfExecute P m).result = n.execute P m := by
  induction n using Node.induction generalizing m with
  | step f s ps ih =>
    unfold courseOfExecute
    split
    · next eq =>
      cases eq
      simp only [Course.result_foldlM, result_courseOfBind, execute]
    · next eq =>
      cases eq
      exact ih _ List.mem_cons_self _
    · next eq =>
      cases eq
      rw [Course.result_map, result_course, execute]
    · rfl

theorem Node.result_courseOfRun (ns : List Node) : (courseOfRun P ns).result = run P ns := by
  show (ns.foldlM (fun m (n : Node) => n.courseOfExecute P m) _).result = _
  simp only [Course.result_foldlM, result_courseOfExecute, run]

end

mutual

/-- Expressions of numbers, names and operators, with assignments of variables anywhere inside. -/
def Node.isPlain : Node → Bool
  | .mk (.number _) _ [] => true
  | .mk (.ident ..) _ [] => true
  | .mk (.binary _) _ [a, b] => a.isPlain && b.isPlain
  | .mk .sequence _ es => !es.isEmpty && arePlain es
  | .mk (.assign .plain) _ [.mk (.target ..) _ [], e] => e.isPlain
  | .mk (.assign (.combined _)) _ [.mk (.target ..) _ [], e] => e.isPlain
  | _ => false

def Node.arePlain : List Node → Bool
  | [] => true
  | e :: es => e.isPlain && arePlain es

end

inductive Plain : Node → Prop
  | number (n : Numeral) (s : Option Span) : Plain (.mk (.number n) s [])
  | ident (x : String) (ref : Reference) (s : Option Span) : Plain (.mk (.ident x ref) s [])
  | binary (op : BinaryOp) (s : Option Span) {a b : Node} : Plain a → Plain b → Plain
    (.mk (.binary op) s [a, b])
  | sequence (s : Option Span) {es : List Node} : es ≠ [] → (∀ e ∈ es, Plain e) → Plain
    (.mk .sequence s es)
  | assign (x : String) (ref : Reference) (s s' : Option Span) {e : Node} :
    Plain e → Plain (.mk (.assign .plain) s [.mk (.target x ref) s' [], e])
  | combine (op : BinaryOp) (x : String) (ref : Reference) (s s' : Option Span) {e : Node} :
    Plain e → Plain (.mk (.assign (.combined op)) s [.mk (.target x ref) s' [], e])

inductive Step where
  | declare (kind : VariableKind) (isExported : Bool) (x : String) (value : Node)
  | list (x exported : String)
  | perform (e : Node)

def VariableKind.isOrdinary : VariableKind → Bool
  | .functionScoped | .blockScoped | .constant => true
  | _ => false

def Node.isNothing : Node → Bool
  | .mk .absent _ [] => true
  | _ => false

def Node.declaratorStep? (kind : VariableKind) (isExported : Bool) : Node → Option Step
  | .mk (.declarator _) _ [.mk (.binder x _) _ [], typing, value] =>
    if typing.isNothing && (value.isNothing || value.isPlain)
      then some (.declare kind isExported x value) else none
  | _ => none

def Node.specifierStep? : Node → Option Step
  | .mk (.exportSpecifier false) _ [.mk (.mention x _ .either) _ [], .mk (.word exported) _ []]
  | .mk (.exportSpecifier false) _ [.mk (.mention x _ .either) _ [], .mk (.string exported) _ []] =>
    if x = "this" then none else some (.list x exported)
  | _ => none

def Node.steps? : Node → Option (List Step)
  | .mk (.varDecl kind false) _ ds =>
    if kind.isOrdinary then ds.mapM (declaratorStep? kind false) else none
  | .mk .exportDeclaration _ [.mk (.varDecl kind false) _ ds] =>
    if kind.isOrdinary then ds.mapM (declaratorStep? kind true) else none
  | .mk (.exportNamed false) _ ps => ps.mapM specifierStep?
  | .mk .expression _ [e] => if e.isPlain then some [.perform e] else none
  | _ => none

namespace Step

def binding? : Step → Option (String × VariableKind)
  | .declare kind _ x _ => some (x, kind)
  | _ => none

/-- The variables that some steps declare. -/
def declared (steps : List Step) : List String := (steps.filterMap binding?).map Prod.fst

def pair? : Step → Option (String × String)
  | .declare _ true x _ => some (x, x)
  | .list x exported => some (x, exported)
  | _ => none

def names : Step → List String
  | .declare _ _ x value => x :: value.variables
  | .list x _ => [x]
  | .perform e => e.variables

theorem mem_names_of_binding {s : Step} {b : String × VariableKind} (h : s.binding? = some b) :
    b.1 ∈ s.names := by
  cases s with
  | declare => cases h; exact List.mem_cons_self
  | list | perform => cases h

theorem mem_names_of_pair {s : Step} {p : String × String} (h : s.pair? = some p) :
    p.1 ∈ s.names := by
  cases s with
  | declare _ isExported =>
    cases isExported <;> cases h
    exact List.mem_cons_self
  | list => cases h; exact List.mem_cons_self
  | perform => cases h

/-- Whether a step writes and lists the module's own variables only. Of other names it reads none
that the runtime gives a module. -/
def isInside (own : List String) (s : Step) : Bool :=
  s.names.all (fun x => x ∈ own || x ∉ runtimeNames) && match s with
  | .list x _ => x ∈ own
  | .declare _ _ _ e | .perform e => !e.anyForm fun f => match f with
    | .target x _ => x ∉ own
    | _ => false

theorem declared_of_isInside {own : List String} {s : Step} (h : s.isInside own = true)
    {x : String} (named : x ∈ s.names) (runtime : x ∈ runtimeNames) : x ∈ own := by
  have each := List.all_eq_true.mp (Bool.and_eq_true_iff.mp h).1 x named
  simpa [runtime] using each

/-- No name is exported twice, none is that of the module flag or of the property that changes what
an object inherits, and no declaration exports one of the names that the runtime gives a module. -/
structure AreExportable (steps : List Step) : Prop where
  distinct : ((steps.filterMap pair?).map Prod.snd).Nodup
  unreserved : ∀ e ∈ ["__esModule", "__proto__"], e ∉ (steps.filterMap pair?).map Prod.snd
  named : ∀ kind x value, .declare kind true x value ∈ steps → x ∉ runtimeNames

def IsPlain : Step → Prop
  | .declare _ _ _ value => value.isNothing = true ∨ Plain value
  | .list .. => True
  | .perform e => Plain e

section
variable {V : Type} (P : Primitives V)

def run : Step → Memory V → Option (Memory V)
  | .declare kind _ x value, m =>
    if value.isAbsent then m.initialise P kind x
    else (value.eval P m).map fun (v, m) => m.set x v
  | .list .., m => some m
  | .perform e, m => (e.eval P m).map Prod.snd

def course : Step → Memory V → Course V (Memory V)
  | .declare kind _ x value, m => m.declaring P kind x value
  | .list .., m => pure m
  | .perform e, m => Prod.snd <$> e.course P m

theorem result_course (s : Step) (m : Memory V) : (s.course P m).result = s.run P m := by
  cases s with
  | declare kind isExported x value => exact Memory.result_declaring kind x value m
  | list => rfl
  | perform e => rw [course, run, Course.result_map, Node.result_course]

def IsReadable (m : Memory V) : Step → Prop
  | .list x _ => (m.read P x).isSome = true
  | _ => True

/-- A variable that the step declares for export without a value has not been given one yet; and
`undefined` is what it should be. -/
def IsBlank (m : Memory V) : Step → Prop
  | .declare kind true x value => value.isAbsent = true →
    m.read P "undefined" = P.undefined ∧ (kind = .functionScoped → m.locals x = P.undefined)
  | _ => True

/-- The value that a step gives to the exported name `e` of the variable `x`, if it gives it one. An
assignment that is reached gives the variable's value to all names of the variable, a list to the
name it lists, and a declaration only to the name it exports the variable under itself. -/
def published? (x e : String) (m : Memory V) : Step → Option V
  | .declare _ isExported y value =>
    if value.isAbsent then if isExported ∧ y = x ∧ e = x then P.undefined else none
    else (value.eval P m).bind fun (v, m₁) =>
      if isExported ∧ y = x ∧ e = x then some v
      else if x ∈ value.touched P m then m₁.read P x else none
  | .list y e' => if y = x ∧ e' = e then m.read P x else none
  | .perform a => if x ∈ a.touched P m then (a.eval P m).bind fun r => r.2.read P x else none

def Throughout (Q : Memory V → Step → Prop) : List Step → Memory V → Prop
  | [], _ => True
  | s :: steps, m => Q m s ∧ ∀ m₁, s.run P m = some m₁ → Throughout Q steps m₁

/-- The value that the exported name `e` of the variable `x` was given last, in a run from `m`
before which it was `last`. -/
def lastPublished (x e : String) : List Step → Memory V → Option V → Option V
  | [], _, last => last
  | s :: steps, m, last =>
    match s.run P m with
    | some m₁ => lastPublished x e steps m₁ ((s.published? P x e m).or last)
    | none => last

end

end Step

theorem Node.arePlain_iff {es : List Node} : arePlain es = true ↔ ∀ e ∈ es, e.isPlain = true := by
  induction es with
  | nil => simp [arePlain]
  | cons e es ih => simp [arePlain, ih]

theorem plain_of_isPlain (e : Node) (h : e.isPlain = true) : Plain e := by
  induction e using Node.induction with
  | step f s ps ih =>
    unfold Node.isPlain at h
    split at h
    · next eq => cases eq; exact .number _ _
    · next eq => cases eq; exact .ident _ _ _
    · next eq =>
      cases eq
      rw [Bool.and_eq_true] at h
      exact .binary _ _ (ih _ (by simp) h.1) (ih _ (by simp) h.2)
    · next eq =>
      cases eq
      simp only [Bool.and_eq_true, Bool.not_eq_true', List.isEmpty_eq_false_iff] at h
      exact .sequence _ h.1 fun e among => ih e among (Node.arePlain_iff.mp h.2 e among)
    · next eq => cases eq; exact .assign _ _ _ _ (ih _ (by simp) h)
    · next eq => cases eq; exact .combine _ _ _ _ _ (ih _ (by simp) h)
    · cases h

theorem Node.isNothing_iff {n : Node} : n.isNothing = true ↔ ∃ s, n = .mk .absent s [] := by
  constructor
  · intro h
    unfold isNothing at h
    split at h
    · exact ⟨_, rfl⟩
    · cases h
  · rintro ⟨s, rfl⟩
    rfl

theorem forall₂_of_mapM {α β : Type} {f : α → Option β} {as : List α} {bs : List β}
    (h : as.mapM f = some bs) :
    List.Forall₂ (fun a b => f a = some b) as bs := by
  induction as generalizing bs with
  | nil =>
    obtain rfl : [] = bs := by simpa using h
    exact .nil
  | cons a as ih =>
    simp only [List.mapM_cons, Option.bind_eq_bind, Option.bind_eq_some_iff, Option.pure_def,
      Option.some.injEq] at h
    obtain ⟨b, first, rest, others, rfl⟩ := h
    exact .cons first (ih others)

theorem Node.declaratorStep?_eq_some {kind : VariableKind} {isExported : Bool} {d : Node}
    {step : Step} (h : d.declaratorStep? kind isExported = some step) :
    ∃ isDefinite s x symbol s' typing value, d = .mk (.declarator isDefinite) s
        [.mk (.binder x symbol) s' [], typing, value] ∧ typing.isNothing = true ∧
      (value.isNothing = true ∨ value.isPlain = true) ∧
      step = .declare kind isExported x value := by
  unfold declaratorStep? at h
  split at h
  · next isDefinite s x symbol s' typing value =>
    simp only [Option.ite_none_right_eq_some, Bool.and_eq_true, Bool.or_eq_true, Option.some.injEq]
      at h
    exact ⟨isDefinite, s, x, symbol, s', typing, value, rfl, h.1.1, h.1.2, h.2.symm⟩
  · cases h

theorem Node.specifierStep?_eq_some {n : Node} {step : Step} (h : n.specifierStep? = some step) :
    ∃ s x ref s' other, n = .mk (.exportSpecifier false) s [.mk (.mention x ref .either) s' [],
      other] ∧ x ≠ "this" ∧
      ((∃ exported, other.form = .word exported) ∨ ∃ exported, other.form = .string exported) ∧
        other.parts = [] ∧
      step = .list x other.nameText := by
  unfold specifierStep? at h
  split at h
  · next s x ref s' exported s'' =>
    split at h
    · cases h
    · next named =>
        exact ⟨s, x, ref, s', _, rfl, named, .inl ⟨exported, rfl⟩, rfl, (Option.some.inj h).symm⟩
  · next s x ref s' exported s'' =>
    split at h
    · cases h
    · next named =>
        exact ⟨s, x, ref, s', _, rfl, named, .inr ⟨exported, rfl⟩, rfl, (Option.some.inj h).symm⟩
  · cases h

abbrev DeclaratorsTake (kind : VariableKind) (isExported : Bool) (ds : List Node)
    (steps : List Step) : Prop :=
  List.Forall₂ (fun d step => d.declaratorStep? kind isExported = some step) ds steps

abbrev SpecifiersTake (ps : List Node) (steps : List Step) : Prop :=
  List.Forall₂ (fun p step => p.specifierStep? = some step) ps steps

inductive Node.Takes : Node → List Step → Prop
  | declare {kind : VariableKind} (s : Option Span) {ds : List Node} {steps : List Step} :
    kind.isOrdinary = true →
    DeclaratorsTake kind false ds steps →
    Takes (.mk (.varDecl kind false) s ds) steps
  | exportDeclared {kind : VariableKind} (s s' : Option Span) {ds : List Node} {steps : List Step} :
    kind.isOrdinary = true → DeclaratorsTake kind true ds steps →
    Takes (.mk .exportDeclaration s [.mk (.varDecl kind false) s' ds]) steps
  | list (s : Option Span) {ps : List Node} {steps : List Step} :
    SpecifiersTake ps steps → Takes (.mk (.exportNamed false) s ps) steps
  | perform (s : Option Span) {e : Node} : Plain e → Takes (.mk .expression s [e]) [.perform e]

theorem Node.takes_of_steps? {n : Node} {steps : List Step} (h : n.steps? = some steps) :
    n.Takes steps := by
  unfold steps? at h
  split at h
  · rw [Option.ite_none_right_eq_some] at h
    exact .declare _ h.1 (forall₂_of_mapM h.2)
  · rw [Option.ite_none_right_eq_some] at h
    exact .exportDeclared _ _ h.1 (forall₂_of_mapM h.2)
  · exact .list _ (forall₂_of_mapM h)
  · rw [Option.ite_none_right_eq_some, Option.some.injEq] at h
    obtain ⟨plain, rfl⟩ := h
    exact .perform _ (plain_of_isPlain _ plain)
  · cases h

section
variable {V : Type} {P : Primitives V}

theorem Node.courseOfBind_eq {kind : VariableKind} {isExported : Bool} {d : Node} {step : Step}
    (h : d.declaratorStep? kind isExported = some step) (m : Memory V) :
    d.courseOfBind P kind m = step.course P m := by
  obtain ⟨isDefinite, s, x, symbol, s', typing, value, rfl, -, -, rfl⟩ := declaratorStep?_eq_some h
  rfl

theorem Node.foldlM_courseOfBind {kind : VariableKind} {isExported : Bool} {ds : List Node}
    {steps : List Step} (h : DeclaratorsTake kind isExported ds steps) (m : Memory V) :
    ds.foldlM (fun m d => d.courseOfBind P kind m) m = steps.foldlM
      (fun m step => step.course P m) m := by
  induction h generalizing m with
  | nil => rfl
  | cons first _ ih =>
    rw [List.foldlM_cons, List.foldlM_cons, courseOfBind_eq first]
    exact bind_congr fun m₁ => ih m₁

theorem Node.Takes.courseOfExecute {n : Node} {steps : List Step} (h : n.Takes steps)
    (m : Memory V) :
    n.courseOfExecute P m = steps.foldlM (fun m step => step.course P m) m := by
  cases h with
  | declare s ordinary each => exact Node.foldlM_courseOfBind each m
  | exportDeclared s s' ordinary each => exact Node.foldlM_courseOfBind each m
  | list s each =>
    induction each with
    | nil => rfl
    | cons first _ ih =>
      obtain ⟨_, x, _, _, other, -, -, -, -, rfl⟩ := Node.specifierStep?_eq_some first
      exact ih
  | perform s plain =>
    rw [List.foldlM_cons]
    exact (bind_pure _).symm

end

theorem Node.Takes.bindings {n : Node} {steps : List Step} (h : n.Takes steps) :
    n.bindings = steps.filterMap Step.binding? := by
  have declarators {kind : VariableKind} {isExported : Bool} {ds : List Node} {steps : List Step}
      (each : DeclaratorsTake kind isExported ds steps) :
      ds.filterMap (Node.binding? kind) = steps.filterMap Step.binding? := by
    induction each with
    | nil => rfl
    | cons first _ ih =>
      obtain ⟨_, _, x, _, _, _, _, rfl, -, -, rfl⟩ := Node.declaratorStep?_eq_some first
      exact congrArg ((x, kind) :: ·) ih
  cases h with
  | declare s ordinary each => exact declarators each
  | exportDeclared s s' ordinary each => exact declarators each
  | list s each =>
    induction each with
    | nil => rfl
    | cons first _ ih =>
      obtain ⟨_, x, _, _, other, -, -, -, -, rfl⟩ := Node.specifierStep?_eq_some first
      exact ih
  | perform s plain => rfl

end ModuleLowering
