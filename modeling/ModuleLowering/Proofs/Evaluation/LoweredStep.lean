import ModuleLowering.Proofs.Evaluation.VariableModule
import ModuleLowering.Proofs.Lower.Item

/-!
What the statements of a lowered module do, one step of the module at a time.
-/

set_option autoImplicit false

namespace ModuleLowering

theorem Node.live_sequence (l : LiveBindings) (s : Option Span) (es : List Node) (c : Bool) :
    (mk .sequence s es).live l c = .mk .sequence s (es.map (live l c)) := by
  simp only [live, Form.truthful]
  rw [liveParts_eq_map (fun _ _ => rfl)]

theorem Straight.live_eq {W : Vocabulary} {l : LiveBindings} {e : Node} (h : Straight W l e)
    (c c' : Bool) :
    e.live l c = e.live l c' := by
  induction h with
  | number | ident | update => rfl
  | binary _ _ _ left right =>
    simp only [Node.live, Node.liveParts, Form.completes, Form.truthful, left, right]
  | sequence filled _ each => rw [Node.live_sequence, Node.live_sequence, List.map_congr_left each]
  | assign _ _ value | combine _ _ _ value =>
    simp only [Node.live, Node.liveParts, Form.completes, value]

theorem Straight.live_of_silent {l : LiveBindings} (silent : l.exports.entries = []) {e : Node}
    (h : Straight .plain l e) (c : Bool) : e.live l c = e := by
  induction h with
  | number => rfl
  | ident level missing =>
    simp only [Node.live, LiveBindings.redirect?, missing]
    rfl
  | binary _ _ _ left right =>
    simp only [Node.live, Node.liveParts, Form.completes, Form.truthful, left, right]
  | sequence filled _ each => rw [Node.live_sequence, List.map_congr_left each, List.map_id']
  | assign _ _ value | combine _ _ _ value =>
    simp only [Node.live, Node.liveParts, Form.completes, Form.truthful, value, LiveBindings.echoed,
      LiveBindings.exportedNames?_of_silent silent]
  | update known => exact known.elim

structure LiveBindings.Owns (l : LiveBindings) (σ : Spelling) (ref : String → Reference) :
    Prop where
  level : ∀ x, σ.used x → l.isModuleLevel (σ.name x) (ref x) = true
  direct : ∀ x, l.redirects.get? x = none

theorem LiveBindings.Owns.straight {l : LiveBindings} {σ : Spelling} {ref : String → Reference}
    (h : l.Owns σ ref) {e : Node} (plain : Plain e) (used : ∀ x ∈ e.variables, σ.used x) :
    Straight .plain l (e.respell σ.name ref) :=
  plain.straight (fun x among => h.level x (used x among)) h.direct

theorem LiveBindings.Owns.live_ident {l : LiveBindings} {σ : Spelling} {ref : String → Reference}
    (h : l.Owns σ ref) (x : String) (r : Reference) (s : Option Span) (c : Bool) :
    (Node.mk (.ident x r) s []).live l c = .mk (.ident x r) s [] := by
  simp only [Node.live, LiveBindings.redirect?, h.direct]
  rfl

theorem Node.live_of_isUnresolved {n : Node} (h : n.isUnresolved = true) (l : LiveBindings)
    (c : Bool) : n.live l c = n :=
  l.liveAt_of_isUnresolved h c .ordinary

theorem Made.live_exportAssignment (l : LiveBindings) (c : Bool) (p : String) (e : Node) :
    (exportAssignment p e).live l c = exportAssignment p (e.live l c) := by
  have target : (member (ident "exports") p).live l c = member (ident "exports") p := by
    apply Node.live_of_isUnresolved
    rw [isUnresolved_member]
    rfl
  simp only [exportAssignment, assign, Node.made, Node.live, Node.liveParts, Form.completes, target]
  unfold member
  split <;> rfl

section
variable {V : Type} (P : Primitives V)

theorem Made.course_exportAssignment (p : String) (e : Node) (m : Memory V) :
    (exportAssignment p e).course P m = (fun r => (r.1, r.2.setExport p r.1)) <$> e.course P m := by
  simp only [exportAssignment, assign, Node.made, Node.course, slot?_exportMember]
  exact bind_pure_comp _ _

/-- What becomes of a step. The variable that a declaration exports is assigned to `exports` before
it gets its value, and a listed variable is read where the list stands. -/
def Step.runLowered (l : LiveBindings) (name : String → String) (ref : String → Reference) :
    Step → Memory V → Option (Memory V)
  | .declare _ true x value, m =>
    let result := if value.isAbsent then (m.read P "undefined").map (·, m)
      else ((value.respell name ref).live l true).eval P m
    result.map fun (v, m) => (m.setExport (name x) v).set (name x) v
  | .declare kind false x value, m =>
    if value.isAbsent then m.initialise P kind (name x)
    else (((value.respell name ref).live l true).eval P m).map fun (v, m) => m.set (name x) v
  | .list x exported, m => (m.read P (name x)).map (m.setExport exported)
  | .perform e, m => (((e.respell name ref).live l true).eval P m).map Prod.snd

def Step.loweredCourse (l : LiveBindings) (name : String → String) (ref : String → Reference) :
    Step → Memory V → Course V (Memory V)
  | .declare _ true x value, m => do
    let (v, m) ← if value.isAbsent then .unseen ((m.read P "undefined").map (·, m))
      else ((value.respell name ref).live l true).course P m
    .reaching (some ((m.setExport (name x) v).set (name x) v))
  | .declare kind false x value, m =>
    if value.isAbsent then .reaching (m.initialise P kind (name x))
    else do
      let (v, m) ← ((value.respell name ref).live l true).course P m
      .reaching (some (m.set (name x) v))
  | .list x exported, m => .unseen ((m.read P (name x)).map (m.setExport exported))
  | .perform e, m => Prod.snd <$> ((e.respell name ref).live l true).course P m

theorem Step.result_loweredCourse (l : LiveBindings) (name : String → String)
    (ref : String → Reference) (s : Step) (m : Memory V) : (s.loweredCourse P l name ref m).result =
    s.runLowered P l name ref m := by
  cases s with
  | declare kind isExported x value =>
    cases isExported with
    | true =>
      simp only [loweredCourse, runLowered]
      split
      · exact Course.result_bind_reaching ..
      · rw [Course.result_bind_reaching, Node.result_course]
    | false =>
      simp only [loweredCourse, runLowered]
      split
      · rfl
      · rw [Course.result_bind_reaching, Node.result_course]
  | list => rfl
  | perform e => rw [loweredCourse, runLowered, Course.result_map, Node.result_course]

end

section
variable {l : LiveBindings} {σ : Spelling} {ref : String → Reference}

theorem Plain.isAbsent {e : Node} (h : Plain e) : e.isAbsent = false := by
  cases h <;> rfl

theorem Made.isAbsent_exportChain (names : List String) {e : Node} (h : e.isAbsent = false) :
    (exportChain names e).isAbsent = false := by
  induction names generalizing e with
  | nil => exact h
  | cons p names ih => exact ih rfl

theorem Straight.isAbsent_live {e : Node} (h : Straight .plain l e) (c : Bool) :
    (e.live l c).isAbsent = false := by
  cases h with
  | number | binary | sequence => rfl
  | ident level missing =>
    simp only [Node.live, LiveBindings.redirect?, missing]
    rfl
  | assign | combine =>
    simp only [Node.live, LiveBindings.echoed_eq_exportChain]
    exact Made.isAbsent_exportChain _ rfl
  | update known => exact known.elim

theorem Node.live_declarator (isDefinite : Bool) (s s' : Option Span) (x : String)
    (symbol : Option Symbol) (typing value : Node) (c : Bool) :
    (mk (.declarator isDefinite) s [.mk (.binder x symbol) s' [], typing, value]).live l c =
      .mk (.declarator isDefinite) s [.mk (.binder x symbol) s' [], typing.live l c,
      value.live l c] := rfl

def Node.loweredDeclarator (isExported : Bool) (d : Node) : Node :=
  if isExported then Draft.exportDeclarator d else d

def Node.loweredValue (isExported : Bool) (exported : String) (f : Node → Node) (value : Node) :
    Node :=
  if isExported then Made.exportAssignment exported
    (if value.isAbsent then Made.ident "undefined" else f value)
  else if value.isAbsent then value else f value

theorem Node.loweredDeclarator_respell (isExported isDefinite : Bool) (s s' : Option Span)
    (x : String) (symbol : Option Symbol) {typing value : Node} (bare : typing.isNothing = true)
    (shape : value.isNothing = true ∨ Plain value) (name : String → String) :
    ((mk (.declarator isDefinite) s [.mk (.binder x symbol) s' [], typing, value]).respell name
        ref).loweredDeclarator isExported =
      .mk (.declarator isDefinite) s [.mk (.binder (name x) (some ⟨[], x⟩)) s' [], typing,
        value.loweredValue isExported (name x) (respell name ref)] := by
  obtain ⟨s₁, rfl⟩ := isNothing_iff.mp bare
  rcases shape with nothing | plain
  · obtain ⟨s₂, rfl⟩ := isNothing_iff.mp nothing
    cases isExported <;> rfl
  · cases isExported <;> cases plain <;> rfl

theorem Node.live_loweredValue (owns : l.Owns σ ref) (isExported : Bool) (exported : String)
    {value : Node} (shape : value.isNothing = true ∨ Plain value)
    (used : ∀ y ∈ value.variables, σ.used y) (c : Bool) :
    (value.loweredValue isExported exported (respell σ.name ref)).live l c =
      value.loweredValue isExported exported fun e => (e.respell σ.name ref).live l true := by
  have stays : (Made.ident "undefined").live l c = Made.ident "undefined" :=
    live_of_isUnresolved rfl l c
  -- A value that is left out stays so, unless the variable is exported.
  rcases shape with nothing | plain
  · obtain ⟨s, rfl⟩ := isNothing_iff.mp nothing
    cases isExported with
    | false => rfl
    | true => exact (Made.live_exportAssignment l c exported _).trans (congrArg _ stays)
  · have same := (owns.straight plain used).live_eq c true
    simp only [loweredValue, plain.isAbsent, Bool.false_eq_true, if_false]
    cases isExported with
    | false => exact same
    | true => exact (Made.live_exportAssignment l c exported _).trans (congrArg _ same)

theorem Node.loweredValue_of_silent (silent : l.exports.entries = []) (owns : l.Owns σ ref)
    (isExported : Bool) (exported : String) {value : Node}
    (shape : value.isNothing = true ∨ Plain value) (used : ∀ y ∈ value.variables, σ.used y) :
    value.loweredValue isExported exported (fun e => (e.respell σ.name ref).live l true) =
      value.loweredValue isExported exported (respell σ.name ref) := by
  rcases shape with nothing | plain
  · obtain ⟨s, rfl⟩ := isNothing_iff.mp nothing
    rfl
  · simp only [loweredValue, (owns.straight plain used).live_of_silent silent]

section
variable {V : Type} (P : Primitives V)

theorem Memory.declaring_loweredValue (owns : l.Owns σ ref) (kind : VariableKind)
    (isExported : Bool) (x : String) {value : Node} (shape : value.isNothing = true ∨ Plain value)
    (used : ∀ y ∈ value.variables, σ.used y) (m : Memory V) :
    m.declaring P kind (σ.name x) (value.loweredValue isExported (σ.name x) fun e =>
      (e.respell σ.name ref).live l true) =
      (Step.declare kind isExported x value).loweredCourse P l σ.name ref m := by
  cases isExported with
  | false =>
    simp only [declaring, Step.loweredCourse, Node.loweredValue, Bool.false_eq_true, if_false]
    rcases shape with nothing | plain
    · obtain ⟨s, rfl⟩ := Node.isNothing_iff.mp nothing
      rfl
    · simp only [plain.isAbsent, (owns.straight plain used).isAbsent_live,
        Bool.false_eq_true, if_false]
  | true =>
    show (Made.exportAssignment (σ.name x) _).course P m >>= _ = _
    rw [Made.course_exportAssignment, bind_map_left]
    simp only [Step.loweredCourse]
    split <;> rfl

theorem Node.live_loweredDeclarators (owns : l.Owns σ ref) {kind : VariableKind} {isExported : Bool}
    {ds : List Node} {steps : List Step} (each : DeclaratorsTake kind isExported ds steps)
    (used : ∀ step ∈ steps, ∀ x ∈ step.names, σ.used x) :
    ∃ code : List Node,
      (∀ c, ((ds.map (respell σ.name ref)).map (loweredDeclarator isExported)).map
        (Node.live l c) = code) ∧
      (∀ m, code.foldlM (fun m d => d.courseOfBind P kind m) m =
        steps.foldlM (fun m s => s.loweredCourse P l σ.name ref m) m) ∧
      code.filterMap (binding? kind) =
        ((steps.filterMap Step.binding?).map fun b => (σ.name b.1, b.2)) ∧
      (l.exports.entries = [] → code = (ds.map (respell σ.name ref)).map
      (loweredDeclarator isExported)) := by
  induction each with
  | nil => exact ⟨[], fun _ => rfl, fun _ => rfl, rfl, fun _ => rfl⟩
  | @cons d step ds steps first _ ih =>
    obtain ⟨code, live, course, bindings, silent⟩ :=
      ih fun step among => used step (List.mem_cons_of_mem _ among)
    obtain ⟨isDefinite, s, x, symbol, s', typing, value, rfl, bare, shape, rfl⟩ :=
      declaratorStep?_eq_some first
    have shape := shape.imp id (plain_of_isPlain value)
    have used := fun y among => used _ List.mem_cons_self y (List.mem_cons_of_mem x among)
    have stays (c : Bool) : typing.live l c = typing := by
      obtain ⟨s₁, rfl⟩ := isNothing_iff.mp bare
      rfl
    let d' : Node := .mk (.declarator isDefinite) s [.mk (.binder (σ.name x) (some ⟨[], x⟩)) s' [],
      typing, value.loweredValue isExported (σ.name x) fun e => (e.respell σ.name ref).live l true]
    simp only [List.map_cons, loweredDeclarator_respell isExported isDefinite s s' x
      symbol bare shape]
    refine ⟨d' :: code, fun c => ?_, fun m => ?_, ?_, fun nothing => ?_⟩
    · rw [live_declarator, stays, live_loweredValue owns isExported (σ.name x) shape used, live]
    · rw [List.foldlM_cons, List.foldlM_cons, ← Memory.declaring_loweredValue P owns kind
        isExported x shape used]
      exact bind_congr course
    · exact congrArg ((σ.name x, kind) :: ·) bindings
    · rw [silent nothing, ← loweredValue_of_silent nothing owns isExported (σ.name x) shape used]

structure LiveBindings.Yields (l : LiveBindings) (statements code : List Node) : Prop where
  live : List.Forall₂ (fun n n' => ∀ c, n.live l c = n') statements code
  silent : l.exports.entries = [] → code = statements

namespace LiveBindings.Yields

theorem nil : l.Yields [] [] := ⟨.nil, fun _ => rfl⟩

theorem append {ns ns' code code' : List Node} (h : l.Yields ns code) (h' : l.Yields ns' code') :
    l.Yields (ns ++ ns') (code ++ code') where
  live := List.rel_append h.live h'.live
  silent nothing := by rw [h.silent nothing, h'.silent nothing]

theorem made {n : Node} (unresolved : n.isUnresolved = true) : l.Yields [n] [n] :=
  ⟨.cons (Node.live_of_isUnresolved unresolved l) .nil, fun _ => rfl⟩

theorem liveParts {ns code : List Node} (h : l.Yields ns code) (c : Bool) (f : Form) (i : Nat) :
    Node.liveParts l c f i ns = code := by
  obtain ⟨live, -⟩ := h
  induction live generalizing i with
  | nil => rfl
  | cons first _ ih => rw [Node.liveParts, first, ih]

end LiveBindings.Yields

/-- The pass makes the code of the statements, and the code does what becomes of the steps. -/
structure Lowers (l : LiveBindings) (σ : Spelling) (ref : String → Reference)
    (statements : List Node) (steps : List Step) (code : List Node) : Prop where
  yields : l.Yields statements code
  course : ∀ m : Memory V, code.foldlM (fun m n => n.courseOfExecute P m) m =
    steps.foldlM (fun m s => s.loweredCourse P l σ.name ref m) m
  bindings : code.flatMap Node.bindings = (steps.filterMap Step.binding?).map fun b =>
    (σ.name b.1, b.2)

namespace Lowers

variable {P}

theorem run {ns code : List Node} {steps : List Step} (h : Lowers P l σ ref ns steps code)
    (m : Memory V) :
    code.foldlM (fun m n => n.execute P m) m = steps.foldlM
      (fun m s => s.runLowered P l σ.name ref m) m := by
  have ended := congrArg Course.result (h.course m)
  simpa only [Course.result_foldlM, Node.result_courseOfExecute, Step.result_loweredCourse]
    using ended

theorem nil : Lowers P l σ ref [] [] [] := ⟨.nil, fun _ => rfl, rfl⟩

theorem append {ns ns' code code' : List Node} {steps steps' : List Step}
    (h : Lowers P l σ ref ns steps code) (h' : Lowers P l σ ref ns' steps' code') :
    Lowers P l σ ref (ns ++ ns') (steps ++ steps') (code ++ code') where
  yields := h.yields.append h'.yields
  course m := by
    rw [List.foldlM_append, List.foldlM_append, h.course]
    exact bind_congr h'.course
  bindings := by
    rw [List.flatMap_append, h.bindings, h'.bindings, List.filterMap_append, List.map_append]

theorem varDecl (owns : l.Owns σ ref) {kind : VariableKind} {isExported : Bool} {ds : List Node}
    {steps : List Step} (each : DeclaratorsTake kind isExported ds steps)
    (used : ∀ step ∈ steps, ∀ x ∈ step.names, σ.used x) (s : Option Span) :
    ∃ code, Lowers P l σ ref [.mk (.varDecl kind false) s ((ds.map (Node.respell σ.name ref)).map
      (Node.loweredDeclarator isExported))] steps code := by
  obtain ⟨code, live, course, bindings, silent⟩ := Node.live_loweredDeclarators P owns each used
  refine ⟨[.mk (.varDecl kind false) s code], ⟨.cons (fun c => ?_) .nil, fun nothing => ?_⟩,
    fun m => ?_, ?_⟩
  · rw [← live c, ← Node.liveParts_eq_map (f := .varDecl kind false) (fun _ _ => rfl) 0]
    rfl
  · rw [silent nothing]
  · rw [← course]
    exact bind_pure _
  · rw [← bindings]
    exact List.append_nil _

theorem expression (owns : l.Owns σ ref) {e : Node} (plain : Plain e)
    (used : ∀ x ∈ e.variables, σ.used x) (s : Option Span) :
    Lowers P l σ ref [.mk .expression s [e.respell σ.name ref]] [.perform e]
      [.mk .expression s [(e.respell σ.name ref).live l true]] := by
  have straight := owns.straight plain used
  refine ⟨⟨.cons (fun c => ?_) .nil, fun nothing => ?_⟩, fun m => ?_, rfl⟩
  · have kept : l.update? (e.respell σ.name ref) (!c) = none := by cases plain <;> rfl
    simp only [Node.live, kept, straight.live_eq c true]
  · rw [straight.live_of_silent nothing]
  · rw [List.foldlM_cons, List.foldlM_cons]
    rfl

theorem exportValue (owns : l.Owns σ ref) (x exported : String) (s : Option Span) :
    ∃ code, Lowers P l σ ref [(Item.exportValue exported (.mk (.ident (σ.name x) (ref x)) s [])
      none).toNode] [.list x exported] code := by
  refine ⟨[(Item.exportValue exported (.mk (.ident (σ.name x) (ref x)) s []) none).toNode],
    ⟨.cons (fun c => ?_) .nil, fun _ => rfl⟩, fun m => ?_, rfl⟩
  · have live := Made.live_exportAssignment l c exported (.mk (.ident (σ.name x) (ref x)) s [])
    rw [owns.live_ident] at live
    exact congrArg (fun e => Node.mk .expression none [e]) live
  · rw [List.foldlM_cons, List.foldlM_cons]
    show Prod.snd <$> (Made.exportAssignment exported _).course P m >>= pure =
      (_ : Course V (Memory V)) >>= pure
    rw [Made.course_exportAssignment]
    simp only [Node.course, Step.loweredCourse, Node.eval]
    cases m.read P (σ.name x) <;> rfl

theorem exportItems (owns : l.Owns σ ref) {ps : List Node} {steps : List Step}
    (each : SpecifiersTake ps steps) :
    ∃ code, Lowers P l σ ref (((ps.map (Node.respell σ.name ref)).filterMap Node.exportItem?).map
      Item.toNode) steps code := by
  induction each with
  | nil => exact ⟨[], .nil⟩
  | @cons p step ps steps first _ ih =>
    obtain ⟨s, x, ref', s', other, rfl, -, label, bare, rfl⟩ := Node.specifierStep?_eq_some first
    obtain ⟨code, lowers⟩ := exportValue (P := P) owns x other.nameText s'
    obtain ⟨rest, lowersRest⟩ := ih
    rw [List.map_cons, Node.respell_specifier _ _ label bare]
    exact ⟨code ++ rest, lowers.append lowersRest⟩

theorem statement (owns : l.Owns σ ref) {n : Node} {steps : List Step} (takes : n.Takes steps)
    (used : ∀ step ∈ steps, ∀ x ∈ step.names, σ.used x) :
    ∃ code, Lowers P l σ ref ((n.respell σ.name ref).lowerings.map Item.toNode) steps code := by
  cases takes with
  | declare s ordinary each =>
    obtain ⟨code, lowers⟩ := varDecl (P := P) owns each used s
    have same : Node.loweredDeclarator false = id := rfl
    rw [same, List.map_id] at lowers
    rw [Node.respell_mk]
    exact ⟨code, lowers⟩
  | exportDeclared s s' ordinary each =>
    obtain ⟨code, lowers⟩ := varDecl (P := P) owns each used s'
    rw [Node.respell_mk, List.map_cons, List.map_nil, Node.respell_mk]
    exact ⟨code, lowers⟩
  | list s each =>
    rw [Node.respell_mk]
    exact exportItems owns each
  | perform s plain => exact ⟨_, expression owns plain (used _ List.mem_cons_self) s⟩

theorem statements (owns : l.Owns σ ref) {ns : List Node} {taken : List (List Step)}
    (takes : List.Forall₂ Node.Takes ns taken)
    (used : ∀ step ∈ taken.flatten, ∀ x ∈ step.names, σ.used x) :
    ∃ code, Lowers P l σ ref (((ns.map (Node.respell σ.name ref)).flatMap Node.lowerings).map
      Item.toNode) taken.flatten code := by
  induction takes with
  | nil => exact ⟨[], .nil⟩
  | cons first _ ih =>
    rw [List.flatten_cons] at used ⊢
    obtain ⟨code, lowers⟩ := statement (P := P) owns first fun step among =>
      used step (List.mem_append_left _ among)
    obtain ⟨rest, lowersRest⟩ := ih fun step among => used step (List.mem_append_right _ among)
    rw [List.map_cons, List.flatMap_cons, List.map_append]
    exact ⟨code ++ rest, lowers.append lowersRest⟩

end Lowers

end

end

end ModuleLowering
