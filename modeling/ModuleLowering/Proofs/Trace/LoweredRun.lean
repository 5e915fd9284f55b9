import ModuleLowering.Proofs.Lower.LoweredItem
import ModuleLowering.Proofs.Trace.MirroredWrite
import ModuleLowering.Proofs.Trace.Property

/-!
What the single statements of a lowered module do to `exports`: those that define properties or load
modules are made up, and all others set properties by assignments only.
-/

set_option autoImplicit false

namespace ModuleLowering

def starCode (binding : String) : Node :=
  .made (.index false) [Made.ident binding, Made.ident "key"]

def starSteps (binding : String) : List LoopStep := [.skip "default", .define (starCode binding)]

def Item.instruction? : Item → Option Instruction
  | .moduleFlag false => some (.define "__esModule" (.value true))
  | .requireBinding binding path _ => some (.load binding path)
  | .exportGetter name value => some (.define name (.getter value.toNode))
  | .exportStar binding _ => some (.loop binding "key" (starSteps binding))
  | _ => none

namespace Node

theorem insertedAt_of_madeName? {n : Node} {x : String} (h : n.madeName? = some x) :
    n.insertedAt [] = some x := by
  obtain ⟨f, s, ps⟩ := n
  unfold madeName? at h
  split at h
  · next made =>
    cases h
    rw [show f = .ident x .none from made]
    rfl
  · cases h

theorem insertedAt_of_isObjectMethod {n : Node} {name : String} (h : n.isObjectMethod name = true) :
    n.insertedAt [0] = some "Object" := by
  unfold isObjectMethod at h
  split at h
  · exact insertedAt_of_madeName? (eq_of_beq (Bool.and_eq_true_iff.mp h).1)
  · cases h

theorem insertedAt_of_instruction? {n : Node} {i : Instruction} (known : n.instruction? = some i) :
    ∃ way x, n.insertedAt way = some x ∧ (x = "Object" ∨ x = "require") := by
  unfold instruction? at known
  split at known
  · next s e =>
    rcases (Option.orElse_eq_some _ _ _).mp known with defined | ⟨-, loops⟩
    · obtain ⟨kd, definition, -⟩ := Option.bind_eq_some_iff.mp defined
      unfold definition? at definition
      split at definition
      · split at definition
        · next reaches =>
          exact ⟨[0, 0, 0], "Object", insertedAt_of_isObjectMethod
            (Bool.and_eq_true_iff.mp reaches).1, .inl rfl⟩
        · cases definition
      · cases definition
    · unfold loop? at loops
      split at loops
      · split at loops
        · next reaches =>
          exact ⟨[0, 0, 0, 0, 0], "Object", insertedAt_of_isObjectMethod
            (Bool.and_eq_true_iff.mp reaches).1, .inl rfl⟩
        · cases loops
      · cases loops
  · unfold load? at known
    split at known
    · obtain ⟨path, -, rest⟩ := Option.bind_eq_some_iff.mp known
      split at rest
      · next reaches =>
          exact ⟨[0, 2, 0], "require", insertedAt_of_madeName? (eq_of_beq reaches), .inr rfl⟩
      · cases rest
    · cases known

theorem instruction?_of_assign {e : Node} (assigns : ∃ op, e.form = .assign op) (s : Option Span) :
    (mk .expression s [e]).instruction? = none := by
  obtain ⟨f, s', ps⟩ := e
  obtain ⟨op, rfl⟩ := assigns
  rfl

end Node

inductive Item.Carries : Item → Prop
  | nothing {item : Item} (made : item.isMade = true) : Carries item
  | statement {n : Node} (lookedUp : n.isLookedUp = true) : Carries (.kept n)
  | declaration (kind : VariableKind) (isDeclared : Bool) (s : Option Span) {ds : List Node}
    (lookedUp : ∀ d ∈ ds, d.isLookedUp = true) :
    Carries (.kept (.mk (.varDecl kind isDeclared) s (ds.map Draft.exportDeclarator)))
  | value (name : String) {value : Node} (span : Option Span)
    (silent : value.exportWrites none = []) :
    Carries (.exportValue name value span)
  | whole {value : Node} (span : Option Span) (silent : value.exportWrites none = []) :
    Carries (.moduleExports value span)

theorem Node.Gives.carries {n : Node} {item : Item} (h : n.Gives item)
    (lookedUp : n.isLookedUp = true) : item.Carries := by
  have parts : ∀ p ∈ n.parts, p.isLookedUp = true := by
    obtain ⟨f, s, ps⟩ := n
    exact isLookedUp_mk lookedUp
  cases h with
  | named => exact .value _ _ rfl
  | whole => exact .statement lookedUp
  | declaration | default => exact .statement (parts _ List.mem_cons_self)
  | declarators => exact .declaration _ _ _ (isLookedUp_mk (parts _ List.mem_cons_self))
  | value => exact .value _ _ (exportWrites_of_isLookedUp (parts _ List.mem_cons_self) none)
  | expression =>
    exact .value _ _ (exportWrites_of_isLookedUp
      (isLookedUp_asExpression (parts _ List.mem_cons_self)) none)
  | assigned => exact .whole _ (exportWrites_of_isLookedUp (parts _ List.mem_cons_self) none)

theorem Draft.Placed.carries_items {r : Draft} {σ : Naming} {options : Options} {hints : Hints}
    {ns : List Node} (h : r.Placed σ options hints ns) (lookedUp : ∀ n ∈ ns, n.isLookedUp = true)
    {item : Item} (among : item ∈ r.items) :
    item.Carries := by
  rcases h.gives among with made | ⟨n, listed, gives⟩
  · exact .nothing made
  · exact gives.carries (lookedUp n listed)

theorem Made.isAssign_exportChain (names : List String) {n : Node}
    (assigns : ∃ op, n.form = .assign op) :
    ∃ op, (exportChain names n).form = .assign op := by
  induction names generalizing n with
  | nil => exact assigns
  | cons name names ih => exact ih (n := exportAssignment name n) ⟨_, rfl⟩

theorem Item.instruction?_toNode {item : Item} (made : item.isMade = true) :
    item.toNode.instruction? = item.instruction? := by
  cases item
  case moduleFlag isPlain => cases isPlain <;> rfl
  case predeclaration names =>
    cases names with
    | nil => rfl
    | cons name names =>
      exact Node.instruction?_of_assign (Made.isAssign_exportChain names ⟨.plain, rfl⟩) none
  case importVariable name value span =>
    cases value with
    | whole | wrapped => rfl
    | defaultOf h b => rfl
    | property b name =>
      rw [toNode, Imported.toNode, Made.member]
      split <;> rfl
  case helperFunction helper name => cases helper <;> rfl
  case kept | exportValue | moduleExports => cases made
  all_goals rfl

namespace LiveBindings

variable {l : LiveBindings} {completes : Bool}

theorem instruction?_liveAt_assign (op : AssignOp) (s s' : Option Span) (ps : List Node) :
    (l.liveAt completes .ordinary (.mk .expression s [.mk (.assign op) s' ps])).instruction? =
      none := by
  have assigns (c : Bool) : ∃ op', (l.liveAt c .statement (.mk (.assign op) s' ps)).form =
    .assign op' := by
    rw [l.liveAt_other (by simp) (by simp) rfl]
    exact Made.isAssign_exportChain _ ⟨op, rfl⟩
  rw [l.liveAt_other (by simp) (by simp) rfl]
  exact Node.instruction?_of_assign (assigns _) s

def Takes (l : LiveBindings) (n n' : Node) : Prop :=
  n' = n ∨ ∃ completes, n' = l.liveAt completes .ordinary n

theorem IsForeign.instruction?_eq_none (foreign : l.IsForeign) {n n' : Node} (takes : l.Takes n n')
    (apart : ∀ way x, n.insertedAt way = some x → x ≠ "Object" ∧ x ≠ "require") :
    n'.instruction? = none := by
  by_contra known
  obtain ⟨i, known⟩ := Option.ne_none_iff_exists'.mp known
  obtain ⟨way, x, inserted, reached⟩ := Node.insertedAt_of_instruction? known
  have old {w : List Nat} (before : n.insertedAt w = some x) : False :=
    reached.elim (apart w x before).1 (apart w x before).2
  rcases takes with rfl | ⟨completes, rfl⟩
  · exact old inserted
  · have head : x.toList.head? ≠ some '_' := by
      rcases reached with rfl | rfl <;> decide
    rcases foreign.traced_liveAt head inserted with echo | ⟨w, before, -⟩
    · have name := echo.name
      rcases reached with rfl | rfl <;> exact absurd name (by decide)
    · exact old before

end LiveBindings

namespace Node

theorem insertedAt_exportDeclarator {d : Node} (lookedUp : d.isLookedUp = true) {way : List Nat}
    {x : String} (inserted : (Draft.exportDeclarator d).insertedAt way = some x) :
    x = "exports" ∨ x = "undefined" := by
  have none {n : Node} {w : List Nat} (lookedUp : n.isLookedUp = true)
    (here : n.insertedAt w = some x) : False := by
    rw [insertedAt_of_isLookedUp lookedUp] at here
    cases here
  unfold Draft.exportDeclarator at inserted
  split at inserted
  · next isDefinite s p t value =>
    have parts := isLookedUp_mk lookedUp
    have filled {w : List Nat}
      (here : (if value.isAbsent then Made.ident "undefined" else value).insertedAt w = some x) :
        x = "exports" ∨ x = "undefined" := by
      split at here
      · exact .inr (Made.insertedAt_ident here).2
      · exact (none (parts value (by simp)) here).elim
    have inside {value' : Node} (given : ∀ w, value'.insertedAt w = some x → x = "exports" ∨
        x = "undefined") (here : (mk (.declarator isDefinite) s [p, t, value']).insertedAt
        way = some x) :
        x = "exports" ∨ x = "undefined" := by
      match way with
      | [] => cases insertedAt_nil here
      | i :: w =>
        obtain ⟨-, q, child, below⟩ := insertedAt_cons here
        have among : q = p ∨ q = t ∨ q = value' := by simpa using List.mem_of_getElem? child
        rcases among with rfl | rfl | rfl
        · exact (none (parts q (by simp)) below).elim
        · exact (none (parts q (by simp)) below).elim
        · exact given w below
    dsimp only at inserted
    split at inserted
    · refine inside (fun w here => ?_) inserted
      rcases Made.insertedAt_assign here with ⟨-, rfl⟩ | ⟨w', -, below⟩
      · exact .inl rfl
      · exact filled below
    · exact inside (fun w => filled) inserted
  · exact (none lookedUp inserted).elim

end Node

theorem Item.Carries.instruction?_eq {item : Item} (carries : item.Carries) {l : LiveBindings}
    (foreign : l.IsForeign) {n : Node} (takes : l.Takes item.toNode n) :
    n.instruction? = item.instruction? := by
  cases carries with
  | nothing made =>
    have same : n = item.toNode := by
      rcases takes with rfl | ⟨completes, rfl⟩
      · rfl
      · exact l.liveAt_of_isUnresolved (isUnresolved_toNode made) completes .ordinary
    rw [same, instruction?_toNode made]
  | statement lookedUp =>
    refine foreign.instruction?_eq_none takes fun way x inserted => ?_
    rw [toNode, Node.insertedAt_of_isLookedUp lookedUp] at inserted
    cases inserted
  | declaration kind isDeclared s lookedUp =>
    refine foreign.instruction?_eq_none takes fun way x inserted => ?_
    cases way with
    | nil => cases Node.insertedAt_nil inserted
    | cons i way =>
      obtain ⟨-, p, child, below⟩ := Node.insertedAt_cons inserted
      obtain ⟨d, among, rfl⟩ := List.mem_map.mp (List.mem_of_getElem? child)
      rcases Node.insertedAt_exportDeclarator (lookedUp d among) below with rfl | rfl <;> decide
  | value | whole =>
    rcases takes with rfl | ⟨completes, rfl⟩
    · exact Node.instruction?_of_assign ⟨.plain, rfl⟩ _
    · exact l.instruction?_liveAt_assign ..

/-- How an item is written out: what it does if it is more than code, and what it does as code. -/
structure Item.Becomes (l : LiveBindings) (item : Item) (n : Node) : Prop where
  instruction : n.instruction? = item.instruction?
  runs : ∀ {V : Type} (w : Setting V), n.runs (w.live l) false =
    (item.toNode.runs w false).through l.repeated

namespace Module

variable {m : Module} {r : Draft} {V : Type}

theorem live_of_isEmpty {l : LiveBindings} (redirects : l.redirects.isEmpty = true)
    (exports : l.exports.isEmpty = true) (w : Setting V) : w.live l = w :=
  congrArg (Setting.mk · w.ofBool)
    (rewritten_of_fixed (l.repeated_of_isEmpty redirects exports) w.later)

theorem setting_lowered (foreign : (m.liveBindings r).IsForeign) (ofBool : Bool → V) (depth : Nat) :
    (m.lowered r).program.setting ofBool depth =
      ((m.assembled r).program.setting ofBool depth).live (m.liveBindings r) := by
  rw [lowered, makeLive_eq]
  split
  · next empty =>
    obtain ⟨redirects, exports⟩ := Bool.and_eq_true_iff.mp empty
    exact (live_of_isEmpty (l := m.liveBindings r) redirects exports _).symm
  · exact foreign.setting_live ofBool _ true depth

theorem becomes_lowered (form : ∃ hashbang ds, m.program.form = .program hashbang ds)
    (foreign : (m.liveBindings r).IsForeign) (carries : ∀ item ∈ r.items, item.Carries) :
    List.Forall₂ (Item.Becomes (m.liveBindings r)) r.items (m.lowered r).statements := by
  obtain ⟨hashbang, ds, form⟩ := form
  simp only [statements, lowered, makeLive_eq, assembled, withStatements, m.renamed_form form]
  split
  · next empty =>
    obtain ⟨redirects, exports⟩ := Bool.and_eq_true_iff.mp empty
    refine List.forall₂_map_right_iff.mpr (List.forall₂_same.mpr fun item among => ?_)
    refine ⟨(carries item among).instruction?_eq foreign (.inl rfl), fun w => ?_⟩
    rw [live_of_isEmpty redirects exports]
    funext result
    exact (rewritten_of_fixed (LiveBindings.repeated_of_isEmpty (l := m.liveBindings r) redirects
      exports) _).symm
  · let l := m.liveBindings r
    show List.Forall₂ _ r.items
      (l.liveAt true .ordinary (.mk (.program hashbang ds) _ (r.items.map Item.toNode))).parts
    rw [l.liveAt_other (by simp) (by simp) rfl]
    show List.Forall₂ _ r.items (l.partsAt true .ordinary (.program hashbang ds)
      (r.items.map Item.toNode))
    refine List.forall₂_iff_get.mpr ⟨by simp [LiveBindings.partsAt], fun i inside inside' => ?_⟩
    have live : (l.partsAt true .ordinary (.program hashbang ds) (r.items.map Item.toNode)).get
      ⟨i, inside'⟩ =
        l.liveAt ((Form.program hashbang ds).completes true (r.items.map Item.toNode).length i)
          .ordinary (r.items.get ⟨i, inside⟩).toNode := by
      simp [LiveBindings.partsAt, Form.positionOf]
    rw [live]
    exact ⟨(carries _ (List.get_mem _ _)).instruction?_eq foreign (.inr ⟨_, rfl⟩), fun w =>
      foreign.runs_liveAt_ordinary w _ _ false⟩

end Module

variable {V : Type}

namespace Behaviour

/-- Code that does not end without an assignment to `exports.name`. -/
def Surely (name : String) (k : Behaviour V) : Prop := ∀ τ ∈ k.ended, ∃ v, .exported name v ∈ τ

variable {name : String} {k : Behaviour V} {ks : List (Behaviour V)}

theorem surely_exporting (name : String) (k : Behaviour V) : (exporting name k).Surely name := by
  rintro _ ⟨v, σ, -, _, rfl, rfl⟩
  exact ⟨v, List.mem_append_right _ (List.mem_singleton_self _)⟩

theorem Surely.exporting (surely : k.Surely name) (name' : String) :
    (exporting name' k).Surely name := by
  rintro _ ⟨v, σ, here, _, rfl, rfl⟩
  obtain ⟨v', inside⟩ := surely σ ⟨v, here⟩
  exact ⟨v', List.mem_append_left _ inside⟩

theorem surely_inOrder (among : k ∈ ks) (surely : k.Surely name) : (inOrder ks).Surely name := by
  induction ks with
  | nil => cases among
  | cons k' ks ih =>
    rintro _ ⟨v, σ, first, τ, rest, rfl⟩
    rcases List.mem_cons.mp among with rfl | after
    · obtain ⟨v', inside⟩ := surely σ first
      exact ⟨v', List.mem_append_left _ inside⟩
    · obtain ⟨v', inside⟩ := ih after τ ⟨v, rest⟩
      exact ⟨v', List.mem_append_right _ inside⟩

theorem surely_opening (surely : k.Surely name) : (opening k).Surely name := by
  rintro _ ⟨v, _, -, τ, here, rfl⟩
  obtain ⟨v', inside⟩ := surely τ ⟨v, here⟩
  exact ⟨v', List.mem_append_right _ inside⟩

theorem Surely.through {f : Effect V → List (Effect V)} (surely : k.Surely name)
    (fixed : ∀ v, f (.exported name v) = [.exported name v]) : (k.through f).Surely name := by
  rintro _ ⟨v, σ, here, rfl⟩
  obtain ⟨v', inside⟩ := surely σ ⟨v, here⟩
  exact ⟨v', List.mem_flatMap.mpr ⟨_, inside, by rw [fixed]; exact List.mem_singleton_self _⟩⟩

end Behaviour

namespace Node

variable {w : Setting V} {name : String}

theorem surely_runs {f : Form} {s : Option Span} {ps : List Node}
    (plain : (mk f s ps).action = .other f)
    (ordered : ∀ ks : List (Behaviour V), (f.ordered? ks).isSome = true) {p : Node}
    {isWritten : Bool} (among : p ∈ ps) (surely : ∀ isWritten, (p.runs w isWritten).Surely name) :
    ((mk f s ps).runs w isWritten).Surely name := by
  rw [runs_mk, plain]
  show (f.behaviour w _).Surely name
  have composed : (f.composed w (ps.mapIdx fun i p => p.runs w (f.writesPart isWritten i))).Surely
    name := by
    obtain ⟨i, found⟩ := List.mem_iff_getElem?.mp among
    have part : p.runs w (f.writesPart isWritten i) ∈ ps.mapIdx fun i p =>
      p.runs w (f.writesPart isWritten i) :=
      List.mem_of_getElem? (by rw [List.getElem?_mapIdx, found]; rfl)
    obtain ⟨ks, all⟩ :=
      Option.isSome_iff_exists.mp
        (ordered (ps.mapIdx fun i p => p.runs w (f.writesPart isWritten i)))
    rw [Form.composed, all]
    exact Behaviour.surely_inOrder (List.mem_append_left _ ((Form.mem_ordered? all).mpr part))
      (surely _)
  unfold Form.behaviour
  split
  · exact Behaviour.surely_opening composed
  · exact composed

theorem surely_exportAssignment (name : String) (value : Node) (isWritten : Bool) :
    ((Made.exportAssignment name value).runs w isWritten).Surely name := by
  rw [Made.runs_exportAssignment]
  exact Behaviour.surely_exporting name _

theorem surely_exportChain {names : List String} {value : Node}
    (surely : name ∈ names ∨ ∀ isWritten, (value.runs w isWritten).Surely name)
    (isWritten : Bool) : ((Made.exportChain names value).runs w isWritten).Surely name := by
  induction names generalizing value with
  | nil => exact surely.resolve_left List.not_mem_nil isWritten
  | cons first names ih =>
    refine ih (surely.elim (fun among => ?_) fun below => .inr fun isWritten => ?_)
    · rcases List.mem_cons.mp among with rfl | later
      · exact .inr (surely_exportAssignment name value)
      · exact .inl later
    · rw [Made.runs_exportAssignment]
      exact (below _).exporting first

theorem surely_expression {e : Node} (surely : ∀ isWritten, (e.runs w isWritten).Surely name)
    (span : Option Span) :
    ((Made.expression e span).runs w false).Surely name :=
  surely_runs rfl (fun _ => rfl) (List.mem_singleton_self e) surely

theorem surely_exportDeclarator {d : Node} (lookedUp : d.isLookedUp = true)
    (defined : name ∈ (Draft.exportDeclarator d).definedNames) (isWritten : Bool) :
    ((Draft.exportDeclarator d).runs w isWritten).Surely name := by
  have none {n : Node} (lookedUp : n.isLookedUp = true) : name ∉ n.definedNames := by
    rw [definedNames_of_isLookedUp lookedUp]
    exact List.not_mem_nil
  unfold Draft.exportDeclarator at defined ⊢
  split at defined
  · next isDefinite s p t value =>
    have parts := isLookedUp_mk lookedUp
    have filled : name ∉ (if value.isAbsent then Made.ident "undefined"
      else value).definedNames := by
      split
      · exact List.not_mem_nil
      · exact none (parts value (by simp))
    have inside {value' : Node}
      (here : name ∈ (mk (.declarator isDefinite) s [p, t, value']).definedNames) :
        name ∈ value'.definedNames := by
      obtain ⟨-, q, among, below⟩ := (mem_definedNames.mp here).resolve_left nofun
      simp only [List.mem_cons, List.not_mem_nil, or_false] at among
      rcases among with rfl | rfl | rfl
      · exact absurd below (none (parts q (by simp)))
      · exact absurd below (none (parts q (by simp)))
      · exact below
    dsimp only at defined ⊢
    split at defined
    · next x _ _ =>
      have own := inside defined
      rw [definedNames, Made.exportWrites_exportAssignment] at own
      obtain rfl := (List.mem_cons.mp own).resolve_right filled
      exact surely_runs rfl (fun _ => rfl) (List.mem_of_getElem? (i := 2) rfl)
        (surely_exportAssignment _ _)
    · exact absurd (inside defined) filled
  · exact absurd defined (none lookedUp)

end Node

/-- The exports that a statement is there to set up, if those of another module are given by its
variable. -/
def Item.claims (keys : String → List String) : Item → List String
  | .moduleFlag _ => ["__esModule"]
  | .exportStar binding _ => keys binding
  | item => item.exportWrites.map ExportWrite.name

/-- A statement that is only code does not end before it has set all exports that it is there
for. -/
theorem Item.Carries.surely_claims {item : Item} (carries : item.Carries)
    (code : item.instruction? = none) {keys : String → List String} {name : String}
    (claimed : name ∈ item.claims keys) (w : Setting V) :
    (item.toNode.runs w false).Surely name := by
  have silent (nothing : item.exportWrites = []) :
      name ∉ item.exportWrites.map ExportWrite.name := by
    rw [nothing]
    exact List.not_mem_nil
  cases carries with
  | nothing made =>
    cases item
    case moduleFlag isPlain =>
      cases isPlain with
      | true =>
        obtain rfl := List.mem_singleton.mp claimed
        exact Node.surely_expression (Node.surely_exportAssignment _ _) none
      | false => cases code
    case kept | exportValue | moduleExports => cases made
    case exportStar | exportGetter => cases code
    all_goals exact absurd claimed (silent (exportWrites_of_isSilent rfl))
  | statement lookedUp =>
    exact absurd claimed (silent (Node.exportWrites_of_isLookedUp lookedUp none))
  | declaration kind isDeclared s lookedUp =>
    obtain ⟨-, p, among, below⟩ := (Node.mem_definedNames.mp claimed).resolve_left nofun
    obtain ⟨d, listed, rfl⟩ := List.mem_map.mp among
    exact Node.surely_runs rfl (fun _ => rfl) among
      (Node.surely_exportDeclarator (lookedUp d listed) below)
  | @value exported value span quiet =>
    have own : name ∈ (exportValue exported value span).exportWrites.map ExportWrite.name := claimed
    rw [exportWrites_exportValue, quiet] at own
    obtain rfl := List.mem_singleton.mp own
    exact Node.surely_expression (Node.surely_exportAssignment _ _) span
  | whole span quiet =>
    refine absurd claimed (silent ?_)
    rw [exportWrites_moduleExports, quiet]

/-- The exports that a statement gives a value before their time. -/
def Item.presets : Item → List String
  | .moduleFlag true => ["__esModule"]
  | .predeclaration names => names
  | _ => []

theorem Item.surely_presets {item : Item} {name : String} (preset : name ∈ item.presets)
    (w : Setting V) : (item.toNode.runs w false).Surely name := by
  cases item
  case moduleFlag isPlain =>
    cases isPlain with
    | false => cases preset
    | true =>
      obtain rfl := List.mem_singleton.mp preset
      exact Node.surely_expression (Node.surely_exportAssignment _ _) none
  case predeclaration names =>
    exact Node.surely_expression (Node.surely_exportChain (.inl preset)) none
  all_goals cases preset

theorem Node.exists_exportWritesOfParts {f : Form} {all ps : List Node} {p : Node} (among : p ∈ ps)
    {P : ExportWrite → Prop} (inside : ∀ into, ∃ w ∈ p.exportWrites into, P w) (i : Nat) :
    ∃ w ∈ exportWritesOfParts f all i ps, P w := by
  induction ps generalizing i with
  | nil => cases among
  | cons q ps ih =>
    rw [exportWritesOfParts]
    rcases List.mem_cons.mp among with rfl | later
    · obtain ⟨w, here, holds⟩ := inside (f.initialised? all i)
      exact ⟨w, List.mem_append_left _ here, holds⟩
    · obtain ⟨w, there, holds⟩ := ih later (i + 1)
      exact ⟨w, List.mem_append_right _ there, holds⟩

theorem Node.exists_assigned_of_mem_writes {n : Node} {isWritten : Bool} {name : String}
    (written : .property name ∈ n.writes isWritten) (into : Option String) :
    ∃ w ∈ n.exportWrites into, ∃ into' value, w = .assigned into' name value := by
  induction n using Node.induction generalizing isWritten into with
  | step f s ps ih =>
  rw [exportWrites]
  rcases mem_writes_mk.mp written with itself | ⟨p, i, used, inside⟩
  · have acts := (mk f s ps).acts
    generalize action : (mk f s ps).action = a at acts itself
    cases acts with
    | exporting s t e property =>
      cases List.mem_singleton.mp itself
      refine ⟨.assigned into name e, List.mem_append_left _ ?_, into, e, rfl⟩
      rw [exportWrite?, property]
      exact List.mem_singleton_self _
    | assignment | update | target => cases List.mem_singleton.mp itself
    | ident =>
      cases isWritten with
      | true => cases List.mem_singleton.mp itself
      | false => cases itself
    | tag | boolean | other => cases itself
  · have among := mem_parts_of_used used
    obtain ⟨w, below, assigned⟩ : ∃ w ∈ exportWritesOfParts f ps 0 ps, ∃ into' value,
        w = .assigned into' name value :=
      exists_exportWritesOfParts among (fun into => ih p among inside into) 0
    refine ⟨w, List.mem_append_right _ ?_, assigned⟩
    -- Nothing runs inside a name.
    cases f
    case ident | target | tagRef => exact absurd used List.not_mem_nil
    all_goals exact below

theorem LiveBindings.mem_repeated {l : LiveBindings} {effect : Effect V} {name : String} {v : V}
    (inside : .exported name v ∈ l.repeated effect) :
    effect = .exported name v ∨ ∃ x, l.exports.Lists x name := by
  have among {x : String} {ref : Reference} {v' : V}
      (inside : Effect.exported name v ∈ (l.namesOf x ref).map (Effect.exported · v')) : ∃ x,
      l.exports.Lists x name := by
    obtain ⟨_, named, eq⟩ := List.mem_map.mp inside
    cases eq
    unfold namesOf at named
    cases exported : l.exportedNames? x ref with
    | none =>
      rw [exported] at named
      cases named
    | some names =>
      rw [exported] at named
      exact ⟨x, lists_of_exportedNames? l exported named⟩
  cases effect with
  | begun => cases List.mem_singleton.mp inside
  | exported name' v' => exact .inl (List.mem_singleton.mp inside).symm
  | kept x ref v' => exact .inr (among ((List.mem_cons.mp inside).resolve_left nofun))
  | written way x ref v' =>
    cases way with
    | direct => exact .inr (among ((List.mem_cons.mp inside).resolve_left nofun))
    | taken | cast => exact absurd inside (not_mem_repeated (by decide) x name ref v' v)

def Site.IsOf (names : List String) : Site → Prop
  | .variable .. => True
  | .property name => name ∈ names

def Effect.IsFair (names : List String) (flag : V) : Effect V → Prop
  | .exported name v => name ∈ names ∨ name = "__esModule" ∧ v = flag
  | .begun | .written .. | .kept .. => True

theorem Behaviour.within_exporting_constant {P : Effect V → Prop} {name : String} {c : V}
    (fair : P (.exported name c)) :
    (exporting name (constant c)).Within P := by
  intro result
  cases result with
  | none => exact bot_le
  | some v =>
    rintro _ ⟨_, ⟨rfl, rfl⟩, _, rfl, rfl⟩ e inside
    exact List.mem_singleton.mp inside ▸ fair

/-- A statement of the lowered module does what its item is there for, and as code it exports under
the names of the module's own variables only, but for what is set early. -/
structure Item.RunsAs (names : List String) (w : Setting V) (item : Item) (n : Node) : Prop where
  instruction : n.instruction? = item.instruction?
  fair : item.instruction? = none → ∀ τ ∈ (n.runs w false).ended, ∀ name v, .exported name v ∈ τ →
    name ∈ names ∨ name ∈ item.presets ∧ (item = .moduleFlag true → v = w.ofBool true)
  sets : item.instruction? = none → ∀ keys, ∀ name ∈ item.claims keys ++ item.presets,
    (n.runs w false).Surely name

def Item.IsConfined (names : List String) (item : Item) : Prop :=
  ∀ name, .property name ∈ item.toNode.writes false → name ∈ names ∨ name ∈ item.presets

def Setting.IsConfined (names : List String) (w : Setting V) : Prop :=
  w.later ≤ wordsOver (Effect.IsAmong (Site.IsOf names))

theorem Site.IsOf.mono {names names' : List String} (sub : names ⊆ names') {site : Site}
    (h : site.IsOf names) : site.IsOf names' := by
  cases site with
  | «variable» => trivial
  | property name => exact sub h

theorem Effect.IsAmong.mono {P Q : Site → Prop} (sub : ∀ site, P site → Q site) {effect : Effect V}
    (h : effect.IsAmong P) : effect.IsAmong Q := by
  cases effect with
  | begun | kept => trivial
  | written | exported => exact sub _ h

section
variable {names : List String} {item : Item} (confined : item.IsConfined names)
include confined

theorem Item.isOf_deferred {g : Node} (deferred : g ∈ item.toNode.deferred) :
    ∀ site ∈ g.writes false, site.IsOf names := by
  rintro (_ | name) written
  · trivial
  · refine (confined name (Node.writes_of_mem_deferred deferred written)).resolve_right ?_
    intro preset
    cases item
    case moduleFlag isPlain => cases isPlain <;> cases deferred
    case predeclaration names =>
      rw [toNode, Made.expression, Node.deferred_mk] at deferred
      obtain ⟨_, part, inside⟩ :=
        List.mem_flatten.mp ((List.mem_append.mp deferred).resolve_left List.not_mem_nil)
      rw [List.mem_singleton.mp part, LiveBindings.deferred_exportChain] at inside
      cases inside
    all_goals cases preset

theorem Item.fair_of_runs {w : Setting V} (calls : w.IsConfined names)
    {τ : List (Effect V)} (ended : τ ∈ (item.toNode.runs w false).ended) {name : String} {v : V}
    (inside : .exported name v ∈ τ) :
    name ∈ names ∨ name ∈ item.presets ∧ (item = .moduleFlag true → v = w.ofBool true) := by
  by_cases flag : item = .moduleFlag true
  · subst flag
    have fair : w.later ≤ wordsOver (Effect.IsFair names (w.ofBool true)) := by
      intro σ here effect among
      cases effect with
      | exported name v => exact .inl (calls here _ among)
      | begun | written | kept => trivial
    have runs : (moduleFlag true).toNode.runs w false =
        .opening (.inOrder [.exporting "__esModule" (.constant (w.ofBool true)),
        .idle w.later]) := by
      show Behaviour.opening (.inOrder [(Made.exportAssignment "__esModule" _).runs w false,
        .idle w.later]) = _
      rw [Made.runs_exportAssignment]
      rfl
    have within : ((moduleFlag true).toNode.runs w false).Within
      (Effect.IsFair names (w.ofBool true)) := by
      rw [runs]
      refine Behaviour.within_opening trivial
        (Behaviour.within_inOrder (List.forall_mem_cons.mpr ⟨?_, ?_⟩))
      · exact Behaviour.within_exporting_constant (.inr ⟨rfl, rfl⟩)
      · exact List.forall_mem_singleton.mpr (Behaviour.within_idle fair)
    rcases within.ended ended _ inside with among | ⟨rfl, value⟩
    · exact .inl among
    · exact .inr ⟨List.mem_singleton_self _, fun _ => value⟩
  · have wide : w.later ≤ wordsOver (Effect.IsAmong (Site.IsOf (names ++ item.presets))) :=
      fun σ here effect among => (calls here effect among).mono fun _ =>
        Site.IsOf.mono (List.subset_append_left ..)
    have among : name ∈ names ++ item.presets := by
      refine (Node.within_runs wide ?_).ended ended _ inside
      rintro (_ | name) written
      · trivial
      · exact List.mem_append.mpr (confined name written)
    exact (List.mem_append.mp among).imp_right fun preset => ⟨preset, fun same => absurd same flag⟩

end

namespace Module

variable {m : Module} {r : Draft} {names : List String}

theorem isConfined_assembled (form : ∃ hashbang ds, m.program.form = .program hashbang ds)
    (confined : ∀ item ∈ r.items, item.IsConfined names) (ofBool : Bool → V) (depth : Nat) :
    ((m.assembled r).program.setting ofBool depth).IsConfined names := by
  obtain ⟨hashbang, ds, form⟩ := form
  refine Node.later_setting_le ofBool (fun g deferred => ?_) depth
  rw [assembled, withStatements, m.renamed_form form, Node.deferred_mk] at deferred
  obtain ⟨_, parts, inside⟩ :=
    List.mem_flatten.mp ((List.mem_append.mp deferred).resolve_left List.not_mem_nil)
  obtain ⟨n, statement, rfl⟩ := List.mem_map.mp parts
  obtain ⟨item, listed, rfl⟩ := List.mem_map.mp statement
  exact Item.isOf_deferred (confined item listed) inside

section
variable (form : ∃ hashbang ds, m.program.form = .program hashbang ds)
  (foreign : (m.liveBindings r).IsForeign)
  (confined : ∀ item ∈ r.items, item.IsConfined names)
  (listed : ∀ x name, r.exports.Lists x name → name ∈ names) (ofBool : Bool → V) (depth : Nat)
include form foreign confined listed

theorem isConfined_lowered : ((m.lowered r).program.setting ofBool depth).IsConfined names := by
  have calls := isConfined_assembled form confined ofBool depth
  rw [setting_lowered foreign]
  rintro _ ⟨σ, here, rfl⟩ effect inside
  obtain ⟨effect', member, inside⟩ := List.mem_flatMap.mp inside
  cases effect with
  | begun | kept | written => trivial
  | exported name v =>
    rcases LiveBindings.mem_repeated inside with rfl | ⟨x, exported⟩
    · exact calls here _ member
    · exact listed x name exported

theorem runsAs_lowered (carries : ∀ item ∈ r.items, item.Carries) :
    List.Forall₂ (Item.RunsAs names ((m.lowered r).program.setting ofBool depth)) r.items
      (m.lowered r).statements := by
  have calls := isConfined_assembled form confined ofBool depth
  rw [setting_lowered foreign]
  have becomes := becomes_lowered form foreign carries
  have items :=
    (List.forall₂_and_left _ _).mpr ⟨fun item (among : item ∈ r.items) => among, becomes⟩
  refine items.imp fun item n known => ?_
  obtain ⟨among, becomes⟩ := known
  refine ⟨becomes.instruction, fun _ τ ended name v inside => ?_,
    fun code keys name claimed => ?_⟩
  · rw [becomes.runs, Behaviour.ended_through] at ended
    obtain ⟨σ, ended, rfl⟩ := ended
    obtain ⟨effect, member, inside⟩ := List.mem_flatMap.mp inside
    rcases LiveBindings.mem_repeated inside with rfl | ⟨x, exported⟩
    · exact Item.fair_of_runs (confined item among) calls ended member
    · exact .inl (listed x name exported)
  · rw [becomes.runs]
    refine Behaviour.Surely.through ?_ fun _ => rfl
    rcases List.mem_append.mp claimed with claimed | preset
    · exact (carries item among).surely_claims code claimed _
    · exact Item.surely_presets preset _

end

end Module

end ModuleLowering
