import ModuleLowering.Proofs.Lower.Insertion
import ModuleLowering.Proofs.Lower.LoweredDeclaration
import ModuleLowering.Proofs.Lower.Provenance
import ModuleLowering.Proofs.Lower.Redirect
import ModuleLowering.Proofs.Lower.RenamedExport

/-!
The names `module`, `exports` and `require` that lowering puts into a module, and what is declared
around them. Nothing is, wherever a statement was made up or an export was written down. The
`exports` that repeats a write stands where the write stood, and there the module may have an
`exports` of its own.
-/

set_option autoImplicit false

namespace ModuleLowering

namespace Node

/-- Between the root of a tree and what was put into it, no scope is opened. -/
def InsertsOpenly (n : Node) : Prop := ∀ way x, n.insertedAt way = some x → n.isOpenAlong way = true

namespace InsertsOpenly

theorem of_isLookedUp {n : Node} (h : n.isLookedUp = true) : n.InsertsOpenly := by
  intro way x inserted
  rw [insertedAt_of_isLookedUp h] at inserted
  cases inserted

theorem mk {f : Form} (isOpen : f.isOpen = true) (s : Option Span) {ps : List Node}
    (parts : ∀ p ∈ ps, p.InsertsOpenly) :
    (Node.mk f s ps).InsertsOpenly := by
  intro way x inserted
  cases way with
  | nil => rfl
  | cons i way =>
    obtain ⟨-, p, child, below⟩ := insertedAt_cons inserted
    simp only [isOpenAlong, form, Node.parts, isOpen, child, Bool.true_and]
    exact parts p (List.mem_of_getElem? child) way x below

theorem leaf (f : Form) (s : Option Span) : (Node.mk f s []).InsertsOpenly := by
  intro way x inserted
  cases way with
  | nil => rfl
  | cons i way =>
    obtain ⟨-, p, child, -⟩ := insertedAt_cons inserted
    cases child

theorem ident (y : String) : (Made.ident y).InsertsOpenly := leaf _ none

theorem member (object property : String) :
    (Made.member (Made.ident object) property).InsertsOpenly := by
  unfold Made.member
  split
  all_goals
    refine mk rfl none ?_
    simp only [List.forall_mem_cons, List.not_mem_nil, false_implies, implies_true, and_true]
    exact ⟨ident object, of_isLookedUp rfl⟩

theorem assign (object property : String) {value : Node} (h : value.InsertsOpenly) :
    (Made.assign (Made.member (Made.ident object) property) value).InsertsOpenly :=
  mk rfl none (by simpa using ⟨member object property, h⟩)

theorem expression {e : Node} (h : e.InsertsOpenly) (span : Option Span) :
    (Made.expression e span).InsertsOpenly :=
  mk rfl span (by simpa using h)

theorem exportDeclarator {d : Node} (h : d.isLookedUp = true) :
    (Draft.exportDeclarator d).InsertsOpenly := by
  unfold Draft.exportDeclarator
  split
  · next isDefinite s p t value =>
    have parts := isLookedUp_mk h
    have pattern : p.InsertsOpenly := of_isLookedUp (parts p (by simp))
    have type : t.InsertsOpenly := of_isLookedUp (parts t (by simp))
    have filled : (if value.isAbsent then Made.ident "undefined" else value).InsertsOpenly := by
      split
      · exact ident "undefined"
      · exact of_isLookedUp (parts value (by simp))
    dsimp only
    split
    · exact mk rfl s (by simpa using ⟨pattern, type, assign "exports" _ filled⟩)
    · exact mk rfl s (by simpa using ⟨pattern, type, filled⟩)
  · exact of_isLookedUp h

end InsertsOpenly

theorem isLookedUp_asExpression {n : Node} (h : n.isLookedUp = true) :
    n.asExpression.isLookedUp = true := by
  unfold asExpression
  split <;> exact h

namespace Gives

variable {n : Node} {item : Item}

theorem insertsOpenly (h : n.Gives item) (lookedUp : n.isLookedUp = true) :
    item.toNode.InsertsOpenly := by
  have parts : ∀ p ∈ n.parts, p.isLookedUp = true := by
    obtain ⟨f, s, ps⟩ := n
    exact isLookedUp_mk lookedUp
  cases h with
  | named _ exported x ref s =>
    exact ((InsertsOpenly.leaf (.ident x ref) s).assign "exports" exported).expression none
  | whole => exact .of_isLookedUp lookedUp
  | declaration | default => exact .of_isLookedUp (parts _ List.mem_cons_self)
  | declarators s kind isDeclared s' ds =>
    have declarators := isLookedUp_mk (parts _ List.mem_cons_self)
    refine .mk rfl s' (List.forall_mem_map.mpr fun d among => ?_)
    exact .exportDeclarator (declarators d among)
  | value s d span =>
    have value := InsertsOpenly.of_isLookedUp (parts d List.mem_cons_self)
    exact (value.assign "exports" "default").expression span
  | expression s d span =>
    have value := InsertsOpenly.of_isLookedUp (isLookedUp_asExpression (parts d List.mem_cons_self))
    exact (value.assign "exports" "default").expression span
  | assigned s e span =>
    have value := InsertsOpenly.of_isLookedUp (parts e List.mem_cons_self)
    exact (value.assign "module" "exports").expression span

theorem declarations (h : n.Gives item) {d : Declaration}
    (declared : d ∈ item.toNode.declarations .top) :
    ∃ d' ∈ n.declarations .top, d.Inside d' := by
  have under {f : Form} {s : Option Span} {p : Node} (same : f.reach .top 0 = .top)
      {d' : Declaration} (here : d' ∈ p.declarations .top) : d' ∈ (Node.mk f s [p]).declarations
      .top :=
    mem_declarations.mpr (.inr ⟨0, p, rfl, by rwa [same]⟩)
  have assigned (object property : String) (e : Node) (span : Option Span) :
      (Made.expression (Made.assign (Made.member (Made.ident object) property) e) span).declarations
        .top =
        e.declarations .top :=
    (Made.declarations_expression .top _ span).trans
      (Made.declarations_assign .top object property e)
  cases h with
  | named _ exported x ref s =>
    cases assigned "exports" exported (.mk (.ident x ref) s []) none ▸ declared
  | whole => exact ⟨d, declared, rfl, id⟩
  | declaration | default => exact ⟨d, under rfl declared, rfl, id⟩
  | declarators s kind isDeclared s' ds =>
    refine ⟨d, under rfl ?_, rfl, id⟩
    rcases mem_declarations.mp declared with here | ⟨j, p, found, below⟩
    · cases here
    · rw [List.getElem?_map] at found
      obtain ⟨q, original, rfl⟩ := Option.map_eq_some_iff.mp found
      exact mem_declarations.mpr (.inr ⟨j, q, original, Draft.declarations_exportDeclarator below⟩)
  | value s e span => exact ⟨d, under rfl (assigned "exports" "default" e span ▸ declared), rfl, id⟩
  | expression s e span =>
    obtain ⟨d', here, inside⟩ :=
      declarations_asExpression (assigned "exports" "default" e.asExpression span ▸ declared)
    exact ⟨d', under rfl here, inside⟩
  | assigned s e span =>
    exact ⟨d, under rfl (assigned "module" "exports" e span ▸ declared), rfl, id⟩

end Gives

end Node

namespace Module

variable {m : Module}

/-- What the module declares at its top under a name of the runtime is what its own scope holds
under that name. Where it holds one already, a `var` in a `catch` of the same name has the symbol of
the `catch` instead. -/
def HoldsOwn (m : Module) : Prop :=
  ∀ d ∈ m.program.declarations .top, d.isTop = true → d.name ∈ runtimeNames →
    d.symbol ≠ none ∧ d.symbol = m.scopes.root? d.name

instance (m : Module) : Decidable m.HoldsOwn :=
  inferInstanceAs (Decidable (∀ d ∈ m.program.declarations .top, d.isTop = true →
    d.name ∈ runtimeNames →
    d.symbol ≠ none ∧ d.symbol = m.scopes.root? d.name))

theorem HoldsOwn.isTop_eq_false (own : m.HoldsOwn) {d : Declaration}
    (listed : d ∈ m.program.declarations .top) (runtime : d.name ∈ runtimeNames)
    (old : ∀ s y, d.symbol = some s → (s, y) ∉ m.newNames.entries) : d.isTop = false := by
  cases top : d.isTop with
  | false => rfl
  | true =>
    obtain ⟨declares, held⟩ := own d listed top runtime
    obtain ⟨s, symbol⟩ := Option.ne_none_iff_exists'.mp declares
    obtain ⟨y, entry⟩ := Renaming.exists_chosen ⟨m.takenNames⟩ runtime (held.symm.trans symbol)
    exact absurd entry (old s y symbol)

def DeclaresInside (m : Module) (x : String) : Prop :=
  ∃ d ∈ m.program.declarations .top, d.name = x ∧ d.isTop = false

instance (m : Module) (x : String) : Decidable (m.DeclaresInside x) :=
  inferInstanceAs (Decidable (∃ d ∈ m.program.declarations .top, d.name = x ∧ d.isTop = false))

def Hides (m : Module) (d : Declaration) : Prop :=
  d.name ∈ runtimeNames → d.isTop = false ∧ m.DeclaresInside d.name

theorem Hides.inside {d d' : Declaration} (h : m.Hides d') (inside : d.Inside d') : m.Hides d := by
  intro runtime
  rw [inside.name] at runtime ⊢
  obtain ⟨inner, declares⟩ := h runtime
  refine ⟨?_, declares⟩
  cases top : d.isTop with
  | false => rfl
  | true => exact absurd (inside.isTop top) (by simp [inner])

theorem hides_of_isFree {item : Item} (free : item.IsFree) {d : Declaration}
    (declared : d ∈ item.toNode.declarations .top) :
    m.Hides d := by
  have named : d.name ∈ item.toNode.declaredNames false :=
    Node.mem_declaredNames_iff.mpr ⟨d, declared, rfl⟩
  rw [Item.declaredNames_toNode] at named
  exact fun runtime => absurd runtime (free d.name named)

section
variable (consistent : m.Consistent)
include consistent

theorem Consistent.mem_declarations {n : Node} (among : n ∈ m.statements) {d : Declaration}
    (declared : d ∈ n.declarations .top) : d ∈ m.program.declarations .top := by
  obtain ⟨hashbang, ds, form⟩ := consistent.program
  obtain ⟨⟨f, s, ps⟩, scopes⟩ := m
  cases form
  obtain ⟨i, found⟩ := List.mem_iff_getElem?.mp among
  exact Node.mem_declarations.mpr (.inr ⟨i, n, found, declared⟩)

variable (suits : m.newNames.Suits m.scopes) (own : m.HoldsOwn)
include suits own

theorem Consistent.hides_renamed {n : Node} (among : n ∈ m.renamed.statements) {d : Declaration}
    (declared : d ∈ n.declarations .top) : m.Hides d := by
  intro runtime
  unfold renamed at among
  split at among
  · next empty =>
    have listed := consistent.mem_declarations among declared
    have inner := own.isTop_eq_false listed runtime fun s y _ entry => by
      rw [List.isEmpty_iff.mp empty] at entry
      cases entry
    exact ⟨inner, d, listed, rfl, inner⟩
  · rw [statements_rename] at among
    obtain ⟨n, original, rfl⟩ := List.mem_map.mp among
    obtain ⟨d, here, rfl⟩ :=
      Node.declarations_rename m.newNames (consistent.wellFormed n original) declared
    have listed := consistent.mem_declarations original here
    -- New names start with an underscore, so this one is old.
    obtain ⟨name, old⟩ := Declaration.kept_of_rename suits.distinct fun s entry =>
      head_of_runtimeNames _ runtime (suits.head _ entry)
    rw [name] at runtime ⊢
    have inner := own.isTop_eq_false listed runtime old
    exact ⟨(d.isTop_rename m.newNames).trans inner, d, listed, rfl, inner⟩

end

section
variable (consistent : m.Consistent) (suits : m.newNames.Suits m.scopes) {options : Options}
    {hints : Hints} {r : Draft}
  (drafted : m.draft options hints = .ok r)
include consistent suits

theorem Consistent.imports_apart {n : Node} (among : n ∈ m.renamed.statements) {x : String}
    (imported : x ∈ n.importedNames) :
    x ∉ runtimeNames := by
  intro runtime
  have held := consistent.imports_rooted among imported
  rw [root?_renamed_of_mem suits runtime] at held
  cases held

include drafted

theorem Consistent.isFree {item : Item} (among : item ∈ r.items) (made : item.isMade = true) :
    item.IsFree :=
  (placed_of_draft drafted).isFree (consistent.sound drafted)
    (fun _ listed _ => consistent.imports_apart suits listed) among made

theorem Consistent.hides_item (own : m.HoldsOwn) {item : Item} (among : item ∈ r.items)
    {d : Declaration} (declared : d ∈ item.toNode.declarations .top) : m.Hides d := by
  rcases (placed_of_draft drafted).gives among with made | ⟨n, listed, gives⟩
  · exact hides_of_isFree (consistent.isFree suits drafted among made) declared
  · obtain ⟨d', here, inside⟩ := gives.declarations declared
    exact (consistent.hides_renamed suits own listed here).inside inside

theorem Consistent.free_item (lookedUp : ∀ n ∈ m.statements, n.isLookedUp = true) {item : Item}
    (among : item ∈ r.items) {way : List Nat} {x : String}
    (inserted : item.toNode.insertedAt way = some x) (runtime : x ∈ runtimeNames) :
    x ∉ item.toNode.declaredNames false ∨ item.toNode.isOpenAlong way = true := by
  rcases (placed_of_draft drafted).gives among with made | ⟨n, listed, gives⟩
  · refine .inl fun declared => ?_
    rw [Item.declaredNames_toNode] at declared
    exact consistent.isFree suits drafted among made x declared runtime
  · have own : n.isLookedUp = true := by
      obtain ⟨n₀, original, rfl | rfl⟩ := mem_renamed_statements listed
      · exact lookedUp n original
      · exact (Node.isLookedUp_rename _ n₀).trans (lookedUp n₀ original)
    exact .inr (gives.insertsOpenly own way x inserted)

end

/-- A statement of a lowered module: at its top it declares no name of the runtime, and of those put
into it, it declares none around them, unless they repeat a write. -/
structure Spares (m : Module) (n : Node) : Prop where
  hides : ∀ d ∈ n.declarations .top, m.Hides d
  free : ∀ way x, n.insertedAt way = some x → x ∈ runtimeNames →
    x ∉ n.declaredNames false ∨ n.isOpenAlong way = true ∨ n.IsEcho way x

theorem lowered_statements {hashbang : Option String} {ds : List Directive}
    (form : m.program.form = .program hashbang ds) (r : Draft) :
      ∃ ps, (m.lowered r).program = .mk (.program hashbang ds) m.renamed.program.span ps ∧
      ∀ n ∈ ps, ∃ item ∈ r.items, n = item.toNode ∨
        ∃ completes, n = (m.liveBindings r).liveAt completes .ordinary item.toNode := by
  simp only [lowered, makeLive_eq, assembled, withStatements, m.renamed_form form]
  split
  · refine ⟨_, rfl, fun n among => ?_⟩
    obtain ⟨item, listed, rfl⟩ := List.mem_map.mp among
    exact ⟨item, listed, .inl rfl⟩
  · refine ⟨_, (m.liveBindings r).liveAt_other (by simp) (by simp) rfl true .ordinary,
      fun n among => ?_⟩
    obtain ⟨i, found⟩ := List.mem_iff_getElem?.mp among
    obtain ⟨p, original, rfl⟩ := (m.liveBindings r).getElem?_partsAt found
    obtain ⟨item, listed, rfl⟩ := List.mem_map.mp (List.mem_of_getElem? original)
    exact ⟨item, listed, .inr ⟨_, rfl⟩⟩

theorem Spares.liveAt {l : LiveBindings} (foreign : l.IsForeign) {n : Node}
    (wellFormed : n.isWellFormed = true) (hides : ∀ d ∈ n.declarations .top, m.Hides d)
    (free : ∀ way x, n.insertedAt way = some x → x ∈ runtimeNames →
      x ∉ n.declaredNames false ∨ n.isOpenAlong way = true) (completes :
      Bool) (position : Position) :
    m.Spares (l.liveAt completes position n) := by
  refine ⟨fun d declared => hides d (l.declarations_liveAt wellFormed declared),
    fun way x inserted runtime => ?_⟩
  rcases foreign.traced_liveAt (head_of_runtimeNames x runtime) inserted with echo
    | ⟨w, before, opens⟩
  · exact .inr (.inr echo)
  · rcases free w x before runtime with silent | isOpen
    · exact .inl fun declared => silent (l.declaredNames_liveAt wellFormed declared)
    · exact .inr (.inl (opens isOpen))

theorem Consistent.spares (consistent : m.Consistent) (suits : m.newNames.Suits m.scopes)
    (own : m.HoldsOwn) (lookedUp : ∀ n ∈ m.statements, n.isLookedUp = true) {options : Options}
    {hints : Hints} {r : Draft} (drafted : m.draft options hints = .ok r) {n : Node}
    (among : n ∈ (m.lowered r).statements) : m.Spares n := by
  have foreign := consistent.isForeign drafted
  obtain ⟨hashbang, ds, form⟩ := consistent.program
  obtain ⟨ps, program, source⟩ := lowered_statements form r
  rw [statements, program] at among
  obtain ⟨item, listed, origin⟩ := source n among
  have hides (d : Declaration) (declared : d ∈ item.toNode.declarations .top) : m.Hides d :=
    consistent.hides_item suits drafted own listed declared
  have free (way : List Nat) (x : String) (inserted : item.toNode.insertedAt way = some x)
    (runtime : x ∈ runtimeNames) :=
    consistent.free_item suits drafted lookedUp listed inserted runtime
  rcases origin with rfl | ⟨completes, rfl⟩
  · exact ⟨hides, fun way x inserted runtime => (free way x inserted runtime).imp_right .inl⟩
  · have fine :=
      (Item.isWellFormed_toNode item).trans ((consistent.sound drafted).isWellFormed_items listed)
    exact .liveAt foreign fine hides free completes .ordinary

section
variable {s : Original} (spares : ∀ n ∈ s.statements, m.Spares n) {x : String}
  (runtime : x ∈ runtimeNames)
include spares runtime

theorem Spares.not_mem_declaringScopes (i : Nat) (way : List Nat) :
    [] ∉ s.analysed.declaringScopes (i :: way) x := by
  intro among
  rcases declared_of_mem_declaringScopes among with ⟨-, p, listed, d, declared, rfl, isTop⟩
    | ⟨inner, -⟩
  · have hidden := ((spares p listed).hides d declared runtime).1
    rw [isTop] at hidden
    cases hidden
  · exact inner rfl

theorem Spares.declaringScopes {way : List Nat}
    (inserted : s.program.insertedAt way = some x) :
    s.analysed.declaringScopes way x = [] ∨ s.program.IsEcho way x ∧
      [] ∉ s.analysed.declaringScopes way x ∧ m.DeclaresInside x := by
  cases way with
  | nil => cases Node.insertedAt_nil inserted
  | cons i way =>
    obtain ⟨-, p, child, below⟩ := Node.insertedAt_cons inserted
    have spare := spares p (List.mem_of_getElem? child)
    have root := not_mem_declaringScopes spares runtime i way
    by_cases declared : x ∈ p.declaredNames false
    · rcases spare.free way x below runtime with none | isOpen | echo
      · exact absurd declared none
      · -- Only the outermost scope is around.
        have along : s.program.isOpenAlong (i :: way) = true := by
          simpa [Original.program, Original.form, Node.isOpenAlong, Node.form, Node.parts,
            Form.isOpen, child] using isOpen
        refine .inl (List.eq_nil_iff_forall_not_mem.mpr fun scope among => ?_)
        exact root (eq_nil_of_isOpenAlong along among ▸ among)
      · refine .inr ⟨echo.part rfl child, root, ?_⟩
        obtain ⟨d, listed, rfl⟩ := Node.mem_declaredNames_iff.mp declared
        exact (spare.hides d listed runtime).2
    · -- The scopes inside are the statement's, and it declares nothing of the name.
      refine .inl (List.eq_nil_iff_forall_not_mem.mpr fun scope among => ?_)
      rcases declared_of_mem_declaringScopes among with ⟨rfl, -⟩ | ⟨-, q, found, inside⟩
      · exact root among
      · rw [child] at found
        cases found
        exact declared inside

end

theorem form_of_declaringScopes_eq_nil {s : Original} {way : List Nat} {x : String}
    (inserted : s.program.insertedAt way = some x)
    (silent : s.analysed.declaringScopes way x = []) :
    (s.analysed.program.at? way).map Node.form = some (.ident x .global) := by
  have stable := s.resolve_analysed true
  have bare : s.analysed.program.bare = s.program.bare := bare_analyse s.isStrict s.program
  generalize s.analysed = m at *
  obtain ⟨s, qs, found⟩ := Node.exists_of_insertedAt inserted
  have same := m.program.at?_bare way
  rw [bare, Node.at?_bare, found] at same
  obtain ⟨⟨f, s', qs'⟩, here, eq⟩ := Option.map_eq_some_iff.mp same.symm
  obtain ⟨ref, rfl⟩ : ∃ ref, f = .ident x ref := by
    have form := (Node.mk.inj eq).1
    cases f <;> cases form
    exact ⟨_, rfl⟩
  have absent (meaning : Meaning) :
      m.scopes.lookup (m.program.contextAt (.program true) [] way).chain x meaning = none := by
    refine List.findSome?_eq_none_iff.mpr fun scope around => ?_
    have unbound : m.scopes.binding? scope x = none := by
      simpa using List.filter_eq_nil_iff.mp silent scope around
    rw [unbound]
    rfl
  have resolved := Node.resolve_at? stable here
  rw [here, Option.map_some, ← resolved]
  simp only [Node.form, Form.resolve, ScopeTable.refer, absent]

def ReachesRuntime (m : Module) (way : List Nat) (x : String) : Prop :=
  m.declaringScopes way x = [] ∧ (m.program.at? way).map Node.form = some (.ident x .global)

/-- Wherever lowering puts in a name of the runtime, it is the runtime's, or it is an `exports` that
repeats a write and some scope around it, but not the outermost, declares the name. -/
theorem Consistent.reaches_or_hidden (consistent : m.Consistent)
    (suits : m.newNames.Suits m.scopes) (lookedUp : m.program.isLookedUp = true) (own : m.HoldsOwn)
    {options : Options} {hints : Hints} {outcome : Outcome} {lowered : Module}
    (success : (Module.lower options hints).run m = .ok outcome lowered) {way : List Nat}
    {x : String} (inserted : lowered.program.insertedAt way = some x) (runtime : x ∈ runtimeNames)
    (strictAgain : Bool) :
    (Module.analyse strictAgain lowered.program).ReachesRuntime way x ∨
      lowered.program.IsEcho way x ∧
        (Module.analyse strictAgain lowered.program).declaringScopes way x ≠ [] ∧
        [] ∉ (Module.analyse strictAgain lowered.program).declaringScopes way x ∧
        m.DeclaresInside x := by
  have parts := isLookedUp_statements lookedUp
  obtain ⟨hashbang, ds, form⟩ := consistent.program
  rcases lower_cases success with ⟨-, -, -, rfl⟩ | ⟨r, -, -, drafted, -, rfl⟩
  · rw [Node.insertedAt_of_isLookedUp lookedUp] at inserted
    cases inserted
  · obtain ⟨ps, program, -⟩ := lowered_statements form r
    have spares : ∀ n ∈ ps, m.Spares n := by
      intro n among
      refine consistent.spares suits own parts drafted ?_
      rw [Module.statements, program]
      exact among
    let s : Original := ⟨strictAgain, hashbang, ds, m.renamed.program.span, ps⟩
    rw [show (m.lowered r).program = s.program from program] at inserted ⊢
    by_cases silent : s.analysed.declaringScopes way x = []
    · exact .inl ⟨silent, form_of_declaringScopes_eq_nil inserted silent⟩
    · obtain ⟨echo, root, inside⟩ :=
        (Spares.declaringScopes spares runtime inserted).resolve_left silent
      exact .inr ⟨echo, silent, root, inside⟩

/-- Wherever lowering puts in a name of the runtime, it is the runtime's, but for the `exports` that
repeats a write in a scope where the module declares an `exports` itself. -/
theorem inserted_names_reach_runtime (s : Original) (wellFormed : s.program.isWellFormed = true)
    (own : s.analysed.HoldsOwn) (options : Options) (hints : Hints) (run : s.Lowering options hints)
    (way : List Nat) (x : String) (inserted : run.lowered.program.insertedAt way = some x)
    (runtime : x ∈ runtimeNames) (strictAgain : Bool) :
    (Module.analyse strictAgain run.lowered.program).ReachesRuntime way x ∨
      run.lowered.program.IsEcho way x ∧
        (Module.analyse strictAgain run.lowered.program).declaringScopes way x ≠ [] ∧
        [] ∉ (Module.analyse strictAgain run.lowered.program).declaringScopes way x ∧
        s.analysed.DeclaresInside x :=
  (Original.consistent wellFormed).reaches_or_hidden s.newNames_suits s.isLookedUp own run.success
    inserted runtime strictAgain

/-- Of the names, every one that was put into the program is the runtime's. -/
def SeesRuntime (names : List String) (isStrict : Bool) (program : Node) : Prop :=
  ∀ way, ∀ x ∈ names, program.insertedAt way = some x →
    (analyse isStrict program).ReachesRuntime way x

/-- A module that declares no `exports` inside is lowered to one that reaches the runtime's. -/
theorem Consistent.seesExports (consistent : m.Consistent)
    (suits : m.newNames.Suits m.scopes) (lookedUp : m.program.isLookedUp = true) (own : m.HoldsOwn)
    (plain : ¬ m.DeclaresInside "exports") {options : Options} {hints : Hints} {outcome : Outcome}
    {lowered : Module} (success : (Module.lower options hints).run m = .ok outcome lowered)
    (strictAgain : Bool) : SeesRuntime ["exports"] strictAgain lowered.program := by
  intro way x among inserted
  obtain rfl := List.mem_singleton.mp among
  rcases consistent.reaches_or_hidden suits lookedUp own success inserted (by decide) strictAgain
    with reaches | ⟨-, -, -, inside⟩
  · exact reaches
  · exact absurd inside plain

theorem seesRuntime_of_not_declared {names : List String} {program : Node}
    {hashbang : Option String} {ds : List Directive}
    (form : program.form = .program hashbang ds)
    (free : ∀ x ∈ names, ∀ p ∈ program.parts, x ∉ p.declaredNames false) (isStrict : Bool) :
    SeesRuntime names isStrict program := by
  obtain ⟨_, span, ps⟩ := program
  cases form
  intro way x among inserted
  let s : Original := ⟨isStrict, hashbang, ds, span, ps⟩
  have silent : s.analysed.declaringScopes way x = [] := by
    refine List.eq_nil_iff_forall_not_mem.mpr fun scope around => ?_
    cases way with
    | nil => cases Node.insertedAt_nil inserted
    | cons i way =>
      rcases declared_of_mem_declaringScopes around with ⟨-, p, listed, d, declared, rfl, -⟩
        | ⟨-, p, found, declared⟩
      · exact free _ among p listed (Node.mem_declaredNames_iff.mpr ⟨d, declared, rfl⟩)
      · exact free x among p (List.mem_of_getElem? found) declared
  exact ⟨silent, form_of_declaringScopes_eq_nil (s := s) inserted silent⟩

/-- The program with those of the names that were put in taken for what they are found to be. -/
def seenProgram (names : List String) (isStrict : Bool) (program : Node) : Node :=
  program.seen names fun way => ((analyse isStrict program).program.at? way).map Node.form

theorem SeesRuntime.seenProgram_eq {names : List String} {isStrict : Bool} {program : Node}
    (sees : SeesRuntime names isStrict program) : seenProgram names isStrict program = program :=
  Node.seen_eq_self fun way x among inserted => (sees way x among inserted).2

section Example

/-- `import { y } from "m"; let module = y; export let x = module; function f(exports, require) { x
= 2; }` -/
def repeatingStatements : List Node :=
  let name (x : String) := Node.made (.binder x none) []
  [.made (.importDecl false false "m") [.made (.importNamed false) [Made.word "y", name "y"],
    .absent],
   .made (.varDecl .blockScoped false)
   [.made (.declarator false) [name "module", .absent, Made.ident "y"]],
   .made .exportDeclaration [.made (.varDecl .blockScoped false)
    [.made (.declarator false) [name "x", .absent, Made.ident "module"]]],
   .made (.function ⟨.declaration, false, false, false, false⟩)
    [name "f", .absent, .made .parameters [Made.parameter "exports", Made.parameter "require"],
     .absent, .made (.body [])
     [.made .expression [.made (.assign .plain) [.made (.target "x" .none) [], Made.number 2]]]]]

def repeating : Module := .analyse true (.mk (.program none []) none repeatingStatements)

def loweredInOrder (m : Module) (r : Draft) : Module :=
  ((m.renamed.withStatements (((r.header ++ r.top ++ r.body ++ r.footer).map Prod.snd ++
    r.helpers.map fun (h, name) => Item.helperFunction h name).map Item.toNode)).makeLive
    r.redirects r.exports).1

theorem lowered_of_falling {m : Module} {r : Draft}
    (falling : (r.header ++ r.top ++ r.body ++ r.footer).Pairwise fun a b => decide
    (b.1 ≤ a.1) = true) :
    m.lowered r = m.loweredInOrder r := by
  rw [lowered, assembled, Draft.items, arrange, List.mergeSort_of_pairwise falling, loweredInOrder]

theorem repeating_lowered : ∃ r, repeating.draft .default .none = .ok r ∧
    (repeating.lowered r).program.insertedAt [2, 0, 2, 0] = some "require" ∧
    (repeating.lowered r).program.insertedAt [6, 4, 0, 0, 0, 0] = some "exports" ∧
    (analyse true (repeating.lowered r).program).declaringScopes
    [6, 4, 0, 0, 0, 0] "exports" = [[6]] := by
  -- Sorting does not compute, so the result is evaluated without it.
  obtain ⟨r, drafted, computed⟩ := repeating.exists_draft .default .none
    (fun r : Draft => decide ((r.header ++ r.top ++ r.body ++ r.footer).Pairwise
        (fun a b : Priority × Item => decide (b.1 ≤ a.1) = true) ∧
      (repeating.loweredInOrder r).program.insertedAt [2, 0, 2, 0] = some "require" ∧
      (repeating.loweredInOrder r).program.insertedAt [6, 4, 0, 0, 0, 0] = some "exports" ∧
      (analyse true (repeating.loweredInOrder r).program).declaringScopes [6, 4, 0, 0, 0, 0]
    "exports" = [[6]])) (by decide +kernel)
  obtain ⟨falling, facts⟩ := of_decide_eq_true computed
  exact ⟨r, drafted, by rwa [lowered_of_falling falling]⟩

/-- The `require` is the runtime's. The `exports` inside the function is the parameter. -/
theorem inserted_names_reach_runtime_repeating : ∃ outcome lowered,
    (Module.lower .default .none).run repeating = .ok outcome lowered ∧
      lowered.program.insertedAt [2, 0, 2, 0] = some "require" ∧
      (Module.analyse true lowered.program).ReachesRuntime [2, 0, 2, 0] "require" ∧
      lowered.program.insertedAt [6, 4, 0, 0, 0, 0] = some "exports" ∧
      lowered.program.IsEcho [6, 4, 0, 0, 0, 0] "exports" ∧
      (Module.analyse true lowered.program).declaringScopes
      [6, 4, 0, 0, 0, 0] "exports" = [[6]] := by
  obtain ⟨r, drafted, required, repeated, hidden⟩ := repeating_lowered
  obtain ⟨-, success⟩ := lower_of_draft (by decide +kernel) drafted
  have reaches (way : List Nat) (x : String) (inserted : (repeating.lowered r).program.insertedAt
      way = some x) (runtime : x ∈ runtimeNames) := inserted_names_reach_runtime
    ⟨true, none, [], none, repeatingStatements⟩ (by decide) (by decide +kernel) .default .none
    ⟨_, _, success⟩ way x inserted runtime true
  refine ⟨_, _, success, required, ?_, repeated, ?_, hidden⟩
  · rcases reaches _ _ required (by decide) with reached | ⟨echo, -⟩
    · exact reached
    · exact absurd echo.name (by decide)
  · rcases reaches _ _ repeated (by decide) with reached | ⟨echo, -⟩
    · rw [reached.1] at hidden
      cases hidden
    · exact echo

end Example

end Module

end ModuleLowering
