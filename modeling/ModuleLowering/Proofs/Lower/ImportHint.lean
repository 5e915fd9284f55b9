import ModuleLowering.Proofs.Lower.RequireBinding

/-!
The priority of the statement that requires a module for its imports, and whether it is the one that
the imports ask for together.
-/

set_option autoImplicit false

namespace ModuleLowering

theorem filter_key_eq_singleton {α κ : Type} [DecidableEq κ] {key : α → Option κ} {l : List α}
    {a : α} {k : κ} (distinct : (l.filterMap key).Nodup) (listed : a ∈ l) (found : key a = some k) :
    l.filter (fun b => key b = some k) = [a] := by
  obtain ⟨before, after, rfl⟩ := List.append_of_mem listed
  have moved := (List.perm_middle.filterMap key).nodup_iff.mp distinct
  rw [List.filterMap_cons_some found, List.nodup_cons] at moved
  have other {b : α} (among : b ∈ before ++ after) : ¬ decide (key b = some k) = true := by
    rw [decide_eq_true_eq]
    exact fun again => moved.1 (List.mem_filterMap.mpr ⟨b, among, again⟩)
  rw [List.filter_append, List.filter_cons, if_pos (decide_eq_true found),
    List.filter_eq_nil_iff.mpr fun b early => other (List.mem_append_left _ early),
    List.filter_eq_nil_iff.mpr fun b late => other (List.mem_append_right _ late)]
  rfl

/-- The path that a statement requires for its imports: with a variable if names are imported, and
else by a call. -/
def Item.requires? (named : Bool) (item : Item) : Option String :=
  if named then item.required?.map Prod.fst else item.called?

def Module.importsNames (m : Module) (path : String) : Bool :=
  m.statements.any (Node.namesImports path)

namespace Draft

variable {r : Draft} {options : Options} {hints : Hints} {ns : List Node}

theorem filterMap_items {α : Type} (f : Item → Option α)
    (none : ∀ h name, f (.helperFunction h name) = .none) :
    r.items.filterMap f = (arrange r.queue).filterMap fun e => f e.2 := by
  have helpers : r.helperItems.filterMap f = [] := by
    rw [helperItems, List.filterMap_map]
    exact List.filterMap_eq_nil_iff.mpr fun entry _ => none entry.1 entry.2
  rw [items_eq_append, List.filterMap_append, helpers, List.append_nil, List.filterMap_map]
  rfl

/-- A module that is only loaded is loaded with the ordinary priority. -/
theorem Placed.priority_of_called (h : r.Placed r.naming options hints ns) {e : Priority × Item}
    (queued : e ∈ r.queue) {path : String} (calls : e.2.called? = some path) :
    e.1 = Priority.ordinary := by
  -- What passes on exports requires its module with a variable, and never by a mere call.
  have front : e ∈ r.top := (h.mem_top_or_passesOn queued).resolve_right fun passes => by
    rw [called?_of_loaded? passes.loaded] at calls
    cases calls
  rcases h.mem_top.mp front with ⟨l₁, n, l₂, -, opening | ⟨item, -, rfl⟩⟩ | ⟨other, -, here⟩
  · obtain ⟨_, -, -, rfl⟩ := Node.mem_opening.mp opening
    cases calls
  · rfl
  · rcases ImportGroup.mem_top_emission.mp here with ⟨-, rfl⟩ | ⟨-, -, rfl⟩ | ⟨s, -, value, -, rfl⟩
    · rfl
    · cases calls
    · cases calls

theorem Placed.priority_of_requires {base : TakenNames} {own bound : String → Prop} {m : Module}
    (sound : r.Sound base own bound) (h : r.Placed r.naming options hints m.renamed.statements)
    {path : String} (imported : ∃ n ∈ m.statements, n.importedPath? = some path) :
    ((arrange r.queue).filter fun e => e.2.requires? (m.importsNames path) = some path).map
      Prod.fst =
      [if m.importsNames path then Node.requirePriority hints m.statements path
      else Priority.ordinary] := by
  have once := h.requiresOnce sound
  -- There is one statement for each path, so its priority is known once that of every candidate is.
  have single (named : Bool) {p : Priority}
      (distinct : (r.items.filterMap (Item.requires? named)).Nodup)
      (among : path ∈ r.items.filterMap (Item.requires? named))
      (all : ∀ e ∈ r.queue, e.2.requires? named = some path → e.1 = p) :
      ((arrange r.queue).filter fun e => e.2.requires? named = some path).map Prod.fst = [p] := by
    rw [filterMap_items _ fun _ _ => by cases named <;> rfl] at distinct among
    obtain ⟨e, listed, requires⟩ := List.mem_filterMap.mp among
    rw [filter_key_eq_singleton distinct listed requires, List.map_singleton,
      all e ((arrange_perm _).mem_iff.mp listed) requires]
  cases names : m.importsNames path with
  | true =>
    obtain ⟨n, among, named⟩ := List.any_eq_true.mp names
    have entry := (once.bound path _).mpr ⟨rfl, n, among, .inr named⟩
    have paths : r.items.filterMap (Item.requires? true) = (r.items.filterMap Item.required?).map
      Prod.fst :=
      List.map_filterMap.symm
    refine single true (paths ▸ once.paths) (paths ▸ List.mem_map.mpr ⟨_, entry, rfl⟩)
      fun e queued requires => ?_
    obtain ⟨⟨path, b⟩, required, rfl⟩ := Option.map_eq_some_iff.mp requires
    rw [(h.exists_queue_split sound queued required).2.2.1, Module.requirePriority_renamed]
    rfl
  | false =>
    have bare : ∀ n ∈ m.statements, n.namesImports path = false := by
      simpa [Module.importsNames] using names
    exact single false once.calls ((once.called path).mpr ⟨imported, bare⟩) fun e queued calls =>
      h.priority_of_called queued calls

end Draft

namespace Module

/-- The statements of a lowered module with their priorities, in order; the helpers behind them have
none. -/
def arrangedItems (m : Module) (options : Options) (hints : Hints) : List (Priority × Item) :=
  match m.finalDraft? options hints with
  | some r => arrange r.queue
  | none => []

def requirePriorities (m : Module) (options : Options) (hints : Hints) (path : String) :
    List Priority :=
  ((m.arrangedItems options hints).filter fun e => e.2.requires? (m.importsNames path) =
    some path).map Prod.fst

/-- A lowered module requires each path that is imported by one statement. Its priority is the one
that the imports of the path ask for together unless exports of the path are passed on with another
one, or no names are imported and the imports ask for more than the ordinary one. -/
theorem import_priority_kept_iff (s : Original) (wellFormed : s.program.isWellFormed = true)
    (options : Options) (hints : Hints) (run : s.Lowering options hints) :
    let m := s.analysed
    Item.WritesOut (m.loweredBindings options hints) (m.loweredItems options hints)
      run.lowered.statements ∧
      (m.arrangedItems options hints).map Prod.snd <+: m.loweredItems options hints ∧
      (m.arrangedItems options hints).Pairwise (fun a b => b.1 ≤ a.1) ∧
      ∀ path, (∃ n ∈ m.statements, n.importedPath? = some path) →
        m.requirePriorities options hints path = [if m.importsNames path then Node.requirePriority
          hints m.statements path else Priority.ordinary] ∧
        (m.requirePriorities options hints path = [Node.importPriority hints m.statements path] ↔
          if m.importsNames path then
            ∀ p ∈ (Node.passPriorities hints m.statements path).head?, p = Node.importPriority hints
              m.statements path
          else Node.importPriority hints m.statements path = Priority.ordinary) := by
  intro m
  have consistent : m.Consistent := Original.consistent wellFormed
  obtain ⟨outcome, lowered, success : (lower options hints).run m = .ok outcome lowered⟩ := run
  refine ⟨writesOut consistent.program success, ?_⟩
  rcases lower_cases success with ⟨none, plain, -⟩ | ⟨r, final, -, drafted, -⟩
  · refine ⟨by rw [arrangedItems, none]; exact List.nil_prefix, by
      rw [arrangedItems, none]; exact .nil, ?_⟩
    rintro path ⟨n, among, imported⟩
    rw [Node.importedPath?, ((m.isPlain_of_hasModuleSyntax plain).1 n among).imported] at imported
    cases imported
  · have sound := consistent.sound drafted
    have placed := placed_of_draft drafted
    have arranged : m.arrangedItems options hints = arrange r.queue := by rw [arrangedItems, final]
    refine ⟨?_, arranged ▸ arrange_falling _, fun path imported => ?_⟩
    · rw [arranged, loweredItems_of_some final]
      exact List.prefix_append ..
    · have priority : m.requirePriorities options hints path = _ :=
        arranged ▸ placed.priority_of_requires sound imported
      refine ⟨priority, ?_⟩
      rw [priority, List.singleton_inj]
      split
      · rw [Node.requirePriority]
        cases (Node.passPriorities hints m.statements path).head? <;> simp
      · exact eq_comm

/-- `import "x"; export let y = 1;` -/
def loadingFirst : Original :=
  ⟨true, none, [], none,
    [.mk (.importDecl false false "x") (some ⟨0, 11⟩) [.absent],
     .made .exportDeclaration [.made (.varDecl .blockScoped false) [.made (.declarator false)
      [.made (.binder "y" none) [], .absent, Made.number 1]]]]⟩

def loadFirst : Hints := .insert .none ⟨0, 11⟩ 5

/-- The module is loaded with the ordinary priority, and so not first. -/
theorem import_priority_kept_iff_loadingFirst : ∃ outcome lowered,
    (Module.lower .default loadFirst).run loadingFirst.analysed = .ok outcome lowered ∧
      Node.importPriority loadFirst loadingFirst.analysed.statements "x" = 5 ∧
      loadingFirst.analysed.requirePriorities .default loadFirst "x" = [Priority.ordinary] := by
  obtain ⟨r, drafted, -⟩ :=
    loadingFirst.analysed.exists_draft .default loadFirst (fun _ => true) (by decide +kernel)
  obtain ⟨-, success⟩ := lower_of_draft (by decide +kernel) drafted
  obtain ⟨-, -, -, priority⟩ :=
    import_priority_kept_iff loadingFirst (by decide) .default loadFirst ⟨_, _, success⟩
  refine ⟨_, _, success, by decide +kernel, ?_⟩
  rw [(priority "x" (by decide +kernel)).1, if_neg (by decide +kernel)]

end Module

end ModuleLowering
