import ModuleLowering.Proofs.Lower.FrontOrder
import ModuleLowering.Proofs.Lower.RenamedExport
import ModuleLowering.Proofs.Lower.RuntimeName

/-!
The statements of a lowered module, as items and written out. Which modules they load is told by the
statements of the module itself: renaming changes no path.
-/

set_option autoImplicit false

namespace ModuleLowering

namespace Node

variable (r : Renaming)

theorem span_rename (n : Node) : (n.rename r).span = n.span := by
  obtain ⟨f, s, ps⟩ := n
  rw [rename_mk]
  rfl

theorem passedPath?_rename (n : Node) : (n.rename r).passedPath? = n.passedPath? := by
  obtain ⟨f, s, ps⟩ := n
  obtain ⟨f', renamed, eq⟩ := exists_rename r f s ps
  rw [eq]
  cases renamed with
  | same =>
    cases f
    case exportFrom isType path => cases isType <;> rfl
    case exportAll isType path => cases isType <;> cases ps <;> rfl
    all_goals rfl
  | _ => rfl

theorem isSome_specifier?_rename (n : Node) :
    (n.rename r).specifier?.isSome = n.specifier?.isSome := by
  obtain ⟨f, s, ps⟩ := n
  obtain ⟨f', renamed, eq⟩ := exists_rename r f s ps
  rw [eq]
  cases renamed with
  | same =>
    cases f
    case importDefault | importNamespace =>
      match ps with
      | [] | [_] | _ :: _ :: _ => rfl
    case importNamed isType =>
      match isType, ps with
      | true, _ | false, [] | false, [_] | false, [_, _] | false, _ :: _ :: _ :: _ => rfl
    all_goals rfl
  | _ => rfl

theorem imported?_rename (n : Node) : (n.rename r).imported?.map (fun e => (e.1, e.2.length)) =
    n.imported?.map fun e => (e.1, e.2.length) := by
  obtain ⟨f, s, ps⟩ := n
  obtain ⟨f', renamed, eq⟩ := exists_rename r f s ps
  rw [eq]
  cases renamed with
  | same =>
    cases f
    case importDecl isType hasClause path =>
      cases isType with
      | true => rfl
      | false =>
        -- A renamed specifier is still one, so as many are left when types are dropped.
        have count (qs : List Node) :
            ((qs.map (rename r)).filterMap specifier?).length =
              (qs.filterMap specifier?).length := by
          rw [List.length_filterMap_eq_countP, List.length_filterMap_eq_countP, List.countP_map]
          exact List.countP_congr fun q _ => by rw [Function.comp_apply, isSome_specifier?_rename]
        have empty (qs : List Node) :
            ((qs.map (rename r)).filterMap specifier?).isEmpty =
              (qs.filterMap specifier?).isEmpty := by
          rw [Bool.eq_iff_iff, List.isEmpty_iff_length_eq_zero,
            List.isEmpty_iff_length_eq_zero, count]
        simp only [imported?, ← List.map_dropLast, List.isEmpty_map, empty]
        split
        · rfl
        · exact congrArg (fun k => some (path, k)) (count _)
    all_goals rfl
  | _ => rfl

theorem importedPath?_rename (n : Node) : (n.rename r).importedPath? = n.importedPath? := by
  have same := congrArg (Option.map Prod.fst) (imported?_rename r n)
  rwa [Option.map_map, Option.map_map] at same

def namesImports (path : String) (n : Node) : Bool :=
  match n.imported? with
  | some (other, specifiers) => other = path && !specifiers.isEmpty
  | none => false

theorem namesImports_rename (path : String) (n : Node) :
    (n.rename r).namesImports path = n.namesImports path := by
  have same := imported?_rename r n
  unfold namesImports
  cases imported : n.imported? with
  | none =>
    rw [imported] at same
    rw [Option.map_eq_none_iff.mp same]
  | some entry =>
    rw [imported] at same
    obtain ⟨entry', imported', eq⟩ := Option.map_eq_some_iff.mp same
    obtain ⟨path', specifiers'⟩ := entry'
    obtain ⟨other, specifiers⟩ := entry
    obtain ⟨rfl, length⟩ := Prod.mk.inj eq
    rw [imported']
    dsimp only
    congr 2
    rw [Bool.eq_iff_iff, List.isEmpty_iff_length_eq_zero, List.isEmpty_iff_length_eq_zero]
    exact Eq.congr_left length

theorem isModuleSyntax_rename (n : Node) : (n.rename r).isModuleSyntax = n.isModuleSyntax := by
  obtain ⟨f, s, ps⟩ := n
  have renamed : Form.Renamed r f ((mk f s ps).rename r).form := renamed_form r (.mk f s ps)
  unfold isModuleSyntax
  generalize ((mk f s ps).rename r).form = f' at renamed ⊢
  cases renamed <;> rfl

structure IsPlain (n : Node) : Prop where
  passed : n.passedPath? = none
  imported : n.imported? = none
  ahead : ∀ σ isStrict, n.ahead σ isStrict = []

theorem isPlain_of_isModuleSyntax {n : Node} (plain : n.isModuleSyntax = false) : n.IsPlain := by
  obtain ⟨f, s, ps⟩ := n
  cases f
  case importDecl | exportDefault | exportDeclaration | exportFrom | exportAll => cases plain
  all_goals exact ⟨rfl, rfl, fun _ _ => rfl⟩

end Node

namespace Module

variable (m : Module)

theorem exists_renamed_statements : ∃ g : Node → Node, m.renamed.statements = m.statements.map g ∧
    ∀ n, g n = n ∨ g n = n.rename m.newNames := by
  unfold renamed
  split
  · exact ⟨id, (List.map_id _).symm, fun n => .inl rfl⟩
  · exact ⟨Node.rename m.newNames, statements_rename m _, fun n => .inr rfl⟩

theorem filterMap_renamed {α : Type} {f : Node → Option α}
    (same : ∀ r n, f (Node.rename r n) = f n) :
    m.renamed.statements.filterMap f = m.statements.filterMap f := by
  obtain ⟨g, eq, either⟩ := m.exists_renamed_statements
  rw [eq, List.filterMap_map]
  refine List.filterMap_congr fun n _ => ?_
  rcases either n with here | here
  · rw [Function.comp_apply, here]
  · rw [Function.comp_apply, here, same]

theorem exists_mem_renamed {p : Node → Prop} (same : ∀ r n, p (Node.rename r n) ↔ p n) :
    (∃ n ∈ m.renamed.statements, p n) ↔ ∃ n ∈ m.statements, p n := by
  obtain ⟨g, eq, either⟩ := m.exists_renamed_statements
  rw [eq]
  simp only [List.mem_map, exists_exists_and_eq_and]
  refine exists_congr fun n => and_congr_right fun _ => ?_
  rcases either n with here | here
  · rw [here]
  · rw [here, same]

theorem forall_mem_renamed {p : Node → Prop} (same : ∀ r n, p (Node.rename r n) ↔ p n) :
    (∀ n ∈ m.renamed.statements, p n) ↔ ∀ n ∈ m.statements, p n := by
  have some := m.exists_mem_renamed (p := fun n => ¬ p n) fun r n => not_congr (same r n)
  simpa only [not_exists, not_and, not_not] using not_congr some

theorem isPlain_of_hasModuleSyntax (plain : m.hasModuleSyntax = false) :
    (∀ n ∈ m.statements, n.IsPlain) ∧ ∀ n ∈ m.renamed.statements, n.IsPlain := by
  have before : ∀ n ∈ m.statements, n.isModuleSyntax = false := by
    simpa [hasModuleSyntax] using plain
  have after : ∀ n ∈ m.renamed.statements, n.isModuleSyntax = false :=
    (m.forall_mem_renamed fun r n => by rw [Node.isModuleSyntax_rename]).mpr before
  exact ⟨fun n among => Node.isPlain_of_isModuleSyntax (before n among),
    fun n among => Node.isPlain_of_isModuleSyntax (after n among)⟩

theorem importPriority_renamed (hints : Hints) (path : String) :
    Node.importPriority hints m.renamed.statements path = Node.importPriority hints
      m.statements path := by
  refine congrArg (List.foldl max Priority.ordinary) (m.filterMap_renamed fun r n => ?_)
  rw [Node.importedPath?_rename, Node.span_rename]

theorem requirePriority_renamed (hints : Hints) (path : String) :
    Node.requirePriority hints m.renamed.statements path = Node.requirePriority hints
      m.statements path := by
  have passes : Node.passPriorities hints m.renamed.statements path = Node.passPriorities hints
    m.statements path :=
    m.filterMap_renamed fun r n => by rw [Node.passedPath?_rename, Node.span_rename]
  rw [Node.requirePriority, Node.requirePriority, passes, importPriority_renamed]

end Module

theorem Node.importPriority_none (ns : List Node) (path : String) :
    importPriority .none ns path = Priority.ordinary := by
  unfold importPriority importPriorities
  induction ns with
  | nil => rfl
  | cons n ns ih =>
    rw [List.filterMap_cons]
    split
    · exact ih
    · next priority asked =>
      split at asked
      · cases asked
        exact ih
      · cases asked

theorem Node.requirePriority_none (ns : List Node) (path : String) :
    requirePriority .none ns path = Priority.ordinary := by
  unfold requirePriority
  cases first : (passPriorities .none ns path).head? with
  | none => exact importPriority_none ns path
  | some priority =>
    obtain ⟨n, -, asked⟩ := List.mem_filterMap.mp (List.mem_of_mem_head? first)
    split at asked
    · cases asked
      rfl
    · cases asked

/-- How items are written out: those that hold no code of the module as they are, and the others
with live names. -/
structure Item.WritesOut (l : LiveBindings) (items : List Item) (ns : List Node) : Prop where
  length : ns.length = items.length
  made : ∀ (i : Nat) (item : Item), items[i]? = some item → item.isMade = true →
    ns[i]? = some item.toNode
  taken : ∀ (i : Nat) (item : Item), items[i]? = some item →
    ns[i]? = some item.toNode ∨ ∃ completes, ns[i]? = some (item.toNode.live l completes)

theorem Item.WritesOut.as_they_are (l : LiveBindings) (items : List Item) :
    WritesOut l items (items.map toNode) where
  length := List.length_map _
  made i item found _ := by rw [List.getElem?_map, found]; rfl
  taken i item found := .inl (by rw [List.getElem?_map, found]; rfl)

namespace Module

variable {m : Module} {options : Options} {hints : Hints}

def loweredItems (m : Module) (options : Options) (hints : Hints) : List Item :=
  match m.finalDraft? options hints with
  | some r => r.items
  | none => m.statements.map .kept

def loweredBindings (m : Module) (options : Options) (hints : Hints) : LiveBindings :=
  match m.finalDraft? options hints with
  | some r => m.liveBindings r
  | none => ⟨m.scopes, .empty, .empty⟩

theorem loweredItems_of_none (plain : m.finalDraft? options hints = none) :
    m.loweredItems options hints = m.statements.map .kept := by
  rw [loweredItems, plain]

theorem loweredItems_of_some {r : Draft} (final : m.finalDraft? options hints = some r) :
    m.loweredItems options hints = r.items := by
  rw [loweredItems, final]

theorem writesOut_lowered (form : ∃ hashbang ds, m.program.form = .program hashbang ds)
    (r : Draft) :
    Item.WritesOut (m.liveBindings r) r.items (m.lowered r).statements := by
  obtain ⟨hashbang, ds, form⟩ := form
  simp only [statements, lowered, makeLive_eq, assembled, withStatements, m.renamed_form form]
  split
  · -- There is nothing to make live.
    exact .as_they_are _ _
  · let l := m.liveBindings r
    let ns := r.items.map Item.toNode
    have through : l.liveAt true .ordinary (.mk (.program hashbang ds) m.renamed.program.span ns) =
        .mk (.program hashbang ds) m.renamed.program.span
        (l.partsAt true .ordinary (.program hashbang ds) ns) :=
      l.liveAt_other (by simp) (by simp) rfl true .ordinary
    have placed {i : Nat} {item : Item} (found : r.items[i]? = some item) :
        (l.partsAt true .ordinary (.program hashbang ds) ns)[i]? =
          some (item.toNode.live l ((Form.program hashbang ds).completes true ns.length i)) :=
      l.getElem?_partsAt_of (by rw [List.getElem?_map, found]; rfl)
    show Item.WritesOut l r.items
      (l.liveAt true .ordinary (.mk (.program hashbang ds) m.renamed.program.span ns)).parts
    rw [through]
    refine ⟨?_, fun i item found made => ?_, fun i item found => .inr ⟨_, placed found⟩⟩
    · simp [LiveBindings.partsAt, ns, Node.parts]
    · refine (placed found).trans ?_
      exact congrArg some (l.liveAt_of_isUnresolved (Item.isUnresolved_toNode made) _ .ordinary)

theorem writesOut (form : ∃ hashbang ds, m.program.form = .program hashbang ds) {outcome : Outcome}
    {lowered : Module} (success : (lower options hints).run m = .ok outcome lowered) :
    Item.WritesOut (m.loweredBindings options hints) (m.loweredItems options hints)
      lowered.statements := by
  rcases lower_cases success with ⟨plain, -, -, rfl⟩ | ⟨r, final, -, -, -, rfl⟩
  · have same := Item.WritesOut.as_they_are (lowered.loweredBindings options hints)
      (lowered.statements.map .kept)
    rw [loweredItems_of_none plain]
    rwa [List.map_map, show Item.toNode ∘ Item.kept = id from rfl, List.map_id] at same
  · rw [loweredItems_of_some final, loweredBindings, final]
    exact writesOut_lowered form r

end Module

namespace Draft

/-- All but the helpers, in the order it came in. -/
def queue (r : Draft) : List (Priority × Item) := r.header ++ r.top ++ r.body ++ r.footer

variable {r : Draft}

theorem getElem?_items {i : Nat} {item : Item} (found : r.items[i]? = some item) :
    (∃ e, (arrange r.queue)[i]? = some e ∧ e.2 = item) ∨ ∃ entry ∈ r.helpers, item = .helperFunction
      entry.1 entry.2 := by
  rw [items_eq_append, List.getElem?_append] at found
  split at found
  · rw [List.getElem?_map] at found
    exact .inl (Option.map_eq_some_iff.mp found)
  · obtain ⟨entry, listed, rfl⟩ := List.mem_map.mp (List.mem_of_getElem? found)
    exact .inr ⟨entry, listed, rfl⟩

theorem passesOn_header {e : Priority × Item} (among : e ∈ r.header) : e.2.PassesOn none := by
  rcases header_cases among with rfl | rfl
  all_goals exact ⟨rfl, rfl, rfl⟩

theorem passesOn_footer {e : Priority × Item} (among : e ∈ r.footer) : e.2.PassesOn none := by
  rw [footer_cases among]
  exact ⟨rfl, rfl, rfl⟩

def unarranged (r : Draft) : List Item := r.queue.map Prod.snd ++ r.helperItems

theorem items_perm (r : Draft) : r.items.Perm r.unarranged :=
  ((arrange_perm r.queue).map Prod.snd).append_right _

theorem mem_items_of_mem_top {e : Priority × Item} (front : e ∈ r.top) : e.2 ∈ r.items :=
  Sound.mem_items (List.mem_append_left _ (List.mem_append_left _ (List.mem_append_right _ front)))

theorem required?_of_loaded? {item : Item} (none : item.loaded? = none) :
    item.required? = .none := by
  cases item <;> first | rfl | cases none

theorem eq_requireBinding {item : Item} {path b : String}
    (requires : item.required? = some (path, b)) :
    ∃ span, item = .requireBinding b path span := by
  cases item
  case requireBinding b' path' span =>
    cases requires
    exact ⟨span, rfl⟩
  all_goals cases requires

namespace Placed

variable {σ : Naming} {options : Options} {hints : Hints} {ns : List Node}
    (h : r.Placed σ options hints ns)
include h

theorem isMade_body {e : Priority × Item} (among : e ∈ r.body) : e.2.isMade = false := by
  rw [h.body] at among
  obtain ⟨n, -, inPlace⟩ := List.mem_flatMap.mp among
  exact (Node.mem_inPlace inPlace).2.isMade

theorem mem_top_or_passesOn {e : Priority × Item} (among : e ∈ r.queue) :
    e ∈ r.top ∨ e.2.PassesOn none := by
  simp only [queue, List.mem_append] at among
  rcases among with ((header | top) | body) | footer
  · exact .inr (passesOn_header header)
  · exact .inl top
  · exact .inr (Item.passesOn_of_isMade (h.isMade_body body))
  · exact .inr (passesOn_footer footer)

theorem mem_top_of_module? {item : Item} (among : item ∈ r.items) {b : String}
    (reads : item.module? = some b) :
    ∃ e ∈ r.top, e.2 = item := by
  obtain ⟨i, found⟩ := List.mem_iff_getElem?.mp among
  rcases getElem?_items found with ⟨e, arranged, rfl⟩ | ⟨entry, -, rfl⟩
  · have queued : e ∈ r.queue := (arrange_perm _).mem_iff.mp (List.mem_of_getElem? arranged)
    rcases h.mem_top_or_passesOn queued with front | passes
    · exact ⟨e, front, rfl⟩
    · rw [passes.source] at reads
      cases reads
  · cases reads

theorem filterMap_queue {α : Type} {f : Priority × Item → Option α}
    (silent : ∀ e, e.2.PassesOn none → f e = none) :
    r.queue.filterMap f = r.top.filterMap f := by
  have nothing {l : List (Priority × Item)} (passes : ∀ e ∈ l, e.2.PassesOn none) :
      l.filterMap f = [] :=
    List.filterMap_eq_nil_iff.mpr fun e among => silent e (passes e among)
  have body : r.body.filterMap f = [] :=
    nothing fun e among => Item.passesOn_of_isMade (h.isMade_body among)
  simp only [queue, List.filterMap_append, nothing fun e => passesOn_header,
    nothing fun e => passesOn_footer, body, List.nil_append, List.append_nil]

theorem filterMap_unarranged {α : Type} {f : Item → Option α}
    (silent : ∀ item : Item, item.PassesOn none → f item = none) :
    r.unarranged.filterMap f = r.top.filterMap fun e => f e.2 := by
  have helpers : r.helperItems.filterMap f = [] := by
    rw [helperItems, List.filterMap_map]
    exact List.filterMap_eq_nil_iff.mpr fun entry _ => silent _ ⟨rfl, rfl, rfl⟩
  rw [unarranged, List.filterMap_append, List.filterMap_map, helpers, List.append_nil]
  exact h.filterMap_queue fun e passes => silent e.2 passes

theorem required_items {base : TakenNames} {own bound : String → Prop}
    (sound : r.Sound base own bound) :
    (r.items.filterMap Item.required?).Perm r.requires.entries := by
  have perm := r.items_perm.filterMap Item.required?
  rwa [h.filterMap_unarranged fun item passes => required?_of_loaded? passes.loaded, sound.required]
    at perm

end Placed

namespace Sound

variable {base : TakenNames} {own bound : String → Prop}

theorem apart (h : r.Sound base own bound) :
    ∀ p ∈ r.requires.entries.map Prod.fst, ∀ q ∈ r.requires.entries.map Prod.fst, r.naming.ofPath
      p = r.naming.ofPath q → p = q := by
  intro p here q there same
  have distinct := (List.nodup_append'.mp h.nodup_names).1
  have first := h.mem_requires.mpr ⟨here, rfl⟩
  have second := h.mem_requires.mpr ⟨there, rfl⟩
  exact congrArg Prod.fst (List.inj_on_of_nodup_map distinct first second same)

end Sound

section Unhinted
variable {σ : Naming} {options : Options} {ns : List Node} (h : r.Placed σ options .none ns)
include h

theorem Placed.ordinary_top {e : Priority × Item} (among : e ∈ r.top) :
    e.1 = Priority.ordinary := by
  rcases h.mem_top.mp among with ⟨l₁, n, l₂, -, opening | ⟨item, -, rfl⟩⟩ | ⟨path, imported, here⟩
  · obtain ⟨path, -, -, rfl⟩ := Node.mem_opening.mp opening
    rfl
  · rfl
  · have group : (ImportGroup.of .none ns path).priority = Priority.ordinary := by
      rw [Node.priority_of, Node.importPriority_none]
    rcases ImportGroup.mem_top_emission.mp here with ⟨-, rfl⟩ | ⟨-, -, rfl⟩ | ⟨s, -, value, -, rfl⟩
    · rfl
    · exact group
    · exact group

theorem Placed.ordinary_body {e : Priority × Item} (among : e ∈ r.body) :
    e.1 = Priority.ordinary := by
  rw [h.body] at among
  obtain ⟨n, -, inPlace⟩ := List.mem_flatMap.mp among
  exact (Node.mem_inPlace inPlace).1.elim id id

theorem Placed.ordinary_rest {e : Priority × Item} (among : e ∈ r.top ++ (r.body ++ r.footer)) :
    e.1 = Priority.ordinary := by
  simp only [List.mem_append] at among
  rcases among with top | body | last
  · exact h.ordinary_top top
  · exact h.ordinary_body body
  · rw [footer_cases last]

theorem Placed.items_eq : r.items = r.unarranged := by
  have falling : r.queue.Pairwise fun a b => b.1 ≤ a.1 := by
    have split : r.queue = r.header ++ (r.top ++ (r.body ++ r.footer)) := by simp [queue]
    rw [split, List.pairwise_append]
    -- Only the header has priorities of its own, and they are the greatest.
    refine ⟨?_, List.pairwise_of_forall_mem_list fun a first b second => ?_,
      fun a first b second => ?_⟩
    · unfold header
      split <;> split <;> simp [Priority.moduleFlag, Priority.predeclaration]
    · rw [h.ordinary_rest first, h.ordinary_rest second]
    · rw [h.ordinary_rest second]
      rcases header_cases first with rfl | rfl
      · exact (by decide : Priority.ordinary ≤ Priority.moduleFlag)
      · exact (by decide : Priority.ordinary ≤ Priority.predeclaration)
  rw [items_eq_append, ← queue, arrange_of_falling falling]
  rfl

end Unhinted

end Draft

end ModuleLowering
