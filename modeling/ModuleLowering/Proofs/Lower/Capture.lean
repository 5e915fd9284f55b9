import ModuleLowering.Proofs.Lower.Arrange
import ModuleLowering.Proofs.Lower.Draft
import ModuleLowering.Proofs.Lower.Run
import ModuleLowering.Proofs.Scope.Analysis
import ModuleLowering.Proofs.Scope.Rename

/-!
Made-up names are not captured. In a lowered module, each variable of a required module and each
helper is declared by one statement at the top, and by nothing else at any depth, so that whatever
stands for an import reaches what it should.
-/

set_option autoImplicit false

namespace ModuleLowering

theorem Helper.not_mem_localNames {h : Helper} {g : String} (head : g.toList.head? = some '_') :
    g ∉ h.localNames := by
  intro among
  cases h <;> simp only [localNames, List.mem_cons, List.not_mem_nil, or_false] at among
  · subst among
    revert head
    decide
  · rcases among with rfl | rfl | rfl | rfl <;> revert head <;> decide

theorem Item.introduces {item : Item} {kind : DeclarationKind} {g : String}
    (h : item.introduces? = some (kind, g)) (head : g.toList.head? = some '_') :
    item.toNode.Introduces kind g ∧ item.toNode.isUnresolved = true := by
  unfold introduces? at h
  split at h
  · next binding path span =>
    cases h
    exact ⟨Made.varDeclaration_introduces
      (by
      simp [Made.require, Made.call, Made.ident, Made.string, Node.made, Node.absent,
        Node.declaredNames, Node.declaredNamesOfParts, Form.declaredNames]) span,
      Made.isUnresolved_requireBinding _ path span⟩
  · next helper name =>
    cases h
    exact ⟨Helper.declare_introduces (Helper.not_mem_localNames head),
      helper.isUnresolved_declare _⟩
  · cases h

theorem Item.exists_split {items : List Item} {kind : DeclarationKind} {g : String}
    (only : ∀ item ∈ items, g ∈ item.declaredNames → ∃ kind, item.introduces? = some (kind, g))
    (distinct : ((items.filterMap introduces?).map Prod.snd).Nodup) {item : Item}
    (among : item ∈ items) (introduces : item.introduces? = some (kind, g)) :
    ∃ before after, items = before ++ item :: after ∧ ∀ other ∈ before ++ after,
      g ∉ other.declaredNames := by
  obtain ⟨before, after, rfl⟩ := List.append_of_mem among
  refine ⟨before, after, rfl, fun other listed declared => ?_⟩
  have elsewhere : other ∈ before ++ item :: after := by
    rcases List.mem_append.mp listed with early | late
    · exact List.mem_append_left _ early
    · exact List.mem_append_right _ (List.mem_cons_of_mem _ late)
  obtain ⟨kind', same⟩ := only other elsewhere declared
  have twice : g ∈ ((before ++ after).filterMap introduces?).map Prod.snd :=
    List.mem_map.mpr ⟨(kind', g), List.mem_filterMap.mpr ⟨other, listed, same⟩, rfl⟩
  have moved : (((before ++ item :: after).filterMap introduces?).map Prod.snd).Perm
      (g :: ((before ++ after).filterMap introduces?).map Prod.snd) := by
    refine ((List.perm_middle.filterMap introduces?).map Prod.snd).trans ?_
    rw [List.filterMap_cons_some introduces]
    exact .refl _
  exact (List.nodup_cons.mp (moved.nodup_iff.mp distinct)).1 twice

namespace Draft

def helperItems (r : Draft) : List Item :=
  r.helpers.map fun entry => .helperFunction entry.1 entry.2

theorem items_eq_append (r : Draft) :
    r.items = (arrange (r.header ++ r.top ++ r.body ++ r.footer)).map Prod.snd ++ r.helperItems :=
      rfl

variable {r : Draft}

theorem mem_items_cases {item : Item} (among : item ∈ r.items) :
    (∃ e, (e ∈ r.header ∨ e ∈ r.top ∨ e ∈ r.body ∨ e ∈ r.footer) ∧ e.2 = item) ∨
      item ∈ r.helperItems := by
  refine (List.mem_append.mp among).imp_left fun arranged => ?_
  obtain ⟨e, listed, rfl⟩ := List.mem_map.mp arranged
  exact ⟨e, by simpa [or_assoc] using (arrange_perm _).mem_iff.mp listed, rfl⟩

theorem header_cases {e : Priority × Item} (among : e ∈ r.header) :
    e = (Priority.moduleFlag, .moduleFlag r.options.plainFlag) ∨
      e = (Priority.predeclaration, .predeclaration r.predeclared.names) := by
  rcases List.mem_append.mp among with flag | early
  · split at flag
    · exact .inl (List.mem_singleton.mp flag)
    · cases flag
  · split at early
    · exact .inr (List.mem_singleton.mp early)
    · cases early

theorem footer_cases {e : Priority × Item} (among : e ∈ r.footer) :
    e = (Priority.ordinary, .defaultAlias) := by
  unfold footer at among
  split at among
  · exact List.mem_singleton.mp among
  · cases among

end Draft

namespace Draft.Sound

variable {base : TakenNames} {own bound : String → Prop} {r : Draft}

theorem nodup_names (h : r.Sound base own bound) :
    (r.requires.entries.map Prod.snd ++ r.helpers.map Prod.snd).Nodup := by
  obtain ⟨gs, generates, perm⟩ := h.generated
  exact perm.nodup_iff.mp generates.nodup

theorem fresh (h : r.Sound base own bound) {g : String}
    (among : g ∈ r.requires.entries.map Prod.snd ++ r.helpers.map Prod.snd) :
    g ∉ base.names ∧ g.toList.head? = some '_' := by
  obtain ⟨gs, generates, perm⟩ := h.generated
  exact ⟨generates.fresh g (perm.mem_iff.mpr among), generates.head g (perm.mem_iff.mpr among)⟩

theorem top_cases (h : r.Sound base own bound) {e : Priority × Item} (among : e ∈ r.top) :
    e.2.Quiet own ∨ ∃ binding path span, e.2 = .requireBinding binding path span := by
  cases missing : e.2.required? with
  | none => exact .inl (h.top e among missing)
  | some entry =>
    unfold Item.required? at missing
    split at missing
    · next binding path span eq => exact .inr ⟨binding, path, span, eq⟩
    · cases missing

theorem quiet_header (own : String → Prop) {e : Priority × Item} (among : e ∈ r.header) :
    e.2.Quiet own := by
  rcases header_cases among with rfl | rfl
  all_goals exact ⟨rfl, by simp [Item.declaredNames], rfl⟩

theorem quiet_footer (own : String → Prop) {e : Priority × Item} (among : e ∈ r.footer) :
    e.2.Quiet own := by
  rw [footer_cases among]
  exact ⟨rfl, by simp [Item.declaredNames], rfl⟩

theorem items_cases (h : r.Sound base own bound) {item : Item} (among : item ∈ r.items) :
    item.Quiet own ∨ (∃ binding path span, item = .requireBinding binding path span) ∨
      ∃ which name, item = .helperFunction which name := by
  rcases mem_items_cases among with ⟨e, header | top | body | footer, rfl⟩ | helper
  · exact .inl (quiet_header own header)
  · exact (h.top_cases top).imp id .inl
  · exact .inl (h.body e body)
  · exact .inl (quiet_footer own footer)
  · obtain ⟨⟨which, name⟩, _, rfl⟩ := List.mem_map.mp helper
    exact .inr (.inr ⟨which, name, rfl⟩)

theorem introduces?_top (h : r.Sound base own bound) :
    ((r.top.map Prod.snd).filterMap Item.introduces?).map Prod.snd = r.requires.entries.map
      Prod.snd := by
  rw [← h.required, List.map_filterMap, List.filterMap_map, List.map_filterMap]
  refine List.filterMap_congr fun e among => ?_
  rcases h.top_cases among with quiet | ⟨binding, path, span, eq⟩
  · rw [Function.comp_apply, quiet.introduces, quiet.required]
    rfl
  · rw [Function.comp_apply, eq]
    rfl

theorem introduces?_items (h : r.Sound base own bound) :
    ((r.items.filterMap Item.introduces?).map Prod.snd).Perm
      (r.requires.entries.map Prod.snd ++ r.helpers.map Prod.snd) := by
  have silent {l : List (Priority × Item)} (quiet : ∀ e ∈ l, e.2.introduces? = none) :
      (l.map Prod.snd).filterMap Item.introduces? = [] := by
    rw [List.filterMap_map, List.filterMap_eq_nil_iff]
    exact quiet
  have helpers : (r.helperItems.filterMap Item.introduces?).map Prod.snd = r.helpers.map
    Prod.snd := by
    unfold helperItems
    induction r.helpers with
    | nil => rfl
    | cons entry rest ih => simpa [Item.introduces?] using ih
  simp only [items_eq_append, List.filterMap_append, List.map_append, helpers]
  refine List.Perm.append_right _
    (((((arrange_perm _).map Prod.snd).filterMap Item.introduces?).map Prod.snd).trans ?_)
  simp only [List.map_append, List.filterMap_append, silent fun e among =>
    (quiet_header own among).introduces, silent fun e among => (quiet_footer own among).introduces,
      silent fun e among => (h.body e among).introduces,
    h.introduces?_top, List.nil_append, List.append_nil]
  exact .refl _

theorem mem_items {e : Priority × Item} (among : e ∈ r.header ++ r.top ++ r.body ++ r.footer) :
    e.2 ∈ r.items :=
  List.mem_append_left _ (List.mem_map_of_mem ((arrange_perm _).mem_iff.mpr among))

theorem exists_requireBinding (h : r.Sound base own bound) {path g : String}
    (among : (path, g) ∈ r.requires.entries) :
    ∃ span, Item.requireBinding g path span ∈ r.items := by
  rw [← h.required] at among
  obtain ⟨e, listed, read⟩ := List.mem_filterMap.mp among
  have item :=
    mem_items (List.mem_append_left _ (List.mem_append_left _ (List.mem_append_right _ listed)))
  unfold Item.required? at read
  split at read
  · next span eq =>
    cases read
    exact ⟨span, eq ▸ item⟩
  · cases read

theorem only_introducer (h : r.Sound base own bound) {g : String} (foreign : ¬ own g)
    (head : g.toList.head? = some '_') {item : Item} (among : item ∈ r.items)
    (declared : g ∈ item.declaredNames) :
    ∃ kind, item.introduces? = some (kind, g) := by
  rcases h.items_cases among with quiet | ⟨binding, path, span, rfl⟩ | ⟨which, name, rfl⟩
  · exact absurd (quiet.declared g declared) foreign
  · exact ⟨.varName, by rw [List.mem_singleton.mp declared]; rfl⟩
  · rcases List.mem_cons.mp declared with rfl | inside
    · exact ⟨.function, rfl⟩
    · exact absurd inside (Helper.not_mem_localNames head)

theorem isWellFormed_items (h : r.Sound base own bound) {item : Item} (among : item ∈ r.items) :
    item.isWellFormed = true := by
  rcases h.items_cases among with quiet | ⟨binding, path, span, rfl⟩ | ⟨which, name, rfl⟩
  · exact quiet.wellFormed
  · rfl
  · rfl

end Draft.Sound

theorem Node.exists_binder_of_specifier {f : Form} {s : Option Span} {ps : List Node}
    (wellFormed : (mk f s ps).isWellFormed = true) {specifier : Specifier}
    (read : (mk f s ps).specifier? = some specifier) :
    f.isSpecifier = true ∧ ∃ b ∈ ps, ∃ symbol, b.form = .binder specifier.name symbol := by
  have fits := (isWellFormed_mk.mp wellFormed).1
  unfold specifier? at read
  split at read
  case h_4 => cases read
  all_goals
    next eq =>
    obtain ⟨rfl, -, rfl⟩ := mk.inj eq
    obtain ⟨x, symbol, s, qs, rfl⟩ := exists_of_isBinder fits
    cases read
    exact ⟨rfl, .mk (.binder x symbol) s qs, by simp, symbol, rfl⟩

theorem Node.exists_binder_of_imported {n : Node} (wellFormed : n.isWellFormed = true) {x : String}
    (imported : x ∈ n.importedNames) :
    (∃ isType hasClause source, n.form = .importDecl isType hasClause source) ∧
      ∃ p ∈ n.parts, p.form.isSpecifier = true ∧ ∃ b ∈ p.parts, ∃ symbol, b.form = .binder
      x symbol := by
  unfold importedNames at imported
  split at imported
  · next parts =>
    obtain ⟨specifier, listed, rfl⟩ := List.mem_map.mp imported
    obtain ⟨p, among, read⟩ := List.mem_filterMap.mp listed
    have among := List.dropLast_subset parts among
    have fine := (isWellFormed_mk.mp wellFormed).2 p among
    obtain ⟨f, s, ps⟩ := p
    exact ⟨⟨_, _, _, rfl⟩, _, among, exists_binder_of_specifier fine read⟩
  · cases imported

theorem Node.mem_declaredNames_of_mem {f : Form} {s : Option Span} {ps : List Node} {outer : Bool}
    {p : Node} {x : String} (among : p ∈ ps) (declares : ∀ i, f.declaresIn outer i = true)
    (declared : x ∈ p.declaredNames true) :
    x ∈ (mk f s ps).declaredNames outer := by
  obtain ⟨j, found⟩ := List.getElem?_of_mem among
  exact List.mem_append_right _ ((mem_declaredNamesOfParts 0).mpr ⟨j, p, found, by rwa [declares]⟩)

theorem Node.declaredNames_of_imported {n : Node} (wellFormed : n.isWellFormed = true) {x : String}
    (imported : x ∈ n.importedNames) : x ∈ n.declaredNames false := by
  obtain ⟨⟨isType, hasClause, source, form⟩, p, among, specifier, b, inside, symbol, binder⟩ :=
    exists_binder_of_imported wellFormed imported
  obtain ⟨f, s, ps⟩ := n
  obtain ⟨g, s', qs⟩ := p
  obtain ⟨h, s'', rs⟩ := b
  cases form
  cases binder
  refine mem_declaredNames_of_mem among (fun _ => rfl)
    (mem_declaredNames_of_mem inside (fun i => ?_) ?_)
  · cases g
    case importNamed isType => cases isType <;> rfl
    all_goals first | cases specifier; done | rfl
  · simp [declaredNames, Form.declaredNames]

namespace Module

variable {m : Module}

theorem mem_renamed_statements {n' : Node} (among : n' ∈ m.renamed.statements) :
    ∃ n ∈ m.statements, n' = n ∨ n' = n.rename m.newNames := by
  unfold renamed at among
  split at among
  · exact ⟨n', among, .inl rfl⟩
  · rw [statements_rename] at among
    obtain ⟨n, listed, rfl⟩ := List.mem_map.mp among
    exact ⟨n, listed, .inr rfl⟩

/-- The names of a module, before and after its own `module`, `exports` and `require` are renamed,
and the one that passing on a whole module declares inside. -/
def OwnName (m : Module) (x : String) : Prop :=
  x ∈ m.scopes.symbolNames ∨ x ∈ m.newNames.entries.map Prod.snd ∨ x = "key"

theorem Consistent.owned (h : m.Consistent) {n : Node} (among : n ∈ m.renamed.statements) :
    n.Owned m.OwnName m.OwnName := by
  obtain ⟨original, listed, same | renamed⟩ := mem_renamed_statements among
  · subst same
    have declared : ∀ x ∈ n.declaredNames false, m.OwnName x :=
      fun x here => .inl (h.declared n listed x here)
    have fine := h.wellFormed n listed
    exact ⟨declared, fine, fun x imported => declared x
      (Node.declaredNames_of_imported fine imported)⟩
  · subst renamed
    have declared : ∀ x ∈ (original.rename m.newNames).declaredNames false, m.OwnName x := by
      intro x here
      rcases Node.declaredNames_rename _ (h.wellFormed original listed) here with old | new
      · exact .inl (h.declared original listed x old)
      · exact .inr (.inl new)
    have fine : (original.rename m.newNames).isWellFormed = true :=
      (Node.isWellFormed_rename _ _).trans (h.wellFormed original listed)
    exact ⟨declared, fine, fun x imported => declared x
      (Node.declaredNames_of_imported fine imported)⟩

theorem Consistent.sound (h : m.Consistent) {options : Options} {hints : Hints} {r : Draft}
    (drafted : m.draft options hints = .ok r) : r.Sound m.namesTaken m.OwnName m.OwnName := by
  obtain ⟨r₀, scanned, rfl⟩ := exists_scan drafted
  have started := Draft.Sound.start options m.namesTaken m.OwnName m.OwnName
  exact (started.scan (.inr (.inr rfl)) (fun n among => h.owned among) scanned).lowerImports
    fun _ own => own

theorem Consistent.generates (h : m.Consistent) {options : Options} {hints : Hints} {r : Draft}
    (drafted : m.draft options hints = .ok r) :
    ∃ gs, TakenNames.Generates ⟨m.takenNames⟩ gs r.taken ∧
      gs.Perm (m.newNames.entries.map Prod.snd ++
      (r.requires.entries.map Prod.snd ++ r.helpers.map Prod.snd)) := by
  obtain ⟨gs, generates, perm⟩ := (h.sound drafted).generated
  exact ⟨_, (Renaming.choose_generates m.scopes runtimeNames ⟨m.takenNames⟩).trans generates,
    perm.append_left _⟩

theorem Consistent.foreign (h : m.Consistent) {options : Options} {hints : Hints} {r : Draft}
    (drafted : m.draft options hints = .ok r) {g : String}
    (among : g ∈ r.requires.entries.map Prod.snd ++ r.helpers.map Prod.snd) : ¬ m.OwnName g := by
  obtain ⟨gs, generates, perm⟩ := h.generates drafted
  have head : g.toList.head? = some '_' := ((h.sound drafted).fresh among).2
  rintro (symbol | new | rfl)
  · have fresh := generates.fresh g (perm.mem_iff.mpr (List.mem_append_right _ among))
    exact fresh (List.mem_append_left _ symbol)
  · exact (List.nodup_append'.mp (perm.nodup_iff.mp generates.nodup)).2.2 new among
  · revert head
    decide

theorem Consistent.lowered_program (h : m.Consistent) (r : Draft) :
    ∃ hashbang ds span, ∃ change : Nat → Node → Node,
      (m.lowered r).program = .mk (.program hashbang ds) span
        ((r.items.map Item.toNode).mapIdx change) ∧
      (∀ i n, n.isUnresolved = true → change i n = n) ∧
      ∀ i n, n.isWellFormed = true → ∀ x ∈ (change i n).declaredNames false,
      x ∈ n.declaredNames false := by
  obtain ⟨hashbang, ds, form⟩ := h.program
  refine ⟨hashbang, ds, m.renamed.program.span, ?_⟩
  simp only [lowered, makeLive_eq, assembled, withStatements, m.renamed_form form]
  split
  · have same : (r.items.map Item.toNode).mapIdx (fun _ n => n) = r.items.map Item.toNode :=
      List.ext_getElem? fun i => by simp [List.getElem?_mapIdx, Function.comp_def]
    exact ⟨fun _ n => n, by rw [same], fun _ _ _ => rfl, fun _ _ _ _ here => here⟩
  · let l : LiveBindings := ⟨m.renamed.scopes, r.redirects, r.exports⟩
    refine ⟨fun i n => l.liveAt ((Form.program hashbang ds).completes true
      (r.items.map Item.toNode).length i) .ordinary n, ?_, fun i n made => l.liveAt_of_isUnresolved
      made _ _, fun i n fine x here =>
      l.declaredNames_liveAt fine here⟩
    exact l.liveAt_other (by simp) (by simp) rfl true .ordinary

theorem Consistent.introduced (h : m.Consistent) {options : Options} {hints : Hints} {r : Draft}
    (drafted : m.draft options hints = .ok r) {item : Item} (among : item ∈ r.items)
    {kind : DeclarationKind} {g : String} (introduces : item.introduces? = some (kind, g)) :
    ∃ hashbang ds span before after,
      (m.lowered r).program = .mk (.program hashbang ds) span (before ++ item.toNode :: after) ∧
      g ∉ before.flatMap (Node.declaredNames false) ∧
      g ∉ after.flatMap (Node.declaredNames false) := by
  have sound := h.sound drafted
  have listed : g ∈ r.requires.entries.map Prod.snd ++ r.helpers.map Prod.snd :=
    sound.introduces?_items.mem_iff.mp
      (List.mem_map.mpr ⟨_, List.mem_filterMap.mpr ⟨item, among, introduces⟩, rfl⟩)
  have head := (sound.fresh listed).2
  obtain ⟨early, late, items, silent⟩ := Item.exists_split
    (fun item among => sound.only_introducer (h.foreign drafted listed) head among)
    (sound.introduces?_items.nodup_iff.mpr sound.nodup_names) among introduces
  obtain ⟨hashbang, ds, span, change, program, kept, shrunk⟩ := h.lowered_program r
  have absent {l : List Item} (part : ∀ item ∈ l, item ∈ r.items ∧ g ∉ item.declaredNames)
    (offset : Nat) :
      g ∉ ((l.map Item.toNode).mapIdx fun i => change (i + offset)).flatMap
        (Node.declaredNames false) := by
    simp only [List.mem_flatMap, List.mem_mapIdx, not_exists, not_and]
    rintro _ ⟨i, bound, rfl⟩ declared
    simp only [List.length_map] at bound
    obtain ⟨from_, quiet⟩ := part l[i] (List.getElem_mem bound)
    rw [List.getElem_map] at declared
    have inside :=
      shrunk _ _ ((Item.isWellFormed_toNode _).trans (sound.isWellFormed_items from_)) g declared
    rw [Item.declaredNames_toNode] at inside
    exact quiet inside
  refine ⟨hashbang, ds, span, (early.map Item.toNode).mapIdx fun i => change (i + 0),
    (late.map Item.toNode).mapIdx fun i => change (i + (early.length + 1)), ?_,
    absent ?_ 0, absent ?_ _⟩
  · have made := (Item.introduces introduces head).2
    rw [program, items, List.map_append, List.mapIdx_append, List.map_cons, List.mapIdx_cons,
      kept _ _ made]
    simp only [List.length_map, Nat.add_zero, Nat.add_assoc, Nat.add_comm 1]
  · exact fun other here => ⟨items ▸ List.mem_append_left _ here,
      silent other (List.mem_append_left _ here)⟩
  · exact fun other here => ⟨items ▸ List.mem_append_right _ (List.mem_cons_of_mem _ here),
      silent other (List.mem_append_right _ here)⟩

end Module

/-- Analysed anew, a program declares a name once and at its top, and every use of the name as a
value refers to that. -/
def Node.DeclaresOnce (program : Node) (kind : DeclarationKind) (g : String) : Prop :=
  ∀ isStrict, (Module.analyse isStrict program).scopes.DeclaresOnce kind g ∧
    ∀ ref ∈ (Module.analyse isStrict program).program.referencesTo g, ref = .symbol ⟨[], g⟩

theorem Module.analyse_referencesTo {program : Node} {isStrict : Bool} {kind : DeclarationKind}
    {g : String} (once : (analyse isStrict program).scopes.DeclaresOnce kind g)
    (serves : kind.serves .value = true) :
    ∀ ref ∈ (analyse isStrict program).program.referencesTo g, ref = .symbol ⟨[], g⟩ :=
  Node.referencesTo_resolve (fun _ root => once.lookup serves root) _ _ []
    (List.mem_singleton_self _) rfl

theorem Module.Consistent.declaresOnce {m : Module} (h : m.Consistent) {options : Options}
    {hints : Hints} {r : Draft} (drafted : m.draft options hints = .ok r) {item : Item}
    (among : item ∈ r.items) {kind : DeclarationKind} {g : String}
    (introduces : item.introduces? = some (kind, g)) :
    item.toNode ∈ (m.lowered r).statements ∧ (m.lowered r).program.DeclaresOnce kind g := by
  have sound := h.sound drafted
  have listed : g ∈ r.requires.entries.map Prod.snd ++ r.helpers.map Prod.snd :=
    sound.introduces?_items.mem_iff.mp
      (List.mem_map.mpr ⟨_, List.mem_filterMap.mpr ⟨item, among, introduces⟩, rfl⟩)
  have serves : kind.serves .value = true := by
    unfold Item.introduces? at introduces
    split at introduces <;> cases introduces <;> rfl
  obtain ⟨hashbang, ds, span, before, after, program, early, late⟩ :=
    h.introduced drafted among introduces
  refine ⟨by rw [Module.statements, program]; exact List.mem_append_right _ List.mem_cons_self,
    fun isStrict => ?_⟩
  have once : (Module.analyse isStrict (m.lowered r).program).scopes.DeclaresOnce kind g := by
    rw [program]
    exact Original.declaresOnce (s := ⟨isStrict, hashbang, ds, span, _⟩)
      (Item.introduces introduces (sound.fresh listed).2).1 rfl early late
  exact ⟨once, Module.analyse_referencesTo once serves⟩

structure GeneratedNames where
  /-- For what the module itself calls `module`, `exports` or `require`. -/
  replacements : List String
  requires : List (String × String)
  helpers : List (Helper × String)

def GeneratedNames.all (names : GeneratedNames) : List String :=
  names.replacements ++ (names.requires.map Prod.snd ++ names.helpers.map Prod.snd)

def Module.generatedNames (m : Module) (options : Options) (hints : Hints) : GeneratedNames :=
  if m.hasModuleSyntax then
    match m.draft options hints with
    | .ok r => ⟨m.newNames.entries.map Prod.snd, r.requires.entries, r.helpers⟩
    | .error _ => ⟨[], [], []⟩
  else ⟨[], [], []⟩

/-- Made-up names do not meet each other or a name of the module `m`, and those that the module
`lowered` uses, it declares once. -/
structure GeneratedNames.Fresh (names : GeneratedNames) (m lowered : Module) : Prop where
  distinct : names.all.Nodup
  undeclared : ∀ g ∈ names.all, g ∉ m.scopes.symbolNames
  unreferenced : ∀ g ∈ names.all, g ∉ m.program.unresolved
  onePerPath : (names.requires.map Prod.fst).Nodup
  onePerHelper : (names.helpers.map Prod.fst).Nodup
  requires : ∀ path g, (path, g) ∈ names.requires → lowered.program.DeclaresOnce .varName g ∧
    ∃ span, Made.varDeclaration g (Made.require path) span ∈ lowered.statements
  helpers : ∀ helper g, (helper, g) ∈ names.helpers → lowered.program.DeclaresOnce .function g ∧
    helper.declare g ∈ lowered.statements

/-- Whenever a module is lowered, the names made up for it are new, and each variable of a required
module and each helper is what its name refers to everywhere in the result. -/
theorem generated_names_resolve (s : Original) (wellFormed : s.program.isWellFormed = true)
    (options : Options) (hints : Hints) (run : s.Lowering options hints) :
    (s.analysed.generatedNames options hints).Fresh s.analysed run.lowered := by
  have consistent := Original.consistent wellFormed
  obtain ⟨outcome, lowered, success⟩ := run
  show (s.analysed.generatedNames options hints).Fresh s.analysed lowered
  generalize s.analysed = m at *
  rcases Module.lower_cases success with ⟨-, plain, -⟩ | ⟨r, -, hasSyntax, drafted, -, rfl⟩
  · rw [Module.generatedNames, plain]
    exact ⟨.nil, by simp [GeneratedNames.all], by simp [GeneratedNames.all], .nil, .nil, by
      simp, by simp⟩
  · rw [Module.generatedNames, hasSyntax, drafted]
    obtain ⟨gs, generates, perm⟩ := consistent.generates drafted
    have sound := consistent.sound drafted
    refine ⟨perm.nodup_iff.mp generates.nodup, fun g among symbol => ?_, fun g among name => ?_,
      sound.paths, (Module.calls_of_draft drafted).distinct, fun path g among => ?_,
      fun helper g among => ?_⟩
    · exact generates.fresh g (perm.mem_iff.mpr among) (List.mem_append_left _ symbol)
    · exact generates.fresh g (perm.mem_iff.mpr among) (List.mem_append_right _ name)
    · obtain ⟨span, listed⟩ := sound.exists_requireBinding among
      have declared := consistent.declaresOnce drafted listed rfl
      exact ⟨declared.2, span, declared.1⟩
    · have listed : Item.helperFunction helper g ∈ r.items :=
        List.mem_append_right _ (List.mem_map.mpr ⟨(helper, g), among, rfl⟩)
      have declared := consistent.declaresOnce drafted listed rfl
      exact ⟨declared.2, declared.1⟩

section Example

/-- `import d, { x } from "m"; let module = d; function f(_m) { return x; }` -/
def Node.shadowingStatements : List Node :=
  let name (x : String) := made (.binder x none) []
  [.made (.importDecl false false "m")
    [.made .importDefault [name "d"], .made (.importNamed false) [Made.word "x", name "x"],
    .absent],
   .made (.varDecl .blockScoped false)
   [.made (.declarator false) [name "module", .absent, Made.ident "d"]],
   .made (.function ⟨.declaration, false, false, false, false⟩)
    [name "f", .absent, .made .parameters [Made.parameter "_m"], .absent,
     .made (.body []) [.made .returnStmt [Made.ident "x"]]]]

def Module.shadowing : Module :=
  .analyse true (.mk (.program none []) none Node.shadowingStatements)

theorem generated_names_resolve_shadowing : ∃ outcome lowered,
    (Module.lower .default .none).run .shadowing = .ok outcome lowered ∧
      (Module.shadowing.generatedNames .default .none).Fresh .shadowing lowered :=
  ⟨_, _, rfl, generated_names_resolve ⟨true, none, [], none, Node.shadowingStatements⟩ (by decide)
    .default .none ⟨_, _, (rfl : (Module.lower .default .none).run .shadowing = _)⟩⟩

-- The parameter keeps `_m` from being made up.
example : (Module.shadowing.generatedNames .default .none).all =
    ["_module", "_m2", "_interopRequireDefault"] := by
  decide +kernel

end Example

end ModuleLowering
