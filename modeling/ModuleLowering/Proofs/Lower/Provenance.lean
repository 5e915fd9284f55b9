import ModuleLowering.Proofs.Lower.AlphaRenaming
import ModuleLowering.Proofs.Lower.FrontOrder

/-!
Where the statements of a lowered module come from: each holds the code of one statement of the
module, or is made up and declares nothing that the runtime has a name for.
-/

set_option autoImplicit false

namespace ModuleLowering

def Item.IsFree (item : Item) : Prop := ∀ x ∈ item.declaredNames, x ∉ runtimeNames

theorem not_mem_runtimeNames {g : String} (head : g.toList.head? = some '_') : g ∉ runtimeNames :=
  fun among => head_of_runtimeNames g among head

namespace Item.IsFree

theorem of_nil {item : Item} (none : item.declaredNames = []) : item.IsFree := by
  simp [Item.IsFree, none]

theorem of_singleton {item : Item} {x : String} (one : item.declaredNames = [x])
    (other : x ∉ runtimeNames) :
    item.IsFree := by simpa [Item.IsFree, one] using other

theorem helperFunction {name : String} (head : name.toList.head? = some '_') (which : Helper) :
    (Item.helperFunction which name).IsFree := by
  intro x among
  rcases List.mem_cons.mp among with rfl | inside
  · exact not_mem_runtimeNames head
  · have apart : ∀ y ∈ which.localNames, y ∉ runtimeNames := by cases which <;> decide
    exact apart x inside

end Item.IsFree

def Node.Imports (path : String) (s : Specifier) (n : Node) : Prop :=
  ∃ specifiers, n.imported? = some (path, specifiers) ∧ s ∈ specifiers

theorem Node.Imports.mem_importedNames {n : Node} {path : String} {s : Specifier}
    (h : n.Imports path s) :
    s.name ∈ n.importedNames := by
  obtain ⟨specifiers, imported, listed⟩ := h
  unfold imported? at imported
  split at imported
  · dsimp only at imported
    split at imported
    · cases imported
    · cases imported
      exact List.mem_map_of_mem listed
  · cases imported

theorem Specifier.object_redirect? {isStrict : Bool} {binding : String} {s : Specifier}
    {target : Redirect} (given : s.redirect? isStrict binding = some target) :
    target.object = binding := by
  cases s <;> simp only [redirect?] at given
  case default => cases given
  all_goals
    split at given
    all_goals
      cases given
      try rfl

namespace ImportGroup

variable {hints : Hints} {ns : List Node} {path : String}

theorem mem_specifiers_of {s : Specifier} : s ∈ (of hints ns path).specifiers ↔
    ∃ n ∈ ns, n.Imports path s := by
  unfold of ofRecords
  simp only [List.mem_flatMap, List.mem_filter, List.mem_filterMap, Node.importRecord?,
    Option.map_eq_some_iff]
  constructor
  · rintro ⟨_, ⟨⟨n, among, entry, imported, rfl⟩, same⟩, listed⟩
    obtain rfl : entry.1 = path := by simpa using same
    exact ⟨n, among, entry.2, imported, listed⟩
  · rintro ⟨n, among, specifiers, imported, listed⟩
    exact ⟨_, ⟨⟨n, among, (path, specifiers), imported, rfl⟩, by simp⟩, listed⟩

theorem mem_redirects_emission {σ : Naming} {isStrict : Bool} {known : List String}
    {group : ImportGroup} {entry : String × Redirect}
    (among : entry ∈ (group.emission σ isStrict known path).redirects) :
    ∃ s ∈ group.specifiers, entry.1 = s.name ∧ s.redirect? isStrict (σ.ofPath path) =
      some entry.2 := by
  unfold emission at among
  split at among
  · cases among
  · rw [Emission.redirects_append] at among
    rcases List.mem_append.mp among with required | bound
    · unfold Emission.required at required
      split at required <;> cases required
    · obtain ⟨s, listed, here⟩ := List.mem_flatMap.mp bound
      obtain ⟨target, given, rfl⟩ := List.mem_map.mp here
      exact ⟨s, mem_ordered.mp listed, rfl, Option.mem_toList.mp given⟩

end ImportGroup

namespace Draft

variable {r : Draft}

theorem items_cases {item : Item} (among : item ∈ r.items) :
    item ∈ r.content ∨ (∃ isPlain, item = .moduleFlag isPlain) ∨
      item = .predeclaration r.predeclared.names ∨
      item = .defaultAlias := by
  rcases mem_items_cases among with ⟨e, header | top | body | footer, rfl⟩ | helper
  · rcases header_cases header with rfl | rfl
    · exact .inr (.inl ⟨_, rfl⟩)
    · exact .inr (.inr (.inl rfl))
  · exact .inl (List.mem_append_left _ (List.mem_map_of_mem (List.mem_append_left _ top)))
  · exact .inl (List.mem_append_left _ (List.mem_map_of_mem (List.mem_append_right _ body)))
  · exact .inr (.inr (.inr (by rw [footer_cases footer])))
  · exact .inl (List.mem_append_right _ helper)

variable {base : TakenNames} {own bound : String → Prop}

theorem Sound.mem_requires (h : r.Sound base own bound) {path b : String} :
    (path, b) ∈ r.requires.entries ↔ path ∈ r.requires.entries.map Prod.fst ∧
      r.naming.ofPath path = b := by
  rw [← OrderedMap.get?_eq_some_iff h.paths]
  constructor
  · intro found
    exact ⟨List.mem_map_of_mem (OrderedMap.mem_of_get? found),
      (r.uses_naming.paths path b found).symm⟩
  · rintro ⟨listed, rfl⟩
    cases found : r.requires.get? path with
    | none => exact absurd listed (OrderedMap.get?_eq_none_iff.mp found)
    | some b => rw [r.uses_naming.paths path b found]

namespace Placed

variable {options : Options} {hints : Hints} {ns : List Node}

theorem gives {σ : Naming} (h : r.Placed σ options hints ns) {item : Item}
    (among : item ∈ r.items) :
    item.isMade = true ∨ ∃ n ∈ ns, n.Gives item := by
  rcases items_cases among with inside | ⟨isPlain, rfl⟩ | rfl | rfl
  · rcases List.mem_append.mp inside with listed | helper
    · obtain ⟨e, member, rfl⟩ := List.mem_map.mp listed
      rcases List.mem_append.mp member with top | body
      · rcases h.mem_top.mp top with ⟨l₁, n, l₂, rfl, opening | ⟨item, ahead, rfl⟩⟩
          | ⟨path, -, here⟩
        · obtain ⟨path, -, -, rfl⟩ := Node.mem_opening.mp opening
          exact .inl rfl
        · exact (Node.gives_of_ahead ahead).imp_right fun gives => ⟨n, by simp, gives⟩
        · rcases ImportGroup.mem_top_emission.mp here with ⟨-, rfl⟩ | ⟨-, -, rfl⟩
            | ⟨s, -, value, -, rfl⟩
          all_goals exact .inl rfl
      · rw [h.body] at body
        obtain ⟨n, source, inPlace⟩ := List.mem_flatMap.mp body
        exact .inr ⟨n, source, (Node.mem_inPlace inPlace).2⟩
    · obtain ⟨entry, -, rfl⟩ := List.mem_map.mp helper
      exact .inl rfl
  all_goals exact .inl rfl

section
variable (h : r.Placed r.naming options hints ns) (sound : r.Sound base own bound)
include h sound

theorem exists_of_redirected {e : String × Redirect} (among : e ∈ r.redirects.entries) :
    ∃ path, (path, e.2.object) ∈ r.requires.entries := by
  obtain ⟨path, imported, here⟩ := h.mem_redirects among
  obtain ⟨s, named, -, given⟩ := ImportGroup.mem_redirects_emission here
  refine ⟨path, sound.mem_requires.mpr ⟨h.mem_paths.mpr (.inr ⟨imported, List.ne_nil_of_mem named⟩),
    ?_⟩⟩
  exact (Specifier.object_redirect? given).symm

/-- No made-up statement declares a name of the runtime, unless one is imported. -/
theorem isFree (imports : ∀ n ∈ ns, ∀ x ∈ n.importedNames, x ∉ runtimeNames) {item : Item}
    (among : item ∈ r.items) (made : item.isMade = true) : item.IsFree := by
  -- The flag, the predeclaration and the alias are expressions without functions, so that they
  -- declare nothing.
  have inside : item ∈ r.content ∨ item.declaredNames = [] := by
    rcases items_cases among with inside | ⟨isPlain, rfl⟩ | rfl | rfl
    · exact .inl inside
    all_goals exact .inr rfl
  rcases inside with inside | none
  · rcases List.mem_append.mp inside with listed | helper
    · obtain ⟨e, member, rfl⟩ := List.mem_map.mp listed
      rcases List.mem_append.mp member with top | body
      · have required {binding path : String} {span : Option Span}
          (eq : e.2 = .requireBinding binding path span) :
            e.2.IsFree := by
          have entry : (path, binding) ∈ r.requires.entries := by
            rw [← sound.required]
            exact List.mem_filterMap.mpr ⟨e, top, by rw [eq]; rfl⟩
          rw [eq]
          exact .of_singleton rfl
            (not_mem_runtimeNames (sound.fresh
            (List.mem_append_left _ (List.mem_map_of_mem entry))).2)
        rcases h.mem_top.mp top with ⟨l₁, n, l₂, -, opening | ⟨item, ahead, rfl⟩⟩ | ⟨path, -, here⟩
        · obtain ⟨path, -, -, rfl⟩ := Node.mem_opening.mp opening
          exact required rfl
        · cases Node.mem_ahead ahead with
          | getter => exact .of_nil rfl
          -- The function that is called on each of the other module's exports has a parameter.
          | star => exact .of_singleton rfl (by decide)
          | function | unnamed => cases made
        · rcases ImportGroup.mem_top_emission.mp here with ⟨-, rfl⟩ | ⟨-, -, rfl⟩
            | ⟨s, named, value, -, rfl⟩
          · exact .of_nil rfl
          · exact required rfl
          · obtain ⟨n, source, imported⟩ := ImportGroup.mem_specifiers_of.mp named
            exact .of_singleton rfl (imports n source _ imported.mem_importedNames)
      · rw [h.body] at body
        obtain ⟨n, -, inPlace⟩ := List.mem_flatMap.mp body
        rw [(Node.mem_inPlace inPlace).2.isMade] at made
        cases made
    · obtain ⟨entry, listed, rfl⟩ := List.mem_map.mp helper
      exact .helperFunction (sound.fresh (List.mem_append_right _ (List.mem_map_of_mem listed))).2 _
  · exact .of_nil none

end

end Placed

end Draft

namespace Module

variable {m : Module} {options : Options} {hints : Hints} {r : Draft}

theorem placed_of_draft (drafted : m.draft options hints = .ok r) :
    r.Placed r.naming options hints m.renamed.statements := by
  obtain ⟨r₀, scanned, rfl⟩ := exists_scan drafted
  exact Draft.placed scanned

theorem Consistent.isForeign (consistent : m.Consistent) (drafted : m.draft options hints = .ok r) :
    (m.liveBindings r).IsForeign := by
  intro e among
  obtain ⟨path, listed⟩ :=
    (placed_of_draft drafted).exists_of_redirected (consistent.sound drafted) among
  exact ((consistent.sound drafted).fresh (List.mem_append_left _ (List.mem_map_of_mem listed))).2

end Module

end ModuleLowering
