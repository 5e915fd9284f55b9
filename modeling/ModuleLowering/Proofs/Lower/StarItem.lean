import ModuleLowering.Proofs.Lower.ExportMark
import ModuleLowering.Proofs.Lower.Layout

/-!
The statements of a lowered module that pass on all exports of another one. Each comes behind the
statement that loads the module, unless that has been given too small a priority, and the module is
marked as made from exports.
-/

set_option autoImplicit false

namespace ModuleLowering

def Item.star? : Item → Option String
  | .exportStar binding _ => some binding
  | _ => none

def Item.getter? : Item → Option String
  | .exportGetter name _ => some name
  | _ => none

theorem Item.isFront_of_isPreamble {item : Item} (preamble : item.isPreamble = true) :
    item.isFront = false ∧ item.isMade = true := by
  cases item
  case moduleFlag | predeclaration => exact ⟨rfl, rfl⟩
  all_goals cases preamble

namespace Node

theorem isValueExport_of_starPath? {n : Node} {path : String} (star : n.starPath? = some path) :
    n.isValueExport = true := by
  unfold starPath? at star
  split at star
  · rfl
  · cases star

theorem passedPath?_of_starPath? {n : Node} {path : String} (star : n.starPath? = some path) :
    n.passedPath? = some path := by
  unfold starPath? at star
  split at star
  · split at star
    · exact star
    · cases star
  · cases star

theorem star?_defaultAhead (d : Node) : d.defaultAhead.filterMap Item.star? = [] := by
  unfold defaultAhead
  split
  · split <;> rfl
  · rfl

theorem star?_declarationAhead (d : Node) : d.declarationAhead.filterMap Item.star? = [] := by
  unfold declarationAhead
  split
  · refine List.filterMap_eq_nil_iff.mpr fun item among => ?_
    obtain ⟨_, _, rfl⟩ := List.mem_map.mp among
    rfl
  · rfl

theorem star?_ahead (σ : Naming) (isStrict : Bool) (n : Node) :
    (n.ahead σ isStrict).filterMap Item.star? = n.starPath?.toList.map σ.ofPath := by
  unfold ahead
  split
  · split
    · rfl
    · exact star?_defaultAhead _
  · split
    · rfl
    · exact star?_declarationAhead _
  · refine List.filterMap_eq_nil_iff.mpr fun item among => ?_
    obtain ⟨specifier, _, passed⟩ := List.mem_filterMap.mp among
    unfold passedItem? at passed
    split at passed
    · cases passed
      rfl
    · cases passed
  · simp only [passedAll, starPath?]
    split <;> rfl
  · next other =>
    rw [starPath?.eq_2 n other]
    rfl

theorem star?_emissions (σ : Naming) (isStrict : Bool) (hints : Hints) (before ns : List Node) :
    (emissions σ isStrict hints before ns).top.filterMap (·.2.star?) = (ns.filterMap starPath?).map
      σ.ofPath := by
  induction ns generalizing before with
  | nil => rfl
  | cons n ns ih =>
    have opening : (n.opening σ hints before).top.filterMap (·.2.star?) = [] := by
      unfold opening Emission.required
      split
      · split <;> rfl
      · rfl
    have ahead : ((n.ahead σ isStrict).map (Priority.ordinary, ·)).filterMap (·.2.star?) =
      n.starPath?.toList.map σ.ofPath := by
      rw [List.filterMap_map]
      exact star?_ahead σ isStrict n
    have first : (n :: ns).filterMap starPath? = n.starPath?.toList ++ ns.filterMap starPath? := by
      rw [List.filterMap_cons]
      cases n.starPath? <;> rfl
    simp only [emissions, emission, Emission.top_append, List.filterMap_append, opening, ahead, ih,
      first, List.map_append, List.nil_append]

end Node

namespace Draft

variable {r : Draft} {options : Options} {hints : Hints} {ns : List Node}

theorem Placed.star?_top {σ : Naming} (h : r.Placed σ options hints ns) :
    r.top.filterMap (·.2.star?) = (ns.filterMap Node.starPath?).map σ.ofPath := by
  have groups (paths : List String) : (paths.flatMap fun path =>
      (Node.groupEmission σ options.strict hints ns path).top).filterMap (·.2.star?) = [] := by
    refine List.filterMap_eq_nil_iff.mpr fun e among => ?_
    obtain ⟨path, -, here⟩ := List.mem_flatMap.mp among
    rcases ImportGroup.mem_top_emission.mp here with ⟨-, rfl⟩ | ⟨-, -, rfl⟩
      | ⟨s, -, value, -, rfl⟩ <;> rfl
  rw [h.top, List.filterMap_append, groups, List.append_nil, Node.star?_emissions]

theorem Placed.star?_items {σ : Naming} (h : r.Placed σ options hints ns) :
    (r.items.filterMap Item.star?).Perm ((ns.filterMap Node.starPath?).map σ.ofPath) := by
  have nothing {l : List (Priority × Item)} (silent : ∀ e ∈ l, e.2.star? = none) :
      (l.map Prod.snd).filterMap Item.star? = [] := by
    rw [List.filterMap_map]
    exact List.filterMap_eq_nil_iff.mpr silent
  have header : (r.header.map Prod.snd).filterMap Item.star? = [] := nothing fun e among => by
    rcases header_cases among with rfl | rfl <;> rfl
  have footer : (r.footer.map Prod.snd).filterMap Item.star? = [] := nothing fun e among => by
    rw [footer_cases among]
    rfl
  have body : (r.body.map Prod.snd).filterMap Item.star? = [] := nothing fun e among => by
    have own := h.isMade_body among
    cases item : e.2
    case exportStar =>
      rw [item] at own
      cases own
    all_goals rfl
  have helpers : r.helperItems.filterMap Item.star? = [] := by
    rw [helperItems, List.filterMap_map]
    exact List.filterMap_eq_nil_iff.mpr fun _ _ => rfl
  have top : (r.top.map Prod.snd).filterMap Item.star? = (ns.filterMap Node.starPath?).map
    σ.ofPath := by
    rw [List.filterMap_map]
    exact h.star?_top
  refine (r.items_perm.filterMap Item.star?).trans (.of_eq ?_)
  simp only [unarranged, queue, List.map_append, List.filterMap_append, header, footer, body,
    helpers, top, List.nil_append, List.append_nil]

theorem Placed.ordinary_of_passing {σ : Naming} (h : r.Placed σ options hints ns)
    {e : Priority × Item} (queued : e ∈ r.queue)
    (passing : e.2.star? ≠ none ∨ e.2.getter? ≠ none) : e.1 = Priority.ordinary := by
  obtain ⟨p, item⟩ := e
  have top : (p, item) ∈ r.top := by
    refine (h.mem_top_or_passesOn queued).resolve_right fun passes => ?_
    have none := passes.source
    cases item
    case exportStar | exportGetter => cases none
    all_goals exact passing.elim (· rfl) (· rfl)
  rcases h.mem_top.mp top with ⟨l₁, n, l₂, -, opening | ⟨item, -, eq⟩⟩ | ⟨path, -, here⟩
  · obtain ⟨path, -, -, eq⟩ := Node.mem_opening.mp opening
    cases eq
    exact passing.elim (absurd rfl) (absurd rfl)
  · cases eq
    rfl
  · rcases ImportGroup.mem_top_emission.mp here with ⟨-, eq⟩ | ⟨-, -, eq⟩ | ⟨s, -, value, -, eq⟩
    all_goals
      cases eq
      exact passing.elim (absurd rfl) (absurd rfl)

theorem Placed.le_of_isPreamble {σ : Naming} (h : r.Placed σ options hints ns)
    {e : Priority × Item} (queued : e ∈ r.queue) (preamble : e.2.isPreamble = true) :
    Priority.predeclaration ≤ e.1 := by
  have behind := Item.isFront_of_isPreamble preamble
  simp only [queue, List.mem_append] at queued
  rcases queued with ((header | top) | body) | footer
  · rcases header_cases header with rfl | rfl
    · exact Nat.le_succ 2
    · exact Nat.le_refl 2
  · rw [h.isFront_top (List.mem_map_of_mem top)] at behind
    cases behind.1
  · rw [h.isMade_body body] at behind
    cases behind.2
  · rw [footer_cases footer] at preamble
    cases preamble

/-- What is set early comes before every statement that passes on what another module exports. -/
theorem Placed.preamble_first {σ : Naming} (h : r.Placed σ options hints ns)
    {before after : List Item} {item other : Item} (split : r.items = before ++ item :: after)
    (preamble : item.isPreamble = true) (sooner : other ∈ before) :
    other.star? = none ∧ other.getter? = none := by
  by_contra passing
  have passes : other.star? ≠ none ∨ other.getter? ≠ none := not_and_or.mp passing
  obtain ⟨j, found⟩ := List.mem_iff_getElem?.mp sooner
  have lt : j < before.length := (List.getElem?_eq_some_iff.mp found).1
  have first : r.items[j]? = some other := by rw [split, List.getElem?_append_left lt, found]
  have second : r.items[before.length]? = some item := by
    rw [split, List.getElem?_append_right (Nat.le_refl _), Nat.sub_self]
    rfl
  rcases getElem?_items first with ⟨e, here, rfl⟩ | ⟨entry, -, rfl⟩
  · rcases getElem?_items second with ⟨e', there, rfl⟩ | ⟨entry, -, rfl⟩
    · have queued {i : Nat} {e : Priority × Item} (found : (arrange r.queue)[i]? = some e) :
          e ∈ r.queue :=
        (arrange_perm _).mem_iff.mp (List.mem_of_getElem? found)
      have falls : e'.1 ≤ e.1 := by
        simpa using (arrange_falling r.queue).sublist (pair_sublist_of_lt here there lt)
      have high := h.le_of_isPreamble (queued there) preamble
      rw [h.ordinary_of_passing (queued here) passes] at falls
      exact absurd (Nat.le_trans high falls) (by decide)
    · cases preamble
  · exact passes.elim (absurd rfl) (absurd rfl)

section
variable {base : TakenNames} {own bound : String → Prop} (sound : r.Sound base own bound)
  (placed : r.Placed r.naming options hints ns)
include sound placed

theorem Placed.mem_requires_of_mem_items {b path : String} {span : Option Span}
    (among : .requireBinding b path span ∈ r.items) : (path, b) ∈ r.requires.entries :=
  (placed.required_items sound).mem_iff.mp (List.mem_filterMap.mpr ⟨_, among, rfl⟩)

theorem Placed.exists_require_before
    (early : ∀ path ∈ ns.filterMap Node.starPath?, Priority.ordinary ≤ Node.requirePriority hints ns
    path) {before after : List Item} {b : String} {span : Option Span} (split :
    r.items = before ++ .exportStar b span :: after) :
    ∃ path span', .requireBinding b path span' ∈ before := by
  have reading : r.items[before.length]? = some (.exportStar b span) := by
    rw [split, List.getElem?_append_right (Nat.le_refl _), Nat.sub_self]
    rfl
  obtain ⟨j, path, span', requiring⟩ := placed.exists_requireBinding sound reading rfl
  have starred : path ∈ ns.filterMap Node.starPath? := by
    have star : b ∈ r.items.filterMap Item.star? :=
      List.mem_filterMap.mpr ⟨_, List.mem_of_getElem? reading, rfl⟩
    obtain ⟨path', named, rfl⟩ := List.mem_map.mp (placed.star?_items.mem_iff.mp star)
    obtain ⟨n, statement, starPath⟩ := List.mem_filterMap.mp named
    have passed := List.mem_filterMap.mpr ⟨n, statement, Node.passedPath?_of_starPath? starPath⟩
    obtain ⟨listed, same⟩ :=
      sound.mem_requires.mp (placed.mem_requires_of_mem_items sound
        (List.mem_of_getElem? requiring))
    rwa [sound.apart path listed path' (placed.mem_paths.mpr (.inl passed)) same]
  have first := (placed.lt_iff sound reading rfl requiring).mpr (early path starred)
  rw [split, List.getElem?_append_left first] at requiring
  exact ⟨path, span', List.mem_of_getElem? requiring⟩

end

theorem mem_items_of_hasExports (marked : r.hasExports = true) :
    .moduleFlag r.options.plainFlag ∈ r.items := by
  refine (r.items_perm.mem_iff).mpr (List.mem_append_left _ ?_)
  simp [queue, header, marked]

end Draft

end ModuleLowering
