import ModuleLowering.Proofs.Lower.LoadOrder
import ModuleLowering.Proofs.Lower.Mention

/-!
The layout of a lowered module without hints. What is made up for its imports and exports stands in
front, its own statements follow in their order, and helpers come last. A module is required before
anything mentions its variable, but for a function that is set in front and mentions it inside.
-/

set_option autoImplicit false

namespace ModuleLowering

def Item.isHelper : Item → Bool
  | .helperFunction .. => true
  | _ => false

def Item.isFlag : Item → Bool
  | .moduleFlag _ => true
  | _ => false

theorem Item.eq_moduleFlag {item : Item} (flag : item.isFlag = true) :
    ∃ isPlain, item = .moduleFlag isPlain := by
  cases item
  case moduleFlag isPlain => exact ⟨isPlain, rfl⟩
  all_goals cases flag

structure Module.LaidOut (m : Module) (items : List Item) (statements : List Node) : Prop where
  flag : ∀ (i : Nat) (isPlain : Bool), items[i]? = some (.moduleFlag isPlain) → i = 0
  /-- Only the flag stands before the exports that are declared early. -/
  predeclared : ∀ (i : Nat) (names : List String), items[i]? = some (.predeclaration names) →
    (∀ j < i, ∃ isPlain, items[j]? = some (.moduleFlag isPlain)) ∧ names.Nodup ∧
      ∀ x, x ∈ names ↔ ∃ n ∈ m.renamed.statements, x ∈ n.lateNames
  required : ∀ (i j : Nat) (n : Node) (b path : String) (span : Option Span),
    items[j]? = some (.requireBinding b path span) → statements[i]? = some n →
    b ∈ n.mentionedNames Form.isFunction → j < i
  /-- What the module's statements leave in place stands together, each statement's part behind the
  one before. -/
  retained : ∃ before after, items = before ++
      m.renamed.statements.flatMap (fun n => (n.inPlace Priority.ordinary).map Prod.snd) ++ after ∧
    ∀ n, .kept n ∉ before ++ after
  aliased : ∀ (i j : Nat) (item : Item), items[i]? = some .defaultAlias → i < j →
    items[j]? = some item →
    item.isHelper = true
  helpers : ∀ (i j : Nat) (item item' : Item), items[i]? = some item →
    item.isHelper = true → i < j →
    items[j]? = some item' → item'.isHelper = true

section
variable {α : Type} {l₁ l₂ : List α} {i : Nat} {a : α}

theorem getElem?_of_not_mem_right (found : (l₁ ++ l₂)[i]? = some a) (absent : a ∉ l₂) :
    l₁[i]? = some a := by
  rw [List.getElem?_append] at found
  split at found
  · exact found
  · exact absurd (List.mem_of_getElem? found) absent

theorem le_of_not_mem_left (found : (l₁ ++ l₂)[i]? = some a) (absent : a ∉ l₁) : l₁.length ≤ i := by
  rw [List.getElem?_append] at found
  split at found
  · exact absurd (List.mem_of_getElem? found) absent
  · next outside => exact Nat.le_of_not_lt outside

theorem mem_of_le_left (found : (l₁ ++ l₂)[i]? = some a) (behind : l₁.length ≤ i) : a ∈ l₂ := by
  rw [List.getElem?_append_right behind] at found
  exact List.mem_of_getElem? found

end

def Item.isFront : Item → Bool
  | .requireBinding .. | .requireCall .. | .importVariable .. | .exportValue .. | .exportGetter ..
  | .exportStar .. => true
  | _ => false

namespace Draft

def flagItems (r : Draft) : List Item :=
  if r.hasExports then [.moduleFlag r.options.plainFlag] else []

/-- The early declaration of exports, if the module has imports and exports that are late. -/
def earlyItems (r : Draft) : List Item :=
  if r.hasImports && !r.predeclared.isEmpty then [.predeclaration r.predeclared.names] else []

theorem unarranged_eq (r : Draft) : r.unarranged = r.flagItems ++ r.earlyItems ++
    (r.top.map Prod.snd ++ (r.body.map Prod.snd ++ (r.footer.map Prod.snd ++ r.helperItems))) := by
  have header : r.header.map Prod.snd = r.flagItems ++ r.earlyItems := by
    unfold header flagItems earlyItems
    split <;> split <;> rfl
  simp only [unarranged, queue, List.map_append, header, List.append_assoc]

theorem unarranged_split (r : Draft) : r.unarranged =
    r.flagItems ++ r.earlyItems ++ (r.top.map Prod.snd ++ r.body.map Prod.snd) ++
      (r.footer.map Prod.snd ++ r.helperItems) := by
  simp only [unarranged_eq, List.append_assoc]

variable {r : Draft} {item : Item}

theorem mem_flagItems (among : item ∈ r.flagItems) : item = .moduleFlag r.options.plainFlag := by
  unfold flagItems at among
  split at among
  · exact List.mem_singleton.mp among
  · cases among

theorem mem_earlyItems (among : item ∈ r.earlyItems) :
    item = .predeclaration r.predeclared.names := by
  unfold earlyItems at among
  split at among
  · exact List.mem_singleton.mp among
  · cases among

theorem mentionedNames_header (among : item ∈ r.flagItems ++ r.earlyItems) :
    item.isMade = true ∧ item.mentionedNames ⊆ surroundingNames := by
  rcases List.mem_append.mp among with flag | early
  · rw [mem_flagItems flag]
    cases r.options.plainFlag <;> exact ⟨rfl, by decide⟩
  · rw [mem_earlyItems early]
    refine ⟨rfl, fun x mentioned => ?_⟩
    rcases List.mem_append.mp mentioned with chained | last
    · rw [List.eq_of_mem_replicate chained]
      decide
    · rw [List.mem_singleton.mp last]
      decide

theorem length_flagItems_le (r : Draft) : r.flagItems.length ≤ 1 := by
  unfold flagItems
  split <;> simp

theorem length_earlyItems_le (r : Draft) : r.earlyItems.length ≤ 1 := by
  unfold earlyItems
  split <;> simp

theorem mem_footerItems (among : item ∈ r.footer.map Prod.snd) : item = .defaultAlias := by
  obtain ⟨e, listed, rfl⟩ := List.mem_map.mp among
  rw [footer_cases listed]

theorem length_footer_le (r : Draft) : (r.footer.map Prod.snd).length ≤ 1 := by
  unfold footer
  split <;> simp

theorem mem_helperItems (among : item ∈ r.helperItems) : item.isHelper = true := by
  obtain ⟨entry, -, rfl⟩ := List.mem_map.mp among
  rfl

namespace Placed

variable {σ : Naming} {options : Options} {hints : Hints} {ns : List Node}
    (h : r.Placed σ options hints ns)
include h

theorem isFront_top (among : item ∈ r.top.map Prod.snd) : item.isFront = true := by
  obtain ⟨e, front, rfl⟩ := List.mem_map.mp among
  rcases h.mem_top.mp front with ⟨l₁, n, l₂, -, opening | ⟨item, ahead, rfl⟩⟩ | ⟨path, -, here⟩
  · obtain ⟨path, -, -, rfl⟩ := Node.mem_opening.mp opening
    rfl
  · cases Node.mem_ahead ahead <;> rfl
  · rcases ImportGroup.mem_top_emission.mp here with ⟨-, rfl⟩ | ⟨-, -, rfl⟩
      | ⟨s, -, value, -, rfl⟩ <;> rfl

theorem isMade_bodyItem (among : item ∈ r.body.map Prod.snd) : item.isMade = false := by
  obtain ⟨e, listed, rfl⟩ := List.mem_map.mp among
  exact h.isMade_body listed

theorem not_mem_behind (front : item.isFront = false) (made : item.isMade = true)
    (noAlias : item ≠ .defaultAlias) (noHelper : item.isHelper = false) :
    item ∉ r.top.map Prod.snd ++
      (r.body.map Prod.snd ++ (r.footer.map Prod.snd ++ r.helperItems)) := by
  intro among
  simp only [List.mem_append] at among
  rcases among with top | body | last | helper
  · rw [h.isFront_top top] at front
    cases front
  · rw [h.isMade_bodyItem body] at made
    cases made
  · exact noAlias (mem_footerItems last)
  · rw [mem_helperItems helper] at noHelper
    cases noHelper

theorem filter_isFlag : r.items.filter Item.isFlag = r.flagItems := by
  have unarranged : r.unarranged.filter Item.isFlag = r.flagItems := by
    rw [unarranged_eq, List.filter_append, List.filter_append]
    have flags : r.flagItems.filter Item.isFlag = r.flagItems :=
      List.filter_eq_self.mpr fun item among => by rw [mem_flagItems among]; rfl
    have early : r.earlyItems.filter Item.isFlag = [] :=
      List.filter_eq_nil_iff.mpr fun item among => by
        rw [mem_earlyItems among]; exact Bool.false_ne_true
    rw [flags, early, List.append_nil, List.append_right_eq_self, List.filter_eq_nil_iff]
    intro item behind flag
    obtain ⟨isPlain, rfl⟩ := Item.eq_moduleFlag flag
    exact h.not_mem_behind rfl rfl (by simp) rfl behind
  have same := r.items_perm.filter Item.isFlag
  rw [unarranged] at same
  unfold flagItems at same ⊢
  split at same
  · next exporting =>
    rw [if_pos exporting]
    exact List.perm_singleton.mp same
  · next silent =>
    rw [if_neg silent]
    exact same.eq_nil

theorem flag_first {i : Nat} {isPlain : Bool}
    (found : r.unarranged[i]? = some (.moduleFlag isPlain)) : i = 0 := by
  rw [unarranged_eq] at found
  have inHeader := getElem?_of_not_mem_right found (h.not_mem_behind rfl rfl (by simp) rfl)
  -- There is one flag at most, and nothing before it.
  have inFlag := getElem?_of_not_mem_right inHeader fun early => by cases mem_earlyItems early
  have bound := (List.getElem?_eq_some_iff.mp inFlag).1
  have short := r.length_flagItems_le
  omega

theorem predeclaration_early {i : Nat} {names : List String}
    (found : r.unarranged[i]? = some (.predeclaration names)) :
    (∀ j < i, ∃ isPlain, r.unarranged[j]? = some (.moduleFlag isPlain)) ∧
      names = r.predeclared.names := by
  rw [unarranged_eq] at found ⊢
  have inHeader := getElem?_of_not_mem_right found (h.not_mem_behind rfl rfl (by simp) rfl)
  have notFlag := le_of_not_mem_left inHeader fun flag => by cases mem_flagItems flag
  have bound := (List.getElem?_eq_some_iff.mp inHeader).1
  have short := r.length_earlyItems_le
  rw [List.length_append] at bound
  refine ⟨fun j lt => ?_, ?_⟩
  · have inside : j < r.flagItems.length := by omega
    refine ⟨r.options.plainFlag, ?_⟩
    rw [List.append_assoc, List.getElem?_append_left inside, List.getElem?_eq_getElem inside]
    exact congrArg some (mem_flagItems (List.getElem_mem inside))
  · exact Item.predeclaration.inj (mem_earlyItems (mem_of_le_left inHeader notFlag))

theorem not_last (among : item ∈ r.flagItems ++ r.earlyItems ++
    (r.top.map Prod.snd ++ r.body.map Prod.snd)) :
    item.isHelper = false ∧ item ≠ .defaultAlias := by
  simp only [List.mem_append] at among
  rcases among with (flag | early) | top | body
  · rw [mem_flagItems flag]
    exact ⟨rfl, by simp⟩
  · rw [mem_earlyItems early]
    exact ⟨rfl, by simp⟩
  · have front := h.isFront_top top
    cases item <;> first | cases front; done | exact ⟨rfl, by simp⟩
  · have own := h.isMade_bodyItem body
    cases item <;> first | cases own; done | exact ⟨rfl, by simp⟩

theorem helpers_behind_alias {i j : Nat} (found : r.unarranged[i]? = some .defaultAlias)
    (lt : i < j) (later : r.unarranged[j]? = some item) : item.isHelper = true := by
  rw [unarranged_split] at found later
  have behind := le_of_not_mem_left found fun early => (h.not_last early).2 rfl
  -- It is alone in its part, so what comes later is in the next.
  have short := r.length_footer_le
  rw [← List.append_assoc] at later
  refine mem_helperItems (mem_of_le_left later ?_)
  rw [List.length_append]
  omega

theorem helpers_last {i j : Nat} {item' : Item} (found : r.unarranged[i]? = some item)
    (helper : item.isHelper = true) (lt : i < j) (later : r.unarranged[j]? = some item') :
    item'.isHelper = true := by
  rw [unarranged_split, ← List.append_assoc] at found later
  have behind := le_of_not_mem_left found fun early => by
    rcases List.mem_append.mp early with own | last
    · rw [(h.not_last own).1] at helper
      cases helper
    · rw [mem_footerItems last] at helper
      cases helper
  exact mem_helperItems (mem_of_le_left later (by omega))

end Placed

theorem Placed.retained {σ : Naming} {options : Options} {ns : List Node}
    (h : r.Placed σ options .none ns) :
    ∃ before after, r.items = before ++
      ns.flatMap (fun n => (n.inPlace Priority.ordinary).map Prod.snd) ++ after ∧
      ∀ n, .kept n ∉ before ++ after := by
  have body : r.body.map Prod.snd = ns.flatMap fun n =>
    (n.inPlace Priority.ordinary).map Prod.snd := by
    rw [h.body, List.map_flatMap]
    rfl
  refine ⟨r.flagItems ++ r.earlyItems ++ r.top.map Prod.snd, r.footer.map Prod.snd ++ r.helperItems,
    ?_, fun n among => ?_⟩
  · rw [h.items_eq, unarranged_eq, body]
    simp only [List.append_assoc]
  · simp only [List.mem_append] at among
    rcases among with ((flag | early) | top) | last | helper
    · cases mem_flagItems flag
    · cases mem_earlyItems early
    · cases h.isFront_top top
    · cases mem_footerItems last
    · cases mem_helperItems helper

end Draft

namespace Module

variable {m : Module} {options : Options} {r : Draft}

theorem Consistent.required_first (consistent : m.Consistent)
    (drafted : m.draft options .none = .ok r) {l : LiveBindings} {statements : List Node}
    (written : Item.WritesOut l r.items statements) {i j : Nat} {n : Node} {b path : String}
    {span : Option Span} (requiring : r.items[j]? = some (.requireBinding b path span))
    (here : statements[i]? = some n) (mentioned : b ∈ n.mentionedNames Form.isFunction) :
    j < i := by
  have sound := consistent.sound drafted
  have placed := placed_of_draft drafted
  have known : b ∈ r.requires.entries.map Prod.snd := by
    have listed : (path, b) ∈ r.items.filterMap Item.required? :=
      List.mem_filterMap.mpr ⟨_, List.mem_of_getElem? requiring, rfl⟩
    exact List.mem_map_of_mem ((placed.required_items sound).mem_iff.mp listed)
  have split : r.items = (r.flagItems ++ r.earlyItems ++ r.top.map Prod.snd) ++
      (r.body.map Prod.snd ++ (r.footer.map Prod.snd ++ r.helperItems)) := by
    simp only [placed.items_eq, Draft.unarranged_eq, List.append_assoc]
  by_contra notBefore
  -- What stands behind the front stands behind all that is required.
  have inFront : i < (r.flagItems ++ r.earlyItems ++ r.top.map Prod.snd).length := by
    rw [split] at requiring
    have front := getElem?_of_not_mem_right requiring fun behind => by
      simp only [List.mem_append] at behind
      rcases behind with body | last | helper
      · cases placed.isMade_bodyItem body
      · cases Draft.mem_footerItems last
      · cases Draft.mem_helperItems helper
    have bound := (List.getElem?_eq_some_iff.mp front).1
    omega
  obtain ⟨item, found⟩ : ∃ item, (r.flagItems ++ r.earlyItems ++ r.top.map Prod.snd)[i]? =
    some item :=
    ⟨_, List.getElem?_eq_getElem inFront⟩
  have inItems : r.items[i]? = some item := by rw [split, List.getElem?_append_left inFront, found]
  rcases List.mem_append.mp (List.mem_of_getElem? found) with header | front
  · -- The header mentions no generated name.
    obtain ⟨made, outside⟩ := Draft.mentionedNames_header header
    have same := written.made i item inItems made
    rw [here, Option.some.injEq] at same
    rw [same, Item.mentionedNames_toNode] at mentioned
    exact surroundingNames_apart b (outside mentioned)
      (sound.fresh (List.mem_append_left _ known)).2
  · -- What else stands in front mentions the variable only to read from it, and priorities are
    -- all the same.
    obtain ⟨e, top, rfl⟩ := List.mem_map.mp front
    have inItem : b ∈ e.2.mentionedNames := by
      rcases written.taken i e.2 inItems with same | ⟨c, same⟩
      · rw [here, Option.some.injEq] at same
        rwa [same, Item.mentionedNames_toNode] at mentioned
      · rw [here, Option.some.injEq] at same
        rwa [same, placed.mentionedNames_live top] at mentioned
    have reads := consistent.module?_of_mentioned drafted top known inItem
    refine notBefore ((placed.lt_iff sound inItems reads requiring).mpr ?_)
    rw [Node.requirePriority_none, Item.readPriority]
    split
    · rw [Node.importPriority_none]
    · exact Nat.le_refl _

theorem lowered_laid_out (s : Original) (wellFormed : s.program.isWellFormed = true)
    (declares : s.analysed.hasModuleSyntax = true) (options : Options)
    (run : s.Lowering options .none) :
    let m := s.analysed
    Item.WritesOut (m.loweredBindings options .none) (m.loweredItems options .none)
      run.lowered.statements ∧
      m.LaidOut (m.loweredItems options .none) run.lowered.statements := by
  intro m
  have consistent : m.Consistent := Original.consistent wellFormed
  obtain ⟨outcome, lowered, success⟩ := run
  have written := writesOut consistent.program success
  refine ⟨written, ?_⟩
  rcases lower_cases success with ⟨-, plain, -⟩ | ⟨r, final, -, drafted, -⟩
  · rw [declares] at plain
    cases plain
  · rw [loweredItems_of_some final] at written ⊢
    have placed := placed_of_draft drafted
    constructor
    case required => exact fun i j n b path span requiring here mentioned =>
      consistent.required_first drafted written requiring here mentioned
    case retained => exact placed.retained
    all_goals rw [placed.items_eq]
    case flag => exact fun i isPlain found => placed.flag_first found
    case predeclared =>
      intro i names found
      obtain ⟨early, rfl⟩ := placed.predeclaration_early found
      refine ⟨early, placed.distinct, fun x => ?_⟩
      rw [placed.late, List.mem_flatMap]
    case aliased => exact fun i j item found lt later => placed.helpers_behind_alias found lt later
    case helpers =>
      exact fun i j item item' found helper lt later => placed.helpers_last found helper lt later

section Example

/-- `import { x } from "m"; export default function (a = x) { return a; }` -/
def defaultingStatements : List Node :=
  let name (x : String) := Node.made (.binder x none) []
  [.made (.importDecl false true "m") [.made (.importNamed false) [Made.word "x", name "x"],
    .absent],
   .made .exportDefault [.made (.function ⟨.declaration, false, false, false, false⟩)
    [.absent, .absent, .made .parameters
     [.made (.parameter .none) [name "a", .absent, Made.ident "x"]], .absent, .made (.body [])
     [.made .returnStmt [Made.ident "a"]]]]]

def defaulting : Module := .analyse true (.mk (.program none []) none defaultingStatements)

theorem defaulting_declares : defaulting.hasModuleSyntax = true := by decide +kernel

theorem defaulting_lowered : ∃ r, defaulting.draft .default .none = .ok r ∧
    r.unarranged[2]?.bind Item.required? = some ("m", "_m") ∧
    ∃ n, (defaulting.lowered r).statements[1]? = some n ∧ "_m" ∈ n.mentionedNames Form.isBody := by
  obtain ⟨r, drafted, computed⟩ := defaulting.exists_draft .default .none
    (fun r : Draft => decide (r.queue.Pairwise
      (fun a b : Priority × Item => decide (b.1 ≤ a.1) = true) ∧
      r.unarranged[2]?.bind Item.required? = some ("m", "_m") ∧
      ∃ n ∈ (defaulting.loweredInOrder r).statements[1]?, "_m" ∈ Node.mentionedNames Form.isBody n))
      (by decide +kernel)
  obtain ⟨falling, required, mentioned⟩ := of_decide_eq_true computed
  exact ⟨r, drafted, required, by rwa [lowered_of_falling falling]⟩

/-- The module is laid out like this although its function mentions `_m` before it is set. -/
theorem lowered_laid_out_defaulting : defaulting.hasModuleSyntax = true ∧ ∃ outcome lowered,
    (Module.lower .default .none).run defaulting = .ok outcome lowered ∧
      defaulting.LaidOut (defaulting.loweredItems .default .none) lowered.statements := by
  obtain ⟨r, drafted, -⟩ := defaulting_lowered
  have success := (lower_of_draft defaulting_declares drafted).2
  exact ⟨defaulting_declares, _, _, success,
    (lowered_laid_out ⟨true, none, [], none, _⟩ (by decide) defaulting_declares .default
    ⟨_, _, success⟩).2⟩

/-- The parameters of a function in front can mention a variable outside of the function's body
before it is set. -/
theorem default_function_precedes_require : ∃ outcome lowered,
    (Module.lower .default .none).run defaulting = .ok outcome lowered ∧
      ∃ (i j : Nat) (n : Node) (span : Option Span), lowered.statements[i]? = some n ∧
        "_m" ∈ n.mentionedNames Form.isBody ∧
      lowered.statements[j]? = some (Item.requireBinding "_m" "m" span).toNode ∧ i < j := by
  obtain ⟨r, drafted, required, n, here, mentioned⟩ := defaulting_lowered
  obtain ⟨final, success⟩ := lower_of_draft defaulting_declares drafted
  have written := writesOut ⟨_, _, rfl⟩ success
  rw [loweredItems_of_some final, (placed_of_draft drafted).items_eq] at written
  obtain ⟨item, found, requires⟩ := Option.bind_eq_some_iff.mp required
  obtain ⟨span, rfl⟩ := Draft.eq_requireBinding requires
  exact ⟨_, _, success, 1, 2, n, span, here, mentioned, written.made 2 _ found rfl, by decide⟩

end Example

end Module

end ModuleLowering
