import ModuleLowering.Proofs.Lower.Element
import ModuleLowering.Proofs.Lower.RequireBinding

/-!
The tags of a lowered module. Opening and closing tags that agreed still do, a tag is spelled anew
just if it starts with a read of an import that names can be found for, and it is names that are put
in.
-/

set_option autoImplicit false

namespace ModuleLowering

namespace Draft

variable {base : TakenNames} {own bound : String → Prop} {r : Draft}

theorem Sound.exists_candidate (h : r.Sound base own bound) {x : String}
    (named : x ∈ r.requires.entries.map Prod.snd ++ r.helpers.map Prod.snd) :
    ∃ hint i, x = TakenNames.candidate hint i := by
  obtain ⟨gs, generates, perm⟩ := h.generated
  exact generates.candidates x (perm.mem_iff.mpr named)

theorem Placed.isIdentifierName_object {options : Options} {hints : Hints} {ns : List Node}
    (placed : r.Placed r.naming options hints ns) (sound : r.Sound base own bound) {x : String}
    {target : Redirect} (found : r.redirects.get? x = some target) :
    isIdentifierName target.object = true := by
  obtain ⟨path, entry⟩ := placed.exists_of_redirected sound (OrderedMap.mem_of_get? found)
  obtain ⟨hint, i, eq⟩ : ∃ hint i, target.object = TakenNames.candidate hint i :=
    sound.exists_candidate (List.mem_append_left _ (List.mem_map_of_mem entry))
  rw [eq]
  exact TakenNames.isIdentifierName_candidate hint i

end Draft

namespace LiveBindings

variable {l : LiveBindings}

structure RespellsTag (l : LiveBindings) (t t' : Tag) : Prop where
  /-- If it starts with a read of an import that can be spelled with names, it starts with those
  names, -/
  respelled : ∀ x ref target, t.root = .name x ref → l.RedirectsTo x ref target →
    target.isSpelled = true →
    t' = ⟨.name target.object .none, target.words ++ t.path⟩ ∧
      ∀ w ∈ target.object :: target.words, isIdentifierName w = true
  /-- and else it stays as it is. -/
  kept : (∀ x ref target, t.root = .name x ref → l.RedirectsTo x ref target →
    target.isSpelled = false) → t' = t

theorem respellsTag_liveTag (rooted : ∀ x r, l.redirects.get? x = some r →
    (l.scopes.root? x).isSome = true) (named : ∀ x r, l.redirects.get? x = some r →
    isIdentifierName r.object = true) (t : Tag) :
    l.RespellsTag t (l.liveTag t) where
  respelled x ref target root redirected spelled := by
    have found :=
      (l.tagRedirect?_eq_some_iff).mpr ⟨(redirect?_eq_some_iff rooted).mpr redirected, spelled⟩
    refine ⟨?_, List.forall_mem_cons.mpr ⟨named x target redirected.1, List.all_eq_true.mp spelled⟩⟩
    simp only [liveTag, root, found]
  kept other := by
    unfold liveTag
    split
    · next x ref root =>
      cases found : l.tagRedirect? x ref with
      | none => rfl
      | some target =>
        -- It would have been found that the name can be spelled.
        obtain ⟨redirected, spelled⟩ := (l.tagRedirect?_eq_some_iff).mp found
        rw [other x ref target root ((redirect?_eq_some_iff rooted).mp redirected)] at spelled
        cases spelled
    · rfl

theorem liveTag_of_isEmpty (none : l.redirects.isEmpty = true) (t : Tag) : l.liveTag t = t := by
  have silent (x : String) (ref : Reference) : l.tagRedirect? x ref = .none := by
    have absent : l.redirects.get? x = .none := by
      rw [OrderedMap.get?, List.isEmpty_iff.mp none]
      rfl
    rw [tagRedirect?, redirect?, absent]
    rfl
  unfold liveTag
  split
  · rw [silent]
  · rfl

theorem liveAt_element (completes : Bool) (position : Position) (s : Option Span) (ps : List Node) :
    l.liveAt completes position (.mk .element s ps) = .mk .element s
      (ps.map (Node.live l completes)) := by
  rw [l.liveAt_other (by simp) (by simp) rfl, l.partsAt_eq_map (fun _ => rfl) fun _ _ => rfl]
  rfl

theorem hasTag_liveAt {e : Node} {t : Tag} (element : e.form.isElement = true) (has : e.HasTag t)
    (completes : Bool) (position : Position) : (l.liveAt completes position e).HasTag
      (l.liveTag t) ∧
      (l.liveAt completes position e).tags.length = e.tags.length := by
  obtain ⟨f, s, ps⟩ := e
  cases f
  case element =>
    rw [liveAt_element]
    refine has.map (fun p absent => ?_) fun p t tag => l.isTag_live tag completes
    obtain ⟨f, s, ps⟩ := p
    cases f
    case absent => rfl
    all_goals cases absent
  all_goals cases element

end LiveBindings

namespace Module

variable {m : Module}

theorem exists_hasTag_analysed {s : Original} (agree : ∀ e ∈ s.program.elements, e.TagsAgree) :
    ∀ e ∈ s.analysed.program.elements, ∃ t, e.HasTag t := by
  intro e among
  have stable := s.resolve_analysed true
  obtain ⟨c, scope, looked⟩ := Node.exists_resolve_of_mem_select stable among
  refine Node.exists_hasTag_of_stable (Node.form_of_mem_select among) looked ?_
  exact Node.tagsAgree_of_bare_eq (bare_analyse s.isStrict _) agree e among

theorem exists_hasTag_renamed (form : ∃ hashbang ds, m.program.form = .program hashbang ds)
    (tagged : ∀ e ∈ m.program.elements, ∃ t, e.HasTag t) {n e : Node}
    (among : n ∈ m.renamed.statements) (inside : e ∈ n.elements) : ∃ t, e.HasTag t := by
  obtain ⟨hashbang, ds, form⟩ := form
  have known {n e : Node} (listed : n ∈ m.statements) (inside : e ∈ n.elements) :
      ∃ t, e.HasTag t := by
    refine tagged e ?_
    obtain ⟨⟨f, s, ps⟩, scopes⟩ := m
    cases form
    exact Node.mem_elements_of_part rfl rfl listed inside
  obtain ⟨g, eq, either⟩ := m.exists_renamed_statements
  rw [eq] at among
  obtain ⟨n, listed, rfl⟩ := List.mem_map.mp among
  rcases either n with same | renamed
  · rw [same] at inside
    exact known listed inside
  · rw [renamed, Node.elements_rename] at inside
    obtain ⟨e, before, rfl⟩ := List.mem_map.mp inside
    obtain ⟨t, has⟩ := known listed before
    exact ⟨_, Node.hasTag_rename m.newNames (Node.form_of_mem_select before) has⟩

def KeepsTags (l : LiveBindings) (e e' : Node) : Prop :=
  ∃ t t', e.HasTag t ∧ e'.HasTag t' ∧ e'.tags.length = e.tags.length ∧ l.RespellsTag t t'

theorem keepsTags_lowered {r : Draft} (form : ∃ hashbang ds, m.program.form = .program hashbang ds)
    (tagged : ∀ item ∈ r.items, ∀ e ∈ item.toNode.elements, ∃ t, e.HasTag t)
    (respells : ∀ t, (m.liveBindings r).RespellsTag t ((m.liveBindings r).liveTag t)) :
    List.Forall₂ (KeepsTags (m.liveBindings r)) (r.items.flatMap fun item => item.toNode.elements)
      (m.lowered r).program.elements := by
  obtain ⟨hashbang, ds, form⟩ := form
  have before : (m.assembled r).program.elements = r.items.flatMap fun item =>
    item.toNode.elements := by
    simp only [assembled, withStatements, m.renamed_form form]
    rw [Node.elements_mk rfl rfl, List.flatMap_map]
  have known : ∀ e ∈ (m.assembled r).program.elements, e.form.isElement = true ∧
    ∃ t, e.HasTag t := by
    intro e among
    refine ⟨Node.form_of_mem_select among, ?_⟩
    rw [before] at among
    obtain ⟨item, listed, inside⟩ := List.mem_flatMap.mp among
    exact tagged item listed e inside
  rw [← before]
  rw [lowered, makeLive_eq]
  split
  · next nothing =>
    -- There are no names to be made live.
    have none : (m.liveBindings r).redirects.isEmpty = true := (Bool.and_eq_true_iff.mp nothing).1
    refine List.forall₂_same.mpr fun e among => ?_
    obtain ⟨-, t, has⟩ := known e among
    have same := respells t
    rw [LiveBindings.liveTag_of_isEmpty none] at same
    exact ⟨t, t, has, has, rfl, same⟩
  · have same := LiveBindings.select_liveAt (l := m.liveBindings r) Form.isElement_isPassedOver
      (m.assembled r).program true .ordinary
    refine ((List.forall₂_and_left _ _).mpr ⟨known, same⟩).imp ?_
    rintro e e' ⟨⟨element, t, has⟩, completes, position, rfl⟩
    obtain ⟨has', length⟩ := LiveBindings.hasTag_liveAt (l := m.liveBindings r) element has
      completes position
    exact ⟨t, _, has, has', length, respells t⟩

/-- If the tags of every element of a program are written alike, they are so in the lowered module.
Its elements are those of the statements it is made of, one by one, and their tags are spelled anew
just where they start with a read of an import that names can be found for; what is put in are such
names, and the words behind stay. -/
theorem tags_agree_when_live (s : Original) (wellFormed : s.program.isWellFormed = true)
    (agree : ∀ e ∈ s.program.elements, e.TagsAgree) (options : Options) (hints : Hints)
    (run : s.Lowering options hints) :
    let m := s.analysed
    (∀ e ∈ run.lowered.program.elements, e.TagsAgree) ∧
      List.Forall₂ (KeepsTags (m.loweredBindings options hints))
        ((m.loweredItems options hints).flatMap fun item => item.toNode.elements)
        run.lowered.program.elements := by
  intro m
  have consistent : m.Consistent := Original.consistent wellFormed
  have tagged : ∀ e ∈ m.program.elements, ∃ t, e.HasTag t := exists_hasTag_analysed agree
  obtain ⟨outcome, lowered, success : (lower options hints).run m = .ok outcome lowered⟩ := run
  have pairs : List.Forall₂ (KeepsTags (m.loweredBindings options hints))
      ((m.loweredItems options hints).flatMap fun item => item.toNode.elements)
      lowered.program.elements := by
    rcases lower_cases success with ⟨plain, -, -, rfl⟩ | ⟨r, final, -, drafted, -, rfl⟩
    · -- Nothing is done to a program without imports and exports.
      have same : m.program.elements =
          (m.statements.map Item.kept).flatMap fun item => item.toNode.elements := by
        rw [List.flatMap_map]
        exact Node.elements_mk (f := s.form) rfl rfl s.span _
      rw [loweredItems_of_none plain, loweredBindings, plain, ← same]
      refine List.forall₂_same.mpr fun e among => ?_
      obtain ⟨t, has⟩ := tagged e among
      refine ⟨t, t, has, has, rfl, ⟨fun x ref target _ redirected => ?_, fun _ => rfl⟩⟩
      cases redirected.1
    · have placed := placed_of_draft drafted
      have sound := consistent.sound drafted
      rw [loweredItems_of_some final, loweredBindings, final]
      refine keepsTags_lowered consistent.program (fun item listed e inside => ?_) fun t => ?_
      · obtain ⟨n, among, inside⟩ := placed.exists_of_mem_elements listed inside
        exact exists_hasTag_renamed consistent.program tagged among inside
      · exact LiveBindings.respellsTag_liveTag (fun _ _ => consistent.redirects_rooted drafted)
          (fun _ _ => placed.isIdentifierName_object sound) t
  refine ⟨fun e' among => ?_, pairs⟩
  obtain ⟨e, -, t, t', -, has, -⟩ := (exists_of_forall₂ pairs).2 e' among
  exact has.tagsAgree

section Example

/-- `import { Card } from "m"; f(<Card.Body><Card /></Card.Body>); function g(Card) { return
<Card></Card>; }` -/
def taggingStatements : List Node :=
  let name (x : String) := Node.made (.binder x none) []
  let card := Node.made (.tagRef "Card" .none) []
  let body := Node.made .tagMember [card, Made.word "Body"]
  let element (opening closing : Node) (children : List Node) :=
    Node.made .element ([opening, .absent, .made .attributes [], closing] ++ children)
  [.made (.importDecl false true "m") [.made (.importNamed false) [Made.word "Card", name "Card"],
    .absent],
   .made .expression [Made.call (Made.ident "f") [element body body [element card .absent []]]],
   .made (.function ⟨.declaration, false, false, false, false⟩)
    [name "g", .absent, .made .parameters [Made.parameter "Card"], .absent,
     .made (.body []) [.made .returnStmt [element card card []]]]]

def tagging : Original := ⟨true, none, [], none, taggingStatements⟩

/-- The tags of the import are spelled anew, whatever stands behind them; those of the parameter are
not. -/
theorem tags_agree_when_live_tagging : ∃ outcome lowered,
    (Module.lower .default .none).run tagging.analysed = .ok outcome lowered ∧
      (∀ e ∈ lowered.program.elements, e.TagsAgree) ∧
      (∃ e ∈ lowered.program.elements, e.tags = List.replicate 2
        (some ⟨.name "_m" .none, ["Card", "Body"]⟩)) ∧
      ∃ e ∈ lowered.program.elements, e.tags = List.replicate 2
      (some ⟨.name "Card" (.symbol ⟨[2], "Card"⟩), []⟩) := by
  let outer : Tag := ⟨.name "Card" (.symbol ⟨[], "Card"⟩), ["Body"]⟩
  let inner : Tag := ⟨.name "Card" (.symbol ⟨[2], "Card"⟩), []⟩
  have agree : ∀ e ∈ (Node.mk (.program none []) none taggingStatements).elements, e.TagsAgree := by
    refine List.forall_mem_cons.mpr ⟨⟨outer.bare, by decide⟩, List.forall_mem_cons.mpr
      ⟨⟨inner.bare, by decide⟩, ?_⟩⟩
    exact List.forall_mem_cons.mpr ⟨⟨inner.bare, by decide⟩, nofun⟩
  obtain ⟨r, drafted, computed⟩ := tagging.analysed.exists_draft .default .none
    (fun r => (r.unarranged.flatMap fun item => item.toNode.elements).any
      (fun e => e.tags == List.replicate 2 (some outer)) &&
      (r.unarranged.flatMap fun item => item.toNode.elements).any
        (fun e => e.tags == List.replicate 2 (some inner)) &&
      r.redirects.get? "Card" == some (.member "_m" "Card")) (by decide +kernel)
  obtain ⟨final, success⟩ := lower_of_draft (by decide +kernel) drafted
  obtain ⟨agrees, pairs⟩ :=
    tags_agree_when_live tagging (by decide) agree .default .none ⟨_, _, success⟩
  rw [loweredItems_of_some final, loweredBindings, final, (placed_of_draft drafted).items_eq]
    at pairs
  simp only [Bool.and_eq_true, beq_iff_eq] at computed
  obtain ⟨⟨first, second⟩, redirect⟩ := computed
  have root : (tagging.analysed.liveBindings r).scopes.root? "Card" = some ⟨[], "Card"⟩ := by
    show tagging.analysed.renamed.scopes.root? "Card" = _
    decide +kernel
  -- The element behind the pass that comes from one with a given tag.
  have behind {t : Tag} (found : (r.unarranged.flatMap fun item => item.toNode.elements).any
      (fun e => e.tags == List.replicate 2 (some t)) = true) : ∃ e' ∈ (tagging.analysed.lowered
        r).program.elements, ∃ t', e'.tags = List.replicate 2 (some t') ∧
        (tagging.analysed.liveBindings r).RespellsTag t t' := by
    obtain ⟨e, listed, tags⟩ := List.any_eq_true.mp found
    obtain ⟨e', among, t₀, t', has, has', length, respells⟩ := (exists_of_forall₂ pairs).1 e listed
    rw [eq_of_beq tags] at length
    have same : t₀ = t :=
      Option.some.inj (has (some t) (by rw [eq_of_beq tags]; exact List.mem_cons_self)).symm
    exact ⟨e', among, t', List.eq_replicate_iff.mpr ⟨length, has'⟩, same ▸ respells⟩
  refine ⟨_, _, success, agrees, ?_, ?_⟩
  · obtain ⟨e', among, t', tags, respells⟩ := behind first
    obtain ⟨eq, -⟩ := respells.respelled "Card" _ (.member "_m" "Card") rfl
      ⟨redirect, _, rfl, root⟩ (by decide)
    exact ⟨e', among, by rw [tags, eq]; rfl⟩
  · obtain ⟨e', among, t', tags, respells⟩ := behind second
    refine ⟨e', among, ?_⟩
    rw [tags, respells.kept ?_]
    rintro x ref target same ⟨-, s, refers, held⟩
    cases same
    cases refers
    rw [root] at held
    cases held

end Example

end Module

end ModuleLowering
