import ModuleLowering.Proofs.Lower.LoweredItem
import ModuleLowering.Proofs.Lower.Tag

/-!
Elements, and where those of a lowered module come from. An element whose tags agree as they are
written has tags that agree in what they refer to, and keeps them under new names and with live
ones.
-/

set_option autoImplicit false

namespace ModuleLowering

def Form.isElement : Form → Bool
  | .element => true
  | _ => false

theorem Form.isElement_isPassedOver : IsPassedOver isElement where
  other f rewritten := by cases f <;> first | rfl | cases rewritten
  stable f ps := by
    unfold truthful
    split <;> rfl

namespace Node

def elements (n : Node) : List Node := n.select Form.isElement

/-- The tags of an element: the opening one and, unless it closes itself, the closing one. -/
def tags : Node → List (Option Tag)
  | mk .element _ (name :: _ :: _ :: closing :: _) =>
    if closing.isAbsent then [name.tag?] else [name.tag?, closing.tag?]
  | _ => []

def TagsAgree (e : Node) : Prop := ∃ t, ∀ u ∈ e.tags, u.map Tag.bare = some t

def HasTag (e : Node) (t : Tag) : Prop := ∀ u ∈ e.tags, u = some t

theorem HasTag.tagsAgree {e : Node} {t : Tag} (h : e.HasTag t) : e.TagsAgree :=
  ⟨t.bare, fun u among => by rw [h u among]; rfl⟩

theorem IsTag.isAbsent {n : Node} {t : Tag} (h : n.IsTag t) : n.isAbsent = false := by
  cases h <;> rfl

/-- Where tags are changed and nothing is lost, the tags of an element are changed alike. -/
theorem HasTag.map {h : Node → Node} {g : Tag → Tag}
    (absent : ∀ p, p.isAbsent = true → (h p).isAbsent = true)
    (change : ∀ p t, p.IsTag t → (h p).IsTag (g t)) {s : Option Span} {ps : List Node} {t : Tag}
      (has : (mk .element s ps).HasTag t) : (mk .element s (ps.map h)).HasTag (g t) ∧
      (mk .element s (ps.map h)).tags.length = (mk .element s ps).tags.length := by
  rcases ps with _ | ⟨name, _ | ⟨args, _ | ⟨attributes, _ | ⟨closing, children⟩⟩⟩⟩
  case cons.cons.cons.cons =>
    simp only [HasTag, tags, List.map_cons] at has ⊢
    by_cases single : closing.isAbsent = true
    · rw [if_pos single] at has ⊢
      rw [if_pos (absent closing single)]
      have opening := change name t (isTag_of_tag? (has _ List.mem_cons_self))
      simp [opening.tag?]
    · rw [if_neg single] at has ⊢
      have opening := change name t (isTag_of_tag? (has _ List.mem_cons_self))
      have ending :=
        change closing t (isTag_of_tag? (has _ (List.mem_cons_of_mem _ List.mem_cons_self)))
      simp [opening.tag?, ending.tag?, ending.isAbsent]
  all_goals exact ⟨nofun, rfl⟩

section Bare

theorem isAbsent_bare (n : Node) : n.bare.isAbsent = n.isAbsent := by
  obtain ⟨f, s, ps⟩ := n
  cases f <;> rfl

theorem tags_bare (e : Node) : e.bare.tags = e.tags.map (Option.map Tag.bare) := by
  obtain ⟨f, s, ps⟩ := e
  cases f
  case element =>
    rw [bare, bareParts_eq_map]
    rcases ps with _ | ⟨name, _ | ⟨args, _ | ⟨attributes, _ | ⟨closing, children⟩⟩⟩⟩
    case cons.cons.cons.cons =>
      simp only [tags, Form.bare, List.map_cons, isAbsent_bare, tag?_bare]
      split <;> rfl
    all_goals rfl
  all_goals rfl

theorem tagsAgree_bare {e : Node} : e.bare.TagsAgree ↔ e.TagsAgree := by
  have twice (u : Option Tag) : (u.map Tag.bare).map Tag.bare = u.map Tag.bare := by
    cases u with
    | none => rfl
    | some t =>
      obtain ⟨root, path⟩ := t
      cases root <;> rfl
  simp only [TagsAgree, tags_bare, List.forall_mem_map, twice]

theorem elements_bare (n : Node) : n.bare.elements = n.elements.map bare := by
  refine select_map (h := fun f _ => f.bare) (fun f s ps => ?_) (fun f _ => ?_) (fun f _ => ?_) n
  · rw [bare, bareParts_eq_map]
  · cases f <;> rfl
  · cases f <;> rfl

theorem tagsAgree_of_bare_eq {n n' : Node} (same : n'.bare = n.bare)
    (agree : ∀ e ∈ n.elements, e.TagsAgree) :
    ∀ e ∈ n'.elements, e.TagsAgree := by
  intro e among
  have listed : e.bare ∈ n.elements.map bare := by
    rw [← elements_bare, ← same, elements_bare]
    exact List.mem_map_of_mem among
  obtain ⟨e₀, among₀, eq⟩ := List.mem_map.mp listed
  rw [← tagsAgree_bare, ← eq, tagsAgree_bare]
  exact agree e₀ among₀

end Bare

section Stable
variable {table : ScopeTable} {c : ScopeContext} {scope : ScopeId}

theorem resolve_part {f : Form} {s : Option Span} {ps : List Node}
    (stable : (mk f s ps).resolve table c scope = mk f s ps) {i : Nat} {p : Node}
    (part : ps[i]? = some p) : p.resolve table (c.part scope f ps i) (i :: scope) = p := by
  have looked := getElem?_resolveParts table c scope f ps ps 0 i
  rw [(mk.inj stable).2.2, Nat.zero_add, part, Option.map_some] at looked
  exact (Option.some.inj looked).symm

theorem exists_resolve_of_mem_select {p : Form → Bool} {n e : Node}
    (stable : n.resolve table c scope = n) (among : e ∈ n.select p) :
    ∃ c scope, e.resolve table c scope = e := by
  induction n using Node.induction generalizing c scope with
  | step f s ps ih =>
    rw [select_mk, List.mem_append] at among
    rcases among with here | below
    · split at here
      · rw [List.mem_singleton.mp here]
        exact ⟨c, scope, stable⟩
      · cases here
    · split at below
      · cases below
      · obtain ⟨q, part, inside⟩ := List.mem_flatMap.mp below
        obtain ⟨i, found⟩ := List.mem_iff_getElem?.mp part
        exact ih q part (resolve_part stable found) inside

theorem exists_part_of_mem_tags {s : Option Span} {ps : List Node} {u : Option Tag}
    (among : u ∈ (mk .element s ps).tags) :
    ∃ (i : Nat) (p : Node), ps[i]? = some p ∧ u = p.tag? := by
  rcases ps with _ | ⟨name, _ | ⟨args, _ | ⟨attributes, _ | ⟨closing, children⟩⟩⟩⟩
  case cons.cons.cons.cons =>
    simp only [tags] at among
    split at among
    · exact ⟨0, name, rfl, List.mem_singleton.mp among⟩
    · rcases List.mem_cons.mp among with opening | ending
      · exact ⟨0, name, rfl, opening⟩
      · exact ⟨3, closing, rfl, List.mem_singleton.mp ending⟩
  all_goals cases among

theorem exists_hasTag_of_stable {e : Node} (element : e.form.isElement = true)
    (stable : e.resolve table c scope = e) (agree : e.TagsAgree) : ∃ t, e.HasTag t := by
  obtain ⟨f, s, ps⟩ := e
  cases f
  case element =>
    obtain ⟨t, written⟩ := agree
    refine ⟨t.mapRoot (TagRoot.resolve table c), fun u among => ?_⟩
    obtain ⟨i, p, part, rfl⟩ := exists_part_of_mem_tags among
    obtain ⟨t', read, rfl⟩ := Option.map_eq_some_iff.mp (written _ among)
    rw [read]
    exact congrArg some ((isTag_of_tag? read).eq_of_stable (resolve_part stable part))
  all_goals cases element

end Stable

section Renamed
variable (r : Renaming)

theorem elements_rename (n : Node) : (n.rename r).elements = n.elements.map (rename r) := by
  refine select_map (rename_mk r) (fun f ps => ?_) (fun f ps => ?_) n
  all_goals
    have renamed := (Form.Renamed.rename r f).expandShorthand (ps.map (rename r))
    generalize (f.rename r).expandShorthand (ps.map (rename r)) = f' at renamed
    cases renamed <;> rfl

theorem hasTag_rename {e : Node} {t : Tag} (element : e.form.isElement = true) (has : e.HasTag t) :
    (e.rename r).HasTag (t.mapRoot (TagRoot.rename r)) := by
  obtain ⟨f, s, ps⟩ := e
  cases f
  case element =>
    rw [rename_mk]
    refine (has.map (fun p absent => ?_) fun p t tag => tag.rename r).1
    obtain ⟨f, s, ps⟩ := p
    cases f
    case absent => rfl
    all_goals cases absent
  all_goals cases element

end Renamed

theorem elements_mk {f : Form} (other : f.isElement = false) (parted : f.isOccurrence = false)
    (s : Option Span) (ps : List Node) : (mk f s ps).elements = ps.flatMap elements :=
  select_of_parts other parted s ps

theorem mem_elements_of_part {f : Form} {s : Option Span} {ps : List Node}
    (other : f.isElement = false) (parted : f.isOccurrence = false) {p e : Node} (part : p ∈ ps)
    (among : e ∈ p.elements) : e ∈ (mk f s ps).elements := by
  rw [elements_mk other parted]
  exact List.mem_flatMap.mpr ⟨p, part, among⟩

end Node

section Made

-- Made-up code is looked through down to its nodes.
attribute [local simp] Made.varDeclaration Made.expression Made.exportAssignment Made.moduleExports
  Made.defineExport Made.require Made.assign Made.object Made.getter Made.function Made.exportStar
  Made.string Made.parameter Made.word Made.ident Made.call Made.number Node.made Node.absent
attribute [local simp] Helper.declare Helper.declaration Helper.placed Helper.copyLoop Helper.block
  Helper.conditional Helper.binary Helper.ifStmt Helper.index Helper.isModuleObject
attribute [local simp] Node.anyForm Node.anyFormOfParts Form.isElement

theorem Made.anyElement_member (object : Node) (property : String) :
    (member object property).anyForm Form.isElement = object.anyForm Form.isElement := by
  simp only [member]
  split <;> simp

theorem Made.anyElement_exportChain (names : List String) (value : Node) :
    (exportChain names value).anyForm Form.isElement = value.anyForm Form.isElement := by
  induction names generalizing value with
  | nil => rfl
  | cons name names ih => exact (ih _).trans (by simp [anyElement_member])

theorem Imported.anyElement_toNode (v : Imported) : v.toNode.anyForm Form.isElement = false := by
  cases v <;> simp [toNode, Made.anyElement_member]

theorem Item.elements_toNode {item : Item} (made : item.isMade = true) :
    item.toNode.elements = [] := by
  refine Node.select_eq_nil ?_
  cases item
  case kept | exportValue | moduleExports => cases made
  case helperFunction helper name => cases helper <;> simp [toNode, Made.anyElement_member]
  case moduleFlag isPlain => cases isPlain <;> simp [toNode, Made.anyElement_member]
  all_goals simp [toNode, Made.anyElement_member, Made.anyElement_exportChain,
    Imported.anyElement_toNode]

theorem Item.isMade_of_mem_elements {item : Item} {e : Node} (here : e ∈ item.toNode.elements) :
    item.isMade = false := by
  cases made : item.isMade with
  | false => rfl
  | true =>
    rw [elements_toNode made] at here
    cases here

end Made

theorem Made.elements_exportAssignment (name : String) (value : Node) :
    (exportAssignment name value).elements = value.elements :=
  LiveBindings.select_exportChain Form.isElement_isPassedOver [name] value

theorem Item.elements_exportValue (name : String) (value : Node) (span : Option Span) :
    (exportValue name value span).toNode.elements = value.elements := by
  rw [toNode, Made.expression, Node.elements_mk rfl rfl, List.flatMap_singleton,
    Made.elements_exportAssignment]

theorem Item.elements_moduleExports (value : Node) (span : Option Span) :
    (moduleExports value span).toNode.elements = value.elements := by
  have object : (Made.member (Made.ident "module") "exports").elements = [] :=
    LiveBindings.select_member Form.isElement_isPassedOver _ _
  rw [toNode, Made.expression, Node.elements_mk rfl rfl, List.flatMap_singleton, Made.moduleExports,
    Made.assign, Node.made, Node.elements_mk rfl rfl, List.flatMap_cons, object, List.nil_append,
    List.flatMap_singleton]

namespace Node

theorem elements_asExpression (d : Node) : d.asExpression.elements = d.elements := by
  obtain ⟨f, s, ps⟩ := d
  cases f
  case function | classDef => exact (elements_mk rfl rfl s ps).trans (elements_mk rfl rfl s ps).symm
  all_goals rfl

theorem elements_exportDeclarator (d : Node) :
    ∀ e ∈ (Draft.exportDeclarator d).elements, e ∈ d.elements := by
  intro e among
  unfold Draft.exportDeclarator at among
  split at among
  · next isDefinite s p t value =>
    have given : ∀ e ∈ (if value.isAbsent then Made.ident "undefined" else value).elements,
      e ∈ value.elements := by
      intro e among
      split at among
      · cases among
      · exact among
    have parts : ∀ value', (∀ e ∈ value'.elements, e ∈ value.elements) →
        e ∈ (mk (.declarator isDefinite) s [p, t, value']).elements →
        e ∈ (mk (.declarator isDefinite) s [p, t, value]).elements := by
      intro value' inside
      simp only [elements_mk (f := .declarator isDefinite) rfl rfl, List.flatMap_cons,
        List.flatMap_nil, List.append_nil, List.mem_append]
      exact Or.imp_right (Or.imp_right (inside e))
    dsimp only at among
    split at among
    · refine parts _ (fun e inside => given e ?_) among
      rwa [Made.elements_exportAssignment] at inside
    · exact parts _ given among
  · exact among

theorem Gives.mem_elements {n : Node} {item : Item} (h : n.Gives item) {e : Node}
    (here : e ∈ item.toNode.elements) :
    e ∈ n.elements := by
  cases h with
  | named =>
    rw [Item.elements_exportValue] at here
    cases here
  | whole => exact here
  | declaration | default => exact mem_elements_of_part rfl rfl List.mem_cons_self here
  | declarators s kind isDeclared s' ds =>
    rw [Item.toNode, elements_mk rfl rfl, List.mem_flatMap] at here
    obtain ⟨d', part, inside⟩ := here
    obtain ⟨d, listed, rfl⟩ := List.mem_map.mp part
    refine mem_elements_of_part rfl rfl List.mem_cons_self ?_
    exact mem_elements_of_part rfl rfl listed (elements_exportDeclarator d e inside)
  | value =>
    rw [Item.elements_exportValue] at here
    exact mem_elements_of_part rfl rfl List.mem_cons_self here
  | expression =>
    rw [Item.elements_exportValue, elements_asExpression] at here
    exact mem_elements_of_part rfl rfl List.mem_cons_self here
  | assigned =>
    rw [Item.elements_moduleExports] at here
    exact mem_elements_of_part rfl rfl List.mem_cons_self here

end Node

theorem Draft.Placed.exists_of_mem_elements {σ : Naming} {options : Options} {hints : Hints}
    {ns : List Node} {r : Draft} (h : r.Placed σ options hints ns) {item : Item}
    (among : item ∈ r.items) {e : Node} (here : e ∈ item.toNode.elements) :
    ∃ n ∈ ns, e ∈ n.elements := by
  rcases h.gives among with made | ⟨n, listed, gives⟩
  · rw [Item.isMade_of_mem_elements here] at made
    cases made
  · exact ⟨n, listed, gives.mem_elements here⟩

end ModuleLowering
