import ModuleLowering.Proofs.Lower.Capture
import ModuleLowering.Proofs.Lower.DefinedName

/-!
What a module exports, read off its statements, and which writes to `exports` set it up. While a
module is taken apart, exports and writes are added side by side.
-/

set_option autoImplicit false

namespace ModuleLowering

inductive ExportEntry where
  /-- A variable, exported under its own name where it is declared, and what it starts out as. -/
  | declared (name : String) (initial : Node)
  | binding (name exported : String)
  | value (value : Node)
  | reexport (path imported exported : String)
  | wholeModule (path exported : String)

namespace ExportEntry

def exported : ExportEntry → String
  | declared name _ => name
  | binding _ exported | reexport _ _ exported | wholeModule _ exported => exported
  | value _ => "default"

def pair? : ExportEntry → Option (String × String)
  | declared name _ => some (name, name)
  | binding name exported => some (name, exported)
  | _ => none

/-- The export is set by the write, in a module with the given statements. -/
def Realised (isStrict : Bool) (items : List Item) (entry : ExportEntry) (w : ExportWrite) : Prop :=
  match entry with
  | declared x initial =>
    w = .assigned (some x) x (if initial.isAbsent then Made.ident "undefined" else initial)
  | binding x e => ∃ ref s, w = .assigned none e (.mk (.ident x ref) s [])
  | value v => w = .assigned none "default" v
  | reexport path imported e => ∃ ref span, .requireBinding ref path span ∈ items ∧
      if imported = "default" then ∃ helper, .helperFunction .interopDefault helper ∈ items ∧
        w = .defined e (Made.getter (Imported.defaultOf helper ref).toNode)
      else w = .defined e (Made.getter (Imported.property ref imported).toNode)
  | wholeModule path e => ∃ ref span, .requireBinding ref path span ∈ items ∧
      if isStrict then w = .defined e (Made.getter (Imported.whole ref).toNode)
      else ∃ helper, .helperFunction .interopWildcard helper ∈ items ∧
        w = .defined e (Made.getter (Imported.wrapped helper ref).toNode)

theorem Realised.mono {isStrict : Bool} {items items' : List Item} (sub : items ⊆ items')
    {entry : ExportEntry} {w : ExportWrite} (h : entry.Realised isStrict items w) :
    entry.Realised isStrict items' w := by
  cases entry with
  | declared | binding | value => exact h
  | reexport path imported e =>
    obtain ⟨ref, span, required, write⟩ := h
    refine ⟨ref, span, sub required, ?_⟩
    split
    · next isDefault =>
      rw [if_pos isDefault] at write
      obtain ⟨helper, listed, eq⟩ := write
      exact ⟨helper, sub listed, eq⟩
    · next other =>
      rw [if_neg other] at write
      exact write
  | wholeModule path e =>
    obtain ⟨ref, span, required, write⟩ := h
    refine ⟨ref, span, sub required, ?_⟩
    split
    · next strict =>
      rw [if_pos strict] at write
      exact write
    · next loose =>
      rw [if_neg loose] at write
      obtain ⟨helper, listed, eq⟩ := write
      exact ⟨helper, sub listed, eq⟩

end ExportEntry

namespace Node

/-- What an exported declarator exports: a plain name, or every name that its pattern takes
apart. -/
def declaratorEntries : Node → List ExportEntry
  | .mk (.declarator _) _ [p, _, initial] =>
    match p.plainName? with
    | some x => [.declared x initial]
    | none => p.boundNames.map fun (x, _) => .binding x x
  | _ => []

def listedExport? : Node → Option ExportEntry
  | .mk (.exportSpecifier false) _ [name, other] => some (.binding name.nameText other.nameText)
  | _ => none

def passedExport? (path : String) : Node → Option ExportEntry
  | .mk (.exportSpecifier false) _ [name, other] =>
    some (.reexport path name.nameText other.nameText)
  | _ => none

theorem specifier_cases (n : Node) :
    (∃ s name other, n = .mk (.exportSpecifier false) s [name, other]) ∨
      ∀ s name other, n ≠ .mk (.exportSpecifier false) s [name, other] :=
  or_iff_not_imp_left.mpr fun not s name other eq => not ⟨s, name, other, eq⟩

def declarationEntries : Node → List ExportEntry
  | .mk (.varDecl ..) _ ds => ds.flatMap declaratorEntries
  | d => d.declaredName?.toList.map fun (x, _) => .binding x x

def exportEntries : Node → List ExportEntry
  | .mk .exportDefault _ [d] =>
    if d.isTypeDefault then []
    else if d.isFunctionDeclaration || d.isClassDeclaration then
      match d.declaredName? with
      | some (x, _) => [.binding x "default"]
      | none => [.value d.asExpression]
    else [.value d]
  | .mk .exportDeclaration _ [d] => if d.isTypeOnly then [] else d.declarationEntries
  | .mk (.exportNamed false) _ specifiers => specifiers.filterMap listedExport?
  | .mk (.exportFrom false path) _ parts => parts.dropLast.filterMap (passedExport? path)
  | .mk (.exportAll false path) _ (name :: _) =>
    if name.isAbsent then [] else [.wholeModule path name.nameText]
  | _ => []

def announcedNames : Node → List String
  | .mk .exportDefault _ [d] =>
    if !d.isTypeDefault && (d.isFunctionDeclaration || d.isClassDeclaration)
      then d.declaredName?.toList.map Prod.fst
    else []
  | .mk .exportDeclaration _ [d] =>
    if d.isTypeOnly then [] else d.exportedByDeclaration.map Prod.fst
  | .mk (.exportNamed false) _ specifiers => (specifierExports specifiers).map Prod.fst
  | .mk (.exportFrom false _) _ parts => (specifierExports parts).map Prod.fst
  | .mk (.exportAll false _) _ (name :: _) => if name.isAbsent then [] else [name.nameText]
  | _ => []

theorem announcedNames_eq (n : Node) : n.announcedNames = n.exposures.map Prod.fst := by
  unfold announcedNames
  split
  · next d =>
    rw [exposures]
    cases d.isTypeDefault <;> cases d.isFunctionDeclaration || d.isClassDeclaration <;> rfl
  · rw [exposures]
    split <;> rfl
  · rw [specifierExports_eq, exposures]
  · rw [specifierExports_eq, exposures]
  · rw [exposures]
    split <;> rfl
  · next notDefault notDeclaration notNames notNamesFrom notAll =>
    rw [exposures.eq_6 _ notDefault notDeclaration notNames notNamesFrom notAll]
    rfl

theorem IsErased.exportEntries {n : Node} (h : n.IsErased) : n.exportEntries = [] := by
  cases h with
  | default isType | declaration isType => exact if_pos isType
  | names | namesFrom | all | «namespace» => rfl

theorem IsWhole.exportEntries {n : Node} (h : n.IsWhole) : n.exportEntries = [] :=
  exportEntries.eq_6 n h.notDefault h.notDeclaration (h.notNames false) (h.notNamesFrom false)
    (h.notAll false)

def isDeclarator : Node → Bool
  | .mk (.declarator _) _ [_, _, _] => true
  | _ => false

def hasDeclarators : Node → Bool
  | .mk (.varDecl ..) _ ds => ds.all isDeclarator
  | _ => true

def exportsDeclarators : Node → Bool
  | .mk .exportDeclaration _ [d] => d.hasDeclarators
  | _ => true

end Node

namespace Draft

def content (r : Draft) : List Item :=
  (r.top ++ r.body).map Prod.snd ++ r.helpers.map fun (h, name) => .helperFunction h name

def exportWrites (r : Draft) : List ExportWrite := r.content.flatMap Item.exportWrites

/-- Every required module has its variable declared, and reads are redirected to such variables
only, all under made-up names. -/
structure Linked (r : Draft) : Prop where
  declared : ∀ path ref, r.requires.get? path = some ref →
    ref.toList.head? = some '_' ∧ ∃ span, .requireBinding ref path span ∈ r.content
  redirects : ∀ e ∈ r.redirects.entries, e.2.object.toList.head? = some '_'

theorem Linked.start (options : Options) (taken : TakenNames) :
    (Draft.start options taken).Linked where
  declared path ref found := by cases found
  redirects e among := by cases among

/-- From one draft to the next, the exports `entries` are set up, each by a write of its own, and
`pairs` are added to the table of exported variables. -/
structure Adds (entries : List ExportEntry) (pairs : List (String × String)) (r r' : Draft) :
    Prop where
  writes : ∃ ws, r'.exportWrites.Perm (r.exportWrites ++ ws) ∧
    List.Forall₂ (ExportEntry.Realised r'.options.strict r'.content) entries ws
  table : r'.exports = pairs.foldl (fun t p => t.add p.1 p.2) r.exports
  content : r.content ⊆ r'.content
  options : r'.options = r.options
  linked : r.Linked → r'.Linked
  preamble : ∀ item ∈ r'.content, item ∈ r.content ∨ item.isPreamble = false
  early : ∀ e ∈ r'.predeclared.names, e ∈ r.predeclared.names ∨
    e ∈ entries.map ExportEntry.exported ∨ e ∈ pairs.map Prod.snd

def exportCore (r : Draft) : Options × List (Helper × String) × ExportTable × RedirectTable ×
    RequireTable × NameList × List (Priority × Item) × List (Priority × Item) :=
  (r.options, r.helpers, r.exports, r.redirects, r.requires, r.predeclared, r.top, r.body)

namespace Adds

variable {entries entries' : List ExportEntry} {pairs pairs' : List (String × String)}
    {r r₁ r' : Draft}

theorem of_core (same : r'.exportCore = r.exportCore) : Adds [] [] r r' := by
  simp only [exportCore, Prod.mk.injEq] at same
  obtain ⟨options, helpers, exports, redirects, requires, predeclared, top, body⟩ := same
  have content : r'.content = r.content := by rw [Draft.content, helpers, top, body]; rfl
  refine ⟨⟨[], ?_, .nil⟩, exports, by rw [content]; exact List.Subset.refl _, options,
    fun known => ?_, fun item among => .inl (content ▸ among), fun e among =>
    .inl (predeclared ▸ among)⟩
  · rw [exportWrites, content, List.append_nil]
    exact .refl _
  · refine ⟨fun path ref found => ?_, fun e among => known.redirects e (redirects ▸ among)⟩
    rw [content]
    exact known.declared path ref (requires ▸ found)

theorem trans (first : Adds entries pairs r r₁) (second : Adds entries' pairs' r₁ r') :
    Adds (entries ++ entries') (pairs ++ pairs') r r' := by
  obtain ⟨ws, perm, realised⟩ := first.writes
  obtain ⟨ws', perm', realised'⟩ := second.writes
  refine ⟨⟨ws ++ ws', ?_, List.rel_append ?_ realised'⟩, ?_, fun _ h => second.content
    (first.content h), second.options.trans first.options, fun known =>
    second.linked (first.linked known), fun item among => ?_, fun e among => ?_⟩
  · rw [← List.append_assoc]
    exact perm'.trans (perm.append_right _)
  · rw [second.options]
    exact realised.imp fun _ _ h => h.mono second.content
  · rw [second.table, first.table, List.foldl_append]
  · rcases second.preamble item among with before | plain
    · exact first.preamble item before
    · exact .inr plain
  · simp only [List.map_append, List.mem_append]
    rcases second.early e among with before | entry | pair
    · rcases first.early e before with old | entry | pair
      · exact .inl old
      · exact .inr (.inl (.inl entry))
      · exact .inr (.inr (.inl pair))
    · exact .inr (.inl (.inr entry))
    · exact .inr (.inr (.inr pair))

theorem perm (h : Adds entries pairs r r') (same : entries'.Perm entries) :
    Adds entries' pairs r r' := by
  obtain ⟨ws, perm, realised⟩ := h.writes
  obtain ⟨ws', realised', reordered⟩ : ∃ ws', List.Forall₂ _ entries' ws' ∧ ws'.Perm ws := by
    have both : Relation.Comp List.Perm
      (List.Forall₂ (ExportEntry.Realised r'.options.strict r'.content)) entries' ws :=
      ⟨entries, same, realised⟩
    rwa [← List.forall₂_comp_perm_eq_perm_comp_forall₂] at both
  exact { h with
    writes := ⟨ws', perm.trans (reordered.symm.append_left _), realised'⟩
    early := fun e among => (h.early e among).imp_right (Or.imp_left (same.map _).mem_iff.mpr) }

theorem congr {q q' : Draft} (h : Adds entries pairs r r') (before : r.exportCore = q.exportCore)
    (after : q'.exportCore = r'.exportCore) : Adds entries pairs q q' := by
  simpa using ((of_core before).trans h).trans (of_core after)

theorem foldl {α : Type} {f : Draft → α → Draft} {e : α → List ExportEntry}
    {p : α → List (String × String)} {as : List α} {base : List Item}
    (step : ∀ r : Draft, base ⊆ r.content → ∀ a ∈ as, Adds (e a) (p a) r (f r a))
    (present : base ⊆ r.content) : Adds (as.flatMap e) (as.flatMap p) r (as.foldl f r) := by
  induction as generalizing r with
  | nil => exact of_core rfl
  | cons a as ih =>
    have first := step r present a List.mem_cons_self
    exact first.trans (ih (fun r kept b among => step r kept b (List.mem_cons_of_mem _ among))
      fun _ h =>
      first.content (present h))

theorem put {item : Item} (perm : r'.content.Perm (r.content ++ [item]))
    (options : r'.options = r.options) (exports : r'.exports = r.exports)
    (predeclared : r'.predeclared = r.predeclared) (linked : r.Linked → r'.Linked)
    (plain : item.isPreamble = false)
    (realised : List.Forall₂ (ExportEntry.Realised r'.options.strict r'.content) entries
    item.exportWrites) :
    Adds entries [] r r' := by
  refine ⟨⟨item.exportWrites, ?_, realised⟩, exports, ?_, options, linked, fun other among => ?_,
    fun e among => .inl (predeclared ▸ among)⟩
  · simpa [exportWrites] using perm.flatMap_right Item.exportWrites
  · exact fun _ h => perm.symm.subset (List.mem_append_left _ h)
  · rcases List.mem_append.mp (perm.subset among) with before | new
    · exact .inl before
    · exact .inr (List.mem_singleton.mp new ▸ plain)

theorem content_keep (r : Draft) (priority : Priority) (item : Item) :
    (r.keep priority item).content.Perm (r.content ++ [item]) := by
  simp only [Draft.content, Draft.keep, List.map_append, List.map_cons, List.map_nil,
    List.append_assoc]
  exact (List.perm_append_comm.append_left _).append_left _

theorem content_hoist (r : Draft) (priority : Priority) (item : Item) :
    (r.hoist priority item).content.Perm (r.content ++ [item]) := by
  simp only [Draft.content, Draft.hoist, List.map_append, List.map_cons, List.map_nil,
    List.append_assoc]
  refine List.Perm.append_left _ ?_
  rw [← List.append_assoc _ _ [item]]
  exact List.perm_append_comm

theorem linked_mono (sub : r.content ⊆ r'.content) (same : r'.requires = r.requires)
    (redirects : r'.redirects = r.redirects) (known : r.Linked) : r'.Linked := by
  refine ⟨fun path ref found => ?_, fun e among => known.redirects e (redirects ▸ among)⟩
  obtain ⟨head, span, listed⟩ := known.declared path ref (same ▸ found)
  exact ⟨head, span, sub listed⟩

theorem keep {item : Item} (priority : Priority) (plain : item.isPreamble = false)
    (realised : List.Forall₂ (ExportEntry.Realised r.options.strict r.content) entries
    item.exportWrites) :
    Adds entries [] r (r.keep priority item) := by
  have perm := content_keep r priority item
  have sub : r.content ⊆ (r.keep priority item).content :=
    fun _ h => perm.symm.subset (List.mem_append_left _ h)
  exact put perm rfl rfl rfl (linked_mono sub rfl rfl) plain (realised.imp fun _ _ h => h.mono sub)

theorem hoist {item : Item} (priority : Priority) (plain : item.isPreamble = false)
    (realised : List.Forall₂ (ExportEntry.Realised r.options.strict r.content) entries
    item.exportWrites) :
    Adds entries [] r (r.hoist priority item) := by
  have perm := content_hoist r priority item
  have sub : r.content ⊆ (r.hoist priority item).content :=
    fun _ h => perm.symm.subset (List.mem_append_left _ h)
  exact put perm rfl rfl rfl (linked_mono sub rfl rfl) plain (realised.imp fun _ _ h => h.mono sub)

theorem keep_silent {item : Item} (priority : Priority) (plain : item.isPreamble = false)
    (silent : item.exportWrites = []) :
    Adds [] [] r (r.keep priority item) := keep priority plain (by rw [silent]; exact .nil)

theorem hoist_silent {item : Item} (priority : Priority) (plain : item.isPreamble = false)
    (silent : item.isSilent = true) :
    Adds [] [] r (r.hoist priority item) :=
  hoist priority plain (by rw [Item.exportWrites_of_isSilent silent]; exact .nil)

theorem add (r : Draft) (x e : String) {predeclared : NameList}
    (early : predeclared = r.predeclared ∨ predeclared = r.predeclared.insert e) :
    Adds [] [(x, e)] r { r with exports := r.exports.add x e, predeclared } where
  writes := ⟨[], by simp [exportWrites, Draft.content], .nil⟩
  table := rfl
  content := List.Subset.refl _
  options := rfl
  linked := linked_mono (List.Subset.refl _) rfl rfl
  preamble item among := .inl among
  early e' among := by
    rcases early with rfl | rfl
    · exact .inl among
    · exact (NameList.mem_insert.mp among).imp_right fun same => .inr (by simp [same])

theorem predeclare (h : Adds entries pairs r r') {e : String}
    (exported : e ∈ entries.map ExportEntry.exported) :
    Adds entries pairs r { r' with predeclared := r'.predeclared.insert e } where
  writes := h.writes
  table := h.table
  content := h.content
  options := h.options
  linked known := linked_mono (List.Subset.refl r'.content) rfl rfl (h.linked known)
  preamble := h.preamble
  early e' among := by
    rcases NameList.mem_insert.mp among with before | rfl
    · exact h.early e' before
    · exact .inr (.inl exported)

theorem noteExportName (r : Draft) (e : String) : Adds [] [] r (r.noteExportName e) := by
  unfold Draft.noteExportName
  split <;> exact of_core rfl

theorem helper (r : Draft) (which : Helper) : Adds [] [] r (r.helper which).2 ∧
    Item.helperFunction which (r.helper which).1 ∈ (r.helper which).2.content := by
  unfold Draft.helper
  split
  · next used name found =>
    have same : used = which := by simpa using List.find?_some found
    subst same
    exact ⟨of_core rfl, List.mem_append_right _
      (List.mem_map.mpr ⟨_, List.mem_of_find?_eq_some found, rfl⟩)⟩
  · have perm : (Draft.content { r with
          taken := (r.taken.generate which.hint).2
          helpers := r.helpers ++ [(which, (r.taken.generate which.hint).1)] }).Perm
        (r.content ++ [.helperFunction which (r.taken.generate which.hint).1]) := by
      simp only [Draft.content, List.map_append, List.map_cons, List.map_nil, List.append_assoc]
      exact .refl _
    have sub := fun i (h : i ∈ r.content) => perm.symm.subset (List.mem_append_left _ h)
    refine ⟨put perm rfl rfl rfl (linked_mono sub rfl rfl) rfl ?_, perm.symm.subset (by simp)⟩
    rw [Item.exportWrites_of_isSilent rfl]
    exact .nil

theorem require (r : Draft) (path : String) (priority : Priority) (span : Option Span) :
    Adds [] [] r (r.require path priority span).2 ∧
    (r.Linked → (r.require path priority span).1.toList.head? = some '_' ∧
      ∃ span', .requireBinding (r.require path priority span).1 path
      span' ∈ (r.require path priority span).2.content) := by
  unfold Draft.require
  split
  · next found => exact ⟨of_core rfl, fun known => known.declared path _ found⟩
  · have head := r.taken.generate_head (moduleBasename path)
    dsimp only
    generalize (r.taken.generate (moduleBasename path)).1 = ref at head
    generalize (r.taken.generate (moduleBasename path)).2 = taken
    let q : Draft := { r with taken := taken, requires := r.requires.insert path ref }
    have perm : (q.hoist priority (.requireBinding ref path span)).content.Perm
        (r.content ++ [.requireBinding ref path span]) := content_hoist q priority _
    have here : .requireBinding ref path
      span ∈ (q.hoist priority (.requireBinding ref path span)).content :=
      perm.symm.subset (by simp)
    refine ⟨?_, fun _ => ⟨head, span, here⟩⟩
    refine put perm rfl rfl rfl (fun known => ⟨fun path' ref' found => ?_, known.redirects⟩) rfl ?_
    · change (r.requires.insert path ref).get? path' = some ref' at found
      rw [OrderedMap.insert, OrderedMap.get?_update] at found
      split at found
      · next same =>
        cases found
        subst same
        exact ⟨head, span, here⟩
      · obtain ⟨head', span', listed⟩ := known.declared path' ref' found
        exact ⟨head', span', perm.symm.subset (List.mem_append_left _ listed)⟩
    · rw [Item.exportWrites_of_isSilent rfl]
      exact .nil

theorem exportValue_realised {isStrict : Bool} {items : List Item} {entry : ExportEntry}
    {e : String} {v : Node} {span : Option Span} (silent : v.exportWrites none = [])
    (h : entry.Realised isStrict items (.assigned none e v)) :
    List.Forall₂ (ExportEntry.Realised isStrict items) [entry]
      (Item.exportValue e v span).exportWrites := by
  rw [Item.exportWrites_exportValue, silent]
  exact .cons h .nil

theorem exportWrites_ident (x : String) (ref : Reference) (s : Option Span) (into : Option String) :
    (Node.mk (.ident x ref) s []).exportWrites into = [] := rfl

theorem exportBehind (r : Draft) (x e : String) (ref : Reference) (s : Option Span) :
    Adds [.binding x e] [(x, e)] r (r.exportBehind x e (.mk (.ident x ref) s [])) := by
  exact (add r x e (.inr rfl)).trans
    (keep Priority.ordinary rfl (exportValue_realised (exportWrites_ident x ref s none)
    ⟨ref, s, rfl⟩))

end Adds

end Draft

end ModuleLowering
