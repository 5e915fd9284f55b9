import ModuleLowering.Proofs.Lower.FreshName
import ModuleLowering.Proofs.Lower.Item
import ModuleLowering.Proofs.Lower.LoweredDeclaration
import ModuleLowering.Proofs.Lower.Scan
import ModuleLowering.Proofs.Lower.Table

/-!
What is true of a module all the while its declarations are taken apart: every name of a required
module or helper was made up on the way, each required module is declared once, and all other
statements declare names that the module had before.
-/

set_option autoImplicit false

namespace ModuleLowering

def Specifier.name : Specifier → String
  | .default name | .namespace name | .named name _ => name

def Item.required? : Item → Option (String × String)
  | .requireBinding binding path _ => some (path, binding)
  | _ => none

def Item.introduces? : Item → Option (DeclarationKind × String)
  | .requireBinding binding _ _ => some (.varName, binding)
  | .helperFunction _ name => some (.function, name)
  | _ => none

/-- A statement that declares none but the module's own names. -/
structure Item.Quiet (own : String → Prop) (item : Item) : Prop where
  introduces : item.introduces? = none
  declared : ∀ x ∈ item.declaredNames, own x
  wellFormed : item.isWellFormed = true

theorem Item.Quiet.required {own : String → Prop} {item : Item} (h : item.Quiet own) :
    item.required? = none := by
  have introduces := h.introduces
  cases item <;> first | rfl | cases introduces

namespace Draft

/-- The names made up so far are those of required modules and helpers; every required module has
its variable declared; all else declares names that are `own`; and imported names are `bound`. -/
structure Sound (base : TakenNames) (own bound : String → Prop) (r : Draft) : Prop where
  generated : ∃ gs, base.Generates gs r.taken ∧
    gs.Perm (r.requires.entries.map Prod.snd ++ r.helpers.map Prod.snd)
  paths : (r.requires.entries.map Prod.fst).Nodup
  required : r.top.filterMap (·.2.required?) = r.requires.entries
  top : ∀ e ∈ r.top, e.2.required? = none → e.2.Quiet own
  body : ∀ e ∈ r.body, e.2.Quiet own
  imports : ∀ e ∈ r.imports.entries, ∀ s ∈ e.2.specifiers, bound s.name
  redirects : ∀ e ∈ r.redirects.entries, bound e.1

def core (r : Draft) : TakenNames × List (Helper × String) × ImportTable × RedirectTable ×
    RequireTable × List (Priority × Item) × List (Priority × Item) :=
  (r.taken, r.helpers, r.imports, r.redirects, r.requires, r.top, r.body)

namespace Sound

variable {base : TakenNames} {own bound : String → Prop} {r : Draft}

theorem start (options : Options) (base : TakenNames) (own bound : String → Prop) :
    (Draft.start options base).Sound base own bound where
  generated := ⟨[], .nothing base, .refl _⟩
  paths := .nil
  required := rfl
  top := by simp [Draft.start]
  body := by simp [Draft.start]
  imports := by simp [Draft.start, OrderedMap.empty]
  redirects := by simp [Draft.start, OrderedMap.empty]

theorem of_core {r' : Draft} (h : r.Sound base own bound) (same : r'.core = r.core) :
    r'.Sound base own bound := by
  simp only [core, Prod.mk.injEq] at same
  obtain ⟨taken, helpers, imports, redirects, requires, top, body⟩ := same
  exact ⟨by rw [taken, requires, helpers]; exact h.generated, by rw [requires]; exact h.paths,
    by rw [top, requires]; exact h.required, by rw [top]; exact h.top, by rw [body]; exact h.body,
    by rw [imports]; exact h.imports, by rw [redirects]; exact h.redirects⟩

theorem note (h : r.Sound base own bound) (e : Event) : (r.note e).Sound base own bound :=
  h.of_core rfl

theorem predeclare (h : r.Sound base own bound) (names : NameList) :
    { r with predeclared := names }.Sound base own bound := h.of_core rfl

theorem noteExportName (h : r.Sound base own bound) (x : String) :
    (r.noteExportName x).Sound base own bound := by
  unfold Draft.noteExportName
  split <;> exact h.of_core rfl

theorem keep (h : r.Sound base own bound) (priority : Priority) {item : Item}
    (quiet : item.Quiet own) :
    (r.keep priority item).Sound base own bound where
  generated := h.generated
  paths := h.paths
  required := h.required
  top := h.top
  body e among := by
    rcases List.mem_append.mp among with old | new
    · exact h.body e old
    · exact List.mem_singleton.mp new ▸ quiet
  imports := h.imports
  redirects := h.redirects

theorem hoist (h : r.Sound base own bound) (priority : Priority) {item : Item}
    (quiet : item.Quiet own) :
    (r.hoist priority item).Sound base own bound where
  generated := h.generated
  paths := h.paths
  required := by simp [Draft.hoist, quiet.required, h.required]
  top e among _ := by
    rcases List.mem_append.mp among with old | new
    · exact h.top e old ‹_›
    · exact List.mem_singleton.mp new ▸ quiet
  body := h.body
  imports := h.imports
  redirects := h.redirects

theorem helper (h : r.Sound base own bound) (which : Helper) :
    (r.helper which).2.Sound base own bound := by
  unfold Draft.helper
  split
  · exact h
  · obtain ⟨gs, generates, perm⟩ := h.generated
    refine ⟨⟨_, generates.trans (.one r.taken which.hint), ?_⟩, h.paths, h.required, h.top, h.body,
      h.imports, h.redirects⟩
    simp only [List.map_append, List.map_cons, List.map_nil, ← List.append_assoc]
    exact perm.append_right _

theorem require (h : r.Sound base own bound) (source : String) (priority : Priority)
    (span : Option Span) :
    (r.require source priority span).2.Sound base own bound := by
  unfold Draft.require
  split
  · exact h
  · next missing =>
    obtain ⟨gs, generates, perm⟩ := h.generated
    have entries :=
      OrderedMap.entries_insert_of_none missing (r.taken.generate (moduleBasename source)).1
    refine ⟨⟨_, generates.trans (.one r.taken (moduleBasename source)), ?_⟩, ?_, ?_, ?_,
      h.body, h.imports, h.redirects⟩
    · simp only [Draft.note, Draft.hoist, entries, List.map_append, List.map_cons, List.map_nil]
      refine (perm.append_right _).trans ?_
      rw [List.append_assoc, List.append_assoc]
      exact List.Perm.append_left _ List.perm_append_comm
    · have new : source ∉ r.requires.entries.map Prod.fst := by
        rintro among
        obtain ⟨entry, listed, rfl⟩ := List.mem_map.mp among
        simpa using List.find?_eq_none.mp (Option.map_eq_none_iff.mp missing) entry listed
      simp only [Draft.note, Draft.hoist, entries, List.map_append, List.map_cons, List.map_nil]
      exact List.nodup_append_comm.mp (List.nodup_cons.mpr ⟨new, h.paths⟩)
    · simp only [Draft.note, Draft.hoist, List.filterMap_append, h.required, entries]
      rfl
    · intro e among none
      rcases List.mem_append.mp among with old | new
      · exact h.top e old none
      · rw [List.mem_singleton.mp new] at none
        cases none

theorem foldl {α : Type} {f : Draft → α → Draft} {as : List α} (h : r.Sound base own bound)
    (step : ∀ r : Draft, ∀ a ∈ as, r.Sound base own bound → (f r a).Sound base own bound) :
    (as.foldl f r).Sound base own bound := by
  induction as generalizing r with
  | nil => exact h
  | cons a as ih =>
    exact ih (step r a List.mem_cons_self h) fun r b among =>
      step r b (List.mem_cons_of_mem _ among)

theorem exportBehind (h : r.Sound base own bound) (x exported : String) {value : Node}
    (declared : ∀ y ∈ value.declaredNames false, own y) (wellFormed : value.isWellFormed = true) :
    (r.exportBehind x exported value).Sound base own bound := by
  refine keep ?_ _ ⟨rfl, declared, wellFormed⟩
  exact h.of_core rfl

end Sound

end Draft

def Node.importedNames : Node → List String
  | .mk (.importDecl ..) _ parts => (parts.dropLast.filterMap specifier?).map Specifier.name
  | _ => []

/-- What a module takes from its statements is true of the statement `n`. -/
structure Node.Owned (own bound : String → Prop) (n : Node) : Prop where
  declared : ∀ x ∈ n.declaredNames false, own x
  wellFormed : n.isWellFormed = true
  imported : ∀ x ∈ n.importedNames, bound x

theorem Node.quiet_kept {own : String → Prop} {n : Node}
    (declared : ∀ x ∈ n.declaredNames false, own x) (wellFormed : n.isWellFormed = true) :
    (Item.kept n).Quiet own := ⟨rfl, declared, wellFormed⟩

theorem Made.quiet_exportValue (own : String → Prop) (exported x : String) (span : Option Span) :
    (Item.exportValue exported (ident x) span).Quiet own :=
      ⟨rfl, by
        simp [Item.declaredNames, ident, Node.made, Node.declaredNames, Node.declaredNamesOfParts,
          Form.declaredNames], rfl⟩

theorem Node.declaredNames_only {f : Form} {s : Option Span} {d : Node} {x : String}
    (plain : f.declaresIn false 0 = false) (declared : x ∈ d.declaredNames false) :
    x ∈ (mk f s [d]).declaredNames false := by
  simp [declaredNames, declaredNamesOfParts, plain, declared]

theorem Node.isWellFormed_asExpression (d : Node) :
    d.asExpression.isWellFormed = d.isWellFormed := by
  unfold asExpression
  split <;> rfl

namespace Draft

theorem isWellFormed_exportDeclarator {d : Node} (wellFormed : d.isWellFormed = true) :
    (exportDeclarator d).isWellFormed = true := by
  unfold exportDeclarator
  split
  · next isDefinite s p t value =>
    obtain ⟨_, parts⟩ := Node.isWellFormed_mk.mp wellFormed
    have filled : (if value.isAbsent then Made.ident "undefined" else value).isWellFormed =
      true := by
      split
      · rfl
      · exact parts value (by simp)
    have exported (name : String) (v : Node) :
        (Made.exportAssignment name v).isWellFormed = v.isWellFormed :=
      Made.isWellFormed_exportChain [name] v
    dsimp only
    split <;> simp [Node.isWellFormed_mk, Form.fits, exported, filled, parts p (by simp),
      parts t (by simp)]
  · exact wellFormed

namespace Sound

variable {base : TakenNames} {own bound : String → Prop} {r : Draft}

theorem noteDeclarator (h : r.Sound base own bound) (d : Node) :
    (r.noteDeclarator d).Sound base own bound := by
  unfold Draft.noteDeclarator
  dsimp only
  split <;> exact h.of_core rfl

theorem exportIdent (h : r.Sound base own bound) (x exported : String) :
    (r.exportBehind x exported (Made.ident x)).Sound base own bound :=
  h.exportBehind x exported
    (by
    simp [Made.ident, Node.made, Node.declaredNames, Node.declaredNamesOfParts, Form.declaredNames])
      rfl

theorem exportDeclaration (h : r.Sound base own bound) {d : Node}
    (declared : ∀ x ∈ d.declaredNames false, own x) (wellFormed : d.isWellFormed = true)
    (priority : Priority) :
    (r.exportDeclaration d priority).Sound base own bound := by
  have quiet := Node.quiet_kept declared wellFormed
  unfold Draft.exportDeclaration
  split
  · -- A function is exported before it is reached.
    dsimp only
    split
    · next x _ _ =>
      refine keep (hoist ?_ _ (Made.quiet_exportValue own x x none)) _ quiet
      exact (h.noteExportName x).of_core rfl
    · exact h.keep _ quiet
  · next kind isDeclared s ds =>
    obtain ⟨_, parts⟩ := Node.isWellFormed_mk.mp wellFormed
    have noted : (ds.foldl Draft.noteDeclarator r).Sound base own bound :=
      h.foldl fun _ d _ sound => sound.noteDeclarator d
    have declarators :
        (Item.kept (.mk (.varDecl kind isDeclared) s (ds.map exportDeclarator))).Quiet own := by
      refine Node.quiet_kept (fun x among => declared x ?_) (Node.isWellFormed_mk.mpr ⟨rfl, ?_⟩)
      · simp only [Node.declaredNames, List.mem_append, Node.mem_declaredNamesOfParts,
          List.getElem?_map, Option.map_eq_some_iff] at among ⊢
        rcases among with none | ⟨j, _, ⟨d, found, rfl⟩, below⟩
        · cases none
        · refine .inr ⟨j, d, found, Node.declaredNames_of_declarations (fun _ e listed => ?_) below⟩
          exact ⟨e, declarations_exportDeclarator listed, rfl, id⟩
      · simp only [List.forall_mem_map]
        exact fun d among => isWellFormed_exportDeclarator (parts d among)
    exact (noted.keep _ declarators).foldl fun _ x _ sound => sound.exportIdent x x
  · dsimp only
    split
    · exact ((h.keep _ quiet).noteExportName _).exportIdent _ _
    · exact h.keep _ quiet

theorem exportDefault (h : r.Sound base own bound) {d : Node}
    (declared : ∀ x ∈ d.declaredNames false, own x) (wellFormed : d.isWellFormed = true)
    (span : Option Span) (priority : Priority) :
    (r.exportDefault d span priority).Sound base own bound := by
  have quiet := Node.quiet_kept declared wellFormed
  have expression (span : Option Span) :
      (Item.exportValue "default" d.asExpression span).Quiet own :=
    ⟨rfl, fun x among => declared x
      (Node.declaredNames_of_declarations (fun _ _ => Node.declarations_asExpression) among), by
      simpa only [Item.isWellFormed, Node.isWellFormed_asExpression] using wellFormed⟩
  have named (x : String) := Made.quiet_exportValue own "default" x none
  unfold Draft.exportDefault
  dsimp only
  split
  · split
    · refine keep (hoist ?_ _ (named _)) _ quiet
      exact h.of_core rfl
    · refine hoist ?_ _ (expression none)
      exact h.of_core rfl
  · split
    · split
      · refine keep (keep ?_ _ quiet) _ (named _)
        exact h.of_core rfl
      · refine keep ?_ _ (expression span)
        exact h.of_core rfl
    · refine keep ?_ _ ⟨rfl, declared, wellFormed⟩
      exact h.of_core rfl

theorem exportName (h : r.Sound base own bound) (n : Node) :
    (r.exportName n).Sound base own bound := by
  unfold Draft.exportName
  split
  · next name other =>
    refine note (exportBehind (h.noteExportName _) _ _ ?_ ?_) _
    all_goals
      split
      · simp [Node.declaredNames, Node.declaredNamesOfParts, Form.declaredNames, Node.isWellFormed,
          Node.areWellFormed, Form.fits]
      · simp [Made.ident, Node.made, Node.declaredNames, Node.declaredNamesOfParts,
          Form.declaredNames, Node.isWellFormed, Node.areWellFormed, Form.fits]
  · exact h

theorem quiet_exportGetter (own : String → Prop) (exported : String) (value : Imported) :
    (Item.exportGetter exported value).Quiet own := ⟨rfl, by simp [Item.declaredNames], rfl⟩

theorem reexportName (h : r.Sound base own bound) (source binding : String) (n : Node) :
    (r.reexportName source binding n).Sound base own bound := by
  unfold Draft.reexportName
  split
  · dsimp only
    refine note (predeclare (hoist ?_ _ (quiet_exportGetter own _ _)) _) _
    split
    · exact (h.noteExportName _).helper .interopDefault
    · exact h.noteExportName _
  · exact h

theorem reexport (h : r.Sound base own bound) (source : String) (specifiers : List Node)
    (priority : Priority) :
    (r.reexport source specifiers priority).Sound base own bound :=
  (h.require source priority _).foldl fun _ n _ sound => sound.reexportName source _ n

theorem exportAll (h : r.Sound base own bound) (key : own "key") (source : String) (name : Node)
    (span : Option Span) (priority : Priority) : (r.exportAll source name span priority).Sound base
    own bound := by
  have required : (Draft.require { r with hasExports := true } source priority
      (r.imports.spanOf source)).2.Sound base own bound := by
    refine require ?_ source priority _
    exact h.of_core rfl
  unfold Draft.exportAll
  dsimp only
  split
  · refine note (hoist ?_ _ ⟨rfl, ?_, rfl⟩) _
    · exact required.of_core rfl
    · intro x among
      obtain rfl : x = "key" := by simpa [Item.declaredNames] using among
      exact key
  · refine note (predeclare (hoist ?_ _ (quiet_exportGetter own _ _)) _) _
    split
    · exact required.noteExportName _
    · exact (required.noteExportName _).helper .interopWildcard

theorem recordImport (h : r.Sound base own bound) (isType : Bool) (source : String)
    (span : Option Span) {specifiers : List Node}
    (imported : ∀ x ∈ (specifiers.filterMap Node.specifier?).map Specifier.name, bound x)
    (priority : Priority) : (r.recordImport isType source span specifiers priority).Sound base
    own bound := by
  unfold Draft.recordImport
  dsimp only
  split
  · exact h.note _
  · refine ⟨h.generated, h.paths, h.required, h.top, h.body, fun e among s listed =>
      ?_, h.redirects⟩
    have new : ∀ s ∈ specifiers.filterMap Node.specifier?, bound s.name :=
      fun s listed => imported _ (List.mem_map_of_mem listed)
    rcases OrderedMap.mem_update among with old | rfl | ⟨group, held, rfl⟩
    · exact h.imports e old s listed
    · exact new s (by simpa using listed)
    · rcases List.mem_append.mp listed with before | here
      · exact h.imports _ held s before
      · exact new s here

theorem scanStatement {hints : Hints} {n : Node} {r' : Draft} (h : r.Sound base own bound)
    (key : own "key") (owned : n.Owned own bound) (scanned : r.scanStatement hints n = .ok r') :
    r'.Sound base own bound := by
  have inside {d : Node} {f : Form} {s : Option Span} (eq : n = .mk f s [d])
    (plain : f.declaresIn false 0 = false) :
      (∀ x ∈ d.declaredNames false, own x) ∧ d.isWellFormed = true := by
    subst eq
    exact ⟨fun x among => owned.declared x (Node.declaredNames_only plain among),
      (Node.isWellFormed_mk.mp owned.wellFormed).2 d (List.mem_singleton_self d)⟩
  cases Scans.of_ok scanned with
  | imported => exact h.recordImport _ _ _ owned.imported _
  | erased => exact h.of_core rfl
  | default =>
    obtain ⟨declared, wellFormed⟩ := inside rfl rfl
    exact (h.exportDefault declared wellFormed _ _).note _
  | declaration =>
    obtain ⟨declared, wellFormed⟩ := inside rfl rfl
    refine exportDeclaration ?_ declared wellFormed _
    exact h.of_core rfl
  | names =>
    refine foldl ?_ fun _ n _ sound => sound.exportName n
    exact h.of_core rfl
  | namesFrom =>
    refine reexport ?_ _ _ _
    exact h.of_core rfl
  | all => exact h.exportAll key _ _ _ _
  | assigned =>
    obtain ⟨declared, wellFormed⟩ := inside rfl rfl
    exact h.keep _ ⟨rfl, declared, wellFormed⟩
  | whole => exact h.keep _ (Node.quiet_kept owned.declared owned.wellFormed)

theorem scan {hints : Hints} {ns : List Node} {r' : Draft} (h : r.Sound base own bound)
    (key : own "key") (owned : ∀ n ∈ ns, n.Owned own bound) (scanned : r.scan hints ns = .ok r') :
    r'.Sound base own bound := by
  induction ns generalizing r with
  | nil => cases scanned; exact h
  | cons n ns ih =>
    obtain ⟨r₁, first, rest⟩ := bind_eq_ok_iff.mp scanned
    exact ih (h.scanStatement key (owned n List.mem_cons_self) first)
      (fun m among => owned m (List.mem_cons_of_mem _ among)) rest

theorem redirect (h : r.Sound base own bound) {x : String} (known : bound x) (target : Redirect) :
    { r with redirects := r.redirects.insert x target }.Sound base own bound := by
  refine ⟨h.generated, h.paths, h.required, h.top, h.body, h.imports, fun e among => ?_⟩
  rcases OrderedMap.mem_update among with old | rfl | ⟨_, _, rfl⟩
  · exact h.redirects e old
  · exact known
  · exact known

theorem importVariable (h : r.Sound base own bound) {x : String} (declared : own x)
    (priority : Priority) (value : Imported) (span : Option Span) :
    (r.hoist priority (.importVariable x value span)).Sound base own bound :=
  h.hoist priority ⟨rfl, by simpa [Item.declaredNames] using declared, rfl⟩

theorem bindNamespace (h : r.Sound base own bound) (declared : ∀ x, bound x → own x)
    (binding : String) (group : ImportGroup) {s : Specifier} (known : bound s.name) :
    (r.bindNamespace binding group s).Sound base own bound := by
  cases s with
  | «namespace» x =>
    simp only [Draft.bindNamespace]
    split
    · exact h.redirect known _
    · exact (h.helper .interopWildcard).importVariable (declared x known) _ _ _
  | default | named => exact h

theorem bindImported (h : r.Sound base own bound) (declared : ∀ x, bound x → own x)
    (binding : String) (group : ImportGroup) {x : String} (known : bound x) (imported : String) :
    (r.bindImported binding group x imported).Sound base own bound := by
  unfold Draft.bindImported
  split
  · exact (h.helper .interopDefault).importVariable (declared x known) _ _ _
  · exact (h.redirect known _).importVariable (declared x known) _ _ _

theorem bindName (h : r.Sound base own bound) (declared : ∀ x, bound x → own x) (binding : String)
    (group : ImportGroup) {s : Specifier} (known : bound s.name) :
    (r.bindName binding group s).Sound base own bound := by
  cases s with
  | «namespace» => exact h
  | default x => exact h.bindImported declared binding group known "default"
  | named x imported => exact h.bindImported declared binding group known imported

theorem lowerGroup (h : r.Sound base own bound) (declared : ∀ x, bound x → own x) (source : String)
    {group : ImportGroup} (known : ∀ s ∈ group.specifiers, bound s.name) :
    (r.lowerGroup source group).Sound base own bound := by
  unfold Draft.lowerGroup
  split
  · exact h.hoist _ ⟨rfl, by simp [Item.declaredNames], rfl⟩
  · refine note (foldl (foldl (h.require source _ _) ?_) ?_) _
    · exact fun _ s among sound => sound.bindNamespace declared _ group (known s among)
    · exact fun _ s among sound => sound.bindName declared _ group (known s among)

theorem lowerImports (h : r.Sound base own bound) (declared : ∀ x, bound x → own x) :
    r.lowerImports.Sound base own bound := by
  unfold Draft.lowerImports
  refine foldl ?_ fun _ e among sound => sound.lowerGroup declared e.1 (h.imports e among)
  exact ⟨h.generated, h.paths, h.required, h.top, h.body, by
    simp [OrderedMap.empty], h.redirects⟩

end Sound

end Draft

end ModuleLowering
