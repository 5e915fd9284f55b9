import ModuleLowering.Proofs.Lower.ExternalName
import ModuleLowering.Proofs.Lower.Layout
import ModuleLowering.Proofs.Lower.StarItem
import ModuleLowering.Proofs.Trace.RepeatedDefinition

/-!
A module that exports names of its own and passes on all exports of other modules. Only its own code
can stop it as long as no property is defined twice; a key of another module takes the place of what
the module exports under that name. Where a property is defined twice, the module does not come to
its end, unless the property was exported before.
-/

set_option autoImplicit false

namespace ModuleLowering

variable {V : Type} {S : Supply V}

def Imported.read (S : Supply V) (path : String) : Imported → V
  | .whole _ => S.whole path
  | .wrapped .. => S.wrapped path
  | .defaultOf .. => S.defaultOf path
  | .property _ name => S.entry path name

section
variable {modules : String → Option String} {path : String}

theorem Made.module?_ident {b : String} (loaded : modules b = some path) :
    (ident b).module? modules = some path :=
  loaded

theorem Imported.valueIn_toNode {value : Imported} (loaded : modules value.binding = some path) :
    value.toNode.valueIn S modules none = some (value.read S path) := by
  cases value with
  | whole b =>
    have whole := congrArg (Option.map S.whole) (Made.module?_ident loaded)
    exact (congrArg (· <|> _) whole).trans rfl
  | wrapped h b => exact congrArg (Option.map S.wrapped) (Made.module?_ident loaded)
  | defaultOf h b => exact congrArg (Option.map S.defaultOf) (Made.module?_ident loaded)
  | property b name =>
    have known : modules b = some path := loaded
    rw [toNode, Made.member]
    split
    all_goals
      simp only [Node.made, Node.valueIn, Made.module?_ident known]
      rfl

theorem valueIn_starCode {b key : String} (loaded : modules b = some path) :
    (starCode b).valueIn S modules (some ("key", key)) = some (S.entry path key) := by
  simp only [starCode, Node.made, Node.valueIn, Made.module?_ident loaded]
  rfl

end

/-- What an export reads as in the end, if other modules hold `S` and a module itself has had some
effects. -/
def ExportEntry.valueIn (S : Supply V) (isStrict : Bool) (τ : List (Effect V)) :
    ExportEntry → Option V
  | .declared x _ => lastExported x τ
  | .binding _ exported => lastExported exported τ
  | .value _ => lastExported "default" τ
  | .reexport path imported _ =>
    some (if imported = "default" then S.defaultOf path else S.entry path imported)
  | .wholeModule path _ => some (if isStrict then S.whole path else S.wrapped path)

def ExportEntry.passedName? : ExportEntry → Option String
  | .reexport _ _ exported | .wholeModule _ exported => some exported
  | _ => none

def ExportWrite.definedName? : ExportWrite → Option String
  | .assigned .. => none
  | .defined name _ => some name

theorem ExportEntry.Realised.definedName? {isStrict : Bool} {items : List Item}
    {entry : ExportEntry} {w : ExportWrite} (h : entry.Realised isStrict items w) :
    w.definedName? = entry.passedName? := by
  cases entry with
  | declared | value =>
    obtain rfl := h
    rfl
  | binding =>
    obtain ⟨_, _, rfl⟩ := h
    rfl
  | reexport =>
    obtain ⟨_, _, -, write⟩ := h
    split at write
    · obtain ⟨_, -, rfl⟩ := write
      rfl
    · rw [write]
      rfl
  | wholeModule =>
    obtain ⟨_, _, -, write⟩ := h
    split at write
    · rw [write]
      rfl
    · obtain ⟨_, -, rfl⟩ := write
      rfl

theorem ExportEntry.passedName?_of_pair? {entry : ExportEntry} {pair : String × String}
    (h : entry.pair? = some pair) : entry.passedName? = none := by
  cases entry
  case reexport | wholeModule => cases h
  all_goals rfl

/-- The exports that have the value of a variable or an expression. -/
def ownNames (entries : List ExportEntry) : List String :=
  (entries.filter (·.passedName?.isNone)).map ExportEntry.exported

theorem mem_ownNames {entries : List ExportEntry} {e : String} :
    e ∈ ownNames entries ↔ ∃ entry ∈ entries, entry.passedName? = none ∧ entry.exported = e := by
  simp [ownNames, and_assoc]

namespace Node

theorem mem_exportWritesOfParts {f : Form} {all ps : List Node} {i : Nat} {w : ExportWrite}
    (write : w ∈ exportWritesOfParts f all i ps) :
    ∃ (j : Nat) (p : Node) (into : Option String), ps[j]? = some p ∧ w ∈ p.exportWrites into := by
  induction ps generalizing i with
  | nil => cases write
  | cons p ps ih =>
    rw [exportWritesOfParts] at write
    rcases List.mem_append.mp write with here | later
    · exact ⟨0, p, _, rfl, here⟩
    · obtain ⟨j, q, into, found, inside⟩ := ih later
      exact ⟨j + 1, q, into, found, inside⟩

theorem insertedAt_of_defined {n : Node} {into : Option String} {name : String} {descriptor : Node}
    (write : .defined name descriptor ∈ n.exportWrites into) :
    ∃ way, n.insertedAt way = some "Object" := by
  induction n using Node.induction generalizing into with
  | step f s ps ih =>
  rw [exportWrites] at write
  rcases List.mem_append.mp write with here | inside
  · have found := Option.mem_toList.mp here
    unfold exportWrite? at found
    split at found
    · obtain ⟨_, -, eq⟩ := Option.map_eq_some_iff.mp found
      cases eq
    · split at found
      · next callee _ _ _ _ eq defines =>
        cases eq
        have isObject := (Bool.and_eq_true_iff.mp defines).1
        unfold isDefineProperty at isObject
        split at isObject
        · next o _ =>
          obtain ⟨f, s, ps⟩ := o
          have object : f = .ident "Object" .none := eq_of_beq (Bool.and_eq_true_iff.mp isObject).1
          refine ⟨[0, 0], ?_⟩
          rw [object]
          rfl
        · cases isObject
      · cases found
    · cases found
  · split at inside
    · cases inside
    · next parted =>
      obtain ⟨j, p, into', child, below⟩ := mem_exportWritesOfParts inside
      obtain ⟨way, inserted⟩ := ih p (List.mem_of_getElem? child) below
      exact ⟨j :: way, (insertedAt_part (by simpa using parted) child way).trans inserted⟩

end Node

theorem Item.Carries.definedNames {item : Item} (carries : item.Carries) :
    item.exportWrites.filterMap ExportWrite.definedName? = item.getter?.toList := by
  cases carries with
  | nothing made =>
    cases item
    case kept | exportValue | moduleExports => cases made
    case moduleFlag | predeclaration | exportStar => rfl
    case exportGetter =>
      rw [exportWrites_exportGetter]
      rfl
    all_goals
      rw [exportWrites_of_isSilent rfl]
      rfl
  | statement lookedUp =>
    rw [exportWrites_kept, Node.exportWrites_of_isLookedUp lookedUp]
    rfl
  | declaration kind isDeclared s lookedUp =>
    refine List.filterMap_eq_nil_iff.mpr fun w write => ?_
    cases w with
    | assigned => rfl
    | defined name descriptor =>
      -- Nothing of `Object` is put into a declaration.
      obtain ⟨way, inserted⟩ := Node.insertedAt_of_defined write
      cases way with
      | nil => cases Node.insertedAt_nil inserted
      | cons i way =>
        obtain ⟨-, p, child, below⟩ := Node.insertedAt_cons inserted
        obtain ⟨d, among, rfl⟩ := List.mem_map.mp (List.mem_of_getElem? child)
        rcases Node.insertedAt_exportDeclarator (lookedUp d among) below with eq | eq
        all_goals exact absurd eq (by decide)
  | value name span quiet =>
    rw [exportWrites_exportValue, quiet]
    rfl
  | whole span quiet =>
    rw [exportWrites_moduleExports, quiet]
    rfl

theorem Item.isPreamble_of_presets {item : Item} {name : String} (preset : name ∈ item.presets) :
    item.isPreamble = true := by
  cases item
  case moduleFlag | predeclaration => rfl
  all_goals cases preset

/-- The flag, if the statement defines it. -/
def Item.definedFlag? : Item → Option String
  | .moduleFlag false => some "__esModule"
  | _ => none

theorem Item.fixed_eq (keys : String → List String) (item : Item) :
    item.fixed keys =
      item.definedFlag?.toList ++ (item.getter?.toList ++ item.star?.toList.flatMap keys) := by
  cases item
  case moduleFlag isPlain => cases isPlain <;> rfl
  case exportStar => exact (List.append_nil _).symm
  all_goals rfl

/-- Whether a property is set early, so that it can be defined again and again. -/
def IsPreset (isPlain : Bool) (ns : List Node) (name : String) : Prop :=
  name = "__esModule" ∧ isPlain = true ∨
    name ∈ ns.flatMap Node.lateNames ∧ ns.filterMap Node.importedPath? ≠ []

instance (isPlain : Bool) (ns : List Node) (name : String) : Decidable (IsPreset isPlain ns name) :=
  inferInstanceAs (Decidable (_ ∨ _))

def Draft.pathOf (r : Draft) (b : String) : String :=
  ((r.requires.entries.find? (·.2 = b)).map Prod.fst).getD ""

namespace Draft

variable {r : Draft}

theorem Sound.pathOf {base : TakenNames} {own bound : String → Prop}
    (sound : r.Sound base own bound) {path b : String} (among : (path, b) ∈ r.requires.entries) :
    r.pathOf b = path := by
  obtain ⟨entry, found⟩ : ∃ entry, r.requires.entries.find? (·.2 = b) = some entry :=
    Option.isSome_iff_exists.mp (List.find?_isSome.mpr ⟨_, among, by simp⟩)
  have same : entry.2 = b := by simpa using List.find?_some found
  obtain ⟨listed, name⟩ := sound.mem_requires.mp among
  obtain ⟨listed', name'⟩ := sound.mem_requires.mp (List.mem_of_find?_eq_some found)
  rw [Draft.pathOf, found]
  exact sound.apart _ listed' _ listed (name'.trans (same.trans name.symm))

theorem flatMap_fixed_perm (items : List Item) (keys : String → List String) :
    (items.flatMap (Item.fixed keys)).Perm (items.filterMap Item.definedFlag? ++
      (items.filterMap Item.getter? ++ (items.filterMap Item.star?).flatMap keys)) := by
  have stars : (items.filterMap Item.star?).flatMap keys =
      items.flatMap (fun item => item.star?.toList.flatMap keys) := by
    rw [List.filterMap_eq_flatMap_toList, List.flatMap_assoc]
  rw [funext (Item.fixed_eq keys), List.filterMap_eq_flatMap_toList,
    List.filterMap_eq_flatMap_toList, stars]
  refine (List.flatMap_append_perm ..).symm.trans ?_
  exact (List.flatMap_append_perm ..).symm.append_left _

theorem getter?_items (carries : ∀ item ∈ r.items, item.Carries) :
    r.items.filterMap Item.getter? =
      (r.items.flatMap Item.exportWrites).filterMap ExportWrite.definedName? := by
  rw [List.filterMap_flatMap, List.filterMap_eq_flatMap_toList]
  exact List.flatMap_congr fun item among => (carries item among).definedNames.symm

section
variable {options : Options} {taken : TakenNames} {entries : List ExportEntry}
    {pairs : List (String × String)} (h : Adds entries pairs (Draft.start options taken) r)
include h

theorem Adds.definedNames_perm :
    ((r.items.flatMap Item.exportWrites).filterMap ExportWrite.definedName?).Perm
      (entries.filterMap ExportEntry.passedName?) := by
  obtain ⟨ws, perm, realised⟩ := h.writes
  have same : List.Forall₂ (· = ·) (entries.map ExportEntry.passedName?)
    (ws.map ExportWrite.definedName?) :=
    List.forall₂_map_left_iff.mpr
      (List.forall₂_map_right_iff.mpr (realised.imp fun _ _ h => h.definedName?.symm))
  rw [List.forall₂_eq_eq_eq] at same
  refine ((r.exportWrites_items.trans perm).filterMap _).trans (.of_eq ?_)
  show ws.filterMap ExportWrite.definedName? = _
  simpa only [List.filterMap_map, Function.id_comp] using congrArg (List.filterMap id) same.symm

theorem Adds.exists_realised {w : ExportWrite} (write : w ∈ r.exportWrites) :
    ∃ entry ∈ entries, entry.Realised r.options.strict r.content w := by
  obtain ⟨ws, perm, realised⟩ := h.writes
  obtain ⟨⟨i, bound⟩, rfl⟩ := List.mem_iff_get.mp
    ((List.mem_append.mp (perm.mem_iff.mp write)).resolve_left List.not_mem_nil)
  exact ⟨_, List.get_mem entries ⟨i, realised.length_eq ▸ bound⟩, realised.get _ bound⟩

/-- The code of a statement assigns to the exports that have values of the module's own, but for
those that it sets early. -/
theorem Adds.isConfined {item : Item} (among : item ∈ r.items) :
    item.IsConfined (ownNames entries) := by
  intro e written
  obtain ⟨w, write, into, value, rfl⟩ := Node.exists_assigned_of_mem_writes written none
  have defined : e ∈ item.toNode.definedNames := List.mem_map.mpr ⟨_, write, rfl⟩
  rcases items_cases among with inside | ⟨isPlain, rfl⟩ | rfl | rfl
  · have listed : .assigned into e value ∈ r.exportWrites := by
      refine List.mem_flatMap.mpr ⟨item, inside, ?_⟩
      rwa [Item.exportWrites, h.isCollective_of_definedNames inside defined]
    obtain ⟨entry, known, realised⟩ := h.exists_realised listed
    exact .inl (mem_ownNames.mpr ⟨entry, known, realised.definedName?.symm, realised.name.symm⟩)
  · cases isPlain with
    | true =>
      rw [Item.definedNames_moduleFlag] at defined
      exact .inr defined
    | false =>
      simp only [Item.toNode, Made.exportWrites_expression] at write
      rw [Made.exportWrites_defineExport "__esModule" fun _ => rfl] at write
      cases List.mem_singleton.mp write
  · exact .inr (Item.mem_definedNames_predeclaration.mp defined)
  · rw [Item.definedNames_eq rfl, Item.exportWrites_of_isSilent rfl] at defined
    cases defined

theorem Adds.own_of_lists (same : pairs.Perm (entries.filterMap ExportEntry.pair?)) {x e : String}
    (listed : r.exports.Lists x e) : e ∈ ownNames entries := by
  have table : r.exports = ExportTable.ofPairs pairs := h.table
  rw [table, ExportTable.lists_ofPairs] at listed
  obtain ⟨entry, known, pair⟩ := List.mem_filterMap.mp (same.mem_iff.mp listed)
  exact mem_ownNames.mpr ⟨entry, known, ExportEntry.passedName?_of_pair? pair,
    ExportEntry.exported_of_pair? pair⟩

end

section
variable {σ : Naming} {options : Options} {hints : Hints} {ns : List Node}
    (h : r.Placed σ options hints ns)
include h

theorem Placed.eq_plainFlag {isPlain : Bool} (among : .moduleFlag isPlain ∈ r.items) :
    isPlain = r.options.plainFlag := by
  have flag : .moduleFlag isPlain ∈ r.items.filter Item.isFlag := List.mem_filter.mpr ⟨among, rfl⟩
  rw [h.filter_isFlag] at flag
  exact Item.moduleFlag.inj (mem_flagItems flag)

theorem Placed.flags_items {f : Item → Option String}
    (others : ∀ item : Item, item.isFlag = false → f item = none) (marked : r.hasExports = true) :
    r.items.filterMap f = (f (.moduleFlag options.plainFlag)).toList := by
  have flags : r.items.filterMap f = (r.items.filter Item.isFlag).filterMap f := by
    rw [List.filterMap_filter]
    refine List.filterMap_congr fun item _ => ?_
    cases flag : item.isFlag with
    | true => rfl
    | false => exact others item flag
  rw [flags, h.filter_isFlag, flagItems, if_pos marked, h.given, List.filterMap_cons]
  cases f (.moduleFlag options.plainFlag) <;> rfl

theorem Placed.mem_items_predeclaration {early : List String} :
    .predeclaration early ∈ r.items ↔ .predeclaration early ∈ r.earlyItems := by
  rw [r.items_perm.mem_iff, unarranged_eq, List.mem_append, List.mem_append,
    or_iff_left (h.not_mem_behind rfl rfl (by simp) rfl), or_iff_right]
  exact fun flag => by cases mem_flagItems flag

theorem Placed.exists_presets_iff (marked : r.hasExports = true) (name : String) :
    (∃ item ∈ r.items, name ∈ item.presets) ↔ IsPreset options.plainFlag ns name := by
  constructor
  · rintro ⟨item, among, preset⟩
    cases item
    case moduleFlag isPlain =>
      have plain := h.eq_plainFlag among
      rw [h.given] at plain
      cases isPlain with
      | true => exact .inl ⟨List.mem_singleton.mp preset, plain.symm⟩
      | false => cases preset
    case predeclaration early =>
      have listed := h.mem_items_predeclaration.mp among
      cases mem_earlyItems listed
      refine .inr ⟨(h.late name).mp preset, ?_⟩
      unfold earlyItems at listed
      split at listed
      · next both =>
        have importing := (Bool.and_eq_true_iff.mp both).1
        rw [h.importing] at importing
        simpa using importing
      · cases listed
    all_goals cases preset
  · rintro (⟨rfl, plain⟩ | ⟨late, imports⟩)
    · have flag := mem_items_of_hasExports marked
      rw [h.given, plain] at flag
      exact ⟨_, flag, List.mem_singleton_self _⟩
    · have early := (h.late name).mpr late
      refine ⟨_, h.mem_items_predeclaration.mpr ?_, early⟩
      have importing : r.hasImports = true := by
        rw [h.importing]
        simpa using imports
      have some : r.predeclared.isEmpty = false :=
        List.isEmpty_eq_false_iff_exists_mem.mpr ⟨name, early⟩
      rw [earlyItems, importing, some]
      exact List.mem_singleton_self _

end

end Draft

theorem Node.passedName?_declarationEntries {d : Node} {entry : ExportEntry}
    (among : entry ∈ d.declarationEntries) :
    entry.passedName? = none := by
  unfold declarationEntries at among
  split at among
  · obtain ⟨d', -, here⟩ := List.mem_flatMap.mp among
    unfold declaratorEntries at here
    split at here
    · split at here
      · rw [List.mem_singleton.mp here]
        rfl
      · obtain ⟨x, -, rfl⟩ := List.mem_map.mp here
        rfl
    · cases here
  · obtain ⟨x, -, rfl⟩ := List.mem_map.mp among
    rfl

theorem Node.exists_getter {n : Node} {entry : ExportEntry} (among : entry ∈ n.exportEntries)
    (passed : entry.passedName? ≠ none) (σ : Naming) (isStrict : Bool) :
    ∃ path value, n.passedPath? = some path ∧
      .exportGetter entry.exported value ∈ n.ahead σ isStrict ∧
      value.binding = σ.ofPath path ∧ ∀ {V : Type} (S : Supply V) (τ : List (Effect V)),
        entry.valueIn S isStrict τ = some (value.read S path) := by
  unfold exportEntries at among
  -- The exports of the module itself come first, and none of them is passed on.
  split at among
  · split at among
    · cases among
    · split at among
      · split at among <;> cases List.mem_singleton.mp among <;> exact absurd rfl passed
      · cases List.mem_singleton.mp among
        exact absurd rfl passed
  · split at among
    · cases among
    · exact absurd (passedName?_declarationEntries among) passed
  · obtain ⟨s, -, listed⟩ := List.mem_filterMap.mp among
    unfold listedExport? at listed
    split at listed <;> cases listed
    exact absurd rfl passed
  · next path span parts =>
    obtain ⟨s, inside, exported⟩ := List.mem_filterMap.mp among
    unfold passedExport? at exported
    split at exported
    · next name other =>
      cases exported
      refine ⟨path, _, rfl, List.mem_filterMap.mpr ⟨_, inside, rfl⟩, ?_, fun S τ => ?_⟩
      · split <;> rfl
      · simp only [ExportEntry.valueIn]
        split <;> rfl
    · cases exported
  · next path span name rest =>
    split at among
    · cases among
    · next named =>
      cases List.mem_singleton.mp among
      refine ⟨path, if isStrict then .whole (σ.ofPath path)
        else .wrapped (σ.ofHelper .interopWildcard) (σ.ofPath path), rfl, ?_, ?_, fun S τ => ?_⟩
      · rw [ahead, passedAll, if_neg named]
        exact List.mem_singleton_self _
      · split <;> rfl
      · simp only [ExportEntry.valueIn]
        split <;> rfl
  · cases among

section
variable {shadowed : List String} {path : String → String} {flag : V} {items : List Item}
    {room : Room V} {τ : List (Effect V)}
  (progress : Progress S shadowed path flag items [] room.exports τ)
include progress

theorem Progress.read_flag {isPlain : Bool} (among : .moduleFlag isPlain ∈ items)
    (exposed : "__esModule" ∉ shadowed) : room.read S "__esModule" = some flag := by
  have here : room.exports "__esModule" = some ⟨.value flag, !isPlain⟩ :=
    progress.settled _ among _
      (Item.mem_owns_of_exposed (List.mem_singleton_self _) rfl exposed)
  rw [Room.read, here]
  rfl

theorem Progress.read_getter {e p : String} {value : Imported} {span : Option Span}
    (among : .exportGetter e value ∈ items) (exposed : e ∉ shadowed) (loaded : room.Loaded items)
    (required : .requireBinding value.binding p span ∈ items) :
    room.read S e = some (value.read S p) := by
  have claimed : e ∈ (Item.exportGetter e value).claims (starKeys S path) := by
    rw [Item.claims_exportGetter]
    exact List.mem_singleton_self e
  obtain ⟨isFixed, here⟩ :=
    progress.settled _ among e (Item.mem_owns_of_exposed claimed rfl exposed)
  rw [Room.read, here]
  exact Imported.valueIn_toNode ((loaded _ p).mpr ⟨span, required⟩)

theorem Progress.read_star {b p key : String} {span span' : Option Span}
    (among : .exportStar b span ∈ items) (passed : key ∈ starKeys S path b)
    (once : (items.flatMap (Item.fixed (starKeys S path))).count key ≤ 1)
    (loaded : room.Loaded items) (required : .requireBinding b p span' ∈ items) :
    room.read S key = some (S.entry p key) := by
  have owned : key ∈ (Item.exportStar b span).owns (starKeys S path) shadowed
      ((items ++ []).flatMap (Item.fixed (starKeys S path))) :=
    Item.mem_owns_exportStar.mpr ⟨passed, by rwa [List.append_nil]⟩
  obtain ⟨isFixed, here⟩ := progress.settled _ among key owned
  rw [Room.read, here]
  exact valueIn_starCode ((loaded b p).mpr ⟨span', required⟩)

theorem Progress.read_code {item : Item} (among : item ∈ items) {into : Option String} {e : String}
    {value : Node} (write : .assigned into e value ∈ item.exportWrites) :
    (lastExported e τ).isSome = true ∧ (e ∉ shadowed → room.read S e = lastExported e τ) := by
  have written : e ∈ item.exportWrites.map ExportWrite.name := List.mem_map.mpr ⟨_, write, rfl⟩
  obtain ⟨code, claims, single, settles⟩ : item.content? flag = none ∧
      item.claims (starKeys S path) = item.exportWrites.map ExportWrite.name ∧
      item.star? = none ∧
      (item.Settles flag e room.exports τ → room.exports e = (lastExported e τ).map .assigned) := by
    cases item
    case moduleFlag | exportStar => cases written
    case exportGetter =>
      rw [Item.exportWrites_exportGetter] at write
      cases List.mem_singleton.mp write
    all_goals exact ⟨rfl, rfl, rfl, id⟩
  rw [← claims] at written
  refine ⟨progress.assigned item among code e written, fun exposed => ?_⟩
  have settled := progress.settled item among e (Item.mem_owns_of_exposed written single exposed)
  rw [Room.read, settles settled]
  cases lastExported e τ <;> rfl

end

def starredKeys (S : Supply V) (ns : List Node) : List String :=
  (ns.filterMap Node.starPath?).flatMap S.passedKeys

/-- The properties that some statements define rather than assign to: the flag, unless it is plain,
what is passed on by its name, and the keys of other modules. -/
def definedKeys (S : Supply V) (isPlain : Bool) (ns : List Node) : List String :=
  (if isPlain then [] else ["__esModule"]) ++
    ((ns.flatMap Node.exportEntries).filterMap ExportEntry.passedName? ++ starredKeys S ns)

/-- What the exports of a module read as in the end. Each has the value that the module gives it,
unless another module passes on a key of that name, which is then in its place. -/
structure Serves (S : Supply V) (options : Options) (ns : List Node) (flag : V) (room : Room V)
    (τ : List (Effect V)) : Prop where
  given : ∀ entry ∈ ns.flatMap Node.exportEntries, (entry.valueIn S options.strict τ).isSome = true
  own : ∀ entry ∈ ns.flatMap Node.exportEntries, entry.exported ∉ starredKeys S ns →
    room.read S entry.exported = entry.valueIn S options.strict τ
  flag : "__esModule" ∉ starredKeys S ns → room.read S "__esModule" = some flag
  starred : ∀ path ∈ ns.filterMap Node.starPath?, ∀ key ∈ S.keys path, key ≠ "default" →
    (definedKeys S options.plainFlag ns).count key = 1 → room.read S key = some (S.entry path key)

namespace Module

structure Analysed (m : Module) : Prop where
  consistent : m.Consistent
  fits : ∀ n ∈ m.renamed.statements, n.isLookedUp = true ∧ n.exportsDeclarators = true

theorem Analysed.of_original {s : Original} (wellFormed : s.program.isWellFormed = true)
    (fits : ∀ n ∈ s.analysed.statements, n.isPublication = true) : s.analysed.Analysed where
  consistent := Original.consistent wellFormed
  fits := (renamed_exports (isLookedUp_statements s.isLookedUp) fits fun _ among =>
    Original.exportsAtRoot among).1

section
variable {m : Module} {options : Options} {hints : Hints} {r : Draft}
    (drafted : m.draft options hints = .ok r)

section
variable (consistent : m.Consistent)
include consistent drafted

theorem Consistent.mem_requires_of_passedPath? {n : Node} (among : n ∈ m.renamed.statements)
    {path : String} (passed : n.passedPath? = some path) :
    (path, r.naming.ofPath path) ∈ r.requires.entries := by
  have listed :=
    (placed_of_draft drafted).mem_paths.mpr (.inl (List.mem_filterMap.mpr ⟨n, among, passed⟩))
  exact (consistent.sound drafted).mem_requires.mpr ⟨listed, rfl⟩

theorem Consistent.pathOf_of_starPath? {path : String}
    (starred : path ∈ m.renamed.statements.filterMap Node.starPath?) :
    r.pathOf (r.naming.ofPath path) = path := by
  obtain ⟨n, among, star⟩ := List.mem_filterMap.mp starred
  exact (consistent.sound drafted).pathOf
    (consistent.mem_requires_of_passedPath? drafted among (Node.passedPath?_of_starPath? star))

end

theorem hasExports_of_starred {path : String}
    (starred : path ∈ m.renamed.statements.filterMap Node.starPath?)
    (drafted : m.draft options hints = .ok r) : r.hasExports = true := by
  obtain ⟨n, member, star⟩ := List.mem_filterMap.mp starred
  rw [hasExports_of_draft drafted, List.any_eq_true]
  exact ⟨n, member, Node.isValueExport_of_starPath? star⟩

section
variable (analysed : m.Analysed)
include analysed drafted

theorem Analysed.carries_items {item : Item} (among : item ∈ r.items) : item.Carries :=
  (placed_of_draft drafted).carries_items (fun n listed => (analysed.fits n listed).1) among

theorem Analysed.stars_perm : ((r.items.filterMap Item.star?).flatMap (starKeys S r.pathOf)).Perm
    (starredKeys S m.renamed.statements) := by
  refine ((placed_of_draft drafted).star?_items.flatMap_right _).trans (.of_eq ?_)
  rw [List.flatMap_map]
  exact List.flatMap_congr fun path starred => by
    rw [starKeys, analysed.consistent.pathOf_of_starPath? drafted starred]

theorem Analysed.fixed_perm (marked : r.hasExports = true) :
    (r.items.flatMap (Item.fixed (starKeys S r.pathOf))).Perm
      (definedKeys S options.plainFlag m.renamed.statements) := by
  obtain ⟨-, pairs, -, added⟩ := exists_adds analysed.fits drafted
  have flags : r.items.filterMap Item.definedFlag? =
      if options.plainFlag then [] else ["__esModule"] := by
    rw [(placed_of_draft drafted).flags_items (fun item _ => ?_) marked]
    · cases options.plainFlag <;> rfl
    · cases item
      case moduleFlag => contradiction
      all_goals rfl
  have getters := added.definedNames_perm
  rw [← Draft.getter?_items fun item among => analysed.carries_items drafted among] at getters
  refine (Draft.flatMap_fixed_perm r.items _).trans ?_
  rw [flags]
  exact (getters.append (analysed.stars_perm drafted)).append_left _

theorem Analysed.names_perm : ((r.items.flatMap Item.exportWrites).map ExportWrite.name).Perm
    (m.renamed.statements.flatMap Node.exportedAs) := by
  obtain ⟨-, pairs, -, added⟩ := exists_adds analysed.fits drafted
  rw [← map_exported_exportEntries]
  exact (r.exportWrites_items.map _).trans added.names_perm

theorem Analysed.not_mem_exportedAs :
    "__esModule" ∉ m.renamed.statements.flatMap Node.exportedAs :=
  Module.not_mem_exportedAs (fun n among => (analysed.fits n among).2)
    (exists_adds analysed.fits drafted).1

theorem Analysed.explicit_perm (marked : r.hasExports = true) :
    (r.items.flatMap Item.explicit).Perm
      ("__esModule" :: m.renamed.statements.flatMap Node.exportedAs) := by
  have flags : r.items.flatMap (fun item => item.flag?.toList) = ["__esModule"] := by
    rw [← List.filterMap_eq_flatMap_toList,
      (placed_of_draft drafted).flags_items (fun item _ => ?_) marked]
    · rfl
    · cases item
      case moduleFlag => contradiction
      all_goals rfl
  have names := analysed.names_perm drafted
  rw [List.map_flatMap] at names
  refine (List.flatMap_append_perm ..).symm.trans ?_
  rw [flags]
  exact names.cons _

theorem Analysed.unflagged :
    "__esModule" ∉ ownNames (m.renamed.statements.flatMap Node.exportEntries) ∧
      ∀ early, .predeclaration early ∈ r.items → "__esModule" ∉ early := by
  have free := analysed.not_mem_exportedAs drafted
  rw [← map_exported_exportEntries] at free
  obtain ⟨-, pairs, same, added⟩ := exists_adds analysed.fits drafted
  constructor
  · intro own
    obtain ⟨entry, among, -, named⟩ := mem_ownNames.mp own
    exact free (List.mem_map.mpr ⟨entry, among, named⟩)
  · intro early among inside
    have defined := Item.mem_definedNames_predeclaration.mpr inside
    rcases added.exported_of_definedNames same among defined with exported | ⟨-, _, flag⟩
    · exact free exported
    · cases flag

theorem Analysed.arranged (marked : r.hasExports = true)
    (distinct : (m.renamed.statements.flatMap Node.exportedAs).Nodup)
    (early : ∀ path ∈ m.renamed.statements.filterMap Node.starPath?, Priority.ordinary ≤
      Node.requirePriority hints m.renamed.statements path) :
    Arranged S (ownNames (m.renamed.statements.flatMap Node.exportEntries))
      (starredKeys S m.renamed.statements) r.pathOf r.items := by
  have sound := analysed.consistent.sound drafted
  have placed := placed_of_draft drafted
  have unflagged := analysed.unflagged drafted
  constructor
  case explicit =>
    refine ((analysed.explicit_perm drafted marked).nodup_iff).mpr ?_
    exact List.nodup_cons.mpr ⟨analysed.not_mem_exportedAs drafted, distinct⟩
  case unflagged => exact unflagged
  case shadowing =>
    intro b span among key passed
    have star : b ∈ r.items.filterMap Item.star? := List.mem_filterMap.mpr ⟨_, among, rfl⟩
    exact (analysed.stars_perm drafted).mem_iff.mp (List.mem_flatMap.mpr ⟨b, star, passed⟩)
  case paths =>
    exact fun b p span among => sound.pathOf (placed.mem_requires_of_mem_items sound among)
  case ready =>
    exact fun before b span after split => placed.exists_require_before sound early split
  case preset =>
    intro before item after split name preset other sooner fixed
    have listed : item ∈ r.items ∧ other ∈ r.items := by simp [split, sooner]
    -- Of the statements that define something, only that for the flag can come before.
    obtain ⟨star, getter⟩ := placed.preamble_first split (Item.isPreamble_of_presets preset) sooner
    cases other
    case exportStar => cases star
    case exportGetter => cases getter
    case moduleFlag isPlain =>
      cases isPlain with
      | true => cases fixed
      | false =>
        obtain rfl := List.mem_singleton.mp fixed
        cases item
        case moduleFlag isPlain =>
          cases (placed.eq_plainFlag listed.1).trans (placed.eq_plainFlag listed.2).symm
          cases preset
        case predeclaration early => exact unflagged.2 early listed.1 preset
        all_goals cases preset
    all_goals cases fixed

theorem Analysed.performs (ofBool : Bool → V) (depth : Nat)
    (quiet : ∀ n ∈ (m.lowered r).statements, n.handlesExports false = false) :
    Performs (ownNames (m.renamed.statements.flatMap Node.exportEntries))
      ((m.lowered r).program.setting ofBool depth) r.items (m.lowered r).statements := by
  obtain ⟨-, pairs, same, added⟩ := exists_adds analysed.fits drafted
  have foreign := analysed.consistent.isForeign drafted
  have confined (item : Item) (among : item ∈ r.items) := added.isConfined among
  have listed (x e : String) (listed : r.exports.Lists x e) := added.own_of_lists same listed
  have form := analysed.consistent.program
  exact ⟨runsAs_lowered form foreign confined listed ofBool depth
    fun item among => analysed.carries_items drafted among, quiet,
    isConfined_lowered form foreign confined listed ofBool depth⟩

end

section
variable {flag : V} {room : Room V} {τ : List (Effect V)} (loaded : room.Loaded r.items)
  (progress : Progress S (starredKeys S m.renamed.statements) r.pathOf flag r.items [] room.exports
    τ)
include drafted progress

theorem Analysed.read_assigned (analysed : m.Analysed) {entry : ExportEntry}
    (among : entry ∈ m.renamed.statements.flatMap Node.exportEntries)
    (assigned : entry.passedName? = none) :
    (entry.valueIn S options.strict τ).isSome = true ∧
      (entry.exported ∉ starredKeys S m.renamed.statements →
        room.read S entry.exported = entry.valueIn S options.strict τ) := by
  obtain ⟨-, pairs, same, added⟩ := exists_adds analysed.fits drafted
  obtain ⟨ws, perm, realised⟩ := added.writes
  obtain ⟨w, written, write⟩ : ∃ w ∈ ws, entry.Realised r.options.strict r.content w := by
    obtain ⟨i, rfl⟩ := List.mem_iff_get.mp among
    exact ⟨_, List.get_mem ws ⟨i, realised.length_eq ▸ i.isLt⟩, realised.get i.isLt _⟩
  have inside : w ∈ r.items.flatMap Item.exportWrites :=
    r.exportWrites_items.mem_iff.mpr (perm.mem_iff.mpr (List.mem_append_right _ written))
  obtain ⟨item, listed, here⟩ := List.mem_flatMap.mp inside
  have value : entry.valueIn S options.strict τ = lastExported entry.exported τ := by
    cases entry with
    | declared | binding | value => rfl
    | reexport | wholeModule => cases assigned
  rw [value, ← write.name]
  rw [← write.definedName?] at assigned
  cases w with
  | assigned => exact progress.read_code listed here
  | defined => cases assigned

include loaded

theorem Consistent.read_star (consistent : m.Consistent) {path : String}
    (starred : path ∈ m.renamed.statements.filterMap Node.starPath?) {key : String}
    (among : key ∈ S.keys path) (other : key ≠ "default")
    (once : (r.items.flatMap (Item.fixed (starKeys S r.pathOf))).count key ≤ 1) :
    room.read S key = some (S.entry path key) := by
  obtain ⟨n, member, star⟩ := List.mem_filterMap.mp starred
  obtain ⟨item, inside, named⟩ := List.mem_filterMap.mp
    ((placed_of_draft drafted).star?_items.mem_iff.mpr (List.mem_map_of_mem starred))
  obtain ⟨span', required⟩ := (consistent.sound drafted).exists_requireBinding
    (consistent.mem_requires_of_passedPath? drafted member (Node.passedPath?_of_starPath? star))
  unfold Item.star? at named
  split at named
  · next b span =>
    cases named
    refine progress.read_star inside ?_ once loaded required
    rw [starKeys, consistent.pathOf_of_starPath? drafted starred]
    exact List.mem_filter.mpr ⟨among, by simpa using other⟩
  · cases named

theorem Consistent.read_passed (consistent : m.Consistent) {entry : ExportEntry}
    (among : entry ∈ m.renamed.statements.flatMap Node.exportEntries)
    (passed : entry.passedName? ≠ none) :
    ∃ v, entry.valueIn S options.strict τ = some v ∧
      (entry.exported ∉ starredKeys S m.renamed.statements →
        room.read S entry.exported = some v) := by
  obtain ⟨n, member, inside⟩ := List.mem_flatMap.mp among
  obtain ⟨path, value, passedPath, ahead, binding, known⟩ :=
    Node.exists_getter inside passed r.naming options.strict
  obtain ⟨span, required⟩ := (consistent.sound drafted).exists_requireBinding
    (consistent.mem_requires_of_passedPath? drafted member passedPath)
  obtain ⟨before, after, split⟩ := List.append_of_mem member
  have top : (Priority.ordinary, .exportGetter entry.exported value) ∈ r.top :=
    (placed_of_draft drafted).mem_top.mpr (.inl ⟨before, n, after, split, .inr ⟨_, ahead, rfl⟩⟩)
  rw [← binding] at required
  exact ⟨_, known S τ, fun exposed =>
    progress.read_getter (Draft.mem_items_of_mem_top top) exposed loaded required⟩

theorem Analysed.serves (analysed : m.Analysed) (marked : r.hasExports = true) :
    Serves S options m.renamed.statements flag room τ := by
  have own (entry : ExportEntry) (among : entry ∈ m.renamed.statements.flatMap Node.exportEntries) :
      (entry.valueIn S options.strict τ).isSome = true ∧
        (entry.exported ∉ starredKeys S m.renamed.statements →
        room.read S entry.exported = entry.valueIn S options.strict τ) := by
    by_cases assigned : entry.passedName? = none
    · exact analysed.read_assigned drafted progress among assigned
    · obtain ⟨v, known, read⟩ :=
        analysed.consistent.read_passed drafted loaded progress among assigned
      rw [known]
      exact ⟨rfl, read⟩
  refine ⟨fun entry among => (own entry among).1, fun entry among => (own entry among).2, ?_, ?_⟩
  · exact progress.read_flag (Draft.mem_items_of_hasExports marked)
  · intro path starred key among other once
    refine analysed.consistent.read_star drafted loaded progress starred among other ?_
    rw [(analysed.fixed_perm drafted marked).count_eq, once]

end

end

/-- A module that passes on all exports of others stops in an instruction that was put in only if it
defines a property again that was not set early. If it comes to its end, it serves its own exports,
the flag and the keys that it passes on, which take the places of values that are assigned. It does
not come to its end if a property is defined twice that was neither set early nor exported before as
a value. No name may be exported twice, or be that of the property that changes what an object
inherits. -/
theorem star_exports_run_unless_defined_twice (s : Original)
    (wellFormed : s.program.isWellFormed = true)
    (fits : ∀ n ∈ s.analysed.statements, n.isPublication = true) (options : Options) (hints : Hints)
    (run : s.Lowering options hints)
    (starred : s.analysed.renamed.statements.filterMap Node.starPath? ≠ [])
    (early : ∀ path ∈ s.analysed.renamed.statements.filterMap Node.starPath?,
      Priority.ordinary ≤ Node.requirePriority hints s.analysed.renamed.statements path)
    (distinct : ("__proto__" :: s.analysed.renamed.statements.flatMap Node.exportedAs).Nodup)
    (strictAgain : Bool)
    (visible : SeesRuntime ["exports", "require", "Object"] strictAgain run.lowered.program)
    (quiet : ∀ n ∈ run.lowered.statements, n.handlesExports false = false) (V : Type)
    (S : Supply V) (ofBool : Bool → V) (depth : Nat) :
    let ns := s.analysed.renamed.statements
    let code := seenProgram ["exports", "require", "Object"] strictAgain run.lowered.program
    let w := code.setting ofBool depth
    (∀ n room, StopsAt S w code.parts .empty n room → n.instruction? ≠ none →
      ∃ key, 2 ≤ (definedKeys S options.plainFlag ns).count key ∧
        ¬ IsPreset options.plainFlag ns key) ∧
    (∀ room τ, Reaches S w code.parts .empty room τ → Serves S options ns (ofBool true) room τ) ∧
    ∀ key, 2 ≤ (definedKeys S options.plainFlag ns).count key →
      ¬ IsPreset options.plainFlag ns key →
      (key ∈ ownNames (ns.flatMap Node.exportEntries) →
        ¬ ExportedBefore S w code.parts .empty key) →
      (∀ room τ, ¬ Reaches S w code.parts .empty room τ) ∧
        ∃ n room, StopsAt S w code.parts .empty n room ∧ n.instruction? ≠ none := by
  intro ns code w
  have known : s.analysed.Analysed := .of_original wellFormed fits
  obtain ⟨path, starred⟩ := List.exists_mem_of_ne_nil _ starred
  obtain ⟨outcome, lowered, success⟩ := run
  have same : code = lowered.program := visible.seenProgram_eq
  rcases lower_cases success with ⟨-, plain, -⟩ | ⟨r, -, -, drafted, -, rfl⟩
  · obtain ⟨n, among, star⟩ := List.mem_filterMap.mp starred
    have none := ((s.analysed.isPlain_of_hasModuleSyntax plain).2 n among).passed
    rw [Node.passedPath?_of_starPath? star] at none
    cases none
  · have marked := hasExports_of_starred starred drafted
    have arranged := known.arranged (S := S) drafted marked distinct.of_cons early
    have performs := known.performs drafted ofBool depth quiet
    have parts : code.parts = (s.analysed.lowered r).statements := congrArg Node.parts same
    have setting : w = (s.analysed.lowered r).program.setting ofBool depth :=
      congrArg (·.setting ofBool depth) same
    have fixed := known.fixed_perm (S := S) drafted marked
    have presets := (placed_of_draft drafted).exists_presets_iff marked
    rw [parts, setting]
    refine ⟨fun n room stops made => ?_, fun room τ reaches => ?_, fun key twice late new => ?_⟩
    · obtain ⟨key, twice, late⟩ := arranged.defined_twice performs stops made
      rw [fixed.count_eq] at twice
      refine ⟨key, twice, fun preset => ?_⟩
      obtain ⟨item, among, preset⟩ := (presets key).mpr preset
      exact late item among preset
    · obtain ⟨loaded, progress⟩ := arranged.progress performs reaches
      rw [Node.ofBool_setting] at progress
      exact known.serves drafted loaded progress marked
    · have never (room : Room V) (τ : List (Effect V)) :
          ¬ Reaches S ((s.analysed.lowered r).program.setting ofBool depth)
            (s.analysed.lowered r).statements .empty room τ := by
        intro reaches
        have exported := arranged.exportedBefore performs reaches (fixed.count_eq key ▸ twice)
        have ⟨before, n, after, room, τ, v, i, split, front, inside, _⟩ := exported
        rcases arranged.exported_cases performs split front inside with own | preset
        · exact new own exported
        · exact late ((presets key).mp preset)
      refine ⟨never, (reaches_or_stopsAt _ _ _ _).resolve_left ?_⟩
      rintro ⟨room, τ, reaches⟩
      exact never room τ reaches

section Example

def exportedVariable : Node := .made .exportDeclaration [.made (.varDecl .blockScoped false)
  [.made (.declarator false) [.made (.binder "x" none) [], .absent, Made.number 1]]]

/-- A draft of a module in which nothing hides a name that lowering puts in and nothing gets hold of
the object of exports, if that can be computed. -/
theorem exists_visible_draft (s : Original) (options : Options) (hints : Hints)
    (computed : (s.analysed.draft options hints).toOption.any (fun r : Draft => decide
      ((r.header ++ r.top ++ r.body ++ r.footer).Pairwise
        (fun a b : Priority × Item => decide (b.1 ≤ a.1) = true) ∧
      (s.analysed.loweredInOrder r).program.form = .program none [] ∧
      (∀ x ∈ ["exports", "require", "Object"],
        ∀ p ∈ (s.analysed.loweredInOrder r).statements, x ∉ p.declaredNames false) ∧
      ∀ p ∈ (s.analysed.loweredInOrder r).statements,
        p.handlesExports false = false)) = true) :
    ∃ r, s.analysed.draft options hints = .ok r ∧
      SeesRuntime ["exports", "require", "Object"] true (s.analysed.lowered r).program ∧
      ∀ n ∈ (s.analysed.lowered r).statements, n.handlesExports false = false := by
  obtain ⟨r, drafted, passed⟩ := s.analysed.exists_draft options hints _ computed
  obtain ⟨falling, form, free, quiet⟩ := of_decide_eq_true passed
  rw [← lowered_of_falling falling] at form free quiet
  exact ⟨r, drafted, seesRuntime_of_not_declared form free true, quiet⟩

/-- `export * from "m"; export * from "p"; export let x = 1; export { y } from "n";` -/
def mixed : Original where
  isStrict := true
  hashbang := none
  directives := []
  span := none
  statements :=
    [.made (.exportAll false "m") [.absent, .absent],
     .made (.exportAll false "p") [.absent, .absent], exportedVariable,
     .made (.exportFrom false "n")
     [.made (.exportSpecifier false) [Made.word "y", Made.word "y"], .absent]]

def suppliedKeys (keys : String → List String) (distinct : ∀ path, (keys path).Nodup) :
    Supply String where
  keys := keys
  distinct := distinct
  entry path key := path ++ "." ++ key
  whole path := path
  wrapped path := path
  defaultOf path := path

def disjointSupply : Supply String :=
  suppliedKeys (fun path => if path = "m" then ["x", "z", "default"] else
    if path = "p" then ["k"] else []) fun path => by
    split
    · decide
    · split <;> decide

/-- Both modules, or one and the re-export, have the key. -/
def sharedSupply (key : String) : Supply String :=
  suppliedKeys (fun _ => [key]) fun _ => by simp

def booleanText (b : Bool) : String := if b then "true" else "false"

/-- The key `x` of `m` hides the variable. A key of both `m` and `p` stops the module, and so does
the key `y` that is passed on by its name. -/
theorem star_exports_run_unless_defined_twice_mixed : ∃ run : mixed.Lowering .default .none,
    let code := seenProgram ["exports", "require", "Object"] true run.lowered.program
    (∃ room τ, Reaches disjointSupply (code.setting booleanText 1) code.parts .empty room τ ∧
      room.read disjointSupply "x" = some "m.x" ∧ room.read disjointSupply "z" = some "m.z" ∧
      room.read disjointSupply "k" = some "p.k" ∧ room.read disjointSupply "y" = some "n.y" ∧
      room.read disjointSupply "__esModule" = some "true") ∧
    ∀ key ∈ ["k", "y"],
      (∀ room τ, ¬ Reaches (sharedSupply key) (code.setting booleanText 1) code.parts .empty room
        τ) ∧
      ∃ n room, StopsAt (sharedSupply key) (code.setting booleanText 1) code.parts .empty n room ∧
        n.instruction? ≠ none := by
  obtain ⟨r, drafted, visible, quiet⟩ :=
    exists_visible_draft mixed .default .none (by decide +kernel)
  let run : mixed.Lowering .default .none := ⟨_, _, (lower_of_draft (by decide) drafted).2⟩
  have facts (S : Supply String) :=
    star_exports_run_unless_defined_twice mixed (by decide) (by decide) .default .none run
      (by decide +kernel) (fun path _ => by rw [Node.requirePriority_none]) (by decide +kernel) true
      visible quiet String S booleanText 1
  refine ⟨run, ?_, fun key among => ?_⟩
  · obtain ⟨stops, serves, -⟩ := facts disjointSupply
    obtain ⟨room, τ, reaches⟩ := (reaches_or_stopsAt _ _ _ _).resolve_right fun stopped => by
      obtain ⟨n, room, stopped, made⟩ := stopped
      obtain ⟨key, twice, -⟩ := stops n room stopped made
      have once := List.nodup_iff_count_le_one.mp
        (show (definedKeys disjointSupply Options.default.plainFlag
          mixed.analysed.renamed.statements).Nodup by decide +kernel) key
      omega
    have served := serves room τ reaches
    have y : room.read disjointSupply "y" = some "n.y" :=
      served.own (.reexport "n" "y" "y") (List.mem_cons_of_mem _ List.mem_cons_self)
        (by decide +kernel)
    refine ⟨room, τ, reaches, ?_, ?_, ?_, y, served.flag (by decide +kernel)⟩
    · exact served.starred "m" (by decide +kernel) "x" (by decide) (by decide) (by decide +kernel)
    · exact served.starred "m" (by decide +kernel) "z" (by decide) (by decide) (by decide +kernel)
    · exact served.starred "p" (by decide +kernel) "k" (by decide) (by decide) (by decide +kernel)
  · have computed : ∀ key ∈ ["k", "y"],
        2 ≤ (definedKeys (sharedSupply key) Options.default.plainFlag
          mixed.analysed.renamed.statements).count key ∧
        ¬ IsPreset Options.default.plainFlag mixed.analysed.renamed.statements key ∧
        key ∉ ownNames (mixed.analysed.renamed.statements.flatMap Node.exportEntries) := by
      decide +kernel
    obtain ⟨twice, late, foreign⟩ := computed key among
    exact (facts (sharedSupply key)).2.2 key twice late fun own => absurd own foreign

/-- `export * from "m"; export let x = 1;` -/
def overlapping : Original where
  isStrict := true
  hashbang := none
  directives := []
  span := none
  statements := [.made (.exportAll false "m") [.absent, .absent], exportedVariable]

def hidingSupply (held : Bool) : Supply Bool where
  keys path := if path = "m" then ["x"] else []
  distinct path := by split <;> decide
  entry _ _ := held
  whole _ := held
  wrapped _ := held
  defaultOf _ := held

/-- A key that is passed on takes the place of an export of the module itself. -/
theorem star_key_hides_own_export : ∃ run : overlapping.Lowering .default .none,
    let code := seenProgram ["exports", "require", "Object"] true run.lowered.program
    ∃ (S : Supply Bool) (room : Room Bool) (τ : List (Effect Bool)) (v : Bool),
      S.keys "m" = ["x"] ∧ Reaches S (code.setting id 0) code.parts .empty room τ ∧
      lastExported "x" τ = some v ∧ room.read S "x" = some (!v) := by
  obtain ⟨r, drafted, visible, quiet⟩ :=
    exists_visible_draft overlapping .default .none (by decide +kernel)
  have known : overlapping.analysed.Analysed := .of_original (by decide) (by decide)
  have starred : "m" ∈ overlapping.analysed.renamed.statements.filterMap Node.starPath? := by
    decide +kernel
  have marked := hasExports_of_starred starred drafted
  have performs := known.performs drafted id 0 quiet
  have arranged (held : Bool) := known.arranged drafted (S := hidingSupply held) marked
    (by decide +kernel) fun path _ => by rw [Node.requirePriority_none]
  have once (held : Bool) : (definedKeys (hidingSupply held) Options.default.plainFlag
      overlapping.analysed.renamed.statements).Nodup := by
    cases held <;> decide +kernel
  obtain ⟨room, τ, reaches⟩ := (reaches_or_stopsAt (hidingSupply false) _ _ .empty).resolve_right
    fun stopped => by
      obtain ⟨n, room, stopped, made⟩ := stopped
      obtain ⟨key, twice, -⟩ := (arranged false).defined_twice performs stopped made
      rw [(known.fixed_perm drafted marked).count_eq] at twice
      have once := List.nodup_iff_count_le_one.mp (once false) key
      omega
  obtain ⟨loaded, progress⟩ := (arranged false).progress performs reaches
  obtain ⟨v, last⟩ := Option.isSome_iff_exists.mp ((known.serves drafted loaded progress
    marked).given (.declared "x" (Made.number 1)) List.mem_cons_self)
  -- The run is the same whatever the other module holds.
  have same : (hidingSupply (!v)).keys = (hidingSupply false).keys := rfl
  have other := reaches.of_keys same
  obtain ⟨loaded, progress⟩ := (arranged !v).progress performs other
  have served := known.serves drafted loaded progress marked
  refine ⟨⟨_, _, (lower_of_draft (by decide) drafted).2⟩, ?_⟩
  rw [show seenProgram _ true _ = _ from visible.seenProgram_eq]
  refine ⟨_, room, τ, v, rfl, other, last, served.starred "m" starred "x" (by simp [hidingSupply])
    (by decide) ?_⟩
  exact List.count_eq_one_of_mem (once !v) (by cases v <;> decide +kernel)

end Example

end Module

end ModuleLowering
