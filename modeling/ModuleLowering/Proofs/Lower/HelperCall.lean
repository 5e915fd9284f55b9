import ModuleLowering.Proofs.Lower.FirstOccurrence
import ModuleLowering.Proofs.Lower.FreshName
import ModuleLowering.Proofs.Lower.Scan

/-!
The helpers of a module. One comes into use with the first statement that calls it, so at any time
those in use are those that the statements in front call, in the order of the first calls.
-/

set_option autoImplicit false

namespace ModuleLowering

def Imported.call? : Imported → Option (Helper × String)
  | wrapped name _ => some (.interopWildcard, name)
  | defaultOf name _ => some (.interopDefault, name)
  | _ => none

namespace Item

def call? : Item → Option (Helper × String)
  | importVariable _ value _ | exportGetter _ value => value.call?
  | _ => none

def helper? : Item → Option (Helper × String)
  | helperFunction h name => some (h, name)
  | _ => none

theorem helper?_of_call? {item : Item} {call : Helper × String} (calls : item.call? = some call) :
    item.helper? = none := by
  cases item <;> first | rfl | cases calls

end Item

namespace Draft

def calls (r : Draft) : List (Helper × String) := r.top.filterMap fun e => e.2.call?

/-- The helpers in use are those called, in the order of their first calls. Each has one name, which
was made up for it, and none is declared yet. -/
structure Calls (r : Draft) : Prop where
  used : r.helpers = r.calls.eraseDups
  undeclared : ∀ e ∈ r.top, e.2.helper? = none
  distinct : (r.helpers.map Prod.fst).Nodup
  named : ∀ e ∈ r.helpers, ∃ i, e.2 = TakenNames.candidate e.1.hint i

theorem helper_cases (r : Draft) (which : Helper) :
    (∃ name, (which, name) ∈ r.helpers ∧ r.helper which = (name, r)) ∨
    (which ∉ r.helpers.map Prod.fst ∧
      r.helper which = (r.taken.firstFree which.hint, { r with
        taken := (r.taken.generate which.hint).2
        helpers := r.helpers ++ [(which, r.taken.firstFree which.hint)] })) := by
  unfold helper
  split
  · next other name found =>
    obtain rfl : other = which := by simpa using List.find?_some found
    exact .inl ⟨name, List.mem_of_find?_eq_some found, rfl⟩
  · next unused =>
    refine .inr ⟨fun among => ?_, rfl⟩
    obtain ⟨entry, listed, rfl⟩ := List.mem_map.mp among
    simpa using List.find?_eq_none.mp unused entry listed

namespace Calls

variable {r : Draft}

theorem start (options : Options) (taken : TakenNames) : (Draft.start options taken).Calls :=
  ⟨rfl, by simp [Draft.start], .nil, by simp [Draft.start]⟩

theorem of_same {r' : Draft} (h : r.Calls) (helpers : r'.helpers = r.helpers)
    (top : r'.top = r.top) : r'.Calls := by
  refine ⟨?_, by rw [top]; exact h.undeclared, by rw [helpers]; exact h.distinct, by
    rw [helpers]; exact h.named⟩
  rw [helpers, calls, top]
  exact h.used

theorem undeclared_hoist (h : r.Calls) (priority : Priority) {item : Item}
    (plain : item.helper? = none) :
    ∀ e ∈ (r.hoist priority item).top, e.2.helper? = none := by
  intro e among
  rcases List.mem_append.mp among with old | new
  · exact h.undeclared e old
  · rw [List.mem_singleton.mp new]
    exact plain

theorem hoist (h : r.Calls) (priority : Priority) {item : Item} (silent : item.call? = none)
    (plain : item.helper? = none) :
    (r.hoist priority item).Calls := by
  refine ⟨?_, h.undeclared_hoist priority plain, h.distinct, h.named⟩
  have same : (r.hoist priority item).calls = r.calls := by simp [calls, Draft.hoist, silent]
  rw [same]
  exact h.used

theorem call (h : r.Calls) (which : Helper) (priority : Priority) (item : String → Item)
    (calls : ∀ name, (item name).call? = some (which, name)) :
    ((r.helper which).2.hoist priority (item (r.helper which).1)).Calls := by
  have added (r : Draft) (name : String) : (r.hoist priority (item name)).calls = r.calls ++
    [(which, name)] := by
    simp [Draft.calls, Draft.hoist, calls]
  have plain (name : String) : (item name).helper? = none := Item.helper?_of_call? (calls name)
  -- A helper that is in use was called before, under its name, and one that is not was never called
  -- under any name.
  rcases r.helper_cases which with ⟨name, listed, same⟩ | ⟨new, fresh⟩
  · have known : (which, name) ∈ r.calls := by
      rw [← List.mem_eraseDups, ← h.used]
      exact listed
    rw [same]
    refine ⟨?_, h.undeclared_hoist priority (plain name), h.distinct, h.named⟩
    dsimp only
    rw [added, FirstOccurrence.eraseDups_concat, if_pos known]
    exact h.used
  · obtain ⟨i, spelled⟩ := (r.taken.firstFree_spec which.hint).1
    have uncalled (name : String) : (which, name) ∉ r.calls := by
      rw [← List.mem_eraseDups, ← h.used]
      exact fun among => new (List.mem_map_of_mem among)
    rw [fresh]
    dsimp only
    refine ⟨?_, h.undeclared_hoist priority (plain _), ?_, fun e among => ?_⟩
    · rw [added]
      show r.helpers ++ _ = (r.calls ++ _).eraseDups
      rw [FirstOccurrence.eraseDups_concat, if_neg (uncalled _), h.used]
    · simpa [Draft.hoist] using List.nodup_append_comm.mp (List.nodup_cons.mpr ⟨new, h.distinct⟩)
    · rcases List.mem_append.mp among with old | last
      · exact h.named e old
      · rw [List.mem_singleton.mp last]
        exact ⟨i, spelled⟩

theorem require (h : r.Calls) (source : String) (priority : Priority) (span : Option Span) :
    (r.require source priority span).2.Calls := by
  unfold Draft.require
  split
  · exact h
  · have required :
        (Draft.hoist r priority (.requireBinding (r.taken.generate (moduleBasename source)).1 source
          span)).Calls :=
      h.hoist priority rfl rfl
    exact required.of_same rfl rfl

theorem foldl {α : Type} {f : Draft → α → Draft} (h : r.Calls)
    (step : ∀ (r : Draft) (a : α), r.Calls → (f r a).Calls) (as : List α) :
    (as.foldl f r).Calls :=
  List.foldlRecOn as f h fun r h a _ => step r a h

theorem noteExportName (h : r.Calls) (x : String) : (r.noteExportName x).Calls := by
  unfold Draft.noteExportName
  split <;> exact h.of_same rfl rfl

theorem exportDeclaration (h : r.Calls) (d : Node) (priority : Priority) :
    (r.exportDeclaration d priority).Calls := by
  unfold Draft.exportDeclaration
  split
  · dsimp only
    split
    · next x _ _ =>
      have exported :
          (Draft.hoist r Priority.ordinary (.exportValue x (Made.ident x) none)).Calls :=
            h.hoist _ rfl rfl
      refine of_same exported ?_ ?_
      all_goals
        simp only [Draft.keep, Draft.hoist, Draft.noteExportName]
        split <;> rfl
    · exact h.of_same rfl rfl
  · next ds =>
    dsimp only
    have noted : (ds.foldl Draft.noteDeclarator r).Calls := by
      refine foldl h (fun r d h => ?_) ds
      unfold Draft.noteDeclarator
      dsimp only
      split <;> exact h.of_same rfl rfl
    refine foldl ?_ (fun r x h => ?_) _
    · exact noted.of_same rfl rfl
    · exact h.of_same rfl rfl
  · dsimp only
    split
    · next x _ _ =>
      have kept : (r.keep priority (.kept d)).Calls := h.of_same rfl rfl
      exact of_same (kept.noteExportName x) rfl rfl
    · exact h.of_same rfl rfl

theorem exportDefault (h : r.Calls) (d : Node) (span : Option Span) (priority : Priority) :
    (r.exportDefault d span priority).Calls := by
  have hoisted (value : Node) :
      (Draft.hoist r Priority.ordinary (.exportValue "default" value none)).Calls :=
        h.hoist _ rfl rfl
  unfold Draft.exportDefault
  dsimp only
  split
  · split
    · exact (hoisted _).of_same rfl rfl
    · exact (hoisted _).of_same rfl rfl
  · split
    · split <;> exact h.of_same rfl rfl
    · exact h.of_same rfl rfl

theorem exportName (h : r.Calls) (n : Node) : (r.exportName n).Calls := by
  unfold Draft.exportName
  split
  · exact of_same (h.noteExportName _) rfl rfl
  · exact h

theorem reexportName (h : r.Calls) (source binding : String) (n : Node) :
    (r.reexportName source binding n).Calls := by
  unfold Draft.reexportName
  split
  · next name other =>
    dsimp only
    have noted := h.noteExportName other.nameText
    split
    · have called := noted.call .interopDefault Priority.ordinary
        (fun f => .exportGetter other.nameText (.defaultOf f binding)) fun _ => rfl
      exact called.of_same rfl rfl
    · exact of_same (noted.hoist Priority.ordinary rfl rfl) rfl rfl
  · exact h

theorem reexport (h : r.Calls) (source : String) (specifiers : List Node) (priority : Priority) :
    (r.reexport source specifiers priority).Calls :=
  foldl (h.require source priority _) (fun _ n h => h.reexportName source _ n) specifiers

theorem exportAll (h : r.Calls) (source : String) (name : Node) (span : Option Span)
    (priority : Priority) :
    (r.exportAll source name span priority).Calls := by
  have required : (Draft.require { r with hasExports := true } source priority
    (r.imports.spanOf source)).2.Calls := by
    refine require ?_ source priority _
    exact h.of_same rfl rfl
  unfold Draft.exportAll
  dsimp only
  split
  · exact of_same (hoist (required.of_same rfl rfl) Priority.ordinary rfl rfl) rfl rfl
  · have noted := required.noteExportName name.nameText
    split
    · exact of_same (noted.hoist Priority.ordinary rfl rfl) rfl rfl
    · have called (binding : String) := noted.call .interopWildcard Priority.ordinary
        (fun f => .exportGetter name.nameText (.wrapped f binding)) fun _ => rfl
      exact (called _).of_same rfl rfl

theorem recordImport (h : r.Calls) (isType : Bool) (source : String) (span : Option Span)
    (specifiers : List Node) (priority : Priority) :
    (r.recordImport isType source span specifiers priority).Calls := by
  unfold Draft.recordImport
  dsimp only
  split <;> exact h.of_same rfl rfl

theorem scanStatement {hints : Hints} {n : Node} {r' : Draft} (h : r.Calls)
    (scanned : r.scanStatement hints n = .ok r') : r'.Calls := by
  cases Scans.of_ok scanned with
  | imported => exact h.recordImport _ _ _ _ _
  | default => exact of_same (h.exportDefault _ _ _) rfl rfl
  | declaration =>
    refine exportDeclaration ?_ _ _
    exact h.of_same rfl rfl
  | names =>
    refine foldl ?_ (fun _ n h => h.exportName n) _
    exact h.of_same rfl rfl
  | namesFrom =>
    refine reexport ?_ _ _ _
    exact h.of_same rfl rfl
  | all => exact h.exportAll _ _ _ _
  | erased | assigned | whole => exact h.of_same rfl rfl

theorem scan {hints : Hints} {ns : List Node} {r' : Draft} (h : r.Calls)
    (scanned : r.scan hints ns = .ok r') :
    r'.Calls := by
  induction ns generalizing r with
  | nil =>
    cases scanned
    exact h
  | cons n ns ih =>
    obtain ⟨r₁, first, rest⟩ := bind_eq_ok_iff.mp scanned
    exact ih (h.scanStatement first) rest

theorem bindNamespace (h : r.Calls) (binding : String) (group : ImportGroup) (s : Specifier) :
    (r.bindNamespace binding group s).Calls := by
  cases s with
  | «namespace» x =>
    simp only [Draft.bindNamespace]
    split
    · exact h.of_same rfl rfl
    · exact h.call .interopWildcard group.priority (fun f => .importVariable x (.wrapped f binding)
        group.span) fun _ => rfl
  | default | named => exact h

theorem bindImported (h : r.Calls) (binding : String) (group : ImportGroup) (x imported : String) :
    (r.bindImported binding group x imported).Calls := by
  unfold Draft.bindImported
  split
  · exact h.call .interopDefault group.priority (fun f => .importVariable x (.defaultOf f binding)
      group.span) fun _ => rfl
  · have redirected :
        { r with redirects := r.redirects.insert x (.member binding imported) }.Calls :=
          h.of_same rfl rfl
    exact redirected.hoist group.priority rfl rfl

theorem bindName (h : r.Calls) (binding : String) (group : ImportGroup) (s : Specifier) :
    (r.bindName binding group s).Calls := by
  cases s with
  | «namespace» => exact h
  | default x => exact h.bindImported binding group x "default"
  | named x imported => exact h.bindImported binding group x imported

theorem lowerGroup (h : r.Calls) (source : String) (group : ImportGroup) :
    (r.lowerGroup source group).Calls := by
  unfold Draft.lowerGroup
  split
  · exact h.hoist _ rfl rfl
  · refine of_same (foldl (foldl (h.require source _ _) ?_ _) ?_ _) rfl rfl
    · exact fun _ s h => h.bindNamespace _ group s
    · exact fun _ s h => h.bindName _ group s

theorem lowerImports (h : r.Calls) : r.lowerImports.Calls := by
  refine foldl ?_ (fun _ e h => h.lowerGroup e.1 e.2) _
  exact h.of_same rfl rfl

end Calls

end Draft

end ModuleLowering
