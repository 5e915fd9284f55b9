import ModuleLowering.Proofs.Lower.ExportMark
import ModuleLowering.Proofs.Lower.ExternalName
import ModuleLowering.Proofs.Lower.Layout

/-!
The alias of a default export: a module that exports nothing else can be replaced by it.
-/

set_option autoImplicit false

namespace ModuleLowering

theorem Node.any_externalNames {name : String → String} {p : String → Bool} {n : Node}
    (same : n.form = .exportDeclaration → ∀ x ∈ n.exportedAs, p (name x) = p x) :
    (n.externalNames name).any p = n.exportedAs.any p := by
  unfold externalNames
  split
  · next form =>
    rw [List.any_map, Bool.eq_iff_iff, List.any_eq_true, List.any_eq_true]
    exact exists_congr fun x => and_congr_right fun exported => by
      rw [Function.comp_apply, same form x exported]
  · rfl

namespace Module

def IsDefaultOnly (m : Module) : Prop :=
  (∀ e, e ∈ m.exportedNames ↔ e = "default") ∧ ∀ n ∈ m.statements, n.starPath? = none

variable {m : Module} {options : Options} {hints : Hints} {r : Draft}

theorem newName_eq_default_iff (suits : m.newNames.Suits m.scopes) {x : String} {s : Symbol}
    (held : m.scopes.root? x = some s) :
    m.newName x = "default" ↔ x = "default" := by
  by_cases among : x ∈ runtimeNames
  · refine iff_of_false (fun same => ?_) ?_
    · have head := newName_head suits among held
      rw [same] at head
      revert head
      decide
    · rintro rfl
      revert among
      decide
  · rw [newName_of_not_mem suits among]

theorem exportMarks_renamed (suits : m.newNames.Suits m.scopes)
    (fits : ∀ n ∈ m.statements, n.isPublication = true)
    (root : ∀ n ∈ m.statements, n.ExportsAtRoot m.scopes) :
    m.renamed.statements.map Node.exportMarks = m.statements.map Node.exportMarks := by
  unfold renamed
  split
  · rfl
  · rw [statements_rename, List.map_map]
    refine List.map_congr_left fun n among => ?_
    -- Both marks ask about being the default one, so that one lemma serves for the names that are
    -- and those that are not.
    have same (p : Bool → Bool) :
        (n.rename m.newNames).exportedAs.any (fun x => p (x = "default")) =
        n.exportedAs.any fun x => p (x = "default") := by
      rw [Node.exportedAs_rename (fits n among) (root n among)]
      refine Node.any_externalNames fun form x exported => ?_
      obtain ⟨s, held⟩ := Node.root_of_exportedAs (fits n among) (root n among) form exported
      have kept := newName_eq_default_iff suits held
      rw [newName] at kept
      simp only [kept]
    have default := same id
    have named := same not
    have empty : (n.rename m.newNames).exportedDeclarators.isEmpty =
      n.exportedDeclarators.isEmpty := by
      rw [Bool.eq_iff_iff, List.isEmpty_iff_length_eq_zero, List.isEmpty_iff_length_eq_zero,
        Node.length_exportedDeclarators_rename]
    simp only [id, ← decide_not] at default named
    simp only [Function.comp_apply, Node.exportMarks, Node.isValueExport_rename,
      Node.starPath?_rename, empty, default, named]

theorem defaultAlias_mem_items (placed : r.Placed r.naming options hints m.renamed.statements) :
    .defaultAlias ∈ r.items ↔ (r.options.addExports && r.hasDefault && !r.hasNamed) = true := by
  have last : .defaultAlias ∈ r.items ↔ .defaultAlias ∈ r.footer.map Prod.snd := by
    rw [r.items_perm.mem_iff, r.unarranged_split, List.mem_append, List.mem_append
      (s := r.footer.map Prod.snd)]
    constructor
    · rintro (early | here | helper)
      · exact absurd rfl (placed.not_last early).2
      · exact here
      · cases Draft.mem_helperItems helper
    · exact fun here => .inr (.inl here)
  rw [last, Draft.footer]
  split
  · next holds => simp [holds]
  · next fails => simp [fails]

theorem exportMarks_iff : ((m.statements.any fun n => n.exportMarks.default) &&
      !m.statements.any fun n => n.exportMarks.named) = true ↔
    m.IsDefaultOnly ∧ ∀ n ∈ m.statements, n.exportedDeclarators = [] := by
  have default : (m.statements.any fun n => n.exportMarks.default) = true ↔
      ∃ n ∈ m.statements, n.exportedDeclarators = [] ∧ "default" ∈ n.exportedAs := by
    simp [Node.exportMarks]
  have unnamed : (!m.statements.any fun n => n.exportMarks.named) = true ↔
      ∀ n ∈ m.statements, (n.exportedDeclarators = [] ∧ n.starPath? = none) ∧
      ∀ x ∈ n.exportedAs, x = "default" := by
    simp [Node.exportMarks]
  rw [Bool.and_eq_true_iff, default, unnamed]
  constructor
  · rintro ⟨⟨n, among, -, exported⟩, others⟩
    refine ⟨⟨fun e => ⟨fun listed => ?_, ?_⟩, fun n among => (others n among).1.2⟩,
      fun n among => (others n among).1.1⟩
    · obtain ⟨n', among', here⟩ := List.mem_flatMap.mp listed
      exact (others n' among').2 e here
    · rintro rfl
      exact List.mem_flatMap.mpr ⟨n, among, exported⟩
  · rintro ⟨⟨names, stars⟩, declarators⟩
    obtain ⟨n, among, exported⟩ := List.mem_flatMap.mp ((names "default").mpr rfl)
    refine ⟨⟨n, among, declarators n among, exported⟩,
      fun n' among' => ⟨⟨declarators n' among', stars n' among'⟩, ?_⟩⟩
    exact fun x here => (names x).mp (List.mem_flatMap.mpr ⟨n', among', here⟩)

/-- The default export of a lowered module stands in for the module just if that is asked for,
nothing else is exported or passed on, and there is no exported declaration of variables, not even
one that declares no name. -/
theorem default_alias_iff (s : Original)
    (fits : ∀ n ∈ s.analysed.statements, n.isPublication = true) (options : Options) (hints : Hints)
    (run : s.Lowering options hints) :
    let m := s.analysed
    Item.WritesOut (m.loweredBindings options hints) (m.loweredItems options hints)
      run.lowered.statements ∧
      (.defaultAlias ∈ m.loweredItems options hints ↔ options.addExports = true ∧ m.IsDefaultOnly ∧
        ∀ n ∈ m.statements, n.exportedDeclarators = []) := by
  intro m
  have suits : m.newNames.Suits m.scopes := s.newNames_suits
  have root : ∀ n ∈ m.statements, n.ExportsAtRoot m.scopes := fun n => Original.exportsAtRoot
  obtain ⟨outcome, lowered, success⟩ := run
  refine ⟨writesOut ⟨_, _, rfl⟩ success, ?_⟩
  rcases lower_cases success with ⟨none, plain, -⟩ | ⟨r, final, -, drafted, -⟩
  · -- A module that is left as it is exports nothing, and so no default either.
    have silent : m.exportedNames = [] := List.flatMap_eq_nil_iff.mpr fun n among => by
      rw [← Node.externalNames_id]
      exact Node.externalNames_of_not_isModuleSyntax
        (by simpa using List.any_eq_false.mp plain n among)
    rw [loweredItems_of_none none]
    refine iff_of_false (fun among => ?_) ?_
    · obtain ⟨n, -, eq⟩ := List.mem_map.mp among
      cases eq
    · rintro ⟨-, ⟨names, -⟩, -⟩
      simpa [silent] using names "default"
  · have placed := placed_of_draft drafted
    have marks := marks_of_draft drafted
    rw [exportMarks_renamed suits fits root] at marks
    have default : r.hasDefault = m.statements.any fun n => n.exportMarks.default :=
      (congrArg ExportMarks.default marks).trans List.any_map
    have named : r.hasNamed = m.statements.any fun n => n.exportMarks.named :=
      (congrArg ExportMarks.named marks).trans List.any_map
    rw [loweredItems_of_some final, defaultAlias_mem_items placed, placed.given, default, named,
      Bool.and_assoc, Bool.and_eq_true_iff, exportMarks_iff]

/-- `export default 1; export const {} = {};` -/
def declaringNothing : Original :=
  ⟨true, none, [], none,
    [.made .exportDefault [Made.number 1],
     .made .exportDeclaration [.made (.varDecl .blockScoped false) [.made (.declarator false)
      [.made .bindingObject [], .absent, .made .object []]]]]⟩

/-- The only export is the default, and still it does not stand in for the module. -/
theorem default_alias_iff_declaringNothing : ∃ outcome lowered,
    (Module.lower ⟨false, false, true⟩ .none).run declaringNothing.analysed = .ok outcome lowered ∧
      declaringNothing.analysed.IsDefaultOnly ∧
      .defaultAlias ∉ declaringNothing.analysed.loweredItems ⟨false, false, true⟩ .none := by
  obtain ⟨-, aliased⟩ := default_alias_iff declaringNothing (by decide +kernel)
    ⟨false, false, true⟩ .none
    ⟨_, _, (rfl : (Module.lower ⟨false, false, true⟩ .none).run declaringNothing.analysed = _)⟩
  have names : declaringNothing.analysed.exportedNames = ["default"] := by decide +kernel
  have declares : ¬ ∀ n ∈ declaringNothing.analysed.statements, n.exportedDeclarators = [] := by
    decide +kernel
  refine ⟨_, _, rfl, ⟨fun e => by rw [names, List.mem_singleton], by decide +kernel⟩, ?_⟩
  exact fun among => declares (aliased.mp among).2.2

end Module

end ModuleLowering
