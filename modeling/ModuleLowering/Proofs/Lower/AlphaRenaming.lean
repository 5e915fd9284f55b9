import ModuleLowering.Proofs.Lower.Spelling
import ModuleLowering.Proofs.Scope.RenamedTable

/-!
Giving new names to a module's own `module`, `exports` and `require` changes how they are spelled,
and nothing else: every occurrence of a name finds the symbol that it found before.
-/

set_option autoImplicit false

namespace ModuleLowering

/-- From both surroundings the same scopes are seen, and names look for the same there. -/
structure ScopeContext.Sees (c c' : ScopeContext) : Prop where
  chain : c'.chain = c.chain
  meaning : c'.meaning = c.meaning

/-- A form without its name, what the name refers to, and how a property is written. -/
def Form.frame : Form → Form
  | .ident .. => .ident "" .none
  | .target .. => .target "" .none
  | .tagRef .. => .tagRef "" .none
  | .mention .. => .mention "" .none .value
  | .binder .. => .binder "" none
  | .property _ isComputed => .property false isComputed
  | .bindingProperty _ isComputed => .bindingProperty false isComputed
  | f => f

theorem Form.frame_resolve (t : ScopeTable) (c : ScopeContext) (f : Form) :
    (f.resolve t c).frame = f.frame := by
  cases f <;> rfl

theorem Form.Renamed.frame {r : Renaming} {f f' : Form} (h : Renamed r f f') :
    f'.frame = f.frame := by
  cases h <;> rfl

namespace ScopeContext

theorem functionPart_chain (c : ScopeContext) (scope : ScopeId) (bodyIndex : Nat)
    (isUnique : Bool) (i : Nat) :
    (c.functionPart scope bodyIndex isUnique i).chain =
      if i = bodyIndex then (bodyIndex :: scope) :: scope :: c.chain else scope :: c.chain := by
  simp only [functionPart]
  split <;> rfl

theorem functionPart_meaning (c : ScopeContext) (scope : ScopeId) (bodyIndex : Nat)
    (isUnique : Bool) (i : Nat) :
    (c.functionPart scope bodyIndex isUnique i).meaning = c.meaning := by
  simp only [functionPart]
  split <;> rfl

theorem Sees.part_frame {c c' : ScopeContext} (h : c.Sees c') (scope : ScopeId) (f : Form)
    (ps ps' : List Node) (i : Nat) :
    (c.part scope f ps i).Sees (c'.part scope f.frame ps' i) := by
  obtain ⟨chain, meaning⟩ := h
  constructor
  · cases f
    all_goals
      simp only [Form.frame, ScopeContext.part, ScopeContext.block, ScopeContext.closed,
        ScopeContext.declaring]
      try exact chain
      try (repeat' split) <;> simp [functionPart_chain, chain]
  · cases f
    all_goals
      simp only [Form.frame, ScopeContext.part, ScopeContext.block, ScopeContext.closed,
        ScopeContext.declaring]
      try exact meaning
      try (repeat' split) <;> simp [functionPart_meaning, meaning]

theorem Sees.part {c c' : ScopeContext} (h : c.Sees c') (scope : ScopeId) {f f' : Form}
    (same : f'.frame = f.frame) (ps ps' : List Node) (i : Nat) : (c.part scope f ps i).Sees
    (c'.part scope f' ps' i) := by
  have one := h.part_frame scope f ps ps' i
  have other := (mk rfl rfl : c'.Sees c').part_frame scope f' ps' ps' i
  rw [same] at other
  exact ⟨other.chain.symm.trans one.chain, other.meaning.symm.trans one.meaning⟩

end ScopeContext

theorem Form.resolve_resolve (t : ScopeTable) {c c' : ScopeContext} (h : c.Sees c') (f : Form) :
    (f.resolve t c).resolve t c' = f.resolve t c := by
  cases f <;> simp [resolve, ScopeTable.refer, h.chain, h.meaning]

mutual

theorem Node.resolve_resolve (t : ScopeTable) :
    ∀ (n : Node) (c c' : ScopeContext) (scope : ScopeId), c.Sees c' →
    (n.resolve t c scope).resolve t c' scope = n.resolve t c scope
  | .mk f s ps, c, c', scope, h => by
    simp only [resolve, Form.resolve_resolve t h]
    rw [resolveParts_resolveParts t ps _ _ scope _ _ (Form.frame_resolve t c f) _ _ _ h]

theorem Node.resolveParts_resolveParts (t : ScopeTable) : ∀ (ps : List Node) (c c' : ScopeContext)
    (scope : ScopeId) (f f' : Form), f'.frame = f.frame →
      ∀ (all all' : List Node) (i : Nat), c.Sees c' →
    resolveParts t c' scope f' all' i (resolveParts t c scope f all i ps) = resolveParts t c
    scope f all i ps
  | [], _, _, _, _, _, _, _, _, _, _ => rfl
  | p :: ps, c, c', scope, f, f', same, all, all', i, h => by
    simp only [resolveParts]
    rw [resolve_resolve t p _ _ _ (h.part scope same all all' i),
      resolveParts_resolveParts t ps c c' scope f f' same all all' (i + 1) h]

end

theorem Form.resolve_expandShorthand {t : ScopeTable} {c : ScopeContext} {f : Form}
    (h : f.resolve t c = f) (ps : List Node) :
    (f.expandShorthand ps).resolve t c = f.expandShorthand ps := by
  have shapes : f.expandShorthand ps = f ∨
    (∃ b isComputed, f.expandShorthand ps = .property b isComputed) ∨
      ∃ b isComputed, f.expandShorthand ps = .bindingProperty b isComputed := by
    unfold expandShorthand
    split
    · exact .inr (.inl ⟨_, _, rfl⟩)
    · exact .inr (.inr ⟨_, _, rfl⟩)
    · exact .inl rfl
  rcases shapes with same | ⟨_, _, eq⟩ | ⟨_, _, eq⟩
  · rw [same, h]
  · rw [eq]
    rfl
  · rw [eq]
    rfl

section
variable {r : Renaming} {t : ScopeTable}

theorem Form.resolve_rename (h : r.Suits t) {c c' : ScopeContext} (sees : c.Sees c')
    (root : [] ∈ c.chain) (f : Form) (free : ∀ x, (f.resolve t c).unresolved? = some x →
    ∀ e ∈ r.entries, e.2 ≠ x) :
    ((f.resolve t c).rename r).resolve (t.rename r) c' = (f.resolve t c).rename r := by
  have refer (x : String) (meaning : Meaning) (old : t.refer c x meaning = .global →
    ∀ e ∈ r.entries, e.2 ≠ x) :
      (t.rename r).refer c' (r.referred (t.refer c x meaning) x) meaning = t.refer c x meaning :=
    h.refer_rename sees.chain root old
  cases f
  case ident x _ =>
    simp only [resolve, rename, sees.meaning] at free ⊢
    rw [refer x _ fun global => free x (by rw [global]; rfl)]
  case target x _ | tagRef x _ =>
    simp only [resolve, rename] at free ⊢
    rw [refer x _ fun global => free x (by rw [global]; rfl)]
  case mention x _ meaning =>
    simp only [resolve, rename] at free ⊢
    by_cases this : x = "this"
    · simp [this, Renaming.referred]
    · rw [if_neg this] at free ⊢
      have other : r.referred (t.refer c x meaning) x ≠ "this" := by
        rcases r.referred_cases (t.refer c x meaning) x with same | ⟨s, -, entry⟩
        · rw [same]
          exact this
        · exact fun eq => absurd (eq ▸ h.head _ entry : "this".toList.head? = some '_') (by decide)
      rw [if_neg other, refer x _ fun global => free x (by rw [global]; rfl)]
  case binder x symbol => cases symbol <;> rfl
  all_goals rfl

mutual

theorem Node.resolve_rename (h : r.Suits t) :
    ∀ (n : Node) (c c' : ScopeContext) (scope : ScopeId), c.Sees c' →
    [] ∈ c.chain → (∀ x ∈ (n.resolve t c scope).unresolved, ∀ e ∈ r.entries, e.2 ≠ x) →
    ((n.resolve t c scope).rename r).resolve (t.rename r) c' scope = (n.resolve t c scope).rename r
  | .mk f s ps, c, c', scope, sees, root, free => by
    simp only [resolve, unresolved, List.mem_append, Option.mem_toList] at free
    have frame : (((f.resolve t c).rename r).expandShorthand
        (renameParts r (resolveParts t c scope f ps 0 ps))).frame = f.frame :=
      (((Form.Renamed.rename r _).expandShorthand _).frame).trans (Form.frame_resolve t c f)
    have form := Form.resolve_rename h sees root f fun x here => free x (.inl here)
    simp only [resolve, rename]
    rw [Form.resolve_expandShorthand form,
      resolveParts_rename h ps c c' scope f _ frame ps _ 0 sees root fun x below =>
      free x (.inr below)]

theorem Node.resolveParts_rename (h : r.Suits t) : ∀ (ps : List Node) (c c' : ScopeContext)
    (scope : ScopeId) (f f' : Form), f'.frame = f.frame → ∀ (all all' : List Node) (i : Nat),
      c.Sees c' → [] ∈ c.chain →
    (∀ x ∈ unresolvedInParts (resolveParts t c scope f all i ps), ∀ e ∈ r.entries, e.2 ≠ x) →
    resolveParts (t.rename r) c' scope f' all' i
      (renameParts r (resolveParts t c scope f all i ps)) =
      renameParts r (resolveParts t c scope f all i ps)
  | [], _, _, _, _, _, _, _, _, _, _, _, _ => rfl
  | p :: ps, c, c', scope, f, f', same, all, all', i, sees, root, free => by
    simp only [resolveParts, unresolvedInParts, List.mem_append] at free
    have around : [] ∈ (c.part scope f all i).chain :=
      (ScopeContext.Within.part scope c f all i).chain.subset root
    simp only [resolveParts, renameParts]
    rw [resolve_rename h p _ _ _ (sees.part scope same all all' i) around fun x here => free x
      (.inl here), resolveParts_rename h ps c c' scope f f' same all all' (i + 1) sees root
      fun x later => free x (.inr later)]

end

end

def Form.symbol? : Form → Option Symbol
  | .ident _ (.symbol s) | .target _ (.symbol s) | .tagRef _ (.symbol s)
  | .mention _ (.symbol s) _ => some s
  | .binder _ symbol => symbol
  | _ => none

def Form.spelled (y : String) : Form → Form
  | .ident _ ref => .ident y ref
  | .target _ ref => .target y ref
  | .tagRef _ ref => .tagRef y ref
  | .mention _ ref meaning => .mention y ref meaning
  | .binder _ symbol => .binder y symbol
  | f => f

def Form.under (fresh : Symbol → Option String) (f : Form) : Form :=
  match f.symbol?.bind fresh with
  | some y => f.spelled y
  | none => f

def Form.unabridged : Form → Form
  | .property _ isComputed => .property false isComputed
  | .bindingProperty _ isComputed => .bindingProperty false isComputed
  | f => f

/-- If a property is written as one name, that is both its key and its value. -/
def Node.IsTruthful : Node → Prop
  | .mk (.property true _) _ [.mk (.word key) _ _, .mk (.ident name _) _ _] => key = name
  | .mk (.bindingProperty true _) _ [.mk (.word key) _ _, .mk (.binder name _) _ _] => key = name
  | _ => True

inductive Node.Respelled (fresh : Symbol → Option String) : Node → Node → Prop
  | mk {f f' : Form} {s : Option Span} {ps ps' : List Node} :
    f'.unabridged = (f.under fresh).unabridged → List.Forall₂ (Respelled fresh) ps ps' →
    ((Node.mk f s ps).IsTruthful → (Node.mk f' s ps').IsTruthful) →
      Respelled fresh (.mk f s ps) (.mk f' s ps')

theorem Node.isTruthful_expandShorthand (f : Form) (s : Option Span) (ps : List Node) :
    (mk (f.expandShorthand ps) s ps).IsTruthful := by
  unfold Form.expandShorthand
  split
  · next key _ _ name _ _ _ => by_cases same : key = name <;> simp [IsTruthful, same]
  · next key _ _ name _ _ _ => by_cases same : key = name <;> simp [IsTruthful, same]
  · next property binding =>
    unfold IsTruthful
    split
    · next eq =>
      obtain ⟨rfl, -, rfl⟩ := mk.inj eq
      exact (property _ _ _ _ _ _ _ _ rfl rfl).elim
    · next eq =>
      obtain ⟨rfl, -, rfl⟩ := mk.inj eq
      exact (binding _ _ _ _ _ _ _ _ rfl rfl).elim
    · trivial

theorem Form.rename_eq_under (r : Renaming) (f : Form) : f.rename r = f.under r.new? := by
  have under (s : Symbol) (x : String) (g : String → Form) : g (r.nameOf s x) =
      match r.new? s with
      | some y => g y
      | none => g x := by
    rw [Renaming.nameOf_eq]
    cases r.new? s <;> rfl
  cases f
  case ident x ref =>
    cases ref with
    | symbol s => exact under s x fun y => .ident y (.symbol s)
    | none | global => rfl
  case target x ref =>
    cases ref with
    | symbol s => exact under s x fun y => .target y (.symbol s)
    | none | global => rfl
  case tagRef x ref =>
    cases ref with
    | symbol s => exact under s x fun y => .tagRef y (.symbol s)
    | none | global => rfl
  case mention x ref meaning =>
    cases ref with
    | symbol s => exact under s x fun y => .mention y (.symbol s) meaning
    | none | global => rfl
  case binder x symbol =>
    cases symbol with
    | some s => exact under s x fun y => .binder y (some s)
    | none => rfl
  all_goals rfl

theorem Form.unabridged_expandShorthand (f : Form) (ps : List Node) :
    (f.expandShorthand ps).unabridged = f.unabridged := by
  unfold expandShorthand
  split <;> rfl

theorem Node.respelled_rename (r : Renaming) (n : Node) : Respelled r.new? n (n.rename r) := by
  induction n using Node.induction with
  | step f s ps ih =>
    rw [rename_mk]
    refine .mk ?_ ?_ fun _ => isTruthful_expandShorthand _ s _
    · rw [Form.unabridged_expandShorthand, Form.rename_eq_under]
    · exact List.forall₂_map_right_iff.mpr (List.forall₂_same.mpr ih)

theorem Node.respelled_refl {fresh : Symbol → Option String}
    (none : ∀ s, fresh s = none) (n : Node) :
    Respelled fresh n n := by
  induction n using Node.induction with
  | step f s ps ih =>
    refine .mk ?_ (List.forall₂_same.mpr ih) id
    have same : f.under fresh = f := by
      unfold Form.under
      cases f.symbol? <;> simp [none]
    rw [same]

theorem head_of_runtimeNames : ∀ x ∈ runtimeNames, x.toList.head? ≠ some '_' := by decide

/-- The second module is the first one with new names for those of its own symbols that are called
as the runtime calls its objects, and with nothing else changed: neither what any name refers to,
nor how any other name is spelled. -/
structure Module.AlphaRenamed (m m' : Module) (fresh : Symbol → Option String) : Prop where
  renamed : ∀ s, (∃ y, fresh s = some y) ↔ ∃ x ∈ runtimeNames, m.scopes.root? x = some s
  unused : ∀ s y, fresh s = some y → y ∉ m.takenNames
  apart : ∀ s s' y, fresh s = some y → fresh s' = some y → s = s'
  spelled : Node.Respelled fresh m.program m'.program
  /-- What the names refer to, in both modules, is what is found when they are looked up around
  them. -/
  resolvedBefore : ∀ isStrict, m.program.resolve m.scopes (.program isStrict) [] = m.program
  resolved : ∀ isStrict, m'.program.resolve m'.scopes (.program isStrict) [] = m'.program
  held : ∀ s y, fresh s = some y → m'.scopes.root? y = some s
  released : ∀ x ∈ runtimeNames, m'.scopes.root? x = none
  others : ∀ scope x, (scope = [] → x ∉ runtimeNames ∧ ∀ s, fresh s ≠ some x) →
    m'.scopes.binding? scope x = m.scopes.binding? scope x
  declared : m'.scopes.declared = m.scopes.declared

namespace Original

variable (s : Original)

theorem newNames_suits : s.analysed.newNames.Suits s.analysed.scopes := by
  have run := s.analysed_enters
  generalize s.analysed = m at run ⊢
  have named := run.keeps_named ScopeTable.empty_named
  have generates := Renaming.choose_generates m.scopes runtimeNames ⟨m.takenNames⟩
  refine ⟨named, run.keeps_keyed (by simp [ScopeTable.Keyed, ScopeTable.empty]),
    Renaming.choose_distinct named (by decide) _, generates.nodup, fun e entry =>
    ?_, fun e entry b bound same => ?_, fun e entry => ?_⟩
  · obtain ⟨x, -, held⟩ := Renaming.choose_rooted entry
    have name : e.1.name = x := named _ (List.mem_append_left _ (ScopeTable.mem_of_binding? held))
    rw [name, held]
  · refine generates.fresh _ (List.mem_map_of_mem entry) (List.mem_append_left _ ?_)
    rw [← same]
    exact run.bound_symbolNames bound
  · exact generates.head _ (List.mem_map_of_mem entry)

theorem resolve_analysed (isStrict : Bool) :
    s.analysed.program.resolve s.analysed.scopes (.program isStrict) [] = s.analysed.program := by
  obtain ⟨n, strictHere, program⟩ : ∃ (n : Node) (strictHere : Bool), s.analysed.program =
      n.resolve s.analysed.scopes (.program strictHere) [] := ⟨_, _, rfl⟩
  rw [program]
  exact Node.resolve_resolve _ n _ _ [] ⟨rfl, rfl⟩

end Original

namespace Module

section
variable {m : Module}

theorem not_mem_takenNames {s : Symbol} {y : String} (entry : (s, y) ∈ m.newNames.entries) :
    y ∉ m.takenNames :=
  (Renaming.choose_generates m.scopes runtimeNames ⟨m.takenNames⟩).fresh _
    (List.mem_map_of_mem entry)

theorem resolve_program_renamed (suits : m.newNames.Suits m.scopes)
    (stable : ∀ isStrict, m.program.resolve m.scopes (.program isStrict) [] = m.program)
    (isStrict : Bool) :
    m.renamed.program.resolve m.renamed.scopes (.program isStrict) [] = m.renamed.program := by
  unfold renamed
  split
  · exact stable isStrict
  · have free : ∀ x ∈ m.program.unresolved, ∀ e ∈ m.newNames.entries, e.2 ≠ x := by
      rintro x occurs ⟨s, y⟩ entry rfl
      exact not_mem_takenNames entry (List.mem_append_right _ occurs)
    show (m.program.rename m.newNames).resolve (m.scopes.rename m.newNames) _ [] =
      m.program.rename m.newNames
    rw [← stable isStrict] at free ⊢
    exact Node.resolve_rename suits m.program _ _ [] ⟨rfl, rfl⟩ (List.mem_singleton_self _) free

section
variable (suits : m.newNames.Suits m.scopes)
include suits

theorem root?_renamed_of_mem {x : String} (among : x ∈ runtimeNames) :
    m.renamed.scopes.root? x = none := by
  rw [renamed_scopes, suits.root?_old]
  · cases found : m.scopes.root? x with
    | none => rfl
    | some s =>
      obtain ⟨y, entry⟩ := Renaming.exists_chosen ⟨m.takenNames⟩ among found
      have listed : s ∈ m.newNames.entries.map Prod.fst := List.mem_map_of_mem entry
      simp [Option.filter_some, listed]
  · intro e entry same
    exact absurd (same ▸ suits.head e entry) (head_of_runtimeNames x among)

theorem mem_runtimeNames_of_renamed {s : Symbol} {x : String} (held : m.scopes.root? x = some s)
    (listed : s ∈ m.newNames.entries.map Prod.fst) : x ∈ runtimeNames := by
  obtain ⟨e, entry, rfl⟩ := List.mem_map.mp listed
  obtain ⟨x', among, held'⟩ := Renaming.choose_rooted entry
  have name : e.1.name = x :=
    suits.named _ (List.mem_append_left _ (ScopeTable.mem_of_binding? held))
  have name' : e.1.name = x' :=
    suits.named _ (List.mem_append_left _ (ScopeTable.mem_of_binding? held'))
  exact name.symm.trans name' ▸ among

theorem binding?_renamed {scope : ScopeId} {x : String}
    (other : scope = [] → x ∉ runtimeNames ∧ ∀ s, (s, x) ∉ m.newNames.entries) :
    m.renamed.scopes.binding? scope x = m.scopes.binding? scope x := by
  rw [renamed_scopes]
  by_cases root : scope = []
  · subst root
    obtain ⟨foreign, old⟩ := other rfl
    refine (suits.root?_old (x := x) fun e entry same => old e.1 (same ▸ entry)).trans ?_
    cases found : m.scopes.root? x with
    | none => exact found.symm
    | some s =>
      have kept : s ∉ m.newNames.entries.map Prod.fst :=
        fun listed => foreign (mem_runtimeNames_of_renamed suits found listed)
      rw [Option.filter_some, if_pos (by simpa using kept)]
      exact found.symm
  · exact suits.binding?_inner root x

end

end

/-- Renaming keeps what every name refers to, and gives the names that made-up code needs free. -/
theorem renaming_is_capture_free (s : Original) :
    ∃ fresh, s.analysed.AlphaRenamed s.analysed.renamed fresh := by
  have suits := s.newNames_suits
  have stable := s.resolve_analysed
  generalize s.analysed = m at suits stable ⊢
  have entry_iff (s : Symbol) (y : String) : m.newNames.new? s = some y ↔
    (s, y) ∈ m.newNames.entries :=
    Renaming.new?_eq_some_iff suits.distinct
  refine ⟨m.newNames.new?, fun s => ?renamed, fun s y new => not_mem_takenNames
    ((entry_iff s y).mp new), fun s s' y new new' =>
    ?apart, ?spelled, stable, resolve_program_renamed suits stable, fun s y new => ?held, fun x =>
      root?_renamed_of_mem suits, fun scope x other => ?others, ?declared⟩
  case renamed =>
    simp only [entry_iff]
    constructor
    · rintro ⟨y, entry⟩
      exact Renaming.choose_rooted entry
    · rintro ⟨x, among, held⟩
      exact Renaming.exists_chosen _ among held
  case apart =>
    have same := List.inj_on_of_nodup_map suits.apart ((entry_iff s y).mp new)
      ((entry_iff s' y).mp new') rfl
    exact congrArg Prod.fst same
  case spelled =>
    unfold Module.renamed
    split
    · next empty =>
      refine Node.respelled_refl (fun s => ?_) m.program
      simp [Renaming.new?, List.isEmpty_iff.mp empty]
    · exact Node.respelled_rename m.newNames m.program
  case held =>
    rw [renamed_scopes]
    exact suits.root?_new ((entry_iff s y).mp new)
  case others =>
    refine binding?_renamed suits fun root => ?_
    obtain ⟨foreign, old⟩ := other root
    exact ⟨foreign, fun s entry => old s ((entry_iff s x).mpr entry)⟩
  case declared =>
    rw [renamed_scopes]
    exact ScopeTable.declared_rename m.newNames m.scopes

end Module

end ModuleLowering
