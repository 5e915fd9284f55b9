import ModuleLowering.Proofs.Lower.Capture
import ModuleLowering.Proofs.Lower.LivePath

/-!
Redirected reads. The pass replaces those reads of an imported name that refer to the import, and
no others; with nothing exported, it changes nothing else.
-/

set_option autoImplicit false

namespace ModuleLowering

namespace Module

variable {m : Module}

theorem Consistent.renamed_root (h : m.Consistent) {s : Symbol} {x : String}
    (held : m.scopes.root? x = some s) :
    ((m.scopes.rename m.newNames).root? (m.newNames.nameOf s x)).isSome = true := by
  have distinct : (m.newNames.entries.map Prod.fst).Nodup :=
    Renaming.choose_distinct h.named (by decide) _
  exact ScopeTable.root?_isSome_iff.mpr
    ⟨s, ScopeTable.mem_rename _ distinct (ScopeTable.mem_of_binding? held)⟩

end Module

namespace Form.Renamed

variable {r : Renaming} {f f' : Form}

theorem isSpecifier (h : Renamed r f f') : f'.isSpecifier = f.isSpecifier := by cases h <;> rfl

theorem of_importDecl (h : Renamed r f f') {isType hasClause : Bool} {source : String}
    (form : f' = .importDecl isType hasClause source) :
    f = .importDecl isType hasClause source := by
  cases h <;> first | exact form | cases form

end Form.Renamed

theorem Node.mem_parts_rename {r : Renaming} {n p' : Node} (among : p' ∈ (n.rename r).parts) :
    ∃ p ∈ n.parts, p' = p.rename r := by
  obtain ⟨f, s, ps⟩ := n
  rw [rename_mk] at among
  obtain ⟨p, listed, rfl⟩ := List.mem_map.mp among
  exact ⟨p, listed, rfl⟩

theorem Node.exists_of_rename_eq_binder {r : Renaming} {b : Node} {x : String}
    {symbol : Option Symbol} (form : (b.rename r).form = .binder x symbol) :
    ∃ y, b.form = .binder y symbol ∧ ∀ s, symbol = some s → x = r.nameOf s y := by
  obtain ⟨f, s, ps⟩ := b
  rw [rename_mk, Node.form] at form
  have plain : f.rename r = .binder x symbol := by
    unfold Form.expandShorthand at form
    split at form
    · cases form
    · cases form
    · exact form
  unfold Form.rename at plain
  split at plain
  case h_5 y s =>
    cases plain
    exact ⟨y, rfl, fun s' same => by cases same; rfl⟩
  case h_6 _ other =>
    subst plain
    refine ⟨x, rfl, fun s same => ?_⟩
    subst same
    exact absurd rfl (other x s)
  all_goals cases plain

namespace Module

variable {m : Module}

theorem Consistent.imports_rooted (h : m.Consistent) {n : Node} (among : n ∈ m.renamed.statements)
    {x : String} (imported : x ∈ n.importedNames) : (m.renamed.scopes.root? x).isSome = true := by
  have fine := (h.owned among).wellFormed
  obtain ⟨⟨isType, hasClause, source, form⟩, p, part, specifier, b, inside, symbol, binder⟩ :=
    Node.exists_binder_of_imported fine imported
  unfold renamed at among ⊢
  split at among
  · next same =>
    have atRoot := h.imports n among
    obtain ⟨f, s, ps⟩ := n
    cases form
    obtain ⟨s, -, held⟩ := atRoot p part specifier b inside x symbol binder
    rw [if_pos same, held]
    rfl
  · next some =>
    rw [if_neg some]
    rw [statements_rename] at among
    obtain ⟨n, listed, rfl⟩ := List.mem_map.mp among
    obtain ⟨p, partBefore, rfl⟩ := Node.mem_parts_rename part
    obtain ⟨b, insideBefore, rfl⟩ := Node.mem_parts_rename inside
    obtain ⟨y, binder, named⟩ := Node.exists_of_rename_eq_binder binder
    rw [(Node.renamed_form m.newNames p).isSpecifier] at specifier
    have atRoot := h.imports n listed
    have original := (Node.renamed_form m.newNames n).of_importDecl form
    obtain ⟨f, s, ps⟩ := n
    cases original
    obtain ⟨s, same, held⟩ := atRoot p partBefore specifier b insideBefore y symbol binder
    rw [named s same]
    exact h.renamed_root held

theorem Consistent.redirects_rooted (h : m.Consistent) {options : Options} {hints : Hints}
    {r : Draft} (drafted : m.draft options hints = .ok r) {x : String} {target : Redirect}
    (found : r.redirects.get? x = some target) :
    (m.renamed.scopes.root? x).isSome = true := by
  have owned : ∀ n ∈ m.renamed.statements,
      n.Owned (fun _ => True) (fun x => (m.renamed.scopes.root? x).isSome = true) := fun n among =>
    ⟨fun _ _ => trivial, (h.owned among).wellFormed, fun _ imported => h.imports_rooted
      among imported⟩
  obtain ⟨r₀, scanned, rfl⟩ := exists_scan drafted
  have sound :=
    ((Draft.Sound.start options m.namesTaken _ _).scan trivial owned scanned).lowerImports
      fun _ _ => trivial
  exact sound.redirects _ (OrderedMap.mem_of_get? found)

end Module

namespace LiveBindings

variable (l : LiveBindings)

/-- A read of the name under the reference is of the import that `r` stands for: the name is
redirected, and refers to what the program's own scope holds. -/
def RedirectsTo (x : String) (ref : Reference) (r : Redirect) : Prop :=
  l.redirects.get? x = some r ∧ ∃ s, ref = .symbol s ∧ l.scopes.root? x = some s

variable {l}

theorem redirect?_eq_some_iff (rooted : ∀ x r, l.redirects.get? x = some r →
    (l.scopes.root? x).isSome = true) {x : String} {ref : Reference} {r :
    Redirect} : l.redirect? x ref = some r ↔ l.RedirectsTo x ref r := by
  rw [redirect?, Option.filter_eq_some_iff, RedirectsTo]
  refine and_congr_right fun found => ?_
  cases ref with
  | none => simp [isModuleLevel]
  | global =>
    have held := rooted x r found
    cases root : l.scopes.root? x with
    | none => rw [root] at held; cases held
    | some s => simp [isModuleLevel, root]
  | symbol s => simp [isModuleLevel]

theorem redirect?_eq_none (rooted : ∀ x r, l.redirects.get? x = some r →
    (l.scopes.root? x).isSome = true) {x : String} {ref : Reference} (other :
    ∀ r, ¬ l.RedirectsTo x ref r) : l.redirect? x ref = none :=
  Option.eq_none_iff_forall_ne_some.mpr fun r found =>
    other r ((redirect?_eq_some_iff rooted).mp found)

theorem place_of_silent (silent : l.exports.entries = []) (completes : Bool) (position : Position)
    (n : Node) (way : List Nat) :
    l.place completes position n way = way := by
  have still (n : Node) (completes : Bool) (position : Position) :
      l.descent completes position n = [] := by
    rw [descent, updatedNames?_of_silent silent, echoes_of_silent silent]
    rfl
  induction way generalizing completes position n with
  | nil => exact still n completes position
  | cons i way ih =>
    rw [place, still]
    cases n.parts[i]? with
    | none => rfl
    | some p => exact congrArg (i :: ·) (ih _ _ p)

structure RedirectedExactly (l : LiveBindings) (completes : Bool) (n : Node) (way : List Nat)
    (p : Node) : Prop where
  /-- A read of an import is replaced; where it is called, so that it is not called as a method. -/
  replaced : ∀ x ref r, p.form = .ident x ref → l.RedirectsTo x ref r →
    (n.live l completes).at? (l.place completes .ordinary n way) =
      some (if n.positionAt .ordinary way = .callee then Made.detached r.toNode else r.toNode)
  kept : ∀ x ref, p.form = .ident x ref → (∀ r, ¬ l.RedirectsTo x ref r) →
    (n.live l completes).at? (l.place completes .ordinary n way) = some p
  written : ∀ x ref, p.form = .target x ref →
    ∃ q, (n.live l completes).at? (l.place completes .ordinary n way) = some q ∧
    q.form = .target x ref
  /-- With nothing exported, everything stays where it was. -/
  inPlace : l.exports.entries = [] → l.place completes .ordinary n way = way
  tags : l.exports.entries = [] → ∀ x ref, p.form = .tagRef x ref →
    (n.live l completes).at? way = some p ∨
      ∃ r, l.RedirectsTo x ref r ∧ (n.live l completes).at? way = some (tagNode r)
  /-- and all other nodes are kept, but that a property is no longer written as one name when its
  value is none. -/
  untouched : l.exports.entries = [] → (∀ x ref, p.form ≠ .ident x ref) →
    (∀ x ref, p.form ≠ .tagRef x ref) →
    ∃ q, (n.live l completes).at? way = some q ∧ q.span = p.span ∧ q.parts.length = p.parts.length ∧
      (q.form = p.form ∨ ∃ isComputed key value, p.form = .property true isComputed ∧
        q.form = .property false isComputed ∧ q.parts = [key, value] ∧
        ∀ x ref, value.form ≠ .ident x ref)

theorem form_truthful (f : Form) (qs : List Node) :
    f.truthful qs = f ∨ ∃ isComputed key value, f = .property true isComputed ∧
      f.truthful qs = .property false isComputed ∧ qs = [key, value] ∧
      ∀ x ref, value.form ≠ .ident x ref := by
  unfold Form.truthful
  split
  · next isComputed key value =>
    split
    · exact .inl rfl
    · next other => exact .inr ⟨isComputed, key, value, rfl, rfl, rfl, other⟩
  · exact .inl rfl

section Image

variable {n : Node} {way : List Nat} {f : Form} {s : Option Span} {ps : List Node}
    (found : n.at? way = some (.mk f s ps))
  (completes : Bool)
include found

theorem at?_place_ident {x : String} {ref : Reference} (form : f = .ident x ref) :
    (n.live l completes).at? (l.place completes .ordinary n way) =
      some (match l.redirect? x ref with
      | some r => if n.positionAt .ordinary way = .callee then Made.detached r.toNode else r.toNode
      | none => .mk f s ps) := by
  subst form
  rcases l.at?_place found completes .ordinary with ⟨completes', here⟩ | ⟨y, ref', names, form, -⟩
  · rw [liveAt_ident] at here
    exact here
  · cases form

theorem at?_place_tagRef {x : String} {ref : Reference} (form : f = .tagRef x ref) :
    (n.live l completes).at? (l.place completes .ordinary n way) =
      some (match l.tagRedirect? x ref with
      | some r => tagNode r
      | none => .mk f s ps) := by
  subst form
  rcases l.at?_place found completes .ordinary with ⟨completes', here⟩ | ⟨y, ref', names, form, -⟩
  · rw [liveAt_tagRef] at here
    exact here
  · cases form

theorem at?_place_other (notIdent : ∀ x ref, f ≠ .ident x ref) (notTag : ∀ x ref, f ≠ .tagRef x ref)
    (notUpdated : l.updatedNames? (.mk f s ps) = none) (quiet : l.echoes (.mk f s ps) = []) :
    (∃ qs, qs.length = ps.length ∧
      (n.live l completes).at? (l.place completes .ordinary n way) =
        some (.mk (f.truthful qs) s qs)) ∨
    ∃ x ref names, f = .target x ref ∧ l.exportedNames? x ref = some names ∧
      (n.live l completes).at? (l.place completes .ordinary n way) =
      some (.made (.target x ref) []) := by
  refine (l.at?_place found completes .ordinary).imp (fun ⟨completes', here⟩ => ?_) id
  refine ⟨l.partsAt completes' (n.positionAt .ordinary way) f ps, by simp [partsAt], ?_⟩
  rw [liveAt_other l notIdent notTag notUpdated, descent, notUpdated, quiet] at here
  exact here

end Image

theorem redirectedExactly (rooted : ∀ x r, l.redirects.get? x = some r →
    (l.scopes.root? x).isSome = true) {n : Node} {way : List Nat} {p : Node} (found :
    n.at? way = some p) (completes : Bool) :
    l.RedirectedExactly completes n way p := by
  obtain ⟨f, s, ps⟩ := p
  refine ⟨fun x ref r form redirected => ?replaced, fun x ref form other => ?kept,
    fun x ref form => ?written, fun silent => place_of_silent silent completes .ordinary n way,
    fun silent x ref form => ?tags, fun silent notIdent notTag => ?untouched⟩
  case replaced =>
    rw [at?_place_ident found completes form, (redirect?_eq_some_iff rooted).mpr redirected]
  case kept => rw [at?_place_ident found completes form, redirect?_eq_none rooted other]
  case written =>
    obtain rfl : f = .target x ref := form
    rcases at?_place_other found completes (by simp) (by simp) rfl rfl with ⟨qs, -, here⟩
      | ⟨y, ref', names, same, -, here⟩
    · exact ⟨_, here, rfl⟩
    · exact ⟨_, here, same.symm⟩
  case tags =>
    have here := at?_place_tagRef (l := l) found completes form
    rw [place_of_silent silent] at here
    cases redirected : l.tagRedirect? x ref with
    | none => rw [redirected] at here; exact .inl here
    | some r =>
      rw [redirected] at here
      refine .inr ⟨r, (redirect?_eq_some_iff rooted).mp ?_, here⟩
      exact (Option.filter_eq_some_iff.mp redirected).1
  case untouched =>
    rcases at?_place_other found completes notIdent notTag (updatedNames?_of_silent silent _)
      (echoes_of_silent silent _) with ⟨qs, length, here⟩ | ⟨x, ref, names, -, exported, -⟩
    · rw [place_of_silent silent] at here
      exact ⟨_, here, rfl, length, form_truthful f qs⟩
    · rw [exportedNames?_of_silent silent] at exported
      cases exported

end LiveBindings

/-- Wherever a name stands in a tree, the pass redirects it exactly if it is a read of an import;
and for a module that exports nothing the pass does hardly anything else. -/
theorem reads_redirected_exactly (s : Original) (wellFormed : s.program.isWellFormed = true)
    (options : Options) (hints : Hints) (r : Draft)
    (drafted : s.analysed.draft options hints = .ok r) (n : Node) (way : List Nat) (p : Node)
    (found : n.at? way = some p) (completes : Bool) :
    (s.analysed.liveBindings r).RedirectedExactly completes n way p := by
  have consistent := Original.consistent wellFormed
  exact LiveBindings.redirectedExactly (fun _ _ => consistent.redirects_rooted drafted)
    found completes

section Example

/-- `import { x } from "m"; x({ x }); function f(x) { return x; }` -/
def Node.importingStatements : List Node :=
  let name (x : String) := made (.binder x none) []
  [.made (.importDecl false false "m") [.made (.importNamed false) [Made.word "x", name "x"],
    .absent],
   .made .expression
    [Made.call (Made.ident "x")
    [.made .object [.made (.property true false) [Made.word "x", Made.ident "x"]]]],
   .made (.function ⟨.declaration, false, false, false, false⟩)
    [name "f", .absent, .made .parameters [Made.parameter "x"], .absent,
     .made (.body []) [.made .returnStmt [Made.ident "x"]]]]

def Module.importing : Module :=
  .analyse true (.mk (.program none []) none Node.importingStatements)

-- The ways lead to the callee, to the value of the property, and to the parameter that is returned.
theorem reads_redirected_exactly_importing : ∃ r, Module.importing.draft .default .none = .ok r ∧
    ∀ way, way = [1, 0, 0] ∨ way = [1, 0, 2, 0, 1] ∨ way = [2, 4, 0, 0] →
      ∃ p, Module.importing.program.at? way = some p ∧
        (Module.importing.liveBindings r).RedirectedExactly true
        Module.importing.program way p := by
  have all (r : Draft) (drafted : Module.importing.draft .default .none = .ok r) (way : List Nat)
      (p : Node) (found : Module.importing.program.at? way = some p) :=
    reads_redirected_exactly ⟨true, none, [], none, Node.importingStatements⟩ (by decide) .default
      .none r drafted _ way p found true
  refine ⟨_, rfl, ?_⟩
  rintro way (rfl | rfl | rfl) <;> exact ⟨_, rfl, all _ rfl _ _ rfl⟩

end Example

end ModuleLowering
