import ModuleLowering.Print.Pattern
import ModuleLowering.Proofs.Lower.AlphaRenaming
import ModuleLowering.Proofs.Lower.Surroundings

/-!
The keys that object literals and object patterns define or read, and what becomes of them when the
module's own `module`, `exports` and `require` are renamed. A name that is both a key and a variable
must become two names. For the shorthand of an assignment pattern it does not.
-/

set_option autoImplicit false

namespace ModuleLowering

inductive PropertyKey where
  | literal (form : Form)
  | computed (e : Node)

def PropertyKey.rename (r : Renaming) : PropertyKey → PropertyKey
  | .literal form => .literal form
  | .computed e => .computed (e.rename r)

def Form.isKey : Form → Bool
  | .word _ | .privateWord _ | .string _ | .number _ | .bigint _ => true
  | _ => false

def Node.writtenKey? (k : Node) (isComputed : Bool) : Option PropertyKey :=
  if isComputed then some (.computed k) else if k.form.isKey then some (.literal k.form) else none

def Node.boundName? : Node → Option String
  | .mk (.binder x _) _ _ | .mk .bindingDefault _ (.mk (.binder x _) _ _ :: _) => some x
  | _ => none

/-- The key of an entry of an object literal or object pattern, as it is printed: if the key is left
out, the name that is printed instead of both. Spreads and rests have none. -/
def Node.propertyKey? : Node → Option PropertyKey
  | .mk (.property isMarked isComputed) _ [k, value] =>
    match value.form with
    | .ident x _ =>
      if !isComputed && Print.isShorthand isMarked k value then some (.literal (.word x))
        else k.writtenKey? isComputed
    | _ => k.writtenKey? isComputed
  | .mk (.bindingProperty _ isComputed) _ [k, value] =>
    if !isComputed && Print.bindsKey k value then value.boundName?.map fun x => .literal (.word x)
    else k.writtenKey? isComputed
  | .mk (.accessor _ isComputed) _ (k :: _) | .mk (.targetProperty isComputed) _ (k :: _) =>
    k.writtenKey? isComputed
  | .mk .targetShorthand _ (.mk (.target x _) _ _ :: _) => some (.literal (.word x))
  | _ => none

def Form.isObject : Form → Bool
  | .object | .bindingObject | .targetObject => true
  | _ => false

/-- The new name of the variable that a shorthand assigns to, if it has one. -/
def Node.renamedShorthand? (fresh : Symbol → Option String) : Node → Option String
  | .mk .targetShorthand _ (.mk (.target _ (.symbol s)) _ _ :: _) => fresh s
  | _ => none

theorem Node.propertyKey?_property {s : Option Span} {isMarked isComputed : Bool} {k value : Node}
    (truthful : (mk (.property isMarked isComputed) s [k, value]).IsTruthful) :
    (mk (.property isMarked isComputed) s [k, value]).propertyKey? = k.writtenKey? isComputed := by
  obtain ⟨f, sk, ks⟩ := k
  obtain ⟨g, sv, vs⟩ := value
  cases g
  case ident x ref =>
    simp only [propertyKey?, form]
    split
    · next shorthand =>
      simp only [Bool.and_eq_true, Bool.not_eq_true'] at shorthand
      obtain ⟨rfl, abridged⟩ := shorthand
      have key : f = .word x := by
        unfold Print.isShorthand at abridged
        split at abridged
        · next proto =>
          subst abridged
          obtain rfl : f = .word "__proto__" := proto
          exact congrArg Form.word truthful
        · next word ident =>
          obtain ⟨rfl, -⟩ := Form.ident.inj ident
          obtain rfl := eq_of_beq abridged
          exact word
        · cases abridged
      rw [key]
      rfl
    · rfl
  all_goals rfl

theorem Print.boundName?_of_bindsKey {k value : Node} (binds : bindsKey k value = true) :
    ∃ w, k.form = .word w ∧ value.boundName? = some w := by
  unfold bindsKey at binds
  split at binds
  · next w x _ _ _ word => exact ⟨w, word, congrArg some (eq_of_beq binds).symm⟩
  · next w x _ _ _ _ _ word => exact ⟨w, word, congrArg some (eq_of_beq binds).symm⟩
  · cases binds

theorem Node.propertyKey?_bindingProperty (s : Option Span) (isMarked isComputed : Bool)
    (k value : Node) :
    (mk (.bindingProperty isMarked isComputed) s [k, value]).propertyKey? = k.writtenKey?
      isComputed := by
  simp only [propertyKey?]
  split
  · next shorthand =>
    simp only [Bool.and_eq_true, Bool.not_eq_true'] at shorthand
    obtain ⟨rfl, binds⟩ := shorthand
    obtain ⟨w, word, bound⟩ := Print.boundName?_of_bindsKey binds
    rw [bound, writtenKey?, word]
    rfl
  · rfl

theorem Form.rename_of_isKey {f : Form} (key : f.isKey = true) (r : Renaming) (ps : List Node) :
    (f.rename r).expandShorthand ps = f := by
  cases f
  case word | privateWord | string | number | bigint => rfl
  all_goals cases key

theorem Form.Renamed.isKey {r : Renaming} {f f' : Form} (h : Form.Renamed r f f') :
    f'.isKey = f.isKey := by
  cases h <;> rfl

theorem Node.writtenKey?_rename (r : Renaming) (k : Node) (isComputed : Bool) :
    (k.rename r).writtenKey? isComputed = (k.writtenKey? isComputed).map
      (PropertyKey.rename r) := by
  cases isComputed with
  | true => rfl
  | false =>
    have same := (renamed_form r k).isKey
    simp only [writtenKey?, same]
    split
    · cases ‹false = true›
    · split
      · next key =>
        obtain ⟨f, s, ps⟩ := k
        have kept : (f.rename r).expandShorthand (ps.map (rename r)) = f :=
          Form.rename_of_isKey key r _
        rw [rename_mk, kept]
        rfl
      · rfl

theorem Form.Renamed.property_of {r : Renaming} {isMarked isComputed : Bool} {f' : Form}
    (h : Form.Renamed r (.property isMarked isComputed) f') :
    ∃ isMarked', f' = .property isMarked' isComputed := by
  cases h with
  | same | property => exact ⟨_, rfl⟩

theorem Form.Renamed.bindingProperty_of {r : Renaming} {isMarked isComputed : Bool} {f' : Form}
    (h : Form.Renamed r (.bindingProperty isMarked isComputed) f') :
    ∃ isMarked', f' = .bindingProperty isMarked' isComputed := by
  cases h with
  | same | bindingProperty => exact ⟨_, rfl⟩

theorem Node.propertyKey?_rename_shorthand (r : Renaming) (s : Option Span) (ps : List Node) :
    (mk .targetShorthand s (ps.map (rename r))).propertyKey? =
      (((mk .targetShorthand s ps).renamedShorthand? r.new?).map fun y => .literal (.word y)).or
        ((mk .targetShorthand s ps).propertyKey?.map (PropertyKey.rename r)) := by
  rcases ps with _ | ⟨⟨g, t, qs⟩, ps⟩
  · rfl
  · cases g
    case target x ref =>
      cases ref with
      | none | global => rfl
      | symbol symbol =>
        show some (PropertyKey.literal (.word (r.nameOf symbol x))) = _
        rw [Renaming.nameOf_eq]
        simp only [renamedShorthand?, propertyKey?]
        cases r.new? symbol <;> rfl
    case binder x symbol => cases symbol <;> rfl
    case property isMarked isComputed =>
      obtain ⟨isMarked', form⟩ :=
        ((Form.Renamed.rename r (.property isMarked isComputed)).expandShorthand
          (qs.map (rename r))).property_of
      rw [List.map_cons, rename_mk, form]
      rfl
    case bindingProperty isMarked isComputed =>
      obtain ⟨isMarked', form⟩ :=
        ((Form.Renamed.rename r (.bindingProperty isMarked isComputed)).expandShorthand
          (qs.map (rename r))).bindingProperty_of
      rw [List.map_cons, rename_mk, form]
      rfl
    all_goals rfl

/-- Renaming keeps the keys of all entries but one kind: where a shorthand assigns to a renamed
variable, the key becomes the variable's new name. -/
theorem Node.propertyKey?_rename (r : Renaming) {e : Node} (truthful : e.IsTruthful) :
    (e.rename r).propertyKey? = ((e.renamedShorthand? r.new?).map fun y => .literal (.word y)).or
      (e.propertyKey?.map (PropertyKey.rename r)) := by
  obtain ⟨f, s, ps⟩ := e
  rw [rename_mk]
  cases f
  case property isMarked isComputed =>
    have truthful' := isTruthful_expandShorthand ((Form.property isMarked isComputed).rename r) s
      (ps.map (rename r))
    obtain ⟨isMarked', form⟩ :=
      ((Form.Renamed.rename r (.property isMarked isComputed)).expandShorthand
        (ps.map (rename r))).property_of
    rw [form] at truthful' ⊢
    rcases ps with _ | ⟨k, _ | ⟨value, _ | ⟨p, ps⟩⟩⟩
    case cons.cons.nil =>
      rw [propertyKey?_property truthful, ← writtenKey?_rename]
      exact propertyKey?_property truthful'
    all_goals rfl
  case bindingProperty isMarked isComputed =>
    obtain ⟨isMarked', form⟩ :=
      ((Form.Renamed.rename r (.bindingProperty isMarked isComputed)).expandShorthand
        (ps.map (rename r))).bindingProperty_of
    rw [form]
    rcases ps with _ | ⟨k, _ | ⟨value, _ | ⟨p, ps⟩⟩⟩
    case cons.cons.nil =>
      rw [propertyKey?_bindingProperty, ← writtenKey?_rename]
      exact propertyKey?_bindingProperty s isMarked' isComputed (k.rename r) (value.rename r)
    all_goals rfl
  case accessor kind isComputed =>
    cases ps with
    | nil => rfl
    | cons k ps => exact writtenKey?_rename r k isComputed
  case targetProperty isComputed =>
    cases ps with
    | nil => rfl
    | cons k ps => exact writtenKey?_rename r k isComputed
  case targetShorthand => exact propertyKey?_rename_shorthand r s ps
  case binder x symbol => cases symbol <;> rfl
  all_goals rfl

inductive PropertyKey.Respelled (fresh : Symbol → Option String) : PropertyKey → PropertyKey → Prop
  | literal (form : Form) : Respelled fresh (.literal form) (.literal form)
  | computed {e e' : Node} : Node.Respelled fresh e e' → Respelled fresh (.computed e)
    (.computed e')

/-- What becomes of the key of an entry under new names for variables: it is kept just if the entry
is not the shorthand of a renamed variable. -/
structure Node.KeyRespelled (fresh : Symbol → Option String) (e e' : Node) : Prop where
  kept_iff : Option.Rel (PropertyKey.Respelled fresh) e.propertyKey? e'.propertyKey? ↔
    e.renamedShorthand? fresh = none
  replaced : ∀ y, e.renamedShorthand? fresh = some y → e'.propertyKey? = some (.literal (.word y))

theorem Node.exists_of_renamedShorthand? {fresh : Symbol → Option String} {e : Node} {y : String}
    (renamed : e.renamedShorthand? fresh = some y) : ∃ t x s, e.form = .targetShorthand ∧
      e.parts[0]? = some t ∧
      t.form = .target x (.symbol s) ∧ fresh s = some y ∧
      e.propertyKey? = some (.literal (.word x)) := by
  unfold renamedShorthand? at renamed
  split at renamed
  · exact ⟨_, _, _, rfl, rfl, rfl, renamed, rfl⟩
  · cases renamed

theorem PropertyKey.rel_map_rename (r : Renaming) (key : Option PropertyKey) :
    Option.Rel (Respelled r.new?) key (key.map (rename r)) := by
  cases key with
  | none => exact .none
  | some key =>
    cases key with
    | literal form => exact .some (.literal form)
    | computed e => exact .some (.computed (Node.respelled_rename r e))

theorem Node.keyRespelled_rename {r : Renaming} {e : Node} (truthful : e.IsTruthful)
    (apart : ∀ x y, e.renamedShorthand? r.new? = some y →
    e.propertyKey? = some (.literal (.word x)) → y ≠ x) :
    KeyRespelled r.new? e (e.rename r) := by
  have renamed := propertyKey?_rename r truthful
  constructor
  · constructor
    · intro related
      apply Option.eq_none_iff_forall_ne_some.mpr
      intro y shorthand
      obtain ⟨-, x, -, -, -, -, -, key⟩ := exists_of_renamedShorthand? shorthand
      rw [renamed, shorthand, key] at related
      cases related with
      | some same =>
        cases same
        exact apart y y shorthand key rfl
    · intro other
      rw [renamed, other]
      exact PropertyKey.rel_map_rename r e.propertyKey?
  · intro y shorthand
    rw [renamed, shorthand]
    rfl

theorem Node.keyRespelled_refl {fresh : Symbol → Option String}
    (none : ∀ s, fresh s = none) (e : Node) :
    KeyRespelled fresh e e := by
  have other : e.renamedShorthand? fresh = .none := by
    apply Option.eq_none_iff_forall_ne_some.mpr
    intro y shorthand
    obtain ⟨-, -, s, -, -, -, new, -⟩ := exists_of_renamedShorthand? shorthand
    rw [none s] at new
    cases new
  constructor
  · refine iff_of_true ?_ other
    cases e.propertyKey? with
    | none => exact .none
    | some key =>
      cases key with
      | literal form => exact .some (.literal form)
      | computed e => exact .some (.computed (respelled_refl none e))
  · intro y shorthand
    rw [other] at shorthand
    cases shorthand

theorem Node.at?_append (n : Node) (way way' : List Nat) :
    n.at? (way ++ way') = (n.at? way).bind fun p => p.at? way' := by
  induction way generalizing n with
  | nil => rfl
  | cons i way ih =>
    obtain ⟨f, s, ps⟩ := n
    rw [List.cons_append, at?_cons, at?_cons]
    split
    · rfl
    · cases ps[i]? with
      | none => rfl
      | some p => exact ih p

theorem Node.at?_rename (r : Renaming) (n : Node) (way : List Nat) : (n.rename r).at? way =
    (n.at? way).map (rename r) := by
  induction way generalizing n with
  | nil => rfl
  | cons i way ih =>
    obtain ⟨f, s, ps⟩ := n
    have same : ((f.rename r).expandShorthand (ps.map (rename r))).isOccurrence =
      f.isOccurrence := by
      have renamed := (Form.Renamed.rename r f).expandShorthand (ps.map (rename r))
      generalize (f.rename r).expandShorthand (ps.map (rename r)) = f' at renamed
      cases renamed <;> rfl
    rw [rename_mk, at?_cons, at?_cons, same, List.getElem?_map]
    split
    · rfl
    · cases ps[i]? with
      | none => rfl
      | some p => exact ih p

theorem Node.parts_rename (r : Renaming) (n : Node) : (n.rename r).parts = n.parts.map
    (rename r) := by
  obtain ⟨f, s, ps⟩ := n
  rw [rename_mk]
  rfl

theorem Node.form_rename_of_isObject {n : Node} (object : n.form.isObject = true) (r : Renaming) :
    (n.rename r).form = n.form := by
  obtain ⟨f, s, ps⟩ := n
  rw [rename_mk]
  cases f
  case object | bindingObject | targetObject => rfl
  all_goals cases object

theorem Node.at?_entry {n e t : Node} {i : Nat} (object : n.form.isObject = true)
    (entry : n.parts[i]? = some e) (shorthand : e.form = .targetShorthand)
    (target : e.parts[0]? = some t) : n.at? [i, 0] = some t := by
  obtain ⟨f, s, ps⟩ := n
  obtain ⟨g, s', qs⟩ := e
  have parted : f.isOccurrence = false := by
    cases f
    case object | bindingObject | targetObject => rfl
    all_goals cases object
  have plain : g.isOccurrence = false := by
    cases shorthand
    rfl
  rw [at?_cons, parted, show ps[i]? = _ from entry]
  show at? _ [0] = _
  rw [at?_cons, plain, show qs[0]? = _ from target]
  rfl

namespace Module

theorem newName_ne_of_target {m : Module} (suits : m.newNames.Suits m.scopes)
    (stable : m.program.resolve m.scopes (.program true) [] = m.program) {way : List Nat} {t : Node}
    (found : m.program.at? way = some t) {x : String} {s : Symbol}
    (target : t.form = .target x (.symbol s)) {y : String} (new : m.newNames.new? s = some y) :
    y ≠ x := by
  have resolved := Node.resolve_at? stable found
  rw [target] at resolved
  have refers := (Form.target.inj resolved).2
  unfold ScopeTable.refer at refers
  split at refers
  · next s' held =>
    cases refers
    exact suits.ne_new_of_lookup held (s, y) ((Renaming.new?_eq_some_iff suits.distinct).mp new)
  · cases refers

/-- Under the new names of the module's own `module`, `exports` and `require`, every object literal
and every object pattern has the keys it had, with one exception: the shorthand that assigns to a
renamed variable reads the property that is called by the new name. -/
theorem renaming_keeps_keys_iff (s : Original) :
    let m := s.analysed
    ∀ way p, m.program.at? way = some p → p.form.isObject = true → (∀ e ∈ p.parts, e.IsTruthful) →
      ∃ q, m.renamed.program.at? way = some q ∧ q.form = p.form ∧
        List.Forall₂ (Node.KeyRespelled m.newNames.new?) p.parts q.parts := by
  intro m way p found object truthful
  have suits : m.newNames.Suits m.scopes := s.newNames_suits
  have stable : m.program.resolve m.scopes (.program true) [] = m.program := s.resolve_analysed true
  unfold renamed
  split
  · next empty =>
    have none : ∀ s, m.newNames.new? s = .none := by
      intro s
      simp [Renaming.new?, List.isEmpty_iff.mp empty]
    exact ⟨p, found, rfl, List.forall₂_same.mpr fun e _ => Node.keyRespelled_refl none e⟩
  · refine ⟨p.rename m.newNames, ?_, ?_, ?_⟩
    · show (m.program.rename m.newNames).at? way = _
      rw [Node.at?_rename, found]
      rfl
    · exact Node.form_rename_of_isObject object m.newNames
    · rw [Node.parts_rename]
      apply List.forall₂_map_right_iff.mpr
      apply List.forall₂_same.mpr
      intro e among
      apply Node.keyRespelled_rename (truthful e among)
      intro x y shorthand key
      obtain ⟨t, x', s, form, first, target, new, key'⟩ :=
        Node.exists_of_renamedShorthand? shorthand
      obtain rfl : x' = x := by
        rw [key] at key'
        cases key'
        rfl
      obtain ⟨i, child⟩ := List.getElem?_of_mem among
      have below : m.program.at? (way ++ [i, 0]) = some t := by
        rw [Node.at?_append, found]
        exact Node.at?_entry object child form first
      exact newName_ne_of_target suits stable below target new

section Example

/-- `{ exports, a: exports, [exports]: exports }`, a pattern about the module's variable. -/
def assignedPattern : Node :=
  let target := .made (.target "exports" (.symbol ⟨[], "exports"⟩)) []
  .made .targetObject [.made .targetShorthand [target, .absent], .made (.targetProperty false)
    [Made.word "a", target], .made (.targetProperty true)
    [.made (.ident "exports" (.symbol ⟨[], "exports"⟩)) [], target]]

/-- `let exports;` and an assignment of `o` to the pattern. -/
def assigningStatements : List Node :=
  [.made (.varDecl .blockScoped false)
    [.made (.declarator false) [.made (.binder "exports" none) [], .absent, .absent]],
   .made .expression [.made (.assign .plain) [assignedPattern, Made.ident "o"]]]

theorem renaming_keeps_keys_iff_assigning :
    let m := Module.analyse true (.mk (.program none []) none assigningStatements)
    m.program.at? [1, 0, 0] = some assignedPattern ∧
      (assignedPattern.parts.map fun e => e.renamedShorthand? m.newNames.new?) =
        [some "_exports", none, none] ∧
      ∃ q, m.renamed.program.at? [1, 0, 0] = some q ∧
        List.Forall₂ (Node.KeyRespelled m.newNames.new?) assignedPattern.parts q.parts := by
  intro m
  have found : m.program.at? [1, 0, 0] = some assignedPattern := rfl
  have truthful : ∀ e ∈ assignedPattern.parts, e.IsTruthful := by
    simp [assignedPattern, Node.made, Node.parts, Node.IsTruthful]
  obtain ⟨q, here, -, keys⟩ :=
    renaming_keeps_keys_iff ⟨true, none, [], none, assigningStatements⟩ [1, 0, 0] assignedPattern
      found rfl truthful
  exact ⟨found, by decide +kernel, q, here, keys⟩

end Example

end Module

end ModuleLowering
