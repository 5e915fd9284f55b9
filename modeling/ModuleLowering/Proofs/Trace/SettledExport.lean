import ModuleLowering.Proofs.Lower.StarItem
import ModuleLowering.Proofs.Trace.LoweredRun

/-!
What becomes of the single properties of `exports` while the statements of a lowered module run.
Until the statement comes that is there for it, a property can be defined; from then on it stays as
the statement has left it, or changes with the variable that it stands for. Only a loop over the
keys of another module takes a property from code that assigns to it.
-/

set_option autoImplicit false

namespace ModuleLowering

variable {V : Type}

def Effect.exportedAs? (name : String) : Effect V → Option V
  | .exported x v => if x = name then some v else none
  | .begun | .written .. | .kept .. => none

def lastExported (name : String) (τ : List (Effect V)) : Option V :=
  (τ.filterMap (Effect.exportedAs? name)).getLast?

theorem Effect.exportedAs?_eq_some_iff {name : String} {effect : Effect V} {v : V} :
    effect.exportedAs? name = some v ↔ effect = .exported name v := by
  cases effect with
  | exported x v' =>
    by_cases same : x = name
    · subst same
      simp [exportedAs?]
    · simp [exportedAs?, same]
  | begun | written | kept => simp [exportedAs?]

theorem lastExported_concat (name : String) (τ : List (Effect V)) (effect : Effect V) :
    lastExported name (τ ++ [effect]) = (effect.exportedAs? name).or (lastExported name τ) := by
  rw [lastExported, List.filterMap_append, List.getLast?_append, List.filterMap_cons]
  cases effect.exportedAs? name <;> rfl

theorem mem_of_lastExported {name : String} {τ : List (Effect V)} {v : V}
    (last : lastExported name τ = some v) :
    .exported name v ∈ τ := by
  obtain ⟨effect, among, exported⟩ := List.mem_filterMap.mp (List.mem_of_getLast? last)
  exact Effect.exportedAs?_eq_some_iff.mp exported ▸ among

theorem isSome_lastExported {name : String} {τ : List (Effect V)} {v : V}
    (inside : .exported name v ∈ τ) :
    (lastExported name τ).isSome = true := by
  have among : v ∈ τ.filterMap (Effect.exportedAs? name) :=
    List.mem_filterMap.mpr ⟨_, inside, Effect.exportedAs?_eq_some_iff.mpr rfl⟩
  exact List.getLast?_isSome.mpr (List.ne_nil_of_mem among)

def Property.assigned (v : V) : Property V := ⟨.value v, false⟩

namespace ExportsObject

variable {E E' : ExportsObject V} {name : String} {v : V}

theorem after_cons (E : ExportsObject V) (effect : Effect V) (τ : List (Effect V)) :
    E.after (effect :: τ) = (E.after [effect]).after τ := by
  cases effect <;> rfl

theorem put_self (assignable : (E name).all (·.isAssignable) = true) :
    E.put name v name = some (.assigned v) := by
  rw [put, if_pos assignable, Function.update_self]
  rfl

theorem put_of_not_isAssignable {p : Property V} (here : E name = some p)
    (fixed : p.isAssignable = false) (x : String) :
    E.put x v name = some p := by
  by_cases same : x = name
  · subst same
    rw [put, here, Option.all_some, fixed, if_neg Bool.false_ne_true, here]
  · rw [put_of_ne (Ne.symm same), here]

theorem after_induction {P : ExportsObject V → Prop}
    (put : ∀ (E : ExportsObject V) (x : String) (v : V), P E → P (E.put x v)) (τ : List (Effect V))
    (holds : P E) : P (E.after τ) := by
  induction τ generalizing E with
  | nil => exact holds
  | cons effect τ ih =>
    cases effect with
    | exported x v => exact ih (put E x v holds)
    | begun | written | kept => exact ih holds

theorem after_of_not_isAssignable {p : Property V} (here : E name = some p)
    (fixed : p.isAssignable = false) (τ : List (Effect V)) : E.after τ name = some p :=
  after_induction (P := fun E => E name = some p) (fun _ x _ here => put_of_not_isAssignable here
    fixed x) τ here

theorem after_of_not_mem {τ : List (Effect V)} (silent : ∀ v, .exported name v ∉ τ) :
    E.after τ name = E name := by
  induction τ generalizing E with
  | nil => rfl
  | cons effect τ ih =>
    have rest := ih (E := E.after [effect]) fun v inside => silent v (List.mem_cons_of_mem _ inside)
    rw [after_cons, rest]
    cases effect with
    | exported x v =>
      refine put_of_ne ?_
      rintro rfl
      exact silent v List.mem_cons_self
    | begun | written | kept => rfl

theorem after_eq_lastExported {τ : List (Effect V)}
    (here : E name = (lastExported name τ).map .assigned) (σ : List (Effect V)) :
    E.after σ name = (lastExported name (τ ++ σ)).map .assigned := by
  induction σ generalizing E τ with
  | nil => rw [List.append_nil]; exact here
  | cons effect σ ih =>
    rw [after_cons, List.append_cons]
    refine ih ?_
    rw [lastExported_concat]
    cases effect with
    | exported x v =>
      by_cases same : x = name
      · subst same
        have assignable : (E x).all (·.isAssignable) = true := by
          rw [here]
          cases lastExported x τ <;> rfl
        rw [Effect.exportedAs?, if_pos rfl]
        exact put_self assignable
      · rw [Effect.exportedAs?, if_neg same, Option.none_or]
        exact (put_of_ne (Ne.symm same)).trans here
    | begun | written | kept => exact here

def IsFixed (E : ExportsObject V) (name : String) : Prop := ∃ p, E name = some p ∧ p.isFixed = true

theorem IsFixed.isFixed_after (fixed : E.IsFixed name) (τ : List (Effect V)) :
    (E.after τ).IsFixed name := by
  obtain ⟨⟨content, isFixed⟩, here, rfl⟩ := fixed
  refine ⟨_, after_of_not_isAssignable here ?_ τ, rfl⟩
  cases content <;> rfl

theorem any_isFixed_iff : (E name).any (·.isFixed) = true ↔ E.IsFixed name :=
  Option.any_eq_true _ _

theorem define?_eq_some_iff {content : Content V} : E.define? name content = some E' ↔
    ¬ E.IsFixed name ∧ E' = Function.update E name (some ⟨content, (E name).isNone⟩) := by
  rw [define?, ← any_isFixed_iff]
  split
  · next fixed => simp [fixed]
  · next free => simp [free, eq_comm]

/-- Properties that are defined one after the other. -/
def defineAll? (c : String → Content V) (E : ExportsObject V) (names : List String) :
    Option (ExportsObject V) :=
  names.foldlM (fun E name => E.define? name (c name)) E

/-- Properties of different names have no effect on each other. -/
theorem exists_defineAll? {c : String → Content V} {names : List String} (distinct : names.Nodup)
    (free : ∀ name ∈ names, ¬ E.IsFixed name) :
    ∃ E', E.defineAll? c names = some E' ∧ ∀ name, E' name =
      if name ∈ names then some ⟨c name, (E name).isNone⟩ else E name := by
  induction names generalizing E with
  | nil => exact ⟨E, rfl, fun name => (if_neg List.not_mem_nil).symm⟩
  | cons first names ih =>
    obtain ⟨new, distinct⟩ := List.nodup_cons.mp distinct
    let E₁ := Function.update E first (some ⟨c first, (E first).isNone⟩)
    have round : E.define? first (c first) = some E₁ :=
      define?_eq_some_iff.mpr ⟨free first List.mem_cons_self, rfl⟩
    have same {name : String} (other : name ≠ first) : E₁ name = E name :=
      Function.update_of_ne other _ _
    obtain ⟨E', rest, reads⟩ := ih (E := E₁) distinct fun name among => by
      have other : name ≠ first := fun eq => new (eq ▸ among)
      rintro ⟨p, here, fixed⟩
      exact free name (List.mem_cons_of_mem _ among) ⟨p, (same other) ▸ here, fixed⟩
    refine ⟨E', by rw [defineAll?, List.foldlM_cons, round]; exact rest, fun name => ?_⟩
    rw [reads]
    by_cases here : name = first
    · subst here
      rw [if_neg new, if_pos List.mem_cons_self]
      exact Function.update_self ..
    · rw [same here]
      refine if_congr ?_ rfl rfl
      rw [List.mem_cons, or_iff_right here]

theorem not_isFixed_of_defineAll? {c : String → Content V} {names : List String}
    (distinct : names.Nodup) (done : E.defineAll? c names = some E') {name : String}
    (among : name ∈ names) : ¬ E.IsFixed name := by
  induction names generalizing E with
  | nil => cases among
  | cons first names ih =>
    obtain ⟨new, distinct⟩ := List.nodup_cons.mp distinct
    obtain ⟨E₁, round, rest⟩ := Option.bind_eq_some_iff.mp done
    obtain ⟨free, rfl⟩ := define?_eq_some_iff.mp round
    rcases List.mem_cons.mp among with rfl | later
    · exact free
    · have other : name ≠ first := fun eq => new (eq ▸ later)
      rintro ⟨p, here, fixed⟩
      exact ih distinct rest later ⟨p, (Function.update_of_ne other _ _).trans here, fixed⟩

end ExportsObject

def starGetter (binding key : String) : Content V := .getter ⟨starCode binding, some ("key", key)⟩

theorem loop_eq_defineAll? (binding : String) (keys : List String) (E : ExportsObject V) :
    keys.foldlM (fun E key => LoopStep.round? "key" key (starSteps binding) E) E =
      E.defineAll? (starGetter binding) (keys.filter (· ≠ "default")) := by
  induction keys generalizing E with
  | nil => rfl
  | cons key keys ih =>
    rw [List.foldlM_cons]
    by_cases skipped : key = "default"
    · have round : LoopStep.round? "key" key (starSteps binding) E = some E := if_pos skipped
      rw [round, List.filter_cons_of_neg (by simpa using skipped)]
      exact ih E
    · have round : LoopStep.round? "key" key (starSteps binding) E =
          E.define? key (starGetter binding key) :=
        (if_neg skipped).trans (Option.bind_fun_some _)
      rw [round, List.filter_cons_of_pos (by simpa using skipped), ExportsObject.defineAll?,
        List.foldlM_cons]
      exact congrArg _ (funext ih)

namespace Item

def flag? : Item → Option String
  | .moduleFlag _ => some "__esModule"
  | _ => none

/-- What a statement defines properties as, if it does. -/
def content? (flag : V) : Item → Option (String → Content V)
  | .moduleFlag false => some fun _ => .value flag
  | .exportGetter _ value => some fun _ => .getter ⟨value.toNode, none⟩
  | .exportStar binding _ => some (starGetter binding)
  | _ => none

/-- The properties that a statement defines, if the keys of another module are given by its
variable. -/
def fixed (keys : String → List String) : Item → List String
  | .moduleFlag false => ["__esModule"]
  | .exportGetter name _ => [name]
  | .exportStar binding _ => keys binding
  | _ => []

def explicit (item : Item) : List String :=
  item.flag?.toList ++ item.exportWrites.map ExportWrite.name

theorem claims_cases (keys : String → List String) (item : Item) :
    item.star? = none ∧ item.claims keys = item.explicit ∨
      ∃ b span, item = .exportStar b span ∧ item.claims keys = keys b := by
  cases item
  case exportStar b span => exact .inr ⟨b, span, rfl, rfl⟩
  all_goals exact .inl ⟨rfl, rfl⟩

theorem claims_exportGetter (keys : String → List String) (name : String) (value : Imported) :
    (exportGetter name value).claims keys = [name] := by
  show (exportGetter name value).exportWrites.map ExportWrite.name = _
  rw [exportWrites_exportGetter]
  rfl

theorem fixed_cases {keys : String → List String} {item : Item} {name : String}
    (fixed : name ∈ item.fixed keys) :
    name ∈ item.explicit ∨ ∃ b span, item = .exportStar b span ∧ name ∈ keys b := by
  cases item
  case moduleFlag isPlain =>
    cases isPlain with
    | false => exact .inl fixed
    | true => cases fixed
  case exportGetter x value =>
    rw [explicit, exportWrites_exportGetter]
    exact .inl fixed
  case exportStar b span => exact .inr ⟨b, span, rfl, fixed⟩
  all_goals cases fixed

theorem claims_eq_fixed {keys : String → List String} {item : Item} {flag : V}
    {c : String → Content V} (given : item.content? flag = some c) :
    item.claims keys = item.fixed keys := by
  cases item
  case moduleFlag isPlain =>
    cases isPlain with
    | false => rfl
    | true => cases given
  case exportGetter => exact claims_exportGetter ..
  case exportStar => rfl
  all_goals cases given

/-- The properties that a statement is there for and keeps. A key of another module is lost to any
other definition of it, and everything else to such a key. -/
def owns (keys : String → List String) (shadowed defined : List String) (item : Item) :
    List String :=
  (item.claims keys).filter fun name =>
    if item.star?.isSome then decide (defined.count name ≤ 1) else decide (name ∉ shadowed)

section
variable {keys : String → List String} {shadowed defined : List String} {item : Item}
    {name : String}

theorem mem_owns_of_exposed (claimed : name ∈ item.claims keys) (single : item.star? = none)
    (exposed : name ∉ shadowed) : name ∈ item.owns keys shadowed defined :=
  List.mem_filter.mpr ⟨claimed, by rw [single]; exact decide_eq_true exposed⟩

theorem mem_owns_exportStar {b : String} {span : Option Span} :
    name ∈ (exportStar b span).owns keys shadowed defined ↔ name ∈ keys b ∧
      defined.count name ≤ 1 := by
  simp [owns, claims, star?]

theorem owns_cases (owned : name ∈ item.owns keys shadowed defined) :
    item.star? = none ∧ name ∈ item.explicit ∧ name ∉ shadowed ∨
      ∃ b span, item = .exportStar b span ∧ name ∈ keys b ∧ defined.count name ≤ 1 := by
  obtain ⟨claimed, kept⟩ := List.mem_filter.mp owned
  rcases item.claims_cases keys with ⟨single, claims⟩ | ⟨b, span, rfl, -⟩
  · rw [claims] at claimed
    rw [single] at kept
    exact .inl ⟨single, claimed, of_decide_eq_true kept⟩
  · exact .inr ⟨b, span, rfl, mem_owns_exportStar.mp owned⟩

end

/-- How a property stands before the statement runs that is there for it. -/
def Awaits (name : String) (E : ExportsObject V) (τ : List (Effect V)) : Item → Prop
  | .moduleFlag _ => E name = none
  | .exportGetter .. | .exportStar .. => True
  | _ => E name = (lastExported name τ).map .assigned

def Settles (flag : V) (name : String) (E : ExportsObject V) (τ : List (Effect V)) : Item → Prop
  | .moduleFlag isPlain => E name = some ⟨.value flag, !isPlain⟩
  | .exportStar binding _ => ∃ isFixed, E name = some ⟨starGetter binding name, isFixed⟩
  | .exportGetter _ value => ∃ isFixed, E name = some ⟨.getter ⟨value.toNode, none⟩, isFixed⟩
  | _ => E name = (lastExported name τ).map .assigned

variable {flag : V} {name : String} {E E' : ExportsObject V} {τ σ : List (Effect V)} {item : Item}

theorem Awaits.congr (awaits : item.Awaits name E τ) (same : E' name = E name) :
    item.Awaits name E' τ := by
  cases item
  case exportGetter | exportStar => trivial
  all_goals exact same.trans awaits

theorem Settles.congr (settles : item.Settles flag name E τ) (same : E' name = E name) :
    item.Settles flag name E' τ := by
  cases item
  case exportGetter | exportStar => exact settles.imp fun _ here => same.trans here
  all_goals exact same.trans settles

theorem Awaits.after (awaits : item.Awaits name E τ)
    (silent : item.flag?.isSome = true → ∀ v, .exported name v ∉ σ) :
    item.Awaits name (E.after σ) (τ ++ σ) := by
  cases item
  case moduleFlag => exact (ExportsObject.after_of_not_mem (silent rfl)).trans awaits
  case exportGetter | exportStar => trivial
  all_goals exact ExportsObject.after_eq_lastExported awaits σ

theorem Settles.after (settles : item.Settles flag name E τ)
    (silent : item.flag?.isSome = true → ∀ v, .exported name v ∉ σ) :
    item.Settles flag name (E.after σ) (τ ++ σ) := by
  cases item
  case moduleFlag => exact (ExportsObject.after_of_not_mem (silent rfl)).trans settles
  case exportGetter | exportStar =>
    obtain ⟨isFixed, here⟩ := settles
    exact ⟨isFixed, ExportsObject.after_of_not_isAssignable here rfl σ⟩
  all_goals exact ExportsObject.after_eq_lastExported settles σ

/-- What a statement can do to `exports`: it defines the properties that it is there to define, or
it is code that assigns to some. -/
inductive Changes (names : List String) (keys : String → List String) (flag : V) (item : Item)
    (E : ExportsObject V) : ExportsObject V → List (Effect V) → Prop
  | defined {c : String → Content V} {E' : ExportsObject V} (given : item.content? flag = some c)
    (free : ∀ name ∈ item.fixed keys, ¬ E.IsFixed name)
    (reads : ∀ name, E' name =
      if name ∈ item.fixed keys then some ⟨c name, (E name).isNone⟩ else E name) :
    Changes names keys flag item E E' []
  | assigned {σ : List (Effect V)} (code : item.content? flag = none)
    (fair : ∀ name v, .exported name v ∈ σ →
      name ∈ names ∨ name ∈ item.presets ∧ (item = .moduleFlag true → v = flag))
    (sets : ∀ name ∈ item.claims keys ++ item.presets, ∃ v, .exported name v ∈ σ) :
    Changes names keys flag item E (E.after σ) σ

def loading (modules : String → Option String) : Item → String → Option String
  | .requireBinding binding path _ => Function.update modules binding (some path)
  | _ => modules

end Item

def Supply.passedKeys (S : Supply V) (path : String) : List String :=
  (S.keys path).filter (· ≠ "default")

section
variable (S : Supply V) (path : String → String)

def starKeys (binding : String) : List String := S.passedKeys (path binding)

variable {S path} {names : List String} {w : Setting V} {item : Item} {n : Node}
    {room room' : Room V} {σ : List (Effect V)}

theorem Item.instruction?_of_content? {flag : V} {c : String → Content V}
    (given : item.content? flag = some c) : item.instruction? ≠ none := by
  cases item
  case moduleFlag isPlain => cases isPlain <;> cases given; nofun
  case exportGetter | exportStar => nofun
  all_goals cases given

theorem Item.eq_requireBinding {b p : String} (known : item.instruction? = some (.load b p)) :
    ∃ span, item = .requireBinding b p span := by
  cases item
  case moduleFlag isPlain => cases isPlain <;> cases known
  case requireBinding span =>
    cases known
    exact ⟨span, rfl⟩
  all_goals cases known

theorem Item.content?_or_load (flag : V) {i : Instruction} (known : item.instruction? = some i) :
    (∃ c, item.content? flag = some c) ∨ ∃ b p span, item = .requireBinding b p span := by
  cases item
  case moduleFlag isPlain => cases isPlain <;> cases known; exact .inl ⟨_, rfl⟩
  case exportGetter | exportStar => exact .inl ⟨_, rfl⟩
  case requireBinding b p span => exact .inr ⟨b, p, span, rfl⟩
  all_goals cases known

theorem Item.nodup_fixed (S : Supply V) (path : String → String) (item : Item) :
    (item.fixed (starKeys S path)).Nodup := by
  cases item
  case moduleFlag isPlain => cases isPlain <;> simp [fixed]
  case exportStar b span => exact (S.distinct _).filter _
  all_goals simp [fixed]

theorem Item.run?_eq_defineAll? {ofBool : Bool → V} {i : Instruction}
    (known : item.instruction? = some i) {c : String → Content V}
    (given : item.content? (ofBool true) = some c)
    (loaded : ∀ b span, item = .exportStar b span → room.modules b = some (path b)) :
    i.run? S ofBool room = (room.exports.defineAll? c (item.fixed (starKeys S path))).map
      ({ room with exports := · }) := by
  have single (name : String) (content : Content V) :
      room.exports.defineAll? (fun _ => content) [name] = room.exports.define? name content :=
    Option.bind_fun_some _
  cases item
  case moduleFlag isPlain =>
    cases isPlain <;> cases known
    cases given
    rw [fixed, single]
    rfl
  case exportGetter x value =>
    cases known
    cases given
    rw [fixed, single]
    rfl
  case exportStar b span =>
    cases known
    cases given
    simp only [Instruction.run?, loaded b span rfl, Option.bind_eq_bind, Option.bind_some,
      loop_eq_defineAll?]
    exact Option.map_eq_bind.symm
  all_goals cases given

section
variable (runsAs : item.RunsAs names w n) (quiet : n.handlesExports false = false)
  (steps : n.Steps S w room room' σ)
include runsAs quiet steps

theorem Item.RunsAs.modules : room'.modules = item.loading room.modules := by
  cases steps with
  | @instruction i room' _ known done =>
    rw [runsAs.instruction] at known
    rcases item.content?_or_load (w.ofBool true) known with ⟨c, given⟩ | ⟨b, p, span, rfl⟩
    · have kept : room'.modules = room.modules := by
        cases i with
        | define =>
          obtain ⟨E, -, rfl⟩ := Option.map_eq_some_iff.mp done
          rfl
        | loop =>
          obtain ⟨path, -, done⟩ := Option.bind_eq_some_iff.mp done
          obtain ⟨E, -, same⟩ := Option.bind_eq_some_iff.mp done
          cases same
          rfl
        | load =>
          obtain ⟨span, rfl⟩ := Item.eq_requireBinding known
          cases given
      rw [kept]
      cases item
      case requireBinding => cases given
      all_goals rfl
    · cases known
      cases done
      rfl
  | code other ended =>
    rw [runsAs.instruction] at other
    cases item
    case requireBinding => cases other
    all_goals rfl
  | free E τ handles =>
    rw [handles] at quiet
    cases quiet

theorem Item.RunsAs.changes (calls : w.IsConfined names)
    (loaded : ∀ b span, item = .exportStar b span → room.modules b = some (path b)) :
    item.Changes names (starKeys S path) (w.ofBool true) room.exports room'.exports σ := by
  cases steps with
  | @instruction i room' σ known done called =>
    rw [runsAs.instruction] at known
    rcases item.content?_or_load (w.ofBool true) known with ⟨c, given⟩ | ⟨b, p, span, rfl⟩
    · have nothing : σ = [] := by
        cases i with
        | define | loop => exact called
        | load =>
          obtain ⟨span, rfl⟩ := Item.eq_requireBinding known
          cases given
      subst nothing
      rw [item.run?_eq_defineAll? known given loaded] at done
      obtain ⟨E', defined, rfl⟩ := Option.map_eq_some_iff.mp done
      have distinct := item.nodup_fixed S path
      have free (name : String) (among : name ∈ item.fixed (starKeys S path)) :=
        ExportsObject.not_isFixed_of_defineAll? distinct defined among
      obtain ⟨E'', same, reads⟩ := ExportsObject.exists_defineAll? distinct free
      cases defined.symm.trans same
      exact .defined given free reads
    · cases known
      cases done
      refine .assigned rfl (fun name v inside => .inl ?_) fun name claimed => ?_
      · exact kstar_le_wordsOver calls called _ inside
      · have silent : (requireBinding b p span).claims (starKeys S path) = [] :=
          congrArg (List.map ExportWrite.name) (exportWrites_of_isSilent rfl)
        rw [silent] at claimed
        cases claimed
  | code other ended =>
    rw [runsAs.instruction] at other
    refine .assigned ?_ (runsAs.fair other σ ended) fun name claimed =>
      runsAs.sets other _ name claimed σ ended
    by_contra given
    obtain ⟨c, given⟩ := Option.ne_none_iff_exists'.mp given
    exact Item.instruction?_of_content? given other
  | free E τ handles =>
    rw [handles] at quiet
    cases quiet

end

end

theorem two_le_count_flatMap {f : Item → List String} {done rest : List Item} {item other : Item}
    {name : String} (here : name ∈ f item) (among : other ∈ done ∨ other ∈ rest)
    (there : name ∈ f other) : 2 ≤ ((done ++ item :: rest).flatMap f).count name := by
  rw [(List.perm_middle.flatMap_right f).count_eq, List.flatMap_cons, List.count_append]
  have first := List.count_pos_iff.mpr here
  have second := List.count_pos_iff.mpr
    (List.mem_flatMap.mpr ⟨other, List.mem_append.mpr among, there⟩)
  omega

section
variable (S : Supply V) (names shadowed : List String) (path : String → String)

/-- The statements of a module go together: no two of them are there for the same property but for
loops over keys, a module is in its variable before its keys are passed on, and a property is set
early before it is defined. -/
structure Arranged (items : List Item) : Prop where
  explicit : (items.flatMap Item.explicit).Nodup
  unflagged : "__esModule" ∉ names ∧ ∀ early, .predeclaration early ∈ items → "__esModule" ∉ early
  shadowing : ∀ b span, .exportStar b span ∈ items → ∀ key ∈ starKeys S path b, key ∈ shadowed
  paths : ∀ b p span, .requireBinding b p span ∈ items → path b = p
  ready : ∀ before b span after, items = before ++ .exportStar b span :: after →
    ∃ p span', .requireBinding b p span' ∈ before
  preset : ∀ before item after, items = before ++ item :: after → ∀ name ∈ item.presets,
    ∀ other ∈ before, name ∉ other.fixed (starKeys S path)

/-- The statements of a program do what the items are there for. -/
structure Performs (w : Setting V) (items : List Item) (ns : List Node) : Prop where
  runsAs : List.Forall₂ (Item.RunsAs names w) items ns
  quiet : ∀ n ∈ ns, n.handlesExports false = false
  calls : w.IsConfined names

variable {S names shadowed path} {w : Setting V} {items : List Item} {ns : List Node}

def Room.Loaded (done : List Item) (room : Room V) : Prop :=
  ∀ b p, room.modules b = some p ↔ ∃ span, .requireBinding b p span ∈ done

section
variable (arranged : Arranged S names shadowed path items)
include arranged

theorem Arranged.loaded_step {done rest : List Item} {item : Item}
    (split : items = done ++ item :: rest) {room room' : Room V} (loaded : room.Loaded done)
    (same : room'.modules = item.loading room.modules) : room'.Loaded (done ++ [item]) := by
  intro b p
  rw [same]
  by_cases requires : ∃ p' span, item = .requireBinding b p' span
  · obtain ⟨p', span', rfl⟩ := requires
    have known {p : String} {span : Option Span}
        (among : .requireBinding b p span ∈ done ++ [.requireBinding b p' span']) : path b = p := by
      refine arranged.paths b p span ?_
      rw [split, List.append_cons]
      exact List.mem_append_left _ among
    have last : .requireBinding b p' span' ∈ done ++ [.requireBinding b p' span'] :=
      List.mem_append_right _ (List.mem_singleton_self _)
    rw [Item.loading, Function.update_self]
    constructor
    · intro same
      cases same
      exact ⟨span', last⟩
    · rintro ⟨span, among⟩
      rw [← known among, ← known last]
  · have other : item.loading room.modules b = room.modules b := by
      cases item
      case requireBinding b' p' span =>
        refine Function.update_of_ne ?_ _ _
        rintro rfl
        exact requires ⟨p', span, rfl⟩
      all_goals rfl
    rw [other, loaded b p]
    refine exists_congr fun span => ?_
    rw [List.mem_append, List.mem_singleton]
    refine (or_iff_left ?_).symm
    rintro rfl
    exact requires ⟨p, span, rfl⟩

theorem Arranged.loaded_star {done rest : List Item} {b : String} {span : Option Span}
    (split : items = done ++ .exportStar b span :: rest) {room : Room V}
    (loaded : room.Loaded done) : room.modules b = some (path b) := by
  obtain ⟨p, span', required⟩ := arranged.ready done b span rest split
  rw [arranged.paths b p span' (split ▸ List.mem_append_left _ required)]
  exact (loaded b p).mpr ⟨span', required⟩

/-- What holds at the start and is kept by each statement holds as long as they run. -/
theorem Arranged.induction (performs : Performs names w items ns)
    {I : List Item → Room V → List (Effect V) → Prop} (start : I [] .empty [])
    (step : ∀ (done : List Item) (item : Item) (rest : List Item) (before : List Node) (n : Node)
      (after : List Node) (room room' : Room V) (τ σ : List (Effect V)),
      items = done ++ item :: rest → ns = before ++ n :: after →
      Reaches S w before .empty room τ → room.Loaded done → item.RunsAs names w n →
      item.Changes names (starKeys S path) (w.ofBool true) room.exports room'.exports σ →
      I done room τ → I (done ++ [item]) room' (τ ++ σ))
    {before after : List Node} {room : Room V} {τ : List (Effect V)} (split : ns = before ++ after)
    (reaches : Reaches S w before .empty room τ) :
    ∃ done rest, items = done ++ rest ∧ List.Forall₂ (Item.RunsAs names w) rest after ∧
      room.Loaded done ∧ I done room τ := by
  induction before using List.reverseRecOn generalizing after room τ with
  | nil =>
    cases reaches
    refine ⟨[], items, rfl, ?_, fun b p => iff_of_false nofun ?_, start⟩
    · rw [List.nil_append] at split
      exact split ▸ performs.runsAs
    · simp
  | append_singleton before n ih =>
    obtain ⟨room₁, τ₁, τ₂, front, last, rfl⟩ := (reaches_concat_iff S w).mp reaches
    rw [List.append_assoc, List.singleton_append] at split
    obtain ⟨done, rest, items, written, loaded, holds⟩ := ih split front
    cases written with
    | @cons item _ rest _ runsAs written =>
      have quiet := performs.quiet n (by simp [split])
      have changes := runsAs.changes quiet last performs.calls fun b span star =>
        arranged.loaded_star (star ▸ items) loaded
      refine ⟨done ++ [item], rest, ?_, written, ?_, ?_⟩
      · rw [items, List.append_assoc, List.singleton_append]
      · exact arranged.loaded_step items loaded (runsAs.modules quiet last)
      · exact step done item rest before n after _ _ _ _ items split front loaded runsAs changes
          holds

end

/-- How things stand when some statements have run and others have not. -/
structure Progress (S : Supply V) (shadowed : List String) (path : String → String) (flag : V)
    (done rest : List Item) (E : ExportsObject V) (τ : List (Effect V)) : Prop where
  assigned : ∀ item ∈ done, item.content? flag = none → ∀ name ∈ item.claims (starKeys S path),
    (lastExported name τ).isSome = true
  settled : ∀ item ∈ done, ∀ name ∈ item.owns (starKeys S path) shadowed
    ((done ++ rest).flatMap (Item.fixed (starKeys S path))), item.Settles flag name E τ
  awaited : ∀ item ∈ rest, ∀ name ∈ item.owns (starKeys S path) shadowed
    ((done ++ rest).flatMap (Item.fixed (starKeys S path))), item.Awaits name E τ

theorem Progress.start (flag : V) (items : List Item) :
    Progress S shadowed path flag [] items (fun _ => none) [] := by
  refine ⟨nofun, nofun, fun item _ name _ => ?_⟩
  cases item <;> trivial

section
variable {flag : V} {done rest : List Item} {item : Item} {E E' : ExportsObject V}
    {τ σ : List (Effect V)} {name : String}
  (arranged : Arranged S names shadowed path (done ++ item :: rest))
include arranged

theorem Arranged.not_mem_fixed {other : Item} (among : other ∈ done ∨ other ∈ rest)
    (owned : name ∈ other.owns (starKeys S path) shadowed
      ((done ++ item :: rest).flatMap (Item.fixed (starKeys S path)))) :
    name ∉ item.fixed (starKeys S path) := by
  intro fixed
  rcases Item.owns_cases owned with ⟨-, explicit, exposed⟩ | ⟨b, span, rfl, key, once⟩
  · rcases Item.fixed_cases fixed with explicit' | ⟨b, span, rfl, key⟩
    · have distinct := List.nodup_iff_count_le_one.mp arranged.explicit name
      have twice := two_le_count_flatMap explicit' among explicit
      omega
    · exact exposed (arranged.shadowing b span (by simp) name key)
  · have twice := two_le_count_flatMap fixed among key
    omega

theorem Arranged.not_exported {other : Item} (among : other ∈ done ∨ other ∈ rest)
    (owned : name ∈ other.owns (starKeys S path) shadowed
      ((done ++ item :: rest).flatMap (Item.fixed (starKeys S path))))
    (fair : ∀ name v, .exported name v ∈ σ →
      name ∈ names ∨ name ∈ item.presets ∧ (item = .moduleFlag true → v = flag))
    (isFlag : other.flag?.isSome = true) (v : V) : .exported name v ∉ σ := by
  intro inside
  rcases Item.owns_cases owned with ⟨-, explicit, -⟩ | ⟨b, span, rfl, -⟩
  · obtain rfl : name = "__esModule" := by
      cases other
      case moduleFlag => exact List.mem_singleton.mp explicit
      all_goals cases isFlag
    rcases fair _ v inside with own | ⟨preset, -⟩
    · exact arranged.unflagged.1 own
    · cases item
      case moduleFlag isPlain =>
        have own : "__esModule" ∈ (Item.moduleFlag isPlain).explicit := List.mem_cons_self
        have distinct := List.nodup_iff_count_le_one.mp arranged.explicit "__esModule"
        have twice := two_le_count_flatMap own among explicit
        omega
      case predeclaration early => exact arranged.unflagged.2 early (by simp) preset
      all_goals cases preset
  · cases isFlag

theorem Arranged.settles (awaited : ∀ name ∈ item.owns (starKeys S path) shadowed
      ((done ++ item :: rest).flatMap (Item.fixed (starKeys S path))), item.Awaits name E τ)
    (changes : item.Changes names (starKeys S path) flag E E' σ)
    (owned : name ∈ item.owns (starKeys S path) shadowed
      ((done ++ item :: rest).flatMap (Item.fixed (starKeys S path)))) :
    item.Settles flag name E' (τ ++ σ) := by
  have awaits := awaited name owned
  have claimed := (List.mem_filter.mp owned).1
  cases changes with
  | defined given free reads =>
    have here := (reads name).trans (if_pos (Item.claims_eq_fixed given ▸ claimed))
    cases item
    case moduleFlag isPlain =>
      cases isPlain <;> cases given
      rw [show E name = none from awaits] at here
      exact here
    case exportGetter | exportStar =>
      cases given
      exact ⟨_, here⟩
    all_goals cases given
  | assigned code fair sets =>
    cases item
    case moduleFlag isPlain =>
      cases isPlain with
      | false => cases code
      | true =>
        obtain rfl := List.mem_singleton.mp claimed
        have none : E "__esModule" =
          (lastExported "__esModule" ([] : List (Effect V))).map .assigned := awaits
        obtain ⟨v, inside⟩ := sets _ (List.mem_append_left _ claimed)
        obtain ⟨v', last⟩ := Option.isSome_iff_exists.mp (isSome_lastExported inside)
        -- The last write under that name is by the flag, as no variable is exported under it.
        have value : v' = flag :=
          ((fair _ v' (mem_of_lastExported last)).resolve_left arranged.unflagged.1).2 rfl
        have here := ExportsObject.after_eq_lastExported none σ
        rw [List.nil_append, last, value] at here
        exact here
    case exportStar | exportGetter => cases code
    all_goals exact ExportsObject.after_eq_lastExported awaits σ

theorem Progress.step (progress : Progress S shadowed path flag done (item :: rest) E τ)
    (changes : item.Changes names (starKeys S path) flag E E' σ) :
    Progress S shadowed path flag (done ++ [item]) rest E' (τ ++ σ) := by
  have other {other : Item} (among : other ∈ done ∨ other ∈ rest) {name : String}
      (owned : name ∈ other.owns (starKeys S path) shadowed
        ((done ++ item :: rest).flatMap (Item.fixed (starKeys S path)))) :
      (other.Awaits name E τ → other.Awaits name E' (τ ++ σ)) ∧
        (other.Settles flag name E τ → other.Settles flag name E' (τ ++ σ)) := by
    cases changes with
    | defined given free reads =>
      have same := (reads name).trans (if_neg (arranged.not_mem_fixed among owned))
      rw [List.append_nil]
      exact ⟨fun awaits => awaits.congr same, fun settles => settles.congr same⟩
    | assigned code fair sets =>
      have silent := arranged.not_exported among owned fair
      exact ⟨fun awaits => awaits.after silent, fun settles => settles.after silent⟩
  refine ⟨fun it among code name claimed => ?_, ?_, ?_⟩
  · rcases List.mem_append.mp among with before | last
    · obtain ⟨v, last⟩ :=
        Option.isSome_iff_exists.mp (progress.assigned it before code name claimed)
      exact isSome_lastExported (List.mem_append_left σ (mem_of_lastExported last))
    · obtain rfl := List.mem_singleton.mp last
      cases changes with
      | defined given =>
        rw [code] at given
        cases given
      | assigned code fair sets =>
        obtain ⟨v, inside⟩ := sets name (List.mem_append_left _ claimed)
        exact isSome_lastExported (List.mem_append_right τ inside)
  all_goals
    rw [List.append_assoc, List.singleton_append]
    intro it among name owned
  · rcases List.mem_append.mp among with before | last
    · exact (other (.inl before) owned).2 (progress.settled it before name owned)
    · obtain rfl := List.mem_singleton.mp last
      exact arranged.settles (progress.awaited it List.mem_cons_self) changes owned
  · exact (other (.inr among) owned).1
      (progress.awaited it (List.mem_cons_of_mem _ among) name owned)

end

theorem Arranged.progress (arranged : Arranged S names shadowed path items)
    (performs : Performs names w items ns) {room : Room V} {τ : List (Effect V)}
    (reaches : Reaches S w ns .empty room τ) :
    room.Loaded items ∧
      Progress S shadowed path (w.ofBool true) items [] room.exports τ := by
  have split : ns = ns ++ [] := (List.append_nil ns).symm
  obtain ⟨done, rest, eq, written, loaded, progress⟩ := arranged.induction performs
    (I := fun done room τ => ∀ rest, items = done ++ rest →
      Progress S shadowed path (w.ofBool true) done rest room.exports τ)
    (fun rest eq => .start _ _)
    (fun done item rest _ _ _ room room' τ σ eq _ _ _ _ changes progress rest' eq' => by
      obtain rfl : rest = rest' := by
        rw [eq, List.append_assoc, List.singleton_append] at eq'
        exact (List.cons.inj (List.append_cancel_left eq')).2
      exact (progress _ eq).step (eq ▸ arranged) changes) split reaches
  cases written
  rw [List.append_nil] at eq
  subst eq
  exact ⟨loaded, progress [] (List.append_nil _).symm⟩

theorem Node.exists_steps {w : Setting V} {n : Node} {room : Room V}
    (quiet : n.instruction? = none ∨ ¬ n.Stops S w room) : ∃ room' τ, n.Steps S w room room' τ := by
  cases known : n.instruction? with
  | some i =>
    cases runs : i.run? S w.ofBool room with
    | some room' =>
      have idle : [] ∈ i.calls w := by
        cases i with
        | load => exact Language.nil_mem_kstar _
        | define | loop => rfl
      exact ⟨_, [], .instruction known runs idle⟩
    | none =>
      rw [known] at quiet
      exact absurd (.instruction known runs) (quiet.resolve_left nofun)
  | none =>
    obtain ⟨τ, ended⟩ : (n.runs w false).CanEnd := n.canEnd_runs
    exact ⟨_, τ, .code known ended⟩

/-- Nothing but an error keeps statements from running to their ends, and of the code of a module it
is not known that it has one. -/
theorem reaches_or_stopsAt (S : Supply V) (w : Setting V) (ns : List Node) (room : Room V) :
    (∃ room' τ, Reaches S w ns room room' τ) ∨
      ∃ n room', StopsAt S w ns room n room' ∧ n.instruction? ≠ none := by
  induction ns generalizing room with
  | nil => exact .inl ⟨room, [], .done room⟩
  | cons n ns ih =>
    by_cases stops : n.instruction? = none ∨ ¬ n.Stops S w room
    · obtain ⟨room₁, τ, first⟩ := Node.exists_steps stops
      rcases ih room₁ with
        ⟨room₂, τ', rest⟩ | ⟨n', room₂, ⟨before, after, τ', rfl, rest, stops⟩, is⟩
      · exact .inl ⟨room₂, τ ++ τ', .step first rest⟩
      · exact .inr ⟨n', room₂, ⟨n :: before, after, τ ++ τ', rfl, .step first rest, stops⟩, is⟩
    · push Not at stops
      exact .inr ⟨n, room, ⟨[], ns, [], rfl, .done room, stops.2⟩, stops.1⟩

theorem Reaches.of_keys {S S' : Supply V} (same : S'.keys = S.keys) {w : Setting V} {ns : List Node}
    {room room' : Room V} {τ : List (Effect V)} (reaches : Reaches S w ns room room' τ) :
    Reaches S' w ns room room' τ := by
  have runs (i : Instruction) (room : Room V) :
      i.run? S' w.ofBool room = i.run? S w.ofBool room := by
    cases i <;> simp only [Instruction.run?, same]
  induction reaches with
  | done room => exact .done room
  | step first _ ih =>
    refine .step ?_ ih
    cases first with
    | instruction known done called => exact .instruction known ((runs _ _).trans done) called
    | code other ended => exact .code other ended
    | free _ _ handles => exact .free _ _ handles

end

end ModuleLowering
