import Mathlib.Computability.Language
import Mathlib.Order.CompletePartialOrder
import ModuleLowering.Tree.Form

/-!
Behaviours: the effects that code can have on variables and on `exports`, in the order they come,
and what it gives in the end. Where it is not known what code does, it can do anything of what it
consists of, at any time and any number of times.
-/

set_option autoImplicit false

namespace ModuleLowering

open Computability

section
variable {α β : Type} (f : α → List β)

def rewritten (L : Language α) : Language β := {τ | ∃ σ ∈ L, σ.flatMap f = τ}

variable {f}

theorem mem_rewritten {L : Language α} {τ : List β} :
    τ ∈ rewritten f L ↔ ∃ σ ∈ L, σ.flatMap f = τ := Iff.rfl

theorem rewritten_zero : rewritten f 0 = 0 := by
  ext τ
  simp [mem_rewritten]

theorem rewritten_one : rewritten f 1 = 1 := by
  ext τ
  simp [mem_rewritten, eq_comm]

theorem rewritten_add (L M : Language α) : rewritten f (L + M) = rewritten f L + rewritten f M := by
  ext τ
  simp only [mem_rewritten, Language.mem_add, or_and_right, exists_or]

theorem rewritten_mul (L M : Language α) : rewritten f (L * M) = rewritten f L * rewritten f M := by
  ext τ
  simp only [mem_rewritten, Language.mem_mul]
  constructor
  · rintro ⟨_, ⟨σ, first, σ', second, rfl⟩, rfl⟩
    exact ⟨_, ⟨σ, first, rfl⟩, _, ⟨σ', second, rfl⟩, List.flatMap_append.symm⟩
  · rintro ⟨_, ⟨σ, first, rfl⟩, _, ⟨σ', second, rfl⟩, rfl⟩
    exact ⟨_, ⟨σ, first, σ', second, rfl⟩, List.flatMap_append⟩

theorem rewritten_kstar (L : Language α) : rewritten f (L∗) = (rewritten f L)∗ := by
  ext τ
  simp only [mem_rewritten, Language.mem_kstar]
  constructor
  · rintro ⟨_, ⟨words, rfl, all⟩, rfl⟩
    refine ⟨words.map (·.flatMap f), ?_, List.forall_mem_map.mpr fun σ among =>
      ⟨σ, all σ among, rfl⟩⟩
    simp only [List.flatMap_def, List.map_flatten, List.flatten_flatten, List.map_map,
      Function.comp_def]
  · rintro ⟨words, rfl, all⟩
    induction words with
    | nil => exact ⟨[], ⟨[], rfl, by simp⟩, rfl⟩
    | cons word words ih =>
      obtain ⟨⟨σ, first, rfl⟩, rest⟩ := List.forall_mem_cons.mp all
      obtain ⟨_, ⟨σs, rfl, each⟩, same⟩ := ih rest
      exact ⟨_, ⟨σ :: σs, rfl, List.forall_mem_cons.mpr ⟨first, each⟩⟩, by simp [same]⟩

theorem mem_word {σ τ : List α} : τ ∈ ({σ} : Language α) ↔ τ = σ := Iff.rfl

theorem word_mul_word (σ τ : List α) : ({σ} * {τ} : Language α) = {σ ++ τ} := by
  ext υ
  simp [Language.mem_mul, mem_word, eq_comm]

theorem rewritten_word (σ : List α) : rewritten f {σ} = {σ.flatMap f} := by
  ext τ
  simp [mem_rewritten, mem_word, eq_comm]

end

inductive Way where
  /-- By an assignment or an update that names it. -/
  | direct
  /-- In a pattern, or by the head of a loop. -/
  | taken
  /-- Behind a type, which says nothing at run time. -/
  | cast
  deriving DecidableEq, Repr

inductive Effect (V : Type) where
  | begun
  | written (way : Way) (name : String) (ref : Reference) (value : V)
  /-- A logical assignment leaves a variable at its value. -/
  | kept (name : String) (ref : Reference) (value : V)
  | exported (name : String) (value : V)

/-- The effects that code can have before it gives a value, or before it stops without one. -/
abbrev Behaviour (V : Type) := Option V → Language (Effect V)

namespace Behaviour

variable {V : Type} (later : Language (Effect V))

def ended (k : Behaviour V) : Language (Effect V) := {τ | ∃ v, τ ∈ k (some v)}

def any (k : Behaviour V) : Language (Effect V) := {τ | ∃ r, τ ∈ k r}

def anyOf (ks : List (Behaviour V)) : Language (Effect V) := {τ | ∃ k ∈ ks, τ ∈ k.any}

/-- Code that does nothing itself. Meanwhile other code can run. -/
def idle : Behaviour V := fun _ => later∗

/-- Any of the parts, at any time and any number of times. -/
def mixed (ks : List (Behaviour V)) : Behaviour V := fun _ => (later + anyOf ks)∗

def inOrder : List (Behaviour V) → Behaviour V
  | [], some _ => 1
  | [], none => 0
  | k :: ks, some v => k.ended * inOrder ks (some v)
  | k :: ks, none => k none + k.ended * inOrder ks none

def opening (k : Behaviour V) : Behaviour V := fun r => {[.begun]} * k r

section
variable (x : String) (ref : Reference)

def writing (way : Way) : Language (Effect V) := {τ | ∃ v, τ = [.written way x ref v]}

/-- `x = k`. The variable need not take the value. -/
def assigning (k : Behaviour V) : Behaviour V
  | some v => k (some v) * {[.written .direct x ref v]}
  | none => k.any

/-- `x op= k`. With a logical operator the variable may keep its value. -/
def combining (isLogical : Bool) (k : Behaviour V) : Behaviour V
  | some v => later∗ * k.ended * later∗ * {[.written .direct x ref v]} +
      later∗ * if isLogical then {[.kept x ref v]} else 0
  | none => later∗ + later∗ * k.any * later∗

def stepping : Behaviour V
  | some v => later∗ * {[.written .direct x ref v]}
  | none => later∗

def updating (isPrefixed : Bool) : Behaviour V :=
  if isPrefixed then stepping later x ref else inOrder [stepping later x ref, idle later]

def taking : Behaviour V := fun _ => 1 + writing x ref .taken

/-- A variable behind a type. -/
def casting : Behaviour V := fun _ => later∗ + writing x ref .cast

end

def exporting (name : String) (k : Behaviour V) : Behaviour V
  | some v => k (some v) * {[.exported name v]}
  | none => k none

def constant (c : V) : Behaviour V
  | some v => {τ | τ = [] ∧ v = c}
  | none => 0

def exportingAll (names : List String) (k : Behaviour V) : Behaviour V :=
  names.foldl (fun k name => exporting name k) k

def through (f : Effect V → List (Effect V)) (k : Behaviour V) : Behaviour V :=
  fun r => rewritten f (k r)

section
variable {f : Effect V → List (Effect V)}

theorem through_apply (k : Behaviour V) (r : Option V) : k.through f r = rewritten f (k r) := rfl

theorem ended_through (k : Behaviour V) : (k.through f).ended = rewritten f k.ended := by
  ext τ
  exact ⟨fun ⟨v, σ, among, eq⟩ => ⟨σ, ⟨v, among⟩, eq⟩, fun ⟨σ, ⟨v, among⟩, eq⟩ => ⟨v, σ, among, eq⟩⟩

theorem any_through (k : Behaviour V) : (k.through f).any = rewritten f k.any := by
  ext τ
  exact ⟨fun ⟨r, σ, among, eq⟩ => ⟨σ, ⟨r, among⟩, eq⟩, fun ⟨σ, ⟨r, among⟩, eq⟩ => ⟨r, σ, among, eq⟩⟩

theorem anyOf_through (ks : List (Behaviour V)) : anyOf (ks.map (through f)) = rewritten f
    (anyOf ks) := by
  ext τ
  constructor
  · rintro ⟨_, mapped, here⟩
    obtain ⟨k, among, rfl⟩ := List.mem_map.mp mapped
    rw [any_through] at here
    obtain ⟨σ, here, eq⟩ := here
    exact ⟨σ, ⟨k, among, here⟩, eq⟩
  · rintro ⟨σ, ⟨k, among, here⟩, eq⟩
    refine ⟨_, List.mem_map_of_mem among, ?_⟩
    rw [any_through]
    exact ⟨σ, here, eq⟩

theorem through_idle : (idle later).through f = idle (rewritten f later) :=
  funext fun _ => rewritten_kstar later

theorem through_mixed (ks : List (Behaviour V)) :
    (mixed later ks).through f = mixed (rewritten f later) (ks.map (through f)) := by
  funext r
  rw [through_apply, mixed, mixed, rewritten_kstar, rewritten_add, anyOf_through]

theorem through_inOrder (ks : List (Behaviour V)) : (inOrder ks).through f = inOrder
    (ks.map (through f)) := by
  induction ks with
  | nil =>
    funext r
    cases r with
    | none => exact rewritten_zero
    | some v => exact rewritten_one
  | cons k ks ih =>
    funext r
    cases r with
    | none =>
      rw [through_apply, List.map_cons, inOrder, inOrder, rewritten_add, rewritten_mul,
        ended_through, ← ih]
      rfl
    | some v =>
      rw [through_apply, List.map_cons, inOrder, inOrder, rewritten_mul, ended_through, ← ih]
      rfl

theorem through_opening (fixed : f .begun = [.begun]) (k : Behaviour V) :
    (opening k).through f = opening (k.through f) := by
  funext r
  rw [through_apply, opening, rewritten_mul, rewritten_word, opening]
  simp [fixed, through_apply]

theorem through_exporting {name : String} (fixed : ∀ v, f (.exported name v) = [.exported name v])
    (k : Behaviour V) :
    (exporting name k).through f = exporting name (k.through f) := by
  funext r
  cases r with
  | none => rfl
  | some v =>
    rw [through_apply, exporting, rewritten_mul, rewritten_word, exporting]
    simp [fixed, through_apply]

theorem through_constant (c : V) : (constant c).through f = constant c := by
  funext r
  cases r with
  | none => exact rewritten_zero
  | some v =>
    ext τ
    constructor
    · rintro ⟨_, ⟨rfl, same⟩, rfl⟩
      exact ⟨rfl, same⟩
    · rintro ⟨rfl, same⟩
      exact ⟨[], ⟨rfl, same⟩, rfl⟩

end

theorem exportingAll_some (names : List String) (k : Behaviour V) (v : V) :
    exportingAll names k (some v) = k (some v) * {names.map (.exported · v)} := by
  induction names generalizing k with
  | nil => exact (mul_one _).symm
  | cons name names ih =>
    refine (ih (exporting name k)).trans ?_
    rw [exporting, mul_assoc, word_mul_word]
    rfl

theorem exportingAll_none (names : List String) (k : Behaviour V) :
    exportingAll names k none = k none := by
  induction names generalizing k with
  | nil => rfl
  | cons name names ih => exact ih (exporting name k)

theorem mixed_idle {ks : List (Behaviour V)} (quiet : ∀ k ∈ ks, k = idle later) :
    mixed later ks = idle later := by
  have inside : later + anyOf ks ≤ later∗ := by
    refine add_le le_kstar ?_
    rintro τ ⟨k, among, r, here⟩
    rwa [quiet k among] at here
  have upper := kstar_mono inside
  rw [kstar_idem] at upper
  exact funext fun _ => le_antisymm upper (kstar_mono le_self_add)

theorem mem_inOrder_cons_of_ended {k : Behaviour V} {ks : List (Behaviour V)}
    {σ τ : List (Effect V)} {r : Option V} (first : σ ∈ k.ended) (rest : τ ∈ inOrder ks r) :
    σ ++ τ ∈ inOrder (k :: ks) r := by
  cases r with
  | some v => exact Language.append_mem_mul first rest
  | none => exact .inr (Language.append_mem_mul first rest)

theorem any_idle : (idle later).any = later∗ := by
  ext τ
  exact ⟨fun ⟨_, here⟩ => here, fun here => ⟨none, here⟩⟩

theorem inOrder_append_some (ks ks' : List (Behaviour V)) (v : V) :
    inOrder (ks ++ ks') (some v) = inOrder ks (some v) * inOrder ks' (some v) := by
  induction ks with
  | nil => exact (one_mul _).symm
  | cons k ks ih => rw [List.cons_append, inOrder, ih, inOrder, mul_assoc]

theorem inOrder_append_none (ks ks' : List (Behaviour V)) (v : V) :
    inOrder (ks ++ ks') none = inOrder ks none + inOrder ks (some v) * inOrder ks' none := by
  induction ks with
  | nil => rw [List.nil_append, inOrder, inOrder, zero_add, one_mul]
  | cons k ks ih => simp only [List.cons_append, inOrder, ih, mul_add, add_assoc, mul_assoc]

theorem ended_inOrder (ks : List (Behaviour V)) (v : V) : (inOrder ks).ended = inOrder ks
    (some v) := by
  have same (v' : V) : inOrder ks (some v') = inOrder ks (some v) := by
    induction ks with
    | nil => rfl
    | cons k ks ih => rw [inOrder, inOrder, ih]
  ext τ
  exact ⟨fun ⟨v', here⟩ => same v' ▸ here, fun here => ⟨v, here⟩⟩

theorem inOrder_cons_congr {ks ks' : List (Behaviour V)} (same : inOrder ks = inOrder ks')
    (k : Behaviour V) :
    inOrder (k :: ks) = inOrder (k :: ks') := by
  funext r
  cases r with
  | some v => rw [inOrder, inOrder, same]
  | none => rw [inOrder, inOrder, same]

section
variable [Nonempty V]

theorem ended_idle : (idle later).ended = later∗ := by
  ext τ
  exact ⟨fun ⟨_, here⟩ => here, fun here => ⟨Classical.arbitrary V, here⟩⟩

theorem inOrder_singleton_idle : inOrder [idle later] = idle later := by
  funext r
  cases r with
  | some v => exact (congrArg (· * 1) (ended_idle later)).trans (mul_one _)
  | none => exact (congrArg (later∗ + ·) (mul_zero _)).trans (add_zero _)

theorem inOrder_inOrder (ks ks' : List (Behaviour V)) : inOrder (inOrder ks :: ks') = inOrder
    (ks ++ ks') := by
  funext r
  cases r with
  | some v => rw [inOrder, ended_inOrder ks v, inOrder_append_some]
  | none =>
    rw [inOrder, ended_inOrder ks (Classical.arbitrary V), inOrder_append_none ks ks'
      (Classical.arbitrary V)]

theorem inOrder_idle (ks : List (Behaviour V)) : inOrder (idle later :: idle later :: ks) = inOrder
    (idle later :: ks) := by
  have twice (L : Language (Effect V)) : later∗ * (later∗ * L) = later∗ * L := by
    rw [← mul_assoc, kstar_mul_kstar]
  funext r
  cases r with
  | some v => rw [inOrder, inOrder, ended_idle, twice]
  | none =>
    rw [inOrder, inOrder, ended_idle, mul_add, twice]
    show later∗ + (later∗ * later∗ + _) = later∗ + _
    rw [kstar_mul_kstar, ← add_assoc, add_idem]

end

section Repeated

-- What is done to a variable is repeated under some names.
variable {f : Effect V → List (Effect V)} {x : String} {ref : Reference} {names : List String}
  (written : ∀ v, f (.written .direct x ref v) = .written .direct x ref v ::
  names.map (.exported · v))
include written

theorem through_assigning (k : Behaviour V) :
    (assigning x ref k).through f = exportingAll names (assigning x ref (k.through f)) := by
  funext r
  cases r with
  | none => rw [through_apply, exportingAll_none, assigning, assigning, any_through]
  | some v =>
    rw [through_apply, exportingAll_some, assigning, assigning, rewritten_mul, rewritten_word,
      mul_assoc, word_mul_word]
    simp [written, through_apply]

theorem through_combining
    (kept : ∀ v, f (.kept x ref v) = .kept x ref v :: names.map (.exported · v)) (isLogical : Bool)
    (k : Behaviour V) :
    (combining later x ref isLogical k).through f =
      exportingAll names (combining (rewritten f later) x ref isLogical (k.through f)) := by
  funext r
  cases r with
  | none =>
    rw [through_apply, exportingAll_none, combining, combining, rewritten_add, rewritten_mul,
      rewritten_mul, rewritten_kstar, any_through]
  | some v =>
    have left : rewritten f (if isLogical then {[.kept x ref v]} else 0) =
        (if isLogical then {[.kept x ref v]} else 0) * {names.map (.exported · v)} := by
      cases isLogical with
      | false => exact rewritten_zero.trans (zero_mul _).symm
      | true => simp [rewritten_word, word_mul_word, kept]
    rw [through_apply, exportingAll_some, combining, combining, rewritten_add, rewritten_mul,
      rewritten_mul, rewritten_mul, rewritten_mul, rewritten_kstar, left, rewritten_word,
      ended_through, add_mul]
    simp only [mul_assoc, word_mul_word]
    simp [written]

theorem through_stepping :
    (stepping later x ref).through f = exportingAll names (stepping (rewritten f later) x ref) := by
  funext r
  cases r with
  | none => rw [through_apply, exportingAll_none, stepping, stepping, rewritten_kstar]
  | some v =>
    rw [through_apply, exportingAll_some, stepping, stepping, rewritten_mul, rewritten_kstar,
      rewritten_word, mul_assoc, word_mul_word]
    simp [written]

end Repeated

theorem combining_idle [Nonempty V] (x : String) (ref : Reference) :
    combining later x ref false (idle later) = stepping later x ref := by
  funext r
  cases r with
  | none => rw [stepping, combining, any_idle, kstar_mul_kstar, kstar_mul_kstar, add_idem]
  | some v =>
    rw [stepping, combining, ended_idle, kstar_mul_kstar, kstar_mul_kstar,
      if_neg Bool.false_ne_true, mul_zero, add_zero]

section
variable {f : Effect V → List (Effect V)} {x : String} {ref : Reference}

theorem through_writing {way way' : Way} {x' : String} {ref' : Reference}
    (replaced : ∀ v, f (.written way x ref v) = [.written way' x' ref' v]) :
    rewritten f (writing x ref way) = writing x' ref' way' := by
  ext τ
  constructor
  · rintro ⟨_, ⟨v, rfl⟩, rfl⟩
    exact ⟨v, by simp [replaced]⟩
  · rintro ⟨v, rfl⟩
    exact ⟨_, ⟨v, rfl⟩, by simp [replaced]⟩

theorem through_taking (fixed : ∀ v, f (.written .taken x ref v) = [.written .taken x ref v]) :
    (taking x ref).through f = taking x ref := by
  funext r
  rw [through_apply, taking, rewritten_add, rewritten_one, through_writing fixed]

theorem through_casting {x' : String} {ref' : Reference}
    (replaced : ∀ v, f (.written .cast x ref v) = [.written .cast x' ref' v]) :
    (casting later x ref).through f = casting (rewritten f later) x' ref' := by
  funext r
  rw [through_apply, casting, rewritten_add, rewritten_kstar, through_writing replaced, casting]

theorem through_casting_of_dropped (dropped : ∀ v, f (.written .cast x ref v) = []) :
    (casting later x ref).through f = idle (rewritten f later) := by
  funext r
  have nothing : rewritten f (writing x ref .cast) ≤ 1 := by
    rintro _ ⟨_, ⟨v, rfl⟩, rfl⟩
    rw [List.flatMap_singleton, dropped]
    exact Language.nil_mem_one
  rw [through_apply, casting, rewritten_add, rewritten_kstar]
  exact add_eq_left_iff_le.mpr (nothing.trans one_le_kstar)

end

end Behaviour

end ModuleLowering
