import Mathlib.Data.List.Forall2
import ModuleLowering.Tree.Form

/-!
Trees: induction over them, the same tree without what its names refer to, and what the grammar
promises about the parts of a node.
-/

set_option autoImplicit false

namespace ModuleLowering

theorem exists_of_forall₂ {α β : Type} {R : α → β → Prop} {as : List α} {bs : List β}
    (h : List.Forall₂ R as bs) :
    (∀ a ∈ as, ∃ b ∈ bs, R a b) ∧ ∀ b ∈ bs, ∃ a ∈ as, R a b := by
  induction h with
  | nil => simp
  | cons first _ ih =>
    simp only [List.forall_mem_cons]
    refine ⟨⟨⟨_, List.mem_cons_self, first⟩, fun a among => ?_⟩, ⟨_, List.mem_cons_self, first⟩,
      fun b among => ?_⟩
    · obtain ⟨b, other, related⟩ := ih.1 a among
      exact ⟨b, List.mem_cons_of_mem _ other, related⟩
    · obtain ⟨a, other, related⟩ := ih.2 b among
      exact ⟨a, List.mem_cons_of_mem _ other, related⟩

mutual

/-- What holds of a tree as soon as it holds of its parts holds of every tree. -/
theorem Node.induction {P : Node → Prop} (step : ∀ f s ps, (∀ p ∈ ps, P p) → P (.mk f s ps)) :
    ∀ n, P n
  | .mk f s ps => step f s ps (inductionParts step ps)

theorem Node.inductionParts {P : Node → Prop} (step : ∀ f s ps, (∀ p ∈ ps, P p) → P (.mk f s ps)) :
    ∀ ps : List Node, ∀ p ∈ ps, P p
  | [] => by simp
  | p :: ps => List.forall_mem_cons.mpr ⟨Node.induction step p, inductionParts step ps⟩

end

/-- A form without what its name refers to. -/
def Form.bare : Form → Form
  | .ident x _ => .ident x .none
  | .target x _ => .target x .none
  | .tagRef x _ => .tagRef x .none
  | .mention x _ meaning => .mention x .none meaning
  | .binder x _ => .binder x none
  | f => f

mutual

def Node.bare : Node → Node
  | .mk f s ps => .mk f.bare s (bareParts ps)

def Node.bareParts : List Node → List Node
  | [] => []
  | p :: ps => p.bare :: bareParts ps

end

def Form.isBinder : Form → Bool
  | .binder .. => true
  | _ => false

def Form.isLabel : Form → Bool
  | .word _ | .string _ | .template _ => true
  | _ => false

/-- What the grammar says about the parts that declare names: an enum member has a label, and what
an imported name is declared by is a plain name. -/
def Form.fits (f : Form) (ps : List Node) : Bool :=
  match f, ps with
  | .enumMember _, label :: _ => label.form.isLabel
  | .importDefault, [b] | .importNamespace, [b] | .importNamed _, [_, b] => b.form.isBinder
  | _, _ => true

mutual

def Node.isWellFormed : Node → Bool
  | .mk f _ ps => f.fits ps && areWellFormed ps

def Node.areWellFormed : List Node → Bool
  | [] => true
  | p :: ps => p.isWellFormed && areWellFormed ps

end

theorem Node.areWellFormed_iff {ps : List Node} :
    areWellFormed ps = true ↔ ∀ p ∈ ps, p.isWellFormed = true := by
  induction ps with
  | nil => simp [areWellFormed]
  | cons p ps ih => simp [areWellFormed, ih]

theorem Node.isWellFormed_mk {f : Form} {s : Option Span} {ps : List Node} :
    (mk f s ps).isWellFormed = true ↔ f.fits ps = true ∧ ∀ p ∈ ps, p.isWellFormed = true := by
  simp [isWellFormed, areWellFormed_iff]

theorem Node.bareParts_eq_map (ps : List Node) : bareParts ps = ps.map bare := by
  induction ps with
  | nil => rfl
  | cons p ps ih => simp [bareParts, ih]

theorem Node.exists_of_isBinder {b : Node} (h : b.form.isBinder = true) :
    ∃ x symbol s ps, b = .mk (.binder x symbol) s ps := by
  obtain ⟨f, s, ps⟩ := b
  cases f <;> first | exact ⟨_, _, _, _, rfl⟩ | cases h

theorem Form.fits_map {g : Node → Node} (binder : ∀ p, (g p).form.isBinder = p.form.isBinder)
    (label : ∀ p, (g p).form.isLabel = p.form.isLabel) (f : Form) (ps : List Node) :
    f.fits (ps.map g) = f.fits ps := by
  cases f
  case enumMember => cases ps <;> simp [fits, label]
  case importDefault | importNamespace => match ps with
    | [] | _ :: _ :: _ => rfl
    | [p] => exact binder p
  case importNamed => match ps with
    | [] | [_] | _ :: _ :: _ :: _ => rfl
    | [_, p] => exact binder p
  all_goals rfl

theorem Node.form_bare (n : Node) : n.bare.form = n.form.bare := by
  obtain ⟨f, s, ps⟩ := n
  rfl

theorem Node.isWellFormed_bare (n : Node) : n.bare.isWellFormed = n.isWellFormed := by
  induction n using Node.induction with
  | step f s ps ih =>
    have same : f.bare.fits (ps.map bare) = f.fits ps := by
      refine Eq.trans ?_ (Form.fits_map (g := bare) (fun p => ?_) (fun p => ?_) f ps)
      · cases f <;> rfl
      all_goals
        rw [form_bare]
        cases p.form <;> rfl
    rw [Bool.eq_iff_iff]
    simp only [bare, bareParts_eq_map, isWellFormed_mk, same, List.forall_mem_map]
    exact and_congr_right fun _ => forall₂_congr fun p among => by rw [ih p among]

end ModuleLowering
