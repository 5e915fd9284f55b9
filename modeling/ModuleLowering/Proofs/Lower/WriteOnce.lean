import Mathlib.Logic.Function.Defs
import ModuleLowering.Lower.Module
import ModuleLowering.Proofs.Tree

/-!
The targets whose writes are repeated are kept in a list, so that none is repeated twice. As long as
different places have different keys, no write is left out for it.
-/

set_option autoImplicit false

namespace ModuleLowering

variable {κ α β : Type} {key : List Nat → κ}

/-- As long as nothing in a region has been marked, the step comes to the result. What it marks is
in the region. -/
def Marks (key : List Nat → κ) (region : List Nat → Prop) (step : StateM (List κ) α) (result : α) :
    Prop :=
  ∀ marked, (∀ w, region w → key w ∉ marked) → ∃ more, step.run marked = (result, more ++ marked) ∧
    ∀ k ∈ more, ∃ w, region w ∧ k = key w

namespace Marks

variable {region region' : List Nat → Prop} {step : StateM (List κ) α} {a : α} {b : β}

theorem pure : Marks key region (Pure.pure a) a := fun _ _ => ⟨[], rfl, by simp⟩

theorem map (f : α → β) (h : Marks key region step a) :
    Marks key region (step >>= fun a => Pure.pure (f a)) (f a) := by
  intro marked free
  obtain ⟨more, run, inside⟩ := h marked free
  exact ⟨more, by rw [StateT.run_bind, run]; rfl, inside⟩

theorem mono (h : Marks key region step a) (sub : ∀ w, region w → region' w) :
    Marks key region' step a := by
  intro marked free
  obtain ⟨more, run, inside⟩ := h marked fun w here => free w (sub w here)
  refine ⟨more, run, fun k among => ?_⟩
  obtain ⟨w, here, eq⟩ := inside k among
  exact ⟨w, sub w here, eq⟩

theorem bind (distinct : Function.Injective key) (first : Marks key region step a)
    {next : α → StateM (List κ) β} (second : Marks key region' (next a) b)
    (apart : ∀ w, region w → ¬ region' w) :
    Marks key (fun w => region w ∨ region' w) (step >>= next) b := by
  intro marked free
  obtain ⟨more, run, inside⟩ := first marked fun w here => free w (.inl here)
  have still (w : List Nat) (here : region' w) : key w ∉ more ++ marked := by
    rw [List.mem_append]
    rintro (new | old)
    · obtain ⟨v, there, same⟩ := inside _ new
      exact apart v there (distinct same ▸ here)
    · exact free w (.inr here) old
  obtain ⟨more', run', inside'⟩ := second (more ++ marked) still
  refine ⟨more' ++ more, ?_, fun k among => ?_⟩
  · rw [StateT.run_bind, run, List.append_assoc]
    exact run'
  · rcases List.mem_append.mp among with late | early
    · obtain ⟨w, here, eq⟩ := inside' k late
      exact ⟨w, .inr here, eq⟩
    · obtain ⟨w, here, eq⟩ := inside k early
      exact ⟨w, .inl here, eq⟩

theorem mark {w : List Nat} (here : region w) :
    Marks key region (do modify (key w :: ·); Pure.pure a) a :=
  fun _ _ => ⟨[key w], rfl, fun _ among => ⟨w, here, List.mem_singleton.mp among⟩⟩

theorem echoed [DecidableEq κ] {l : LiveBindings} {n : Node} {w : List Nat} :
    Marks key (· = w) (l.echoedOnce (key w) n) (l.echoed n) := by
  unfold LiveBindings.echoedOnce LiveBindings.echoed
  split
  · split
    · intro marked free
      have new : key w ∉ marked := free w rfl
      refine ⟨[key w], ?_, by simp⟩
      simp [StateT.run_bind, new]
      rfl
    · exact pure
  · exact pure

end Marks

def Below (place w : List Nat) : Prop := ∃ i, i :: place <:+ w

theorem Below.of_cons {i : Nat} {place w : List Nat} (h : Below (i :: place) w) : Below place w :=
  h.elim fun j suffix => ⟨i, (List.suffix_cons j _).trans suffix⟩

theorem Below.of_part {i : Nat} {place w : List Nat} (h : ∃ j, i ≤ j ∧ Below (j :: place) w) :
    Below place w :=
  h.elim fun _ here => here.2.of_cons

theorem Below.eq {i j : Nat} {place w : List Nat} (h : Below (i :: place) w)
    (h' : Below (j :: place) w) : i = j := by
  obtain ⟨a, first⟩ := h
  obtain ⟨b, second⟩ := h'
  have same := (List.suffix_of_suffix_length_le first second (by simp)).eq_of_length (by simp)
  simp only [List.cons.injEq] at same
  exact same.2.1

theorem Below.ne {i j : Nat} {place w : List Nat} (h : Below (i :: place) w) : w ≠ j :: place := by
  rintro rfl
  obtain ⟨a, suffix⟩ := h
  exact absurd suffix.length_le (by simp)

namespace Node

variable [DecidableEq κ] {l : LiveBindings} (distinct : Function.Injective key)
include distinct

theorem marks_parts {ps : List Node}
    (each : ∀ p ∈ ps, ∀ completes place, Marks key (Below place)
      (p.liveOnce l key completes place) (p.live l completes))
    (completes : Bool) (place : List Nat) (f : Form) (i : Nat) :
    Marks key (fun w => ∃ j, i ≤ j ∧ Below (j :: place) w)
      (livePartsOnce l key completes place f i ps) (liveParts l completes f i ps) := by
  induction ps generalizing i with
  | nil => exact .pure
  | cons p ps ih =>
    rw [livePartsOnce, liveParts]
    have rest := ih (fun q among => each q (List.mem_cons_of_mem _ among)) (i + 1)
    refine ((each p List.mem_cons_self _ _).bind distinct (rest.map _) ?_).mono ?_
    · rintro w here ⟨j, later, there⟩
      exact absurd (here.eq there) (by omega)
    · rintro w (here | ⟨j, later, there⟩)
      · exact ⟨i, Nat.le_refl i, here⟩
      · exact ⟨j, by omega, there⟩

/-- A tree becomes live as if nothing were kept, and so do its parts. -/
theorem marks_live (n : Node) :
    (∀ completes place, Marks key (Below place) (n.liveOnce l key completes place)
      (n.live l completes)) ∧
    ∀ completes place f, Marks key (Below place) (livePartsOnce l key completes place f 0 n.parts)
      (liveParts l completes f 0 n.parts) := by
  induction n using Node.induction with
  | step f s ps ih =>
    have among (completes : Bool) (place : List Nat) (f : Form) :=
      marks_parts distinct (fun p among => (ih p among).1) completes place f 0
    have parts (completes : Bool) (place : List Nat) (f : Form) : Marks key (Below place)
        (livePartsOnce l key completes place f 0 ps) (liveParts l completes f 0 ps) :=
      (among completes place f).mono fun w => Below.of_part
    refine ⟨fun completes place => ?_, parts⟩
    unfold liveOnce
    split
    · next eq =>
      cases eq
      exact .pure
    · next eq =>
      cases eq
      exact .pure
    · next isOptional _ callee args eq =>
      cases eq
      have rest := marks_parts distinct (fun p among => (ih p (List.mem_cons_of_mem _ among)).1)
        completes place (.call isOptional) 1
      rw [live]
      cases l.calleeRedirect? callee with
      | some r =>
        exact (rest.map fun args' => mk (.call isOptional) s (Made.detached r.toNode :: args')).mono
          fun w => Below.of_part
      | none =>
        refine (((ih callee List.mem_cons_self).1 completes (0 :: place)).bind distinct
          (rest.map _) ?_).mono ?_
        · rintro w here ⟨j, later, there⟩
          exact absurd (here.eq there) (by omega)
        · rintro w (here | ⟨j, -, there⟩)
          exacts [here.of_cons, there.of_cons]
    · next isOptional _ qs eq =>
      cases eq
      rw [live]
      exact (((ih _ List.mem_cons_self).2 completes (0 :: place) (.call isOptional)).map _).mono
        fun w here => here.of_cons
    · next op isPrefixed _ _ eq =>
      cases eq
      rw [live]
      split
      · exact .mark ⟨0, List.suffix_rfl⟩
      · exact (parts completes place (.update op isPrefixed)).map _
    · next e eq =>
      cases eq
      rw [live]
      split
      · exact .mark ⟨0, List.suffix_cons ..⟩
      · exact (((ih e List.mem_cons_self).1 completes (0 :: place)).map _).mono fun w here =>
          here.of_cons
    · next op _ _ eq =>
      cases eq
      rw [live]
      refine ((among completes place (.assign op)).bind distinct (.echoed (l := l)) ?_).mono ?_
      · rintro w ⟨j, -, here⟩
        exact here.ne
      · rintro w (⟨j, -, here⟩ | rfl)
        exacts [here.of_cons, ⟨0, List.suffix_rfl⟩]
    · next eq =>
      cases eq
      rw [live]
      · exact (parts completes place _).map _
      all_goals assumption

theorem run_liveOnce (n : Node) (completes : Bool) :
    ((n.liveOnce l key completes []).run []).run.1 = n.live l completes := by
  obtain ⟨more, run, -⟩ := (marks_live distinct n).1 completes [] [] fun _ _ => List.not_mem_nil
  rw [run]
  rfl

end Node

theorem Module.makeLive_eq (m : Module) (redirects : RedirectTable) (exports : ExportTable) :
    m.makeLive redirects exports =
      if redirects.isEmpty && exports.isEmpty then (m, 0)
      else
        let l : LiveBindings := ⟨m.scopes, redirects, exports⟩
        ({ m with program := m.program.live l true }, m.program.liveChanges l) := by
  simp only [makeLive, Node.run_liveOnce Function.injective_id]

end ModuleLowering
