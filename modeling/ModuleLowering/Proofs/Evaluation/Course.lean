import Mathlib.Data.List.Forall2
import ModuleLowering.Proofs.Evaluation.Expression
import ModuleLowering.Proofs.Tree

/-!
Evaluation with the memories that it passes on its way.

There is a point behind every write of a variable. What is written to the exports object leaves
none: it changes no variable. Nor does a logical assignment that keeps the value of its variable. A
computation that breaks off has passed points too.
-/

set_option autoImplicit false

namespace ModuleLowering

/-- The memories that a computation passes, and its result if it comes to an end. -/
structure Course (V α : Type) where
  points : List (Memory V)
  result : Option α

namespace Course

variable {V α β : Type}

instance : Monad (Course V) where
  pure a := ⟨[], some a⟩
  bind c next :=
    ⟨c.points ++ c.result.elim [] fun a => (next a).points, c.result.bind fun a => (next a).result⟩

def unseen (o : Option α) : Course V α := ⟨[], o⟩

def reaching (o : Option (Memory V)) : Course V (Memory V) := ⟨o.toList, o⟩

@[simp] theorem result_bind (c : Course V α) (next : α → Course V β) :
    (c >>= next).result = c.result.bind fun a => (next a).result := rfl

@[simp] theorem result_map (f : α → β) (c : Course V α) : (f <$> c).result = c.result.map f :=
  Option.map_eq_bind.symm

@[simp] theorem result_ite (c : Prop) [Decidable c] (a b : Course V α) :
    (if c then a else b).result = if c then a.result else b.result :=
  apply_ite result c a b

theorem result_bind_reaching (c : Course V α) (f : α → Memory V) :
    (c >>= fun a => reaching (some (f a))).result = c.result.map f :=
  Option.map_eq_bind.symm

theorem bind_mk_none (points : List (Memory V)) (next : α → Course V β) :
    (⟨points, none⟩ : Course V α) >>= next = ⟨points, none⟩ :=
  congrArg (mk · none) (List.append_nil points)

theorem bind_mk_some (points : List (Memory V)) (a : α) (next : α → Course V β) :
    (⟨points, some a⟩ : Course V α) >>= next = ⟨points ++ (next a).points, (next a).result⟩ := rfl

theorem reaching_bind_congr {m : Memory V} {next next' : Memory V → Course V β}
    (same : next m = next' m) : reaching (some m) >>= next = reaching (some m) >>= next' :=
  congrArg (fun c : Course V β => (⟨m :: c.points, c.result⟩ : Course V β)) same

theorem reaching_bind_none {m : Memory V} {next : Memory V → Course V β}
    (stops : next m = .unseen none) : reaching (some m) >>= next = ⟨[m], none⟩ :=
  congrArg (fun c : Course V β => (⟨m :: c.points, c.result⟩ : Course V β)) stops

instance : LawfulMonad (Course V) := by
  refine LawfulMonad.mk' (Course V) ?_ ?_ ?_
  · rintro α ⟨points, result⟩
    cases result with
    | none => exact bind_mk_none points _
    | some a => exact congrArg (mk · (some a)) (List.append_nil points)
  · intro α β a next
    rfl
  · rintro α β γ ⟨points, result⟩ next last
    cases result with
    | none => simp only [bind_mk_none]
    | some a =>
      simp only [bind_mk_some]
      rcases next a with ⟨points', _ | b⟩
      · simp only [bind_mk_none]
      · simp only [bind_mk_some, List.append_assoc]

theorem result_foldlM {ι : Type} (step : α → ι → Course V α) (is : List ι) (a : α) :
    (is.foldlM step a).result = is.foldlM (fun a i => (step a i).result) a := by
  induction is generalizing a with
  | nil => rfl
  | cons i is ih =>
    rw [List.foldlM_cons, List.foldlM_cons, result_bind]
    exact congrArg _ (funext ih)

/-- The two pass related memories, one for one, and both end with related results or both break
off. -/
structure Rel (R : Memory V → Memory V → Prop) (S : α → β → Prop) (c : Course V α)
    (c' : Course V β) : Prop where
  points : List.Forall₂ R c.points c'.points
  result : Option.Rel S c.result c'.result

namespace Rel

variable {α' β' : Type} {R : Memory V → Memory V → Prop} {S : α → α' → Prop} {T : β → β' → Prop}
  {c : Course V α} {c' : Course V α'} {next : α → Course V β} {next' : α' → Course V β'}

theorem pure {a : α} {a' : α'} (related : S a a') : Rel R S (Pure.pure a) (Pure.pure a') :=
  ⟨.nil, .some related⟩

theorem unseen {o : Option α} {o' : Option α'} (related : Option.Rel S o o') :
    Rel R S (.unseen o) (.unseen o') :=
  ⟨.nil, related⟩

theorem reaching {o o' : Option (Memory V)} (related : Option.Rel R o o') :
    Rel R R (.reaching o) (.reaching o') := by
  refine ⟨?_, related⟩
  cases related with
  | none => exact .nil
  | some related => exact .cons related .nil

theorem exists_result (h : Rel R S c c') {a : α} (ended : c.result = some a) :
    ∃ a', c'.result = some a' ∧ S a a' := by
  have both := h.result
  rw [ended] at both
  generalize c'.result = o at both
  cases both with
  | some related => exact ⟨_, rfl, related⟩

theorem bind_iff (h : Rel R S c c') : Rel R T (c >>= next) (c' >>= next') ↔
    ∀ a a', c.result = some a → c'.result = some a' → S a a' → Rel R T (next a) (next' a') := by
  obtain ⟨points, result⟩ := c
  obtain ⟨points', result'⟩ := c'
  obtain ⟨passed, ended⟩ := h
  cases ended with
  | none =>
    rw [bind_mk_none, bind_mk_none]
    constructor
    · intro _ _ _ ended
      cases ended
    · exact fun _ => ⟨passed, .none⟩
  | @some a a' related =>
    rw [bind_mk_some, bind_mk_some]
    constructor
    · rintro ⟨all, last⟩ _ _ ended ended' -
      cases ended
      cases ended'
      -- Both have passed equally many points by then.
      have rest := List.forall₂_drop points.length all
      have even : points.length = points'.length := passed.length_eq
      rw [List.drop_left, even, List.drop_left] at rest
      exact ⟨rest, last⟩
    · intro continued
      have rest := continued a a' rfl rfl related
      exact ⟨List.rel_append passed rest.points, rest.result⟩

theorem bind (h : Rel R S c c') (continued : ∀ a a', S a a' → Rel R T (next a) (next' a')) :
    Rel R T (c >>= next) (c' >>= next') :=
  h.bind_iff.mpr fun a a' _ _ => continued a a'

theorem of_reaching {o o' : Option (Memory V)} {next : Memory V → Course V β}
    {next' : Memory V → Course V β'} (h : Rel R T (.reaching o >>= next) (.reaching o' >>= next')) :
    Option.Rel R o o' := by
  have passed := h.points
  cases o <;> cases o'
  case none.none => exact .none
  case some.some =>
    cases passed with
    | cons first _ => exact .some first
  all_goals cases passed

theorem bind_unseen (o : Option α) {next' : α → Course V β'}
    (continued : ∀ a, Rel R T (next a) (next' a)) :
    Rel R T (.unseen o >>= next) (.unseen o >>= next') := by
  refine (unseen (S := Eq) ?_).bind fun a a' same => same ▸ continued a
  cases o with
  | none => exact .none
  | some a => exact .some rfl

theorem map {f : α → β} {f' : α' → β'} (h : Rel R S c c')
    (related : ∀ a a', S a a' → T (f a) (f' a')) :
    Rel R T (f <$> c) (f' <$> c') := by
  rw [← bind_pure_comp, ← bind_pure_comp]
  exact h.bind fun a a' linked => .pure (related a a' linked)

theorem mono {R' : Memory V → Memory V → Prop} (h : Rel R S c c')
    (weaker : ∀ m m', R m m' → R' m m') : Rel R' S c c' :=
  ⟨h.points.imp weaker, h.result⟩

end Rel

end Course

def Memory.storing {V : Type} (m : Memory V) (v : V) : Slot → Course V (Memory V)
  | .variable x => .reaching (m.write x v)
  | p => .unseen (m.store v p)

mutual

def Node.course {V : Type} (P : Primitives V) : Node → Memory V → Course V (V × Memory V)
  | .mk (.binary op) _ [a, b], m => do
    let (v, m) ← a.course P m
    if P.decides op v then pure (v, m)
    else do
      let (w, m) ← b.course P m
      let u ← .unseen (P.apply op v w)
      pure (u, m)
  | .mk .sequence _ es, m => courseOfSequence P es m
  | .mk (.assign .plain) _ [t, e], m => do
    let p ← .unseen t.slot?
    let (v, m) ← e.course P m
    let m ← m.storing v p
    pure (v, m)
  | .mk (.assign (.combined op)) _ [t, e], m => do
    let p ← .unseen t.slot?
    let old ← .unseen (m.load P p)
    if P.decides op old then pure (old, m)
    else do
      let (v, m) ← e.course P m
      let u ← .unseen (P.apply op old v)
      let m ← m.storing u p
      pure (u, m)
  | .mk (.update op isPrefixed) _ [t], m => do
    let p ← .unseen t.slot?
    let old ← .unseen (m.load P p)
    let (number, next) ← .unseen (P.step op old)
    let m ← m.storing next p
    pure (if isPrefixed then next else number, m)
  | n, m => .unseen (n.eval P m)

def Node.courseOfSequence {V : Type} (P : Primitives V) : List Node → Memory V → Course V
    (V × Memory V)
  | [], _ => .unseen none
  | e :: es, m => do
    let (v, m) ← e.course P m
    match es with
    | [] => pure (v, m)
    | _ :: _ => courseOfSequence P es m

end

section
variable {V : Type} {P : Primitives V}

@[simp] theorem Memory.result_storing (m : Memory V) (v : V) (p : Slot) :
    (m.storing v p).result = m.store v p := by
  cases p <;> rfl

theorem Node.result_courseOfSequence {es : List Node}
    (each : ∀ e ∈ es, ∀ m, (e.course P m).result = e.eval P m) (m : Memory V) :
    (courseOfSequence P es m).result = evalSequence P es m := by
  induction es generalizing m with
  | nil => rfl
  | cons e es ih =>
    rw [courseOfSequence, evalSequence, Course.result_bind, each e List.mem_cons_self]
    refine congrArg (e.eval P m).bind (funext fun r => ?_)
    cases es with
    | nil => rfl
    | cons e' es => exact ih (fun e among => each e (List.mem_cons_of_mem _ among)) r.2

theorem Node.result_course (e : Node) (m : Memory V) : (e.course P m).result = e.eval P m := by
  induction e using Node.induction generalizing m with
  | step f s ps ih =>
    unfold course
    split
    · next eq =>
      cases eq
      simp only [eval, Course.result_bind, Course.result_ite, ih _ List.mem_cons_self,
        ih _ (List.mem_cons_of_mem _ List.mem_cons_self)]
      rfl
    · next eq =>
      cases eq
      exact result_courseOfSequence ih _
    · next eq =>
      cases eq
      simp only [eval, Course.result_bind, Memory.result_storing,
        ih _ (List.mem_cons_of_mem _ List.mem_cons_self)]
      rfl
    · next eq =>
      cases eq
      simp only [eval, Course.result_bind, Course.result_ite, Memory.result_storing,
        ih _ (List.mem_cons_of_mem _ List.mem_cons_self)]
      rfl
    · next eq =>
      cases eq
      simp only [eval, Course.result_bind, Memory.result_storing]
      rfl
    · rfl

end

end ModuleLowering
