import ModuleLowering.Proofs.Lower.DefinedName
import ModuleLowering.Proofs.Lower.Surroundings

/-!
Names that were put into a tree. The live pass puts in the variables of required modules, which have
made-up names, and the `exports` that repeat a write; every other name it leaves where it was.
-/

set_option autoImplicit false

namespace ModuleLowering

/-- What a made-up name is where a look-up has found `found`. -/
def Form.seenAs (names : List String) (found : Option Form) : Form → Form
  | .ident x .none =>
    if x ∈ names ∧ found ≠ some (.ident x .global) then found.getD (.ident x .none)
    else .ident x .none
  | f => f

mutual

/-- The tree in which those of the made-up names are what a look-up finds for them, unless that is
the runtime's. -/
def Node.seen (names : List String) (found : List Nat → Option Form) : Node → Node
  | .mk f s ps =>
    .mk (f.seenAs names (found [])) s (if f.isOccurrence then ps else seenOfParts names found 0 ps)

def Node.seenOfParts (names : List String) (found : List Nat → Option Form) (i : Nat) :
    List Node → List Node
  | [] => []
  | p :: ps => p.seen names (fun way => found (i :: way)) :: seenOfParts names found (i + 1) ps

end

namespace Node

def insertedAt (n : Node) (way : List Nat) : Option String :=
  match n.at? way with
  | some (.mk (.ident x .none) _ _) => some x
  | _ => none

/-- Whether the `exports` at the end of a way is there to repeat an assignment. -/
structure IsEcho (n : Node) (way : List Nat) (x : String) : Prop where
  name : x = "exports"
  write : ∃ w e v op, way = w ++ [0, 0] ∧ n.at? w = some (Made.exportAssignment e v) ∧
    v.form = .assign op

/-- A made-up name in the tree `n'` repeats a write, or it comes from `n` and sees no more scopes
than it did there. -/
def Traced (n n' : Node) (way : List Nat) (x : String) : Prop :=
  n'.IsEcho way x ∨ ∃ w, n.insertedAt w = some x ∧
    (n.isOpenAlong w = true → n'.isOpenAlong way = true)

theorem exists_of_insertedAt {n : Node} {way : List Nat} {x : String}
    (h : n.insertedAt way = some x) :
    ∃ s ps, n.at? way = some (mk (.ident x .none) s ps) := by
  unfold insertedAt at h
  split at h
  · next s ps found =>
    cases h
    exact ⟨s, ps, found⟩
  · cases h

theorem insertedAt_nil {f : Form} {s : Option Span} {ps : List Node} {x : String}
    (h : (mk f s ps).insertedAt [] = some x) : f = .ident x .none := by
  obtain ⟨_, _, found⟩ := exists_of_insertedAt h
  exact (mk.inj (Option.some.inj found)).1

theorem insertedAt_cons {f : Form} {s : Option Span} {ps : List Node} {i : Nat} {way : List Nat}
    {x : String} (h : (mk f s ps).insertedAt (i :: way) = some x) :
    f.isOccurrence = false ∧ ∃ p, ps[i]? = some p ∧ p.insertedAt way = some x := by
  obtain ⟨_, _, found⟩ := exists_of_insertedAt h
  obtain ⟨parted, p, child, below⟩ := exists_of_at?_cons found
  refine ⟨parted, p, child, ?_⟩
  rw [insertedAt, below]

theorem insertedAt_part {f : Form} {s : Option Span} {ps : List Node} {i : Nat} {p : Node}
    (parted : f.isOccurrence = false) (child : ps[i]? = some p) (way : List Nat) :
    (mk f s ps).insertedAt (i :: way) = p.insertedAt way := by
  rw [insertedAt, at?_cons, parted, child]
  rfl

theorem seenOfParts_eq_mapIdx (names : List String) (found : List Nat → Option Form) (i : Nat)
    (ps : List Node) :
    seenOfParts names found i ps =
      ps.mapIdx fun j p => p.seen names fun way => found ((i + j) :: way) := by
  induction ps generalizing i with
  | nil => rfl
  | cons p ps ih =>
    rw [seenOfParts, ih, List.mapIdx_cons]
    simp only [Nat.add_zero, Nat.add_assoc, Nat.add_comm 1]

theorem seen_eq_self {n : Node} {names : List String} {found : List Nat → Option Form}
    (visible : ∀ way, ∀ x ∈ names, n.insertedAt way = some x →
      found way = some (.ident x .global)) : n.seen names found = n := by
  induction n using Node.induction generalizing found with
  | step f s ps ih =>
  have form : f.seenAs names (found []) = f := by
    unfold Form.seenAs
    split
    · exact if_neg fun hidden => hidden.2 (visible [] _ hidden.1 rfl)
    · rfl
  rw [seen, form]
  congr
  split
  · rfl
  · next parted =>
    rw [seenOfParts_eq_mapIdx]
    refine List.mapIdx_eq_iff.mpr fun i => ?_
    cases child : ps[i]? with
    | none => rfl
    | some p =>
      rw [Option.map_some, ih p (List.mem_of_getElem? child)]
      intro way x among inserted
      rw [Nat.zero_add]
      exact visible (i :: way) x among
        ((insertedAt_part (by simpa using parted) child way).trans inserted)

theorem insertedAt_of_isLookedUp {n : Node} (h : n.isLookedUp = true) (way : List Nat) :
    n.insertedAt way = none := by
  cases inserted : n.insertedAt way with
  | none => rfl
  | some x =>
    exfalso
    induction way generalizing n with
    | nil =>
      obtain ⟨f, s, ps⟩ := n
      obtain rfl := insertedAt_nil inserted
      cases h
    | cons i way ih =>
      obtain ⟨f, s, ps⟩ := n
      obtain ⟨-, p, child, below⟩ := insertedAt_cons inserted
      exact ih (isLookedUp_mk h p (List.mem_of_getElem? child)) below

theorem IsEcho.part {f : Form} {s : Option Span} {ps : List Node} {i : Nat} {p : Node}
    {way : List Nat} {x : String} (h : p.IsEcho way x) (parted : f.isOccurrence = false)
    (child : ps[i]? = some p) :
    (Node.mk f s ps).IsEcho (i :: way) x := by
  obtain ⟨name, w, e, v, op, rfl, found, form⟩ := h
  refine ⟨name, i :: w, e, v, op, rfl, ?_, form⟩
  rw [at?_cons, parted, child]
  exact found

end Node

namespace Made

theorem insertedAt_ident {y : String} {way : List Nat} {x : String}
    (h : (ident y).insertedAt way = some x) :
    way = [] ∧ x = y := by
  cases way with
  | nil => exact ⟨rfl, (Form.ident.inj (Node.insertedAt_nil h)).1.symm⟩
  | cons i way => cases (Node.insertedAt_cons h).1

theorem insertedAt_member {object property : String} {way : List Nat} {x : String}
    (h : (member (ident object) property).insertedAt way = some x) : way = [0] ∧ x = object := by
  have shape : ∃ f label, member (ident object) property = .made f [ident object, label] ∧
    f.isLookedUp = true ∧
      label.isLookedUp = true := by
    unfold member
    split
    · exact ⟨_, _, rfl, rfl, rfl⟩
    · exact ⟨_, _, rfl, rfl, rfl⟩
  obtain ⟨f, label, eq, known, plain⟩ := shape
  rw [eq] at h
  match way with
  | [] =>
    rw [Node.insertedAt_nil h] at known
    cases known
  | 0 :: w =>
    obtain ⟨-, p, child, below⟩ := Node.insertedAt_cons h
    cases child
    obtain ⟨rfl, rfl⟩ := insertedAt_ident below
    exact ⟨rfl, rfl⟩
  | 1 :: w =>
    obtain ⟨-, p, child, below⟩ := Node.insertedAt_cons h
    cases child
    rw [Node.insertedAt_of_isLookedUp plain] at below
    cases below
  | (i + 2) :: w =>
    obtain ⟨-, p, child, -⟩ := Node.insertedAt_cons h
    cases child

theorem insertedAt_assign {object property : String} {value : Node} {way : List Nat} {x : String}
    (h : (assign (member (ident object) property) value).insertedAt way = some x) :
    (way = [0, 0] ∧ x = object) ∨ ∃ w, way = 1 :: w ∧ value.insertedAt w = some x := by
  match way with
  | [] => cases Node.insertedAt_nil h
  | 0 :: w =>
    obtain ⟨-, p, child, below⟩ := Node.insertedAt_cons h
    cases child
    obtain ⟨rfl, rfl⟩ := insertedAt_member below
    exact .inl ⟨rfl, rfl⟩
  | 1 :: w =>
    obtain ⟨-, p, child, below⟩ := Node.insertedAt_cons h
    cases child
    exact .inr ⟨w, rfl, below⟩
  | (i + 2) :: w =>
    obtain ⟨-, p, child, -⟩ := Node.insertedAt_cons h
    cases child

theorem insertedAt_exportChain {names : List String} {value : Node} {op : AssignOp}
    (form : value.form = .assign op) {way : List Nat} {x : String}
    (h : (exportChain names value).insertedAt way = some x) :
    (exportChain names value).IsEcho way x ∨
      ∃ w, way = List.replicate names.length 1 ++ w ∧ value.insertedAt w = some x := by
  induction names generalizing value op with
  | nil => exact .inr ⟨way, rfl, h⟩
  | cons name names ih =>
    rcases @ih (exportAssignment name value) .plain rfl h with echo | ⟨w, rfl, below⟩
    · exact .inl echo
    · rcases insertedAt_assign below with ⟨rfl, rfl⟩ | ⟨w, rfl, below⟩
      · refine .inl ⟨rfl, List.replicate names.length 1, name, value, op, rfl, ?_, form⟩
        have found := LiveBindings.at?_exportChain names (exportAssignment name value) []
        rwa [List.append_nil] at found
      · exact .inr ⟨w, by rw [List.length_cons, List.replicate_succ', List.append_assoc]; rfl,
          below⟩

theorem isOpenAlong_exportChain (names : List String) (value : Node) (way : List Nat) :
    (exportChain names value).isOpenAlong (List.replicate names.length 1 ++ way) =
      value.isOpenAlong way := by
  induction names generalizing value way with
  | nil => rfl
  | cons name names ih =>
    rw [List.length_cons, List.replicate_succ', List.append_assoc]
    exact ih (exportAssignment name value) (1 :: way)

theorem isEcho_exportChain (names : List String) {value : Node} {way : List Nat} {x : String}
    (h : value.IsEcho way x) :
    (exportChain names value).IsEcho (List.replicate names.length 1 ++ way) x := by
  obtain ⟨name, w, e, v, op, rfl, found, form⟩ := h
  refine ⟨name, List.replicate names.length 1 ++ w, e, v, op, (List.append_assoc ..).symm, ?_, form⟩
  rw [LiveBindings.at?_exportChain]
  exact found

end Made

theorem Redirect.insertedAt_toNode {r : Redirect} {way : List Nat} {x : String}
    (h : r.toNode.insertedAt way = some x) :
    x = r.object := by
  cases r with
  | binding name => exact (Made.insertedAt_ident h).2
  | member object property => exact (Made.insertedAt_member h).2

namespace LiveBindings

variable {l : LiveBindings}

theorem ne_none_of_exportedNames? {x : String} {ref : Reference} {names : List String}
    (exported : l.exportedNames? x ref = some names) : ref ≠ .none := by
  rintro rfl
  cases (Option.filter_eq_some_iff.mp exported).2

theorem isEcho_updateExpression {op : UpdateOp} {isPrefixed : Bool} {y : String} {ref : Reference}
    (known : ref ≠ .none) {names : List String} {isDropped : Bool} {way : List Nat} {x : String}
    (h : (updateExpression op isPrefixed y ref names isDropped).insertedAt way = some x) :
    (updateExpression op isPrefixed y ref names isDropped).IsEcho way x := by
  have echo (forward : BinaryOp) {w : List Nat}
      (h : (Made.exportChain names (.made (.assign (.combined forward)) [.made (.target y ref) [],
      Made.number 1])).insertedAt w = some x) :
      (Made.exportChain names (.made (.assign (.combined forward)) [.made (.target y ref) [],
        Made.number 1])).IsEcho w x := by
    rcases Made.insertedAt_exportChain rfl h with echo | ⟨w, -, below⟩
    · exact echo
    · rw [Node.insertedAt_of_isLookedUp rfl] at below
      cases below
  simp only [updateExpression] at h ⊢
  split at h
  · next dropped =>
    rw [if_pos dropped]
    exact echo _ h
  · next wanted =>
    rw [if_neg wanted]
    obtain _ | ⟨_ | _ | i, w⟩ := way
    · cases Node.insertedAt_nil h
    · obtain ⟨-, p, child, below⟩ := Node.insertedAt_cons h
      cases child
      exact (echo _ below).part rfl rfl
    · -- The old value is computed from the variable itself.
      obtain ⟨-, p, child, below⟩ := Node.insertedAt_cons h
      cases child
      rw [Node.insertedAt_of_isLookedUp] at below
      · cases below
      · cases ref <;> first | rfl | exact absurd rfl known
    · obtain ⟨-, p, child, -⟩ := Node.insertedAt_cons h
      cases child

theorem isOpen_truthful (f : Form) (ps : List Node) : (f.truthful ps).isOpen = f.isOpen := by
  unfold Form.truthful
  split <;> rfl

theorem echoes_cases (l : LiveBindings) (f : Form) (s : Option Span) (ps : List Node) :
    l.echoes (.mk f s ps) = [] ∨ ∃ op, f = .assign op := by
  unfold echoes
  split
  · next eq => exact .inr ⟨_, (Node.mk.inj eq).1⟩
  · exact .inl rfl

theorem traced_partsAt (completes : Bool) (position : Position) {f : Form}
    (notIdent : ∀ x ref, f ≠ .ident x ref) (s : Option Span) {ps : List Node} {x : String}
    (inside : ∀ p ∈ ps, ∀ {completes : Bool} {position : Position} {way : List Nat},
      (l.liveAt completes position p).insertedAt way = some x → p.Traced
    (l.liveAt completes position p) way x) {way :
      List Nat} (h : (Node.mk (f.truthful (l.partsAt completes position f ps)) s
        (l.partsAt completes position f ps)).insertedAt way = some x) :
    (Node.mk f s ps).Traced (.mk (f.truthful (l.partsAt completes position f ps)) s
      (l.partsAt completes position f ps)) way x := by
  cases way with
  | nil =>
    have form := Node.insertedAt_nil h
    unfold Form.truthful at form
    split at form
    · cases form
    · exact absurd form (notIdent _ _)
  | cons i way =>
    obtain ⟨parted, q, found, below⟩ := Node.insertedAt_cons h
    obtain ⟨p, child, rfl⟩ := l.getElem?_partsAt found
    rcases inside p (List.mem_of_getElem? child) below with echo | ⟨w, before, seen⟩
    · exact .inl (echo.part parted found)
    · rw [isOccurrence_truthful] at parted
      refine .inr ⟨i :: w, (Node.insertedAt_part parted child w).trans before, ?_⟩
      simp only [Node.isOpenAlong, Node.form, Node.parts, child, found, isOpen_truthful,
        Bool.and_eq_true]
      exact And.imp_right seen

/-- Where a made-up name comes from that the live pass leaves: it repeats a write, or it was in the
tree before and sees no more scopes than it did. -/
theorem IsForeign.traced_liveAt (foreign : l.IsForeign) {completes : Bool} {position : Position}
    {n : Node} {way : List Nat} {x : String} (head : x.toList.head? ≠ some '_')
    (h : (l.liveAt completes position n).insertedAt way = some x) :
    n.Traced (l.liveAt completes position n) way x := by
  induction n using Node.induction generalizing completes position way with
  | step f s ps ih =>
    cases l.view (.mk f s ps) with
    | ident y ref =>
      rw [liveAt_ident] at h ⊢
      cases found : l.redirect? y ref with
      | none =>
        simp only [found] at h ⊢
        exact .inr ⟨way, h, id⟩
      | some r =>
        -- All names made for an import start with an underscore, and this one does not.
        exfalso
        have made := (foreign.object found).2
        have object {w : List Nat} (h : r.toNode.insertedAt w = some x) : False :=
          head (Redirect.insertedAt_toNode h ▸ made)
        simp only [found] at h
        split at h
        · match way with
          | [] => cases Node.insertedAt_nil h
          | i :: w =>
            obtain ⟨-, p, child, below⟩ := Node.insertedAt_cons h
            match i with
            | 0 =>
              cases child
              rw [Node.insertedAt_of_isLookedUp rfl] at below
              cases below
            | 1 =>
              cases child
              exact object below
            | _ + 2 => cases child
        · exact object h
    | tagRef y ref =>
      rw [liveAt_tagRef] at h ⊢
      cases found : l.tagRedirect? y ref with
      | none =>
        simp only [found] at h ⊢
        exact .inr ⟨way, h, id⟩
      | some r =>
        simp only [found] at h
        rw [Node.insertedAt_of_isLookedUp (by cases r <;> rfl)] at h
        cases h
    | update op isPrefixed _ y ref s' qs names exported =>
      rw [liveAt_update l exported] at h ⊢
      exact .inl (isEcho_updateExpression (ne_none_of_exportedNames? exported) h)
    | other _ _ _ notIdent notTag notUpdated =>
      rw [liveAt_other l notIdent notTag notUpdated] at h ⊢
      have through := @traced_partsAt l completes position f notIdent s ps x ih
      -- Around an assignment stand the writes that repeat it, and they open no scope.
      rcases l.echoes_cases f s ps with silent | ⟨op, rfl⟩
      · rw [silent] at h ⊢
        exact through h
      · rcases Made.insertedAt_exportChain rfl h with echo | ⟨w, rfl, below⟩
        · exact .inl echo
        · rw [Node.Traced, Made.isOpenAlong_exportChain]
          exact (through below).imp_left (Made.isEcho_exportChain _)

end LiveBindings

end ModuleLowering
