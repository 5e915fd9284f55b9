import ModuleLowering.Proofs.Lower.LiveTree

/-!
Where the live pass puts the parts of a tree. A part is found again on the way that led to it,
lengthened wherever a write around it is repeated on `exports`.
-/

set_option autoImplicit false

namespace ModuleLowering

def Form.isOccurrence : Form → Bool
  | .ident .. | .target .. | .tagRef .. => true
  | _ => false

/-- The part that a way leads to: at each node, the number of the part to go on with. -/
def Node.at? (n : Node) : List Nat → Option Node
  | [] => some n
  | i :: way => if n.form.isOccurrence then none else
    match n.parts[i]? with
    | some p => p.at? way
    | none => none

theorem Node.at?_cons (f : Form) (s : Option Span) (ps : List Node) (i : Nat) (way : List Nat) :
    (mk f s ps).at? (i :: way) = if f.isOccurrence then none else ps[i]?.bind fun p =>
      p.at? way := by
  simp only [at?, form, parts]
  cases ps[i]? <;> rfl

theorem Node.exists_of_at?_cons {f : Form} {s : Option Span} {ps : List Node} {i : Nat}
    {way : List Nat} {q : Node} (found : (mk f s ps).at? (i :: way) = some q) :
    f.isOccurrence = false ∧ ∃ p, ps[i]? = some p ∧ p.at? way = some q := by
  rw [at?_cons] at found
  split at found
  · cases found
  · next parted => exact ⟨by simpa using parted, Option.bind_eq_some_iff.mp found⟩

def Node.positionAt (n : Node) (position : Position) : List Nat → Position
  | [] => position
  | i :: way => match n.parts[i]? with
    | some p => p.positionAt (n.form.positionOf n.parts position i) way
    | none => .ordinary

namespace LiveBindings

variable (l : LiveBindings)

def descent (completes : Bool) (position : Position) (n : Node) : List Nat :=
  match l.updatedNames? n with
  | some names =>
    (if (n.form matches .update _ true) || (position = .statement && !completes)
      then [] else [0]) ++
      List.replicate names.length 1
  | none => List.replicate (l.echoes n).length 1

def place (completes : Bool) (position : Position) (n : Node) : List Nat → List Nat
  | [] => l.descent completes position n
  | i :: way => l.descent completes position n ++ i ::
    match n.parts[i]? with
    | some p =>
      place (n.form.completes completes n.parts.length i) (n.form.positionOf n.parts position i) p
        way
    | none => way

theorem at?_exportChain (names : List String) (value : Node) (way : List Nat) :
    (Made.exportChain names value).at? (List.replicate names.length 1 ++ way) = value.at? way := by
  induction names generalizing value way with
  | nil => rfl
  | cons name names ih =>
    rw [List.length_cons, List.replicate_succ', List.append_assoc]
    exact ih (Made.exportAssignment name value) (1 :: way)

def step (op : UpdateOp) (x : String) (ref : Reference) : Node :=
  .made (.assign (.combined (match op with | .increment => .add | .decrement => .subtract)))
    [.made (.target x ref) [], Made.number 1]

theorem at?_updateExpression (op : UpdateOp) (isPrefixed : Bool) (x : String) (ref : Reference)
    (names : List String) (isDropped : Bool) (way : List Nat) :
    (updateExpression op isPrefixed x ref names isDropped).at?
      ((if isPrefixed || isDropped then [] else [0]) ++ List.replicate names.length 1 ++ way) =
      (step op x ref).at? way := by
  have echo := at?_exportChain names (step op x ref) way
  cases op <;> cases isPrefixed <;> cases isDropped <;> exact echo

theorem isOccurrence_truthful (f : Form) (ps : List Node) :
    (f.truthful ps).isOccurrence = f.isOccurrence := by
  unfold Form.truthful
  split <;> rfl

theorem at?_liveAt_part {f : Form} {s : Option Span} {ps : List Node}
    (notUpdated : l.updatedNames? (.mk f s ps) = none) (parted : f.isOccurrence = false) {i : Nat}
    {p : Node} (child : ps[i]? = some p) (completes : Bool) (position : Position) (way : List Nat) :
    (l.liveAt completes position (.mk f s ps)).at?
        (List.replicate (l.echoes (.mk f s ps)).length 1 ++ i :: way) =
      (l.liveAt (f.completes completes ps.length i) (f.positionOf ps position i) p).at? way := by
  have part : (l.partsAt completes position f ps)[i]? =
      some (l.liveAt (f.completes completes ps.length i) (f.positionOf ps position i) p) := by
    simp [partsAt, List.getElem?_mapIdx, child]
  have notIdent : ∀ x ref, f ≠ .ident x ref := by
    rintro x ref rfl
    cases parted
  have notTag : ∀ x ref, f ≠ .tagRef x ref := by
    rintro x ref rfl
    cases parted
  rw [liveAt_other l notIdent notTag notUpdated, at?_exportChain, Node.at?_cons,
    isOccurrence_truthful, parted, part]
  rfl

/-- The part at the end of a way is found again, as the pass leaves it; or it is the variable of an
update, which is written anew. -/
theorem at?_place {n : Node} {way : List Nat} {p : Node} (found : n.at? way = some p)
    (completes : Bool) (position : Position) :
    (∃ completes', (l.liveAt completes position n).at? (l.place completes position n way) =
      (l.liveAt completes' (n.positionAt position way) p).at?
        (l.descent completes' (n.positionAt position way) p)) ∨
    ∃ x ref names, p.form = .target x ref ∧ l.exportedNames? x ref = some names ∧
      (l.liveAt completes position n).at? (l.place completes position n way) =
      some (.made (.target x ref) []) := by
  induction way generalizing n completes position with
  | nil =>
    cases found
    exact .inl ⟨completes, rfl⟩
  | cons i way ih =>
    cases l.view n with
    | ident | tagRef => cases found
    | update op isPrefixed s x ref s' ps names exported =>
      -- Only the variable itself is below the update.
      obtain ⟨-, q, child, below⟩ := Node.exists_of_at?_cons found
      obtain ⟨rfl, rfl⟩ : i = 0 ∧ q = .mk (.target x ref) s' ps := by
        cases i with
        | zero => exact ⟨rfl, (Option.some.inj child).symm⟩
        | succ i => cases child
      cases way with
      | cons j way => cases below
      | nil =>
        cases below
        refine .inr ⟨x, ref, names, rfl, exported, ?_⟩
        have way : l.place completes position
          (.mk (.update op isPrefixed) s [.mk (.target x ref) s' ps]) [0] =
            (if isPrefixed || (position = .statement && !completes) then [] else [0]) ++
              List.replicate names.length 1 ++ [0] := by
          cases isPrefixed <;> simp [place, descent, updatedNames?, exported, Node.parts,
            Node.form, echoes]
        rw [liveAt_update l exported, way, at?_updateExpression]
        rfl
    | other f s ps notIdent notTag notUpdated =>
      obtain ⟨parted, q, child, below⟩ := Node.exists_of_at?_cons found
      rw [place, descent, notUpdated, Node.positionAt, Node.parts, child]
      dsimp only [Node.form]
      rw [l.at?_liveAt_part notUpdated parted child]
      exact ih below _ _

end LiveBindings

end ModuleLowering
