import ModuleLowering.Proofs.Lower.LivePath

/-!
The constructs of one kind in a tree. If it is a kind that the live pass does not write itself, they
are the same ones behind the pass, each with its parts made live.
-/

set_option autoImplicit false

namespace ModuleLowering

namespace Node

mutual

/-- The nodes of a tree whose forms satisfy `p`, in the order in which they begin. Names have
nothing below them. -/
def select (p : Form → Bool) : Node → List Node
  | mk f s ps =>
    (if p f then [mk f s ps] else []) ++ if f.isOccurrence then [] else selectInParts p ps

def selectInParts (p : Form → Bool) : List Node → List Node
  | [] => []
  | n :: ns => select p n ++ selectInParts p ns

end

theorem selectInParts_eq_flatMap (p : Form → Bool) (ns : List Node) :
    selectInParts p ns = ns.flatMap (select p) := by
  induction ns with
  | nil => rfl
  | cons n ns ih => rw [selectInParts, ih, List.flatMap_cons]

theorem select_mk (p : Form → Bool) (f : Form) (s : Option Span) (ps : List Node) :
    (mk f s ps).select p =
    (if p f then [mk f s ps] else []) ++ if f.isOccurrence then [] else ps.flatMap (select p) := by
  rw [select, selectInParts_eq_flatMap]

theorem select_of_parts {p : Form → Bool} {f : Form} (other : p f = false)
    (parted : f.isOccurrence = false) (s : Option Span) (ps : List Node) :
    (mk f s ps).select p = ps.flatMap (select p) := by
  rw [select_mk, other, parted]
  rfl

theorem form_of_mem_select {p : Form → Bool} {n e : Node} (among : e ∈ n.select p) :
    p e.form = true := by
  induction n using Node.induction with
  | step f s ps ih =>
    rw [select_mk, List.mem_append] at among
    rcases among with here | below
    · split at here
      · next kind =>
        rw [List.mem_singleton.mp here]
        exact kind
      · cases here
    · split at below
      · cases below
      · obtain ⟨q, part, inside⟩ := List.mem_flatMap.mp below
        exact ih q part inside

theorem anyFormOfParts_eq_false {p : Form → Bool} {ns : List Node} :
    anyFormOfParts p ns = false ↔ ∀ n ∈ ns, n.anyForm p = false := by
  induction ns with
  | nil => simp [anyFormOfParts]
  | cons n ns ih => simp [anyFormOfParts, ih]

theorem anyForm_mk_eq_false {p : Form → Bool} {f : Form} {s : Option Span} {ps : List Node} :
    (mk f s ps).anyForm p = false ↔ p f = false ∧ ∀ q ∈ ps, q.anyForm p = false := by
  rw [anyForm, Bool.or_eq_false_iff, anyFormOfParts_eq_false]

theorem select_eq_nil {p : Form → Bool} {n : Node} (none : n.anyForm p = false) :
    n.select p = [] := by
  induction n using Node.induction with
  | step f s ps ih =>
    obtain ⟨other, parts⟩ := anyForm_mk_eq_false.mp none
    have below : ps.flatMap (select p) = [] :=
      List.flatMap_eq_nil_iff.mpr fun q part => ih q part (parts q part)
    simp [select_mk, other, below]

/-- A change of names and marks leaves the constructs of a kind where they were. -/
theorem select_map {p : Form → Bool} {g : Node → Node} {h : Form → List Node → Form}
    (step : ∀ f s ps, g (mk f s ps) = mk (h f ps) s (ps.map g)) (kind : ∀ f ps, p (h f ps) = p f)
    (parted : ∀ f ps, (h f ps).isOccurrence = f.isOccurrence) (n : Node) : (g n).select p =
    (n.select p).map g := by
  induction n using Node.induction with
  | step f s ps ih =>
    have below : (ps.map g).flatMap (select p) = (ps.flatMap (select p)).map g := by
      rw [List.flatMap_map, List.map_flatMap]
      exact List.flatMap_congr fun q part => ih q part
    rw [step, select_mk, select_mk, kind, parted, List.map_append, below, ← step]
    split <;> split <;> rfl

end Node

def Form.isRewritten : Form → Bool
  | .ident .. | .target .. | .tagRef .. | .word _ | .string _ | .number _ | .member _ | .index
    _ | .assign _ | .update ..
  | .binary _ | .sequence | .tagMember => true
  | _ => false

/-- A kind of constructs that the live pass only goes through. -/
structure Form.IsPassedOver (p : Form → Bool) : Prop where
  other : ∀ f, f.isRewritten = true → p f = false
  stable : ∀ f ps, p (f.truthful ps) = p f

namespace LiveBindings

variable {l : LiveBindings} {p : Form → Bool} (kind : Form.IsPassedOver p)
include kind

theorem select_of_isRewritten {n : Node} (written : n.anyForm (fun f => !f.isRewritten) = false) :
    n.select p = [] := by
  refine Node.select_eq_nil ?_
  induction n using Node.induction with
  | step f s ps ih =>
    obtain ⟨form, parts⟩ := Node.anyForm_mk_eq_false.mp written
    exact Node.anyForm_mk_eq_false.mpr ⟨kind.other f (by simpa using form), fun q part => ih q part
      (parts q part)⟩

theorem select_member (object property : String) :
    (Made.member (Made.ident object) property).select p = [] := by
  refine select_of_isRewritten kind ?_
  unfold Made.member
  split <;> rfl

theorem select_exportChain (names : List String) (value : Node) :
    (Made.exportChain names value).select p = value.select p := by
  induction names generalizing value with
  | nil => rfl
  | cons name names ih =>
    have repeated : (Made.exportAssignment name value).select p = value.select p := by
      refine (Node.select_of_parts (kind.other _ rfl) rfl none _).trans ?_
      simp [select_member kind]
    exact (ih _).trans repeated

theorem select_toNode (r : Redirect) : r.toNode.select p = [] := by
  cases r with
  | binding => exact select_of_isRewritten kind rfl
  | member object property => exact select_member kind object property

theorem select_updateExpression (op : UpdateOp) (isPrefixed : Bool) (x : String) (ref : Reference)
    (names : List String) (isDropped : Bool) :
    (updateExpression op isPrefixed x ref names isDropped).select p = [] := by
  have step : (Made.exportChain names
      (.made (.assign (.combined op.forward)) [.made (.target x ref) [], Made.number 1])).select p =
      [] := by
    rw [select_exportChain kind]
    exact select_of_isRewritten kind rfl
  have back : (Node.made (.binary op.backward) [.made (.ident x ref) [], Made.number 1]).select p =
    [] :=
    select_of_isRewritten kind rfl
  rw [updateExpression_eq]
  dsimp only
  split
  · exact step
  · rw [Node.made, Node.select_of_parts (kind.other _ rfl) rfl]
    simp [step, back]

theorem select_name {f : Form} (rewritten : f.isRewritten = true) (name : f.isOccurrence = true)
    (s : Option Span) (ps : List Node) : (Node.mk f s ps).select p = [] := by
  rw [Node.select_mk, kind.other f rewritten, name]
  rfl

theorem select_liveAt_ident (completes : Bool) (position : Position) (x : String) (ref : Reference)
    (s : Option Span) (ps : List Node) :
    (l.liveAt completes position (.mk (.ident x ref) s ps)).select p = [] := by
  rw [liveAt_ident]
  cases l.redirect? x ref with
  | none => exact select_name kind rfl rfl s ps
  | some r =>
    dsimp only
    split
    · have number : (Made.number 0).select p = [] := select_of_isRewritten kind rfl
      rw [Made.detached, Node.made, Node.select_of_parts (kind.other _ rfl) rfl]
      simp [number, select_toNode kind]
    · exact select_toNode kind r

theorem select_liveAt_tagRef (completes : Bool) (position : Position) (x : String) (ref : Reference)
    (s : Option Span) (ps : List Node) :
    (l.liveAt completes position (.mk (.tagRef x ref) s ps)).select p = [] := by
  rw [liveAt_tagRef]
  cases l.tagRedirect? x ref with
  | none => exact select_name kind rfl rfl s ps
  | some r =>
    refine select_of_isRewritten kind ?_
    cases r <;> rfl

omit kind in
theorem forall₂_partsAt (completes : Bool) (position : Position) (f : Form) (ps : List Node) :
    List.Forall₂ (fun q q' => q ∈ ps ∧ ∃ completes position, q' = l.liveAt completes position q) ps
      (l.partsAt completes position f ps) := by
  refine List.forall₂_iff_get.mpr ⟨by simp [partsAt], fun i inside inside' => ?_⟩
  refine ⟨List.get_mem _ _, f.completes completes ps.length i, f.positionOf ps position i, ?_⟩
  simp [partsAt]

theorem select_liveAt (n : Node) (completes : Bool) (position : Position) :
    List.Forall₂ (fun q q' => ∃ completes position, q' = l.liveAt completes position q) (n.select p)
      ((l.liveAt completes position n).select p) := by
  induction n using Node.induction generalizing completes position with
  | step f s ps ih =>
    cases l.view (.mk f s ps) with
    | ident x ref s ps =>
      rw [select_liveAt_ident kind, select_name kind rfl rfl]
      exact .nil
    | tagRef x ref s ps =>
      rw [select_liveAt_tagRef kind, select_name kind rfl rfl]
      exact .nil
    | update op isPrefixed s x ref s' ps names exported =>
      rw [liveAt_update l exported, select_updateExpression kind, Node.select_of_parts
        (kind.other _ rfl) rfl, List.flatMap_cons, select_name kind rfl rfl]
      exact .nil
    | other f s ps notIdent notTag notUpdated =>
      have through := l.liveAt_other notIdent notTag notUpdated completes position
      have parts := List.rel_flatMap (l.forall₂_partsAt completes position f ps)
        fun q q' (related : q ∈ ps ∧ ∃ completes position, q' = l.liveAt completes position q) => by
          obtain ⟨among, completes, position, rfl⟩ := related
          exact ih q among completes position
      rw [through, select_exportChain kind, Node.select_mk, Node.select_mk, kind.stable,
        isOccurrence_truthful]
      refine List.rel_append ?_ ?_
      · split
        · next here =>
          -- Only assignments are repeated, and they are of another kind.
          have quiet : l.echoes (.mk f s ps) = [] := by
            cases f
            case assign op =>
              rw [kind.other _ rfl] at here
              cases here
            all_goals rfl
          rw [quiet] at through
          exact .cons ⟨completes, position, through.symm⟩ .nil
        · exact .nil
      · split
        · exact .nil
        · exact parts

end LiveBindings

end ModuleLowering
