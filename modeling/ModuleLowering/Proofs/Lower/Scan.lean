import ModuleLowering.Lower.Scan

/-!
What the scan does with one statement: it checks the names that the statement shows to other
modules, and then the draft goes on in one of a few ways.
-/

set_option autoImplicit false

namespace ModuleLowering

theorem checkExports_singleton (x : String) (span : Option Span) :
    checkExports [(x, span)] = checkExport x span := by
  rw [checkExports]
  cases checkExport x span <;> rfl

namespace Node

def isTypeDefault (d : Node) : Bool :=
  d.isTypeOnly && (d.isFunctionDeclaration || d.isClassDeclaration || d.form == .interface)

def label (n : Node) : String × Option Span := (n.nameText, n.span)

def exposedBySpecifier? : Node → Option (String × Option Span)
  | .mk (.exportSpecifier _) _ [_, other] => some other.label
  | _ => none

/-- The names that an export declaration shows, with their places: that of a default function or
class, all that variables are declared under, that of any other declaration, and those that are
listed. Declarations that only exist as types show nothing. -/
def exposures : Node → List (String × Option Span)
  | .mk .exportDefault _ [d] =>
    if d.isTypeDefault then []
    else if d.isFunctionDeclaration || d.isClassDeclaration then d.declaredName?.toList
    else []
  | .mk .exportDeclaration _ [d] => if d.isTypeOnly then [] else d.exportedByDeclaration
  | .mk (.exportNamed false) _ specifiers => specifiers.filterMap exposedBySpecifier?
  | .mk (.exportFrom false _) _ parts => parts.filterMap exposedBySpecifier?
  | .mk (.exportAll false _) _ (name :: _) => if name.isAbsent then [] else [name.label]
  | _ => []

theorem specifierExports_eq (ns : List Node) :
    specifierExports ns = ns.filterMap exposedBySpecifier? := by
  refine congrArg (List.filterMap · ns) (funext fun n => ?_)
  unfold exposedBySpecifier?
  rfl

inductive IsErased : Node → Prop
  | default {s : Option Span} {d : Node} (isType : d.isTypeDefault = true) :
    IsErased (.mk .exportDefault s [d])
  | declaration {s : Option Span} {d : Node} (isType : d.isTypeOnly = true) :
    IsErased (.mk .exportDeclaration s [d])
  | names (s : Option Span) (ps : List Node) : IsErased (.mk (.exportNamed true) s ps)
  | namesFrom (path : String) (s : Option Span) (ps : List Node) :
    IsErased (.mk (.exportFrom true path) s ps)
  | all (path : String) (s : Option Span) (name : Node) (rest : List Node) :
      IsErased (.mk (.exportAll true path) s (name :: rest))
  | «namespace» (x : String) (s : Option Span) (ps : List Node) :
    IsErased (.mk (.exportNamespace x) s ps)

structure IsWhole (n : Node) : Prop where
  notImport : ∀ isType hasClause path s ps, n = .mk (.importDecl isType hasClause path) s ps → False
  notDefault : ∀ s d, n = .mk .exportDefault s [d] → False
  notDeclaration : ∀ s d, n = .mk .exportDeclaration s [d] → False
  notNames : ∀ isType s ps, n = .mk (.exportNamed isType) s ps → False
  notNamesFrom : ∀ isType path s ps, n = .mk (.exportFrom isType path) s ps → False
  notAll : ∀ isType path s name rest, n = .mk (.exportAll isType path) s (name :: rest) → False
  notAssigned : ∀ s e, n = .mk .exportAssignment s [e] → False
  notNamespace : ∀ x s ps, n = .mk (.exportNamespace x) s ps → False

theorem IsErased.exposures {n : Node} (h : n.IsErased) : n.exposures = [] := by
  cases h with
  | default isType | declaration isType => exact if_pos isType
  | names | namesFrom | all | «namespace» => rfl

theorem IsWhole.exposures {n : Node} (h : n.IsWhole) : n.exposures = [] :=
  exposures.eq_6 n h.notDefault h.notDeclaration (h.notNames false) (h.notNamesFrom false)
    (h.notAll false)

end Node

namespace Draft

def items (r : Draft) : List Item :=
  (arrange (r.header ++ r.top ++ r.body ++ r.footer)).map Prod.snd ++
    r.helpers.map fun (h, name) => .helperFunction h name

inductive Scans (hints : Hints) (r : Draft) : Node → Draft → Prop
  | imported (isType hasClause : Bool) (path : String) (s : Option Span) (parts : List Node) :
      Scans hints r (.mk (.importDecl isType hasClause path) s parts)
        (r.recordImport isType path s parts.dropLast (hints.priorityOf s))
  | erased {n : Node} (erased : n.IsErased) (log : List Event) : Scans hints r n { r with log }
  | default (s : Option Span) (d : Node) (runtime : d.isTypeDefault = false) :
      Scans hints r (.mk .exportDefault s [d]) ((r.exportDefault d s (hints.priorityOf s)).note
        .defaultExported)
  | declaration (s : Option Span) (d : Node) (runtime : d.isTypeOnly = false) :
      Scans hints r (.mk .exportDeclaration s [d])
        ({ r with hasExports := true }.exportDeclaration d (hints.priorityOf s))
  | names (s : Option Span) (specifiers : List Node) :
      Scans hints r (.mk (.exportNamed false) s specifiers)
        ({ r with hasExports := true }.exportNames specifiers)
  | namesFrom (path : String) (s : Option Span) (parts : List Node) :
      Scans hints r (.mk (.exportFrom false path) s parts)
        ({ r with hasExports := true }.reexport path parts.dropLast (hints.priorityOf s))
  | all (path : String) (s : Option Span) (name : Node) (rest : List Node) :
      Scans hints r (.mk (.exportAll false path) s (name :: rest))
        (r.exportAll path name s (hints.priorityOf s))
  | assigned (s : Option Span) (e : Node) :
      Scans hints r (.mk .exportAssignment s [e]) (r.keep (hints.priorityOf s) (.moduleExports e s))
  | whole {n : Node} (whole : n.IsWhole) :
    Scans hints r n (r.keep (hints.priorityOf n.span) (.kept n))

variable {hints : Hints} {r r' : Draft} {n : Node}

theorem exists_scans (hints : Hints) (r : Draft) (n : Node) :
    ∃ r', Scans hints r n r' ∧ r.scanStatement hints n = checkExports n.exposures >>= fun _ =>
      .ok r' := by
  have erased {n : Node} (h : n.IsErased) (log : List Event) : ∃ r', Scans hints r n r' ∧
      .ok { r with log } = checkExports n.exposures >>= fun _ => .ok r' :=
    ⟨_, .erased h log, by rw [h.exposures]; rfl⟩
  unfold scanStatement
  dsimp only
  -- The cases are those of the scan. It checks where `exposures` lists something, and nowhere else.
  split
  · exact ⟨_, .imported .., rfl⟩
  · next s d =>
    -- The scan spells out the condition that `isTypeDefault` has a name for.
    cases isType : d.isTypeDefault with
    | true =>
      exact (if_pos isType : ite (d.isTypeDefault = true) _ _ = _) ▸ erased (.default isType) _
    | false =>
      refine ⟨_, .default s d isType, (if_neg (Bool.eq_false_iff.mp isType)).trans ?_⟩
      rw [Node.exposures, isType]
      cases d.isFunctionDeclaration || d.isClassDeclaration <;> rfl
  · next s d =>
    cases isType : d.isTypeOnly with
    | true => exact erased (.declaration isType) _
    | false => exact ⟨_, .declaration s d isType, by rw [Node.exposures, isType]; rfl⟩
  · next isType s specifiers =>
    cases isType with
    | true => exact erased (.names ..) _
    | false => exact ⟨_, .names .., by rw [Node.specifierExports_eq]; rfl⟩
  · next isType path s parts =>
    cases isType with
    | true => exact erased (.namesFrom ..) _
    | false => exact ⟨_, .namesFrom .., by rw [Node.specifierExports_eq]; rfl⟩
  · next isType path s name rest =>
    cases isType with
    | true => exact erased (.all ..) _
    | false =>
      refine ⟨_, .all path s name rest, ?_⟩
      rw [Node.exposures]
      cases name.isAbsent with
      | true => rfl
      | false => exact congrArg (· >>= fun _ => _) (checkExports_singleton ..).symm
  · exact ⟨_, .assigned .., rfl⟩
  · exact erased (.namespace ..) _
  · next notImport notDefault notDeclaration notNames notNamesFrom notAll notAssigned
      notNamespace =>
    have whole : n.IsWhole :=
      ⟨notImport, notDefault, notDeclaration, notNames, notNamesFrom, notAll,
        notAssigned, notNamespace⟩
    exact ⟨_, .whole whole, by rw [whole.exposures]; rfl⟩

theorem Scans.of_ok (scanned : r.scanStatement hints n = .ok r') : Scans hints r n r' := by
  obtain ⟨q, scans, eq⟩ := exists_scans hints r n
  rw [eq] at scanned
  obtain ⟨_, _, done⟩ := bind_eq_ok_iff.mp scanned
  cases done
  exact scans

end Draft

end ModuleLowering
