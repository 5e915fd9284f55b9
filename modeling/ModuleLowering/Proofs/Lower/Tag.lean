import ModuleLowering.Proofs.Lower.DefinedName
import ModuleLowering.Proofs.Lower.Redirect
import ModuleLowering.Proofs.Lower.Selection

/-!
The tags of elements. A tag is a word, or a path that starts with a variable. Looking up names,
renaming and making names live change what it starts with; the words behind that stay, and so does
the agreement of an element's two tags.
-/

set_option autoImplicit false

namespace ModuleLowering

inductive TagRoot where
  | word (name : String)
  | this
  | name (x : String) (ref : Reference)
  deriving DecidableEq, Repr

structure Tag where
  root : TagRoot
  path : List String
  deriving DecidableEq, Repr

def TagRoot.bare : TagRoot → TagRoot
  | .name x _ => .name x .none
  | root => root

def TagRoot.resolve (t : ScopeTable) (c : ScopeContext) : TagRoot → TagRoot
  | .name x _ => .name x (t.refer c x .value)
  | root => root

def TagRoot.rename (r : Renaming) : TagRoot → TagRoot
  | .name x ref => .name (r.referred ref x) ref
  | root => root

namespace Tag

def member (t : Tag) (p : String) : Tag := ⟨t.root, t.path ++ [p]⟩

def mapRoot (g : TagRoot → TagRoot) (t : Tag) : Tag := ⟨g t.root, t.path⟩

def bare (t : Tag) : Tag := t.mapRoot TagRoot.bare

end Tag

namespace Node

mutual

def tag? : Node → Option Tag
  | mk (.tagWord x) _ _ => some ⟨.word x, []⟩
  | mk .thisExpr _ _ => some ⟨.this, []⟩
  | mk (.tagRef x ref) _ _ => some ⟨.name x ref, []⟩
  | mk .tagMember _ ps => memberTag? ps
  | _ => none

def memberTag? : List Node → Option Tag
  | [object, mk (.word p) _ _] => object.tag?.map (·.member p)
  | _ => none

end

inductive IsTag : Node → Tag → Prop
  | word (x : String) (s : Option Span) (ps : List Node) :
    IsTag (mk (.tagWord x) s ps) ⟨.word x, []⟩
  | this (s : Option Span) (ps : List Node) : IsTag (mk .thisExpr s ps) ⟨.this, []⟩
  | name (x : String) (ref : Reference) (s : Option Span) (ps : List Node) :
    IsTag (mk (.tagRef x ref) s ps) ⟨.name x ref, []⟩
  | member {object : Node} {t : Tag} (s : Option Span) (p : String) (s' : Option Span)
    (ps : List Node) :
    IsTag object t → IsTag (mk .tagMember s [object, mk (.word p) s' ps]) (t.member p)

theorem IsTag.tag? {n : Node} {t : Tag} (h : n.IsTag t) : n.tag? = some t := by
  induction h with
  | word | this | name => rfl
  | member s p s' ps _ ih => rw [Node.tag?, memberTag?, ih, Option.map_some]

theorem isTag_of_tag? {n : Node} {t : Tag} (read : n.tag? = some t) : n.IsTag t := by
  induction n using Node.induction generalizing t with
  | step f s ps ih =>
    cases f
    case tagWord x =>
      cases read
      exact .word x s ps
    case thisExpr =>
      cases read
      exact .this s ps
    case tagRef x ref =>
      cases read
      exact .name x ref s ps
    case tagMember =>
      rw [tag?] at read
      unfold memberTag? at read
      split at read
      · next object p s' qs =>
        obtain ⟨t, below, rfl⟩ := Option.map_eq_some_iff.mp read
        exact .member s p s' qs (ih object List.mem_cons_self below)
      · cases read
    all_goals cases read

theorem tag?_bare (n : Node) : n.bare.tag? = n.tag?.map Tag.bare := by
  induction n using Node.induction with
  | step f s ps ih =>
    cases f
    case tagMember =>
      rcases ps with _ | ⟨object, _ | ⟨⟨g, s', qs⟩, _ | ⟨q, ps⟩⟩⟩
      case cons.cons.nil =>
        cases g
        case word p =>
          show (object.bare.tag?.map fun t => t.member p) =
            (object.tag?.map fun t => t.member p).map Tag.bare
          rw [ih object List.mem_cons_self]
          cases object.tag? <;> rfl
        all_goals rfl
      case cons.cons.cons => cases g <;> rfl
      all_goals rfl
    all_goals rfl

theorem IsTag.resolve {n : Node} {t : Tag} (h : n.IsTag t) (table : ScopeTable) (c : ScopeContext)
    (scope : ScopeId) :
    (n.resolve table c scope).IsTag (t.mapRoot (TagRoot.resolve table c)) := by
  induction h generalizing scope with
  | word x s ps => exact .word x s _
  | this s ps => exact .this s _
  | name x ref s ps => exact .name x _ s _
  | member s p s' ps _ ih => exact .member s p s' _ (ih (0 :: scope))

theorem IsTag.rename {n : Node} {t : Tag} (h : n.IsTag t) (r : Renaming) : (n.rename r).IsTag
    (t.mapRoot (TagRoot.rename r)) := by
  induction h with
  | word x s ps => exact .word x s _
  | this s ps => exact .this s _
  | name x ref s ps => exact .name _ ref s _
  | member s p s' ps _ ih => exact .member s p s' _ ih

/-- A tag that is looked up starts with what its name refers to there. -/
theorem IsTag.eq_of_stable {n : Node} {t : Tag} (h : n.IsTag t) {table : ScopeTable}
    {c : ScopeContext} {scope : ScopeId} (stable : n.resolve table c scope = n) :
    t = t.bare.mapRoot (TagRoot.resolve table c) := by
  have resolved := (h.resolve table c scope).tag?
  rw [stable, h.tag?] at resolved
  have root (root : TagRoot) : root.bare.resolve table c = root.resolve table c := by
    cases root <;> rfl
  refine (Option.some.inj resolved).trans ?_
  simp only [Tag.mapRoot, Tag.bare, root]

end Node

def Redirect.words : Redirect → List String
  | .binding _ => []
  | .member _ property => [property]

def Redirect.isSpelled (r : Redirect) : Bool := r.words.all isIdentifierName

namespace LiveBindings

variable (l : LiveBindings)

def liveTag (t : Tag) : Tag :=
  match t.root with
  | .name x ref =>
    match l.tagRedirect? x ref with
    | some r => ⟨.name r.object .none, r.words ++ t.path⟩
    | none => t
  | _ => t

theorem liveTag_member (t : Tag) (p : String) : l.liveTag (t.member p) =
    (l.liveTag t).member p := by
  obtain ⟨root, path⟩ := t
  cases root with
  | word | this => rfl
  | name x ref =>
    simp only [liveTag, Tag.member]
    cases l.tagRedirect? x ref with
    | none => rfl
    | some r => simp only [List.append_assoc]

theorem isTag_live {n : Node} {t : Tag} (h : n.IsTag t) (completes : Bool) :
    (n.live l completes).IsTag (l.liveTag t) := by
  induction h with
  | word x s ps => exact .word x s _
  | this s ps => exact .this s _
  | name x ref s ps =>
    simp only [Node.live, liveTag]
    cases l.tagRedirect? x ref with
    | none => exact .name x ref s ps
    | some r =>
      cases r with
      | binding b => exact .name b .none none []
      | member object property => exact .member none property none [] (.name object .none none [])
  | member s p s' ps _ ih =>
    rw [liveTag_member]
    exact .member s p s' _ ih

theorem tagRedirect?_eq_some_iff {x : String} {ref : Reference} {r : Redirect} :
    l.tagRedirect? x ref = some r ↔ l.redirect? x ref = some r ∧ r.isSpelled = true := by
  rw [tagRedirect?, Option.filter_eq_some_iff]
  refine and_congr_right fun _ => ?_
  cases r <;> simp [Redirect.isSpelled, Redirect.words]

end LiveBindings

end ModuleLowering
