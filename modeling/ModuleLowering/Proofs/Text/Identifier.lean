import Mathlib.Tactic.Tauto
import ModuleLowering.Text.Identifier

/-!
What a name that is made out of a text looks like, and what it keeps of the text: the characters
that names have, from the first one on that can start a name, each as a capital if it stood right
behind one that was left out.
-/

set_option autoImplicit false

namespace ModuleLowering

theorem toNat_lt_of_isAsciiNameChar {c : Char} (named : isAsciiNameChar c = true) :
    c.toNat < 128 := by
  simp only [isAsciiNameChar, isAsciiLetter, isAsciiDigit, Bool.or_eq_true, Bool.and_eq_true,
    decide_eq_true_eq, beq_iff_eq, Char.le_def, UInt32.le_iff_toNat_le] at named
  rcases named with (((lower | upper) | digit) | rfl) | rfl
  · exact Nat.lt_of_le_of_lt lower.2 (by decide)
  · exact Nat.lt_of_le_of_lt upper.2 (by decide)
  · exact Nat.lt_of_le_of_lt digit.2 (by decide)
  · decide
  · decide

theorem forall_isAsciiNameChar (P : Char → Prop)
    (all : ∀ n < 128, isAsciiNameChar (Char.ofNat n) = true → P (Char.ofNat n)) {c : Char}
    (named : isAsciiNameChar c = true) : P c := by
  have here := all c.toNat (toNat_lt_of_isAsciiNameChar named)
  rw [Char.ofNat_toNat] at here
  exact here named

theorem isAsciiNameChar_toUpper {c : Char} (named : isAsciiNameChar c = true) :
    isAsciiNameChar c.toUpper = true :=
  forall_isAsciiNameChar (fun c => isAsciiNameChar c.toUpper = true) (by decide) named

def isAsciiNameStart (c : Char) : Bool := isAsciiLetter c || c == '$' || c == '_'

def isAsciiName (text : String) : Bool :=
  text.toList.head?.any isAsciiNameStart && text.toList.all isAsciiNameChar

theorem isAsciiNameStart_iff {c : Char} : isAsciiNameStart c = true ↔ isAsciiNameChar c = true ∧
    isAsciiDigit c = false := by
  constructor
  · intro start
    have named : isAsciiNameChar c = true := by
      simp only [isAsciiNameStart, isAsciiNameChar, Bool.or_eq_true] at start ⊢
      tauto
    -- That the character is no digit is decided on each that names have.
    refine ⟨named, ?_⟩
    revert start
    exact forall_isAsciiNameChar (fun c => isAsciiNameStart c = true → isAsciiDigit c = false)
      (by decide) named
  · rintro ⟨named, noDigit⟩
    rwa [isAsciiNameChar, noDigit, Bool.or_false] at named

theorem beq_dash_of_isAsciiNameChar {c : Char} (named : isAsciiNameChar c = true) :
    (c == '-') = false := by
  rw [beq_eq_false_iff_ne]
  rintro rfl
  exact absurd named (by decide)

def withoutLead (text : String) : List Char :=
  text.toList.dropWhile fun c => !isAsciiNameChar c || isAsciiDigit c

/-- The characters of a list that names have, each with the character before it, if there is one. -/
def nameChars (before : Option Char) (cs : List Char) : List (Option Char × Char) :=
  ((before :: cs.map some).zip cs).filter fun p => isAsciiNameChar p.2

def raised (p : Option Char × Char) : Char :=
  if p.1.any (!isAsciiNameChar ·) then p.2.toUpper else p.2

theorem nameChars_cons (before : Option Char) (c : Char) (cs : List Char) :
    nameChars before (c :: cs) =
    if isAsciiNameChar c then (before, c) :: nameChars (some c) cs else nameChars (some c) cs :=
  List.filter_cons

theorem map_snd_nameChars (before : Option Char) (cs : List Char) :
    (nameChars before cs).map Prod.snd = cs.filter isAsciiNameChar := by
  induction cs generalizing before with
  | nil => rfl
  | cons c cs ih =>
    rw [nameChars_cons, List.filter_cons]
    split
    · rw [List.map_cons, ih]
    · exact ih _

/-- Whether a letter is to be raised is known from the character before it. -/
theorem joinWords_eq (before : Option Char) (cs : List Char) :
    joinWords (before.any (!isAsciiNameChar ·)) (cs.map fun c => if isAsciiNameChar c
      then c else '-') =
      (nameChars before cs).map raised := by
  -- The flag that is passed on tells whether the character before was left out, so the induction is
  -- for any such character.
  induction cs generalizing before with
  | nil => rfl
  | cons c cs ih =>
    have rest := ih (some c)
    rw [nameChars_cons, List.map_cons, joinWords]
    by_cases named : isAsciiNameChar c = true
    · have other := beq_dash_of_isAsciiNameChar named
      simp only [named, if_true, other, Bool.false_eq_true, if_false, List.map_cons,
        Option.any_some, Bool.not_true] at rest ⊢
      rw [rest, raised]
    · simp only [named, Bool.false_eq_true, if_false, beq_self_eq_true, if_true, Option.any_some,
        Bool.not_false] at rest ⊢
      exact rest

theorem toList_toIdentifier (text : String) : (toIdentifier text).toList =
    if nameChars none (withoutLead text) = [] then ['_'] else
    (nameChars none (withoutLead text)).map raised := by
  -- The separators are marked before the leading run is dropped, and the marks are dropped with it.
  have marked : ((fun c => c == '-' || isAsciiDigit c) ∘ fun c => if isAsciiNameChar c
    then c else '-') =
      fun c => !isAsciiNameChar c || isAsciiDigit c := by
    funext c
    by_cases named : isAsciiNameChar c = true
    · simp [named, beq_dash_of_isAsciiNameChar named]
    · simp [named]
  have joined := joinWords_eq none (withoutLead text)
  rw [Option.any_none, withoutLead, ← marked, ← List.dropWhile_map] at joined
  rw [toIdentifier, joined, withoutLead, ← marked]
  simp only [List.isEmpty_map, List.isEmpty_iff]
  split
  · rfl
  · exact String.toList_ofList

theorem isAsciiNameChar_of_mem_toIdentifier (text : String) :
    ∀ c ∈ (toIdentifier text).toList, isAsciiNameChar c = true := by
  intro c among
  rw [toList_toIdentifier] at among
  split at among
  · rw [List.mem_singleton.mp among]
    decide
  · obtain ⟨p, kept, rfl⟩ := List.mem_map.mp among
    have named : isAsciiNameChar p.2 = true := (List.mem_filter.mp kept).2
    unfold raised
    split
    · exact isAsciiNameChar_toUpper named
    · exact named

theorem isAsciiNameStart_of_withoutLead {text : String} {c : Char} {cs : List Char}
    (left : withoutLead text = c :: cs) :
    isAsciiNameStart c = true := by
  have stays := List.head?_dropWhile_not (fun c => !isAsciiNameChar c || isAsciiDigit c) text.toList
  rw [← withoutLead, left] at stays
  rw [isAsciiNameStart_iff]
  simpa using stays

theorem isAsciiName_toIdentifier (text : String) : isAsciiName (toIdentifier text) = true := by
  rw [isAsciiName, List.all_eq_true.mpr (isAsciiNameChar_of_mem_toIdentifier text), Bool.and_true,
    toList_toIdentifier]
  cases left : withoutLead text with
  | nil => rfl
  | cons c cs =>
    have start := isAsciiNameStart_of_withoutLead left
    simp [nameChars_cons, (isAsciiNameStart_iff.mp start).1, raised, start]

theorem map_raised_of_all (before : Option Char) {cs : List Char}
    (kept : before.all isAsciiNameChar = true) (named : ∀ c ∈ cs, isAsciiNameChar c = true) :
    (nameChars before cs).map raised = cs := by
  induction cs generalizing before with
  | nil => rfl
  | cons c cs ih =>
    obtain ⟨first, rest⟩ := List.forall_mem_cons.mp named
    have stays : raised (before, c) = c := by
      cases before with
      | none => rfl
      | some b => simp [raised, show isAsciiNameChar b = true from kept]
    rw [nameChars_cons, if_pos first, List.map_cons, stays, ih (some c) first rest]

theorem toIdentifier_of_isAsciiName {text : String} (name : isAsciiName text = true) :
    toIdentifier text = text := by
  rw [isAsciiName, Bool.and_eq_true] at name
  obtain ⟨start, named⟩ := name
  have whole : withoutLead text = text.toList := by
    unfold withoutLead
    cases chars : text.toList with
    | nil => rfl
    | cons c cs =>
      rw [chars] at start
      exact List.dropWhile_cons_of_neg (by simp [isAsciiNameStart_iff.mp start])
  have same := map_raised_of_all none rfl (List.all_eq_true.mp named)
  apply String.toList_injective
  rw [toList_toIdentifier, whole, if_neg, same]
  -- Something is left of the text, as a name has a first character.
  intro none
  rw [none] at same
  rw [← same] at start
  cases start

/-- Whatever the text, the name made out of it is one of ASCII characters, and such names are the
texts that stay as they are. What is left when the leading run and then all other characters that
names do not have are deleted is the name, but for capitals where a character was deleted right
before; where nothing is left, the name is `_`. -/
theorem toIdentifier_spells_name (text : String) :
    isAsciiName (toIdentifier text) = true ∧ (toIdentifier text = text ↔ isAsciiName text = true) ∧
    toIdentifier (toIdentifier text) = toIdentifier text ∧
    (nameChars none (withoutLead text)).map Prod.snd = (withoutLead text).filter isAsciiNameChar ∧
    (toIdentifier text).toList =
      if nameChars none (withoutLead text) = [] then ['_']
      else (nameChars none (withoutLead text)).map raised := by
  have name := isAsciiName_toIdentifier text
  refine ⟨name, ⟨fun same => same ▸ name, toIdentifier_of_isAsciiName⟩, toIdentifier_of_isAsciiName
    name, map_snd_nameChars none _, toList_toIdentifier text⟩

end ModuleLowering
