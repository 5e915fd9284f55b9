import ModuleLowering.Options.Decode

/-!
The grammar of options: which texts say something about them, and what. A text is an object or an
array with blanks around it; blanks may stand around every mark, and the characters of a key may be
escaped.
-/

set_option autoImplicit false

namespace ModuleLowering

namespace OptionsText

def IsBlank (cs : List Char) : Prop := ∀ c ∈ cs, Input.isSpace c = true

def IsHex (n : Nat) (cs : List Char) : Prop := cs.length = 4 ∧ natOfDigits? 16 cs = some n

/-- A character by its code, as it stands behind `\u`: one unit of sixteen bits that is no
surrogate, or two that are a pair of them. -/
inductive IsCode : Char → List Char → Prop where
  | unit {n : Nat} {cs : List Char} (hex : IsHex n cs) (whole : n < 0xD800 ∨ 0xDFFF < n) :
    IsCode (Char.ofNat n) cs
  | pair {high low : Nat} {cs ds : List Char} (first : IsHex high cs) (second : IsHex low ds)
      (isHigh : 0xD800 ≤ high ∧ high ≤ 0xDBFF) (isLow : 0xDC00 ≤ low ∧ low ≤ 0xDFFF) :
      IsCode (Char.ofNat ((high - 0xD800) * 0x400 + (low - 0xDC00) + 0x10000))
        (cs ++ '\\' :: 'u' :: ds)

def shortEscapes : List (Char × Char) :=
  [('"', '"'), ('\\', '\\'), ('/', '/'), ('b', '\x08'), ('f', '\x0c'), ('n', '\n'),
    ('r', '\r'), ('t', '\t')]

inductive IsEscape : Char → List Char → Prop where
  | short {mark c : Char} (known : shortEscapes.lookup mark = some c) : IsEscape c [mark]
  | code {c : Char} {cs : List Char} (coded : IsCode c cs) : IsEscape c ('u' :: cs)

inductive Spells : List Char → List Char → Prop where
  | nil : Spells [] []
  | plain {c : Char} {s cs : List Char} (notQuote : c ≠ '"') (notBackslash : c ≠ '\\')
      (visible : 0x20 ≤ c.toNat) (rest : Spells s cs) : Spells (c :: s) (c :: cs)
  | escaped {c : Char} {s cs ds : List Char} (escape : IsEscape c cs) (rest : Spells s ds) :
      Spells (c :: s) ('\\' :: (cs ++ ds))

def boolText : Bool → List Char
  | true => ['t', 'r', 'u', 'e']
  | false => ['f', 'a', 'l', 's', 'e']

def IsElement (b : Bool) (cs : List Char) : Prop := cs = boolText b

def Key.name : Key → String
  | strict => "strict"
  | loose => "loose"
  | addExports => "addExports"

def IsPair (pair : Key × Bool) (cs : List Char) : Prop :=
  ∃ name w w', Spells pair.1.name.toList name ∧ IsBlank w ∧ IsBlank w' ∧
    cs = '"' :: (name ++ '"' :: (w ++ ':' :: (w' ++ boolText pair.2)))

/-- What stands before a member of an object or array, which may be the first one. -/
def Leads : Bool → List Char → Prop
  | true, cs => IsBlank cs
  | false, cs => ∃ w w', IsBlank w ∧ IsBlank w' ∧ cs = w ++ ',' :: w'

inductive Lists {α : Type} (Member : α → List Char → Prop) (close : Char) :
    Bool → List α → List Char → Prop where
  | done {isFirst : Bool} {w : List Char} (blank : IsBlank w) : Lists Member close isFirst []
    (w ++ [close])
  | member {isFirst : Bool} {a : α} {as : List α} {lead cs ds : List Char}
      (leads : Leads isFirst lead) (here : Member a cs) (rest : Lists Member close false as ds) :
      Lists Member close isFirst (a :: as) (lead ++ (cs ++ ds))

/-- An object with different keys, in any order, or an array with one boolean for each of the first
options. What is not mentioned is off. -/
inductive IsValue : Options → List Char → Prop where
  | object {pairs : List (Key × Bool)} {cs : List Char} (listed : Lists IsPair '\x7d' true pairs cs)
      (distinct : (pairs.map Prod.fst).Nodup) :
      IsValue ⟨(.strict, true) ∈ pairs, (.loose, true) ∈ pairs, (.addExports, true) ∈ pairs⟩
        ('\x7b' :: cs)
  | array {bs : List Bool} {cs : List Char} (listed : Lists IsElement ']' true bs cs)
    (few : bs.length ≤ 3) :
      IsValue ⟨bs[0]? = some true, bs[1]? = some true, bs[2]? = some true⟩ ('[' :: cs)

def Says (text : String) (o : Options) : Prop :=
  ∃ w cs w', IsBlank w ∧ IsValue o cs ∧ IsBlank w' ∧ text.toList = w ++ (cs ++ w')

end OptionsText

end ModuleLowering
