import ModuleLowering.Text.Letters

/-!
Names: which characters they are made of, which words the grammar keeps for itself, and how a name
is made out of any text.
-/

set_option autoImplicit false

namespace ModuleLowering

def isAsciiLetter (c : Char) : Bool := ('a' ≤ c && c ≤ 'z') || ('A' ≤ c && c ≤ 'Z')

def isAsciiDigit (c : Char) : Bool := '0' ≤ c && c ≤ '9'

def isAsciiNameChar (c : Char) : Bool := isAsciiLetter c || isAsciiDigit c || c == '$' || c == '_'

def isNameStart (c : Char) : Bool :=
  isAsciiLetter c || c == '$' || c == '_' || (c.toNat ≥ 0x80 && inRanges letterRanges c)

/-- Besides letters, marks and digits, the two joiners may stand inside a name. -/
def isNamePart (c : Char) : Bool :=
  isNameStart c || isAsciiDigit c || c.toNat == 0x200C || c.toNat == 0x200D ||
    (c.toNat ≥ 0x80 && inRanges markRanges c)

def isIdentifierName (s : String) : Bool :=
  match s.toList with
  | [] => false
  | c :: cs => isNameStart c && cs.all isNamePart

def reservedWords : List String :=
  ["break", "case", "catch", "class", "const", "continue", "debugger", "default", "delete", "do",
   "else", "enum", "export", "extends", "false", "finally", "for", "function", "if", "import", "in",
   "instanceof", "new", "null", "return", "super", "switch", "this", "throw", "true", "try",
   "typeof",
   "var", "void", "while", "with"]

def isReserved (word : String) : Bool := reservedWords.contains word

/-- Drops separators, marked `-`, and raises the letter after each. -/
def joinWords : Bool → List Char → List Char
  | _, [] => []
  | raise, c :: cs =>
    if c == '-' then joinWords true cs
    else (if raise then c.toUpper else c) :: joinWords false cs

/-- A name made out of any text: `string-helpers` gives `stringHelpers`, and a text without a
letter gives `_`. -/
def toIdentifier (text : String) : String :=
  let marked := text.toList.map fun c => if isAsciiNameChar c then c else '-'
  let joined := joinWords false (marked.dropWhile fun c => c == '-' || isAsciiDigit c)
  if joined.isEmpty then "_" else String.ofList joined

end ModuleLowering
