import ModuleLowering.Text.Identifier
import ModuleLowering.Text.Numeral

/-!
Tokens and comments.
-/

set_option autoImplicit false

namespace ModuleLowering

inductive Token where
  /-- A name or keyword. One spelled with escapes is never a keyword. -/
  | word (name : String) (isEscaped : Bool)
  | privateWord (name : String)
  | punct (text : String)
  | number (value : Numeral) (raw : String)
  | bigint (digits : String)
  | string (value raw : String)
  /-- A chunk of a template up to the next hole, or up to the end if it is the last one. -/
  | template (raw : String) (isWellEscaped isLast : Bool)
  | regExp (pattern flags : String)
  | tagText (raw : String)
  | endOfText
  | bad
  deriving DecidableEq, Repr

structure Comment where
  isBlock : Bool
  text : String
  afterLineBreak : Bool
  beforeLineBreak : Bool
  /-- Start of the token that follows. -/
  anchor : Nat
  deriving DecidableEq, Repr

def isLineBreak (c : Char) : Bool :=
  c == '\n' || c == '\r' || c.toNat == 0x2028 || c.toNat == 0x2029

def isBlank (c : Char) : Bool :=
  c == ' ' || c == '\t' || c.toNat == 0x0B || c.toNat == 0x0C || c.toNat == 0xA0 ||
    c.toNat == 0xFEFF || c.toNat == 0x1680 || (0x2000 ≤ c.toNat && c.toNat ≤ 0x200A) ||
    c.toNat == 0x202F || c.toNat == 0x205F || c.toNat == 0x3000

def byteLength (cs : List Char) : Nat := cs.foldl (fun n c => n + c.utf8Size) 0

def hexValue? (c : Char) : Option Nat :=
  if isAsciiDigit c then some (c.toNat - '0'.toNat)
  else if 'a' ≤ c && c ≤ 'f' then some (c.toNat - 'a'.toNat + 10)
  else if 'A' ≤ c && c ≤ 'F' then some (c.toNat - 'A'.toNat + 10)
  else none

def digitValue? (base : Nat) (c : Char) : Option Nat :=
  (hexValue? c).filter (· < base)

/-- The value of a run of digits; `none` if one is not a digit of the base. -/
def natOfDigits? (base : Nat) (cs : List Char) : Option Nat :=
  cs.foldlM (fun n c => (digitValue? base c).map (n * base + ·)) 0

end ModuleLowering
