/-!
Paths of modules, as they stand in `import` declarations.
-/

set_option autoImplicit false

namespace ModuleLowering

def afterLast (sep : Char) (cs : List Char) : List Char :=
  (cs.reverse.takeWhile (· != sep)).reverse

def beforeLast? (sep : Char) (cs : List Char) : Option (List Char) :=
  match cs.reverse.dropWhile (· != sep) with
  | [] => none
  | _ :: before => some before.reverse

/-- The file name of a path without directories and extension: `./lib/string-helpers.js` gives
`string-helpers`. A name that is only dots before its last dot keeps it. -/
def moduleBasename (path : String) : String :=
  let trimmed := (path.toList.reverse.dropWhile (· == '/')).reverse
  let base := afterLast '/' trimmed
  match beforeLast? '.' base with
  | some stem => if stem.any (· != '.') then String.ofList stem else String.ofList base
  | none => String.ofList base

end ModuleLowering
