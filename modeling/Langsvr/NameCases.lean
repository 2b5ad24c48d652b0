import Mathlib.Tactic.Common

/-!
# Names of declarations

How the generator makes C++ names from the names in the metamodel. The Unicode tables are a
parameter.
-/

namespace Langsvr

/-- The functions of package `unicode` that the generator uses. -/
structure Unicode where
  toUpper : Char → Char
  toLower : Char → Char
  toTitle : Char → Char
  isUpper : Char → Bool
  isNumber : Char → Bool
  isLetter : Char → Bool
  isDigit : Char → Bool
  isSpace : Char → Bool

namespace Unicode

variable (U : Unicode)

/-- The loop of `PascalCase`. -/
def pascalCase : Bool → List Char → List Char
  | _, [] => []
  | upper, r :: rs =>
    if r = '_' ∨ r = ' ' then pascalCase true rs
    else (if upper then U.toUpper r else r) :: pascalCase (U.isNumber r) rs

/-- The loop of `SnakeCase`. -/
def snakeCase : Bool → List Char → List Char
  | _, [] => []
  | wasUpper, r :: rs =>
    let nowUpper := U.isUpper r || U.isNumber r
    (if !wasUpper && nowUpper then ['_'] else []) ++ U.toLower r :: snakeCase nowUpper rs

/-- `isSeparator` of package `strings`. -/
def isSeparator (r : Char) : Bool :=
  if r.toNat ≤ 127 then !(r.isAlphanum || r == '_')
  else if U.isLetter r || U.isDigit r then false
  else U.isSpace r

/-- The loop of `strings.Title`. -/
def titleCase : Char → List Char → List Char
  | _, [] => []
  | prev, r :: rs => (if U.isSeparator prev then U.toTitle r else r) :: titleCase r rs

def snake (name : String) : String := String.ofList (U.snakeCase true name.toList)

/-- `strings.Title`. -/
def title (name : String) : String := String.ofList (U.titleCase ' ' name.toList)

def className (name : String) : String :=
  let name := name.toList
  let name := if name.head? = some '_' then name.dropWhile (· = '_') ++ "Base".toList else name
  let name := name.dropWhile (· = '$')
  let name := name.map fun r => if r = '/' then '_' else r
  String.ofList (U.pascalCase true name)

end Unicode

end Langsvr
