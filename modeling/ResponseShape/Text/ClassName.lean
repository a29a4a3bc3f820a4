import ResponseShape.Text.CaseMapping

/-!
# Class names

Names of a schema and of operations are turned into names of the kind that generated classes
carry. A name is cut into words at its separators, `_` and `-`. Every word gets an upper-case
first character. A word without a lower-case letter, the usual style of enum values, is lowered
after its first character, and any other word keeps its remaining characters. So `RED` becomes
`Red`, `ORANGE_RED` becomes `OrangeRed` and `fooBar` becomes `FooBar`.

A name that has no word, because it is empty or made of separators, stays as it is.
-/

set_option autoImplicit false

namespace ResponseShape.Text

/-- The characters that separate the words of a name. -/
def isSeparator (character : Char) : Bool :=
  character == '_' || character == '-'

/-- The words of a name when `word` is what was read of the current one: the pieces between
separators, without the empty ones. -/
def wordsFrom (word : List Char) : List Char → List (List Char)
  | [] => if word.isEmpty then [] else [word]
  | character :: rest =>
      if isSeparator character then
        if word.isEmpty then wordsFrom [] rest else word :: wordsFrom [] rest
      else wordsFrom (word ++ [character]) rest

/-- The words of a name. -/
def words (name : List Char) : List (List Char) :=
  wordsFrom [] name

/-- A word is shouted when none of its characters is one of the letters `a` to `z`. -/
def isShouted (word : List Char) : Bool :=
  !word.any Char.isLower

/-- A word as a part of a class name. -/
def capitalize (word : List Char) : List Char :=
  match word with
  | [] => []
  | first :: rest => upper first ++ if isShouted word then rest.flatMap lower else rest

/-- The class name of a name. -/
def className (name : String) : String :=
  let characters := (words name.toList).flatMap capitalize
  if characters.isEmpty then name else String.ofList characters

end ResponseShape.Text
