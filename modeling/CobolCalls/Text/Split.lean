/-
  Cutting text at a separator.
-/

namespace CobolCalls.Text

/-- What stands between separators, empty pieces included. -/
def split (separator : Char) : List Char → List (List Char)
  | [] => [[]]
  | c :: rest =>
    if c == separator then [] :: split separator rest
    else
      match split separator rest with
      | [] => [[c]]
      | first :: others => (c :: first) :: others

/-- The two sides of the first separator; without one there is no second side. -/
def splitFirst (separator : Char) (text : List Char) : List Char × Option (List Char) :=
  (text.takeWhile (· != separator), (text.dropWhile (· != separator)).tail?)

end CobolCalls.Text
