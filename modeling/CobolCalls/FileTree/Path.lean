import CobolCalls.Text.Split

/-
  Paths as text. Slashes part the names; several slashes in a row count as one, and a dot names
  the folder it stands in.
-/

namespace CobolCalls.Path

/-- The names along a path, single and double dots included. -/
def parts (path : String) : List String :=
  ((Text.split '/' path.toList).filter (!·.isEmpty)).map String.ofList

def isAbsolute (path : String) : Bool := path.toList.head? == some '/'

def endsInSlash (path : String) : Bool := path.toList.getLast? == some '/'

/-- The names along a path that count. -/
def names (path : String) : List String := (parts path).filter (· != ".")

/-- What paths are compared by: whether they start at the root or with a dot, and the names that
count. -/
def components (path : String) : List String :=
  if isAbsolute path then "/" :: names path
  else if (parts path).head? == some "." then "." :: names path
  else names path

/-- The last name along a path, if it names an entry of a folder. -/
def name? (path : String) : Option String :=
  match (names path).getLast? with
  | some ".." => none
  | last => last

/-- The text of a path up to its last name. -/
def above (path : String) : String :=
  let trimmed := List.dropWhile fun piece : List Char => piece.isEmpty || piece == ['.']
  let pieces := trimmed (trimmed (Text.split '/' path.toList).reverse).tail
  "/".intercalate (pieces.reverse.map String.ofList)

/-- A folder as a walk names it: by its last name, or by the whole path if that is none. -/
def walkName (path : String) : String := (name? path).getD path

/-- A path below another one. -/
def join (path : String) (below : List String) : String :=
  if below.isEmpty then path
  else
    let separator := if endsInSlash path then "" else "/"
    path ++ separator ++ "/".intercalate below

/-- The path that leads along names from the root. -/
def absolute (names : List String) : String := join "/" names

/-- The path with forward slashes only. -/
def withForwardSlashes (path : String) : String :=
  String.ofList (path.toList.map fun c => if c == '\\' then '/' else c)

/-- A file name before and after its last dot. A dot in front parts nothing, so a hidden file
without a second dot is all stem. -/
def splitName (name : String) : String × Option String :=
  let reversed := name.toList.reverse
  match reversed.dropWhile (· != '.') with
  | _ :: before =>
    if before.isEmpty || name == ".." then (name, none)
    else
      (String.ofList before.reverse,
        some (String.ofList (reversed.takeWhile (· != '.')).reverse))
  | [] => (name, none)

def stem (name : String) : String := (splitName name).1

def extension? (name : String) : Option String := (splitName name).2

end CobolCalls.Path
