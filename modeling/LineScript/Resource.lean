import LineScript.Text.Search

/-!
# Source files

A library holds source texts under the names of their files. Names are paths with `/` between the
components; two spellings of one path name the same file, because names are brought into a normal
form first.
-/

namespace LineScript

namespace FilePath

/-- What a path from the root of the file tree begins with. -/
def isAbsolute (path : List Char) : Bool :=
  match path with
  | '/' :: _ => true
  | _ => false

/-- Follows one more component of a path, where the components so far are in reverse order. Nothing
and `.` stay, `..` goes back one component. Above a path that is not absolute there is always
another `..`; above the root there is nothing. -/
def follow (absolute : Bool) (before : List (List Char)) (component : List Char) :
    List (List Char) :=
  if component == [] || component == ['.'] then before
  else if component == ['.', '.'] then
    match before with
    | last :: others =>
      if last != ['.', '.'] then others
      else if absolute then before
      else component :: before
    | [] => if absolute then [] else [component]
  else component :: before

/-- The components of the normal form of a path. -/
def components (path : List Char) : List (List Char) :=
  ((Text.split ['/'] path).foldl (follow (isAbsolute path)) []).reverse

/-- The normal form of a path. -/
def normalizeChars (path : List Char) : List Char :=
  let joined := Text.join ['/'] (components path)
  if isAbsolute path then '/' :: joined else joined

/-- The normal form of a path. -/
def normalize (path : String) : String :=
  String.ofList (normalizeChars path.toList)

/-- The directory that a path lies in: all in front of its last `/`. -/
def directory (path : List Char) : List Char :=
  match Text.lastIndexOf? ['/'] path with
  | some 0 => ['/']
  | some k => path.take k
  | none => []

/-- A path seen from a directory. -/
def within (dir : List Char) (path : List Char) : List Char :=
  if isAbsolute path || dir.isEmpty then path
  else if dir == ['/'] then '/' :: path
  else dir ++ '/' :: path

/-- The normal form of a path seen from the directory of a file. -/
def relativeTo (source path : String) : String :=
  let dir := directory (normalizeChars source.toList)
  String.ofList (normalizeChars (within dir path.toList))

end FilePath

/-- Source texts under the normal forms of their paths. -/
structure Library where
  files : List (String × String)
deriving DecidableEq, Inhabited

namespace Library

/-- The library without files. -/
def empty : Library := ⟨[]⟩

/-- Adds a file; it takes the place of one with the same name. -/
def insert (l : Library) (path source : String) : Library :=
  let key := FilePath.normalize path
  ⟨(key, source) :: l.files.filter (fun f => f.1 != key)⟩

/-- The library of the given files, of which later ones take the place of earlier ones. -/
def ofFiles (files : List (String × String)) : Library :=
  files.foldl (fun l f => l.insert f.1 f.2) empty

/-- The source text under a normal form. -/
def find? (l : Library) (key : String) : Option String :=
  (l.files.find? (fun f => f.1 == key)).map (·.2)

/-- The source text of a file. -/
def get? (l : Library) (path : String) : Option String :=
  l.find? (FilePath.normalize path)

/-- Whether there is such a file. -/
def has (l : Library) (path : String) : Bool :=
  (l.get? path).isSome

/-- The normal form of the path of a file seen from the directory of another one, if there is such a
file. -/
def resolve? (l : Library) (source path : String) : Option String :=
  let key := FilePath.relativeTo source path
  if (l.find? key).isSome then some key else none

end Library

end LineScript
