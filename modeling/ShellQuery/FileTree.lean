import ShellQuery.Catalog
import ShellQuery.Text.Split

/-!
# Files and their headers

A tree of files below a working directory, looked up the way an operating system resolves a path:
one component after the other, `.` and an empty component staying where they are and `..` going up,
each of them from a directory only. Nothing is known about what lies outside the working directory
but its directories above.
-/

namespace ShellQuery

/-- Why the content of a file cannot be had. -/
inductive ReadFault where
  | noSuchFile
  | notDirectory
  | isDirectory
  | nameTooLong
  /-- The content is no text. -/
  | notText
  /-- Whatever else can go wrong. -/
  | other (reason : String)
deriving DecidableEq, Repr

namespace ReadFault

/-- The fault in words. -/
def message : ReadFault → String
  | noSuchFile => "No such file or directory (os error 2)"
  | notDirectory => "Not a directory (os error 20)"
  | isDirectory => "Is a directory (os error 21)"
  | nameTooLong => "File name too long (os error 36)"
  | notText => "stream did not contain valid UTF-8"
  | other reason => reason

end ReadFault

/-- The text that some bytes encode. -/
def textOfBytes (bytes : ByteArray) : Except ReadFault String :=
  match String.fromUTF8? bytes with
  | some text => .ok text
  | none => .error .notText

/-- The files and the empty directories below a working directory, by the components of their
paths. -/
structure FileTree where
  files : List (List String × ByteArray)
  directories : List (List String)

namespace FileTree

/-- A place that a path can lead to. -/
inductive Place where
  | file (content : ByteArray)
  /-- A directory, by the components of its path. -/
  | directory (path : List String)
  /-- A directory above the working directory. -/
  | outside

/-- The components of a path. -/
def components (path : String) : List String :=
  (Text.splitAll '/' path.toList).map String.ofList

/-- Whether the components of a path lead to a directory. -/
def isDirectory (t : FileTree) (path : List String) : Bool :=
  path.isEmpty || t.directories.any (path.isPrefixOf ·) ||
    t.files.any fun f => path.isPrefixOf f.1 && path != f.1

/-- What has the given name in a directory. -/
def child (t : FileTree) (directory : List String) (name : String) : Except ReadFault Place :=
  let path := directory ++ [name]
  match t.files.find? (·.1 == path) with
  | some f => .ok (.file f.2)
  | none => if t.isDirectory path then .ok (.directory path) else .error .noSuchFile

/-- Goes from a place along one component. -/
def step (t : FileTree) (place : Place) (component : String) : Except ReadFault Place :=
  match place with
  | .file _ => .error .notDirectory
  | .directory path =>
    if component = "" ∨ component = "." then .ok place
    else if component = ".." then
      .ok (if path.isEmpty then .outside else .directory path.dropLast)
    else if 255 < component.utf8ByteSize then .error .nameTooLong
    else t.child path component
  | .outside =>
    if component = "" ∨ component = "." ∨ component = ".." then .ok .outside
    else if 255 < component.utf8ByteSize then .error .nameTooLong
    else .error .noSuchFile

/-- Where a path leads. -/
def locate (t : FileTree) (path : String) : Except ReadFault Place :=
  if path.isEmpty then .error .noSuchFile
  else if 4096 ≤ path.utf8ByteSize then .error .nameTooLong
  else
    let start := if path.toList.head? = some '/' then .outside else .directory []
    (components path).foldlM t.step start

/-- The content of the file that a path leads to. -/
def read (t : FileTree) (path : String) : Except ReadFault ByteArray := do
  match ← t.locate path with
  | .file content => return content
  | _ => .error .isDirectory

end FileTree

/-! ### Headers -/

/-- The bytes of the first line, with the line feed that ends it. -/
def firstLine : List UInt8 → List UInt8
  | [] => []
  | b :: bs => if b = 10 then [b] else b :: firstLine bs

/-- Whether a character ends a line. -/
def isLineEnd (c : Char) : Bool :=
  c == '\n' || c == '\r'

/-- The fields of the header line of a file, if that line is text. -/
def headerFields (content : ByteArray) (delimiter : Char) : Option (List String) :=
  (String.fromUTF8? ⟨(firstLine content.toList).toArray⟩).map fun line =>
    let body := (line.toList.reverse.dropWhile isLineEnd).reverse
    (Text.splitAll delimiter body).map String.ofList

/-- The catalog of the headers of files. -/
def Catalog.ofFiles (read : String → Except ReadFault ByteArray) : Catalog :=
  ⟨fun path delimiter =>
    match read path with
    | .ok content => headerFields content delimiter
    | .error _ => none⟩

end ShellQuery
