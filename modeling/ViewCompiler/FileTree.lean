/-
**Files and the paths to them.**

A path is followed name by name, from the root if it begins with a slash and from the current
directory otherwise.  Each name but the last has to lead to a directory; of several faults the one
met first on the way counts.

Main definitions:

* `ViewCompiler.FileFault`, `ViewCompiler.decodeText` — why a file has no text;
* `ViewCompiler.pathNames` — the names that a path is made of;
* `ViewCompiler.FileTree` — files by the names that lead to them;
* `ViewCompiler.FileTree.follow`, `ViewCompiler.FileTree.read` — where a path leads, and the text
  found there.
-/

set_option autoImplicit false

namespace ViewCompiler

/-! ### Texts of files -/

/-- Why a file has no text. -/
inductive FileFault where
  | missing
  | notDirectory
  | directory
  | nameTooLong
  | notUnicode
  | other (description : String)
  deriving DecidableEq, Repr

def FileFault.message : FileFault → String
  | missing => "No such file or directory (os error 2)"
  | notDirectory => "Not a directory (os error 20)"
  | directory => "Is a directory (os error 21)"
  | nameTooLong => "File name too long (os error 36)"
  | notUnicode => "stream did not contain valid UTF-8"
  | other description => description

/-- The text that the bytes of a file stand for. -/
def decodeText (bytes : ByteArray) : Except FileFault String :=
  match String.fromUTF8? bytes with
  | some text => .ok text
  | none => .error .notUnicode

/-! ### Paths -/

/-- The names that a path is made of.  An empty one stands at each end that is a slash and between
two slashes. -/
def pathNames (path : String) : List String :=
  (path.toList.splitOn '/').map String.ofList

/-- The most bytes that one name can have. -/
def nameLimit : Nat := 255

/-- The most bytes that a path can have. -/
def pathLimit : Nat := 4095

/-- The name stands for the place where it is found. -/
def isCurrentName (name : String) : Bool :=
  name = "" || name = "."

/-! ### Trees of files -/

/-- Files, each under the names that lead to it from the root, and the directory where a path
without a slash in front begins. -/
structure FileTree where
  current : List String
  files : List (List String × ByteArray)

namespace FileTree

/-- Puts a file at a path below the current directory, in place of one that is there. -/
def put (t : FileTree) (path : String) (bytes : ByteArray) : FileTree :=
  let place := t.current ++ (pathNames path).filter (!isCurrentName ·)
  { t with files := (place, bytes) :: t.files }

/-- The bytes of the file at a place. -/
def bytes? (t : FileTree) (place : List String) : Option ByteArray :=
  t.files.lookup place

/-- A directory is where the current directory or a file lies in. -/
def isDirectory (t : FileTree) (place : List String) : Bool :=
  (t.bytes? place).isNone &&
    (place.isPrefixOf t.current || t.files.any fun file => place.isPrefixOf file.1)

/-- Where names lead from a place.  Two dots lead to the directory around, and from the root to
the root. -/
def follow (t : FileTree) (place : List String) : List String → Except FileFault (List String)
  | [] => .ok place
  | name :: more =>
      if !t.isDirectory place then
        .error (if (t.bytes? place).isSome then .notDirectory else .missing)
      else if isCurrentName name then t.follow place more
      else if name = ".." then t.follow place.dropLast more
      else if nameLimit < name.utf8ByteSize then .error .nameTooLong
      else t.follow (place ++ [name]) more

/-- The text at a place. -/
def readAt (t : FileTree) (place : List String) : Except FileFault String :=
  match t.bytes? place with
  | some bytes => decodeText bytes
  | none => .error (if t.isDirectory place then .directory else .missing)

/-- The place where a path begins. -/
def start (t : FileTree) (path : String) : List String :=
  if path.toList.head? = some '/' then [] else t.current

/-- The text of the file that a path leads to. -/
def read (t : FileTree) (path : String) : Except FileFault String :=
  if path = "" then .error .missing
  else if pathLimit < path.utf8ByteSize then .error .nameTooLong
  else (t.follow (t.start path) (pathNames path)).bind t.readAt

end FileTree

end ViewCompiler
