import LittleMan.Binary.Bytes

/-!
# Files and paths

A folder of files by name, which is all that the command line touches.  A path is
a name with folders in front.  There are no folders inside this one, so a path that
goes into one leads nowhere; a path may go up to the folders around, and a file
there is named by the way to it.
-/

namespace LittleMan

inductive FileError where
  | notFound
  | notFolder
  | isFolder
  | nameTooLong
  | notText
  | other (text : String)
deriving DecidableEq, Repr

def FileError.message : FileError → String
  | .notFound => "No such file or directory (os error 2)"
  | .notFolder => "Not a directory (os error 20)"
  | .isFolder => "Is a directory (os error 21)"
  | .nameTooLong => "File name too long (os error 36)"
  | .notText => "stream did not contain valid UTF-8"
  | .other text => text

namespace Path

/-- The parts of a path between its slashes, given the part being read. -/
def partsFrom (part : List Char) : List Char → List (List Char)
  | [] => [part.reverse]
  | '/' :: rest => part.reverse :: partsFrom [] rest
  | c :: rest => partsFrom (c :: part) rest

def parts (path : String) : List (List Char) :=
  (partsFrom [] path.toList).filter fun part => !part.isEmpty

def endsWithSlash (path : String) : Bool :=
  path.toList.getLast? == some '/'

def here : List Char :=
  ['.']

def upwards : List Char :=
  ['.', '.']

def maxName : Nat :=
  255

def maxPath : Nat :=
  4095

/-- What follows the last dot of a name, unless the name starts with that dot. -/
def afterDot (name : List Char) : Option (List Char) :=
  let ending := name.reverse.takeWhile (· != '.')
  match name.reverse.dropWhile (· != '.') with
  | _ :: _ :: _ => some ending.reverse
  | _ => none

def extension? (path : String) : Option String :=
  match (parts path).getLast? with
  | none => none
  | some name => if name = upwards then none else (afterDot name).map String.ofList

end Path

structure Folder where
  files : List (String × Bytes) := []

namespace Folder

/-- The error of a path that goes through a name as if it were a folder. -/
def through (folder : Folder) (name : String) : FileError :=
  if (folder.files.lookup name).isSome then .notFolder else .notFound

/-- The name that the parts of a path lead to, given the way up to where they start. -/
def follow (folder : Folder) (way : String) : List (List Char) → Except FileError String
  | [] => .error .isFolder
  | part :: rest =>
      if part = Path.here then folder.follow way rest
      else if part = Path.upwards then
        folder.follow (if way = "/" then way else way ++ "../") rest
      else
        let name := String.ofList part
        if Path.maxName < name.utf8ByteSize then .error .nameTooLong
        else if rest.isEmpty then .ok (way ++ name)
        else .error (folder.through (way ++ name))

def locate (folder : Folder) (path : String) : Except FileError String :=
  if path.isEmpty then .error .notFound
  else if Path.maxPath < path.utf8ByteSize then .error .nameTooLong
  else folder.follow (if path.toList.head? = some '/' then "/" else "") (Path.parts path)

def read (folder : Folder) (path : String) : Except FileError Bytes := do
  let name ← folder.locate path
  if Path.endsWithSlash path then throw (folder.through name)
  match folder.files.lookup name with
  | some bytes => return bytes
  | none => throw .notFound

/-- Writes a file anew.  No file is made under a name that is asked to be a folder. -/
def write (folder : Folder) (path : String) (bytes : Bytes) : Except FileError Folder := do
  let name ← folder.locate path
  if Path.endsWithSlash path then throw .isFolder
  return { files := (name, bytes) :: folder.files.filter fun file => file.1 != name }

end Folder

def Bytes.text (bytes : Bytes) : Except FileError String :=
  match String.fromUTF8? { data := bytes.toArray } with
  | some text => .ok text
  | none => .error .notText

end LittleMan
