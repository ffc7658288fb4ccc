import EffectGraph.Bytes.Basic
import EffectGraph.Table
/-!
# Commands and files

What a command does to files is a program of requests: `Script`. `Folder` is a set of files by
path, in which a script can be carried out without a file system; `Folder.follow` says where a path
leads there.
-/

namespace EffectGraph

/-- Why a file could not be used. -/
inductive FileError where
  | notFound
  | notDirectory
  | isDirectory
  | nameTooLong
  /-- Any other reason, in the words of the system. -/
  | other (reason : String)
  deriving DecidableEq

def FileError.text : FileError → String
  | notFound => "No such file or directory (os error 2)"
  | notDirectory => "Not a directory (os error 20)"
  | isDirectory => "Is a directory (os error 21)"
  | nameTooLong => "File name too long (os error 36)"
  | other reason => reason

/-- A program that reads and writes files. -/
inductive Script (α : Type) where
  /-- Ends with a result. -/
  | done (a : α)
  /-- Reads a file and goes on with its bytes. -/
  | read (path : String) (next : Except FileError Bytes → Script α)
  /-- Writes a file and goes on. -/
  | write (path : String) (content : Bytes) (next : Except FileError Unit → Script α)

namespace Script

/-- Carries out a script and then another that depends on its result. -/
def bind {α β : Type} : Script α → (α → Script β) → Script β
  | done a, f => f a
  | read path next, f => read path fun r => (next r).bind f
  | write path content next, f => write path content fun r => (next r).bind f

instance : Monad Script where
  pure := Script.done
  bind := Script.bind

end Script

/-! ## Folders -/

/-- The files that a command can reach, by the shortest path to each: its name, after `../` for each
step out of the folder in which the command is carried out, or after `/` if it lies at the root. No
folder lies below any of these. -/
abbrev Folder := Table String Bytes

namespace Folder

/-- Where a path leads. -/
inductive Target where
  /-- To a folder. -/
  | folder
  /-- To a name in the folder that `base` leads to, whether or not a file has that name. -/
  | file (base name : String)
  deriving DecidableEq

/-- The most bytes that a name may have. -/
def maxNameSize : Nat := 255

/-- The most bytes that a path may have. -/
def maxPathSize : Nat := 4095

/-- The parts of a path between slashes, without empty ones. -/
def parts (path : String) : List String :=
  ((path.toList.splitOn '/').map String.ofList).filter (· ≠ "")

/-- The path to the folder around the one that `base` leads to. Around the root is the root. -/
def outOf (base : String) : String := if base = "/" then base else base ++ "../"

/-- Follows the parts of a path from the folder that `base` leads to. A name before the last part
leads nowhere, since no folder has it. -/
def follow (f : Folder) (base : String) : List String → Except FileError Target
  | [] => .ok .folder
  | name :: rest =>
    if name = "." then follow f base rest
    else if name = ".." then follow f (outOf base) rest
    else if rest.isEmpty then .ok (.file base name)
    else if maxNameSize < name.utf8ByteSize then .error .nameTooLong
    else .error (if f.contains (base ++ name) then .notDirectory else .notFound)

/-- Where a path leads. -/
def locate (f : Folder) (path : String) : Except FileError Target :=
  if path = "" then .error .notFound
  else if maxPathSize < path.utf8ByteSize then .error .nameTooLong
  else f.follow (if path.startsWith "/" then "/" else "") (parts path)

/-- The bytes of a file. A slash at the end of a path asks for a folder. -/
def read (f : Folder) (path : String) : Except FileError Bytes := do
  match ← f.locate path with
  | .folder => .error .isDirectory
  | .file base name =>
    if maxNameSize < name.utf8ByteSize then .error .nameTooLong
    else
      match f.get? (base ++ name) with
      | none => .error .notFound
      | some content => if path.endsWith "/" then .error .notDirectory else .ok content

/-- The folder with a file written to it. What ends in a slash is taken for a folder before its name
is looked at, and a folder cannot be written. -/
def write (f : Folder) (path : String) (content : Bytes) : Except FileError Folder := do
  match ← f.locate path with
  | .folder => .error .isDirectory
  | .file base name =>
    if path.endsWith "/" then .error .isDirectory
    else if maxNameSize < name.utf8ByteSize then .error .nameTooLong
    else .ok (f.insert (base ++ name) content)

/-- Carries out a script in a folder. The answer is its result and the folder after it. -/
def perform {α : Type} : Script α → Folder → α × Folder
  | .done a, f => (a, f)
  | .read path next, f => perform (next (f.read path)) f
  | .write path content next, f =>
    match f.write path content with
    | .ok after => perform (next (.ok ())) after
    | .error e => perform (next (.error e)) f

end Folder

end EffectGraph
