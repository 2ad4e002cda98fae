import SsaKit.Error
import SsaKit.SymbolTable
/-!
Reading and writing files: on a disk, or in a directory in memory that obeys the same rules on
paths.
-/
namespace SsaKit

structure Files (m : Type → Type) where
  read : String → ExceptT Error m (List UInt8)
  write : String → List UInt8 → ExceptT Error m Unit

/-- Plain files by their paths. The directories above hold nothing but what is written there. -/
abbrev Directory := SymbolTable (List UInt8)

namespace Directory

/-- Where a path has led so far. -/
inductive Place where
  /-- A directory, by the text that leads to it. -/
  | directory (path : String)
  /-- A file, or a name without one. -/
  | entry (path : String)
  /-- A name without a file, and a slash behind it. -/
  | asDirectory
  /-- Behind a file. -/
  | throughFile
  /-- Behind a name without a file. -/
  | nowhere
  | tooLong

def maxName : Nat := 255
def maxPath : Nat := 4095

/-- Follow one part of a path; parts stand between slashes and may be empty. -/
def follow (d : Directory) (place : Place) (part : String) : Place :=
  match place with
  | .directory path =>
    if part = "" ∨ part = "." then place
    else if part = ".." then (if path = "/" then place else .directory ("../" ++ path))
    else if maxName < part.utf8ByteSize then .tooLong
    else .entry (path ++ part)
  | .entry path =>
    if d.contains path then .throughFile
    else if part = "" then .asDirectory
    else .nowhere
  | .asDirectory => if part = "" then place else .nowhere
  | place => place

def place (d : Directory) (path : String) : Place :=
  if maxPath < path.utf8ByteSize then .tooLong
  else (path.splitOn "/").foldl d.follow (.directory (if path.startsWith "/" then "/" else ""))

def missing : Error := .io "No such file or directory (os error 2)"
def notDirectory : Error := .io "Not a directory (os error 20)"
def isDirectory : Error := .io "Is a directory (os error 21)"
def nameTooLong : Error := .io "File name too long (os error 36)"

/-- The content of the file that a path leads to. -/
def content (d : Directory) (path : String) : Except Error (List UInt8) :=
  match d.place path with
  | .entry path => match d.find? path with
    | some bytes => .ok bytes
    | none => .error missing
  | .directory _ => .error isDirectory
  | .throughFile => .error notDirectory
  | .asDirectory | .nowhere => .error missing
  | .tooLong => .error nameTooLong

/-- The directory after a file was written. -/
def written (d : Directory) (path : String) (bytes : List UInt8) : Except Error Directory :=
  match d.place path with
  | .entry path => .ok (d.insert path bytes)
  | .directory _ | .asDirectory => .error isDirectory
  | .throughFile => .error notDirectory
  | .nowhere => .error missing
  | .tooLong => .error nameTooLong

def files : Files (StateM Directory) where
  read path := do
    match (← get).content path with
    | .ok bytes => return bytes
    | .error e => throw e
  write path bytes := do
    match (← get).written path bytes with
    | .ok d => set d
    | .error e => throw e

end Directory
end SsaKit
