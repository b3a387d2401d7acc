import Diagram.Chars.Lines
import Diagram.Failure

/-!
Files as a run sees them, and a store of files that paths are looked up in.
-/
namespace Diagram

/-- What a path leads to. -/
inductive File where
  | bytes (content : ByteArray)
  | directory
  | absent (error : FileError)

/-- There is a file or a directory. -/
def File.isThere : File → Bool
  | .bytes _ | .directory => true
  | .absent _ => false

/-- The text of a file. -/
def File.text : File → Except FileError String
  | .bytes content =>
    match String.fromUTF8? content with
    | some text => .ok text
    | none => .error .invalidText
  | .directory => .error .isDirectory
  | .absent error => .error error

/-- Files below a directory, each with the names that lead to it. -/
structure Store where
  files : List (List String × ByteArray)

namespace Store

/-- The names that a path is made of; it may hold empty ones. -/
def names (path : String) : List String :=
  (fields '/' path.toList).map String.ofList

/-- A name that leads nowhere else. -/
def isIdle (name : String) : Bool := name = "" || name = "."

/-- Stores files under paths without `..`. -/
def ofList (files : List (String × ByteArray)) : Store :=
  ⟨files.map fun (path, content) => ((names path).filter (!isIdle ·), content)⟩

/-- The longest name that a file can have, in bytes. -/
def maxName : Nat := 255

/-- The longest path, in bytes. -/
def maxPath : Nat := 4095

/-- What is found under a sequence of names. -/
def find (store : Store) (names : List String) : File :=
  match store.files.find? fun (n, _) => n = names with
  | some (_, content) => .bytes content
  | none =>
    if names = [] || store.files.any fun (n, _) => names.isPrefixOf n then .directory
    else .absent .notFound

/-- Follows names from a place below the directory, whose own names are given latest first. -/
def follow (store : Store) : (place : List String) → List String → File
  | place, [] => store.find place.reverse
  | place, name :: rest =>
    match store.find place.reverse with
    | .absent error => .absent error
    | .bytes _ => .absent .notDirectory
    | .directory =>
      if isIdle name then follow store place rest
      else if name = ".." then
        match place with
        | [] => if rest.all isIdle then .directory else .absent .notFound
        | _ :: place => follow store place rest
      else if maxName < name.utf8ByteSize then .absent .nameTooLong
      else follow store (name :: place) rest

/-- What a path leads to. Nothing is known of places outside the directory. -/
def lookup (store : Store) (path : String) : File :=
  if path.toList.contains '\x00' then .absent .invalidName
  else if path = "" || path.toList.head? = some '/' then .absent .notFound
  else if maxPath < path.utf8ByteSize then .absent .nameTooLong
  else store.follow [] (names path)

end Store

end Diagram
