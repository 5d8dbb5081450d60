import Schemata.FilePath
import Schemata.Record

/-!
Files and directories held in memory, and what reading a path answers.
-/

namespace Schemata

inductive Refusal where
  | isDirectory
  | notDirectory
  | nameTooLong
  | notPermitted

namespace Refusal

/-- The number of the refusal in the system's list of errors. -/
def number : Refusal → Nat
  | .isDirectory => 21
  | .notDirectory => 20
  | .nameTooLong => 36
  | .notPermitted => 13

def message : Refusal → String
  | .isDirectory => "Is a directory"
  | .notDirectory => "Not a directory"
  | .nameTooLong => "File name too long"
  | .notPermitted => "Permission denied"

end Refusal

inductive FileReading where
  | bytes (content : List UInt8)
  | notFound
  | refused (refusal : Refusal)

/-- The files below one directory by their paths; a directory has no content. -/
structure FileTree where
  files : Record (Option (List UInt8))

namespace FileTree

def find? (tree : FileTree) (parts : List String) : Option (Option (List UInt8)) :=
  if parts.isEmpty then some none
  else
    match List.find? (fun (path, _) => FilePath.parts path = parts) tree.files with
    | some (_, content) => some content
    | none =>
      if tree.files.any fun (path, _) => parts.isPrefixOf (FilePath.parts path) then some none
      else none

def longestName : Nat := 255

def longestPath : Nat := 4095

/-- Follows a path outside the tree, where there are directories above and nothing else. -/
def followOutside (parts : List String) : FileReading :=
  if parts.all (· = "..") then .refused .isDirectory else .notFound

/-- Follows a path part by part from a directory of the tree. -/
def follow (tree : FileTree) (reached : List String) : List String → FileReading
  | [] =>
    match tree.find? reached with
    | some (some content) => .bytes content
    | some none => .refused .isDirectory
    | none => .notFound
  | part :: rest =>
    match tree.find? reached with
    | some (some _) => .refused .notDirectory
    | none => .notFound
    | some none =>
      if longestName < FilePath.size part then .refused .nameTooLong
      else if part ≠ ".." then tree.follow (reached ++ [part]) rest
      else if reached.isEmpty then followOutside rest
      else tree.follow reached.dropLast rest

def read (tree : FileTree) (path : String) : FileReading :=
  if longestPath < FilePath.size path then .refused .nameTooLong
  else if FilePath.root path = "" then tree.follow [] (FilePath.parts path)
  else followOutside (FilePath.parts path)

end FileTree

end Schemata
