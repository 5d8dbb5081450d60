import Schemata.Text.CodePoint

/-!
Paths of files in their plain form: without empty parts and without parts that stand for the
directory itself.
-/

namespace Schemata.FilePath

def split (text : List Char) : List (List Char) :=
  text.foldr (fun c parts =>
    if c = '/' then [] :: parts
    else
      match parts with
      | [] => [[c]]
      | part :: rest => (c :: part) :: rest) [[]]

/-- The parts that say something. -/
def parts (path : String) : List String :=
  ((split path.toList).filter fun part => !(part.isEmpty || part = ['.'])).map String.ofList

/-- What an absolute path begins with: two slashes stay two, any other number is one. -/
def root (path : String) : String :=
  match path.toList with
  | '/' :: '/' :: '/' :: _ => "/"
  | '/' :: '/' :: _ => "//"
  | '/' :: _ => "/"
  | _ => ""

/-- The plain form of a path; that of the directory itself is a point. -/
def plain (path : String) : String :=
  let text := root path ++ "/".intercalate (parts path)
  if text = "" then "." else text

/-- Whether files can have a path; the character zero is in none. -/
def isNameable (path : String) : Bool := !path.toList.contains '\x00'

/-- The bytes that a code point takes in a path. Some surrogates stand for one byte, and the others have
none. -/
def byteSize? : Text.CodePoint → Option Nat
  | .char c => some c.utf8Size
  | .surrogate index => if 0x480 ≤ index.val && index.val < 0x500 then some 1 else none

def isEncodable (path : String) : Bool :=
  (Text.codePoints path).all fun point => (byteSize? point).isSome

def size (path : String) : Nat := ((Text.codePoints path).filterMap byteSize?).foldl (· + ·) 0

end Schemata.FilePath
