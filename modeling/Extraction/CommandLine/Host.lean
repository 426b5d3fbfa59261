import Extraction.OrderedMap

/-! Where the command line runs: what it can do with files and the clock. A directory held in memory is
one such place. -/
namespace Extraction.CommandLine

class Host (m : Type → Type) where
  read : String → m (Option (List UInt8))
  /-- Gives a file new content, and says whether that was possible. -/
  write : String → String → m Bool
  /-- Adds to a file, which is made if need be, and says whether that was possible. -/
  append : String → String → m Bool
  /-- A clock in nanoseconds that never goes back. -/
  now : m Nat

/-- A directory without subdirectories, and the time of the last look at the clock. -/
structure Directory where
  files : OrderedMap String String
  clock : Nat

namespace Directory

def pathLimit : Nat := 4095

def nameLimit : Nat := 255

/-- The name of the file that a path leads to, if the path stays in the directory. On the way, a point is the
directory itself, and slashes that follow each other are one. -/
def name? (path : String) : Option String :=
  if path.startsWith "/" || pathLimit < path.utf8ByteSize then none
  else
    match (path.splitOn "/").dropWhile fun part => part = "" || part = "." with
    | [name] => if name = ".." || nameLimit < name.utf8ByteSize then none else some name
    | _ => none

def content? (d : Directory) (path : String) : Option String := (name? path).bind d.files.get?

def put (d : Directory) (path content : String) : Bool × Directory :=
  match name? path with
  | some name => (true, { d with files := d.files.insert name content })
  | none => (false, d)

/-- Each look at the clock takes a microsecond. -/
instance : Host (StateM Directory) where
  read path := fun d => ((d.content? path).map fun content => content.toUTF8.toList, d)
  write path content := fun d => d.put path content
  append path content := fun d => d.put path ((d.content? path).getD "" ++ content)
  now := fun d => (d.clock, { d with clock := d.clock + 1000 })

end Directory

end Extraction.CommandLine
