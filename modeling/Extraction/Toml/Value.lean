/-! Values of settings files, which are written in TOML. Arrays and times are values of no setting and
have no place here. A table remembers how it came about, because that decides what may be added to
it. -/
namespace Extraction

namespace Toml

/-- How a table came about: as a value in braces, under a header of its own, on the way of a longer
header, or on the way of a dotted name. -/
inductive Origin where
  | braces
  | header
  | implied
  | dotted
  deriving DecidableEq, Repr

end Toml

inductive Toml where
  | string (value : String)
  | integer (value : Int)
  | float (value : Float)
  | boolean (value : Bool)
  | table (origin : Toml.Origin) (entries : List (String × Toml))
  deriving Inhabited

namespace Toml

def replace (entries : List (String × Toml)) (name : String) (value : Toml) :
    List (String × Toml) :=
  entries.map fun e => if e.1 = name then (name, value) else e

/-- Gives a value to a dotted name. Tables on the way are those of other dotted names or are new. -/
def assign (entries : List (String × Toml)) (value : Toml) :
    List String → Option (List (String × Toml))
  | [] => none
  | [name] => if (entries.lookup name).isSome then none else some (entries ++ [(name, value)])
  | name :: path =>
    match entries.lookup name with
    | none => (assign [] value path).map fun inner => entries ++ [(name, .table .dotted inner)]
    | some (.table .dotted inner) =>
      (assign inner value path).map fun inner => replace entries name (.table .dotted inner)
    | some _ => none

/-- Opens the table of a header. It is new, or so far only implied by longer headers. -/
def openTable (entries : List (String × Toml)) : List String → Option (List (String × Toml))
  | [] => none
  | [name] =>
    match entries.lookup name with
    | none => some (entries ++ [(name, .table .header [])])
    | some (.table .implied inner) => some (replace entries name (.table .header inner))
    | some _ => none
  | name :: path =>
    match entries.lookup name with
    | none => (openTable [] path).map fun inner => entries ++ [(name, .table .implied inner)]
    | some (.table .braces _) => none
    | some (.table origin inner) =>
      (openTable inner path).map fun inner => replace entries name (.table origin inner)
    | some _ => none

/-- Gives a value to a dotted name in the table that was opened last. -/
def assignUnder (entries : List (String × Toml)) (value : Toml) (path : List String) :
    List String → Option (List (String × Toml))
  | [] => assign entries value path
  | name :: opened =>
    match entries.lookup name with
    | some (.table origin inner) =>
      (assignUnder inner value path opened).map fun inner =>
        replace entries name (.table origin inner)
    | _ => none

end Toml

end Extraction
