import SimRelay.Number.Binary64
import SimRelay.Pairs

/-!
# Toml/Value — values, and how tables grow

A document is a table that grows line by line. A table remembers how it came to be (`Origin`),
since that decides what may be added to it: a header opens a table once, and no longer when a
dotted key has made it; a dotted key extends only what dotted keys of the same section have made;
a table in braces is complete. A key is given a value once.
-/

namespace SimRelay.Toml

/-- How a table came to be. -/
inductive Origin
  /-- A header named it. -/
  | header
  /-- A longer header named it on the way. -/
  | passed
  /-- A dotted key named it on the way. -/
  | dotted
  /-- It was written in braces. -/
  | braces
  deriving DecidableEq, Repr

inductive Value
  | text (s : String)
  | integer (n : Int)
  | float (x : Binary64)
  /-- An array without items. Others are of no use to any setting, and are not read. -/
  | emptyArray
  | table (origin : Origin) (entries : List (String × Value))

/-- Keys with their values, each key once. -/
abbrev Table := List (String × Value)

/-- An array without items, or a table without entries. -/
def Value.isEmpty : Value → Bool
  | .emptyArray => true
  | .table _ entries => entries.isEmpty
  | _ => false

namespace Table

/-- Gives a value to a dotted key. -/
def define : (path : List String) → Value → Table → Option Table
  | [], _, _ => none
  | [key], v, t => match t.lookup key with
    | none => some (t ++ [(key, v)])
    | some _ => none
  | key :: path, v, t => match t.lookup key with
    | none => (define path v []).map fun sub => t ++ [(key, .table .dotted sub)]
    | some (.table .dotted sub) =>
      (define path v sub).map fun sub => setPair key (.table .dotted sub) t
    | some _ => none

/-- Opens the table that a header names. -/
def openAt : (path : List String) → Table → Option Table
  | [], _ => none
  | [key], t => match t.lookup key with
    | none => some (t ++ [(key, .table .header [])])
    | some (.table .passed sub) => some (setPair key (.table .header sub) t)
    | some _ => none
  | key :: path, t => match t.lookup key with
    | none => (openAt path []).map fun sub => t ++ [(key, .table .passed sub)]
    | some (.table .braces _) => none
    | some (.table origin sub) =>
      (openAt path sub).map fun sub => setPair key (.table origin sub) t
    | some _ => none

/-- Gives a value to a dotted key in the table that a header has opened. -/
def defineAt : (header path : List String) → Value → Table → Option Table
  | [], path, v, t => t.define path v
  | key :: header, path, v, t => match t.lookup key with
    | some (.table origin sub) =>
      (defineAt header path v sub).map fun sub => setPair key (.table origin sub) t
    | _ => none

end Table

end SimRelay.Toml
