import SimRelay.Toml.Number

/-!
# Toml/Document — documents as tables

A document is a sequence of lines: a key and its value, or a header that says in which table the
lines behind it define their keys. Arrays with items, arrays of tables, dates and booleans are not
read, since no setting has such a value: a document that holds one is refused. The readers take
fuel, for which the length of the document is enough.
-/

namespace SimRelay.Toml

/-! ## Values -/

/-- How deep tables in braces may stand in each other. -/
def maxDepth : Nat := 80

/-- A dotted key, an equals sign, and what `read` reads. -/
def pair? (fuel : Nat) (read : List Char → Option (Value × List Char)) (cs : List Char) :
    Option ((List String × Value) × List Char) := do
  let (path, rest) ← path? fuel cs
  match rest with
  | '=' :: rest =>
    let (v, rest) ← read (skipBlanks rest)
    return ((path, v), rest)
  | _ => none

/-- The rest of a table in braces that has entries already. -/
def inBraces (read : List Char → Option (Value × List Char)) :
    Nat → Table → List Char → Option (Value × List Char)
  | 0, _, _ => none
  | fuel + 1, t, cs => do
    let ((path, v), rest) ← pair? fuel read cs
    let t ← t.define path v
    match skipBlanks rest with
    | ',' :: rest => inBraces read fuel t rest
    | '}' :: rest => return (.table .braces t, rest)
    | _ => none

/-- A value, with tables in braces at most so deep. -/
def value? (fuel : Nat) : (depth : Nat) → List Char → Option (Value × List Char)
  | 0, _ => none
  | depth + 1, cs => match cs with
    | '"' :: _ | '\'' :: _ => (string? cs).map fun p => (.text p.1, p.2)
    | '[' :: rest => match skipLines fuel rest with
      | ']' :: rest => some (.emptyArray, rest)
      | _ => none
    | '{' :: rest => match skipBlanks rest with
      | '}' :: rest => some (.table .braces [], rest)
      | rest => inBraces (value? fuel depth) fuel [] rest
    | _ => number? cs

/-! ## Lines -/

/-- The rest of a header, and the end of its line. -/
def header? (fuel : Nat) (cs : List Char) : Option (List String × List Char) := do
  let (path, rest) ← path? fuel cs
  match rest with
  | ']' :: rest => return (path, ← lineEnd? rest)
  | _ => none

/-- A key with its value, and the end of their line. -/
def entry? (fuel : Nat) (cs : List Char) : Option ((List String × Value) × List Char) := do
  let (entry, rest) ← pair? fuel (value? fuel maxDepth) cs
  return (entry, ← lineEnd? rest)

/-- The rest of a document of which `t` has been read and `header` is the last header. -/
def lines? : Nat → (header : List String) → Table → List Char → Option Table
  | 0, _, _, _ => none
  | fuel + 1, header, t, cs => match lineEnd? cs with
    | some [] => some t
    | some rest => lines? fuel header t rest
    | none => match skipBlanks cs with
      | '[' :: rest => do
        let (path, rest) ← header? fuel rest
        lines? fuel path (← t.openAt path) rest
      | cs => do
        let ((path, v), rest) ← entry? fuel cs
        lines? fuel header (← t.defineAt header path v) rest

/-- The table that a document describes. A byte order mark in front does not count. -/
def ofDocument? (document : String) : Option Table :=
  let cs := match document.toList with
    | '\uFEFF' :: rest => rest
    | cs => cs
  lines? (cs.length + 1) [] [] cs

end SimRelay.Toml
