import SimRelay.Number.Digits

/-!
# Toml/Text — the words of TOML documents

Blanks, line ends, strings and keys as TOML 1.0 has them. The readers take a list of characters and
give what they read and what follows, or nothing if it is not of that form.
-/

namespace SimRelay.Toml

/-! ## Characters -/

def isBlank (c : Char) : Bool := c = ' ' || c = '\t'

/-- What a comment may hold: no control character but the tab. -/
def isPrintable (c : Char) : Bool :=
  c = '\t' || (0x20 ≤ c.toNat && c.toNat ≤ 0x7E) || 0x80 ≤ c.toNat

def isBareKeyChar (c : Char) : Bool := c.isAlphanum || c = '-' || c = '_'

def isHexDigit (c : Char) : Bool :=
  c.isDigit || ('a' ≤ c && c ≤ 'f') || ('A' ≤ c && c ≤ 'F')

def skipBlanks (cs : List Char) : List Char := cs.dropWhile isBlank

/-- What follows a line break. -/
def lineBreak? : List Char → Option (List Char)
  | '\n' :: rest => some rest
  | '\r' :: '\n' :: rest => some rest
  | _ => none

/-- What follows the end of a line: blanks, perhaps a comment, and a line break or the end. -/
def lineEnd? (cs : List Char) : Option (List Char) :=
  match skipBlanks cs with
  | [] => some []
  | '#' :: comment => match comment.dropWhile isPrintable with
    | [] => some []
    | rest => lineBreak? rest
  | rest => lineBreak? rest

/-- Skips blanks, line breaks and comments, over at most so many lines. -/
def skipLines : Nat → List Char → List Char
  | 0, cs => cs
  | fuel + 1, cs => match lineEnd? cs with
    | some [] => []
    | some rest => skipLines fuel rest
    | none => skipBlanks cs

/-! ## Strings -/

/-- The character behind a backslash and one letter. -/
def escaped? : Char → Option Char
  | 'b' => some '\x08'
  | 't' => some '\t'
  | 'n' => some '\n'
  | 'f' => some '\x0c'
  | 'r' => some '\r'
  | '"' => some '"'
  | '\\' => some '\\'
  | _ => none

/-- The character with this code point in hexadecimal. -/
def codePoint? (digits : List Char) : Option Char :=
  let n := Digits.spelled 16 digits
  if digits.all isHexDigit && decide n.isValidChar then some (Char.ofNat n) else none

/-- The rest of a string in double quotes. -/
def quoted : List Char → Option (List Char × List Char)
  | '"' :: rest => some ([], rest)
  | '\\' :: 'u' :: a :: b :: c :: d :: rest => do
    let x ← codePoint? [a, b, c, d]
    let (s, rest) ← quoted rest
    return (x :: s, rest)
  | '\\' :: 'U' :: a :: b :: c :: d :: e :: f :: g :: h :: rest => do
    let x ← codePoint? [a, b, c, d, e, f, g, h]
    let (s, rest) ← quoted rest
    return (x :: s, rest)
  | '\\' :: c :: rest => do
    let x ← escaped? c
    let (s, rest) ← quoted rest
    return (x :: s, rest)
  | c :: rest =>
    if isPrintable c then do
      let (s, rest) ← quoted rest
      return (c :: s, rest)
    else none
  | [] => none

/-- The rest of a string in single quotes. -/
def literal : List Char → Option (List Char × List Char)
  | '\'' :: rest => some ([], rest)
  | c :: rest =>
    if isPrintable c then do
      let (s, rest) ← literal rest
      return (c :: s, rest)
    else none
  | [] => none

/-- Where a string of several lines stands with respect to a backslash at the end of a line. -/
inductive Joint
  /-- In the text. -/
  | inside
  /-- Behind such a backslash, before its line break. -/
  | breaking
  /-- Behind the line break, in blank space that does not count. -/
  | skipping
  deriving DecidableEq

/-- The rest of a string in three double quotes. Up to two quotes may stand before the closing
ones. -/
def quotedLines : Joint → List Char → Option (List Char × List Char)
  | .breaking, '\n' :: rest => quotedLines .skipping rest
  | .breaking, '\r' :: '\n' :: rest => quotedLines .skipping rest
  | .breaking, c :: rest => if isBlank c then quotedLines .breaking rest else none
  | .skipping, '\n' :: rest => quotedLines .skipping rest
  | .skipping, '\r' :: '\n' :: rest => quotedLines .skipping rest
  | .skipping, ' ' :: rest => quotedLines .skipping rest
  | .skipping, '\t' :: rest => quotedLines .skipping rest
  | _, '"' :: '"' :: '"' :: '"' :: '"' :: rest => some (['"', '"'], rest)
  | _, '"' :: '"' :: '"' :: '"' :: rest => some (['"'], rest)
  | _, '"' :: '"' :: '"' :: rest => some ([], rest)
  | _, '\\' :: 'u' :: a :: b :: c :: d :: rest => do
    let x ← codePoint? [a, b, c, d]
    let (s, rest) ← quotedLines .inside rest
    return (x :: s, rest)
  | _, '\\' :: 'U' :: a :: b :: c :: d :: e :: f :: g :: h :: rest => do
    let x ← codePoint? [a, b, c, d, e, f, g, h]
    let (s, rest) ← quotedLines .inside rest
    return (x :: s, rest)
  | _, '\\' :: '\n' :: rest => quotedLines .skipping rest
  | _, '\\' :: '\r' :: '\n' :: rest => quotedLines .skipping rest
  | _, '\\' :: c :: rest =>
    if isBlank c then quotedLines .breaking rest
    else do
      let x ← escaped? c
      let (s, rest) ← quotedLines .inside rest
      return (x :: s, rest)
  | _, '\r' :: '\n' :: rest => do
    let (s, rest) ← quotedLines .inside rest
    return ('\n' :: s, rest)
  | _, c :: rest =>
    if isPrintable c || c = '\n' then do
      let (s, rest) ← quotedLines .inside rest
      return (c :: s, rest)
    else none
  | _, [] => none

/-- The rest of a string in three single quotes. -/
def literalLines : List Char → Option (List Char × List Char)
  | '\'' :: '\'' :: '\'' :: '\'' :: '\'' :: rest => some (['\'', '\''], rest)
  | '\'' :: '\'' :: '\'' :: '\'' :: rest => some (['\''], rest)
  | '\'' :: '\'' :: '\'' :: rest => some ([], rest)
  | '\r' :: '\n' :: rest => do
    let (s, rest) ← literalLines rest
    return ('\n' :: s, rest)
  | c :: rest =>
    if isPrintable c || c = '\n' then do
      let (s, rest) ← literalLines rest
      return (c :: s, rest)
    else none
  | [] => none

/-- A line break right behind the opening quotes does not count. -/
def skipFirstBreak (cs : List Char) : List Char := (lineBreak? cs).getD cs

def string? : List Char → Option (String × List Char)
  | '"' :: '"' :: '"' :: rest => named (quotedLines .inside (skipFirstBreak rest))
  | '"' :: rest => named (quoted rest)
  | '\'' :: '\'' :: '\'' :: rest => named (literalLines (skipFirstBreak rest))
  | '\'' :: rest => named (literal rest)
  | _ => none
where
  named (r : Option (List Char × List Char)) : Option (String × List Char) :=
    r.map fun p => (String.ofList p.1, p.2)

/-! ## Keys -/

/-- A key: bare, or in quotes of either kind. -/
def key? (cs : List Char) : Option (String × List Char) :=
  match cs with
  | '"' :: rest => string?.named (quoted rest)
  | '\'' :: rest => string?.named (literal rest)
  | _ =>
    let (name, rest) := cs.span isBareKeyChar
    if name.isEmpty then none else some (String.ofList name, rest)

/-- Keys joined by dots, with blanks around each; at most so many. -/
def path? : Nat → List Char → Option (List String × List Char)
  | 0, _ => none
  | fuel + 1, cs => do
    let (key, rest) ← key? (skipBlanks cs)
    match skipBlanks rest with
    | '.' :: rest =>
      let (path, rest) ← path? fuel rest
      return (key :: path, rest)
    | rest => return ([key], rest)

end SimRelay.Toml
