/-! The tokens of a TOML document. Quoted text is read here, with its escapes; every other word is
left as it stands. A comment gives no token, for it ends where its line ends. A document with a
character in a place where it may not stand has no tokens at all. -/
namespace StepMotion.Toml

inductive Token where
  | newline
  | blank (text : List Char)
  | dot
  | equals
  | comma
  | openBracket
  | closeBracket
  | openBrace
  | closeBrace
  /-- Characters without a meaning of their own. Which of them may stand in a key or a value is
  decided where one is read. -/
  | word (text : List Char)
  | quoted (text : List Char) (long : Bool)
  deriving DecidableEq, Repr

namespace Token

def isBlank (c : Char) : Bool := c = ' ' || c = '\t'

def isText (c : Char) : Bool := c = '\t' || (' ' ≤ c && c ≠ '\x7f')

/-- Characters that end a word. A quote only begins a token and does not end one. -/
def endsWord (c : Char) : Bool :=
  c ∈ ['.', '=', ',', '[', ']', '\x7b', '\x7d', '#', ' ', '\t', '\r', '\n']

def skipComment? (cs : List Char) : Option (List Char) :=
  let rest := cs.dropWhile isText
  if rest.head?.all fun c => c = '\n' || c = '\r' then some rest else none

def hexDigit? (c : Char) : Option Nat :=
  if c.isDigit then some (c.toNat - '0'.toNat)
  else if 'a' ≤ c ∧ c ≤ 'f' then some (c.toNat - 'a'.toNat + 10)
  else if 'A' ≤ c ∧ c ≤ 'F' then some (c.toNat - 'A'.toNat + 10)
  else none

def ofHex? (digits : List Char) : Option Char := do
  let n ← digits.foldlM (fun n c => (hexDigit? c).map (16 * n + ·)) 0
  if n.isValidChar then some (Char.ofNat n) else none

def escape? : Char → Option Char
  | 'b' => some '\x08'
  | 't' => some '\t'
  | 'n' => some '\n'
  | 'f' => some '\x0c'
  | 'r' => some '\r'
  | 'e' => some '\x1b'
  | '"' => some '"'
  | '\\' => some '\\'
  | _ => none

def prepend? (c : Option Char) (read : Option (List Char × List Char)) :
    Option (List Char × List Char) := do
  let (text, rest) ← read
  return ((← c) :: text, rest)

def basic? : List Char → Option (List Char × List Char)
  | [] => none
  | '"' :: rest => some ([], rest)
  | '\\' :: 'x' :: a :: b :: rest => prepend? (ofHex? [a, b]) (basic? rest)
  | '\\' :: 'u' :: a :: b :: c :: d :: rest => prepend? (ofHex? [a, b, c, d]) (basic? rest)
  | '\\' :: 'U' :: a :: b :: c :: d :: e :: f :: g :: h :: rest =>
    prepend? (ofHex? [a, b, c, d, e, f, g, h]) (basic? rest)
  | '\\' :: c :: rest => prepend? (escape? c) (basic? rest)
  | c :: rest => if isText c then prepend? (some c) (basic? rest) else none

def literal? : List Char → Option (List Char × List Char)
  | [] => none
  | '\'' :: rest => some ([], rest)
  | c :: rest => if isText c then prepend? (some c) (literal? rest) else none

/-- Up to two quotes directly before the three that close a long text belong to it. -/
def closing? (quote : Char) (cs : List Char) : Option (List Char × List Char) :=
  let quotes := (cs.takeWhile (· = quote)).length
  if quotes < 3 then none
  else
    let extra := min quotes 5 - 3
    some (List.replicate extra quote, cs.drop (extra + 3))

/-- What is left out between a backslash at the end of a line and the next text. -/
inductive Gap where
  | no
  | line
  | all
  deriving DecidableEq, Repr

def longBasic? (gap : Gap) : List Char → Option (List Char × List Char)
  | [] => none
  | '\r' :: '\n' :: rest =>
    if gap = .no then prepend? (some '\r') (prepend? (some '\n') (longBasic? .no rest))
    else longBasic? .all rest
  | '\n' :: rest =>
    if gap = .no then prepend? (some '\n') (longBasic? .no rest) else longBasic? .all rest
  | c :: rest =>
    if gap ≠ .no ∧ isBlank c then longBasic? gap rest
    else if gap = .line then none
    else if c = '"' then closing? '"' (c :: rest) <|> prepend? (some c) (longBasic? .no rest)
    else if c = '\\' then
      match rest with
      | 'x' :: a :: b :: rest => prepend? (ofHex? [a, b]) (longBasic? .no rest)
      | 'u' :: a :: b :: c :: d :: rest => prepend? (ofHex? [a, b, c, d]) (longBasic? .no rest)
      | 'U' :: a :: b :: c :: d :: e :: f :: g :: h :: rest =>
        prepend? (ofHex? [a, b, c, d, e, f, g, h]) (longBasic? .no rest)
      | c :: rest =>
        if c = '\n' then longBasic? .all rest
        else if isBlank c || c = '\r' then longBasic? .line (c :: rest)
        else prepend? (escape? c) (longBasic? .no rest)
      | [] => none
    else if isText c then prepend? (some c) (longBasic? .no rest)
    else none

def longLiteral? : List Char → Option (List Char × List Char)
  | [] => none
  | '\r' :: '\n' :: rest => prepend? (some '\r') (prepend? (some '\n') (longLiteral? rest))
  | c :: rest =>
    if c = '\'' then closing? '\'' (c :: rest) <|> prepend? (some c) (longLiteral? rest)
    else if isText c || c = '\n' then prepend? (some c) (longLiteral? rest)
    else none

def dropNewline : List Char → List Char
  | '\n' :: rest => rest
  | '\r' :: '\n' :: rest => rest
  | cs => cs

def next? : List Char → Option (Option Token × List Char)
  | [] => none
  | '\n' :: rest => some (some .newline, rest)
  | '\r' :: '\n' :: rest => some (some .newline, rest)
  | '.' :: rest => some (some .dot, rest)
  | '=' :: rest => some (some .equals, rest)
  | ',' :: rest => some (some .comma, rest)
  | '[' :: rest => some (some .openBracket, rest)
  | ']' :: rest => some (some .closeBracket, rest)
  | '\x7b' :: rest => some (some .openBrace, rest)
  | '\x7d' :: rest => some (some .closeBrace, rest)
  | '#' :: rest => (skipComment? rest).map (none, ·)
  | '"' :: '"' :: '"' :: rest =>
    (longBasic? .no (dropNewline rest)).map fun (text, rest) => (some (.quoted text true), rest)
  | '"' :: rest => (basic? rest).map fun (text, rest) => (some (.quoted text false), rest)
  | '\'' :: '\'' :: '\'' :: rest =>
    (longLiteral? (dropNewline rest)).map fun (text, rest) => (some (.quoted text true), rest)
  | '\'' :: rest => (literal? rest).map fun (text, rest) => (some (.quoted text false), rest)
  | c :: rest =>
    if isBlank c then
      some (some (.blank (c :: rest.takeWhile isBlank)), rest.dropWhile isBlank)
    else if endsWord c then none
    else
      let text := c :: rest.takeWhile (!endsWord ·)
      some (some (.word text), rest.dropWhile (!endsWord ·))

def scanWithin? : Nat → List Char → Option (List Token)
  | _, [] => some []
  | 0, _ :: _ => none
  | fuel + 1, cs => do
    let (token, rest) ← next? cs
    return token.toList ++ (← scanWithin? fuel rest)

def scan? (cs : List Char) : Option (List Token) := scanWithin? cs.length cs

end Token
end StepMotion.Toml
