import StepMotion.Toml.Scalar
import StepMotion.Toml.Table
import StepMotion.Toml.Token

/-! A TOML document is read from its tokens: keys and values line by line, under headers that name
the table they go to. -/
namespace StepMotion.Toml

abbrev Item := List String × String × Value

namespace Document

def isBareKey (c : Char) : Bool := c.isAlphanum || c = '_' || c = '-'

def key? : Token → Option String
  | .word text => if text.all isBareKey then some (String.ofList text) else none
  | .quoted text false => some (String.ofList text)
  | _ => none

def keys? : List Token → Option (List String)
  | [token] => (key? token).map ([·])
  | token :: .dot :: rest => do return (← key? token) :: (← keys? rest)
  | _ => none

def isKeyToken : Token → Bool
  | .word _ | .quoted .. | .dot | .blank _ => true
  | _ => false

def isBlank : Token → Bool
  | .blank _ => true
  | _ => false

def isTrivia : Token → Bool
  | .blank _ | .newline => true
  | _ => false

def skipBlanks (tokens : List Token) : List Token := tokens.dropWhile isBlank

def skipTrivia (tokens : List Token) : List Token := tokens.dropWhile isTrivia

/-- A key has no more parts than this, and arrays and inline tables are nested no deeper. -/
def deepest : Nat := 80

def keyPath? (tokens : List Token) : Option ((List String × String) × List Token) := do
  let (front, rest) := tokens.span isKeyToken
  let keys ← keys? (front.filter (!isBlank ·))
  if deepest < keys.length then none
  return ((keys.dropLast, ← keys.getLast?), rest)

def plain : List Token → List Char × List Token
  | .word text :: rest => (plain rest).map (text ++ ·) id
  | .dot :: rest => (plain rest).map ('.' :: ·) id
  | .blank blank :: .word text :: rest => (plain rest).map (blank ++ text ++ ·) id
  | .blank blank :: .dot :: rest => (plain rest).map (blank ++ '.' :: ·) id
  | rest => ([], rest)

def scalar? (tokens : List Token) : Option (Value × List Token) := do
  let (text, rest) := plain tokens
  return (← Scalar.read? text, rest)

mutual

/-- The value in front. `depth` counts the levels that may still be opened, and `fuel` is no less
than twice the number of tokens. -/
def value? (fuel depth : Nat) (tokens : List Token) : Option (Value × List Token) :=
  match fuel, tokens with
  | 0, _ => none
  | _, .quoted text _ :: rest => some (.string (String.ofList text), rest)
  | fuel + 1, .openBracket :: rest => if depth = 0 then none else items? fuel (depth - 1) [] rest
  | fuel + 1, .openBrace :: rest => if depth = 0 then none else fields? fuel (depth - 1) [] rest
  | _, tokens => scalar? tokens

def items? (fuel depth : Nat) (items : List Value) (tokens : List Token) :
    Option (Value × List Token) :=
  match fuel, skipTrivia tokens with
  | 0, _ => none
  | _, .closeBracket :: rest => some (.array items.reverse, rest)
  | fuel + 1, tokens => do
    let (value, rest) ← value? fuel depth tokens
    match skipTrivia rest with
    | .comma :: rest => items? fuel depth (value :: items) rest
    | .closeBracket :: rest => some (.array (value :: items).reverse, rest)
    | _ => none

def fields? (fuel depth : Nat) (entries : Entries) (tokens : List Token) :
    Option (Value × List Token) :=
  match fuel, skipTrivia tokens with
  | 0, _ => none
  | _, .closeBrace :: rest => some (.table (Node.toValues entries), rest)
  | fuel + 1, tokens => do
    let ((path, key), rest) ← keyPath? tokens
    let rest ← match skipTrivia rest with
      | .equals :: rest => some rest
      | _ => none
    let (value, rest) ← value? fuel depth (skipTrivia rest)
    let entries ← entries.insert path key value
    match skipTrivia rest with
    | .comma :: rest => fields? fuel depth entries rest
    | .closeBrace :: rest => some (.table (Node.toValues entries), rest)
    | _ => none

end

def endLine? (tokens : List Token) : Option (List Token) :=
  match skipBlanks tokens with
  | [] => some []
  | .newline :: rest => some rest
  | _ => none

def item? (tokens : List Token) : Option (Item × List Token) := do
  let ((path, key), rest) ← keyPath? tokens
  match rest with
  | .equals :: rest =>
    let (value, rest) ← value? (2 * rest.length + 2) deepest (skipBlanks rest)
    return ((path, key, value), ← endLine? rest)
  | _ => none

inductive Header where
  | table (path : List String) (key : String)
  | tableItem (path : List String) (key : String)

def header? : List Token → Option (Header × List Token)
  | .openBracket :: .openBracket :: rest => do
    let ((path, key), rest) ← keyPath? rest
    match rest with
    | .closeBracket :: .closeBracket :: rest => return (.tableItem path key, ← endLine? rest)
    | _ => none
  | .openBracket :: rest => do
    let ((path, key), rest) ← keyPath? rest
    match rest with
    | .closeBracket :: rest => return (.table path key, ← endLine? rest)
    | _ => none
  | _ => none

/-- A header, `none` for the start of the document, with the items below it. -/
structure Section where
  header : Option Header
  items : List Item

def Section.addTo (part : Section) (entries : Entries) : Option Entries :=
  match part.header with
  | none => entries.insertAll part.items
  | some (.table path key) => entries.insertTable path key part.items
  | some (.tableItem path key) => entries.insertTableItem path key part.items

/-- Reads lines to the end, with the section that is open and the tables before it. Each line
takes a token at least. -/
def lines? (fuel : Nat) (part : Section) (entries : Entries) (tokens : List Token) :
    Option Entries :=
  match fuel, skipTrivia tokens with
  | _, [] => part.addTo entries
  | 0, _ => none
  | fuel + 1, .openBracket :: rest => do
    let entries ← part.addTo entries
    let (header, rest) ← header? (.openBracket :: rest)
    lines? fuel ⟨some header, []⟩ entries rest
  | fuel + 1, tokens => do
    let (item, rest) ← item? tokens
    lines? fuel { part with items := part.items ++ [item] } entries rest

/-- The entries of a document. A byte order mark in front of it means nothing. -/
def read? (text : String) : Option (List (String × Value)) := do
  let cs := match text.toList with
    | '\ufeff' :: cs => cs
    | cs => cs
  let tokens ← Token.scan? cs
  let entries ← lines? tokens.length ⟨none, []⟩ [] tokens
  return Node.toValues entries

end Document
end StepMotion.Toml
