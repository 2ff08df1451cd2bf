import Aggregation.Text.Numeral
import Aggregation.Text.Hex

/-! JSON texts as trees of lexemes. The tree keeps what the text says before it is given a meaning:
numbers as digits, strings as characters and UTF-16 units, every member of an object including repeated
ones. What a number or a string means, and how deep containers may nest, is decided by the readers of
the tree, so that parts of a text which nobody reads need only be well formed. -/

namespace Aggregation.Json

/-- The digits of a number. -/
structure Numeral where
  negative : Bool
  whole : List Char
  fraction : Option (List Char)
  /-- The exponent, if there is one: whether it is negative, and its digits. -/
  exponent : Option (Bool × List Char)
  deriving Repr, Inhabited

/-- One position of a string literal: a character, or a UTF-16 unit that is given by its number. -/
inductive Piece where
  | char (c : Char)
  | unit (n : Nat)
  deriving Repr, Inhabited

inductive Tree where
  | null
  | bool (b : Bool)
  | number (n : Numeral)
  | string (pieces : List Piece)
  | array (items : List Tree)
  | object (members : List (List Piece × Tree))
  deriving Repr, Inhabited

/-- The four characters that may stand between lexemes. -/
def isBlank (c : Char) : Bool := c == ' ' || c == '\n' || c == '\t' || c == '\r'

def skipBlanks (text : List Char) : List Char := text.dropWhile isBlank

/-- Splits off the longest run of digits. -/
def takeDigits (text : List Char) : List Char × List Char := text.span Aggregation.Numeral.isDigit

/-- Splits off at least one digit. -/
def someDigits? (text : List Char) : Option (List Char × List Char) :=
  match takeDigits text with
  | ([], _) => none
  | split => some split

/-- The whole digits of a number: a zero, or digits that do not start with one. -/
def whole? : List Char → Option (List Char × List Char)
  | '0' :: rest =>
    match rest with
    | c :: _ => if Aggregation.Numeral.isDigit c then none else some (['0'], rest)
    | [] => some (['0'], rest)
  | text => someDigits? text

def fraction? : List Char → Option (Option (List Char) × List Char)
  | '.' :: rest => (someDigits? rest).map fun (digits, rest) => (some digits, rest)
  | text => some (none, text)

/-- The digits of an exponent after its mark. -/
def signedDigits? : List Char → Option ((Bool × List Char) × List Char)
  | '+' :: rest => (someDigits? rest).map fun (digits, rest) => ((false, digits), rest)
  | '-' :: rest => (someDigits? rest).map fun (digits, rest) => ((true, digits), rest)
  | text => (someDigits? text).map fun (digits, rest) => ((false, digits), rest)

def exponent? : List Char → Option (Option (Bool × List Char) × List Char)
  | 'e' :: rest => (signedDigits? rest).map fun (exponent, rest) => (some exponent, rest)
  | 'E' :: rest => (signedDigits? rest).map fun (exponent, rest) => (some exponent, rest)
  | text => some (none, text)

/-- A number without its minus sign. -/
def unsigned? (negative : Bool) (text : List Char) : Option (Numeral × List Char) := do
  let (whole, rest) ← whole? text
  let (fraction, rest) ← fraction? rest
  let (exponent, rest) ← exponent? rest
  return (⟨negative, whole, fraction, exponent⟩, rest)

def fourDigits? : List Char → Option (Nat × List Char)
  | a :: b :: c :: d :: rest => do
    let a ← Hex.value? a
    let b ← Hex.value? b
    let c ← Hex.value? c
    let d ← Hex.value? d
    return (((a * 16 + b) * 16 + c) * 16 + d, rest)
  | _ => none

def escaped? : Char → Option Char
  | '"' => some '"'
  | '\\' => some '\\'
  | '/' => some '/'
  | 'b' => some '\x08'
  | 'f' => some '\x0c'
  | 'n' => some '\n'
  | 'r' => some '\r'
  | 't' => some '\t'
  | _ => none

/-- The pieces of a string literal after its opening quote; control characters are refused. -/
def pieces? : List Char → Option (List Piece × List Char)
  | [] => none
  | '"' :: rest => some ([], rest)
  | '\\' :: 'u' :: a :: b :: c :: d :: rest => do
    let (unit, _) ← fourDigits? [a, b, c, d]
    let (pieces, rest) ← pieces? rest
    return (.unit unit :: pieces, rest)
  | '\\' :: e :: rest => do
    let c ← escaped? e
    let (pieces, rest) ← pieces? rest
    return (.char c :: pieces, rest)
  | c :: rest =>
    if c.toNat < 0x20 ∨ c = '\\' then none
    else do
      let (pieces, rest) ← pieces? rest
      return (.char c :: pieces, rest)

/-- Drops the characters of a word that must come next. -/
def word? : List Char → List Char → Option (List Char)
  | [], text => some text
  | c :: word, d :: text => if c = d then word? word text else none
  | _ :: _, [] => none

mutual

/-- A value that starts here, after blanks. -/
def value? : Nat → List Char → Option (Tree × List Char)
  | 0, _ => none
  | fuel + 1, text =>
    match skipBlanks text with
    | 'n' :: rest => (word? ['u', 'l', 'l'] rest).map fun rest => (.null, rest)
    | 't' :: rest => (word? ['r', 'u', 'e'] rest).map fun rest => (.bool true, rest)
    | 'f' :: rest => (word? ['a', 'l', 's', 'e'] rest).map fun rest => (.bool false, rest)
    | '"' :: rest => (pieces? rest).map fun (pieces, rest) => (.string pieces, rest)
    | '-' :: rest => (unsigned? true rest).map fun (lexeme, rest) => (.number lexeme, rest)
    | '[' :: rest =>
      match skipBlanks rest with
      | ']' :: rest => some (.array [], rest)
      | rest => (items? fuel rest).map fun (items, rest) => (.array items, rest)
    | '\x7b' :: rest =>
      match skipBlanks rest with
      | '\x7d' :: rest => some (.object [], rest)
      | rest => (members? fuel rest).map fun (members, rest) => (.object members, rest)
    | text => (unsigned? false text).map fun (lexeme, rest) => (.number lexeme, rest)

/-- At least one item, and the bracket that closes them. -/
def items? : Nat → List Char → Option (List Tree × List Char)
  | 0, _ => none
  | fuel + 1, text =>
    match value? fuel text with
    | none => none
    | some (item, rest) =>
      match skipBlanks rest with
      | ',' :: rest => (items? fuel rest).map fun (items, rest) => (item :: items, rest)
      | ']' :: rest => some ([item], rest)
      | _ => none

/-- At least one member, and the brace that closes them. -/
def members? : Nat → List Char → Option (List (List Piece × Tree) × List Char)
  | 0, _ => none
  | fuel + 1, text =>
    match skipBlanks text with
    | '"' :: rest =>
      match pieces? rest with
      | none => none
      | some (key, rest) =>
        match skipBlanks rest with
        | ':' :: rest =>
          match value? fuel rest with
          | none => none
          | some (value, rest) =>
            match skipBlanks rest with
            | ',' :: rest => (members? fuel rest).map fun (members, rest) => ((key, value) :: members, rest)
            | '\x7d' :: rest => some ([(key, value)], rest)
            | _ => none
        | _ => none
    | _ => none

end

/-- The tree of a text that holds one value and blanks. Every step of the parser reads a character, so
twice the length of the text bounds their number. -/
def tree? (text : List Char) : Option Tree :=
  match value? (2 * text.length + 2) text with
  | some (tree, rest) => if (skipBlanks rest).isEmpty then some tree else none
  | none => none

end Aggregation.Json
