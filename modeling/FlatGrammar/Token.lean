import FlatGrammar.Fault
import FlatGrammar.Text.Quoted
import FlatGrammar.Text.Word

/-! # Tokens of a right-hand side

The right-hand side of a rule is a sequence of tokens between blanks. `Token.next?` recognises the
token at the start of a text and returns it with the text that is left, or the obstacle and the
text it was found in.
-/
namespace FlatGrammar

inductive Token where
  | literal (text : String)
  | charClass (spec : String)
  | hexRef (spec : String)
  | symbol (name : String)
  | atRef (name : String)
  | minus
  | question
  | bar
  | plus
  | star
  | opening
  | closing
  | finish
  deriving DecidableEq, Repr

namespace Token

def kind : Token → String
  | literal _ => "literal"
  | charClass _ => "range"
  | hexRef _ => "hex"
  | symbol _ => "symbol"
  | atRef _ => "at"
  | minus => "-"
  | question => "?"
  | bar => "|"
  | plus => "+"
  | star => "*"
  | opening => "("
  | closing => ")"
  | finish => "end"

def value? : Token → Option String
  | literal text => some text
  | charClass spec => some spec
  | hexRef spec => some spec
  | symbol name => some name
  | atRef name => some name
  | _ => none

def text (t : Token) : String :=
  match t.value? with
  | some value => "<" ++ t.kind ++ "(" ++ Text.quoted value ++ ")>"
  | none => "<" ++ t.kind ++ ">"

def operator? : Char → Option Token
  | '-' => some minus
  | '?' => some question
  | '|' => some bar
  | '+' => some plus
  | '*' => some star
  | '(' => some opening
  | ')' => some closing
  | _ => none

end Token

/-- Splits a text at the first occurrence of a character, which belongs to neither part. -/
def splitAtChar (c : Char) (cs : List Char) : Option (List Char × List Char) :=
  match cs.dropWhile (· != c) with
  | [] => none
  | _ :: rest => some (cs.takeWhile (· != c), rest)

def isHexDigit (c : Char) : Bool :=
  c.isDigit || ('a' ≤ c && c ≤ 'f') || ('A' ≤ c && c ≤ 'F')

namespace Token

def readLiteral (quote : Char) (body : List Char) : Except Misreading (Token × List Char) :=
  match splitAtChar quote body with
  | none => .error ⟨.openLiteral, quote :: body⟩
  | some (inner, rest) =>
    if rest.head? == some quote then .error ⟨.embeddedQuote quote, quote :: body⟩
    else .ok (literal (String.ofList inner), rest)

def readCharClass (body : List Char) : Except Misreading (Token × List Char) :=
  match splitAtChar ']' body with
  | none => .error ⟨.openCharClass, '[' :: body⟩
  | some (inner, rest) => .ok (charClass (String.ofList inner), rest)

/-- The number sign and the letter `x` belong to the reference. -/
def readHexRef (body : List Char) : Except Misreading (Token × List Char) :=
  match body with
  | 'x' :: rest =>
    match rest.takeWhile isHexDigit with
    | [] => .error ⟨.badHexRef, '#' :: body⟩
    | digits => .ok (hexRef (String.ofList ('#' :: 'x' :: digits)), rest.dropWhile isHexDigit)
  | _ => .error ⟨.badHexRef, '#' :: body⟩

/-- The at-sign does not belong to the name, a number sign behind it does. -/
def readAtRef (body : List Char) : Except Misreading (Token × List Char) :=
  let (mark, rest) : List Char × List Char :=
    match body with
    | '#' :: rest => (['#'], rest)
    | _ => ([], body)
  match rest.takeWhile Text.isWord with
  | [] => .error ⟨.badAtRef, '@' :: body⟩
  | word => .ok (atRef (String.ofList (mark ++ word)), rest.dropWhile Text.isWord)

def read (c : Char) (cs : List Char) : Except Misreading (Token × List Char) :=
  if c == '"' || c == '\'' then readLiteral c cs
  else if c == '[' then readCharClass cs
  else if c == '#' then readHexRef cs
  else if Text.isLetter c || c == '_' then
    .ok (symbol (String.ofList (c :: cs.takeWhile Text.isWord)), cs.dropWhile Text.isWord)
  else if c == '@' then readAtRef cs
  else
    match operator? c with
    | some op => .ok (op, cs)
    | none => .error ⟨.unknownToken, c :: cs⟩

def next? (text : List Char) : Except Misreading (Token × List Char) :=
  match Text.trimStart text with
  | [] => .ok (finish, [])
  | c :: cs => read c cs

end Token

/-- The tokens of a text up to its end, and the obstacle if there is one. -/
structure Tokens where
  tokens : List Token := []
  rest : Option (List Char) := none
  obstacle : Option Misreading := none
  deriving DecidableEq, Repr

def tokensWithin : Nat → List Char → Tokens
  | 0, _ => {}
  | n + 1, text =>
    match Token.next? text with
    | .error m => { obstacle := some m }
    | .ok (.finish, rest) => { tokens := [.finish], rest := some rest }
    | .ok (t, rest) =>
      let more := tokensWithin n rest
      { more with tokens := t :: more.tokens, rest := more.rest <|> some rest }

/-- Every token but the last takes a character, so their number is bounded by the length. -/
def tokens (text : List Char) : Tokens := tokensWithin (text.length + 1) text

end FlatGrammar
