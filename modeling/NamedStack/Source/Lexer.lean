import NamedStack.Failure

/-!
# Tokens of a program text

A text is read through a window that may end before the text does. What stands at the front of a
window is a blank, a comment, a bracket, a quoted string or a word; whether it is complete can
depend on the bytes that follow. Brackets are tokens of their own, quoted strings and words with
open parentheses may hold blanks, and comments run to the end of the line.

`split` finds the first token of a window. `tokens` reads a whole text; a token or comment whose end
is not seen within the first `windowSize` bytes from its start is too long.
-/

namespace NamedStack.Lexer

/-- The most bytes in which the end of a token has to be seen. -/
def windowSize : Nat := 65536

/-- Whether a byte separates tokens. -/
def isBlank (c : UInt8) : Bool := c = 32 || c = 9 || c = 10 || c = 13

/-- Whether a byte is a token of its own. -/
def isBracket (c : UInt8) : Bool := c = 91 || c = 93 || c = 123 || c = 125

/-- What stands at the front of a window, with its length and the number of bytes that had to be
seen to know it, the end of the text counting as one. -/
inductive Front where
  /-- A blank or a comment. -/
  | skip (len seen : Nat)
  /-- A token. -/
  | token (len seen : Nat)
  /-- Something whose end lies outside of the window. -/
  | open
  /-- Something that does not end although the text does. -/
  | broken (why : String) (seen : Nat)
  deriving DecidableEq, Repr

/-- The number of bytes before the end of the line, and whether the line ends. -/
def lineLength (n : Nat) : Bytes → Nat × Bool
  | [] => (n, false)
  | c :: rest => if c = 10 then (n, true) else lineLength (n + 1) rest

/-- The number of bytes up to and with the closing quote, if there is one. A backslash takes away
the meaning of the byte after it. -/
def quotedLength (escaped : Bool) (n : Nat) : Bytes → Option Nat
  | [] => none
  | c :: rest =>
    if escaped then quotedLength false (n + 1) rest
    else if c = 39 then some (n + 1)
    else quotedLength (c = 92) (n + 1) rest

/-- The number of bytes of a word, the parentheses left open in it, and whether something follows
it. -/
def wordLength (depth : Int) (n : Nat) : Bytes → Nat × Int × Bool
  | [] => (n, depth, false)
  | c :: rest =>
    if c = 40 then wordLength (depth + 1) (n + 1) rest
    else if c = 41 then wordLength (depth - 1) (n + 1) rest
    else if depth = 0 && (isBlank c || isBracket c) then (n, depth, true)
    else wordLength depth (n + 1) rest

/-- What stands at the front of a window that starts with a given byte; `atEnd` says that the text
ends with the window. -/
def front (atEnd : Bool) (c : UInt8) (rest : Bytes) : Front :=
  if isBlank c then .skip 1 1
  else if c = 35 then
    match lineLength 1 rest with
    | (n, true) => .skip (n + 1) (n + 1)
    | (n, false) => if atEnd then .skip n (n + 1) else .open
  else if isBracket c then .token 1 1
  else if c = 39 then
    match quotedLength false 1 rest with
    | some n => .token n n
    | none => if atEnd then .broken "unterminated string" (rest.length + 2) else .open
  else
    match wordLength 0 0 (c :: rest) with
    | (n, _, true) => .token n (n + 1)
    | (n, depth, false) =>
      if !atEnd then .open
      else if depth = 0 then .token n (n + 1)
      else .broken "unterminated parenthesis" (n + 1)

/-- The first token of a window, if there is one. -/
inductive Split where
  /-- No token yet: so many bytes can be dropped. -/
  | more (advance : Nat)
  /-- A token that ends after so many bytes. -/
  | token (advance : Nat) (tok : Bytes)
  /-- The text cannot be read. -/
  | broken (why : String)
  deriving DecidableEq, Repr

/-- A result for a window of which `n` bytes were dropped. -/
def Split.after (n : Nat) : Split → Split
  | .more a => .more (n + a)
  | .token a tok => .token (n + a) tok
  | .broken why => .broken why

/-- The first token of a window, reading at most `fuel` items in front of it. -/
def splitFrom (atEnd : Bool) : Nat → Bytes → Split
  | _, [] => .more 0
  | 0, _ => .more 0
  | fuel + 1, c :: rest =>
    match front atEnd c rest with
    | .skip n _ => (splitFrom atEnd fuel ((c :: rest).drop n)).after n
    | .token n _ => .token n ((c :: rest).take n)
    | .open => .more 0
    | .broken why _ => .broken why

/-- The first token of a window; `atEnd` says that the text ends with the window. -/
def split (window : Bytes) (atEnd : Bool) : Split := splitFrom atEnd window.length window

/-- The tokens of a text, reading at most `fuel` items, behind the tokens read so far in reverse. -/
def tokensFrom : Nat → List Bytes → Bytes → Except Cause (List Bytes)
  | _, acc, [] => .ok acc.reverse
  | 0, acc, _ => .ok acc.reverse
  | fuel + 1, acc, c :: rest =>
    match front true c rest with
    | .skip n seen =>
      if windowSize < seen then .error .tokenTooLong
      else tokensFrom fuel acc ((c :: rest).drop n)
    | .token n seen =>
      if windowSize < seen then .error .tokenTooLong
      else tokensFrom fuel ((c :: rest).take n :: acc) ((c :: rest).drop n)
    | .open => .error .tokenTooLong
    | .broken why seen =>
      if windowSize < seen then .error .tokenTooLong else .error (.badToken (text why))

/-- The tokens of a text. -/
def tokens (src : Bytes) : Except Cause (List Bytes) := tokensFrom src.length [] src

end NamedStack.Lexer
