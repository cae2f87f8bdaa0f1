import ScriptHeap.Json.Library
/-!
# Tokens of JSON text

* `Token`, `Token.chars`     the tokens and their text;
* `Token.ofWord?`      the token that a word without blanks, punctuation and quotes spells;
* `Lexer`, `Lexer.step`      the tokens so far and what the next character belongs to;
* `Token.scan?`        the tokens of a text.

Strings are written with the short escapes where there is one and with `\u00xx` for the other
characters below the space; read, any escape of the format stands, and a leading surrogate needs
its trailing one.
-/

namespace ScriptHeap

inductive Token where
  | openArray
  | closeArray
  | openObject
  | closeObject
  | comma
  | colon
  | null
  | bool (b : Bool)
  | number (n : Number)
  | string (s : String)
deriving DecidableEq

namespace Token

/-! ## writing -/

/-- a character inside quotes -/
def escaped (c : Char) : List Char :=
  if c = '\x22' then ['\\', '\x22']
  else if c = '\\' then ['\\', '\\']
  else if c = '\x08' then ['\\', 'b']
  else if c = '\x0c' then ['\\', 'f']
  else if c = '\n' then ['\\', 'n']
  else if c = '\r' then ['\\', 'r']
  else if c = '\t' then ['\\', 't']
  else if c < ' ' then
    ['\\', 'u', '0', '0', Nat.digitChar (c.toNat / 16), Nat.digitChar (c.toNat % 16)]
  else [c]

def quoted (s : String) : List Char := '\x22' :: (s.toList.flatMap escaped ++ ['\x22'])

def chars : Token → List Char
  | openArray => ['[']
  | closeArray => [']']
  | openObject => ['\x7b']
  | closeObject => ['\x7d']
  | comma => [',']
  | colon => [':']
  | null => ['n', 'u', 'l', 'l']
  | bool true => ['t', 'r', 'u', 'e']
  | bool false => ['f', 'a', 'l', 's', 'e']
  | number n => n.numeral.chars
  | string s => quoted s

/-! ## reading -/

/-- the token that one character makes -/
def punctuation? (c : Char) : Option Token :=
  if c = '[' then some openArray
  else if c = ']' then some closeArray
  else if c = '\x7b' then some openObject
  else if c = '\x7d' then some closeObject
  else if c = ',' then some comma
  else if c = ':' then some colon
  else none

/-- space, tab, line feed and carriage return -/
def isBlank (c : Char) : Bool := c == ' ' || c == '\t' || c == '\n' || c == '\r'

def ofWord? (lib : JsonLibrary) (word : List Char) : Option Token :=
  if word = chars null then some null
  else if word = chars (bool true) then some (bool true)
  else if word = chars (bool false) then some (bool false)
  else (Numeral.ofChars? word).bind fun n => (lib.number? n).map number

/-- the value of a hexadecimal digit -/
def hexValue? (c : Char) : Option Nat :=
  if '0' ≤ c ∧ c ≤ '9' then some (c.toNat - '0'.toNat)
  else if 'a' ≤ c ∧ c ≤ 'f' then some (c.toNat - 'a'.toNat + 10)
  else if 'A' ≤ c ∧ c ≤ 'F' then some (c.toNat - 'A'.toNat + 10)
  else none

/-- the character of a one-letter escape -/
def shortEscape? (c : Char) : Option Char :=
  if c = '\x22' then some '\x22'
  else if c = '\\' then some '\\'
  else if c = '/' then some '/'
  else if c = 'b' then some '\x08'
  else if c = 'f' then some '\x0c'
  else if c = 'n' then some '\n'
  else if c = 'r' then some '\r'
  else if c = 't' then some '\t'
  else none

end Token

/-- what the next character belongs to; collected characters are newest first -/
inductive LexMode where
  /-- no token is open -/
  | between
  /-- a word is open -/
  | word (chars : List Char)
  /-- a string is open -/
  | text (chars : List Char)
  /-- in a string after a backslash -/
  | escape (chars : List Char)
  /-- in a string before `left + 1` hexadecimal digits; `lead` is a leading surrogate before them -/
  | unicode (chars : List Char) (lead : Option Nat) (left value : Nat)
  /-- in a string after a leading surrogate, or after the backslash that follows it -/
  | surrogate (chars : List Char) (lead : Nat) (slash : Bool)
deriving DecidableEq

/-- the finished tokens, newest first, and the open one -/
structure Lexer where
  tokens : List Token
  mode : LexMode
deriving DecidableEq

namespace Lexer

/-- a character where no token is open -/
def start (tokens : List Token) (c : Char) : Lexer :=
  if Token.isBlank c then ⟨tokens, .between⟩
  else match Token.punctuation? c with
    | some t => ⟨t :: tokens, .between⟩
    | none => if c = '\x22' then ⟨tokens, .text []⟩ else ⟨tokens, .word [c]⟩

/-- whether a character ends a word -/
def endsWord (c : Char) : Bool :=
  Token.isBlank c || (Token.punctuation? c).isSome || c == '\x22'

/-- four hexadecimal digits: a character, or half of one -/
def codeUnit (chars : List Char) (lead : Option Nat) (unit : Nat) : Option LexMode :=
  match lead with
  | none =>
    if 0xD800 ≤ unit ∧ unit < 0xDC00 then some (.surrogate chars unit false)
    else if 0xDC00 ≤ unit ∧ unit < 0xE000 then none
    else some (.text (Char.ofNat unit :: chars))
  | some high =>
    if 0xDC00 ≤ unit ∧ unit < 0xE000 then
      some (.text (Char.ofNat (0x10000 + (high - 0xD800) * 0x400 + (unit - 0xDC00)) :: chars))
    else none

/-- one character of an open string -/
def stepString (c : Char) : LexMode → Option LexMode
  | .text chars =>
    if c = '\\' then some (.escape chars)
    else if c < ' ' then none
    else some (.text (c :: chars))
  | .escape chars =>
    if c = 'u' then some (.unicode chars none 3 0)
    else (Token.shortEscape? c).map fun e => .text (e :: chars)
  | .unicode chars lead left value => do
    let unit := value * 16 + (← Token.hexValue? c)
    match left with
    | 0 => codeUnit chars lead unit
    | left + 1 => some (.unicode chars lead left unit)
  | .surrogate chars lead false => if c = '\\' then some (.surrogate chars lead true) else none
  | .surrogate chars lead true => if c = 'u' then some (.unicode chars (some lead) 3 0) else none
  | _ => none

def step (lib : JsonLibrary) (s : Lexer) (c : Char) : Option Lexer :=
  match s.mode with
  | .between => some (start s.tokens c)
  | .word chars =>
    if endsWord c then (Token.ofWord? lib chars.reverse).map fun t => start (t :: s.tokens) c
    else some ⟨s.tokens, .word (c :: chars)⟩
  | .text chars =>
    if c = '\x22' then some ⟨.string (String.ofList chars.reverse) :: s.tokens, .between⟩
    else (stepString c s.mode).map (⟨s.tokens, ·⟩)
  | mode => (stepString c mode).map (⟨s.tokens, ·⟩)

/-- the tokens at the end of the text -/
def finish (lib : JsonLibrary) (s : Lexer) : Option (List Token) :=
  match s.mode with
  | .between => some s.tokens.reverse
  | .word chars => (Token.ofWord? lib chars.reverse).map fun t => (t :: s.tokens).reverse
  | _ => none

end Lexer

def Token.scan? (lib : JsonLibrary) (cs : List Char) : Option (List Token) :=
  (cs.foldlM (Lexer.step lib) ⟨[], .between⟩).bind (Lexer.finish lib)

end ScriptHeap
