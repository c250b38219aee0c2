/-!
# Reading JSON

A text is cut into tokens one character at a time (`Lexer.step`), and the tokens are put together by
a machine with a stack of open containers (`Assembly.step`), so neither the length of the text nor
the depth of nesting matters. Numbers keep their spelling. A string may hold escapes that stand for
half of a surrogate pair; such a string is well-formed but has no text, which is an error only where
the text is needed.
-/

namespace LoopHoist

/-- A JSON document. A number keeps its spelling, and a string its text if it has one; the fields of
an object keep their order and may repeat a key. -/
inductive Json where
  | null
  | bool (b : Bool)
  | num (literal : List Char)
  | str (text : Option String)
  | arr (items : List Json)
  | obj (fields : List (Option String × Json))
deriving Inhabited

/-! ## Numbers -/

/-- The number grammar after the integer part: a fraction, an exponent, or the end. -/
inductive NumberState where
  | start | minus | zero | whole | point | fraction | mark | markSign | exponent
deriving DecidableEq, Inhabited

namespace NumberState

/-- One character further into a number: no leading zeros, and at least one digit in each part. -/
def step : NumberState → Char → Option NumberState
  | start, '-' => some minus
  | start, c | minus, c =>
    if c = '0' then some zero else if c.isDigit then some whole else none
  | zero, c =>
    if c = '.' then some point else if c = 'e' ∨ c = 'E' then some mark else none
  | whole, c =>
    if c.isDigit then some whole
    else if c = '.' then some point else if c = 'e' ∨ c = 'E' then some mark else none
  | point, c => if c.isDigit then some fraction else none
  | fraction, c =>
    if c.isDigit then some fraction else if c = 'e' ∨ c = 'E' then some mark else none
  | mark, c =>
    if c = '+' ∨ c = '-' then some markSign else if c.isDigit then some exponent else none
  | markSign, c | exponent, c => if c.isDigit then some exponent else none

/-- Whether a number may end here. -/
def final : NumberState → Bool
  | zero | whole | fraction | exponent => true
  | _ => false

end NumberState

/-- Whether the characters spell a number. -/
def isNumber (cs : List Char) : Bool :=
  match cs.foldlM NumberState.step .start with
  | some s => s.final
  | none => false

/-- The value of an unsigned integer literal, which has neither sign nor fraction nor exponent. -/
def naturalOf? (literal : List Char) : Option Nat :=
  if literal.all Char.isDigit then some (Nat.ofDigitChars 10 literal 0) else none

/-! ## Strings -/

/-- Whether a code unit is the first half of a surrogate pair. -/
def isHighSurrogate (u : Nat) : Bool := 0xD800 ≤ u && u < 0xDC00

/-- Whether a code unit is the second half of a surrogate pair. -/
def isLowSurrogate (u : Nat) : Bool := 0xDC00 ≤ u && u < 0xE000

/-- The characters of a string, given as code points and escaped code units; two halves of a pair
make one character, and a half on its own makes none. -/
def charsOfUnits? : List Nat → Option (List Char)
  | [] => some []
  | [u] => if isHighSurrogate u || isLowSurrogate u then none else some [Char.ofNat u]
  | u :: v :: rest =>
    if isHighSurrogate u then
      if isLowSurrogate v then
        (charsOfUnits? rest).map (Char.ofNat (0x10000 + (u - 0xD800) * 0x400 + (v - 0xDC00)) :: ·)
      else none
    else if isLowSurrogate u then none
    else (charsOfUnits? (v :: rest)).map (Char.ofNat u :: ·)

/-- The character of a one-letter escape. -/
def escaped? : Char → Option Char
  | '"' => some '"'
  | '\\' => some '\\'
  | '/' => some '/'
  | 'b' => some '\x08'
  | 'f' => some '\x0c'
  | 'n' => some '\n'
  | 'r' => some '\r'
  | 't' => some '\t'
  | _ => none

/-- The value of a hexadecimal digit. -/
def hexDigit? (c : Char) : Option Nat :=
  if c.isDigit then some (c.toNat - '0'.toNat)
  else if 'a' ≤ c ∧ c ≤ 'f' then some (c.toNat - 'a'.toNat + 10)
  else if 'A' ≤ c ∧ c ≤ 'F' then some (c.toNat - 'A'.toNat + 10)
  else none

/-! ## Tokens -/

/-- A piece of a document: a mark of punctuation or a value without parts. -/
inductive Token where
  | arrOpen | arrClose | objOpen | objClose | colon | comma
  | atom (j : Json)
deriving Inhabited

/-- Where the lexer is: between tokens, in a bare word, in a string, after a backslash, or in the
four digits of an escaped code unit. What was read is kept in reverse. -/
inductive LexerMode where
  | idle
  | word (read : List Char)
  | string (read : List Nat)
  | escape (read : List Nat)
  | unit (read : List Nat) (digits value : Nat)
deriving Inhabited

/-- A text being cut into tokens. -/
structure Lexer where
  /-- Where the lexer is. -/
  mode : LexerMode := .idle
  /-- The tokens so far, the last one first. -/
  tokens : List Token := []
deriving Inhabited

namespace Lexer

/-- The value that a bare word stands for. -/
def wordAtom? (word : List Char) : Option Json :=
  if word = ['n', 'u', 'l', 'l'] then some .null
  else if word = ['t', 'r', 'u', 'e'] then some (.bool true)
  else if word = ['f', 'a', 'l', 's', 'e'] then some (.bool false)
  else if isNumber word then some (.num word)
  else none

/-- The token of a mark of punctuation. -/
def punctuation? : Char → Option Token
  | '[' => some .arrOpen
  | ']' => some .arrClose
  | '{' => some .objOpen
  | '}' => some .objClose
  | ':' => some .colon
  | ',' => some .comma
  | _ => none

/-- Whether a character separates tokens and means nothing else. -/
def isBlank (c : Char) : Bool := c == ' ' || c == '\t' || c == '\n' || c == '\r'

/-- The tokens after a bare word, if one is open, has ended. -/
def closeWord? (l : Lexer) : Option (List Token) :=
  match l.mode with
  | .idle => some l.tokens
  | .word read => (wordAtom? read.reverse).map (.atom · :: l.tokens)
  | _ => none

/-- One character further. A control character in a string is an error. -/
def step (l : Lexer) (c : Char) : Option Lexer :=
  match l.mode with
  | .string read =>
    if c = '"' then
      -- The next token may follow a closed string without a blank.
      some { tokens := .atom (.str ((charsOfUnits? read.reverse).map String.ofList)) :: l.tokens }
    else if c = '\\' then some { l with mode := .escape read }
    else if c.toNat < 0x20 then none
    else some { l with mode := .string (c.toNat :: read) }
  | .escape read =>
    if c = 'u' then some { l with mode := .unit read 0 0 }
    else (escaped? c).map fun e => { l with mode := .string (e.toNat :: read) }
  | .unit read digits value =>
    (hexDigit? c).map fun d =>
      if digits = 3 then { l with mode := .string ((value * 16 + d) :: read) }
      else { l with mode := .unit read (digits + 1) (value * 16 + d) }
  | .idle | .word _ =>
    if isBlank c then l.closeWord?.map fun ts => { tokens := ts }
    else if c = '"' then l.closeWord?.map fun ts => { tokens := ts, mode := .string [] }
    else
      match punctuation? c, l.mode with
      | some t, _ => l.closeWord?.map fun ts => { tokens := t :: ts }
      | none, .word read => some { l with mode := .word (c :: read) }
      | none, _ => some { l with mode := .word [c] }

/-- The tokens of a text. -/
def tokens? (text : List Char) : Option (List Token) :=
  ((text.foldlM step {}).bind closeWord?).map List.reverse

end Lexer

/-! ## Assembly -/

/-- An open container: the items of an array, or the fields of an object and the key whose value is
to come; both in reverse. -/
inductive OpenContainer where
  | arr (items : List Json)
  | obj (fields : List (Option String × Json)) (key : Option String)
deriving Inhabited

/-- What may come next: a value; a value or the end of an array; a key; a key or the end of an
object; a colon; or, after a complete value, whatever follows it. -/
inductive Expected where
  | value
  | firstItem
  | key (fields : List (Option String × Json))
  | firstField
  | colon (fields : List (Option String × Json)) (key : Option String)
  | after (j : Json)
deriving Inhabited

/-- A document being put together. -/
structure Assembly where
  /-- What may come next. -/
  expected : Expected := .value
  /-- The open containers, the innermost first. -/
  around : List OpenContainer := []
deriving Inhabited

namespace Assembly

/-- A value begins. -/
def beginValue (a : Assembly) : Token → Option Assembly
  | .atom j => some { a with expected := .after j }
  | .arrOpen => some { a with expected := .firstItem }
  | .objOpen => some { a with expected := .firstField }
  | _ => none

/-- One token further. -/
def step (a : Assembly) (t : Token) : Option Assembly :=
  match a.expected, t with
  | .value, t => a.beginValue t
  | .firstItem, .arrClose => some { a with expected := .after (.arr []) }
  | .firstItem, t => { a with around := .arr [] :: a.around }.beginValue t
  | .firstField, .objClose => some { a with expected := .after (.obj []) }
  | .firstField, .atom (.str key) => some { a with expected := .colon [] key }
  | .key fields, .atom (.str key) => some { a with expected := .colon fields key }
  | .colon fields key, .colon =>
    some { expected := .value, around := .obj fields key :: a.around }
  | .after j, t =>
    match a.around, t with
    | .arr items :: outer, .comma =>
      some { expected := .value, around := .arr (j :: items) :: outer }
    | .arr items :: outer, .arrClose =>
      some { expected := .after (.arr (j :: items).reverse), around := outer }
    | .obj fields key :: outer, .comma =>
      some { expected := .key ((key, j) :: fields), around := outer }
    | .obj fields key :: outer, .objClose =>
      some { expected := .after (.obj ((key, j) :: fields).reverse), around := outer }
    | _, _ => none
  | _, _ => none

/-- The document, if it is complete. -/
def document? (a : Assembly) : Option Json :=
  match a.expected, a.around with
  | .after j, [] => some j
  | _, _ => none

end Assembly

/-- The document that a text spells. -/
def Json.ofText? (text : String) : Option Json :=
  (Lexer.tokens? text.toList).bind fun ts => (ts.foldlM Assembly.step {}).bind Assembly.document?

end LoopHoist
