import Vtfs.Library.Decimal
import Vtfs.Library.Fueled
import Vtfs.Library.SortedMap
import Mathlib.Data.List.Lex
import Mathlib.Data.List.Defs
import Mathlib.Order.Lex

/-!
# Bencode values, the parser and the encoder

The parser is a class with a cursor `pos_` into a `std::string_view`.  It is modelled as a
computation over the cursor that may throw.  `std::size_t` has 64 bits: the one sum that can
exceed it, `pos_ + length` in `parseString`, is taken modulo `2 ^ 64` (every other step of the
cursor is taken at a position inside the input).

The model also keeps a trace, which the code does not have: which bytes are read unchecked, at
which positions `substr` is called, and the cursor on entry to and on normal return from each
member function.  No step of the parser reads the trace.

Nothing in the code bounds its loops and its recursion, so the functions take fuel; a run
whose fuel is spent is `running`.
-/

set_option autoImplicit false

namespace Vtfs.Model

open Vtfs.Library
open Vtfs.Library.Decimal (fromCharsSigned fromCharsUnsigned numeral signedNumeral isDigit)

/-- The number of values of a `std::size_t` or `std::uint64_t`. -/
def sizeLimit : ℕ := 2 ^ 64

/-- A `std::string_view`: its size is a `std::size_t`. -/
structure StringView where
  bytes : Bytes
  size_lt : bytes.length < sizeLimit

/-- What the code throws. -/
inductive Exception where
  | runtimeError (what : String)
  | outOfRange
  | badVariantAccess
  deriving DecidableEq

/-- A bencode value.  The entries of a dictionary are in the order of the `std::map`. -/
inductive BencodeValue where
  | integer (value : Int64)
  | string (value : Bytes)
  | list (items : List BencodeValue)
  | dictionary (entries : List (Bytes × BencodeValue))

/-- A `std::map` from strings to values, as its ordered entries. -/
abbrev BencodeDictionary := List (Bytes × BencodeValue)

mutual

/-- Every dictionary inside the value is ordered, as a `std::map` is. -/
def BencodeValue.Ordered : BencodeValue → Prop
  | .integer _ => True
  | .string _ => True
  | .list items => OrderedItems items
  | .dictionary entries => SortedMap.Ascending entries ∧ OrderedEntries entries

/-- Every item is ordered. -/
def OrderedItems : List BencodeValue → Prop
  | [] => True
  | item :: items => item.Ordered ∧ OrderedItems items

/-- Every value of the entries is ordered. -/
def OrderedEntries : List (Bytes × BencodeValue) → Prop
  | [] => True
  | (_, child) :: entries => child.Ordered ∧ OrderedEntries entries

end

/-- A value as the C++ type has it: each of its dictionaries is a `std::map`. -/
structure MappedValue where
  value : BencodeValue
  ordered : value.Ordered

/-! ## The encoder -/

/-- `std::to_string(text.size()) + ":" + text`. -/
def encodeString (text : Bytes) : Bytes := numeral text.length ++ byte ':' :: text

mutual

/-- The encoder.
SRCLINE: Bencode.cpp:138-161 -/
def encodeBencode : BencodeValue → Bytes
  | .integer value => byte 'i' :: (signedNumeral value.toInt ++ [byte 'e'])
  | .string value => encodeString value
  | .list items => byte 'l' :: (encodeItems items ++ [byte 'e'])
  | .dictionary entries => byte 'd' :: (encodeEntries entries ++ [byte 'e'])

/-- The loop over the items of a list. -/
def encodeItems : List BencodeValue → Bytes
  | [] => []
  | item :: items => encodeBencode item ++ encodeItems items

/-- The loop over the entries of a dictionary, in key order. -/
def encodeEntries : List (Bytes × BencodeValue) → Bytes
  | [] => []
  | (key, child) :: entries => encodeString key ++ encodeBencode child ++ encodeEntries entries

end

/-! ## The parser -/

/-- The member functions of `BencodeParser` that move the cursor. -/
inductive Member where
  | parseValue
  | parseInteger
  | parseString
  | parseList
  | parseDictionary
  deriving DecidableEq

/-- What a run of the parser does with its input. -/
inductive Event where
  | peek (pos : ℕ)
  | get (pos : ℕ)
  | substr (start : ℕ)
  | returned (callee : Member) (entry exit : ℕ)
  deriving DecidableEq

/-- The cursor `pos_` and the trace so far, latest event first. -/
structure ParserState where
  pos : ℕ
  trace : List Event

/-- The state with one more event. -/
def ParserState.log (s : ParserState) (e : Event) : ParserState :=
  { s with trace := e :: s.trace }

/-- Logging keeps the cursor. -/
@[simp] theorem ParserState.log_pos (s : ParserState) (e : Event) : (s.log e).pos = s.pos := rfl

/-- The last event is the first of the trace. -/
@[simp] theorem ParserState.log_trace (s : ParserState) (e : Event) :
    (s.log e).trace = e :: s.trace := rfl

/-- A member function of `BencodeParser`. -/
abbrev Parser (α : Type) := Fueled Exception ParserState α

open Fueled (throwing stalled)

/-- `throw std::runtime_error(what)`. -/
def throwRuntime {α : Type} (what : String) : Parser α := throwing (.runtimeError what)

/-- A call of a member function: its normal return is traced. -/
def member {α : Type} (callee : Member) (body : Parser α) : Parser α := fun s =>
  match body s with
  | .value a t => .value a (t.log (.returned callee s.pos t.pos))
  | .thrown e t => .thrown e t
  | .running t => .running t

section Parser

variable (input : StringView)

/-- The character at the cursor: `input_[pos_]`, which is not checked.
SRCLINE: Bencode.cpp:126-128 -/
def peek : Parser UInt8 := fun s =>
  .value (input.bytes.getD s.pos 0) (s.log (.peek s.pos))

/-- The character at the cursor, and one step past it.
SRCLINE: Bencode.cpp:130-132 -/
def get : Parser UInt8 := fun s =>
  .value (input.bytes.getD s.pos 0) ({ s with pos := s.pos + 1 }.log (.get s.pos))

/-- Whether the cursor is past the input.
SRCLINE: Bencode.cpp:134-136 -/
def eof : Parser Bool := fun s => .value (decide (input.bytes.length ≤ s.pos)) s

/-- The value of `pos_`. -/
def position : Parser ℕ := fun s => .value s.pos s

/-- `++pos_`. -/
def advance : Parser Unit := fun s => .value () { s with pos := s.pos + 1 }

/-- `pos_ += count`. -/
def skip (count : ℕ) : Parser Unit := fun s =>
  .value () { s with pos := (s.pos + count) % sizeLimit }

/-- `input_.substr(start, count)`, which throws when `start` is past the end. -/
def substr (start count : ℕ) : Parser Bytes := fun s =>
  if input.bytes.length < start then .thrown .outOfRange (s.log (.substr start))
  else .value ((input.bytes.drop start).take count) (s.log (.substr start))

/-- `while (!eof() && peek() != stop) ++pos_;`, recursive in the input that is left. -/
def scanLoop (stop : UInt8) : Bytes → Parser Unit
  | [] => pure ()
  | _ :: unread => do
      if ← eof input then pure ()
      else if (← peek input) = stop then pure ()
      else do
        advance
        scanLoop stop unread

/-- The scan from the cursor to the next `stop` or to the end. -/
def scan (stop : UInt8) : Parser Unit := fun s =>
  scanLoop input stop (input.bytes.drop s.pos) s

/-- An integer token.
SRCLINE: Bencode.cpp:48-69 -/
def parseInteger : Parser Int64 := member .parseInteger do
  let _ ← get input
  let start ← position
  scan input (byte 'e')
  if ← eof input then throwRuntime "Unterminated integer."
  else do
    let stop ← position
    let token ← substr input start (stop - start)
    let _ ← get input
    match fromCharsSigned (2 ^ 63) token with
    | some (value, consumed) =>
        if consumed = token.length then pure (Int64.ofInt value)
        else throwRuntime "Invalid integer value."
    | none => throwRuntime "Invalid integer value."

/-- A string: a decimal length, a colon and that many bytes.  The length is any
`std::size_t`, and the end of the string is computed in `std::size_t`.
SRCLINE: Bencode.cpp:71-97 -/
def parseString : Parser Bytes := member .parseString do
  let lenStart ← position
  scan input (byte ':')
  if ← eof input then throwRuntime "Invalid string length header."
  else do
    let stop ← position
    let token ← substr input lenStart (stop - lenStart)
    match fromCharsUnsigned sizeLimit token with
    | some (length, consumed) =>
        if consumed = token.length then do
          let _ ← get input
          let pos ← position
          if input.bytes.length < (pos + length) % sizeLimit then
            throwRuntime "String exceeds input size."
          else do
            let output ← substr input pos length
            skip length
            pure output
        else throwRuntime "Invalid string length."
    | none => throwRuntime "Invalid string length."

mutual

/-- A value, by its first character.
SRCLINE: Bencode.cpp:27-46 -/
def parseValue : ℕ → Parser BencodeValue
  | 0 => stalled
  | fuel + 1 => member .parseValue do
      if ← eof input then throwRuntime "Unexpected end of input."
      else do
        let ch ← peek input
        if ch = byte 'i' then do
          let value ← parseInteger input
          pure (.integer value)
        else if ch = byte 'l' then do
          let items ← parseList fuel
          pure (.list items)
        else if ch = byte 'd' then do
          let entries ← parseDictionary fuel
          pure (.dictionary entries)
        else if isDigit ch then do
          let value ← parseString input
          pure (.string value)
        else throwRuntime "Invalid bencode token."

/-- A list.
SRCLINE: Bencode.cpp:99-110 -/
def parseList : ℕ → Parser (List BencodeValue)
  | 0 => stalled
  | fuel + 1 => member .parseList do
      let _ ← get input
      parseListLoop fuel []

/-- The loop of `parseList` with the items so far, and what follows the loop. -/
def parseListLoop : ℕ → List BencodeValue → Parser (List BencodeValue)
  | 0, _ => stalled
  | fuel + 1, list => do
      if ← eof input then throwRuntime "Unterminated list."
      else if (← peek input) = byte 'e' then do
        let _ ← get input
        pure list
      else do
        let item ← parseValue fuel
        parseListLoop fuel (list ++ [item])

/-- A dictionary.
SRCLINE: Bencode.cpp:112-124 -/
def parseDictionary : ℕ → Parser BencodeDictionary
  | 0 => stalled
  | fuel + 1 => member .parseDictionary do
      let _ ← get input
      parseDictionaryLoop fuel []

/-- The loop of `parseDictionary` with the entries so far, and what follows the loop. -/
def parseDictionaryLoop : ℕ → BencodeDictionary → Parser BencodeDictionary
  | 0, _ => stalled
  | fuel + 1, dictionary => do
      if ← eof input then throwRuntime "Unterminated dictionary."
      else if (← peek input) = byte 'e' then do
        let _ ← get input
        pure dictionary
      else do
        let key ← parseString input
        let child ← parseValue fuel
        parseDictionaryLoop fuel (SortedMap.emplace dictionary key child)

end

/-- The state of a parser that was just constructed. -/
def parserStart : ParserState := ⟨0, []⟩

/-- `parse`, as a member function.
SRCLINE: Bencode.cpp:19-25 -/
def parseRoot (fuel : ℕ) : Parser BencodeValue := do
  let value ← parseValue input fuel
  if ← eof input then pure value
  else throwRuntime "Trailing bytes after bencode root value."

/-- `BencodeParser(input).parse()`. -/
def parse (fuel : ℕ) : Outcome Exception ParserState BencodeValue :=
  parseRoot input fuel parserStart

end Parser

end Vtfs.Model
