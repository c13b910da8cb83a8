import Vtfs.Model.Bencode

/-!
# The parser, one step at a time

`parse` is a computation that calls itself; here it is cut into steps, with the calls that have not
returned on a stack, so that a run can be stopped anywhere.  A step is what the code does between
two control points: it reads the input at one or two places and moves the cursor at most once.
The statements are those of the member functions, over the same operations on the cursor.

A call of `parseInteger`, `parseString`, `parseList` or `parseDictionary` from `parseValue` is the
last thing that `parseValue` does, so `parseValue` itself is never on the stack.
-/

set_option autoImplicit false

namespace Vtfs.Model

open Vtfs.Library
open Vtfs.Library.Decimal (fromCharsSigned fromCharsUnsigned isDigit)
open Vtfs.Library.Fueled (throwing)

namespace BencodeMachine

/-- A call that waits for `parseValue`, with what it has so far. -/
inductive Caller where
  | list (items : List BencodeValue)
  | dictionary (dictionary : BencodeDictionary) (key : Bytes)

/-- What a string is for: it is a value, or the next key of a dictionary. -/
inductive StringUse where
  | value
  | key (dictionary : BencodeDictionary)

/-- The places between the statements of the member functions. -/
inductive Control where
  | parseValue
  | parseInteger
  | integerLoop (start : ℕ)
  | integerToken (start : ℕ)
  | integerEnd (token : Bytes)
  | parseString (use : StringUse)
  | stringLoop (use : StringUse) (lenStart : ℕ)
  | stringToken (use : StringUse) (lenStart : ℕ)
  | stringColon (use : StringUse) (length : ℕ)
  | stringBytes (use : StringUse) (length : ℕ)
  | parseList
  | listLoop (items : List BencodeValue)
  | parseDictionary
  | dictionaryLoop (dictionary : BencodeDictionary)
  | finish (value : BencodeValue)

/-- How far the parser is. -/
inductive Progress where
  | active (control : Control) (callers : List Caller)
  | returned (value : BencodeValue)
  | threw (error : Exception)

/-- A value is returned to the latest call, or to `parse`. -/
def resume : List Caller → BencodeValue → Progress
  | [], value => .active (.finish value) []
  | .list items :: callers, value => .active (.listLoop (items ++ [value])) callers
  | .dictionary dictionary key :: callers, value =>
      .active (.dictionaryLoop (SortedMap.emplace dictionary key value)) callers

/-- A string is returned to the call that it is for. -/
def resumeString (callers : List Caller) (text : Bytes) : StringUse → Progress
  | .value => resume callers (.string text)
  | .key dictionary => .active .parseValue (.dictionary dictionary text :: callers)

section Act

variable (input : StringView)

/-- One round of a loop `while (!eof() && peek() != stop) ++pos_;`. -/
def scanRound (stop : UInt8) (again after : Progress) : Parser Progress := do
  if ← eof input then pure after
  else if (← peek input) = stop then pure after
  else do
    advance
    pure again

/-- The token behind such a loop, which must not have come to the end. -/
def tokenFrom (what : String) (start : ℕ) : Parser Bytes := do
  if ← eof input then throwRuntime what
  else do
    let stop ← position
    substr input start (stop - start)

/-- The end of `parseInteger`: the letter behind the token is passed, and the token read. -/
def integerOf (token : Bytes) : Parser Int64 := do
  let _ ← get input
  match fromCharsSigned (2 ^ 63) token with
  | some (value, consumed) =>
      if consumed = token.length then pure (Int64.ofInt value)
      else throwRuntime "Invalid integer value."
  | none => throwRuntime "Invalid integer value."

/-- The length in a token. -/
def lengthOf (token : Bytes) : Parser ℕ :=
  match fromCharsUnsigned sizeLimit token with
  | some (length, consumed) =>
      if consumed = token.length then pure length
      else throwRuntime "Invalid string length."
  | none => throwRuntime "Invalid string length."

/-- The end of `parseString`: so many bytes are taken. -/
def stringOf (length : ℕ) : Parser Bytes := do
  let pos ← position
  if input.bytes.length < (pos + length) % sizeLimit then
    throwRuntime "String exceeds input size."
  else do
    let output ← substr input pos length
    skip length
    pure output

/-- What is done at a control point, and the next one.
SRCLINE: Bencode.cpp:19-124 -/
def act (callers : List Caller) : Control → Parser Progress
  | .parseValue => do
      if ← eof input then throwRuntime "Unexpected end of input."
      else do
        let ch ← peek input
        if ch = byte 'i' then pure (.active .parseInteger callers)
        else if ch = byte 'l' then pure (.active .parseList callers)
        else if ch = byte 'd' then pure (.active .parseDictionary callers)
        else if isDigit ch then pure (.active (.parseString .value) callers)
        else throwRuntime "Invalid bencode token."
  | .parseInteger => do
      let _ ← get input
      let start ← position
      pure (.active (.integerLoop start) callers)
  | .integerLoop start =>
      scanRound input (byte 'e') (.active (.integerLoop start) callers)
        (.active (.integerToken start) callers)
  | .integerToken start => do
      let token ← tokenFrom input "Unterminated integer." start
      pure (.active (.integerEnd token) callers)
  | .integerEnd token => do
      let value ← integerOf input token
      pure (resume callers (.integer value))
  | .parseString use => do
      let lenStart ← position
      pure (.active (.stringLoop use lenStart) callers)
  | .stringLoop use lenStart =>
      scanRound input (byte ':') (.active (.stringLoop use lenStart) callers)
        (.active (.stringToken use lenStart) callers)
  | .stringToken use lenStart => do
      let token ← tokenFrom input "Invalid string length header." lenStart
      let length ← lengthOf token
      pure (.active (.stringColon use length) callers)
  | .stringColon use length => do
      let _ ← get input
      pure (.active (.stringBytes use length) callers)
  | .stringBytes use length => do
      let output ← stringOf input length
      pure (resumeString callers output use)
  | .parseList => do
      let _ ← get input
      pure (.active (.listLoop []) callers)
  | .listLoop items => do
      if ← eof input then throwRuntime "Unterminated list."
      else if (← peek input) = byte 'e' then do
        let _ ← get input
        pure (resume callers (.list items))
      else pure (.active .parseValue (.list items :: callers))
  | .parseDictionary => do
      let _ ← get input
      pure (.active (.dictionaryLoop []) callers)
  | .dictionaryLoop dictionary => do
      if ← eof input then throwRuntime "Unterminated dictionary."
      else if (← peek input) = byte 'e' then do
        let _ ← get input
        pure (resume callers (.dictionary dictionary))
      else pure (.active (.parseString (.key dictionary)) callers)
  | .finish value => do
      if ← eof input then pure (.returned value)
      else throwRuntime "Trailing bytes after bencode root value."

end Act

/-- The parser in the middle of a run. -/
structure Machine where
  progress : Progress
  state : ParserState

/-- One step.  A machine that has returned or thrown stays as it is. -/
def step (input : StringView) (m : Machine) : Machine :=
  match m.progress with
  | .active control callers =>
      match act input callers control m.state with
      | .value progress s => ⟨progress, s⟩
      | .thrown e s => ⟨.threw e, s⟩
      | .running s => ⟨m.progress, s⟩
  | .returned _ => m
  | .threw _ => m

/-- `BencodeParser(input).parse()` at its beginning. -/
def start : Machine := ⟨.active .parseValue [], parserStart⟩

end BencodeMachine

end Vtfs.Model
