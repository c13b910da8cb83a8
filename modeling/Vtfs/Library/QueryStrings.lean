import Vtfs.Library.PercentEncoding
import Vtfs.Library.Pieces

/-!
# Query strings

A query string is a list of parameters with an ampersand between two of them, each a name and a
value with an equals sign between them, in percent encoding.  Reading is total: a percent sign with
no digits after it stands for itself, and a parameter without an equals sign has the value `[]`.
Parameters that were written are read back (`parameters_written`), and a query string may be
written after another one (`parameters_append`).
-/

set_option autoImplicit false

namespace Vtfs.Library.QueryStrings

open Vtfs.Library.PercentEncoding (percent hexValue Encodes)

/-- The sign between two parameters. -/
def ampersand : UInt8 := byte '&'

/-- The sign between a name and a value. -/
def equals : UInt8 := byte '='

/-- A text without its percent encoding. -/
def decode : Bytes → Bytes
  | c :: high :: low :: rest =>
      if c = percent then
        match hexValue high, hexValue low with
        | some a, some b => (16 * a + b) :: decode rest
        | _, _ => c :: decode (high :: low :: rest)
      else c :: decode (high :: low :: rest)
  | text => text

/-- A parameter: its name and its value. -/
def parameter (text : Bytes) : Bytes × Bytes :=
  let name := upTo equals text
  (decode name, decode (text.drop (name.length + 1)))

/-- The parameters of a query string.  Nothing between two ampersands is no parameter. -/
def parameters (query : Bytes) : List (Bytes × Bytes) :=
  ((pieces ampersand query).filter (· ≠ [])).map parameter

/-! ## One parameter -/

/-- A character that begins no escape is read as it is. -/
theorem decode_cons_of_ne {c : UInt8} (h : c ≠ percent) (text : Bytes) :
    decode (c :: text) = c :: decode text := by
  rcases text with - | ⟨d, - | ⟨e, rest⟩⟩
  · rfl
  · rfl
  · rw [decode, if_neg h]

/-- Decoding gives what was encoded. -/
theorem decode_of_encodes {plain : UInt8 → Prop} (hpercent : ¬ plain percent) {text data : Bytes}
    (h : Encodes plain text data) : decode text = data := by
  induction h with
  | nil => rfl
  | plain hc _ ih =>
      rw [decode_cons_of_ne (fun heq => hpercent (heq ▸ hc)), ih]
  | escaped hhigh hlow _ ih =>
      rw [decode, if_pos rfl, hhigh, hlow, ← ih]

/-- A text without percent signs encodes itself. -/
theorem encodes_self {text : Bytes} (h : percent ∉ text) : Encodes (· ≠ percent) text text :=
  Encodes.self fun _ hc heq => h (heq ▸ hc)

/-- A text without escapes is read as it is. -/
theorem decode_eq_self {text : Bytes} (h : percent ∉ text) : decode text = text :=
  decode_of_encodes (by simp) (encodes_self h)

/-- A name in plain text, and a value that encodes some data. -/
theorem parameter_written {plain : UInt8 → Prop} (hpercent : ¬ plain percent) {name text : Bytes}
    {data : Bytes} (hname : percent ∉ name ∧ equals ∉ name) (h : Encodes plain text data) :
    parameter (name ++ equals :: text) = (name, data) := by
  have hupTo : upTo equals (name ++ equals :: text) = name := upTo_append hname.2 text
  have hdrop : (name ++ equals :: text).drop (name.length + 1) = text := by
    rw [← List.drop_drop, List.drop_left, List.drop_one, List.tail_cons]
  rw [parameter, hupTo, hdrop, decode_eq_self hname.1, decode_of_encodes hpercent h]

/-! ## Several parameters -/

/-- At an ampersand the parameters of two queries meet. -/
theorem parameters_append (query more : Bytes) :
    parameters (query ++ ampersand :: more) = parameters query ++ parameters more := by
  rw [parameters, pieces_append, List.filter_append, List.map_append, parameters, parameters]

/-- Texts that are not empty and have no ampersand, written with one between each two, are the
parameters that are read. -/
theorem parameters_written {texts : List Bytes} (hne : texts ≠ [])
    (h : ∀ text ∈ texts, text ≠ [] ∧ ampersand ∉ text) :
    parameters (rooted ampersand texts).tail = texts.map parameter := by
  rw [parameters, pieces_tail_rooted hne fun text htext => (h text htext).2,
    List.filter_eq_self.mpr fun text htext => decide_eq_true (h text htext).1]

end Vtfs.Library.QueryStrings
