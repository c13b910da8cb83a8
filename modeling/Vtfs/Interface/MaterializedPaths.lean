import Vtfs.Model.VirtualDrive

/-!
# Where files are materialized

A path of the torrent becomes a path of the sparse tree: its tokens, made into names that Windows
takes, one after the other below a root.  `IsSafeComponent` says what such a name cannot do, and
`Materializes` that there is nothing else after the root.
-/

set_option autoImplicit false

namespace Vtfs.Interface

open Vtfs.Library
open Vtfs.Model

/-- A control character of Unicode. -/
def IsControl (ch : UInt16) : Prop := ch < 32 ∨ 127 ≤ ch ∧ ch ≤ 159

instance (ch : UInt16) : Decidable (IsControl ch) := by
  unfold IsControl; infer_instance

/-- A component of a path that names a file or a directory and nothing else, without control
characters of a kind. -/
structure IsSafeComponent (control : UInt16 → Prop) (component : Wide) : Prop where
  nonempty : component ≠ []
  no_control : ∀ ch ∈ component, ¬ control ch
  no_invalid : ∀ ch ∈ component, ch ∉ invalidChars
  no_dot_last : component.getLast? ≠ some (wideChar '.')
  no_space_last : component.getLast? ≠ some (wideChar ' ')
  not_dot : component ≠ wideText "."
  not_dotDot : component ≠ wideText ".."
  not_absolute : WindowsPath.isAbsolute component = false

/-- The name that a token is given. -/
def componentFor (decoder : MultiByteToWideChar) (forceAscii : Bool) (token : Bytes) : Wide :=
  if forceAscii then asciiFallbackComponent token
  else sanitizeWindowsComponent (torrentTextToWide decoder token)

/-- A root, and components after it with a backslash before each.  Before the first there is none
where the root needs none. -/
def followedBy (root : Wide) : List Wide → Wide
  | [] => root
  | first :: rest => root ++ WindowsPath.separatorAfter root ++ first ++
      rest.flatMap fun component => wideChar '\\' :: component

/-- The materialized path is the root followed by the names of the tokens, which are safe. -/
structure Materializes (control : UInt16 → Prop) (decoder : MultiByteToWideChar) (root : Wide)
    (torrentRelativePath : Bytes) (forceAscii : Bool) : Prop where
  path : materializedPath decoder root torrentRelativePath forceAscii =
    followedBy root ((pathTokens torrentRelativePath).map (componentFor decoder forceAscii))
  safe : ∀ token ∈ pathTokens torrentRelativePath,
    IsSafeComponent control (componentFor decoder forceAscii token)

end Vtfs.Interface
