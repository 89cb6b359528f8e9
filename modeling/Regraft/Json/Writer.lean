import Regraft.Json.Basic
import Regraft.Number.Decimal
/-!
# Writing JSON

Two ways to quote a text (`quoteRaw` leaves characters beyond ASCII as they are, `quoteAscii` escapes
them) and two layouts (`compact` on one line, `indented` with two blanks a level).
-/
namespace Regraft.Json

/-! ## Texts -/

/-- The short escape of a character. -/
def shortEscape? : CodePoint → Option CodePoint
  | .char '"' => some '"'
  | .char '\\' => some '\\'
  | .char '\x08' => some 'b'
  | .char '\x0c' => some 'f'
  | .char '\n' => some 'n'
  | .char '\r' => some 'r'
  | .char '\t' => some 't'
  | _ => none

/-- The hexadecimal digit of a number below sixteen. -/
def hexDigit (n : Nat) : Char :=
  if n < 10 then Char.ofNat ('0'.toNat + n) else Char.ofNat ('a'.toNat + (n - 10))

/-- A 16-bit number as an escape. -/
def unicodeEscape (n : Nat) : Text :=
  ['\\', 'u', hexDigit (n / 4096 % 16), hexDigit (n / 256 % 16), hexDigit (n / 16 % 16), hexDigit (n % 16)]

/-- A code point as one escape, or as two for the halves of a surrogate pair. -/
def escapeUnits (c : CodePoint) : Text :=
  let n := c.toNat
  if n < 0x10000 then unicodeEscape n
  else unicodeEscape (0xD800 + (n - 0x10000) / 0x400) ++ unicodeEscape (0xDC00 + (n - 0x10000) % 0x400)

/-- A code point inside quotes, where `plain` says which ones need no escape. -/
def quoteCodePoint (plain : CodePoint → Bool) (c : CodePoint) : Text :=
  match shortEscape? c with
  | some e => ['\\', e]
  | none => if plain c then [c] else escapeUnits c

/-- A quoted text. -/
def quote (plain : CodePoint → Bool) (t : Text) : Text :=
  char '"' :: (t.flatMap (quoteCodePoint plain) ++ [char '"'])

/-- A quoted text that keeps characters beyond ASCII. -/
def quoteRaw : Text → Text := quote fun c => 32 ≤ c.toNat

/-- A quoted text in printable ASCII. -/
def quoteAscii : Text → Text := quote fun c => 32 ≤ c.toNat && c.toNat < 127

/-! ## Values -/

/-- A value that is neither array nor object. -/
def writeLeaf (quote : Text → Text) : Json → Text
  | .null => "null"
  | .bool true => "true"
  | .bool false => "false"
  | .int n => showInt n
  | .float x => showShortest dataNonFinite x
  | .text t => quote t
  | _ => []

mutual

/-- A value on one line. -/
def compact (quote : Text → Text) : Json → Text
  | .array items => char '[' :: compactItems quote items ++ [char ']']
  | .object members => char '\x7b' :: compactMembers quote members ++ [char '\x7d']
  | leaf => writeLeaf quote leaf

/-- The items of an array on one line. -/
def compactItems (quote : Text → Text) : List Json → Text
  | [] => []
  | [v] => compact quote v
  | v :: vs => compact quote v ++ char ',' :: compactItems quote vs

/-- The members of an object on one line. -/
def compactMembers (quote : Text → Text) : List (Text × Json) → Text
  | [] => []
  | [(k, v)] => quote k ++ char ':' :: compact quote v
  | (k, v) :: ms => quote k ++ char ':' :: (compact quote v ++ char ',' :: compactMembers quote ms)

end

/-- A new line at a level of indent. -/
def newLine (level : Nat) : Text := '\n' :: List.replicate (2 * level) ' '

mutual

/-- A value over several lines, with two blanks for each level. -/
def indented (quote : Text → Text) (level : Nat) : Json → Text
  | .array [] => ['[', ']']
  | .array items => char '[' :: (indentedItems quote (level + 1) items ++ newLine level ++ [char ']'])
  | .object [] => ['\x7b', '\x7d']
  | .object members => char '\x7b' :: (indentedMembers quote (level + 1) members ++ newLine level ++ [char '\x7d'])
  | leaf => writeLeaf quote leaf

/-- The items of an array, each on lines of its own. -/
def indentedItems (quote : Text → Text) (level : Nat) : List Json → Text
  | [] => []
  | [v] => newLine level ++ indented quote level v
  | v :: vs => newLine level ++ indented quote level v ++ char ',' :: indentedItems quote level vs

/-- The members of an object, each on lines of its own. -/
def indentedMembers (quote : Text → Text) (level : Nat) : List (Text × Json) → Text
  | [] => []
  | [(k, v)] => newLine level ++ quote k ++ char ':' :: char ' ' :: indented quote level v
  | (k, v) :: ms =>
    newLine level ++ quote k ++ char ':' :: char ' ' ::
      (indented quote level v ++ char ',' :: indentedMembers quote level ms)

end

/-- A member before another one in the order of keys. -/
def keyBefore (a b : Text × Json) : Bool := noLater a.1 b.1

/-- An object's members in the order of their keys. -/
def sortMembers (members : List (Text × Json)) : List (Text × Json) := members.mergeSort keyBefore

end Regraft.Json
