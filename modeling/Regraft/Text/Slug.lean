import Regraft.Text.Bytes
import Regraft.Text.Case
import Regraft.Digest.Sha256
/-!
# Slugs

A slug is a file name made from a text, such as a path: letters, digits, underscores, points and hyphens
of ASCII, with a hyphen for every run of anything else. A slug over the length limit keeps its beginning
and gets a short digest of the whole, so that long texts with a common beginning stay apart.
-/
namespace Regraft

/-- How slugs are made. -/
structure SlugStyle where
  /-- The slug of a text of which nothing is left. -/
  fallback : Text := "file"
  /-- The longest slug without a digest. -/
  maxLength : Int := 120
  /-- Capital letters are made small. -/
  small : Bool := true

/-- The characters that a slug keeps. -/
def isSlugChar (small : Bool) : CodePoint → Bool :=
  CodePoint.isIn fun c => c.isLower || c.isDigit || c == '_' || c == '.' || c == '-' || (!small && c.isUpper)

/-- One hyphen for every run of characters that are not kept; hyphens next to each other become one. -/
def hyphenate (keep : CodePoint → Bool) : Text → Text
  | [] => []
  | c :: cs =>
    let rest := hyphenate keep cs
    if keep c && c != '-' then c :: rest
    else match rest with
      | .char '-' :: _ => rest
      | _ => '-' :: rest

/-- The hexadecimal digits of bytes. -/
def hexBytes (bytes : List UInt8) : Text :=
  let digit (n : Nat) : Char := ("0123456789abcdef".toList[n]?).getD '0'
  bytes.flatMap fun b => [digit (b.toNat / 16), digit (b.toNat % 16)]

/-- Eight hexadecimal digits that depend on the whole text. -/
def shortDigest (t : Text) : Text := hexBytes ((Sha256.digest t.bytes).take 4)

/-- A slug cut to a length, with a digest of the whole behind it. -/
def shortenSlug (maxLength : Int) (slug : Text) : Text :=
  let kept := slug.take (max (maxLength - 9) 1).toNat
  dropEndWhile (· == '-') kept ++ char '-' :: shortDigest slug

/-- The slug of a text before it is cut to a length. -/
def wholeSlug (style : SlugStyle) (t : Text) : Text :=
  let source := if (strip t).isEmpty then style.fallback else strip t
  let source := if style.small then lowerCase source else source
  let flat := trimWhile (fun c => c == '-' || c == '.') (hyphenate (isSlugChar style.small) source)
  if flat.isEmpty then style.fallback else flat

/-- The slug of a text. -/
def slug (style : SlugStyle) (t : Text) : Text :=
  let whole := wholeSlug style t
  if (whole.length : Int) ≤ style.maxLength then whole else shortenSlug style.maxLength whole

/-- The slug of a text; none if it needs the digest of a text with half of a surrogate pair, as only a
fallback can be. -/
def slug? (style : SlugStyle) (t : Text) : Option Text :=
  let whole := wholeSlug style t
  if (whole.length : Int) ≤ style.maxLength ∨ whole.chars?.isSome then some (slug style t) else none

end Regraft
