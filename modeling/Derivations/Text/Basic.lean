/-!
# Text

Words, grammar files and everything that is printed are sequences of bytes.
Nothing guarantees that the bytes are well-formed UTF-8: a grammar file may
hold any bytes at all, and they have to come out again unchanged. Text is
therefore a list of bytes, and characters are a view of it
(`Derivations.Text.Utf8`), not its substance.

A string literal stands for its UTF-8 bytes wherever a text is expected, so
messages are written as plain concatenations.

## Main definitions

* `Text`: A sequence of bytes.
* `Text.ofString`: The UTF-8 bytes of a string.
* `Text.decimal`, `Text.integer`: Decimal notation of numbers.
* `Text.words`: Texts separated by single blanks.
* `Text.occursIn`: Whether one text occurs within another.
* `Text.splitAt`: The parts between the occurrences of a byte.
* `Text.sort`: Texts in ascending byte order.
-/

namespace Derivations

/-- A sequence of bytes. -/
abbrev Text := List UInt8

namespace Text

/-- Equality of texts is decided byte by byte, up to the first difference. -/
def decEq : (s t : Text) → Decidable (s = t)
  | [], [] => isTrue rfl
  | [], _ :: _ => isFalse fun e => nomatch e
  | _ :: _, [] => isFalse fun e => nomatch e
  | a :: s, b :: t =>
    if h : a = b then
      match decEq s t with
      | isTrue hs => isTrue (by rw [h, hs])
      | isFalse hs => isFalse fun e => hs (List.cons.inj e).2
    else
      isFalse fun e => h (List.cons.inj e).1

instance : DecidableEq Text := decEq

/-- The UTF-8 bytes of a string. -/
def ofString (s : String) : Text :=
  s.toList.flatMap String.utf8EncodeChar

instance : Coe String Text := ⟨ofString⟩

/-- A number in decimal notation, without leading zeros. -/
def decimal (n : Nat) : Text :=
  (Nat.toDigits 10 n).map Char.toUInt8

/-- An integer in decimal notation, with a minus sign when it is negative. -/
def integer : Int → Text
  | .ofNat n => decimal n
  | .negSucc n => "-" ++ decimal (n + 1)

/-- A number in hexadecimal notation with lower-case digits, filled up with
    zeros on the left to the given width. -/
def hex (width n : Nat) : Text :=
  ((Nat.toDigits 16 n).map Char.toUInt8).leftpad width '0'.toUInt8

/-- A truth value as a word. -/
def truth (b : Bool) : Text :=
  if b then "true" else "false"

/-- Texts separated by single blanks. -/
def words (parts : List Text) : Text :=
  List.intercalate " " parts

/-- Whether `part` occurs in a text as a run of consecutive bytes. -/
def occursIn (part : Text) : Text → Bool
  | [] => part.isEmpty
  | b :: rest => part.isPrefixOf (b :: rest) || occursIn part rest

/-- The parts of a text between the occurrences of a byte. There is one part
    more than there are occurrences, so the empty text has one empty part. -/
def splitAt (mark : UInt8) : Text → List Text
  | [] => [[]]
  | b :: rest =>
    if b = mark then
      [] :: splitAt mark rest
    else
      match splitAt mark rest with
      | [] => [[b]]
      | part :: parts => (b :: part) :: parts

/-- Texts in ascending byte order. -/
def sort (texts : List Text) : List Text :=
  texts.mergeSort (fun a b => decide (a ≤ b))

end Text

end Derivations
