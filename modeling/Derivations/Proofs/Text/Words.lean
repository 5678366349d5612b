import Derivations.Proofs.Text.Characters
import Mathlib.Data.List.Basic

/-!
# Splitting Words

What is shown of a parse is its sentence, the symbols of the word written one behind the other,
and not the word. Somebody who reads the sentence and parses it again expects the same symbols,
although the sentence need not have the bytes of the word. White space and `ε` are gone, and so
are malformed bytes: each has become U+FFFD, which takes three bytes of its own.

Decoding what has been encoded is not enough for this. It says that a character is read back
from the front of a text, but symbols are written without separators, and bytes of two symbols
standing side by side must not be taken for a character. This cannot happen behind a whole
character, so it cannot happen in a text that consists of characters. Reading goes through such
a text from one character to the next and starts anew behind it, whatever follows.

It does happen behind a malformed text. The two bytes of `é` are two malformed texts, and
together they are a character.

## Main definitions

* `Text.IsUtf8`: A text consists of characters.
* `letters`: The characters of a word that become symbols.

## Theorems

* `Utf8.glyphs_flatMap_encode_append`: Characters are read back one after the other.
* `Text.isUtf8_iff_glyphs`: A text consists of characters if and only if no byte is malformed.
* `symbols_append`: Behind a text of characters, reading starts anew.
* `symbols_sentence`: The symbols of a sentence are those it has been made of.
* `symbols_stable`: All of this together.
-/

namespace Derivations

namespace Text

/-- A text consists of characters. -/
def IsUtf8 (t : Text) : Prop :=
  t.toByteArray.IsValidUTF8

theorem isUtf8_iff {t : Text} : t.IsUtf8 ↔ ∃ cs : List Char, t = cs.flatMap Utf8.encode := by
  constructor
  · rintro ⟨cs, h⟩
    exact ⟨cs, List.toByteArray_inj.1 h⟩
  · rintro ⟨cs, rfl⟩
    exact ⟨cs, rfl⟩

end Text

namespace Utf8

/-- Characters that have been written are read back one after the other, and reading goes on
    behind them. -/
theorem glyphs_flatMap_encode_append (cs : List Char) (t : Text) :
    glyphs (cs.flatMap encode ++ t) = cs.map (fun c => ⟨c, encode c⟩) ++ glyphs t := by
  induction cs with
  | nil => rfl
  | cons c cs ih =>
    rw [List.flatMap_cons, List.append_assoc, glyphs_encode_append, ih]
    rfl

theorem glyphs_flatMap_encode (cs : List Char) :
    glyphs (cs.flatMap encode) = cs.map fun c => ⟨c, encode c⟩ := by
  have hread := glyphs_flatMap_encode_append cs []
  rwa [List.append_nil, show glyphs [] = [] from rfl, List.append_nil] at hread

theorem flatMap_bytes_glyphs (t : Text) : (glyphs t).flatMap (·.bytes) = t := by
  rw [glyphs, List.flatMap_map]
  exact Text.flatMap_cut front t

end Utf8

/-- A text consists of characters if and only if none of its bytes is malformed. -/
theorem Text.isUtf8_iff_glyphs {t : Text} :
    t.IsUtf8 ↔ ∀ g ∈ Utf8.glyphs t, g.bytes = Utf8.encode g.char := by
  rw [Text.isUtf8_iff]
  constructor
  · rintro ⟨cs, rfl⟩ g hg
    rw [Utf8.glyphs_flatMap_encode] at hg
    rcases List.mem_map.1 hg with ⟨c, -, rfl⟩
    rfl
  · intro h
    refine ⟨(Utf8.glyphs t).map (·.char), ?_⟩
    calc t = (Utf8.glyphs t).flatMap (·.bytes) := (Utf8.flatMap_bytes_glyphs t).symm
      _ = (Utf8.glyphs t).flatMap fun g => Utf8.encode g.char := List.flatMap_congr h
      _ = ((Utf8.glyphs t).map (·.char)).flatMap Utf8.encode := (List.flatMap_map ..).symm

instance (t : Text) : Decidable t.IsUtf8 :=
  decidable_of_iff _ Text.isUtf8_iff_glyphs.symm

/-- Whether a character becomes a symbol: white space and `ε` do not. -/
def isLetter (c : Char) : Bool :=
  !(isBlank c || c = epsilon)

/-- The characters of a word that become symbols. -/
def letters (word : Text) : List Char :=
  ((Utf8.glyphs word).map (·.char)).filter isLetter

theorem symbols_eq_map_letters (word : Text) : symbols word = (letters word).map Utf8.encode := by
  rw [letters, List.filter_map, List.map_map]
  rfl

theorem letters_flatMap_encode (cs : List Char) :
    letters (cs.flatMap Utf8.encode) = cs.filter isLetter := by
  rw [letters, Utf8.glyphs_flatMap_encode, List.map_map]
  exact congrArg (List.filter isLetter) (List.map_id cs)

/-- Behind a text that consists of characters, reading starts anew. -/
theorem symbols_append {u : Text} (hu : u.IsUtf8) (v : Text) :
    symbols (u ++ v) = symbols u ++ symbols v := by
  rcases Text.isUtf8_iff.1 hu with ⟨cs, rfl⟩
  rw [symbols, Utf8.glyphs_flatMap_encode_append, ← Utf8.glyphs_flatMap_encode,
    List.filter_append, List.map_append, symbols, symbols]

-- Half a character and the other half are two malformed bytes, but one character together.
example : symbols ([0xC3] ++ [0xA9]) ≠ symbols [0xC3] ++ symbols [0xA9] := by decide

/-- The symbols of a sentence are those it has been made of. -/
theorem symbols_sentence (word : Text) : symbols (sentence (symbols word)) = symbols word := by
  have hsentence : sentence (symbols word) = (letters word).flatMap Utf8.encode := by
    rw [sentence, symbols_eq_map_letters, List.flatMap]
  -- What has become a symbol once becomes one again.
  have hletters : letters (sentence (symbols word)) = letters word := by
    rw [hsentence, letters_flatMap_encode, letters, List.filter_filter]
    simp only [Bool.and_self]
  rw [symbols_eq_map_letters, hletters, ← symbols_eq_map_letters]

/-- Every symbol of a word is a single character, which is written in UTF-8 and is neither white
    space nor `ε`. The symbols written one behind the other are a word with the same symbols. The
    symbols of two words written one behind the other are those of the first one and those of the
    second, if the first one consists of characters. -/
theorem symbols_stable :
    (∀ word : Text, ∀ sym ∈ symbols word, ∃ c, sym = Utf8.encode c ∧
      Utf8.glyphs sym = [⟨c, sym⟩] ∧ isBlank c = false ∧ c ≠ epsilon) ∧
      (∀ word : Text, symbols (sentence (symbols word)) = symbols word) ∧
      ∀ u v : Text, u.IsUtf8 → symbols (u ++ v) = symbols u ++ symbols v := by
  refine ⟨fun word sym hsym => ?_, symbols_sentence, fun u v hu => symbols_append hu v⟩
  rw [symbols_eq_map_letters] at hsym
  rcases List.mem_map.1 hsym with ⟨c, hc, rfl⟩
  have hletter : isLetter c = true := (List.mem_filter.1 hc).2
  have hread := Utf8.glyphs_flatMap_encode [c]
  rw [List.flatMap_singleton] at hread
  simp only [isLetter, Bool.not_eq_true', Bool.or_eq_false_iff, decide_eq_false_iff_not] at hletter
  exact ⟨c, rfl, hread, hletter.1, hletter.2⟩

/-- A word with an overlong form, a surrogate, half a character and a blank. -/
def damaged : Text :=
  [0xC0, 0x80, 0x53, 0xED, 0xA0, 0x80, 0x20, 0xE2, 0x82]

/-- Malformed bytes become symbols that stay what they are. -/
theorem symbols_stable_damaged :
    (Text.ofString "\uFFFD" ∈ symbols damaged ∧
      ∃ c, Text.ofString "\uFFFD" = Utf8.encode c ∧
        Utf8.glyphs "\uFFFD" = [⟨c, "\uFFFD"⟩] ∧ isBlank c = false ∧ c ≠ epsilon) ∧
      symbols (sentence (symbols damaged)) = symbols damaged ∧
      Text.IsUtf8 "é ε" ∧ symbols ("é ε" ++ damaged) = symbols "é ε" ++ symbols damaged := by
  have hmem : Text.ofString "\uFFFD" ∈ symbols damaged := by decide
  have hvalid : Text.IsUtf8 "é ε" := by decide
  exact ⟨⟨hmem, symbols_stable.1 damaged _ hmem⟩, symbols_stable.2.1 damaged, hvalid,
    symbols_stable.2.2 "é ε" damaged hvalid⟩

end Derivations
