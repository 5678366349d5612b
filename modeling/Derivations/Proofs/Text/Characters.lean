import Derivations.Symbol

/-!
# Reading Characters

A character is written as one to four bytes, and reading gets it back from them, whatever
follows. Its first byte says how many others belong to it, and every byte holds some of the
digits of its code point, each in a place of its own. So the code point can be put together
again, and it is large enough for the number of bytes, as it would have been written with
fewer bytes otherwise.

Any byte that begins a character is either below 128, and then it is all of the character, or
is followed by bytes from 128 on. This holds for malformed texts too, where a byte that does
not begin a well-formed sequence is read as a character of its own.

## Main definitions

* `Text.IsCharacter`: A text has the bytes of a single character.

## Theorems

* `Utf8.glyphs_encode_append`: A character that has been written is read back.
* `Utf8.count_encode`: It is a single one.
* `Text.isCharacter_of_count_eq_one`: What the bytes of a single character can be.
* `not_blank_of_mem_symbols`: The symbols of a word are single characters, but no blanks.
-/

namespace Derivations

namespace Utf8

theorem scalar?_toNat {least : Nat} (c : Char) (h : least ≤ c.toNat) :
    scalar? least c.toNat = some c := by
  have hvalid : c.toNat.isValidChar := c.valid
  unfold scalar?
  rw [dif_pos hvalid, if_pos h]
  rfl

-- A first byte tells how many others belong to the character, and holds some digits itself.

theorem lead_one : ∀ x < 128, UInt8.ofNat x < 0x80 ∧ (UInt8.ofNat x).toNat = x := by
  decide

theorem lead_two : ∀ x < 32, ¬UInt8.ofNat (x + 192) < 0x80 ∧
    UInt8.ofNat (x + 192) &&& 0xE0 = 0xC0 ∧ (UInt8.ofNat (x + 192) &&& 0x1F).toNat = x := by
  decide

theorem lead_three : ∀ x < 16, ¬UInt8.ofNat (x + 224) < 0x80 ∧
    UInt8.ofNat (x + 224) &&& 0xE0 ≠ 0xC0 ∧ UInt8.ofNat (x + 224) &&& 0xF0 = 0xE0 ∧
    (UInt8.ofNat (x + 224) &&& 0x0F).toNat = x := by
  decide

theorem lead_four : ∀ x < 8, ¬UInt8.ofNat (x + 240) < 0x80 ∧
    UInt8.ofNat (x + 240) &&& 0xE0 ≠ 0xC0 ∧ UInt8.ofNat (x + 240) &&& 0xF0 ≠ 0xE0 ∧
    UInt8.ofNat (x + 240) &&& 0xF8 = 0xF0 ∧ (UInt8.ofNat (x + 240) &&& 0x07).toNat = x := by
  decide

/-- A byte behind the first one gives back the digits it holds. -/
theorem continuation?_ofNat : ∀ y < 64, continuation? (UInt8.ofNat (y + 128)) = some y := by
  decide

theorem encode_eq (c : Char) :
    encode c =
      if c.toNat ≤ 127 then [UInt8.ofNat c.toNat]
      else if c.toNat ≤ 2047 then
        [UInt8.ofNat (c.toNat / 64 % 32 + 192), UInt8.ofNat (c.toNat % 64 + 128)]
      else if c.toNat ≤ 65535 then
        [UInt8.ofNat (c.toNat / 4096 % 16 + 224), UInt8.ofNat (c.toNat / 64 % 64 + 128),
          UInt8.ofNat (c.toNat % 64 + 128)]
      else
        [UInt8.ofNat (c.toNat / 262144 % 8 + 240), UInt8.ofNat (c.toNat / 4096 % 64 + 128),
          UInt8.ofNat (c.toNat / 64 % 64 + 128), UInt8.ofNat (c.toNat % 64 + 128)] :=
  rfl

/-- The character at the front of a text is read from its bytes. -/
theorem front?_encode (c : Char) (t : Text) :
    ∃ first more, encode c = first :: more ∧
      front? first (more ++ t) = some (c, more.length) := by
  have hbound : c.toNat < 0x110000 := by
    have hvalid : c.toNat.isValidChar := c.valid
    unfold Nat.isValidChar at hvalid
    omega
  have hlast : continuation? (UInt8.ofNat (c.toNat % 64 + 128)) = some (c.toNat % 64) :=
    continuation?_ofNat _ (Nat.mod_lt _ (by decide))
  have hmiddle : continuation? (UInt8.ofNat (c.toNat / 64 % 64 + 128)) =
      some (c.toNat / 64 % 64) := continuation?_ofNat _ (Nat.mod_lt _ (by decide))
  have hsecond : continuation? (UInt8.ofNat (c.toNat / 4096 % 64 + 128)) =
      some (c.toNat / 4096 % 64) := continuation?_ofNat _ (Nat.mod_lt _ (by decide))
  rw [encode_eq]
  by_cases h₁ : c.toNat ≤ 127
  · have hlead := lead_one c.toNat (by omega)
    rw [if_pos h₁]
    refine ⟨_, [], rfl, ?_⟩
    unfold front?
    rw [if_pos hlead.1, hlead.2, scalar?_toNat c (Nat.zero_le _)]
    rfl
  · rw [if_neg h₁]
    by_cases h₂ : c.toNat ≤ 2047
    · have hlead := lead_two (c.toNat / 64 % 32) (Nat.mod_lt _ (by decide))
      have hcode : c.toNat / 64 % 32 * 64 + c.toNat % 64 = c.toNat := by omega
      rw [if_pos h₂]
      refine ⟨_, [_], rfl, ?_⟩
      unfold front?
      rw [if_neg hlead.1, if_pos hlead.2.1]
      simp only [List.cons_append, hlast, hlead.2.2, Option.bind_eq_bind, Option.bind_some, hcode,
        scalar?_toNat c (show 0x80 ≤ c.toNat by omega)]
      rfl
    · rw [if_neg h₂]
      by_cases h₃ : c.toNat ≤ 65535
      · have hlead := lead_three (c.toNat / 4096 % 16) (Nat.mod_lt _ (by decide))
        have hcode : (c.toNat / 4096 % 16 * 64 + c.toNat / 64 % 64) * 64 + c.toNat % 64 =
            c.toNat := by omega
        rw [if_pos h₃]
        refine ⟨_, [_, _], rfl, ?_⟩
        unfold front?
        rw [if_neg hlead.1, if_neg hlead.2.1, if_pos hlead.2.2.1]
        simp only [List.cons_append, hmiddle, hlast, hlead.2.2.2, Option.bind_eq_bind,
          Option.bind_some, hcode, scalar?_toNat c (show 0x800 ≤ c.toNat by omega)]
        rfl
      · have hlead := lead_four (c.toNat / 262144 % 8) (Nat.mod_lt _ (by decide))
        have hcode : ((c.toNat / 262144 % 8 * 64 + c.toNat / 4096 % 64) * 64 +
            c.toNat / 64 % 64) * 64 + c.toNat % 64 = c.toNat := by omega
        rw [if_neg h₃]
        refine ⟨_, [_, _, _], rfl, ?_⟩
        unfold front?
        rw [if_neg hlead.1, if_neg hlead.2.1, if_neg hlead.2.2.1, if_pos hlead.2.2.2.1]
        simp only [List.cons_append, hsecond, hmiddle, hlast, hlead.2.2.2.2, Option.bind_eq_bind,
          Option.bind_some, hcode, scalar?_toNat c (show 0x10000 ≤ c.toNat by omega)]
        rfl

theorem glyphs_cons (first : UInt8) (rest : Text) :
    glyphs (first :: rest) =
      ⟨(front first rest).1, first :: rest.take (front first rest).2⟩ ::
        glyphs (rest.drop (front first rest).2) := by
  rw [glyphs, Text.cut_cons, List.map_cons]
  rfl

/-- A character that has been written is read back, whatever follows. -/
theorem glyphs_encode_append (c : Char) (t : Text) :
    glyphs (encode c ++ t) = ⟨c, encode c⟩ :: glyphs t := by
  rcases front?_encode c t with ⟨first, more, hencode, hfront⟩
  have hread : front first (more ++ t) = (c, more.length) := by rw [front, hfront, Option.getD_some]
  rw [hencode, List.cons_append, glyphs_cons, hread, List.take_left, List.drop_left]

/-- A character that has been written is a single one. -/
theorem count_encode (c : Char) : count (encode c) = 1 := by
  have hglyphs := glyphs_encode_append c []
  rw [List.append_nil] at hglyphs
  rw [count, hglyphs]
  rfl

theorem high_of_continuation? {b : UInt8} {n : Nat} (h : continuation? b = some n) :
    0x80 ≤ b := by
  unfold continuation? at h
  split at h
  · rename_i hmask
    rw [← hmask]
    exact UInt8.and_le_left
  · cases h

/-- A byte below 128 is all of a character. -/
theorem front_of_low {first : UInt8} (h : first < 0x80) (rest : Text) :
    (front first rest).2 = 0 := by
  unfold front front?
  rw [if_pos h]
  cases scalar? 0 first.toNat <;> rfl

/-- The bytes of a character behind the first one are not below 128. -/
theorem high_of_mem_front {first : UInt8} {rest : Text} :
    ∀ b ∈ rest.take (front first rest).2, 0x80 ≤ b := by
  unfold front
  cases h : front? first rest with
  | none =>
    rw [Option.getD_none, List.take_zero]
    exact fun b hb => absurd hb List.not_mem_nil
  | some p =>
    rw [Option.getD_some]
    -- The cases are the numbers of bytes that the first one may announce.
    unfold front? at h
    split at h
    · rcases Option.map_eq_some_iff.1 h with ⟨_, _, rfl⟩
      exact fun b hb => absurd hb List.not_mem_nil
    · split at h
      · split at h
        · simp only [bind, Option.bind_eq_some_iff] at h
          rcases h with ⟨_, hb, _, _, hp⟩
          cases hp
          simp [high_of_continuation? hb]
        · cases h
      · split at h
        · split at h
          · simp only [bind, Option.bind_eq_some_iff] at h
            rcases h with ⟨_, hb, _, hb', _, _, hp⟩
            cases hp
            simp [high_of_continuation? hb, high_of_continuation? hb']
          · cases h
        · split at h
          · split at h
            · simp only [bind, Option.bind_eq_some_iff] at h
              rcases h with ⟨_, hb, _, hb', _, hb'', _, _, hp⟩
              cases hp
              simp [high_of_continuation? hb, high_of_continuation? hb',
                high_of_continuation? hb'']
            · cases h
          · cases h

end Utf8

namespace Text

/-- A text is a byte below 128, or a run of bytes that are not below 128. -/
def IsCharacter (t : Text) : Prop :=
  (∃ b, b < 128 ∧ t = [b]) ∨ t ≠ [] ∧ ∀ b ∈ t, 128 ≤ b

/-- A single character is a byte below 128, or a run of bytes that are not. -/
theorem isCharacter_of_count_eq_one {t : Text} (h : Utf8.count t = 1) : IsCharacter t := by
  cases t with
  | nil => cases h
  | cons first rest =>
    rw [Utf8.count, Utf8.glyphs_cons, List.length_cons, Nat.add_eq_right] at h
    -- Nothing is left to be read behind the first character.
    have hrest : rest.drop (Utf8.front first rest).2 = [] := by
      cases hdrop : rest.drop (Utf8.front first rest).2 with
      | nil => rfl
      | cons b more =>
        rw [hdrop, Utf8.glyphs_cons] at h
        cases h
    by_cases hfirst : first < 128
    · rw [Utf8.front_of_low hfirst, List.drop_zero] at hrest
      exact Or.inl ⟨first, hfirst, by rw [hrest]⟩
    · refine Or.inr ⟨List.cons_ne_nil _ _, List.forall_mem_cons.2 ⟨UInt8.not_lt.1 hfirst, ?_⟩⟩
      have hall : rest.take (Utf8.front first rest).2 = rest :=
        List.take_of_length_le (List.drop_eq_nil_iff.1 hrest)
      rw [← hall]
      exact Utf8.high_of_mem_front

end Text

/-- The symbols of a word are single characters and no blanks. -/
theorem not_blank_of_mem_symbols {word : Text} {sym : Symbol} (h : sym ∈ symbols word) :
    Utf8.count sym = 1 ∧ sym ≠ " " := by
  rcases List.mem_map.1 h with ⟨glyph, hglyph, rfl⟩
  refine ⟨Utf8.count_encode glyph.char, fun hblank => ?_⟩
  -- Reading the blank tells which character it is.
  have hread := Utf8.glyphs_encode_append glyph.char []
  rw [List.append_nil, hblank] at hread
  have hchar : ' ' = glyph.char := congrArg Glyph.char (List.cons.inj hread).1
  have hkept := (List.mem_filter.1 hglyph).2
  rw [← hchar] at hkept
  exact absurd hkept (by decide)

end Derivations
