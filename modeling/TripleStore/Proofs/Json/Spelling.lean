import Mathlib.Tactic.SplitIfs
import TripleStore.Json.Spelling

/-!
# Spelled strings

What `encode` writes is a spelling that `scan?` finds the end of and that says the text it was made
from, whatever the characters are.
-/

namespace TripleStore.Json.Spelling

/-- What may stand between quotes: characters that stand for themselves and escapes. -/
inductive Spelled : List Char → Prop where
  | nil : Spelled []
  | plain {c : Char} {s : List Char} (hc : isPlain c) (hs : Spelled s) : Spelled (c :: s)
  | short {e : Char} {s : List Char} (he : (shortEscape? e).isSome) (hs : Spelled s) :
      Spelled ('\\' :: e :: s)
  | unicode {a b c d : Char} {s : List Char} (hd : [a, b, c, d].all Text.isHexDigit)
      (hs : Spelled s) : Spelled ('\\' :: 'u' :: a :: b :: c :: d :: s)

theorem ne_u_of_short {e : Char} (he : (shortEscape? e).isSome) : e ≠ 'u' := by
  rintro rfl
  simp [shortEscape?] at he

/-- A spelling ends at the first quote that no escape holds. -/
theorem Spelled.scan {s : List Char} (h : Spelled s) (rest : List Char) :
    scan? (s ++ '"' :: rest) = some (s, rest) := by
  induction h with
  | nil => rfl
  | @plain c s hc hs ih =>
    have hquote : c ≠ '"' := by rintro rfl; simp [isPlain] at hc
    have hslash : c ≠ '\\' := by rintro rfl; simp [isPlain] at hc
    rw [List.cons_append, scan?.eq_def]
    simp [hslash, hc, ih]
  | @short e s he hs ih =>
    have hu := ne_u_of_short he
    rw [List.cons_append, List.cons_append, scan?.eq_def]
    simp [hu, he, ih]
  | @unicode a b c d s hd hs ih =>
    simp only [List.cons_append, scan?, hd, if_true, ih, Option.map_some]

theorem Spelled.append {s t : List Char} (hs : Spelled s) (ht : Spelled t) : Spelled (s ++ t) := by
  induction hs with
  | nil => exact ht
  | plain hc _ ih => exact .plain hc ih
  | short he _ ih => exact .short he ih
  | unicode hd _ ih => exact .unicode hd ih

/-! ### Encoded texts -/

/-- Controls are spelled by four digits. -/
theorem hexDigits_control {n : Nat} (h : n < 0x20) :
    ∃ a b c d, Text.hexDigits 4 n = [a, b, c, d] ∧ [a, b, c, d].all Text.isHexDigit ∧
      Text.hexNumber [a, b, c, d] = n := by
  have hall : ∀ n < 0x20, (Text.hexDigits 4 n).length = 4 ∧
      (Text.hexDigits 4 n).all Text.isHexDigit ∧ Text.hexNumber (Text.hexDigits 4 n) = n := by
    decide
  obtain ⟨hlength, hdigits, hnumber⟩ := hall n h
  match Text.hexDigits 4 n, hlength, hdigits, hnumber with
  | [a, b, c, d], _, hdigits, hnumber => exact ⟨a, b, c, d, rfl, hdigits, hnumber⟩

/-- How a character is written: by itself, by an escape of one letter that names it, or by four
digits of its number. -/
theorem encodeChar_cases (c : Char) :
    (encodeChar c = [c] ∧ isPlain c) ∨
      (∃ e, encodeChar c = ['\\', e] ∧ shortEscape? e = some c) ∨
      (encodeChar c = '\\' :: 'u' :: Text.hexDigits 4 c.toNat ∧ c.toNat < 0x20) := by
  unfold encodeChar
  split_ifs with h1 h2 h3 h4 h5 h6 h7 h8
  · exact .inr (.inl ⟨'"', rfl, by rw [h1]; rfl⟩)
  · exact .inr (.inl ⟨'\\', rfl, by rw [h2]; rfl⟩)
  · exact .inr (.inl ⟨'b', rfl, by rw [h3]; rfl⟩)
  · exact .inr (.inl ⟨'t', rfl, by rw [h4]; rfl⟩)
  · exact .inr (.inl ⟨'n', rfl, by rw [h5]; rfl⟩)
  · exact .inr (.inl ⟨'f', rfl, by rw [h6]; rfl⟩)
  · exact .inr (.inl ⟨'r', rfl, by rw [h7]; rfl⟩)
  · exact .inr (.inr ⟨rfl, h8⟩)
  · exact .inl ⟨rfl, by simp [isPlain, h1, h2]; omega⟩

theorem encodeChar_spelled (c : Char) : Spelled (encodeChar c) := by
  rcases encodeChar_cases c with ⟨hc, hplain⟩ | ⟨e, hc, he⟩ | ⟨hc, hcontrol⟩
  · rw [hc]
    exact .plain hplain .nil
  · rw [hc]
    exact .short (by rw [he]; rfl) .nil
  · obtain ⟨a, b, c, d, hdigits, hall, -⟩ := hexDigits_control hcontrol
    rw [hc, hdigits]
    exact .unicode hall .nil

theorem encode_spelled (text : List Char) : Spelled (encode text) := by
  induction text with
  | nil => exact .nil
  | cons c text ih => exact (encodeChar_spelled c).append ih

theorem decode?_encodeChar (c : Char) (rest : List Char) :
    decode? (encodeChar c ++ rest) = (decode? rest).map (c :: ·) := by
  rcases encodeChar_cases c with ⟨hc, hplain⟩ | ⟨e, hc, he⟩ | ⟨hc, hcontrol⟩
  · have hslash : c ≠ '\\' := by rintro rfl; simp [isPlain] at hplain
    rw [hc, decode?, List.singleton_append, decodeFrom?.eq_def]
    simp [hslash, decode?]
  · have hu := ne_u_of_short (by rw [he]; rfl)
    rw [hc, decode?, List.cons_append, List.singleton_append, decodeFrom?.eq_def]
    simp [hu, he, decode?]
  · obtain ⟨a, b, c', d, hdigits, -, hnumber⟩ := hexDigits_control hcontrol
    have hhigh : isHighHalf c.toNat = false := by simp [isHighHalf]; omega
    have hlow : isLowHalf c.toNat = false := by simp [isLowHalf]; omega
    rw [hc, hdigits, decode?]
    simp [decodeFrom?, hnumber, hhigh, hlow, decode?]

/-- A text is what its encoding says. -/
theorem decode?_encode (text : List Char) : decode? (encode text) = some text := by
  induction text with
  | nil => rfl
  | cons c text ih =>
    have hcons : encode (c :: text) = encodeChar c ++ encode text := rfl
    rw [hcons, decode?_encodeChar, ih, Option.map_some]

theorem toString?_encode (text : String) : toString? (encode text.toList) = some text := by
  rw [toString?, decode?_encode, Option.map_some, String.ofList_toList]

end TripleStore.Json.Spelling
