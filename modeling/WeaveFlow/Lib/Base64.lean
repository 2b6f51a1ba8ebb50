import Mathlib

/-!
# Base64

The URL alphabet without padding.  Three bytes are written as four digits, and one or two
bytes at the end as two or three.  The encoding is injective, and its digits are those of
the alphabet.  The standard encoding has two other digits and is padded.
-/

namespace Base64

open List

def alphabet : List Char :=
  "ABCDEFGHIJKLMNOPQRSTUVWXYZabcdefghijklmnopqrstuvwxyz0123456789-_".toList

/-- The digit of a number below 64. -/
def digit (n : Nat) : Char := alphabet.getD n '-'

def encode : List UInt8 → List Char
  | [] => []
  | [a] => [digit (a.toNat / 4), digit (a.toNat % 4 * 16)]
  | [a, b] => [digit (a.toNat / 4), digit (a.toNat % 4 * 16 + b.toNat / 16),
      digit (b.toNat % 16 * 4)]
  | a :: b :: c :: rest => digit (a.toNat / 4) :: digit (a.toNat % 4 * 16 + b.toNat / 16) ::
      digit (b.toNat % 16 * 4 + c.toNat / 64) :: digit (c.toNat % 64) :: encode rest

theorem digit_mem (n : Nat) : digit n ∈ alphabet := by
  unfold digit
  by_cases h : n < alphabet.length
  · rw [getD_eq_getElem _ _ h]
    exact getElem_mem h
  · rw [getD_eq_default _ _ (not_lt.mp h)]
    decide

theorem encode_subset (bytes : List UInt8) : ∀ c ∈ encode bytes, c ∈ alphabet := by
  induction bytes using encode.induct with
  | case1 => simp [encode]
  | case2 | case3 => simp [encode, digit_mem]
  | case4 a b c rest ih => simpa [encode, digit_mem] using ih

theorem digit_inj (hm : m < 64) (hn : n < 64) : digit m = digit n ↔ m = n := by
  have hv : ∀ k < 64, alphabet.idxOf (digit k) = k := by decide
  refine ⟨fun h => ?_, congrArg digit⟩
  rw [← hv m hm, h, hv n hn]

theorem encode_injective : Function.Injective encode := by
  have hb : ∀ a : UInt8, a.toNat < 256 := fun a => a.toNat_lt
  intro xs
  induction xs using encode.induct with
  | case1 =>
    rintro (_ | ⟨a', _ | ⟨b', _ | ⟨c', rest'⟩⟩⟩) h <;> simp [encode] at h ⊢
  | case2 a =>
    rintro (_ | ⟨a', _ | ⟨b', _ | ⟨c', rest'⟩⟩⟩) h <;> simp [encode] at h
    have := hb a
    have := hb a'
    simp (disch := omega) only [digit_inj] at h
    rw [← UInt8.toNat_inj.mp (by omega : a.toNat = a'.toNat)]
  | case3 a b =>
    rintro (_ | ⟨a', _ | ⟨b', _ | ⟨c', rest'⟩⟩⟩) h <;> simp [encode] at h
    have := hb a
    have := hb a'
    have := hb b
    have := hb b'
    simp (disch := omega) only [digit_inj] at h
    rw [← UInt8.toNat_inj.mp (by omega : a.toNat = a'.toNat),
      ← UInt8.toNat_inj.mp (by omega : b.toNat = b'.toNat)]
  | case4 a b c rest ih =>
    rintro (_ | ⟨a', _ | ⟨b', _ | ⟨c', rest'⟩⟩⟩) h <;> simp [encode] at h
    have := hb a
    have := hb a'
    have := hb b
    have := hb b'
    have := hb c
    have := hb c'
    simp (disch := omega) only [digit_inj] at h
    rw [← UInt8.toNat_inj.mp (by omega : a.toNat = a'.toNat),
      ← UInt8.toNat_inj.mp (by omega : b.toNat = b'.toNat),
      ← UInt8.toNat_inj.mp (by omega : c.toNat = c'.toNat), ih h.2.2.2.2]

/-- The digit of the standard alphabet. -/
def standard (c : Char) : Char := if c = '-' then '+' else if c = '_' then '/' else c

/-- The standard alphabet, filled to four digits. -/
def encodePadded (bytes : List UInt8) : List Char :=
  (encode bytes).map standard ++ replicate ((3 - bytes.length % 3) % 3) '='

theorem ne_of_mem_alphabet (h : c ∈ alphabet) : c ≠ '+' ∧ c ≠ '/' ∧ c ≠ '=' := by
  refine ⟨?_, ?_, ?_⟩ <;> (rintro rfl; revert h; decide)

theorem takeWhile_encodePadded (bytes : List UInt8) :
    (encodePadded bytes).takeWhile (fun c => c != '=') = (encode bytes).map standard := by
  rw [encodePadded, takeWhile_append_of_pos]
  · simp
  · intro c hc
    obtain ⟨d, hm, rfl⟩ := mem_map.mp hc
    have hd := ne_of_mem_alphabet (encode_subset bytes d hm)
    unfold standard
    split_ifs <;> simp [hd]

theorem encodePadded_injective : Function.Injective encodePadded := by
  have hb : ∀ bytes, ((encodePadded bytes).takeWhile (fun c => c != '=')).map
      (fun c => if c = '+' then '-' else if c = '/' then '_' else c) = encode bytes := by
    intro bytes
    rw [takeWhile_encodePadded, map_map]
    nth_rewrite 2 [← map_id (encode bytes)]
    refine map_congr_left fun c hc => ?_
    have hd := ne_of_mem_alphabet (encode_subset bytes c hc)
    simp only [Function.comp, standard, id]
    split_ifs <;> simp_all
  intro xs ys h
  refine encode_injective ?_
  rw [← hb xs, h, hb ys]

end Base64
