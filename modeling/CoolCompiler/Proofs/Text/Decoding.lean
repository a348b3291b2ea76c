import CoolCompiler.Text.Utf8

/-!
# Reading what was encoded

The bytes of a character are read as that character, whatever follows.  So the text of some
characters is read as just those.
-/

namespace CoolCompiler.Text

open List UInt8

theorem toNat_ofNat_of_lt {n : Nat} (h : n < 256) : (ofNat n).toNat = n := by
  rw [toNat_ofNat', Nat.mod_eq_of_lt h]

theorem ofNat_lt_iff {n : Nat} (h : n < 256) (b : UInt8) : ofNat n < b ↔ n < b.toNat := by
  rw [lt_iff_toNat_lt, toNat_ofNat_of_lt h]

theorem tail?_ofNat {n : Nat} (h : n < 64) : tail? (ofNat (n + 128)) = some n := by
  have hlt := ofNat_lt_iff (n := n + 128) (by omega)
  simp only [tail?, ← UInt8.not_lt, hlt, UInt8.reduceToNat]
  rw [if_pos (by omega), toNat_ofNat_of_lt (by omega), Nat.add_sub_cancel]

theorem scalar?_toNat {least n : Nat} {c : Char} (hn : n = c.toNat) (h : least ≤ c.toNat) :
    scalar? least n = some c := by
  rw [scalar?, hn, if_pos ⟨h, c.valid⟩, Char.ofNat_toNat]

/-!
# Characters

A first byte says by its range how many bytes follow it.
-/

section Leading

variable {x y z w : Nat} {c : Char} (rest : Text)

theorem leading?_one (hx : x < 128) (hc : x = c.toNat) :
    leading? (ofNat x) rest = some (c, 0) := by
  have hlt := ofNat_lt_iff (n := x) (by omega)
  simp only [leading?, hlt, UInt8.reduceToNat]
  rw [if_pos hx, toNat_ofNat_of_lt (by omega), hc, Char.ofNat_toNat]

theorem leading?_two (hx : x < 32) (hy : y < 64) (hc : x * 64 + y = c.toNat)
    (hleast : 0x80 ≤ c.toNat) :
    leading? (ofNat (x + 192)) (ofNat (y + 128) :: rest) = some (c, 1) := by
  have hlt := ofNat_lt_iff (n := x + 192) (by omega)
  simp only [leading?, hlt, UInt8.reduceToNat, tail?_ofNat hy, Option.bind_eq_bind,
    Option.bind_some]
  rw [if_neg (by omega), if_neg (by omega), if_pos (by omega), toNat_ofNat_of_lt (by omega),
    Nat.add_sub_cancel, scalar?_toNat hc hleast]
  rfl

theorem leading?_three (hx : x < 16) (hy : y < 64) (hz : z < 64)
    (hc : (x * 64 + y) * 64 + z = c.toNat) (hleast : 0x800 ≤ c.toNat) :
    leading? (ofNat (x + 224)) (ofNat (y + 128) :: ofNat (z + 128) :: rest) = some (c, 2) := by
  have hlt := ofNat_lt_iff (n := x + 224) (by omega)
  simp only [leading?, hlt, UInt8.reduceToNat, tail?_ofNat hy, tail?_ofNat hz, Option.bind_eq_bind,
    Option.bind_some]
  rw [if_neg (by omega), if_neg (by omega), if_neg (by omega), if_pos (by omega),
    toNat_ofNat_of_lt (by omega), Nat.add_sub_cancel, scalar?_toNat hc hleast]
  rfl

theorem leading?_four (hx : x < 8) (hy : y < 64) (hz : z < 64) (hw : w < 64)
    (hc : ((x * 64 + y) * 64 + z) * 64 + w = c.toNat) (hleast : 0x10000 ≤ c.toNat) :
    leading? (ofNat (x + 240))
      (ofNat (y + 128) :: ofNat (z + 128) :: ofNat (w + 128) :: rest) = some (c, 3) := by
  have hlt := ofNat_lt_iff (n := x + 240) (by omega)
  simp only [leading?, hlt, UInt8.reduceToNat, tail?_ofNat hy, tail?_ofNat hz, tail?_ofNat hw,
    Option.bind_eq_bind, Option.bind_some]
  rw [if_neg (by omega), if_neg (by omega), if_neg (by omega), if_neg (by omega),
    if_pos (by omega), toNat_ofNat_of_lt (by omega), Nat.add_sub_cancel, scalar?_toNat hc hleast]
  rfl

end Leading

theorem leading?_encode (c : Char) (rest : Text) :
    ∃ b bs, String.utf8EncodeChar c = b :: bs ∧ leading? b (bs ++ rest) = some (c, bs.length) := by
  have hvalid : c.toNat < 1114112 := by
    rcases c.valid with h | h
    · exact Nat.lt_trans h (by decide)
    · exact h.2
  have hval : c.val.toNat = c.toNat := rfl
  unfold String.utf8EncodeChar
  simp only [hval]
  split
  · exact ⟨_, _, rfl, leading?_one _ (by omega) rfl⟩
  · split
    · exact ⟨_, _, rfl, leading?_two _ (by omega) (by omega) (by omega) (by omega)⟩
    · split
      · exact ⟨_, _, rfl, leading?_three _ (by omega) (by omega) (by omega) (by omega) (by omega)⟩
      · exact ⟨_, _, rfl, leading?_four _ (by omega) (by omega) (by omega) (by omega) (by omega)
          (by omega)⟩

theorem glyphs_encode_append (c : Char) (rest : Text) :
    glyphs (String.utf8EncodeChar c ++ rest) = .char c :: glyphs rest := by
  obtain ⟨b, bs, hencode, hleading⟩ := leading?_encode c rest
  rw [hencode, cons_append, glyphs, hleading]
  simp only [drop_left]

theorem glyphs_ofChars (cs : List Char) : glyphs (ofChars cs) = cs.map .char := by
  induction cs with
  | nil => rw [ofChars, flatMap_nil, glyphs, map_nil]
  | cons c cs ih =>
    rw [ofChars, flatMap_cons, glyphs_encode_append, map_cons]
    exact congrArg _ ih

theorem chars_ofChars (cs : List Char) : chars (ofChars cs) = cs := by
  rw [chars, glyphs_ofChars, map_map]
  exact map_id cs

theorem ofChars_append (cs ds : List Char) : ofChars (cs ++ ds) = ofChars cs ++ ofChars ds :=
  flatMap_append

theorem bounds_of_mem_toDigits {n : Nat} {c : Char} (h : c ∈ Nat.toDigits 10 n) :
    48 ≤ c.toNat ∧ c.toNat ≤ 57 := by
  have hdigit := Nat.isDigit_of_mem_toDigits (by decide) (by decide) h
  simpa [Char.isDigit, UInt32.le_iff_toNat_le] using hdigit

end CoolCompiler.Text
