/-!
# Text as bytes

Source files, names, string constants and output are sequences of bytes, usually but not necessarily
UTF-8: a byte that belongs to no character is carried along.  A string literal stands for its UTF-8
bytes wherever a text is expected.
-/

namespace CoolCompiler

/-- A sequence of bytes. -/
abbrev Text := List UInt8

/-- The name of a class, a feature, a variable or a label. -/
abbrev Name := Text

namespace Text

def ofString (s : String) : Text :=
  s.toByteArray.data.toList

instance : Coe String Text := ⟨ofString⟩

instance : LawfulBEq Text := inferInstanceAs (LawfulBEq (List UInt8))

/-!
# Numbers
-/

def decimal (n : Nat) : Text :=
  (Nat.toDigits 10 n).map (fun c => c.toNat.toUInt8)

def ofInt : Int → Text
  | .ofNat n => decimal n
  | .negSucc n => 45 :: decimal (n + 1)

def hexDigit (n : Nat) : UInt8 :=
  if n < 10 then (48 + n).toUInt8 else (87 + n).toUInt8

/-- The lowest `width` hexadecimal digits of a number, in lower case. -/
def hex (width : Nat) (n : Nat) : Text :=
  match width with
  | 0 => []
  | width + 1 => hex width (n / 16) ++ [hexDigit (n % 16)]

/-!
# Pieces
-/

/-- The pieces of a text between the bytes equal to `sep`; there is always at
least one. -/
def splitAt (sep : UInt8) : Text → List Text
  | [] => [[]]
  | b :: rest =>
    if b = sep then [] :: splitAt sep rest
    else
      match splitAt sep rest with
      | [] => [[b]]
      | piece :: pieces => (b :: piece) :: pieces

def join (sep : Text) : List Text → Text
  | [] => []
  | [part] => part
  | part :: parts => part ++ sep ++ join sep parts

/-- A text without the bytes at its end that satisfy the test. -/
def dropEndWhile (test : UInt8 → Bool) (t : Text) : Text :=
  (t.reverse.dropWhile test).reverse

/-- A text without the bytes at both ends that satisfy the test. -/
def stripWhile (test : UInt8 → Bool) (t : Text) : Text :=
  dropEndWhile test (t.dropWhile test)

/-- The text that follows `lead`, when the text begins with it. -/
def after? (lead : Text) (t : Text) : Option Text :=
  if lead.isPrefixOf t then some (t.drop lead.length) else none

/-- A text without `tail` at its end, if it ends that way. -/
def withoutEnd (tail : Text) (t : Text) : Text :=
  if tail.isSuffixOf t then t.take (t.length - tail.length) else t

/-!
# Order

Texts are ordered byte by byte, a text before its extensions.
-/

def le : Text → Text → Bool
  | [], _ => true
  | _ :: _, [] => false
  | a :: as, b :: bs => if a = b then le as bs else decide (a < b)

end Text

end CoolCompiler
