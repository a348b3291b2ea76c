import CoolCompiler.Machine.Line

/-!
# String data

The operands that lay down a string are read back as its bytes and a zero byte.  A comma separates
items only outside quotes.
-/

namespace CoolCompiler.DataItem

open List

/-- The pieces between the commas outside quotes; `quoted` says whether the first byte is
inside. -/
def pieces (quoted : Bool) : Text → List Text
  | [] => [[]]
  | b :: rest =>
    if b = 44 ∧ quoted = false then [] :: pieces false rest
    else (pieces (quoted != (b == 34)) rest).modifyHead (b :: ·)

def number? (digits : Text) : Option Nat :=
  if !digits.isEmpty && digits.all fun d => 48 ≤ d && d ≤ 57 then
    some (digits.foldl (fun n d => 10 * n + (d.toNat - 48)) 0)
  else none

/-- The bytes that an item stands for: its characters if it is in quotes, or else the byte with
its number. -/
def bytes? (item : Text) : Option Text :=
  if item.head? = some 34 then
    if item.tail.getLast? = some 34 then some item.tail.dropLast else none
  else
    match number? item with
    | some n => if n < 256 then some [n.toUInt8] else none
    | none => none

def bytesOfAll? : List Text → Option Text
  | [] => some []
  | item :: items => do return (← bytes? item) ++ (← bytesOfAll? items)

def decode? (operands : Text) : Option Text := bytesOfAll? (pieces false operands)

/-- An item that an assembler reads as it stands. -/
inductive Proper : Text → Prop where
  | quoted {characters : Text} : characters ≠ [] →
      (∀ b ∈ characters, 0x20 ≤ b ∧ b < 0x7F ∧ b ≠ 34 ∧ b ≠ 92) →
      Proper ([34] ++ characters ++ [34])
  | number {digits : Text} {n : Nat} : number? digits = some n → n < 256 → Proper digits

theorem pieces_append {quoted : Bool} {w : Text} (rest : Text)
    (h : ∀ b ∈ w, b ≠ 34 ∧ (b = 44 → quoted = true)) :
    pieces quoted (w ++ rest) = (pieces quoted rest).modifyHead (w ++ ·) := by
  induction w with
  | nil => exact (congrFun modifyHead_id _).symm
  | cons b w ih =>
    obtain ⟨⟨hquote, hcomma⟩, hw⟩ := forall_mem_cons.mp h
    have hpart : ¬ (b = 44 ∧ quoted = false) := by
      rintro ⟨hb, hout⟩
      exact absurd (hcomma hb) (by simp [hout])
    rw [cons_append, pieces, if_neg hpart, beq_eq_false_iff_ne.mpr hquote, Bool.bne_false,
      ih hw, modifyHead_modifyHead]
    rfl

theorem Proper.pieces_append {w : Text} (h : Proper w) (rest : Text) :
    pieces false (w ++ rest) = (pieces false rest).modifyHead (w ++ ·) := by
  cases h with
  | @quoted characters _ hplain =>
    have hinside := @DataItem.pieces_append true _ (34 :: rest) fun b hb =>
      ⟨(hplain b hb).2.2.1, fun _ => rfl⟩
    simp [pieces, hinside]
    rfl
  | number hvalue _ =>
    refine DataItem.pieces_append rest fun b hb => ?_
    rw [number?, Option.ite_none_right_eq_some, Bool.and_eq_true, all_eq_true] at hvalue
    have hdigit := hvalue.1.2 b hb
    constructor
    · rintro rfl
      exact absurd hdigit (by decide)
    · rintro rfl
      exact absurd hdigit (by decide)

theorem pieces_join {items : List Text} (hne : items ≠ []) (h : ∀ w ∈ items, Proper w) :
    pieces false (Text.join [44] items) = items := by
  induction items with
  | nil => exact absurd rfl hne
  | cons w items ih =>
    obtain ⟨hw, hitems⟩ := forall_mem_cons.mp h
    cases items with
    | nil => simpa [Text.join, pieces] using hw.pieces_append []
    | cons next items =>
      rw [Text.join, append_assoc, hw.pieces_append, singleton_append, pieces,
        if_pos ⟨rfl, rfl⟩, ih (cons_ne_nil _ _) hitems]
      · simp
      · exact cons_ne_nil _ _

/-!
# Writing operands
-/

def bytes : DataItem → Text
  | .quoted characters => characters
  | .byte b => [b]

def ReadBack (item : DataItem) : Prop := Proper item.text ∧ bytes? item.text = some item.bytes

theorem readBack_quoted {characters : Text} (hne : characters ≠ [])
    (h : ∀ b ∈ characters, isPlain b = true) : ReadBack (.quoted characters) := by
  refine ⟨.quoted hne fun b hb => ?_, ?_⟩
  · simpa [isPlain, and_assoc] using h b hb
  · simp [text, bytes?, bytes]

theorem readBack_byte (b : UInt8) : ReadBack (.byte b) := by
  have hall : ((range 256).all fun n => number? (Text.decimal n) == some n &&
      (Text.decimal n).head? != some 34) = true := by decide +kernel
  have hbyte := all_eq_true.mp hall b.toNat (mem_range.mpr b.toNat_lt)
  rw [Bool.and_eq_true, beq_iff_eq, bne_iff_ne] at hbyte
  obtain ⟨hnumber, hhead⟩ := hbyte
  refine ⟨.number hnumber b.toNat_lt, ?_⟩
  simp only [text, bytes?, if_neg hhead, hnumber, if_pos b.toNat_lt, bytes]
  simp

theorem bytes_cons (b : UInt8) (items : List DataItem) :
    (cons b items).flatMap bytes = b :: items.flatMap bytes := by
  unfold cons
  split
  · split <;> rfl
  · rfl

theorem bytes_ofText (s : Text) : (ofText s).flatMap bytes = s ++ [0] := by
  induction s with
  | nil => rfl
  | cons b s ih =>
    change (cons b (ofText s)).flatMap bytes = _
    rw [bytes_cons, ih]
    rfl

def Written : DataItem → Prop
  | .quoted characters => characters ≠ [] ∧ ∀ b ∈ characters, isPlain b = true
  | .byte _ => True

theorem written_ofText (s : Text) : ∀ item ∈ ofText s, Written item := by
  induction s with
  | nil => exact forall_mem_singleton.mpr trivial
  | cons b s ih =>
    change ∀ item ∈ cons b (ofText s), Written item
    unfold cons
    split
    · rename_i hplain
      split
      · rename_i characters rest hitems
        rw [hitems] at ih
        obtain ⟨⟨_, hrun⟩, hrest⟩ := forall_mem_cons.mp ih
        refine forall_mem_cons.mpr ⟨⟨cons_ne_nil _ _, ?_⟩, hrest⟩
        exact forall_mem_cons.mpr ⟨hplain, hrun⟩
      · refine forall_mem_cons.mpr ⟨⟨cons_ne_nil _ _, ?_⟩, ih⟩
        exact forall_mem_singleton.mpr hplain
    · exact forall_mem_cons.mpr ⟨trivial, ih⟩

theorem readBack_ofText {s : Text} {item : DataItem} (h : item ∈ ofText s) : ReadBack item := by
  have hwritten := written_ofText s item h
  cases item with
  | quoted characters => exact readBack_quoted hwritten.1 hwritten.2
  | byte b => exact readBack_byte b

theorem bytesOfAll?_map {items : List DataItem} (h : ∀ item ∈ items, ReadBack item) :
    bytesOfAll? (items.map text) = some (items.flatMap bytes) := by
  induction items with
  | nil => rfl
  | cons item items ih =>
    obtain ⟨hitem, hitems⟩ := forall_mem_cons.mp h
    rw [map_cons, bytesOfAll?, hitem.2, ih hitems]
    rfl

theorem pieces_operands (s : Text) : pieces false (operands s) = (ofText s).map text := by
  have hne : ofText s ≠ [] := by
    intro hnil
    have hbytes := bytes_ofText s
    simp [hnil] at hbytes
  refine pieces_join (by simpa using hne) (forall_mem_map.mpr fun item hitem => ?_)
  exact (readBack_ofText hitem).1

theorem decode?_operands (s : Text) : decode? (operands s) = some (s ++ [0]) := by
  rw [decode?, pieces_operands, bytesOfAll?_map fun item => readBack_ofText, bytes_ofText]

/-- The operands for a string are read back as its bytes and a zero byte.  Quotes in them are
never empty and hold printable characters only, neither quotes nor backslashes, and numbers are
below 256.  So no two strings have the same operands. -/
theorem operands_read_back :
    (∀ s, decode? (operands s) = some (s ++ [0]) ∧ ∀ w ∈ pieces false (operands s), Proper w) ∧
      Function.Injective operands := by
  refine ⟨fun s => ⟨decode?_operands s, ?_⟩, fun s t hst => ?_⟩
  · rw [pieces_operands]
    exact forall_mem_map.mpr fun item hitem => (readBack_ofText hitem).1
  · have hsame := (decode?_operands s).symm.trans
      ((congrArg decode? hst).trans (decode?_operands t))
    exact append_cancel_right (Option.some.inj hsame)

end CoolCompiler.DataItem
