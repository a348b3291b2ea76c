import CoolCompiler.Emit.Sequences
import CoolCompiler.Proofs.Grammar.Shape
import Mathlib.Data.List.Nodup

/-!
# Names of labels

Labels are made from numbers and names.  No two are the same if the names of classes begin with a
capital and have no dot.
-/

namespace CoolCompiler

open List

namespace Text

theorem toNat_toUInt8_of_mem_toDigits {n : Nat} {c : Char} (h : c ∈ Nat.toDigits 10 n) :
    c.toNat.toUInt8.toNat = c.toNat := by
  have hbounds := bounds_of_mem_toDigits h
  simp only [Nat.toUInt8, UInt8.toNat_ofNat']
  omega

theorem digit_of_mem_decimal {n : Nat} {b : UInt8} (h : b ∈ decimal n) :
    48 ≤ b.toNat ∧ b.toNat ≤ 57 := by
  obtain ⟨c, hc, rfl⟩ := mem_map.mp h
  rw [toNat_toUInt8_of_mem_toDigits hc]
  exact bounds_of_mem_toDigits hc

theorem map_decimal (n : Nat) :
    (decimal n).map (fun b => Char.ofNat b.toNat) = Nat.toDigits 10 n := by
  have hback : ∀ c ∈ Nat.toDigits 10 n, Char.ofNat c.toNat.toUInt8.toNat = c := by
    intro c hc
    rw [toNat_toUInt8_of_mem_toDigits hc, Char.ofNat_toNat]
  rw [decimal, map_map]
  exact (map_congr_left hback).trans (map_id _)

theorem decimal_injective : Function.Injective decimal := by
  intro m n h
  have hdigits : Nat.toDigits 10 m = Nat.toDigits 10 n := by
    rw [← map_decimal m, ← map_decimal n, h]
  rw [← Nat.ofDigitChars_toDigits (b := 10) (n := m) (by decide) (by decide), hdigits,
    Nat.ofDigitChars_toDigits (by decide) (by decide)]

end Text

namespace Emit

theorem localLabel_injective : Function.Injective localLabel :=
  fun _ _ h => Text.decimal_injective (append_cancel_left h)

theorem headD_localLabel (i : Nat) : (localLabel i).headD 0 = 108 := rfl

theorem headD_stringLabel (i : Nat) : (stringLabel i).headD 0 = 115 := rfl

theorem headD_intLabel (i : Nat) : (intLabel i).headD 0 = 105 := rfl

theorem undotted_localLabel (i : Nat) : 46 ∉ localLabel i := by
  rw [localLabel, mem_append, not_or]
  constructor
  · decide
  · intro hdot
    exact absurd (Text.digit_of_mem_decimal hdot) (by decide)

theorem getLast?_localLabel (i : Nat) :
    ∃ b, (localLabel i).getLast? = some b ∧ 48 ≤ b.toNat ∧ b.toNat ≤ 57 := by
  have hne : Text.decimal i ≠ [] := by simp [Text.decimal, Nat.toDigits_ne_nil]
  refine ⟨_, ?_, Text.digit_of_mem_decimal (getLast_mem hne)⟩
  rw [localLabel, getLast?_append_of_ne_nil _ hne, getLast?_eq_getLast_of_ne_nil hne]

end Emit

/-!
# Kinds of labels
-/

inductive Label where
  | fixed (x : Name)
  | string (i : Nat)
  | int (i : Nat)
  | branch (i : Nat)
  | prototype (c : Name)
  | init (c : Name)
  | dispatch (c : Name)
  | method (c m : Name)
  deriving DecidableEq

namespace Label

inductive Kind where
  | fixed | string | int | branch | prototype | init | dispatch | method
  deriving DecidableEq

def kind : Label → Kind
  | fixed _ => .fixed
  | string _ => .string
  | int _ => .int
  | branch _ => .branch
  | prototype _ => .prototype
  | init _ => .init
  | dispatch _ => .dispatch
  | method _ _ => .method

def name : Label → Name
  | fixed x => x
  | string i => Emit.stringLabel i
  | int i => Emit.intLabel i
  | branch i => Emit.localLabel i
  | prototype c => c ++ "_protObj"
  | init c => c ++ "_init"
  | dispatch c => c ++ "_dispTab"
  | method c m => c ++ "." ++ m

def fixedNames : List Name :=
  ["_int_tag", "_bool_tag", "_string_tag", Emit.boolLabel false, Emit.boolLabel true,
   Emit.classObjectTable, Emit.classNameTable, Emit.inheritanceTree]

def Proper : Label → Prop
  | fixed x => x ∈ fixedNames
  | prototype c | init c | dispatch c | method c _ => c.Capital
  | _ => True

/-- What tells the kind of a label: a capital in front, a dot, the last byte after the name of a
class, the first bytes before a number. -/
def kindOf (x : Name) : Kind :=
  if Lexeme.isUpperByte (x.headD 0) then
    if 46 ∈ x then .method
    else if x.getLast? = some 106 then .prototype
    else if x.getLast? = some 116 then .init
    else .dispatch
  else if x.take 3 = "str" then .string
  else if x.take 3 = "int" then .int
  else if x.take 3 = "lab" then .branch
  else .fixed

theorem headD_append {w : Text} (h : w ≠ []) (x : Text) : (w ++ x).headD 0 = w.headD 0 := by
  cases w with
  | nil => exact absurd rfl h
  | cons b w => rfl

theorem kindOf_numbered {w : Text} (hlower : Lexeme.isUpperByte (w.headD 0) = false)
    (hlength : 3 ≤ w.length) (x : Text) : kindOf (w ++ x) = kindOf w := by
  have hne : w ≠ [] := ne_nil_of_length_pos (by omega)
  have htake : (w ++ x).take 3 = w.take 3 := take_append_of_le_length hlength
  rw [kindOf, kindOf, headD_append hne, htake, hlower]
  rfl

theorem ne_nil_of_capital {c : Name} (h : c.Capital) : c ≠ [] := by
  intro hnil
  have hupper := h.upper
  rw [hnil] at hupper
  exact absurd hupper (by decide)

theorem kindOf_suffixed {c suffix : Name} (hc : c.Capital) (hdot : 46 ∉ suffix)
    (hne : suffix ≠ []) :
    kindOf (c ++ suffix) =
      if suffix.getLast? = some 106 then .prototype
      else if suffix.getLast? = some 116 then .init
      else .dispatch := by
  have hundotted : 46 ∉ c ++ suffix := by
    rw [mem_append]
    exact not_or.mpr ⟨hc.undotted, hdot⟩
  have hlast : (c ++ suffix).getLast? = suffix.getLast? := by
    rw [getLast?_append_of_ne_nil _ hne]
  rw [kindOf, headD_append (ne_nil_of_capital hc), if_pos hc.upper, if_neg hundotted, hlast]

theorem kindOf_name {l : Label} (h : l.Proper) : kindOf l.name = l.kind := by
  cases l with
  | fixed x =>
    have hfixed : ∀ x ∈ fixedNames, kindOf x = .fixed := by decide
    exact hfixed x h
  | string i => exact kindOf_numbered (by decide) (by decide) _
  | int i => exact kindOf_numbered (by decide) (by decide) _
  | branch i => exact kindOf_numbered (by decide) (by decide) _
  | prototype c => exact kindOf_suffixed h (by decide) (by decide)
  | init c => exact kindOf_suffixed h (by decide) (by decide)
  | dispatch c => exact kindOf_suffixed h (by decide) (by decide)
  | method c m =>
    have hdot : 46 ∈ c ++ Text.ofString "." ++ m := by
      rw [append_assoc]
      exact mem_append_right c (mem_append_left m (by decide))
    have hupper : Lexeme.isUpperByte ((c ++ Text.ofString "." ++ m).headD 0) = true := by
      rw [append_assoc, headD_append (ne_nil_of_capital h)]
      exact h.upper
    rw [name, kindOf, if_pos hupper, if_pos hdot, kind]

theorem dotted_inj {c d m n : Name} (hc : 46 ∉ c) (hd : 46 ∉ d)
    (h : c ++ 46 :: m = d ++ 46 :: n) : c = d ∧ m = n := by
  induction c generalizing d with
  | nil =>
    cases d with
    | nil => exact ⟨rfl, (List.cons.inj h).2⟩
    | cons b d => exact absurd ((List.cons.inj h).1 ▸ mem_cons_self) hd
  | cons a c ih =>
    cases d with
    | nil => exact absurd ((List.cons.inj h).1 ▸ mem_cons_self) hc
    | cons b d =>
      rw [mem_cons, not_or] at hc hd
      obtain ⟨rfl, htail⟩ := List.cons.inj h
      obtain ⟨rfl, rfl⟩ := ih hc.2 hd.2 htail
      exact ⟨rfl, rfl⟩

theorem method_inj {c d m n : Name} (hc : c.Capital) (hd : d.Capital)
    (h : (method c m).name = (method d n).name) : c = d ∧ m = n := by
  have hdot : Text.ofString "." = [46] := by decide
  simp only [name, hdot, append_assoc, singleton_append] at h
  exact dotted_inj hc.undotted hd.undotted h

theorem name_inj {a b : Label} (ha : a.Proper) (hb : b.Proper) (h : a.name = b.name) :
    a = b := by
  have hkind : a.kind = b.kind := by rw [← kindOf_name ha, ← kindOf_name hb, h]
  cases a with
  | fixed x =>
    cases b with
    | fixed y => exact congrArg fixed h
    | _ => cases hkind
  | string i =>
    cases b with
    | string j => exact congrArg string (Text.decimal_injective (append_cancel_left h))
    | _ => cases hkind
  | int i =>
    cases b with
    | int j => exact congrArg int (Text.decimal_injective (append_cancel_left h))
    | _ => cases hkind
  | branch i =>
    cases b with
    | branch j => exact congrArg branch (Text.decimal_injective (append_cancel_left h))
    | _ => cases hkind
  | prototype c =>
    cases b with
    | prototype d => exact congrArg prototype (append_cancel_right h)
    | _ => cases hkind
  | init c =>
    cases b with
    | init d => exact congrArg init (append_cancel_right h)
    | _ => cases hkind
  | dispatch c =>
    cases b with
    | dispatch d => exact congrArg dispatch (append_cancel_right h)
    | _ => cases hkind
  | method c m =>
    cases b with
    | method d n =>
      obtain ⟨rfl, rfl⟩ := method_inj ha hb h
      rfl
    | _ => cases hkind

theorem name_ne_of_kindOf {l : Label} (h : l.Proper) {x : Name} (hkind : kindOf x = .fixed)
    (hx : x ∉ fixedNames) : l.name ≠ x := by
  rintro rfl
  rw [kindOf_name h] at hkind
  cases l with
  | fixed x => exact hx h
  | _ => cases hkind

theorem nodup_of_kinds {chunks : List (Kind × List Label)} (hkinds : (chunks.map Prod.fst).Nodup)
    (hkind : ∀ c ∈ chunks, ∀ l ∈ c.2, l.kind = c.1) (hnodup : ∀ c ∈ chunks, c.2.Nodup) :
    (chunks.flatMap Prod.snd).Nodup := by
  refine nodup_flatMap.mpr ⟨hnodup, ?_⟩
  refine (pairwise_map.mp hkinds).imp_of_mem ?_
  intro c c' hc hc' hne l hl hl'
  apply hne
  rw [← hkind c hc l hl, ← hkind c' hc' l hl']

end Label

end CoolCompiler
