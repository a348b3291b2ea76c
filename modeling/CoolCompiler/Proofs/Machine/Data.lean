import CoolCompiler.Emit.Data
import CoolCompiler.Proofs.Machine.Cpu

/-!
# Data in memory

Data lines lie in memory one after the other.  A label among them has the address of what follows.
-/

namespace CoolCompiler.Machine

open List

def extent : List Line → Nat
  | [] => 0
  | .word _ :: ls | .number _ :: ls => 2 + extent ls
  | .string s :: ls => s.length + 1 + extent ls
  | _ :: ls => extent ls

def stringByte (s : Text) (k : Nat) : Byte := BitVec.ofNat 8 (s.getD k 0).toNat

def Laid (value : Name → Word) (m : Memory) : Word → List Line → Prop
  | _, [] => True
  | p, .label label :: ls => value label = p ∧ Laid value m p ls
  | p, .word a :: ls =>
    m.word p = value a.label + BitVec.ofInt 16 a.offset ∧ Laid value m (p + 2#16) ls
  | p, .number n :: ls => m.word p = BitVec.ofInt 16 n ∧ Laid value m (p + 2#16) ls
  | p, .string s :: ls =>
    (∀ k, k ≤ s.length → m (p + BitVec.ofNat 16 k) = stringByte s k) ∧
      Laid value m (p + BitVec.ofNat 16 (s.length + 1)) ls
  | _, _ => False

instance (value : Name → Word) (m : Memory) :
    (p : Word) → (ls : List Line) → Decidable (Laid value m p ls)
  | _, [] => inferInstanceAs (Decidable True)
  | p, .label _ :: ls =>
    have := instDecidableLaid value m p ls
    inferInstanceAs (Decidable (_ ∧ _))
  | p, .word _ :: ls | p, .number _ :: ls =>
    have := instDecidableLaid value m (p + 2#16) ls
    inferInstanceAs (Decidable (_ ∧ _))
  | p, .string s :: ls =>
    have := instDecidableLaid value m (p + BitVec.ofNat 16 (s.length + 1)) ls
    inferInstanceAs (Decidable ((∀ k, k ≤ s.length → _) ∧ _))
  | _, .includeFile _ :: _ | _, .raw _ :: _ | _, .instr _ :: _ => inferInstanceAs (Decidable False)

def bytes (value : Name → Word) : List Line → List Byte
  | [] => []
  | .word a :: ls =>
    let w := value a.label + BitVec.ofInt 16 a.offset
    low w :: high w :: bytes value ls
  | .number n :: ls => low (BitVec.ofInt 16 n) :: high (BitVec.ofInt 16 n) :: bytes value ls
  | .string s :: ls => (List.range (s.length + 1)).map (stringByte s) ++ bytes value ls
  | _ :: ls => bytes value ls

def addressOf? (label : Name) : Word → List Line → Option Word
  | _, [] => none
  | p, l :: ls =>
    if l = .label label then some p else addressOf? label (p + BitVec.ofNat 16 (extent [l])) ls

variable {value : Name → Word} {m : Memory} {p : Word}

theorem extent_append (ls ls' : List Line) : extent (ls ++ ls') = extent ls + extent ls' := by
  induction ls with
  | nil => simp [extent]
  | cons l ls ih =>
    cases l <;> simp only [cons_append, extent, ih] <;> omega

theorem laid_append {ls ls' : List Line} (h : Laid value m p (ls ++ ls')) :
    Laid value m p ls ∧ Laid value m (p + BitVec.ofNat 16 (extent ls)) ls' := by
  have hshift : ∀ (p : Word) (k n : Nat),
      p + BitVec.ofNat 16 k + BitVec.ofNat 16 n = p + BitVec.ofNat 16 (k + n) := by
    intro p k n
    rw [BitVec.add_assoc, BitVec.ofNat_add]
  induction ls generalizing p with
  | nil =>
    constructor
    · exact trivial
    · simpa [extent] using h
  | cons l ls ih =>
    cases l with
    | label label =>
      cases h with
      | intro hvalue hrest => exact ⟨⟨hvalue, (ih hrest).1⟩, (ih hrest).2⟩
    | word a =>
      cases h with
      | intro hword hrest =>
        have htail := (ih hrest).2
        rw [hshift p 2] at htail
        exact ⟨⟨hword, (ih hrest).1⟩, htail⟩
    | number n =>
      cases h with
      | intro hword hrest =>
        have htail := (ih hrest).2
        rw [hshift p 2] at htail
        exact ⟨⟨hword, (ih hrest).1⟩, htail⟩
    | string s =>
      cases h with
      | intro hbytes hrest =>
        have htail := (ih hrest).2
        rw [hshift p] at htail
        exact ⟨⟨hbytes, (ih hrest).1⟩, htail⟩
    | includeFile file => exact h.elim
    | raw text => exact h.elim
    | instr i => exact h.elim

/-- Data lines that lie in memory from an address on, and a property of all the bytes there. -/
structure Lies (value : Name → Word) (P : Word → Prop) (m : Memory) (p : Word) (ls : List Line) :
    Prop where
  laid : Laid value m p ls
  holds : ∀ k, k < extent ls → P (p + BitVec.ofNat 16 k)

theorem Laid.lies {value : Name → Word} {m : Memory} {p : Word} {ls : List Line}
    (h : Laid value m p ls) : Lies value (fun _ => True) m p ls := ⟨h, fun _ _ => trivial⟩

namespace Lies

variable {P : Word → Prop} {ls ls' : List Line}

theorem append (h : Lies value P m p (ls ++ ls')) :
    Lies value P m p ls ∧ Lies value P m (p + BitVec.ofNat 16 (extent ls)) ls' := by
  have hlaid := laid_append h.laid
  have hextent := extent_append ls ls'
  refine ⟨⟨hlaid.1, fun k hk => h.holds k (by omega)⟩, hlaid.2, fun k hk => ?_⟩
  rw [BitVec.add_assoc, ← BitVec.ofNat_add]
  exact h.holds _ (by omega)

theorem part (h : Lies value P m p ls) (hwithin : ls' <:+: ls) :
    ∃ q, Lies value P m q ls' := by
  obtain ⟨front, back, rfl⟩ := hwithin
  exact ⟨_, h.append.1.append.2⟩

theorem label {x : Name} (h : Lies value P m p (.label x :: ls)) :
    Lies value P m (value x) ls := by
  obtain ⟨hvalue, hlaid⟩ := h.laid
  rw [hvalue]
  exact ⟨hlaid, h.holds⟩

theorem word {a : Address} (h : Lies value P m p (.word a :: ls)) :
    m.word p = value a.label + BitVec.ofInt 16 a.offset ∧ P p ∧ P (p + 1#16) := by
  have hlow := h.holds 0 (by simp only [extent]; omega)
  rw [BitVec.add_zero] at hlow
  exact ⟨h.laid.1, hlow, h.holds 1 (by simp only [extent]; omega)⟩

theorem reference {x : Name} (h : Lies value P m p (.word ⟨x, 0⟩ :: ls)) :
    m.word p = value x ∧ P p ∧ P (p + 1#16) := by
  obtain ⟨hword, hholds⟩ := h.word
  exact ⟨hword.trans (BitVec.add_zero _), hholds⟩

theorem number {n : Int} (h : Lies value P m p (.number n :: ls)) :
    m.word p = BitVec.ofInt 16 n := h.laid.1

end Lies

/-!
# Blocks

Where blocks of one extent follow one another, the place of each of them is a multiple of it.
-/

theorem extent_flatMap {α : Type} {f : α → List Line} {size : Nat} (as : List α)
    (hsize : ∀ a ∈ as, extent (f a) = size) : extent (as.flatMap f) = size * as.length := by
  induction as with
  | nil => rfl
  | cons a as ih =>
    rw [forall_mem_cons] at hsize
    rw [flatMap_cons, extent_append, hsize.1, ih hsize.2, length_cons, Nat.mul_succ,
      Nat.add_comm]

theorem Lies.block {α : Type} {f : α → List Line} {size : Nat} {P : Word → Prop} {as : List α}
    (hsize : ∀ a ∈ as, extent (f a) = size) (h : Lies value P m p (as.flatMap f)) {k : Nat} {a : α}
    (hk : as[k]? = some a) : Lies value P m (p + BitVec.ofNat 16 (size * k)) (f a) := by
  obtain ⟨hlt, rfl⟩ := List.getElem?_eq_some_iff.mp hk
  have hsplit : as = as.take k ++ as[k] :: as.drop (k + 1) := by
    rw [getElem_cons_drop, take_append_drop]
  have hfront : extent ((as.take k).flatMap f) = size * k := by
    rw [extent_flatMap _ fun a ha => hsize a (mem_of_mem_take ha), length_take,
      Nat.min_eq_left (Nat.le_of_lt hlt)]
  rw [hsplit, flatMap_append, flatMap_cons] at h
  have hblock := h.append.2.append.1
  rwa [hfront] at hblock

theorem laid_rows {rows : List ClassTable.TreeRow}
    (h : Laid value m p (rows.flatMap fun row => [.number row.tag, .number row.delta])) {k : Nat}
    {row : ClassTable.TreeRow} (hk : rows[k]? = some row) :
    m.word (p + BitVec.ofInt 16 (k * 4)) = BitVec.ofInt 16 row.tag ∧
      m.word (p + BitVec.ofInt 16 (k * 4) + 2#16) = BitVec.ofInt 16 row.delta := by
  have hsize : ∀ row ∈ rows, extent [.number row.tag, .number row.delta] = 4 := fun _ _ => rfl
  have hrow := (h.lies.block hsize hk).laid
  have hplace : BitVec.ofInt 16 ((k : Int) * 4) = BitVec.ofNat 16 (4 * k) := by
    rw [← BitVec.ofInt_natCast, Int.natCast_mul, Int.mul_comm]
    rfl
  rw [hplace]
  exact ⟨hrow.1, hrow.2.1⟩

end CoolCompiler.Machine
