import CoolCompiler.Machine.Line

/-!
# Processor states

Registers of two bytes, an accumulator and two flags, and memory with a byte for each address;
addresses come round.
-/

namespace CoolCompiler
namespace Machine

abbrev Byte := BitVec 8

abbrev Word := BitVec 16

abbrev Memory := Word → Byte

def low (w : Word) : Byte := w.extractLsb' 0 8

def high (w : Word) : Byte := w.extractLsb' 8 8

def withLow (w : Word) (b : Byte) : Word := high w ++ b

def withHigh (w : Word) (b : Byte) : Word := b ++ low w

theorem toNat_low (w : Word) : (low w).toNat = w.toNat % 256 := by
  simp [low]

theorem toNat_high (w : Word) : (high w).toNat = w.toNat / 256 := by
  have hlt := w.isLt
  simp only [high, BitVec.extractLsb'_toNat, Nat.shiftRight_eq_div_pow]
  omega

theorem toNat_append (h l : Byte) : (h ++ l : Word).toNat = h.toNat * 256 + l.toNat := by
  rw [BitVec.toNat_append, Nat.shiftLeft_eq, ← Nat.shiftLeft_eq,
    Nat.shiftLeft_add_eq_or_of_lt l.isLt, Nat.shiftLeft_eq]

@[simp] theorem low_append (h l : Byte) : low (h ++ l : Word) = l := by
  apply BitVec.eq_of_toNat_eq
  have hlt := l.isLt
  rw [toNat_low, toNat_append]
  omega

@[simp] theorem high_append_low (w : Word) : high w ++ low w = w := by
  apply BitVec.eq_of_toNat_eq
  rw [toNat_append, toNat_high, toNat_low]
  omega

@[simp] theorem withHigh_withLow (w : Word) (h l : Byte) : withHigh (withLow w l) h = h ++ l := by
  rw [withHigh, withLow, low_append]

namespace Memory

def word (m : Memory) (p : Word) : Word := m (p + 1#16) ++ m p

def put (m : Memory) (p : Word) (b : Byte) : Memory := fun q => if q = p then b else m q

def putWord (m : Memory) (p w : Word) : Memory := (m.put p (low w)).put (p + 1#16) (high w)

variable {m : Memory} {p q w : Word}

theorem ne_add_one (p : Word) : p ≠ p + 1#16 := by
  bv_omega

theorem put_of_ne {b : Byte} (h : q ≠ p) : m.put p b q = m q := if_neg h

@[simp] theorem put_self (b : Byte) : m.put p b p = b := if_pos rfl

theorem putWord_of_ne (h : q ≠ p) (h' : q ≠ p + 1#16) : m.putWord p w q = m q := by
  rw [putWord, put_of_ne h', put_of_ne h]

@[simp] theorem word_putWord_self : (m.putWord p w).word p = w := by
  rw [word, putWord, put_self, put_of_ne (ne_add_one p), put_self, high_append_low]

theorem word_congr {m' : Memory} (h : m' p = m p) (h' : m' (p + 1#16) = m (p + 1#16)) :
    m'.word p = m.word p := by
  rw [word, word, h, h']

theorem word_putWord_of_ne (h : q ≠ p) (h1 : q ≠ p + 1#16) (h2 : q + 1#16 ≠ p)
    (h3 : q + 1#16 ≠ p + 1#16) :
    (m.putWord p w).word q = m.word q :=
  word_congr (putWord_of_ne h h1) (putWord_of_ne h2 h3)

end Memory

def Below (p : Word) (n : Nat) (a : Word) : Prop := (p - 1#16 - a).toNat < n

/-!
# Registers
-/

structure Cpu where
  a : Byte
  bc : Word
  de : Word
  hl : Word
  ix : Word
  iy : Word
  sp : Word
  carry : Bool
  zero : Bool
  memory : Memory

namespace Cpu

def word? (s : Cpu) : Register → Option Word
  | .bc => some s.bc
  | .de => some s.de
  | .hl => some s.hl
  | .ix => some s.ix
  | .iy => some s.iy
  | .sp => some s.sp
  | _ => none

def setWord? (s : Cpu) (w : Word) : Register → Option Cpu
  | .bc => some { s with bc := w }
  | .de => some { s with de := w }
  | .hl => some { s with hl := w }
  | .ix => some { s with ix := w }
  | .iy => some { s with iy := w }
  | .sp => some { s with sp := w }
  | _ => none

def byte? (s : Cpu) : Register → Option Byte
  | .a => some s.a
  | .b => some (high s.bc)
  | .c => some (low s.bc)
  | .d => some (high s.de)
  | .e => some (low s.de)
  | .h => some (high s.hl)
  | .l => some (low s.hl)
  | _ => none

def setByte? (s : Cpu) (b : Byte) : Register → Option Cpu
  | .a => some { s with a := b }
  | .b => some { s with bc := withHigh s.bc b }
  | .c => some { s with bc := withLow s.bc b }
  | .d => some { s with de := withHigh s.de b }
  | .e => some { s with de := withLow s.de b }
  | .h => some { s with hl := withHigh s.hl b }
  | .l => some { s with hl := withLow s.hl b }
  | _ => none

def indexed? (s : Cpu) (x : Indexed) : Option Word :=
  if -128 ≤ x.offset ∧ x.offset ≤ 127 then
    match x.base with
    | .ix => some (s.ix + BitVec.ofInt 16 x.offset)
    | .iy => some (s.iy + BitVec.ofInt 16 x.offset)
    | _ => none
  else none

def push (s : Cpu) (w : Word) : Cpu :=
  { s with sp := s.sp - 2#16, memory := s.memory.putWord (s.sp - 2#16) w }

end Cpu

/-!
# Instructions

Instructions that go on to the next one.  Loads, exchanges and counting leave the flags alone, an
addition of words sets the carry only, and the others set both.
-/

variable (value : Name → Word) (s : Cpu)

def load : Operand → Operand → Option Cpu
  | .reg .sp, .reg .hl => some { s with sp := s.hl }
  | .reg .sp, .reg .ix => some { s with sp := s.ix }
  | .reg .sp, .reg .iy => some { s with sp := s.iy }
  | .reg r, .reg q => (s.byte? q).bind fun b => s.setByte? b r
  | .reg r, .int n => s.setWord? (BitVec.ofInt 16 n) r
  | .reg r, .address a => s.setWord? (value a.label + BitVec.ofInt 16 a.offset) r
  | .reg r, .indexed x => (s.indexed? x).bind fun p => s.setByte? (s.memory p) r
  | .reg r, .atHl => s.setByte? (s.memory s.hl) r
  | .indexed x, .reg r => (s.indexed? x).bind fun p => (s.byte? r).map fun b =>
    { s with memory := s.memory.put p b }
  | .atHl, .reg r => (s.byte? r).map fun b => { s with memory := s.memory.put s.hl b }
  | _, _ => none

def add (dst src : Register) : Option Cpu :=
  (s.word? dst).bind fun x => (s.word? src).bind fun y =>
    { s with carry := decide (65536 ≤ x.toNat + y.toNat) }.setWord? (x + y) dst

def subtract (y : Word) : Cpu :=
  { s with
    hl := s.hl - y - BitVec.ofNat 16 s.carry.toNat
    carry := decide (s.hl.toNat < y.toNat + s.carry.toNat)
    zero := decide (s.hl - y - BitVec.ofNat 16 s.carry.toNat = 0#16) }

def accumulate (b : Byte) : Cpu := { s with a := b, carry := false, zero := decide (b = 0#8) }

def exec : Instr → Option Cpu
  | .ld dst src => load value s dst src
  | .push r => (s.word? r).map s.push
  | .pop r => { s with sp := s.sp + 2#16 }.setWord? (s.memory.word s.sp) r
  | .add .hl src => add s .hl src
  | .add .ix src => add s .ix src
  | .add .iy src => add s .iy src
  | .sbc .hl src => (s.word? src).map (subtract s)
  | .or r => (s.byte? r).map fun b => accumulate s (s.a ||| b)
  | .xor mask => some (accumulate s (s.a ^^^ BitVec.ofInt 8 mask))
  | .inc r => (s.word? r).bind fun w => s.setWord? (w + 1#16) r
  | .dec r => (s.word? r).bind fun w => s.setWord? (w - 1#16) r
  | .scf => some { s with carry := true }
  | .exDeHl => some { s with de := s.hl, hl := s.de }
  | _ => none

/-!
# Straight code

Instructions carried out one after the other, none of which writes where memory is to be
kept.
-/

variable {value s}

inductive Runs (value : Name → Word) (keep : Word → Prop) : Cpu → List Instr → Cpu → Prop where
  | nil (s : Cpu) : Runs value keep s [] s
  | cons {s s1 s' : Cpu} {i : Instr} {is : List Instr} (first : exec value s i = some s1)
      (kept : ∀ p, keep p → s1.memory p = s.memory p) (rest : Runs value keep s1 is s') :
      Runs value keep s (i :: is) s'

namespace Runs

variable {keep keep' : Word → Prop} {s1 s' : Cpu} {i : Instr} {is js : List Instr}

theorem quiet (first : exec value s i = some s1) (same : s1.memory = s.memory)
    (rest : Runs value keep s1 is s') : Runs value keep s (i :: is) s' :=
  cons first (fun p _ => congrFun same p) rest

theorem append (h : Runs value keep s is s1) (h' : Runs value keep s1 js s') :
    Runs value keep s (is ++ js) s' := by
  induction h with
  | nil s => exact h'
  | cons first kept _ ih => exact cons first kept (ih h')

theorem mono (h : Runs value keep s is s') (hkeep : ∀ p, keep' p → keep p) :
    Runs value keep' s is s' := by
  induction h with
  | nil s => exact nil s
  | cons first kept _ ih => exact cons first (fun p hp => kept p (hkeep p hp)) ih

end Runs

end Machine
end CoolCompiler
