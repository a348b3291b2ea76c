import CoolCompiler.Proofs.Emit.Frames

/-!
# Calls and returns

A return goes on at the address that it takes from the stack.  A routine saves the registers of its
caller in a frame and restores them before it returns.
-/

namespace CoolCompiler

open List

namespace Machine

namespace Image

def lineAt? (m : Image) (w : Word) : Option Nat :=
  (List.range m.code.length).find? fun i => m.start i == w

def Returns (m : Image) : Prop :=
  ∀ i label, m.code[i]? = some (.instr (.call label)) → i + 1 < m.code.length →
    m.lineAt? (m.start (i + 1)) = some (i + 1)

theorem returns_of_start {m : Image} (hstart : ∀ i, m.start i = BitVec.ofNat 16 i)
    (hlength : m.code.length ≤ 65536) : m.Returns := by
  intro i label _ hlt
  rw [lineAt?, find?_range_eq_some]
  refine ⟨beq_self_eq_true _, mem_range.mpr hlt, fun j hj => ?_⟩
  rw [hstart, hstart, Bool.not_eq_true', beq_eq_false_iff_ne]
  bv_omega

end Image

/-!
# Runs with returns
-/

/-- As for `Reaches`, but at an address the run goes on with the line there. -/
inductive Travels (m : Image) (keep : Word → Prop) : Place → Cpu → Place → Cpu → Prop where
  | within {p p' : Place} {s s' : Cpu} (h : Reaches m keep p s p' s') : Travels m keep p s p' s'
  | back {p p' : Place} {s s1 s' : Cpu} {w : Word} {i : Nat}
      (h : Reaches m keep p s (.address w) s1) (hline : m.lineAt? w = some i)
      (rest : Travels m keep (.line i) s1 p' s') : Travels m keep p s p' s'

namespace Travels

variable {m : Image} {keep keep' : Word → Prop} {p p1 p' : Place} {s s1 s' : Cpu}

theorem trans (h : Travels m keep p s p1 s1) (h' : Travels m keep p1 s1 p' s') :
    Travels m keep p s p' s' := by
  induction h with
  | within h =>
    cases h' with
    | within h' => exact .within (h.trans h')
    | back h' hline rest => exact .back (h.trans h') hline rest
  | back h hline _ ih => exact .back h hline (ih h')

theorem mono (h : Travels m keep p s p' s') (hkeep : ∀ a, keep' a → keep a) :
    Travels m keep' p s p' s' := by
  induction h with
  | within h => exact .within (h.mono hkeep)
  | back h hline _ ih => exact .back (h.mono hkeep) hline ih

theorem memory (h : Travels m keep p s p' s') {a : Word} (ha : keep a) :
    s'.memory a = s.memory a := by
  induction h with
  | within h => exact h.memory ha
  | back h _ _ ih => exact ih.trans (h.memory ha)

end Travels

def Place.line? : Place → Option Nat
  | .line i => some i
  | _ => none

theorem Place.eq_of_line? {p : Place} {i : Nat} (h : p.line? = some i) : p = .line i := by
  cases p with
  | line j =>
    cases h
    rfl
  | outside label => cases h
  | address w => cases h

def Image.walk (m : Image) : Nat → Place → Cpu → Option (Place × Cpu)
  | 0, p, s => some (p, s)
  | k + 1, .address w, s => (m.lineAt? w).bind fun i => m.walk k (.line i) s
  | k + 1, p, s => (m.step p s).bind fun next => m.walk k next.1 next.2

theorem travels_of_walk {m : Image} {k : Nat} {p p' : Place} {s s' : Cpu}
    (h : m.walk k p s = some (p', s')) : Travels m (fun _ => False) p s p' s' := by
  induction k generalizing p s with
  | zero =>
    cases h
    exact .within (.refl _ _)
  | succ k ih =>
    have hstep : ∀ {p : Place}, ((m.step p s).bind fun next => m.walk k next.1 next.2) =
        some (p', s') → Travels m (fun _ => False) p s p' s' := by
      intro p hp
      obtain ⟨next, hnext, hrest⟩ := Option.bind_eq_some_iff.mp hp
      exact .trans (.within (.step hnext (fun _ hfalse => hfalse.elim) (.refl _ _))) (ih hrest)
    cases p with
    | address w =>
      obtain ⟨i, hline, hrest⟩ := Option.bind_eq_some_iff.mp h
      exact .back (.refl _ _) hline (ih hrest)
    | line i => exact hstep h
    | outside label => exact hstep h

section Steps

variable {m : Image} {keep : Word → Prop} {i j : Nat} {s : Cpu}

theorem reaches_call {label : Name} (h : m.code[i]? = some (.instr (.call label)))
    (hj : m.target label = .line j) (hkeep : ∀ a, keep a → Spared s a) :
    Reaches m keep (.line i) s (.line j) (s.push (m.start (i + 1))) := by
  have hstep : m.step (.line i) s = some (.line j, s.push (m.start (i + 1))) := by
    simp only [Image.step, h, Image.stepInstr, hj]
  exact .step hstep (fun a ha => push_memory (hkeep a ha)) (.refl _ _)

theorem reaches_ret (h : m.code[i]? = some (.instr .ret)) :
    Reaches m keep (.line i) s (.address (s.memory.word s.sp)) { s with sp := s.sp + 2#16 } := by
  apply Reaches.single
  · simp only [Image.step, h, Image.stepInstr]
  · rfl

end Steps

namespace Runs

variable {value : Name → Word} {keep keep' : Word → Prop} {s s1 s2 : Cpu} {is : List Instr}

theorem memory (h : Runs value keep s is s1) {a : Word} (ha : keep a) :
    s1.memory a = s.memory a := by
  induction h with
  | nil s => rfl
  | cons _ kept _ ih => exact ih.trans (kept a ha)

theorem unique (h : Runs value keep s is s1) (h' : Runs value keep' s is s2) : s1 = s2 := by
  induction h with
  | nil s =>
    cases h'
    rfl
  | cons first _ _ ih =>
    cases h' with
    | cons first' _ rest' =>
      rw [first] at first'
      cases first'
      exact ih rest'

end Runs

theorem Below.mono {top a : Word} {d d' : Nat} (h : Below top d a) (hle : d ≤ d') :
    Below top d' a := Nat.lt_of_lt_of_le h hle

theorem Below.of_sp {top sp a : Word} {d k : Nat} (hsp : sp = top - BitVec.ofNat 16 d)
    (hlt : d + k < 65536) (h : Below sp k a) : Below top (d + k) a ∧ ¬ Below top d a := by
  unfold Below at h ⊢
  constructor <;> bv_omega

theorem spared_of_not_below {s : Cpu} {a : Word} {n : Nat} (hn : 2 ≤ n) (h : ¬ Below s.sp n a) :
    Spared s a := by
  unfold Below at h
  constructor <;> bv_omega

/-!
# Frames
-/

end Machine

def Emit.restoreFrame (temps : Nat) : List Instr :=
  [.exDeHl, Instr.loadInt .hl ((temps : Int) * (wordSize : Int)), .add .hl .sp,
   Instr.load .sp .hl, .exDeHl, .pop .ix, .pop .iy]

theorem Emit.leaveFrame_eq (temps : Nat) :
    Emit.leaveFrame temps = Emit.restoreFrame temps ++ [.ret] := rfl

namespace Machine

open Emit

variable {value : Name → Word} {keep : Word → Prop} {s : Cpu}

theorem runs_selfToHl (hkeep : ∀ a, keep a → ¬ Below s.sp 2 a) :
    Runs value keep s (Instr.move .hl .ix)
      { s with hl := s.ix, memory := s.memory.putWord (s.sp - 2#16) s.ix } := by
  refine .cons rfl (fun a ha => ?_) (.quiet rfl rfl (.done ?_))
  · exact putWord_of_not_below (k := 0) rfl (Nat.le_refl 2) (by omega) (hkeep a ha)
  · have hsp : s.sp - 2#16 + 2#16 = s.sp := BitVec.sub_add_cancel s.sp 2#16
    simp only [Cpu.push, Memory.word_putWord_self, hsp]

theorem runs_enter (value : Name → Word) {temps : Nat} (htemps : temps ≤ 64) (s : Cpu) :
    ∃ s', Runs value (fun p => ¬ Below s.sp (temps * 2 + 6) p) s
        (enterFrame temps ++ Instr.move .hl .ix) s' ∧
      s'.ix = s.hl ∧ s'.hl = s.hl ∧ s'.sp = s.sp - BitVec.ofNat 16 (temps * 2 + 4) ∧
      s'.memory.word (s.sp - 4#16) = s.ix ∧ s'.memory.word (s.sp - 2#16) = s.iy := by
  obtain ⟨s1, henter, hix, hsp, hiy, hsaved⟩ := runs_enterFrame value htemps s
  rw [hiy] at hsp hsaved
  rw [saved_eq_iff,
    show s.sp - BitVec.ofNat 16 (temps * 2 + 4) + BitVec.ofNat 16 (temps * 2) = s.sp - 4#16 by
      bv_omega,
    show s.sp - BitVec.ofNat 16 (temps * 2 + 4) + BitVec.ofNat 16 (temps * 2 + 2) = s.sp - 2#16 by
      bv_omega] at hsaved
  refine ⟨_, henter.append (runs_selfToHl fun a ha hbelow => ha ?_), hix, hix, hsp, ?_, ?_⟩
  · rw [hsp] at hbelow
    unfold Below at hbelow ⊢
    bv_omega
  · exact (Memory.word_putWord_of_ne (by bv_omega) (by bv_omega) (by bv_omega)
      (by bv_omega)).trans hsaved.1
  · exact (Memory.word_putWord_of_ne (by bv_omega) (by bv_omega) (by bv_omega)
      (by bv_omega)).trans hsaved.2.1

theorem runs_restoreFrame (value : Name → Word) (keep : Word → Prop) (temps : Nat) (s : Cpu) :
    ∃ s', Runs value keep s (restoreFrame temps) s' ∧
      s'.sp = s.sp + BitVec.ofNat 16 (temps * 2 + 4) ∧
      s'.ix = s.memory.word (s.sp + BitVec.ofNat 16 (temps * 2)) ∧
      s'.iy = s.memory.word (s.sp + BitVec.ofNat 16 (temps * 2 + 2)) ∧ s'.hl = s.hl := by
  have hoffset : BitVec.ofInt 16 ((temps : Int) * (wordSize : Int)) = BitVec.ofNat 16 (temps * 2) :=
    BitVec.ofInt_natCast 16 (temps * 2)
  have hsp : BitVec.ofInt 16 ((temps : Int) * (wordSize : Int)) + s.sp =
      s.sp + BitVec.ofNat 16 (temps * 2) := by
    rw [hoffset, BitVec.add_comm]
  refine ⟨_, .quiet rfl rfl (.quiet rfl rfl (.quiet rfl rfl (.quiet rfl rfl (.quiet rfl rfl
    (.quiet rfl rfl (.quiet rfl rfl (.nil _))))))), ?_, ?_, ?_, rfl⟩
  · show BitVec.ofInt 16 ((temps : Int) * (wordSize : Int)) + s.sp + 2#16 + 2#16 = _
    rw [hsp]
    bv_omega
  · show s.memory.word (BitVec.ofInt 16 ((temps : Int) * (wordSize : Int)) + s.sp) = _
    rw [hsp]
  · show s.memory.word (BitVec.ofInt 16 ((temps : Int) * (wordSize : Int)) + s.sp + 2#16) = _
    rw [hsp, BitVec.add_assoc, BitVec.ofNat_add]

theorem runs_leave (value : Name → Word) {temps : Nat} (htemps : temps ≤ 64) (s : Cpu) :
    ∃ s', Runs value (fun p => ¬ Below s.sp 2 p) s (Instr.move .hl .ix ++ restoreFrame temps) s' ∧
      s'.sp = s.sp + BitVec.ofNat 16 (temps * 2 + 4) ∧
      s'.ix = s.memory.word (s.sp + BitVec.ofNat 16 (temps * 2)) ∧
      s'.iy = s.memory.word (s.sp + BitVec.ofNat 16 (temps * 2 + 2)) := by
  have hmove : Runs value (fun p => ¬ Below s.sp 2 p) s (Instr.move .hl .ix) _ :=
    runs_selfToHl fun _ ha => ha
  rcases runs_restoreFrame value (fun p => ¬ Below s.sp 2 p) temps
    { s with hl := s.ix, memory := s.memory.putWord (s.sp - 2#16) s.ix } with
    ⟨s', hruns, hsp, hix, hiy, -⟩
  refine ⟨s', hmove.append hruns, hsp, ?_, ?_⟩
  · exact hix.trans (Memory.word_putWord_of_ne (by bv_omega) (by bv_omega) (by bv_omega)
      (by bv_omega))
  · exact hiy.trans (Memory.word_putWord_of_ne (by bv_omega) (by bv_omega) (by bv_omega)
      (by bv_omega))

def attributeAt (self : Word) (offset : Nat) : Word := self + BitVec.ofNat 16 offset

theorem indexed?_attribute {offset : Nat} (h : offset ≤ 126) :
    s.indexed? ⟨.ix, offset⟩ = some (attributeAt s.ix offset) := by
  have hfits : -128 ≤ (offset : Int) ∧ (offset : Int) ≤ 127 := by omega
  rw [Cpu.indexed?, if_pos hfits, attributeAt, BitVec.ofInt_natCast]

theorem runs_loadAttribute {offset : Nat} (h : offset ≤ 126) :
    Runs value keep s (Instr.loadWord .hl ⟨.ix, offset⟩)
      { s with hl := s.memory.word (attributeAt s.ix offset) } :=
  runs_loadIndexed (indexed?_attribute h) (Int.ofNat_le.mpr h)

theorem runs_storeAttribute {offset : Nat} (h : offset ≤ 126)
    (hkeep : ∀ a, keep a → a ≠ attributeAt s.ix offset ∧ a ≠ attributeAt s.ix offset + 1#16) :
    Runs value keep s (Instr.storeWord ⟨.ix, offset⟩ .hl)
      { s with memory := s.memory.putWord (attributeAt s.ix offset) s.hl } :=
  runs_storeIndexed (indexed?_attribute h) (Int.ofNat_le.mpr h) hkeep

end Machine
end CoolCompiler
