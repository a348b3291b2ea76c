import CoolCompiler.Proofs.Emit.Routine
import CoolCompiler.Proofs.Emit.Variables
import CoolCompiler.Proofs.Machine.Sequences

/-!
# Frames in memory

The open variables of a routine, its formals and what is saved of the caller share no byte.
-/

namespace CoolCompiler

open List Machine

/-- The places in a frame that hold the caller's `self`, the caller's frame pointer and the
return address. -/
def Frame.saved (temps : Nat) : List Indexed :=
  [⟨.iy, temps * 2⟩, ⟨.iy, temps * 2 + 2⟩, ⟨.iy, temps * 2 + 4⟩]

def Indexed.bytes (frame : Word) (x : Indexed) : List Word :=
  [frame + BitVec.ofInt 16 x.offset, frame + BitVec.ofInt 16 x.offset + 1#16]

namespace Variable

def storage (temps : Nat) (vs : List Variable) : List Indexed :=
  vs.map Variable.place ++ Frame.saved temps

def word (k : Nat) : Indexed := ⟨.iy, k * 2⟩

def Stacked (vs : List Variable) : Prop :=
  vs.map Variable.place = (List.range vs.length).reverse.map word

theorem stacked_nil : Stacked [] := rfl

variable {vs : List Variable} {fs : List Formal} {temps : Nat}

theorem Stacked.bound (h : Stacked vs) (path : List Nat) (i : Nat) (b : Declared Expr) :
    Stacked (bound path i b vs.length :: vs) := by
  rw [Stacked, map_cons, h, length_cons, range_succ, reverse_append]
  rfl

theorem Stacked.openAll (h : Stacked vs) (path : List Nat) (i : Nat) (bs : List (Declared Expr)) :
    Stacked (openAll path i bs vs) := by
  induction bs generalizing i vs with
  | nil => exact h
  | cons b bs ih => exact ih (h.bound path i b) (i + 1)

theorem Stacked.openInside (h : Stacked vs) (path : List Nat) (e : Expr) (i : Nat) :
    Stacked (openInside path vs e i) := by
  cases e with
  | letIn m bs e => exact h.openAll path 0 _
  | typeCase m e bs =>
    cases i with
    | zero => exact h
    | succ i => exact h.openAll path i _
  | _ => exact h

theorem Stacked.openFrom (h : Stacked vs) (here : List Nat) (e : Expr) (path : List Nat) :
    Stacked (openFrom here vs e path) := by
  induction path generalizing here vs e with
  | nil => exact h
  | cons i path ih =>
    rw [Variable.openFrom]
    cases e.parts[i]? with
    | none => exact h
    | some a => exact ih (h.openInside here e i) (here ++ [i]) a

theorem formal_eq_word {total i : Nat} (hi : i < total) (h : temps + total ≤ 61) :
    Frame.formal temps i total = word (temps + 3 + (total - 1 - i)) := by
  have hoffset : (Frame.formal temps i total).offset =
      ((temps + 3 + (total - 1 - i) : Nat) : Int) * 2 := by
    rw [Emit.formal_offset (by omega) (by omega) (by omega)]
    omega
  rw [word, ← hoffset]
  rfl

theorem map_place_formals (h : ¬ Emit.FrameTooLarge temps fs.length) :
    (formals temps fs).map Variable.place =
      (List.range fs.length).reverse.map fun k => word (temps + 3 + k) := by
  apply ext_getElem
  · simp [formals]
  · intro i hi _
    have hlt : i < fs.length := by simpa [formals] using hi
    have hsmall : temps + fs.length ≤ 61 := by
      unfold Emit.FrameTooLarge at h
      omega
    simp only [formals, getElem_map, getElem_zipIdx, getElem_reverse,
      getElem_range, length_range, Nat.zero_add, formal, formal_eq_word hlt hsmall]

/-!
# All of a frame
-/

/-- The numbers of the words that a frame uses: so many open variables, so many formals and
what is saved. -/
def usedWords (temps opened total : Nat) : List Nat :=
  (List.range opened).reverse ++ (List.range total).reverse.map (temps + 3 + ·) ++
    [temps, temps + 1, temps + 2]

theorem nodup_usedWords {opened : Nat} (total : Nat) (h : opened ≤ temps) :
    (usedWords temps opened total).Nodup := by
  have hformals : ((List.range total).reverse.map (temps + 3 + ·)).Nodup := by
    apply List.Nodup.map
    · exact fun a b hab => Nat.add_left_cancel hab
    · exact nodup_reverse.mpr nodup_range
  rw [usedWords, nodup_append, nodup_append]
  refine ⟨⟨nodup_reverse.mpr nodup_range, hformals, ?_⟩, by simp, ?_⟩
  · simp only [mem_reverse, mem_range, mem_map]
    rintro a ha b ⟨k, _, rfl⟩
    omega
  · simp only [mem_append, mem_reverse, mem_range, mem_map, mem_cons,
      not_mem_nil, or_false]
    rintro a (ha | ⟨k, _, rfl⟩) b hb <;> omega

theorem storage_eq (hvs : Stacked vs) (h : ¬ Emit.FrameTooLarge temps fs.length) :
    storage temps (vs ++ formals temps fs) = (usedWords temps vs.length fs.length).map word := by
  rw [storage, map_append, hvs, map_place_formals h, usedWords, map_append,
    map_append, map_map]
  congr 1
  simp only [Frame.saved, map_cons, map_nil, word, Int.natCast_add, Int.add_mul]
  rfl

theorem bytes_word_apart {frame : Word} {j k : Nat} (hne : j ≠ k) (hj : j < 1000) (hk : k < 1000) :
    List.Disjoint ((word j).bytes frame) ((word k).bytes frame) := by
  have hbytes : ∀ {k : Nat} {p : Word}, k < 1000 → p ∈ (word k).bytes frame →
      (p - frame).toNat / 2 = k := by
    intro k p hk hp
    have hoffset : BitVec.ofInt 16 ((k : Int) * 2) = BitVec.ofNat 16 (k * 2) := by
      rw [← BitVec.ofInt_natCast, Int.natCast_mul]
      rfl
    simp only [Indexed.bytes, word, hoffset, mem_cons, not_mem_nil, or_false] at hp
    rcases hp with rfl | rfl <;> bv_omega
  intro p hpj hpk
  exact hne ((hbytes hj hpj).symm.trans (hbytes hk hpk))

theorem nodup_bytes (hvs : Stacked vs) (hlength : vs.length ≤ temps)
    (h : ¬ Emit.FrameTooLarge temps fs.length) (frame : Word) :
    ((storage temps (vs ++ formals temps fs)).flatMap (Indexed.bytes frame)).Nodup := by
  have hsmall : ∀ k ∈ usedWords temps vs.length fs.length, k < 1000 := by
    unfold Emit.FrameTooLarge at h
    simp only [usedWords, mem_append, mem_reverse, mem_range, mem_map,
      mem_cons, not_mem_nil, or_false]
    rintro k ((hk | ⟨j, hj, rfl⟩) | hk) <;> omega
  rw [storage_eq hvs h, flatMap_map, nodup_flatMap]
  constructor
  · intro k _
    simp only [Indexed.bytes, nodup_cons, mem_singleton, not_mem_nil,
      not_false_eq_true, nodup_nil, and_true]
    exact Memory.ne_add_one _
  · refine List.Pairwise.imp_of_mem ?_ (nodup_usedWords fs.length hlength)
    intro j k hj hk hne
    exact bytes_word_apart hne (hsmall j hj) (hsmall k hk)

end Variable

namespace Machine

theorem putWord_of_not_below {m : Memory} {sp p q w : Word} {k n : Nat}
    (hq : q = sp - BitVec.ofNat 16 (k + 2)) (hk : k + 2 ≤ n) (hn : n < 65536)
    (hp : ¬ Below sp n p) : m.putWord q w p = m p := by
  unfold Below at hp
  apply Memory.putWord_of_ne <;> bv_omega

theorem word_below_room {m : Memory} {sp frame x y z : Word} {k : Nat} (hk : k ≤ 64)
    (hframe : frame = sp - BitVec.ofNat 16 (k * 2 + 4)) (m' : Memory)
    (hm' : m' = ((m.putWord (sp - 2#16) x).putWord (sp - 2#16 - 2#16) y).putWord (frame - 2#16) z) :
    m'.word (frame + BitVec.ofNat 16 (k * 2)) = y ∧
      m'.word (frame + BitVec.ofNat 16 (k * 2 + 2)) = x ∧
      m'.word (frame + BitVec.ofNat 16 (k * 2 + 4)) = m.word sp := by
  have hy : frame + BitVec.ofNat 16 (k * 2) = sp - 2#16 - 2#16 := by bv_omega
  have hx : frame + BitVec.ofNat 16 (k * 2 + 2) = sp - 2#16 := by bv_omega
  have hsp : frame + BitVec.ofNat 16 (k * 2 + 4) = sp := by bv_omega
  rw [hy, hx, hsp, hm']
  refine ⟨?_, ?_, ?_⟩
  · rw [Memory.word_putWord_of_ne, Memory.word_putWord_self] <;> bv_omega
  · rw [Memory.word_putWord_of_ne, Memory.word_putWord_of_ne, Memory.word_putWord_self] <;> bv_omega
  · rw [Memory.word_putWord_of_ne, Memory.word_putWord_of_ne, Memory.word_putWord_of_ne] <;>
      bv_omega

theorem runs_room (value : Name → Word) (keep : Word → Prop) (temps : Nat) (s : Cpu) :
    ∃ s', Runs value keep s [Instr.loadInt .iy (-((temps : Int) * (wordSize : Int))), .add .iy .sp,
        Instr.load .sp .iy] s' ∧
      s'.hl = s.hl ∧ s'.memory = s.memory ∧ s'.sp = s'.iy ∧
      s'.iy = s.sp - BitVec.ofNat 16 (temps * 2) := by
  refine ⟨_, .quiet rfl rfl (.quiet rfl rfl (.quiet rfl rfl (.nil _))), rfl, rfl, rfl, ?_⟩
  change BitVec.ofInt 16 (-((temps : Int) * (wordSize : Int))) + s.sp = _
  have hneg : BitVec.ofInt 16 (-((temps : Int) * (wordSize : Int))) =
      -BitVec.ofNat 16 (temps * 2) := by
    rw [BitVec.ofInt_neg, ← BitVec.ofInt_natCast, Int.natCast_mul]
    rfl
  rw [hneg]
  bv_omega

theorem saved_eq_iff {m : Memory} {temps : Nat} {frame x y z : Word} :
    ((Frame.saved temps).map fun v => m.word (frame + BitVec.ofInt 16 v.offset)) = [x, y, z] ↔
      m.word (frame + BitVec.ofNat 16 (temps * 2)) = x ∧
      m.word (frame + BitVec.ofNat 16 (temps * 2 + 2)) = y ∧
      m.word (frame + BitVec.ofNat 16 (temps * 2 + 4)) = z := by
  simp only [← BitVec.ofInt_natCast, Frame.saved, map_cons, map_nil, List.cons.injEq, and_true]
  rfl

theorem runs_enterFrame (value : Name → Word) {temps : Nat} (htemps : temps ≤ 64) (s : Cpu) :
    ∃ s', Runs value (fun p => ¬ Below s.sp (temps * 2 + 6) p) s (Emit.enterFrame temps) s' ∧
      s'.ix = s.hl ∧ s'.sp = s'.iy ∧ s'.iy = s.sp - BitVec.ofNat 16 (temps * 2 + 4) ∧
      ((Frame.saved temps).map fun x => s'.memory.word (s'.iy + BitVec.ofInt 16 x.offset)) =
        [s.ix, s.iy, s.memory.word s.sp] := by
  have hpushes : Runs value (fun p => ¬ Below s.sp (temps * 2 + 6) p) s [.push .iy, .push .ix]
      ((s.push s.iy).push s.ix) := by
    refine .cons rfl ?_ (.cons rfl ?_ (.nil _))
    · exact fun p hp => putWord_of_not_below (k := 0) rfl (by omega) (by omega) hp
    · refine fun p hp => putWord_of_not_below (k := 2) ?_ (by omega) (by omega) hp
      change s.sp - 2#16 - 2#16 = _
      bv_omega
  rcases runs_room value (fun p => ¬ Below s.sp (temps * 2 + 6) p) temps
    ((s.push s.iy).push s.ix) with ⟨s5, hroom, hhl, hmemory, hsp, hiy⟩
  have hframe : s5.iy = s.sp - BitVec.ofNat 16 (temps * 2 + 4) := by
    rw [hiy]
    change s.sp - 2#16 - 2#16 - BitVec.ofNat 16 (temps * 2) = _
    bv_omega
  have hmove : Runs value (fun p => ¬ Below s.sp (temps * 2 + 6) p) s5 (Instr.move .ix .hl)
      { s5.push s5.hl with
        sp := (s5.push s5.hl).sp + 2#16
        ix := (s5.push s5.hl).memory.word (s5.push s5.hl).sp } := by
    refine .cons rfl ?_ (.quiet rfl rfl (.nil _))
    refine fun p hp => putWord_of_not_below (k := temps * 2 + 4) ?_ (by omega) (by omega) hp
    rw [hsp, hframe]
    bv_omega
  refine ⟨_, hpushes.append (hroom.append hmove), ?_, ?_, hframe, ?_⟩
  · exact Memory.word_putWord_self.trans hhl
  · change s5.sp - 2#16 + 2#16 = s5.iy
    rw [hsp, BitVec.sub_add_cancel]
  · have hmemory' : (s5.push s5.hl).memory = ((s.memory.putWord (s.sp - 2#16) s.iy).putWord
        (s.sp - 2#16 - 2#16) s.ix).putWord (s5.iy - 2#16) s5.hl := by
      change s5.memory.putWord (s5.sp - 2#16) s5.hl = _
      rw [hmemory, hsp]
      rfl
    exact saved_eq_iff.mpr (word_below_room htemps hframe _ hmemory')

end Machine
end CoolCompiler
