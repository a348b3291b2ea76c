import CoolCompiler.Proofs.Machine.Calls

/-!
# The calling convention

A caller pushes the actuals, puts the receiver into hl and calls.  The routine finds them through
its registers and returns with the registers and the stack of the caller, and the result in hl.
-/

namespace CoolCompiler.Machine

open List CoolCompiler.Frame

open Emit

/-- Words pushed one after the other.  Code in between leaves the stack pointer and keeps what has
been pushed. -/
inductive Pushed (s₀ : Cpu) : List Word → Cpu → Prop where
  | nil : Pushed s₀ [] s₀
  | push {ws : List Word} {s : Cpu} (w : Word) (h : Pushed s₀ ws s) :
      Pushed s₀ (ws ++ [w]) (s.push w)
  | between {ws : List Word} {s s' : Cpu} (h : Pushed s₀ ws s) (hsp : s'.sp = s.sp)
      (hkept : ∀ a, Below s₀.sp (2 * ws.length) a → s'.memory a = s.memory a) : Pushed s₀ ws s'

namespace Pushed

variable {s₀ s : Cpu} {ws : List Word} {k : Nat} {w : Word}

theorem sp_eq (h : Pushed s₀ ws s) : s.sp = s₀.sp - BitVec.ofNat 16 (2 * ws.length) := by
  induction h with
  | nil => simp
  | @push ws s w _ ih =>
    show s.sp - 2#16 = _
    rw [ih, length_append, length_singleton, Nat.mul_add, BitVec.ofNat_add]
    bv_omega
  | between _ hsp _ ih => rw [hsp, ih]

theorem word_eq (h : Pushed s₀ ws s) (hlength : 2 * ws.length ≤ 65536) (hk : ws[k]? = some w) :
    s.memory.word (s₀.sp - BitVec.ofNat 16 (2 * (k + 1))) = w := by
  induction h generalizing w with
  | nil => simp at hk
  | @push ws s w' h ih =>
    rw [length_append, length_singleton] at hlength
    rw [getElem?_append] at hk
    split at hk
    · rename_i hlt
      rw [← ih (by omega) hk]
      apply push_word
      all_goals
        rw [Spared, h.sp_eq]
        constructor <;> bv_omega
    · rename_i hge
      have hlast : k = ws.length := by
        have hlt := (List.getElem?_eq_some_iff.mp hk).1
        rw [length_singleton] at hlt
        omega
      subst hlast
      rw [Nat.sub_self] at hk
      cases hk
      have htop : s₀.sp - BitVec.ofNat 16 (2 * (ws.length + 1)) = s.sp - 2#16 := by
        rw [h.sp_eq]
        bv_omega
      rw [htop]
      exact Memory.word_putWord_self
  | @between ws s s' h _ hkept ih =>
    have hlt := (List.getElem?_eq_some_iff.mp hk).1
    rw [← ih hlength hk]
    apply Memory.word_congr
    all_goals
      apply hkept
      unfold Below
      bv_omega

theorem word_from_top (h : Pushed s₀ ws s) (hlength : 2 * ws.length ≤ 65536)
    (hk : ws[k]? = some w) :
    s.memory.word (s.sp + BitVec.ofNat 16 (2 * (ws.length - 1 - k))) = w := by
  have hlt := (List.getElem?_eq_some_iff.mp hk).1
  rw [← h.word_eq hlength hk, h.sp_eq]
  congr 1
  bv_omega

end Pushed

/-!
# Routines with a frame
-/

def framed (label : Name) (temps : Nat) (body : List Line) : List Line :=
  Line.label label :: (code (enterFrame temps) ++ (body ++ code (leaveFrame temps)))

def bodyStart (j temps : Nat) : Nat := j + 1 + (enterFrame temps).length

section Framed

variable {m : Image} {keep : Word → Prop} {label : Name} {temps i j : Nat} {body : List Line}

theorem placed_framed (h : m.Placed j (framed label temps body)) :
    m.code[j]? = some (.label label) ∧ m.Placed (j + 1) (code (enterFrame temps)) ∧
      m.Placed (bodyStart j temps) body ∧
      m.Placed (bodyStart j temps + body.length) (code (leaveFrame temps)) := by
  obtain ⟨hlabel, hrest⟩ := placed_cons.mp h
  obtain ⟨henter, hrest⟩ := placed_append.mp hrest
  obtain ⟨hbody, hleave⟩ := placed_append.mp hrest
  simp only [Emit.code, length_map] at hbody hleave
  exact ⟨hlabel, henter, hbody, hleave⟩

theorem reaches_body (h : m.Placed j (framed label temps body)) (htemps : temps ≤ 64) (s : Cpu) :
    ∃ s', Reaches m (fun a => ¬ Below s.sp (temps * 2 + 6) a) (.line j) s
        (.line (bodyStart j temps)) s' ∧
      s'.ix = s.hl ∧ s'.sp = s'.iy ∧ s'.iy = s.sp - BitVec.ofNat 16 (temps * 2 + 4) ∧
      ((Frame.saved temps).map fun x => s'.memory.word (s'.iy + BitVec.ofInt 16 x.offset)) =
        [s.ix, s.iy, s.memory.word s.sp] := by
  obtain ⟨hlabel, henter, -, -⟩ := placed_framed h
  obtain ⟨s', hruns, hix, hsp, hiy, hsaved⟩ := runs_enterFrame m.value htemps s
  exact ⟨s', (reaches_label hlabel).trans (reaches_code henter hruns), hix, hsp, hiy, hsaved⟩

theorem reaches_caller (keep : Word → Prop) (h : m.Placed j (framed label temps body)) {s₀ s : Cpu}
    (hsp : s.sp = s.iy) (hiy : s.iy = s₀.sp - BitVec.ofNat 16 (temps * 2 + 4))
    (hsaved : ((Frame.saved temps).map fun x => s.memory.word (s.iy + BitVec.ofInt 16 x.offset)) =
      [s₀.ix, s₀.iy, s₀.memory.word s₀.sp]) :
    ∃ s', Reaches m keep (.line (bodyStart j temps + body.length)) s
        (.address (s₀.memory.word s₀.sp)) s' ∧
      s'.ix = s₀.ix ∧ s'.iy = s₀.iy ∧ s'.sp = s₀.sp + 2#16 ∧ s'.hl = s.hl := by
  obtain ⟨-, -, -, hleave⟩ := placed_framed h
  rw [leaveFrame_eq, placed_code_append] at hleave
  obtain ⟨s1, hruns, hsp1, hix1, hiy1, hhl⟩ := runs_restoreFrame m.value keep temps s
  have hmemory : s1.memory = s.memory := by
    obtain ⟨s2, hruns2, -⟩ := runs_restoreFrame m.value (fun _ => True) temps s
    funext a
    rw [hruns.unique hruns2]
    exact hruns2.memory trivial
  rw [saved_eq_iff, ← hsp] at hsaved
  obtain ⟨hself, hframe, hreturn⟩ := hsaved
  have hret : Reaches m keep _ s1 _ _ := reaches_ret (placed_cons.mp hleave.2).1
  rw [hmemory, hsp1, hreturn] at hret
  refine ⟨_, (reaches_code hleave.1 hruns).trans hret, hix1.trans hself, hiy1.trans hframe, ?_,
    hhl⟩
  show s.sp + BitVec.ofNat 16 (temps * 2 + 4) + 2#16 = s₀.sp + 2#16
  rw [hsp, hiy, BitVec.sub_add_cancel]

end Framed

theorem reaches_callPair {m : Image} {i : Nat} {back : Name}
    (h : m.Placed i (code (callPair .de back))) (s : Cpu) :
    ∃ s', Reaches m (fun a => ¬ Below s.sp 4 a) (.line i) s (.address s.de) s' ∧ s'.hl = s.hl ∧
      s'.ix = s.ix ∧ s'.iy = s.iy ∧ s'.sp = s.sp - 2#16 ∧
      s'.memory.word s'.sp = m.value back := by
  rcases (placed_code_append [loadLabel .bc back, .push .bc, .push .de] [.ret]).mp h with
    ⟨hpushes, hret⟩
  let s1 : Cpu := { s with bc := m.value back + BitVec.ofInt 16 0 }
  have hfirst : ∀ a, ¬ Below s.sp 4 a → (s1.push s1.bc).memory a = s1.memory a := by
    intro a ha
    exact push_memory (spared_of_not_below (by omega) ha)
  have hsecond : ∀ a, ¬ Below s.sp 4 a →
      ((s1.push s1.bc).push s.de).memory a = (s1.push s1.bc).memory a := by
    intro a ha
    refine push_memory (spared_of_not_below (Nat.le_refl 2) fun hbelow => ha ?_)
    exact (Below.of_sp (d := 2) rfl (by omega) hbelow).1
  have hruns : Runs m.value (fun a => ¬ Below s.sp 4 a) s
      [loadLabel .bc back, .push .bc, .push .de] ((s1.push s1.bc).push s.de) :=
    .quiet rfl rfl (.cons rfl hfirst (.cons rfl hsecond (.nil _)))
  have hreturn : Reaches m (fun a => ¬ Below s.sp 4 a) _ ((s1.push s1.bc).push s.de) _ _ :=
    reaches_ret (placed_cons.mp hret).1
  rw [show ((s1.push s1.bc).push s.de).memory.word ((s1.push s1.bc).push s.de).sp = s.de from
    Memory.word_putWord_self] at hreturn
  have hsp : s.sp - 2#16 - 2#16 + 2#16 = s.sp - 2#16 := BitVec.sub_add_cancel _ _
  refine ⟨_, (reaches_code hpushes hruns).trans hreturn, rfl, rfl, rfl, hsp, ?_⟩
  show ((s1.push s1.bc).memory.putWord (s.sp - 2#16 - 2#16) s.de).word
    (s.sp - 2#16 - 2#16 + 2#16) = _
  rw [hsp, Memory.word_putWord_of_ne (by bv_omega) (by bv_omega) (by bv_omega) (by bv_omega)]
  exact Memory.word_putWord_self.trans (BitVec.add_zero _)

theorem add_ofNat_succ (p : Word) (k : Nat) :
    p + BitVec.ofNat 16 k + 1#16 = p + BitVec.ofNat 16 (k + 1) := by
  rw [BitVec.ofNat_add, BitVec.add_assoc]

variable {s s' : Cpu} {k temps : Nat}

theorem mem_temporaries_iff (env : Environment) (htemps : temps ≤ 64) (frame a : Word) :
    (∃ k, k < temps ∧ a ∈ ({ env with temps := (k : Int) }.alloc).1.bytes frame) ↔
      (a - frame).toNat < 2 * temps := by
  have hbytes : ∀ k, k < 64 → ({ env with temps := (k : Int) }.alloc).1.bytes frame =
      [frame + BitVec.ofNat 16 (2 * k), frame + BitVec.ofNat 16 (2 * k) + 1#16] := by
    intro k hk
    have hwrap : wrapOffset ((k : Int) * (wordSize : Int)) = ((2 * k : Nat) : Int) := by
      rw [wrapOffset_of_small] <;> simp only [wordSize] <;> omega
    simp only [Indexed.bytes, Environment.alloc, hwrap, BitVec.ofInt_natCast]
  constructor
  · rintro ⟨k, hk, ha⟩
    rw [hbytes k (by omega), mem_cons, mem_singleton] at ha
    rcases ha with rfl | rfl <;> bv_omega
  · intro ha
    refine ⟨(a - frame).toNat / 2, by omega, ?_⟩
    rw [hbytes _ (by omega), mem_cons, mem_singleton]
    have haddress : frame + BitVec.ofNat 16 (a - frame).toNat = a := by
      rw [BitVec.ofNat_toNat, BitVec.setWidth_eq, BitVec.add_comm, BitVec.sub_add_cancel]
    rcases Nat.mod_two_eq_zero_or_one (a - frame).toNat with heven | hodd
    · have hhalf : 2 * ((a - frame).toNat / 2) = (a - frame).toNat := by omega
      exact .inl (by rw [hhalf, haddress])
    · have hhalf : 2 * ((a - frame).toNat / 2) + 1 = (a - frame).toNat := by omega
      exact .inr (by rw [add_ofNat_succ, hhalf, haddress])

theorem push_spares_temporaries {frame a : Word} {depth : Nat}
    (hsp : s.sp = frame - BitVec.ofNat 16 depth) (hroom : depth + 2 + 2 * temps ≤ 65536)
    (ha : (a - frame).toNat < 2 * temps) (w : Word) : (s.push w).memory a = s.memory a := by
  apply push_memory
  rw [Spared, hsp]
  constructor <;> bv_omega

/-!
# A call and its return
-/

theorem not_below_above {sp : Word} {n : Nat} (h : k + n < 65536) :
    ¬ Below sp n (sp + BitVec.ofNat 16 k) := by
  unfold Below
  bv_omega

theorem Pushed.word_of_kept {s₀ : Cpu} {ws : List Word} {n : Nat} {w : Word} (h : Pushed s₀ ws s)
    (hroom : 2 * ws.length + n ≤ 65536) (hkept : ∀ a, ¬ Below s.sp n a → s'.memory a = s.memory a)
    (hk : ws[k]? = some w) :
    s'.memory.word (s.sp + BitVec.ofNat 16 (2 * (ws.length - 1 - k))) = w := by
  have hlt := (List.getElem?_eq_some_iff.mp hk).1
  rw [← h.word_from_top (by omega) hk]
  apply Memory.word_congr
  · exact hkept _ (not_below_above (by omega))
  · rw [add_ofNat_succ]
    exact hkept _ (not_below_above (by omega))

theorem formal_place (sp : Word) (temps d : Nat) :
    sp - 2#16 - BitVec.ofNat 16 (temps * 2 + 4) + BitVec.ofNat 16 (temps * 2 + 6 + 2 * d) =
      sp + BitVec.ofNat 16 (2 * d) := by
  have hsplit : temps * 2 + 6 + 2 * d = 2 * d + 2 + (temps * 2 + 4) := by omega
  rw [hsplit, BitVec.ofNat_add (2 * d + 2), BitVec.ofNat_add (2 * d)]
  generalize BitVec.ofNat 16 (temps * 2 + 4) = x
  generalize BitVec.ofNat 16 (2 * d) = y
  bv_omega

theorem formal_eq_actual {s₀ s1 : Cpu} {actuals : List Word} {w r : Word}
    (hpushed : Pushed s₀ actuals s) (hsmall : temps + actuals.length ≤ 61)
    (hkept : ∀ a, ¬ Below s.sp (temps * 2 + 8) a → s1.memory a = s.memory a)
    (hiy : s1.iy = (s.push r).sp - BitVec.ofNat 16 (temps * 2 + 4)) (hk : actuals[k]? = some w) :
    s1.memory.word
      (s1.iy + BitVec.ofInt 16 (formal temps k actuals.length).offset) = w := by
  have hlt := (List.getElem?_eq_some_iff.mp hk).1
  have hoffset : (formal temps k actuals.length).offset =
      ((temps * 2 + 6 + 2 * (actuals.length - 1 - k) : Nat) : Int) := by
    rw [formal_offset (by omega) (by omega) (by omega)]
    omega
  have hplace : s1.iy + BitVec.ofNat 16 (temps * 2 + 6 + 2 * (actuals.length - 1 - k)) =
      s.sp + BitVec.ofNat 16 (2 * (actuals.length - 1 - k)) := by
    rw [hiy]
    exact formal_place s.sp temps _
  rw [hoffset, BitVec.ofInt_natCast, hplace]
  exact hpushed.word_of_kept (by omega) hkept hk

theorem saved_eq_of_memory
    (h : ∀ a ∈ (Frame.saved temps).flatMap (Indexed.bytes s.iy), s'.memory a = s.memory a)
    (hiy : s'.iy = s.iy) :
    ((Frame.saved temps).map fun x => s'.memory.word (s'.iy + BitVec.ofInt 16 x.offset)) =
      (Frame.saved temps).map fun x => s.memory.word (s.iy + BitVec.ofInt 16 x.offset) := by
  rw [hiy]
  apply map_congr_left
  intro x hx
  apply Memory.word_congr
  · exact h _ (mem_flatMap.mpr ⟨x, hx, mem_cons_self⟩)
  · exact h _ (mem_flatMap.mpr ⟨x, hx, mem_cons_of_mem _ (mem_singleton_self _)⟩)

/-!
# Routines that return
-/

/-- A routine that stands from a line on, entered in the state `s`, comes to its end: a bare one at
once, and the body of one with a frame in a state with the frame pointer, the stack pointer and the
saved words that it began with. -/
inductive Completes (m : Image) (j : Nat) (s : Cpu) : List Line → Cpu → Prop where
  | bare (label : Name) : Completes m j s (.label label :: code [.ret]) s
  | framed {label : Name} {temps : Nat} {body : List Line} {s1 s' : Cpu} (small : temps ≤ 64)
      (entered : Runs m.value (fun _ => False) s (enterFrame temps) s1)
      (inside : Travels m (fun _ => False) (.line (bodyStart j temps)) s1
        (.line (bodyStart j temps + body.length)) s')
      (still : Still s1 s')
      (saved : ∀ a ∈ (Frame.saved temps).flatMap (Indexed.bytes s1.iy),
        s'.memory a = s1.memory a) : Completes m j s (framed label temps body) s'

theorem Completes.returns {m : Image} {j : Nat} {routine : List Line}
    (h : Completes m j s routine s') (hplaced : m.Placed j routine) :
    ∃ s'', Travels m (fun _ => False) (.line j) s (.address (s.memory.word s.sp)) s'' ∧
      s''.ix = s.ix ∧ s''.iy = s.iy ∧ s''.sp = s.sp + 2#16 ∧ s''.hl = s'.hl := by
  cases h with
  | bare label =>
    obtain ⟨hlabel, hcode⟩ := placed_cons.mp hplaced
    have hret : Reaches m (fun _ => False) _ s _ _ := reaches_ret (placed_cons.mp hcode).1
    exact ⟨_, .within ((reaches_label hlabel).trans hret), rfl, rfl, rfl, rfl⟩
  | @framed label temps body s1 _ small entered inside still saved =>
    obtain ⟨s2, hruns, -, hsp, hiy, hsaved⟩ := runs_enterFrame m.value small s
    cases entered.unique hruns
    obtain ⟨hlabel, henter, -, -⟩ := placed_framed hplaced
    rw [← still.iy] at hiy
    rcases reaches_caller (fun _ => False) hplaced (by rw [still.sp, still.iy, hsp]) hiy
      ((saved_eq_of_memory saved still.iy).trans hsaved) with ⟨s3, hreturn, hix, hiy', hsp', hhl⟩
    have henters := (reaches_label hlabel).trans (reaches_code henter entered)
    exact ⟨s3, (Travels.within henters).trans (inside.trans (.within hreturn)), hix, hiy', hsp',
      hhl⟩

/-- The calling convention.  A caller has pushed actuals and calls a routine with the receiver in
hl.  The body begins with the receiver in ix and each formal where the actual is, and the
temporaries are clear of the stack.  If the body keeps ix, iy, sp and the saved words, the routine
returns to the line after the call, with the registers of the caller and the value in hl. -/
theorem call_framed (m : Image) {owner label : Name} {temps i j : Nat} {body : List Line}
    {actuals : List Word} (hcheck : Frame.check owner temps actuals.length = .ok ())
    (hsize : Frame.size temps actuals.length ≤ maxOffset)
    (hcall : m.code[i]? = some (.instr (.call label)))
    (hroutine : m.Placed j (framed label temps body)) {s₀ s : Cpu}
    (hpushed : Pushed s₀ actuals s) :
    ∃ s₁, Reaches m (fun a => ¬ Below s.sp (temps * 2 + 8) a) (.line i) s
        (.line (bodyStart j temps)) s₁ ∧
      s₁.ix = s.hl ∧
      (∀ (k : Nat) (w : Word), actuals[k]? = some w → s₁.memory.word
        (s₁.iy + BitVec.ofInt 16 (Frame.formal temps k actuals.length).offset) = w) ∧
      (∀ (env : Environment) (a : Word),
        (∃ k, k < temps ∧ a ∈ ({ env with temps := (k : Int) }.alloc).1.bytes s₁.iy) ↔
          (a - s₁.iy).toNat < 2 * temps) ∧
      s₁.sp = s₁.iy ∧
      (∀ (s' : Cpu) (depth : Nat) (w a : Word), s'.sp = s₁.iy - BitVec.ofNat 16 depth →
        depth + 2 + 2 * temps ≤ 65536 → (a - s₁.iy).toNat < 2 * temps →
        (s'.push w).memory a = s'.memory a) ∧
      ∀ s₂, Travels m (fun a => a ∈ (Frame.saved temps).flatMap (Indexed.bytes s₁.iy))
          (.line (bodyStart j temps)) s₁ (.line (bodyStart j temps + body.length)) s₂ →
        Still s₁ s₂ →
        ∃ s₃, Travels m (fun _ => False) (.line i) s (.address (m.start (i + 1))) s₃ ∧
          s₃.ix = s.ix ∧ s₃.iy = s.iy ∧ s₃.sp = s.sp ∧
          s.sp = s₀.sp - BitVec.ofNat 16 (2 * actuals.length) ∧ s₃.hl = s₂.hl := by
  have hfits : ¬ FrameTooLarge temps actuals.length := by
    rw [← fits_top_iff hsize]
    unfold Frame.check at hcheck
    split at hcheck
    · assumption
    · cases hcheck
  have htemps : temps ≤ 64 := by
    unfold FrameTooLarge at hfits
    omega
  have hentered : Reaches m (fun a => ¬ Below s.sp (temps * 2 + 8) a) (.line i) s (.line j)
      (s.push (m.start (i + 1))) :=
    reaches_call hcall (target_of_code (placed_framed hroutine).1) fun a ha =>
      spared_of_not_below (by omega) ha
  rcases reaches_body hroutine htemps (s.push (m.start (i + 1))) with
    ⟨s₁, hbody, hix, hsp, hiy, hsaved⟩
  have hreaches := hentered.trans (hbody.mono fun a ha hbelow =>
    ha ((Below.of_sp (d := 2) rfl (by omega) hbelow).1.mono (by omega)))
  refine ⟨s₁, hreaches, hix, ?_, fun env a => mem_temporaries_iff env htemps _ _, hsp,
    fun s' depth w a hsp' hroom ha => push_spares_temporaries hsp' hroom ha w, ?_⟩
  · intro k w hk
    have hlt := (List.getElem?_eq_some_iff.mp hk).1
    have hsmall : temps + actuals.length ≤ 61 := by
      unfold FrameTooLarge at hfits
      omega
    exact formal_eq_actual hpushed hsmall (fun a ha => hreaches.memory ha) hiy hk
  · intro s₂ htravels hstill
    have hsaved₂ := saved_eq_of_memory (fun a ha => htravels.memory ha) hstill.iy
    rcases reaches_caller (fun _ => False) hroutine (hstill.sp.trans (hsp.trans hstill.iy.symm))
      (hstill.iy.trans hiy) (hsaved₂.trans hsaved) with ⟨s₃, hreturn, hix₃, hiy₃, hsp₃, hhl₃⟩
    have hword : (s.push (m.start (i + 1))).memory.word (s.push (m.start (i + 1))).sp =
        m.start (i + 1) := Memory.word_putWord_self
    rw [hword] at hreturn
    refine ⟨s₃, ?_, hix₃, hiy₃, hsp₃.trans (BitVec.sub_add_cancel s.sp 2#16), hpushed.sp_eq, hhl₃⟩
    exact (Travels.within (hreaches.mono fun _ h => h.elim)).trans
      ((htravels.mono fun _ h => h.elim).trans (.within hreturn))

def firstActual : List Line := framed "first" 1 (code (Instr.loadWord .hl (formal 1 0 2)))

def firstActualImage : Image where
  code := .instr (.call "first") :: firstActual
  labelled := by decide
  value := fun _ => 0#16
  start := BitVec.ofNat 16
  library := fun _ _ => none

def firstActualCaller : Cpu :=
  ⟨0#8, 0#16, 0#16, 0x4000#16, 0x5000#16, 0x6000#16, 0x8000#16, false, false, fun _ => 0#8⟩

theorem call_framed_firstActual :
    Frame.check "Main" 1 2 = .ok () ∧
    ∃ s, Travels firstActualImage (fun _ => False) (.line 0)
        ((firstActualCaller.push 5#16).push 7#16) (.address 1#16) s ∧
      s.ix = 0x5000#16 ∧ s.iy = 0x6000#16 ∧ s.sp = 0x7ffc#16 ∧ s.hl = 5#16 := by
  have hcheck : Frame.check "Main" 1 2 = .ok () := rfl
  have hplaced : firstActualImage.Placed 1 firstActual := by
    intro k l hk
    rw [Nat.add_comm]
    exact hk
  have hpushed : Pushed firstActualCaller [5#16, 7#16]
      ((firstActualCaller.push 5#16).push 7#16) := .push 7#16 (.push 5#16 .nil)
  rcases call_framed firstActualImage hcheck (by decide) (i := 0) rfl hplaced hpushed with
    ⟨s₁, -, -, hformals, -, -, -, hreturn⟩
  have hfirst := hformals 0 5#16 rfl
  have hindexed : s₁.indexed? (Frame.formal 1 0 2) =
      some (s₁.iy + BitVec.ofInt 16 (Frame.formal 1 0 2).offset) := if_pos (by decide)
  have hread : Runs firstActualImage.value
      (fun a => a ∈ (Frame.saved 1).flatMap (Indexed.bytes s₁.iy)) s₁ _ _ :=
    runs_loadIndexed hindexed (by decide)
  have hbody := reaches_code (placed_framed hplaced).2.2.1 hread
  rcases hreturn _ (.within hbody) ⟨rfl, rfl, rfl⟩ with ⟨s₃, htravels, hix, hiy, hsp, -, hhl⟩
  exact ⟨hcheck, s₃, htravels, hix, hiy, hsp, hhl.trans hfirst⟩

end CoolCompiler.Machine
