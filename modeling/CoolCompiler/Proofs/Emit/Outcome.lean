import CoolCompiler.Emit.Routine

/-!
# Outcomes of emissions

`Ends` bounds how an emission may end, and `Yields` says that it ends with a value after writing
certain lines.  Both are computed step by step.
-/

namespace CoolCompiler.Emit

open List

variable {σ α β : Type}

/-- The emission ends with a value and a state as `Q` asks or in a fault as `E` allows. -/
def Ends (x : Emit σ α) (s : σ) (Q : α → σ → Prop) (E : Fault → Prop) : Prop :=
  match (x s).outcome with
  | .ok a => Q a (x s).state
  | .error fault => E fault

/-- The emission writes the lines `ls` and ends with the value `a` in the state `s'`. -/
structure Yields (x : Emit σ α) (s : σ) (ls : List Line) (a : α) (s' : σ) : Prop where
  lines : (x s).lines = ls
  state : (x s).state = s'
  outcome : (x s).outcome = .ok a

/-!
# Laws

Emissions are grouped in any way.
-/

theorem andThen_done (x : Emit σ α) : andThen x done = x := by
  funext s
  cases hx : (x s).outcome with
  | error fault => simp only [andThen, hx]; rw [← hx]
  | ok a =>
    simp only [andThen, done, hx, append_nil]
    rw [← hx]

theorem andThen_assoc {γ : Type} (x : Emit σ α) (f : α → Emit σ β) (g : β → Emit σ γ) :
    andThen (andThen x f) g = andThen x (fun a => andThen (f a) g) := by
  funext s
  cases hx : (x s).outcome with
  | error fault => simp only [andThen, hx]
  | ok a =>
    cases hf : (f a (x s).state).outcome with
    | error fault => simp only [andThen, hx, hf]
    | ok b => simp only [andThen, hx, hf, append_assoc]

instance : LawfulMonad (Emit σ) :=
  LawfulMonad.mk' (Emit σ) andThen_done (fun _ _ => rfl) andThen_assoc

theorem bind_of_error {x : Emit σ α} {s : σ} {fault : Fault} (h : (x s).outcome = .error fault)
    (f : α → Emit σ β) : (x >>= f) s = ⟨(x s).lines, (x s).notes, (x s).state, .error fault⟩ := by
  simp only [Bind.bind, andThen, h]

theorem bind_of_ok {x : Emit σ α} {s : σ} {a : α} (h : (x s).outcome = .ok a)
    (f : α → Emit σ β) :
    (x >>= f) s = ⟨(x s).lines ++ (f a (x s).state).lines,
      (x s).notes ++ (f a (x s).state).notes, (f a (x s).state).state,
      (f a (x s).state).outcome⟩ := by
  simp only [Bind.bind, andThen, h]

/-!
# Steps

One rule for each way to build an emission.
-/

section Rules

variable {s : σ} {Q : α → σ → Prop} {E : Fault → Prop}

@[simp] theorem ends_pure (a : α) : Ends (pure a : Emit σ α) s Q E ↔ Q a s := Iff.rfl

@[simp] theorem ends_done (a : α) : Ends (done a : Emit σ α) s Q E ↔ Q a s := Iff.rfl

@[simp] theorem ends_bind (x : Emit σ β) (f : β → Emit σ α) :
    Ends (x >>= f) s Q E ↔ Ends x s (fun b s' => Ends (f b) s' Q E) E := by
  show Ends (andThen x f) s Q E ↔ _
  unfold Ends andThen
  cases hx : (x s).outcome with
  | error fault => simp [hx]
  | ok b => simp [hx]

@[simp] theorem ends_map (f : β → α) (x : Emit σ β) :
    Ends (f <$> x) s Q E ↔ Ends x s (fun b s' => Q (f b) s') E := by
  rw [map_eq_pure_bind, ends_bind]
  rfl

@[simp] theorem ends_lines (ls : List Line) {Q : Unit → σ → Prop} :
    Ends (lines ls) s Q E ↔ Q () s := Iff.rfl

@[simp] theorem ends_instrs (is : List Instr) {Q : Unit → σ → Prop} :
    Ends (instrs is) s Q E ↔ Q () s := Iff.rfl

@[simp] theorem ends_note (n : EmitNote) {Q : Unit → σ → Prop} :
    Ends (note n) s Q E ↔ Q () s := Iff.rfl

@[simp] theorem ends_fail (fault : Fault) : Ends (fail fault : Emit σ α) s Q E ↔ E fault := Iff.rfl

@[simp] theorem ends_get {Q : σ → σ → Prop} : Ends get s Q E ↔ Q s s := Iff.rfl

@[simp] theorem ends_set (s' : σ) {Q : Unit → σ → Prop} : Ends (set s') s Q E ↔ Q () s' := Iff.rfl

@[simp] theorem ends_ofExcept (r : Except Fault α) :
    Ends (ofExcept r : Emit σ α) s Q E ↔
      (∀ a, r = .ok a → Q a s) ∧ ∀ fault, r = .error fault → E fault := by
  cases r <;> simp [ofExcept]

theorem Ends.mono {x : Emit σ α} {Q' : α → σ → Prop} {E' : Fault → Prop} (h : Ends x s Q E)
    (hQ : ∀ a s', Q a s' → Q' a s') (hE : ∀ fault, E fault → E' fault) : Ends x s Q' E' := by
  unfold Ends at h ⊢
  split at h
  · exact hQ _ _ h
  · exact hE _ h

theorem Ends.and {x : Emit σ α} {Q' : α → σ → Prop} {E' : Fault → Prop} (h : Ends x s Q E)
    (h' : Ends x s Q' E') :
    Ends x s (fun a s' => Q a s' ∧ Q' a s') (fun fault => E fault ∧ E' fault) := by
  unfold Ends at h h' ⊢
  split at h <;> simp_all

end Rules

section Yielding

variable {s s' : σ} {ls : List Line}

variable {a b : α} {f : Unit → Emit σ α} {x : Emit σ α} {u : Unit}

theorem Yields.eq {s'' : σ} {ls' : List Line} (h : Yields x s ls a s') (h' : Yields x s ls' b s'') :
    ls = ls' ∧ a = b ∧ s' = s'' := by
  refine ⟨h.lines.symm.trans h'.lines, ?_, h.state.symm.trans h'.state⟩
  exact Except.ok.inj (h.outcome.symm.trans h'.outcome)

@[simp] theorem yields_pure : Yields (pure a : Emit σ α) s ls b s' ↔ ls = [] ∧ b = a ∧ s' = s := by
  constructor
  · rintro ⟨hl, hs, ho⟩
    exact ⟨hl.symm, (Except.ok.inj ho).symm, hs.symm⟩
  · rintro ⟨rfl, rfl, rfl⟩
    exact ⟨rfl, rfl, rfl⟩

@[simp] theorem yields_done :
    Yields (done a : Emit σ α) s ls b s' ↔ ls = [] ∧ b = a ∧ s' = s := yields_pure

@[simp] theorem yields_bind {x : Emit σ β} {f : β → Emit σ α} :
    Yields (x >>= f) s ls a s' ↔
      ∃ first b middle second, Yields x s first b middle ∧ Yields (f b) middle second a s' ∧
        ls = first ++ second := by
  show Yields (andThen x f) s ls a s' ↔ _
  constructor
  · rintro ⟨hl, hs, ho⟩
    unfold andThen at hl hs ho
    cases hx : (x s).outcome with
    | error fault =>
      simp only [hx] at ho
      cases ho
    | ok b =>
      simp only [hx] at hl hs ho
      exact ⟨_, b, _, _, ⟨rfl, rfl, hx⟩, ⟨rfl, hs, ho⟩, hl.symm⟩
  · rintro ⟨first, b, middle, second, hx, hf, rfl⟩
    constructor
    · simp [andThen, hx.outcome, hx.lines, hx.state, hf.lines]
    · simp [andThen, hx.outcome, hx.state, hf.state]
    · simp [andThen, hx.outcome, hx.state, hf.outcome]

@[simp] theorem yields_lines {written : List Line} :
    Yields (lines written) s ls u s' ↔ ls = written ∧ s' = s := by
  constructor
  · rintro ⟨hl, hs, _⟩
    exact ⟨hl.symm, hs.symm⟩
  · rintro ⟨rfl, rfl⟩
    exact ⟨rfl, rfl, rfl⟩

@[simp] theorem yields_instrs {is : List Instr} :
    Yields (instrs is) s ls u s' ↔ ls = code is ∧ s' = s := yields_lines

@[simp] theorem yields_note {n : EmitNote} : Yields (note n) s ls u s' ↔ ls = [] ∧ s' = s := by
  constructor
  · rintro ⟨hl, hs, _⟩
    exact ⟨hl.symm, hs.symm⟩
  · rintro ⟨rfl, rfl⟩
    exact ⟨rfl, rfl, rfl⟩

@[simp] theorem not_yields_fail {fault : Fault} : ¬ Yields (fail fault : Emit σ α) s ls a s' := by
  rintro ⟨_, _, ho⟩
  cases ho

@[simp] theorem yields_get {a : σ} : Yields get s ls a s' ↔ ls = [] ∧ a = s ∧ s' = s := by
  constructor
  · rintro ⟨hl, hs, ho⟩
    exact ⟨hl.symm, (Except.ok.inj ho).symm, hs.symm⟩
  · rintro ⟨rfl, rfl, rfl⟩
    exact ⟨rfl, rfl, rfl⟩

@[simp] theorem yields_set {new : σ} : Yields (set new) s ls u s' ↔ ls = [] ∧ s' = new := by
  constructor
  · rintro ⟨hl, hs, _⟩
    exact ⟨hl.symm, hs.symm⟩
  · rintro ⟨rfl, rfl⟩
    exact ⟨rfl, rfl, rfl⟩

theorem yields_bind_of {x : Emit σ β} {b : β} {middle : σ} (h : Yields x s [] b middle)
    (f : β → Emit σ α) : Yields (x >>= f) s ls a s' ↔ Yields (f b) middle ls a s' := by
  rw [yields_bind]
  constructor
  · rintro ⟨first, b', middle', second, hx, hf, rfl⟩
    obtain ⟨rfl, rfl, rfl⟩ := h.eq hx
    exact hf
  · intro hf
    exact ⟨[], b, middle, ls, h, hf, rfl⟩

theorem yields_lines_bind {written : List Line} :
    Yields (lines written >>= f) s ls a s' ↔
      ∃ rest, Yields (f ()) s rest a s' ∧ ls = written ++ rest := by
  rw [yields_bind]
  constructor
  · rintro ⟨first, b, middle, second, hx, hf, rfl⟩
    obtain ⟨rfl, rfl⟩ := yields_lines.mp hx
    exact ⟨second, hf, rfl⟩
  · rintro ⟨rest, hf, rfl⟩
    exact ⟨written, (), s, rest, yields_lines.mpr ⟨rfl, rfl⟩, hf, rfl⟩

theorem yields_instrs_bind {is : List Instr} :
    Yields (instrs is >>= f) s ls a s' ↔
      ∃ rest, Yields (f ()) s rest a s' ∧ ls = code is ++ rest :=
  yields_lines_bind

@[simp] theorem yields_ofExcept {r : Except Fault α} :
    Yields (ofExcept r : Emit σ α) s ls a s' ↔ r = .ok a ∧ ls = [] ∧ s' = s := by
  cases r with
  | error fault => simp [ofExcept]
  | ok b => simp [ofExcept, eq_comm, and_left_comm]

theorem yields_ofExcept_bind {r : Except Fault β} {f : β → Emit σ α} :
    Yields (ofExcept r >>= f) s ls a s' ↔ ∃ b, r = .ok b ∧ Yields (f b) s ls a s' := by
  cases r with
  | error fault =>
    rw [yields_bind]
    simp [ofExcept]
  | ok b =>
    rw [yields_bind_of (yields_ofExcept.mpr ⟨rfl, rfl, rfl⟩)]
    simp

theorem Ends.exists_yields {Q : α → σ → Prop} (h : Ends x s Q (fun _ => False)) :
    ∃ ls a s', Yields x s ls a s' ∧ Q a s' := by
  unfold Ends at h
  split at h
  · rename_i a ha
    exact ⟨_, a, _, ⟨rfl, rfl, ha⟩, h⟩
  · exact False.elim h

theorem Yields.of_ends {Q : α → σ → Prop} {E : Fault → Prop} (h : Yields x s ls a s')
    (hends : Ends x s Q E) : Q a s' := by
  unfold Ends at hends
  rw [h.outcome] at hends
  rw [← h.state]
  exact hends

end Yielding

end CoolCompiler.Emit
