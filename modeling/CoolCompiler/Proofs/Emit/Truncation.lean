import CoolCompiler.Proofs.Emit.Listing

/-!
# Sinks without room

A sink that runs out of room keeps the first lines.  Sinks are not looked at until the end or the
dispatch tables, so all else is as with sinks that take every line.
-/

namespace CoolCompiler

open List

namespace Sink

theorem writeAll_cons (s : Sink) (l : Line) (ls : List Line) :
    s.writeAll (l :: ls) =
      (((s.write l).1.writeAll ls).1, (s.write l).2 ++ ((s.write l).1.writeAll ls).2) := rfl

theorem writeAll_failed (room : Option Nat) (count : Nat) (ls : List Line) :
    (⟨room, count, true⟩ : Sink).writeAll ls = (⟨room, count, true⟩, []) := by
  induction ls with
  | nil => rfl
  | cons l ls ih => rw [writeAll_cons, write, if_pos rfl, ih, nil_append]

/-- With room for `n` lines the first `n` of them arrive, and a line after them is a
failure. -/
theorem writeAll_limited (n count : Nat) (ls : List Line) :
    ((⟨some n, count, false⟩ : Sink).writeAll ls).2 = ls.take n ∧
      ((⟨some n, count, false⟩ : Sink).writeAll ls).1.failed = decide (n < ls.length) := by
  induction ls generalizing n count with
  | nil => exact ⟨take_nil.symm, rfl⟩
  | cons l ls ih =>
    cases n with
    | zero =>
      have hwrite : (⟨some 0, count, false⟩ : Sink).write l =
          (⟨some 0, count + 1, true⟩, []) := rfl
      rw [writeAll_cons, hwrite, writeAll_failed]
      exact ⟨rfl, by simp⟩
    | succ n =>
      have hwrite : (⟨some (n + 1), count, false⟩ : Sink).write l =
          (⟨some n, count + 1, false⟩, [l]) := rfl
      obtain ⟨harrived, hfailed⟩ := ih n (count + 1)
      rw [writeAll_cons, hwrite]
      refine ⟨?_, ?_⟩
      · rw [harrived, take_succ_cons, singleton_append]
      · rw [hfailed, length_cons]
        simp

theorem writeAll_fresh (n : Nat) (ls : List Line) :
    ((fresh (some n)).writeAll ls).2 = ls.take n ∧
      ((fresh (some n)).writeAll ls).1.failed = decide (n < ls.length) :=
  writeAll_limited n 0 ls

theorem writeAll_unlimited (ls : List Line) :
    ((fresh none).writeAll ls).2 = ls ∧ ((fresh none).writeAll ls).1.failed = false := by
  have hfresh : (fresh none).Unlimited := ⟨rfl, rfl⟩
  have hfailed := (unlimited_writeAll hfresh ls).2
  exact ⟨(writeAll_of_not_failed hfailed).2, hfailed⟩

end Sink

namespace Emit

theorem head_afterTables (sc : Scene) (k : Nat) :
    (afterTables sc k).lines.head? = some (.label classObjectTable) := by
  rw [afterTables, classTables, bind_assoc, lines_bind (yields_lines (u := ()).mpr ⟨rfl, rfl⟩)]
  rfl

theorem lines_splitProgram {sc : Scene} {file : Text} {k : Nat} {u : Unit}
    (h : (beforeTables sc (some file) k).outcome = .ok u) :
    ∃ front zero rest,
      (beforeTables sc (some file) k).lines = front ++ sc.table.nodes.flatMap (prototype zero) ∧
        (splitProgram sc file k).lines = (beforeTables sc (some file) k).lines ++ rest ∧
        rest.head? = some (.label classObjectTable) := by
  have hyields : Yields (beforeTables sc (some file)) k _ u _ := ⟨rfl, rfl, h⟩
  obtain ⟨front, zero, -, hfront⟩ := yields_beforeTables hyields
  have hwhole := lines_bind hyields (f := fun _ => afterTables sc)
  exact ⟨front, zero, _, hfront, hwhole, head_afterTables sc _⟩

end Emit

namespace Generator

open Emit

variable (g : Generator)

def CutTo (n : Nat) (whole cut : Generated) : Prop :=
  cut.assembly = whole.assembly.take n ∧ cut.tables = whole.tables ∧
    cut.generator = whole.generator ∧
    cut.failure = if whole.failure = none ∧ n < whole.assembly.length then
      some .assemblyNotWritten else whole.failure

theorem finish_limited (n : Nat) (tables : List Line) (opening : Nat) (notes : List EmitNote)
    (e : Emitted Nat Unit) : CutTo n (g.finish (Sink.fresh none) tables opening notes e)
      (g.finish (Sink.fresh (some n)) tables opening notes e) := by
  unfold CutTo finish
  simp only [Sink.writeAll_fresh, Sink.writeAll_unlimited, Bool.false_eq_true, if_false]
  cases e.outcome with
  | error fault => simp
  | ok u =>
    by_cases hshort : n < e.lines.length
    · simp [hshort]
    · simp [hshort]

theorem run_limited (p : Program) (tableSink : Option Sink) (n : Nat) :
    CutTo n (g.run p (Sink.fresh none) tableSink) (g.run p (Sink.fresh (some n)) tableSink) := by
  unfold run
  cases ClassTable.build p with
  | error fault => simp [CutTo]
  | ok t =>
    cases tableSink with
    | none => exact finish_limited ..
    | some tableSink =>
      simp only
      cases (beforeTables ⟨t, g.pool.collect t⟩ (some g.tableFile) g.labels).outcome with
      | error fault => simp [CutTo, Sink.writeAll_fresh, Sink.writeAll_unlimited]
      | ok u =>
        simp only
        split
        · simp [CutTo, Sink.writeAll_fresh, Sink.writeAll_unlimited]
        · exact finish_limited ..

/-- An assembly that ends with the prototype of the last class, where the whole assembly goes
on with the table of prototypes. -/
def EndsAtPrototypes (p : Program) (whole cut : List Line) : Prop :=
  ∃ t front zero rest, ClassTable.build p = .ok t ∧
    cut = front ++ t.nodes.flatMap (prototype zero) ∧ whole = cut ++ rest ∧
    rest.head? = some (.label classObjectTable)

theorem finish_unlimited (tables : List Line) (opening : Nat) (notes : List EmitNote)
    (e : Emitted Nat Unit) :
    (g.finish (Sink.fresh none) tables opening notes e).assembly = e.lines ∧
      (g.finish (Sink.fresh none) tables opening notes e).tables = tables :=
  assembly_finish ⟨rfl, rfl⟩ ..

theorem run_tables_limited (p : Program) (m : Nat) :
    let whole := g.run p (Sink.fresh none) (some (Sink.fresh none))
    let cut := g.run p (Sink.fresh none) (some (Sink.fresh (some m)))
    cut.tables = whole.tables.take m ∧
      if m < whole.tables.length then
        cut.failure = some .tablesNotWritten ∧
          EndsAtPrototypes p whole.assembly cut.assembly
      else cut = whole := by
  unfold run
  cases hbuild : ClassTable.build p with
  | error fault => simp
  | ok t =>
    simp only [Sink.writeAll_fresh, Sink.writeAll_unlimited, Bool.false_eq_true, if_false,
      decide_eq_true_eq]
    cases hbefore : (beforeTables ⟨t, g.pool.collect t⟩ (some g.tableFile) g.labels).outcome with
    | error fault => simp
    | ok u =>
      obtain ⟨front, zero, rest, hfront, hwhole, hrest⟩ := lines_splitProgram hbefore
      simp only [finish_unlimited]
      by_cases hshort : m < (dispatchTables t).length
      · rw [if_pos hshort, if_pos hshort]
        exact ⟨rfl, rfl, t, front, zero, rest, hbuild, hfront, hwhole, hrest⟩
      · rw [if_neg hshort, if_neg hshort, take_of_length_le (Nat.le_of_not_lt hshort)]
        exact ⟨(finish_unlimited ..).2, rfl⟩

theorem failure_unlimited (p : Program) :
    (g.run p (Sink.fresh none) (some (Sink.fresh none))).failure ≠ some .tablesNotWritten := by
  unfold run
  cases ClassTable.build p with
  | error fault => simp
  | ok t =>
    simp only [Sink.writeAll_unlimited, Bool.false_eq_true, if_false]
    cases (beforeTables ⟨t, g.pool.collect t⟩ (some g.tableFile) g.labels).outcome with
    | error fault => simp
    | ok u =>
      unfold finish
      simp only [Sink.writeAll_unlimited, Bool.false_eq_true, if_false]
      split
      · simp
      · simp

/-- A sink without room cuts its own text and decides about the failure, after any fault of
the program.  The assembly goes on without it, and a sink for tables without room ends it with
the prototypes. -/
theorem run_truncates (g : Generator) (p : Program) :
    (∀ n tableSink,
      let whole := g.run p (Sink.fresh none) tableSink
      let cut := g.run p (Sink.fresh (some n)) tableSink
      cut.assembly = whole.assembly.take n ∧ cut.tables = whole.tables ∧
        cut.generator = whole.generator ∧
        cut.failure = if whole.failure = none ∧ n < whole.assembly.length then
          some .assemblyNotWritten else whole.failure) ∧
    (∀ m,
      let whole := g.run p (Sink.fresh none) (some (Sink.fresh none))
      let cut := g.run p (Sink.fresh none) (some (Sink.fresh (some m)))
      cut.tables = whole.tables.take m ∧
        (cut.failure = some .tablesNotWritten ↔ m < whole.tables.length) ∧
        if m < whole.tables.length then EndsAtPrototypes p whole.assembly cut.assembly
        else cut = whole) ∧
    GenerationFailure.assemblyNotWritten.message = "writing assembly: " ++ Sink.fullMessage ∧
    GenerationFailure.tablesNotWritten.message =
      "writing dispatch tables: " ++ Sink.fullMessage := by
  refine ⟨fun n tableSink => run_limited g p tableSink n, fun m => ?_, rfl, rfl⟩
  rcases run_tables_limited g p m with ⟨htables, hrest⟩
  refine ⟨htables, ?_⟩
  by_cases hshort : m < (g.run p (Sink.fresh none) (some (Sink.fresh none))).tables.length
  · rw [if_pos hshort] at hrest ⊢
    exact ⟨iff_of_true hrest.1 hshort, hrest.2⟩
  · rw [if_neg hshort] at hrest ⊢
    refine ⟨iff_of_false ?_ hshort, hrest⟩
    rw [hrest]
    exact failure_unlimited g p

end Generator

end CoolCompiler
