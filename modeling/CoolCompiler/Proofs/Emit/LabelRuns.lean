import CoolCompiler.Proofs.Emit.LabelBounds

/-!
# Labels over several runs

A generator counts local labels on, so no run defines a label of another one.  The labels of an
accepted program are closed in each run.
-/

namespace CoolCompiler

open List ClassTable

theorem labelDefs_mono {ls ms : List Line} (h : ls ⊆ ms) : labelDefs ls ⊆ labelDefs ms := by
  intro x hx
  obtain ⟨l, hl, hdefines⟩ := mem_filterMap.mp hx
  exact mem_filterMap.mpr ⟨l, h hl, hdefines⟩

namespace Sink

theorem write_of_not_failed {s : Sink} {l : Line} (h : (s.write l).1.failed = false) :
    s.failed = false ∧ (s.write l).2 = [l] := by
  unfold write at h ⊢
  cases hfailed : s.failed with
  | true =>
    rw [if_pos hfailed, hfailed] at h
    cases h
  | false =>
    rw [if_neg (by simp [hfailed])] at h ⊢
    refine ⟨rfl, ?_⟩
    split at h
    · rfl
    · cases h
    · rfl

theorem arrived_subset (s : Sink) (ls : List Line) : (s.writeAll ls).2 ⊆ ls := by
  have hwrite : ∀ (s : Sink) (l : Line), (s.write l).2 ⊆ [l] := by
    intro s l
    unfold write
    split
    · exact nil_subset _
    · split
      · exact List.Subset.refl _
      · exact nil_subset _
      · exact List.Subset.refl _
  induction ls generalizing s with
  | nil => exact List.Subset.refl _
  | cons l ls ih =>
    change (s.write l).2 ++ ((s.write l).1.writeAll ls).2 ⊆ [l] ++ ls
    exact append_subset.mpr ⟨List.Subset.trans (hwrite s l) (subset_append_left _ _),
      List.Subset.trans (ih _) (subset_append_right _ _)⟩

theorem writeAll_of_not_failed {s : Sink} {ls : List Line}
    (h : (s.writeAll ls).1.failed = false) : s.failed = false ∧ (s.writeAll ls).2 = ls := by
  induction ls generalizing s with
  | nil => exact ⟨h, rfl⟩
  | cons l ls ih =>
    have hrest : ((s.write l).1.writeAll ls).1.failed = false := h
    obtain ⟨hwrite, harrived⟩ := ih hrest
    obtain ⟨hs, hline⟩ := write_of_not_failed hwrite
    refine ⟨hs, ?_⟩
    change (s.write l).2 ++ ((s.write l).1.writeAll ls).2 = l :: ls
    rw [hline, harrived]
    rfl

end Sink

namespace Generator

open Emit

variable {g : Generator} {sink : Sink} {r : Generated}

variable {tableSink : Option Sink} {e : Emitted Nat Unit} {q : Program}

theorem finish_account {tables : List Line} {opening : Nat} {notes : List EmitNote}
    (hr : g.finish sink tables opening notes e = r) :
    r.generator = { g with labels := e.state } ∧ r.tables = tables ∧
      r.assembly = (sink.writeAll e.lines).2 ∧
      ∀ fault, r.failure = some (.fault fault) → e.outcome = .error fault := by
  unfold finish at hr
  simp only at hr
  split at hr
  · rename_i fault houtcome
    subst hr
    refine ⟨rfl, rfl, rfl, fun fault' hfault => ?_⟩
    cases hfault
    exact houtcome
  · split at hr
    · subst hr
      exact ⟨rfl, rfl, rfl, fun _ hfault => by cases hfault⟩
    · subst hr
      exact ⟨rfl, rfl, rfl, fun _ hfault => by cases hfault⟩

theorem finish_of_success {tables : List Line} {opening : Nat} {notes : List EmitNote}
    (hr : g.finish sink tables opening notes e = r) (hok : r.failure = none) :
    e.outcome = .ok () ∧ r.assembly = e.lines ∧ r.tables = tables := by
  unfold finish at hr
  simp only at hr
  split at hr
  · subst hr
    cases hok
  · rename_i houtcome
    split at hr
    · subst hr
      cases hok
    · rename_i hwritten
      subst hr
      exact ⟨houtcome, (Sink.writeAll_of_not_failed (by simpa using hwritten)).2, rfl⟩

def load (g : Generator) (t : ClassTable) : Generator :=
  { g with table := some t, pool := g.pool.collect t }

/-- How a run goes: there is no class table; the dispatch tables are in line; or they are in a file,
and the data before them cannot be written, there is no room for them, or the rest follows. -/
inductive Course (g : Generator) (p : Program) (sink : Sink) : Option Sink → Generated → Prop where
  | rejected {tableSink : Option Sink} {fault : Fault} (hbuild : build p = .error fault) :
      Course g p sink tableSink ⟨g, [], [], 0, [], some (.fault fault)⟩
  | inline {t : ClassTable} (notes : List EmitNote) (hbuild : build p = .ok t)
      {r : Generated} (hr : (g.load t).finish sink [] 0 notes
        (inlineProgram ⟨t, g.pool.collect t⟩ g.labels) = r) : Course g p sink none r
  | broken {t : ClassTable} {ts : Sink} {fault : Fault} {opening : Nat} {notes : List EmitNote}
      (hbuild : build p = .ok t)
      (hbefore : (beforeTables ⟨t, g.pool.collect t⟩ (some g.tableFile) g.labels).outcome =
        .error fault) :
      Course g p sink (some ts) ⟨g.load t, (sink.writeAll
        (beforeTables ⟨t, g.pool.collect t⟩ (some g.tableFile) g.labels).lines).2, [], opening,
        notes, some (.fault fault)⟩
  | crowded {t : ClassTable} {ts : Sink} {opening : Nat} {notes : List EmitNote}
      (hbuild : build p = .ok t) :
      Course g p sink (some ts) ⟨g.load t, (sink.writeAll
        (beforeTables ⟨t, g.pool.collect t⟩ (some g.tableFile) g.labels).lines).2,
        (ts.writeAll (dispatchTables t)).2, opening, notes, some .tablesNotWritten⟩
  | split {t : ClassTable} {ts : Sink} {opening : Nat} {notes : List EmitNote}
      (hbuild : build p = .ok t)
      (hroom : (ts.writeAll (dispatchTables t)).1.failed = false) {r : Generated}
      (hr : (g.load t).finish sink (ts.writeAll (dispatchTables t)).2 opening notes
        (splitProgram ⟨t, g.pool.collect t⟩ g.tableFile g.labels) = r) : Course g p sink (some ts) r

theorem run_course (g : Generator) (p : Program) (sink : Sink) (tableSink : Option Sink) :
    Course g p sink tableSink (g.run p sink tableSink) := by
  unfold run
  cases hbuild : build p with
  | error fault => exact .rejected hbuild
  | ok t =>
    cases tableSink with
    | none => exact .inline _ hbuild rfl
    | some ts =>
      simp only
      cases hbefore : (beforeTables ⟨t, g.pool.collect t⟩ (some g.tableFile)
          g.labels).outcome with
      | error fault => exact .broken hbuild hbefore
      | ok u =>
        cases hroom : (ts.writeAll (dispatchTables t)).1.failed with
        | true => exact .crowded hbuild
        | false => exact .split hbuild hroom rfl

theorem run_of_success (hr : g.run q sink tableSink = r) (hok : r.failure = none) :
    ∃ t k, build q = .ok t ∧
      (Yields (inlineProgram ⟨t, g.pool.collect t⟩) g.labels (r.assembly ++ r.tables) () k ∨
        r.tables = dispatchTables t ∧
          Yields (splitProgram ⟨t, g.pool.collect t⟩ g.tableFile) g.labels r.assembly () k) := by
  have hcourse := hr ▸ run_course g q sink tableSink
  cases hcourse with
  | rejected | broken | crowded => cases hok
  | inline notes hbuild hr =>
    obtain ⟨houtcome, hassembly, htables⟩ := finish_of_success hr hok
    rw [hassembly, htables, append_nil]
    exact ⟨_, _, hbuild, .inl ⟨rfl, rfl, houtcome⟩⟩
  | split hbuild hroom hr =>
    obtain ⟨houtcome, hassembly, htables⟩ := finish_of_success hr hok
    rw [hassembly, htables, (Sink.writeAll_of_not_failed hroom).2]
    exact ⟨_, _, hbuild, .inr ⟨rfl, rfl, rfl, houtcome⟩⟩

theorem run_parts {t : ClassTable} (hbuild : build q = .ok t)
    (hr : g.run q sink tableSink = r) (hok : r.failure = none) :
    ∃ tables before after k k',
      Yields (beforeTables ⟨t, g.pool.collect t⟩ tables) g.labels before () k ∧
      Yields (afterTables ⟨t, g.pool.collect t⟩) k after () k' ∧
      before <+: r.assembly ++ r.tables ∧ after <:+: r.assembly ++ r.tables ∧
      dispatchTables t <:+: r.assembly ++ r.tables := by
  obtain ⟨t', k', hbuild', hwritten⟩ := run_of_success hr hok
  rw [hbuild] at hbuild'
  cases hbuild'
  rcases hwritten with hinline | ⟨htables, hsplit⟩
  · obtain ⟨before, _, k, _, hbefore, hrest, heq⟩ := yields_bind.mp hinline
    obtain ⟨after, hafter, rfl⟩ := yields_lines_bind.mp hrest
    refine ⟨none, before, after, k, k', hbefore, hafter, ?_⟩
    rw [heq]
    exact ⟨prefix_append _ _, ⟨before ++ dispatchTables t, [], by simp⟩,
      before, after, by rw [append_assoc]⟩
  · obtain ⟨before, _, k, after, hbefore, hafter, heq⟩ := yields_bind.mp hsplit
    refine ⟨some g.tableFile, before, after, k, k', hbefore, hafter, ?_⟩
    rw [heq, htables]
    refine ⟨?_, ⟨before, dispatchTables t, rfl⟩, (suffix_append _ _).isInfix⟩
    rw [append_assoc]
    exact prefix_append _ _

section Labels

variable {q : Program} {s : Symbols} {parents : List (Option Nat)} {t : ClassTable}
  (h : Compilable q s parents t) (hsigned : ∀ c ∈ Class.builtin ++ q, Typing.Signed s c)
  (hcapital : ∀ c ∈ q, c.name.Capital) {tableSink : Option Sink}
  (hr : g.run q sink tableSink = r) (hok : r.failure = none)
include h hr hok

theorem run_piece :
    ∃ k, Piece ⟨t, g.pool.collect t⟩ (programLabels ⟨t, g.pool.collect t⟩) g.labels
      (r.assembly ++ r.tables) k := by
  obtain ⟨t', k, hbuild, hwritten⟩ := run_of_success hr hok
  rw [(build_eq_ok_iff q t).mpr ⟨_, h.built⟩] at hbuild
  cases hbuild
  refine ⟨k, ?_⟩
  rcases hwritten with hinline | ⟨htables, hsplit⟩
  · exact Emits.inlineProgram h.mem_nodes hinline
  · rw [htables]
    exact splitProgram_piece h.mem_nodes hsplit

include hsigned hcapital

theorem run_closed : Closed (r.assembly ++ r.tables) := by
  obtain ⟨k, hpiece⟩ := run_piece h hr hok
  exact hpiece.closed (h.covers hsigned hcapital _)

theorem run_proper {x : Name} (hx : x ∈ labelDefs (r.assembly ++ r.tables)) :
    ∃ l : Label, l.Proper ∧ l.name = x := by
  obtain ⟨k, hpiece⟩ := run_piece h hr hok
  rw [hpiece.defs.mem_iff, mem_append, mem_map, mem_map] at hx
  rcases hx with ⟨l, hl, hname⟩ | ⟨i, _, rfl⟩
  · exact ⟨l, (h.covers hsigned hcapital _).proper l hl, hname⟩
  · exact ⟨.branch i, trivial, rfl⟩

end Labels

/-!
# One run after another
-/

theorem run_confined (hr : g.run q sink tableSink = r) :
    g.labels ≤ r.generator.labels ∧ ∀ i, localLabel i ∈ labelDefs (r.assembly ++ r.tables) →
      g.labels ≤ i ∧ i < r.generator.labels := by
  have htables : ∀ (t : ClassTable) (ts : Sink) (i : Nat),
      localLabel i ∉ labelDefs (ts.writeAll (dispatchTables t)).2 := fun t ts i hi =>
    ((Tabulates.dispatchTables t).quiet 0).2 i (labelDefs_mono (Sink.arrived_subset _ _) hi)
  have hbefore : ∀ (t : ClassTable) (i : Nat), localLabel i ∉ labelDefs (sink.writeAll
      (beforeTables ⟨t, g.pool.collect t⟩ (some g.tableFile) g.labels).lines).2 := by
    intro t i hi
    have hquiet : Quiet id (beforeTables ⟨t, g.pool.collect t⟩ (some g.tableFile)) :=
      (Tabulates.beforeTables _).quiet
    exact (hquiet g.labels).2 i (labelDefs_mono (Sink.arrived_subset _ _) hi)
  have hcourse := hr ▸ run_course g q sink tableSink
  cases hcourse with
  | rejected => exact ⟨Nat.le_refl _, by simp⟩
  | @inline t notes hbuild _ hr =>
    have hconfined : Confined id g.labels g.labels (inlineProgram ⟨t, g.pool.collect t⟩) :=
      .inlineProgram
    have hprogram := hconfined (Nat.le_refl _) g.labels (Nat.le_refl _)
    obtain ⟨hgenerator, htables', hassembly, -⟩ := finish_account hr
    rw [hgenerator, htables', hassembly, append_nil]
    exact ⟨hprogram.1, fun i hi =>
      hprogram.2 i (labelDefs_mono (Sink.arrived_subset _ _) hi)⟩
  | @broken t =>
    refine ⟨Nat.le_refl _, fun i hi => ?_⟩
    rw [append_nil] at hi
    exact absurd hi (hbefore t i)
  | @crowded t ts =>
    refine ⟨Nat.le_refl _, fun i hi => ?_⟩
    rw [labelDefs_append, mem_append] at hi
    exact absurd hi (not_or.mpr ⟨hbefore t i, htables t ts i⟩)
  | @split t ts _ _ hbuild hroom _ hr =>
    have hconfined : Confined id g.labels g.labels
        (splitProgram ⟨t, g.pool.collect t⟩ g.tableFile) := .splitProgram _
    have hprogram := hconfined (Nat.le_refl _) g.labels (Nat.le_refl _)
    obtain ⟨hgenerator, htables', hassembly, -⟩ := finish_account hr
    rw [hgenerator, htables', hassembly]
    refine ⟨hprogram.1, fun i hi => ?_⟩
    rw [labelDefs_append, mem_append] at hi
    rcases hi with hi | hi
    · exact hprogram.2 i (labelDefs_mono (Sink.arrived_subset _ _) hi)
    · exact absurd hi (htables t ts i)

end Generator

structure Job where
  program : Program
  sink : Sink
  tableSink : Option Sink

namespace Generator

open Emit

def runs : Generator → List Job → List Generated
  | _, [] => []
  | g, job :: jobs =>
    let r := g.run job.program job.sink job.tableSink
    r :: r.generator.runs jobs

variable {g : Generator} {r : Generated} {jobs : List Job} {i : Nat}

theorem le_of_mem_runs (h : r ∈ g.runs jobs)
    (hi : localLabel i ∈ labelDefs (r.assembly ++ r.tables)) : g.labels ≤ i := by
  induction jobs generalizing g with
  | nil => cases h
  | cons job jobs ih =>
    have hfirst := run_confined (r := g.run job.program job.sink job.tableSink) rfl
    rcases mem_cons.mp h with rfl | hlater
    · exact (hfirst.2 i hi).1
    · exact Nat.le_trans hfirst.1 (ih hlater)

theorem pairwise_runs (g : Generator) (jobs : List Job) :
    (g.runs jobs).Pairwise fun r r' => ∀ i,
      localLabel i ∈ labelDefs (r.assembly ++ r.tables) →
      localLabel i ∉ labelDefs (r'.assembly ++ r'.tables) := by
  induction jobs generalizing g with
  | nil => exact .nil
  | cons job jobs ih =>
    refine .cons (fun r' hr' i hi hi' => ?_) (ih _)
    have hlt := ((run_confined rfl).2 i hi).2
    have hle := le_of_mem_runs hr' hi'
    omega

theorem exists_run_of_preserved {P : Generator → Prop} (hrun : ∀ (g : Generator) (job : Job), P g →
      P (g.run job.program job.sink job.tableSink).generator) (hg : P g) {job : Job}
    (hjob : jobs[i]? = some job) (hr : (g.runs jobs)[i]? = some r) :
    ∃ g' : Generator, P g' ∧ g'.run job.program job.sink job.tableSink = r := by
  induction jobs generalizing g i with
  | nil => cases hjob
  | cons first jobs ih =>
    cases i with
    | zero =>
      cases hjob
      exact ⟨g, hg, Option.some.inj hr⟩
    | succ i => exact ih (hrun g first hg) hjob hr

theorem exists_run {job : Job} (hjob : jobs[i]? = some job) (hr : (g.runs jobs)[i]? = some r) :
    ∃ g' : Generator, g'.run job.program job.sink job.tableSink = r := by
  rcases exists_run_of_preserved (P := fun _ => True) (fun _ _ _ => trivial) trivial hjob hr with
    ⟨g', -, hrun⟩
  exact ⟨g', hrun⟩

/-- Whatever programs a generator takes one after another, a run without a failure on an accepted
program defines no label twice and refers only to labels that it defines and to those of the
run-time library.  No two runs define the same local label. -/
theorem runs_labels_closed (g : Generator) (jobs : List Job) :
    (∀ (i : Nat) (job : Job) (r : Generated), jobs[i]? = some job → (g.runs jobs)[i]? = some r →
      r.failure = none →
      ∀ (sources : List (Text × Text)) (o : Analysis.Outcome), Analysis.fresh.run
        (sources.flatMap fun source => (Grammar.parse source.1 source.2).classes) = .ok o →
        o.analysis.diagnostics = [] → job.program = o.program →
        (labelDefs (r.assembly ++ r.tables)).Nodup ∧
        ∀ x ∈ labelRefs (r.assembly ++ r.tables),
          (labelDefs (r.assembly ++ r.tables)).count x = 1 ∨ Runtime x) ∧
    (g.runs jobs).Pairwise fun r r' => ∀ i,
      localLabel i ∈ labelDefs (r.assembly ++ r.tables) →
      localLabel i ∉ labelDefs (r'.assembly ++ r'.tables) := by
  refine ⟨?_, pairwise_runs g jobs⟩
  intro i job r hjob hr hok sources o haccepted hclean hprogram
  rcases Analysis.exists_compilable haccepted hclean with
    ⟨parents, t, hcompilable, -, -, hsigned, hcapital⟩
  rcases exists_run hjob hr with ⟨g', hrun⟩
  rw [hprogram] at hrun
  have hclosed := run_closed hcompilable hsigned hcapital hrun hok
  exact ⟨hclosed.once, hclosed.found⟩

def labelledSources : List (Text × Text) :=
  [("main.cl", "class Label inherits IO { label0 : Int; init() : Int { label0 }; };
class Main inherits Label { main() : Object { while init() < 1 loop self.copy() pool }; };")]

def twice (p : Program) : List Job :=
  [⟨p, Sink.fresh none, none⟩, ⟨p, Sink.fresh none, some (Sink.fresh none)⟩]

theorem runs_labels_closed_twice : ∃ o r r',
    Analysis.fresh.run (labelledSources.flatMap fun source =>
      (Grammar.parse source.1 source.2).classes) = .ok o ∧
    o.analysis.diagnostics = [] ∧ (fresh []).runs (twice o.program) = [r, r'] ∧
    r'.failure = none ∧ (labelDefs (r'.assembly ++ r'.tables)).Nodup ∧
    localLabel 0 ∈ labelDefs r.assembly ∧
    localLabel 0 ∉ labelDefs (r'.assembly ++ r'.tables) := by
  have hcheck : (acceptedBy labelledSources fun o =>
        ((fresh []).runs (twice o.program)).head?.all (fun r =>
          decide (localLabel 0 ∈ labelDefs r.assembly)) &&
        ((fresh []).runs (twice o.program)).getLast?.all fun r =>
          r.failure.isNone) = true := by
    decide +kernel
  have hruns : ∀ p, ∃ r r', (fresh []).runs (twice p) = [r, r'] := fun p => ⟨_, _, rfl⟩
  simp only [acceptedBy_iff, Bool.and_eq_true] at hcheck
  rcases hcheck with ⟨o, hrun, hclean, hfirst, hlast⟩
  have hclosed := runs_labels_closed (fresh []) (twice o.program)
  rcases hruns o.program with ⟨r, r', heq⟩
  simp only [heq, head?_cons, getLast?_cons_cons, getLast?_singleton,
    Option.all_some, Option.isNone_iff_eq_none, decide_eq_true_eq] at hfirst hlast hclosed
  have hsecond := hclosed.1 1 _ r' rfl rfl hlast labelledSources o hrun hclean rfl
  have happart := rel_of_pairwise_cons hclosed.2 mem_cons_self
  have hdefined : localLabel 0 ∈ labelDefs (r.assembly ++ r.tables) := by
    rw [labelDefs_append]
    exact mem_append_left _ hfirst
  exact ⟨o, r, r', hrun, hclean, heq, hlast, hsecond.1, hfirst, happart 0 hdefined⟩

end Generator

end CoolCompiler
