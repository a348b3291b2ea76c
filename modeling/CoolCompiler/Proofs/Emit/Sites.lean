import CoolCompiler.Proofs.Emit.Initialisation

/-!
# Expressions in a listing

A run that does not fail has written every routine, so the code of every expression of a method or
an initializer stands in its listing.
-/

namespace CoolCompiler

open List

namespace Emit

/-- The code of an expression, written in a routine of a class with some variables open, stands
in a listing. -/
def CodeWithin (sc : Scene) (n : ClassNode) (e : Expr) (ls : List Line) : Prop :=
  ∃ base vs s inside s', Opened n base vs s.env ∧ Yields (expr sc e) s inside () s' ∧
    inside <:+: ls

variable {sc : Scene} {n : ClassNode}

theorem Leads.codeWithin {body e : Expr} {front routine : Emit Session Unit}
    (hleads : Leads sc body front routine) {base : List (Dictionary Indexed)} {s s' : Session}
    (hfront : ∀ ls s0, Yields front s ls () s0 → Opened n base [] s0.env) {ls ls' : List Line}
    (h : Yields routine s ls () s') (hwithin : ls <:+: ls') {path : List Nat}
    (he : body.at? path = some e) (hwritten : e.isOmitted = false) : CodeWithin sc n e ls' := by
  obtain ⟨ls0, s0, ls1, s1, s2, hs0, hvisits, hyields, hinside⟩ := hleads.visited h he hwritten
  exact ⟨base, _, s1, ls1, s2, hvisits.opened [] (hfront ls0 s0 hs0), hyields,
    hinside.trans hwithin⟩

theorem methodRoutines_infix {m : Method} {ms : List Method} (hm : m ∈ ms) {k k' : Nat}
    {ls : List Line} {u : Unit} (h : Yields (methodRoutines sc n ms) k ls u k') :
    ∃ k1 part s', Yields (methodBody sc n m) ⟨k1, Environment.fresh n⟩ part () s' ∧
      part <:+: ls := by
  induction ms generalizing k ls with
  | nil => cases hm
  | cons first ms ih =>
    rw [methodRoutines] at h
    obtain ⟨part, _, k1, rest, hpart, hrest, rfl⟩ := yields_bind.mp h
    rcases mem_cons.mp hm with rfl | hm
    · exact ⟨k, part, _, ⟨hpart.lines, rfl, hpart.outcome⟩, (prefix_append _ _).isInfix⟩
    · obtain ⟨k2, part', s', hpart', hlisted⟩ := ih hm hrest
      exact ⟨k2, part', s', hpart', hlisted.trans (suffix_append _ _).isInfix⟩

section Program

variable {q : Program} {s : Symbols} {parents : List (Option Nat)} {t : ClassTable} {pool : Pool}
  (h : Compilable q s parents t) (hn : n ∈ t.nodes) (hq : n.decl ∈ q) {ls : List Line}
  {e : Expr} {path : List Nat} (hwritten : e.isOmitted = false)
include h hn hq hwritten

theorem init_codeWithin {routines : List Line} {k k' : Nat}
    (hroutines : Yields (initRoutines ⟨t, pool⟩) k routines () k') (hwithin : routines <:+: ls)
    {a : Attribute} (ha : a ∈ n.decl.attributes) (he : a.init.at? path = some e) :
    CodeWithin ⟨t, pool⟩ n e ls := by
  obtain ⟨parent, j, slot, hparent, hslot, -, hinit⟩ := h.exists_stored hn hq ha
  rcases forClasses_infix (h.built.mem_preorder_iff.mpr hn) hroutines with
    ⟨k1, k2, part, hpart, hlisted⟩
  rcases yields_initRoutine hpart with ⟨hnone, -⟩ | ⟨_, body, _, hparent', hbody, rfl⟩
  · exact absurd (hparent.symm.trans hnone) nofun
  · cases hparent.symm.trans hparent'
    exact (initBody_leads _ hslot hinit (Expr.not_omitted_of_at? he hwritten)).codeWithin
      (fun _ _ hs0 => initFront_opened hs0) hbody
      ((suffix_cons _ _).isInfix.trans (hlisted.trans hwithin)) he hwritten

theorem method_codeWithin {routines : List Line} {k k' : Nat}
    (hroutines : Yields (allMethods ⟨t, pool⟩) k routines () k') (hwithin : routines <:+: ls)
    {m : Method} (hm : m ∈ n.decl.methods) (he : m.body.at? path = some e) :
    CodeWithin ⟨t, pool⟩ n e ls := by
  have huser : n.isBasic = false := h.collected.graph.notBasic hq
  have hmem : n ∈ t.preorder.filter fun n => !n.isBasic := by
    rw [mem_filter, h.built.mem_preorder_iff, huser]
    exact ⟨hn, rfl⟩
  obtain ⟨k1, k2, part, hpart, hlisted⟩ := forClasses_infix hmem hroutines
  obtain ⟨k3, body, s', hbody, hinside⟩ := methodRoutines_infix hm hpart
  exact (methodBody_leads _ n m).codeWithin (fun _ _ hs0 => hs0.of_ends (methodFront_opened n m k3))
    hbody (hinside.trans (hlisted.trans hwithin)) he hwritten

end Program

end Emit

theorem Generator.run_codeWithin {q : Program} {s : Symbols} {parents : List (Option Nat)}
    {t : ClassTable} (h : Emit.Compilable q s parents t) {g : Generator} {sink : Sink}
    {tableSink : Option Sink} {r : Generated} (hr : g.run q sink tableSink = r)
    (hok : r.failure = none) {n : ClassNode} (hn : n ∈ t.nodes) (hq : n.decl ∈ q)
    {feature : Feature} (hfeature : feature ∈ n.decl.features) {path : List Nat} {e : Expr}
    (he : feature.expr.at? path = some e) (hwritten : e.isOmitted = false) :
    Emit.CodeWithin ⟨t, g.pool.collect t⟩ n e (r.assembly ++ r.tables) := by
  rcases run_parts ((ClassTable.build_eq_ok_iff q t).mpr ⟨_, h.built⟩) hr hok with
    ⟨tables, before, after, k, k', -, hafter, -, hwithin, -⟩
  obtain ⟨data, _, _, _, _, hroutines, rfl⟩ := Emit.yields_bind.mp hafter
  obtain ⟨inits, _, _, methods, hinits, hmethods, rfl⟩ := Emit.yields_bind.mp hroutines
  cases feature with
  | attr a =>
    have ha : a ∈ n.decl.attributes := mem_filterMap.mpr ⟨_, hfeature, rfl⟩
    exact Emit.init_codeWithin h hn hq hwritten hinits
      (List.IsInfix.trans ⟨data, methods, by rw [append_assoc]⟩ hwithin) ha he
  | method m =>
    have hm : m ∈ n.decl.methods := mem_filterMap.mpr ⟨_, hfeature, rfl⟩
    exact Emit.method_codeWithin h hn hq hwritten hmethods
      (List.IsInfix.trans ⟨data ++ inits, [], by simp⟩ hwithin) hm he

end CoolCompiler
