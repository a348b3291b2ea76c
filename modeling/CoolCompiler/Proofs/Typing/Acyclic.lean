import CoolCompiler.Proofs.Typing.Inheritance
import CoolCompiler.Proofs.Typing.Order
import Mathlib.Data.Fintype.Card
import Mathlib.Data.List.Chain
import Mathlib.Data.Set.Finite.Basic

/-!
# Cycles and order

There is a cycle above a class exactly if its parents never come to a root.  Its chain repeats no
class, and goes up to the root unless there is a cycle.  Classes without a cycle are put in an
order, parents first.
-/

namespace CoolCompiler

open List Relation

namespace Inheritance

variable {g : Inheritance} {c : Name}

def Edge (g : Inheritance) (c p : Name) : Prop := g.parents.find? c = some p

def IsRoot (g : Inheritance) (c : Name) : Prop :=
  g.parents.find? c = none ∨ g.Edge c Name.noClass

def Proper (g : Inheritance) : Prop :=
  ∀ entry ∈ g.parents, entry.1 ≠ [] ∧ entry.1 ≠ Name.noClass ∧ entry.2 ≠ []

theorem edge_of_parent? {p : Name} (h : g.parent? c = some p) : g.Edge c p := by
  unfold parent? at h
  split at h
  · rename_i hfind
    split at h
    · cases h
    · cases h
      exact hfind
  · cases h

theorem isRoot_of_parent? (hg : g.Proper) (h : g.parent? c = none) : g.IsRoot c := by
  unfold parent? at h
  split at h
  · rename_i p hfind
    split at h
    · rename_i hreserved
      refine .inr (hreserved.resolve_left ?_ ▸ hfind)
      obtain ⟨before, after, heq, _⟩ := lookup_eq_some_iff.mp hfind
      exact (hg (c, p) (by rw [heq]; simp)).2.2
    · cases h
  · exact .inl ‹_›

theorem parent?_of_isRoot (h : g.IsRoot c) : g.parent? c = none := by
  rcases h with h | h
  · rw [parent?, h]
  · rw [parent?, show g.parents.find? c = some Name.noClass from h]
    exact if_pos (.inr rfl)

theorem exists_ancestry_iff (hg : g.Proper) :
    (∃ line, g.Ancestry c line) ↔ ∃ root, ReflTransGen g.Edge c root ∧ g.IsRoot root := by
  constructor
  · rintro ⟨line, hline⟩
    induction hline with
    | root hp => exact ⟨_, .refl, isRoot_of_parent? hg (Option.some.inj hp)⟩
    | step hp _ ih =>
      obtain ⟨root, hreach, hroot⟩ := ih
      exact ⟨root, .head (edge_of_parent? (Option.some.inj hp)) hreach, hroot⟩
  · rintro ⟨root, hreach, hroot⟩
    induction hreach using ReflTransGen.head_induction_on with
    | refl => exact ⟨_, .root (congrArg some (parent?_of_isRoot hroot))⟩
    | @head x p hedge _ ih =>
      obtain ⟨line, hline⟩ := ih
      cases hp : g.parent? x with
      | none => exact ⟨_, .root (congrArg some hp)⟩
      | some q =>
        have hq : q = p := Option.some.inj ((edge_of_parent? hp).symm.trans hedge)
        exact ⟨_, .step (congrArg some hp) (hq ▸ hline)⟩

theorem hasCycle_iff (hg : g.Proper) (hempty : c ≠ []) (hnone : c ≠ Name.noClass) :
    g.hasCycle c = true ↔ ¬ ∃ root, ReflTransGen g.Edge c root ∧ g.IsRoot root := by
  rw [← exists_ancestry_iff hg, ← Bool.not_eq_false, not_iff_not]
  constructor
  · exact fun h => exists_ancestry h hempty hnone
  · rintro ⟨line, hline⟩
    exact hasCycle_eq_false hline hempty hnone

theorem climb_chain (steps : Nat) (seen : List Name) (c : Name) :
    (g.climb steps seen (some c)).Nodup ∧ (∀ x ∈ g.climb steps seen (some c), x ∉ seen) ∧
      (∀ x ∈ (g.climb steps seen (some c)).head?, x = c) ∧
      IsChain g.Edge (g.climb steps seen (some c)) := by
  induction steps generalizing seen c with
  | zero => simp [climb]
  | succ steps ih =>
    unfold climb
    split
    · simp
    · rename_i hfresh
      cases hp : g.parent? c with
      | none => cases steps <;> simp [climb, hfresh]
      | some p =>
        obtain ⟨hnodup, hseen, hhead, hchain⟩ := ih (c :: seen) p
        refine ⟨nodup_cons.mpr ⟨fun h => hseen c h mem_cons_self, hnodup⟩, ?_, by simp, ?_⟩
        · exact forall_mem_cons.mpr ⟨hfresh, fun x hx h => hseen x hx (mem_cons_of_mem c h)⟩
        · refine isChain_cons.mpr ⟨fun x hx => ?_, hchain⟩
          rw [hhead x hx]
          exact edge_of_parent? hp

theorem getLast?_ancestry (hg : g.Proper) {line : List Name} (h : g.Ancestry c line) :
    ∃ root, line.getLast? = some root ∧ g.IsRoot root := by
  induction h with
  | root hp => exact ⟨_, rfl, isRoot_of_parent? hg (Option.some.inj hp)⟩
  | step hp hline ih =>
    obtain ⟨root, hlast, hroot⟩ := ih
    exact ⟨root, by rw [getLast?_cons, hlast]; rfl, hroot⟩

end Inheritance

namespace Typing

variable {classes : List Class}

def ParentIn (classes : List Class) (c p : Class) : Prop := p ∈ classes ∧ p.name = c.parentName

theorem parentIn_of_parentAmong {c p : Class} (h : parentAmong classes c = some p) :
    ParentIn classes c p :=
  ⟨mem_of_parentAmong h, beq_iff_eq.mp
    (find?_some (p := fun d : Class => d.name == c.parentName) h)⟩

theorem parentAmong_of_parentIn (hdistinct : (classes.map Class.name).Nodup) {c p : Class}
    (h : ParentIn classes c p) : parentAmong classes c = some p := by
  cases hq : parentAmong classes c with
  | none => exact absurd h.2 (by simpa using find?_eq_none.mp hq p h.1)
  | some q =>
    obtain ⟨hmem, hname⟩ := parentIn_of_parentAmong hq
    rw [inj_on_of_nodup_map hdistinct hmem h.1 (hname.trans h.2.symm)]

/-- Among finitely many classes, parents can only be followed forever in a cycle. -/
theorem exists_classLine (hacyclic : ∀ c, ¬ TransGen (ParentIn classes) c c) {c : Class}
    (hc : c ∈ classes) : ∃ line, ClassLine classes c line := by
  have hfinite : Finite {d // d ∈ classes} := (finite_toSet classes).to_subtype
  let above (p d : {d // d ∈ classes}) : Prop := TransGen (ParentIn classes) d.1 p.1
  have htrans : IsTrans _ above := ⟨fun _ _ _ hab hbc => hbc.trans hab⟩
  have hirrefl : Std.Irrefl above := ⟨fun d => hacyclic d.1⟩
  have hwf : WellFounded above := Finite.wellFounded_of_trans_of_irrefl above
  refine hwf.induction (C := fun d => ∃ line, ClassLine classes d.1 line) ⟨c, hc⟩ ?_
  intro d ih
  cases hp : parentAmong classes d.1 with
  | none => exact ⟨_, .root (congrArg some hp)⟩
  | some p =>
    obtain ⟨line, hline⟩ := ih ⟨p, mem_of_parentAmong hp⟩ (.single (parentIn_of_parentAmong hp))
    exact ⟨_, .step (congrArg some hp) hline⟩

theorem Ordered.sublist {order : List Class} (h : Ordered classes order) {c p : Class}
    (hc : c ∈ order) (hp : parentAmong classes c = some p) : [p, c] <+ order := by
  induction h with
  | nil => cases hc
  | @snoc order d before mem fresh parent ih =>
    rcases mem_append.mp hc with hc | hc
    · exact (ih hc).trans (sublist_append_left _ _)
    · obtain rfl := mem_singleton.mp hc
      exact (singleton_sublist.mpr (parent p hp)).append (Sublist.refl [c])

/-- Cycles are found exactly where no root is reached, chains of ancestors go up without
repetition, and classes without a cycle are put in order, parents first. -/
theorem cycles_found_and_parents_first :
    (∀ (g : Inheritance) (c : Name), g.Proper → c ≠ [] → c ≠ Name.noClass →
      (g.hasCycle c = true ↔ ¬ ∃ root, ReflTransGen g.Edge c root ∧ g.IsRoot root) ∧
      (g.ancestors c).Nodup ∧ (g.ancestors c).head? = some c ∧ IsChain g.Edge (g.ancestors c) ∧
      (g.hasCycle c = false → ∃ root, (g.ancestors c).getLast? = some root ∧ g.IsRoot root)) ∧
    ∀ classes : List Class, (classes.map Class.name).Nodup →
      (∀ c, ¬ TransGen (ParentIn classes) c c) →
      parentsFirst classes ~ classes ∧
      ∀ c ∈ classes, ∀ p, ParentIn classes c p → [p, c] <+ parentsFirst classes := by
  refine ⟨fun g c hg hempty hnone => ?_, fun classes hdistinct hacyclic => ?_⟩
  · have hstart : g.ancestors c = g.climb (g.parents.length + 1) [] (some c) := by
      rw [Inheritance.ancestors, Inheritance.start?_eq_some hempty hnone]
    rcases Inheritance.climb_chain (g := g) (g.parents.length + 1) [] c with
      ⟨hnodup, _, _, hchain⟩
    refine ⟨Inheritance.hasCycle_iff hg hempty hnone, hstart ▸ hnodup, ?_, hstart ▸ hchain, ?_⟩
    · rw [hstart, Inheritance.climb, if_neg not_mem_nil]
      rfl
    · intro hcycle
      obtain ⟨line, hline⟩ := Inheritance.exists_ancestry hcycle hempty hnone
      rw [Inheritance.ancestors_eq hline hempty hnone]
      exact Inheritance.getLast?_ancestry hg hline
  · rcases parentsFirst_spec hdistinct fun c hc => exists_classLine hacyclic hc with
      ⟨hordered, hall⟩
    refine ⟨?_, fun c hc p hp => ?_⟩
    · rw [perm_ext_iff_of_nodup hordered.nodup hdistinct.of_map]
      exact fun c => ⟨hordered.subset c, hall c⟩
    · exact hordered.sublist (hall c hc) (parentAmong_of_parentIn hdistinct hp)

def tangledGraph : Inheritance :=
  ⟨[("A", "B"), ("B", "A"), ("C", "D"), ("D", Name.noClass)]⟩

def childFirst : List Class :=
  [⟨1, "C", some "D", [], "main.cl"⟩, ⟨2, "D", none, [], "main.cl"⟩]

theorem cycles_found_and_parents_first_tangled :
    (¬ ∃ root, ReflTransGen tangledGraph.Edge "A" root ∧ tangledGraph.IsRoot root) ∧
      (∃ root, (tangledGraph.ancestors "C").getLast? = some root ∧ tangledGraph.IsRoot root) ∧
      parentsFirst childFirst ~ childFirst ∧
      ∀ c ∈ childFirst, ∀ p, ParentIn childFirst c p → [p, c] <+ parentsFirst childFirst := by
  have hproper : tangledGraph.Proper := by
    unfold Inheritance.Proper
    decide
  have hstep : ∀ c ∈ childFirst, ∀ p ∈ childFirst, p.name = c.parentName →
      c.name = "C" ∧ p.name = "D" := by decide
  have hacyclic : ∀ c, ¬ TransGen (ParentIn childFirst) c c := by
    intro c hcycle
    obtain ⟨d, hfirst, hrest⟩ := TransGen.head'_iff.mp hcycle
    obtain ⟨_, _, hlast⟩ := TransGen.tail'_iff.mp hcycle
    obtain ⟨hc, hd⟩ := hstep c hlast.1 d hfirst.1 hfirst.2
    rcases hrest.cases_head with rfl | ⟨e, hnext, _⟩
    · exact absurd (hc.symm.trans hd) (by decide)
    · exact absurd ((hstep d hfirst.1 e hnext.1 hnext.2).1.symm.trans hd) (by decide)
  obtain ⟨hgraph, hclasses⟩ := cycles_found_and_parents_first
  obtain ⟨hcycle, -⟩ := hgraph tangledGraph "A" hproper (by decide) (by decide)
  obtain ⟨-, -, -, -, hroot⟩ := hgraph tangledGraph "C" hproper (by decide) (by decide)
  exact ⟨hcycle.mp (by decide), hroot (by decide), hclasses childFirst (by decide) hacyclic⟩

end Typing
end CoolCompiler
