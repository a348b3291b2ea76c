import CoolCompiler.Typing.Features
import CoolCompiler.Proofs.Climb

/-!
# Parents first

Features are collected in an order that takes every class once, after its parent, if no parents come
round.
-/

namespace CoolCompiler.Typing

open List

def parentAmong (classes : List Class) (c : Class) : Option Class :=
  classes.find? (fun p => p.name == c.parentName)

abbrev ClassLine (classes : List Class) : Class → List Class → Prop :=
  Climb (fun c => some (parentAmong classes c))

inductive Ordered (classes : List Class) : List Class → Prop where
  | nil : Ordered classes []
  | snoc {order : List Class} {c : Class} (before : Ordered classes order) (mem : c ∈ classes)
      (fresh : c ∉ order) (parent : ∀ p, parentAmong classes c = some p → p ∈ order) :
      Ordered classes (order ++ [c])

namespace Ordered

variable {classes order : List Class}

theorem subset (h : Ordered classes order) : ∀ c ∈ order, c ∈ classes := by
  induction h with
  | nil => simp
  | snoc before mem fresh parent ih =>
    intro c hc
    rcases mem_append.mp hc with hc | hc
    · exact ih c hc
    · rw [mem_singleton.mp hc]
      exact mem

theorem nodup (h : Ordered classes order) : order.Nodup := by
  induction h with
  | nil => exact nodup_nil
  | snoc before mem fresh parent ih =>
    rw [nodup_append]
    refine ⟨ih, nodup_singleton _, ?_⟩
    intro a ha b hb hab
    rw [mem_singleton.mp hb] at hab
    exact fresh (hab ▸ ha)

end Ordered

theorem mem_of_parentAmong {classes : List Class} {c p : Class}
    (h : parentAmong classes c = some p) : p ∈ classes := mem_of_find?_eq_some h

theorem ClassLine.subset {classes : List Class} {c : Class} {line : List Class} (hc : c ∈ classes)
    (h : ClassLine classes c line) : line ⊆ classes := by
  induction h with
  | root _ => simpa using hc
  | step hp _ ih =>
    exact cons_subset.mpr ⟨hc, ih (mem_of_parentAmong (Option.some.inj hp))⟩

section Visits

variable {classes : List Class}

/-- Visiting a class adds it after what is missing of its line.  Names visited before belong to
classes in the order; others are descendants that wait for this visit. -/
theorem visit_spec (hdistinct : ∀ c ∈ classes, ∀ d ∈ classes, c.name = d.name → c = d)
    {c : Class} {line : List Class} (hline : ClassLine classes c line) (hc : c ∈ classes)
    {steps : Nat} (hsteps : line.length ≤ steps) {visited : List Name} {order : List Class}
    (hordered : Ordered classes order) (hvisited : ∀ d ∈ order, d.name ∈ visited)
    (hwaiting : ∀ d ∈ line, d.name ∈ visited → d ∈ order) :
    ∃ extra, (visit classes steps (visited, order) c).2 = order ++ extra ∧
      Ordered classes (order ++ extra) ∧ c ∈ order ++ extra ∧ extra ⊆ line ∧
      ∀ x, x ∈ (visit classes steps (visited, order) c).1 ↔
        x ∈ visited ∨ ∃ d ∈ extra, d.name = x := by
  induction hline generalizing steps visited with
  | @root c hroot =>
    cases steps with
    | zero => simp at hsteps
    | succ steps =>
      by_cases hmem : c.name ∈ visited
      · have hin := hwaiting c mem_cons_self hmem
        refine ⟨[], ?_, ?_, ?_, ?_, ?_⟩ <;> simp [visit, hmem, hordered, hin]
      · have hnone : classes.find? (fun p => p.name == c.parentName) = none :=
          Option.some.inj hroot
        have hfresh : c ∉ order := fun h => hmem (hvisited c h)
        refine ⟨[c], ?_, ?_, ?_, ?_, ?_⟩
        · simp [visit, hmem, hnone]
        · refine .snoc hordered hc hfresh ?_
          intro p hp
          rw [show parentAmong classes c = none from Option.some.inj hroot] at hp
          cases hp
        · simp
        · simp
        · intro x
          simp [visit, hmem, hnone, or_comm, eq_comm]
  | @step c parent line hp hline ih =>
    cases steps with
    | zero => simp at hsteps
    | succ steps =>
      by_cases hmem : c.name ∈ visited
      · have hin := hwaiting c mem_cons_self hmem
        refine ⟨[], ?_, ?_, ?_, ?_, ?_⟩ <;> simp [visit, hmem, hordered, hin]
      · have hfind : classes.find? (fun p => p.name == c.parentName) = some parent :=
          Option.some.inj hp
        have hparent : parent ∈ classes := mem_of_find?_eq_some hfind
        have hnotline : c ∉ line := (nodup_cons.mp (Climb.step hp hline).nodup).1
        have hfresh : c ∉ order := fun h => hmem (hvisited c h)
        have hsteps' : line.length ≤ steps := by simpa using hsteps
        have hvisited' : ∀ d ∈ order, d.name ∈ c.name :: visited := fun d hd =>
          mem_cons_of_mem _ (hvisited d hd)
        -- The class waits for its parent, which is not below it.
        have hwaiting' : ∀ d ∈ line, d.name ∈ c.name :: visited → d ∈ order := by
          intro d hd hname
          rcases mem_cons.mp hname with hname | hname
          · have hdc := hdistinct d (ClassLine.subset hparent hline hd) c hc hname
            exact absurd (hdc ▸ hd) hnotline
          · exact hwaiting d (mem_cons_of_mem c hd) hname
        rcases ih hparent hsteps' hvisited' hwaiting' with
          ⟨extra, horder, hordered', hin, hsub, hnames⟩
        refine ⟨extra ++ [c], ?_, ?_, ?_, ?_, ?_⟩
        · simp [visit, hmem, hfind, horder]
        · rw [← append_assoc]
          refine .snoc hordered' hc ?_ ?_
          · rw [mem_append]
            rintro (h | h)
            · exact hfresh h
            · exact hnotline (hsub h)
          · intro p hp'
            rw [show parentAmong classes c = some parent from hfind] at hp'
            cases hp'
            exact hin
        · simp
        · intro d hd
          rcases mem_append.mp hd with hd | hd
          · exact mem_cons_of_mem c (hsub hd)
          · rw [mem_singleton.mp hd]
            exact mem_cons_self
        · intro x
          have hx := hnames x
          simp only [visit, hmem, if_false, hfind]
          rw [hx, mem_cons]
          constructor
          · rintro ((rfl | h) | ⟨d, hd, rfl⟩)
            · exact .inr ⟨c, by simp, rfl⟩
            · exact .inl h
            · exact .inr ⟨d, by simp [hd], rfl⟩
          · rintro (h | ⟨d, hd, rfl⟩)
            · exact .inl (.inr h)
            · rcases mem_append.mp hd with hd | hd
              · exact .inr ⟨d, hd, rfl⟩
              · rw [mem_singleton.mp hd]
                exact .inl (.inl rfl)

theorem foldl_visit_spec (hdistinct : ∀ c ∈ classes, ∀ d ∈ classes, c.name = d.name → c = d)
    {steps : Nat} (hlines : ∀ c ∈ classes, ∃ line, ClassLine classes c line ∧ line.length ≤ steps)
    {cs : List Class} (hcs : cs ⊆ classes) {visited : List Name} {order : List Class}
    (hordered : Ordered classes order) (hvisited : ∀ x, x ∈ visited ↔ ∃ d ∈ order, d.name = x) :
    Ordered classes (cs.foldl (visit classes steps) (visited, order)).2 ∧
      ∀ c, c ∈ order ∨ c ∈ cs → c ∈ (cs.foldl (visit classes steps) (visited, order)).2 := by
  induction cs generalizing visited order with
  | nil => exact ⟨hordered, by simp⟩
  | cons c cs ih =>
    have hc := hcs mem_cons_self
    obtain ⟨line, hline, hsteps⟩ := hlines c hc
    have hwaiting : ∀ d ∈ line, d.name ∈ visited → d ∈ order := by
      intro d hd hname
      obtain ⟨e, he, hname⟩ := (hvisited d.name).mp hname
      have hed := hdistinct e (hordered.subset e he) d (ClassLine.subset hc hline hd) hname
      exact hed ▸ he
    rcases visit_spec hdistinct hline hc hsteps hordered
      (fun d hd => (hvisited d.name).mpr ⟨d, hd, rfl⟩) hwaiting with
      ⟨extra, horder, hordered', hin, _, hnames⟩
    have hvisited' : ∀ x, x ∈ (visit classes steps (visited, order) c).1 ↔
        ∃ d ∈ order ++ extra, d.name = x := by
      intro x
      rw [hnames, hvisited]
      constructor
      · rintro (⟨d, hd, hx⟩ | ⟨d, hd, hx⟩)
        · exact ⟨d, mem_append_left _ hd, hx⟩
        · exact ⟨d, mem_append_right _ hd, hx⟩
      · rintro ⟨d, hd, hx⟩
        rcases mem_append.mp hd with hd | hd
        · exact .inl ⟨d, hd, hx⟩
        · exact .inr ⟨d, hd, hx⟩
    have hstep : visit classes steps (visited, order) c =
        ((visit classes steps (visited, order) c).1, order ++ extra) := by
      rw [← horder]
    rw [foldl_cons, hstep]
    have hrest := ih (cons_subset.mp hcs).2 hordered' hvisited'
    refine ⟨hrest.1, ?_⟩
    rintro d (hd | hd)
    · exact hrest.2 d (.inl (mem_append_left _ hd))
    · rcases mem_cons.mp hd with rfl | hd
      · exact hrest.2 d (.inl hin)
      · exact hrest.2 d (.inr hd)

theorem parentsFirst_spec (hdistinct : (classes.map Class.name).Nodup)
    (hlines : ∀ c ∈ classes, ∃ line, ClassLine classes c line) :
    Ordered classes (parentsFirst classes) ∧ ∀ c ∈ classes, c ∈ parentsFirst classes := by
  have hinj : ∀ c ∈ classes, ∀ d ∈ classes, c.name = d.name → c = d :=
    fun c hc d hd h => inj_on_of_nodup_map hdistinct hc hd h
  have hbounded : ∀ c ∈ classes, ∃ line, ClassLine classes c line ∧
      line.length ≤ classes.length + 1 := by
    intro c hc
    obtain ⟨line, hline⟩ := hlines c hc
    have hle := (hline.nodup.subperm (ClassLine.subset hc hline)).length_le
    exact ⟨line, hline, by omega⟩
  have hnone : ∀ x, x ∈ ([] : List Name) ↔ ∃ d ∈ ([] : List Class), d.name = x := by simp
  have hspec := foldl_visit_spec hinj hbounded (List.Subset.refl classes) .nil hnone
  exact ⟨hspec.1, fun c hc => hspec.2 c (.inr hc)⟩

end Visits

end CoolCompiler.Typing
