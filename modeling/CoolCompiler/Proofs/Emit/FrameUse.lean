import CoolCompiler.Proofs.Emit.Displacements
import CoolCompiler.Proofs.Emit.Sites
import CoolCompiler.Proofs.Machine.Convention

/-!
# The slots that code uses

A routine reserves the temporary slots that are counted for it.  Its code stores to every slot that
it adds to those in use and reaches no slot beyond them, as the displacements in it show.
-/

namespace CoolCompiler

open List Environment Instr

def Operand.frameOffset? : Operand → Option Int
  | .indexed x => if x.base = .iy then some x.offset else none
  | _ => none

def Instr.frameOffsets : Instr → List Int
  | .ld dst src => dst.frameOffset?.toList ++ src.frameOffset?.toList
  | _ => []

def Line.frameOffsets : Line → List Int
  | .instr i => i.frameOffsets
  | _ => []

namespace Emit

def frameOffsets (ls : List Line) : List Int := ls.flatMap Line.frameOffsets

theorem frameOffsets_append (ls ls' : List Line) :
    frameOffsets (ls ++ ls') = frameOffsets ls ++ frameOffsets ls' := flatMap_append ..

theorem frameOffsets_of_isFixed {i : Instr} (h : i.isFixed = true) : i.frameOffsets = [] := by
  have hoperand : ∀ o : Operand, o.isFixed = true → o.frameOffset? = none := by
    intro o ho
    cases o <;> simp_all [Operand.isFixed, Operand.frameOffset?]
  cases i <;> simp_all [isFixed, Instr.frameOffsets]

/-- Apart from other places in the frame, code uses the slots below one number only, and from
another number on all of them. -/
structure UsesSlots (other : Int → Prop) (low high : Int) (ls : List Line) : Prop where
  within : ∀ d ∈ frameOffsets ls, other d ∨ 0 ≤ d ∧ d < high * 2
  used : ∀ d, low * 2 ≤ d → d < high * 2 → d ∈ frameOffsets ls

namespace UsesSlots

variable {other : Int → Prop} {low middle high : Int} {ls ls' : List Line}

theorem quiet (h : frameOffsets ls = []) : UsesSlots other low low ls where
  within d hd := by
    rw [h] at hd
    cases hd
  used d hlow hhigh := absurd hlow (Int.not_le.mpr hhigh)

theorem append (h : UsesSlots other low middle ls) (h' : UsesSlots other middle high ls')
    (hle : middle ≤ high) : UsesSlots other low high (ls ++ ls') where
  within d hd := by
    rw [frameOffsets_append, mem_append] at hd
    rcases hd with hd | hd
    · exact (h.within d hd).imp_right fun hslot => ⟨hslot.1, by omega⟩
    · exact h'.within d hd
  used d hlow hhigh := by
    rw [frameOffsets_append, mem_append]
    by_cases hmiddle : d < middle * 2
    · exact .inl (h.used d hlow hmiddle)
    · exact .inr (h'.used d (by omega) hhigh)

end UsesSlots

def PlaceWithin (other : Int → Prop) (peak : Int) (place : Indexed) : Prop :=
  place.base = .iy → 0 ≤ place.offset ∧ place.offset ≤ 126 ∧
    (other place.offset ∧ other (place.offset + 1) ∨ place.offset + 2 ≤ peak * 2)

namespace PlaceWithin

variable {other : Int → Prop} {peak peak' : Int} {place : Indexed} {ls : List Line}

theorem mono (h : PlaceWithin other peak place) (hle : peak ≤ peak') :
    PlaceWithin other peak' place := by
  intro hbase
  rcases h hbase with ⟨hlow, hhigh, hother | hslot⟩
  · exact ⟨hlow, hhigh, .inl hother⟩
  · exact ⟨hlow, hhigh, .inr (by omega)⟩

theorem usesSlots (h : PlaceWithin other peak place)
    (hls : ∀ d ∈ frameOffsets ls, place.base = .iy ∧
      (d = place.offset ∨ d = place.next.offset)) : UsesSlots other peak peak ls where
  within d hd := by
    obtain ⟨hbase, hd⟩ := hls d hd
    obtain ⟨hlow, hhigh, hplace⟩ := h hbase
    have hnext : place.next.offset = place.offset + 1 := wrapOffset_of_small (by omega) (by omega)
    rw [hnext] at hd
    rcases hplace with ⟨hfirst, hsecond⟩ | hslot
    · rcases hd with rfl | rfl
      · exact .inl hfirst
      · exact .inl hsecond
    · exact .inr (by omega)
  used d hlow hhigh := absurd hlow (Int.not_le.mpr hhigh)

end PlaceWithin

variable {env : Environment} {place : Indexed} {ls : List Line}

theorem mem_frameOffsets_word {p : Pair} {d : Int} {is : List Instr}
    (his : is = storeWord place p ∨ is = loadWord p place) :
    d ∈ frameOffsets (code is) ↔ place.base = .iy ∧ (d = place.offset ∨ d = place.next.offset) := by
  rcases his with rfl | rfl <;> by_cases hbase : place.base = .iy <;>
    simp [frameOffsets, code, storeWord, loadWord, Line.frameOffsets, Instr.frameOffsets,
      Operand.frameOffset?, Indexed.next, hbase]

/-- All variables that are not attributes are in other places of the frame or in slots that
have been in use. -/
structure InFrame (other : Int → Prop) (env : Environment) : Prop where
  temps : 0 ≤ env.temps
  temps_le_peak : env.temps ≤ env.peak
  peak_le_limit : env.peak ≤ slotLimit
  locals : ∀ scope ∈ env.scopes, ∀ x place, scope.find? x = some place →
    PlaceWithin other env.peak place

theorem InFrame.lookup {other : Int → Prop} (h : InFrame other env) {x : Name}
    (hx : env.lookup x = .ok place) : PlaceWithin other env.peak place := by
  rcases exists_of_lookup hx with ⟨scope, hscope, hfound⟩ | ⟨slot, _, rfl, _⟩
  · exact h.locals scope hscope x place hfound
  · intro hbase
    cases hbase

structure Used (other : Int → Prop) (env : Environment) (ls : List Line) (env' : Environment) :
    Prop where
  inFrame : InFrame other env'
  temps : env'.temps = env.temps
  le_peak : env.peak ≤ env'.peak
  slots : UsesSlots other env.peak env'.peak ls

theorem Used.trans {other : Int → Prop} {env1 env' : Environment} {ls' : List Line}
    (h : Used other env ls env1) (h' : Used other env1 ls' env') :
    Used other env (ls ++ ls') env' where
  inFrame := h'.inFrame
  temps := h'.temps.trans h.temps
  le_peak := Int.le_trans h.le_peak h'.le_peak
  slots := h.slots.append h'.slots h'.le_peak

def Uses {α : Type} (other : Int → Prop) (x : Emit Session α) : Prop :=
  ∀ ⦃s ls a s'⦄, Yields x s ls a s' → InFrame other s.env → Used other s.env ls s'.env

namespace Uses

variable {α β : Type} {other : Int → Prop} {x : Emit Session α} {f : α → Emit Session β}

theorem bind (hx : Uses other x) (hf : ∀ a, Uses other (f a)) : Uses other (x >>= f) := by
  intro s ls b s' h henv
  obtain ⟨_, a, s1, _, hfirst, hsecond, rfl⟩ := yields_bind.mp h
  have hused := hx hfirst henv
  exact hused.trans (hf a hsecond hused.inFrame)

theorem quiet (h : ∀ ⦃s ls a s'⦄, Yields x s ls a s' → s'.env = s.env ∧ frameOffsets ls = []) :
    Uses other x := by
  intro s ls a s' hyields henv
  obtain ⟨hstate, hlines⟩ := h hyields
  rw [hstate]
  exact ⟨henv, rfl, Int.le_refl _, .quiet hlines⟩

theorem ofSilent (h : Silent x) : Uses other x := by
  refine quiet fun s ls a s' hyields => ?_
  rw [← hyields.lines, ← hyields.state, (h s).1, (h s).2]
  exact ⟨rfl, rfl⟩

theorem newLabel : Uses other newLabel := by
  refine quiet fun s ls label s' hyields => ?_
  obtain ⟨rfl, _, rfl⟩ := yields_newLabel.mp hyields
  exact ⟨rfl, rfl⟩

theorem lines {labels : List Name} {ls : List Line} (h : ∀ l ∈ ls, Fixed labels l) :
    Uses other (lines ls) := by
  refine quiet fun s ls' u s' hyields => ?_
  obtain ⟨rfl, rfl⟩ := yields_lines.mp hyields
  refine ⟨rfl, flatMap_eq_nil_iff.mpr fun l hl => ?_⟩
  have hfixed := h l hl
  cases l with
  | instr i => exact frameOffsets_of_isFixed hfixed
  | _ => rfl

/-!
# Variables
-/

theorem access (x : Name) {is : Indexed → List Instr}
    (his : ∀ place d, d ∈ frameOffsets (code (is place)) →
      place.base = .iy ∧ (d = place.offset ∨ d = place.next.offset)) :
    Uses other (Emit.placeOf x >>= fun place => Emit.instrs (is place)) := by
  intro s ls u s' hyields henv
  obtain ⟨_, place, s1, _, hplace, hcode, rfl⟩ := yields_bind.mp hyields
  obtain ⟨hlookup, rfl, rfl⟩ := yields_placeOf.mp hplace
  obtain ⟨rfl, rfl⟩ := yields_instrs.mp hcode
  exact ⟨henv, rfl, Int.le_refl _, (henv.lookup hlookup).usesSlots (his place)⟩

theorem load (x : Name) :
    Uses other (Emit.placeOf x >>= fun place => Emit.instrs (loadWord .hl place)) :=
  access x fun _ _ => (mem_frameOffsets_word (.inr rfl)).mp

theorem assign (x : Name) {value : Emit Session Unit} (h : Uses other value) :
    Uses other (Emit.placeOf x >>= fun place =>
      value >>= fun _ => Emit.instrs (storeWord place .hl)) := by
  intro s ls u s' hyields henv
  obtain ⟨_, place, s1, _, hplace, hrest, rfl⟩ := yields_bind.mp hyields
  obtain ⟨hlookup, rfl, rfl⟩ := yields_placeOf.mp hplace
  obtain ⟨_, _, s2, _, hvalue, hstore, rfl⟩ := yields_bind.mp hrest
  obtain ⟨rfl, rfl⟩ := yields_instrs.mp hstore
  have hused := h hvalue henv
  refine hused.trans ⟨hused.inFrame, rfl, Int.le_refl _, ?_⟩
  exact ((henv.lookup hlookup).mono hused.le_peak).usesSlots fun d =>
    (mem_frameOffsets_word (.inl rfl)).mp

/-- A variable in a slot of its own.  If the slot was not in use before, it is the one after all
that were. -/
theorem slot (x : Name) {body : Emit Session Unit} (h : Uses other body) :
    Uses other (do openSlot x; body; closeSlot) := by
  intro s ls u s' hyields henv
  obtain ⟨_, _, s1, _, hopen, hrest, rfl⟩ := yields_bind.mp hyields
  obtain ⟨inside, _, s2, _, hbody, hclose, rfl⟩ := yields_bind.mp hrest
  obtain ⟨hfits, rfl, rfl⟩ := yields_openSlot_opened.mp hopen
  obtain ⟨env, hleave, rfl, rfl⟩ := yields_closeSlot.mp hclose
  have htemps := henv.temps
  have hpeak := henv.temps_le_peak
  have hlimit := henv.peak_le_limit
  have hlt := (nextSlot_fits_iff htemps (Int.le_trans hpeak hlimit)).mp hfits
  have hoffset := nextSlot_offset htemps (Int.le_trans hpeak hlimit)
  unfold slotLimit at hlimit hlt
  have hnext : (nextSlot s.env).next.offset = s.env.temps * 2 + 1 := by
    rw [← hoffset]
    exact wrapOffset_of_small (by omega) (by omega)
  have hopened : InFrame other (opened s.env x) := by
    refine ⟨?_, Int.le_max_right _ _, ?_, forall_mem_cons.mpr ⟨?_, ?_⟩⟩
    · show 0 ≤ s.env.temps + 1
      omega
    · show max s.env.peak (s.env.temps + 1) ≤ slotLimit
      unfold slotLimit
      omega
    · intro y place hplace hbase
      rw [Dictionary.find?_cons] at hplace
      split at hplace <;> cases hplace
      rw [hoffset]
      refine ⟨by omega, by omega, .inr ?_⟩
      show s.env.temps * 2 + 2 ≤ max s.env.peak (s.env.temps + 1) * 2
      omega
    · intro scope hscope y place hplace
      exact (henv.locals scope hscope y place hplace).mono (Int.le_max_left _ _)
  have hstore : UsesSlots other s.env.peak (opened s.env x).peak
      (code (storeWord (nextSlot s.env) .hl)) := by
    constructor
    · intro d hd
      have hd := ((mem_frameOffsets_word (.inl rfl)).mp hd).2
      rw [hoffset, hnext] at hd
      refine .inr ?_
      show 0 ≤ d ∧ d < max s.env.peak (s.env.temps + 1) * 2
      omega
    · intro d hlow hhigh
      rw [mem_frameOffsets_word (.inl rfl), hoffset, hnext]
      have hhigh : d < max s.env.peak (s.env.temps + 1) * 2 := hhigh
      exact ⟨rfl, by omega⟩
  have hused := h hbody hopened
  obtain ⟨scope, scopes, hscopes, rfl⟩ := exists_of_leave hleave
  have hback : s2.env.temps = s.env.temps + 1 := hused.temps
  have hfirst : s.env.peak ≤ (opened s.env x).peak := Int.le_max_left _ _
  rw [append_nil]
  refine ⟨⟨?_, ?_, ?_, ?_⟩, ?_, ?_, ?_⟩
  · show 0 ≤ s2.env.temps - 1
    omega
  · show s2.env.temps - 1 ≤ s2.env.peak
    have hle := hused.inFrame.temps_le_peak
    omega
  · exact hused.inFrame.peak_le_limit
  · intro scope' hscope' y place hplace
    refine hused.inFrame.locals scope' ?_ y place hplace
    rw [hscopes]
    exact mem_cons_of_mem scope hscope'
  · show s2.env.temps - 1 = s.env.temps
    omega
  · exact Int.le_trans hfirst hused.le_peak
  · exact hstore.append hused.slots hused.le_peak

end Uses

theorem Composed.uses {sc : Scene} {file : Text} {labels : List Name} {k : Nat} {p : Prop}
    {cs : List Literal} {x : Emit Session Unit} (h : Composed sc file labels k p cs x)
    (other : Int → Prop) : Uses other x := by
  induction h with
  | silent h => exact .ofSilent h.silent
  | missing _ _ => exact .ofSilent (.fail _)
  | lines h _ => exact .lines h
  | look hx _ ih => exact (Uses.ofSilent hx.silent).bind ih
  | own _ _ ih => exact (Uses.ofSilent Looks.owner.silent).bind ih
  | label _ ih => exact Uses.newLabel.bind ih
  | seq _ _ ihx ihy => exact ihx.bind fun _ => ihy
  | weaken _ _ _ ih => exact ih
  | load x => exact .load x
  | assign x _ ih => exact .assign x ih
  | slot x _ ih => exact ih.slot x

namespace Compilable

variable {q : Program} {symbols : Symbols} {parents : List (Option Nat)} {t : ClassTable}
  {n : ClassNode}

theorem slotsOfAll_storedSlots (h : Compilable q symbols parents t) (hn : n ∈ t.nodes) :
    Expr.slotsOfAll ((storedSlots n).map fun slot => initOf n.decl slot.name) =
      initSlots n.decl := by
  apply Nat.le_antisymm
  · apply Within.slotsOfAll_le
    intro e he
    obtain ⟨slot, _, rfl⟩ := mem_map.mp he
    exact Within.slots_initOf_le n.decl slot.name
  · rw [initSlots_le_iff]
    intro a ha
    rcases h.decl_cases hn with ⟨_, hbuiltin⟩ | ⟨_, hq⟩
    · obtain ⟨mark, hinit⟩ := omitted_of_builtin n.decl hbuiltin a ha
      rw [hinit]
      exact Nat.zero_le _
    · obtain ⟨_, _, slot, _, hslot, _, hinit⟩ := h.exists_stored hn hq ha
      rw [← hinit]
      exact Expr.slots_le_of_mem (mem_map_of_mem (mem_of_getElem? hslot))

theorem casesFilled_initOf (h : Compilable q symbols parents t) (hn : n ∈ t.nodes) :
    ∀ slot ∈ storedSlots n, (initOf n.decl slot.name).CasesFilled := by
  intro slot hslot
  obtain ⟨hlayout, howner, _⟩ := mem_storedSlots_iff.mp hslot
  obtain ⟨a, ha, hname, _⟩ := h.exists_attribute_of_owner hn hlayout howner
  rw [hname, initOf_eq (h.nodup_attributes hn) ha]
  rcases h.decl_cases hn with ⟨_, hbuiltin⟩ | ⟨_, hq⟩
  · obtain ⟨mark, hinit⟩ := omitted_of_builtin n.decl hbuiltin a ha
    rw [hinit]
    exact .intro trivial (by simp [Expr.parts])
  · exact (h.filled _ hq).attributes a ha

end Compilable

/-!
# Methods
-/

def FormalBytes (temps formals : Nat) (d : Int) : Prop :=
  (temps : Int) * 2 + 6 ≤ d ∧ d < (temps : Int) * 2 + 6 + (formals : Int) * 2

theorem exists_of_find?_foldl {vs : List Variable} {d : Dictionary Indexed} {x : Name}
    (h : (vs.foldl (fun d v => d.put v.name v.place) d).find? x = some place) :
    d.find? x = some place ∨ ∃ v ∈ vs, v.place = place := by
  induction vs generalizing d with
  | nil => exact .inl h
  | cons v vs ih =>
    rcases ih h with hput | ⟨w, hw, hplace⟩
    · rw [Dictionary.find?_put] at hput
      split at hput
      · cases hput
        exact .inr ⟨v, mem_cons_self, rfl⟩
      · exact .inl hput
    · exact .inr ⟨w, mem_cons_of_mem v hw, hplace⟩

theorem inFrame_formals {n : ClassNode} {temps : Nat} {fs : List Formal}
    (hsmall : ¬ FrameTooLarge temps fs.length) :
    InFrame (FormalBytes temps fs.length) ⟨n, [formalPlaces temps fs], 0, 0⟩ where
  temps := Int.le_refl 0
  temps_le_peak := Int.le_refl 0
  peak_le_limit := (by decide : (0 : Int) ≤ slotLimit)
  locals := by
    intro scope hscope x place hplace _
    rw [mem_singleton.mp hscope] at hplace
    rcases exists_of_find?_foldl hplace with hnone | ⟨v, hv, rfl⟩
    · cases hnone
    · obtain ⟨⟨f, i⟩, hf, rfl⟩ := mem_map.mp hv
      have hi := (List.getElem?_eq_some_iff.mp (mk_mem_zipIdx_iff_getElem?.mp hf)).1
      unfold FrameTooLarge at hsmall
      have hoffset : (Variable.formal temps fs.length (f, i)).place.offset =
          temps * 2 + 6 + ((fs.length : Int) - 1 - i) * 2 :=
        formal_offset (by omega) (by omega) (by omega)
      unfold FormalBytes
      rw [hoffset]
      omega

theorem methodBody_parts {sc : Scene} {n : ClassNode} {m : Method} {labels : Nat} {s' : Session}
    {u : Unit} (h : Yields (methodBody sc n m) ⟨labels, fresh n⟩ ls u s') :
    ∃ s1 s2 body, ¬ FrameTooLarge m.body.slots m.formals.length ∧
      s1.env = ⟨n, [formalPlaces m.body.slots m.formals], 0, 0⟩ ∧
      Yields (expr sc m.body) s1 body () s2 ∧
      ls = Machine.framed (n.methodLabel m.name) m.body.slots body := by
  obtain ⟨s1, s2, s3, body, hreserve, hopen, hformals, hbody, -, rfl⟩ := yields_methodBody h
  have hopened : s1.env = (fresh n).enter := congrArg Session.env hopen.state.symm
  have hscopes : s1.env.scopes = [] :: [] := congrArg Environment.scopes hopened
  have henv := hformals.of_ends
    (bindFormals_scope m.body.slots m.formals.length m.formals 0 hscopes)
  rw [hopened] at henv
  refine ⟨s2, s3, body, ?_, henv, hbody, rfl⟩
  rcases reserve_cases n.name m.body.slots m.formals.length with ⟨-, hsmall⟩ | ⟨herror, -⟩
  · exact hsmall
  · rw [herror] at hreserve
    cases hreserve

/-!
# Frames in a listing
-/

/-- A routine in a listing takes so many words for temporaries.  Its code uses each of them and,
apart from the actuals, nothing else of the frame. -/
structure ExactFrame (label : Name) (temps formals : Nat) (body ls : List Line) : Prop where
  listed : Machine.framed label temps body <:+: ls
  reserved : ∀ value (cpu : Machine.Cpu), ∃ cpu', Machine.Runs value
      (fun p => ¬ Machine.Below cpu.sp (temps * 2 + 6) p) cpu (enterFrame temps) cpu' ∧
    cpu'.iy = cpu.sp - BitVec.ofNat 16 (temps * 2 + 4) ∧ cpu'.sp = cpu'.iy
  slots : UsesSlots (FormalBytes temps formals) 0 temps body

theorem exactFrame_of_used {label : Name} {temps formals : Nat} {env' : Environment}
    {front inside back : List Line}
    (hlisted : Machine.framed label temps (front ++ (inside ++ back)) <:+: ls) (hsmall : temps ≤ 64)
    (hused : Used (FormalBytes temps formals) env inside env') (hlow : env.peak = 0)
    (hhigh : env'.peak = temps) (hfront : frameOffsets front = [])
    (hback : frameOffsets back = []) :
    ExactFrame label temps formals (front ++ (inside ++ back)) ls where
  listed := hlisted
  reserved value cpu := by
    obtain ⟨cpu', hruns, _, hsp, hiy, _⟩ := Machine.runs_enterFrame value hsmall cpu
    exact ⟨cpu', hruns, hiy, hsp⟩
  slots := by
    have hslots := hused.slots
    rw [hlow, hhigh] at hslots
    have hle : (0 : Int) ≤ temps := Int.natCast_nonneg temps
    exact (UsesSlots.quiet hfront).append (hslots.append (.quiet hback) (Int.le_refl _)) hle

section Program

variable {q : Program} {symbols : Symbols} {parents : List (Option Nat)} {t : ClassTable}
  {pool : Pool} (h : Compilable q symbols parents t) {n : ClassNode} (hn : n ∈ t.nodes)
  {routines ls : List Line} {k k' : Nat}
include h hn

theorem exists_initFrame {p : ClassNode} (hp : t.parentOf? n = some p)
    (hroutines : Yields (initRoutines ⟨t, pool⟩) k routines () k') (hwithin : routines <:+: ls) :
    ∃ body, ExactFrame n.initLabel (initSlots n.decl) 0 body ls := by
  rcases forClasses_infix (h.built.mem_preorder_iff.mpr hn) hroutines with
    ⟨_, _, part, hpart, hlisted⟩
  rcases yields_initRoutine hpart with ⟨hnone, -⟩ | ⟨parent, lines, _, _, hbody, rfl⟩
  · exact absurd (hp.symm.trans hnone) nofun
  · obtain ⟨s1, stored, hsmall, -, hstored, rfl⟩ := initBody_parts hbody
    have hframe : Machine.framed n.initLabel (initSlots n.decl)
        (code (move .hl .ix ++ [.call parent.initLabel]) ++
          (stored ++ code (move .hl .ix))) <:+: ls := by
      refine List.IsInfix.trans ?_ (hlisted.trans hwithin)
      simp only [Machine.framed, code, map_append, append_assoc]
      exact infix_rfl
    have hroom : ¬ FrameTooLarge (initSlots n.decl) 0 := by
      unfold FrameTooLarge
      omega
    have hstart : InFrame (FormalBytes (initSlots n.decl) 0)
        (fresh n).enter := @inFrame_formals n _ [] hroom
    have hcomposed := composed_storeInits ⟨t, pool⟩ [] n.decl (storedSlots n) []
    have hused := hcomposed.uses _ hstored hstart
    have hrestored := hstored.of_ends (hcomposed.restores _ (Int.le_refl 0))
    have hpeak := hrestored.peak_eq (h.casesFilled_initOf hn)
    rw [h.slotsOfAll_storedSlots hn] at hpeak
    have hhigh : s1.env.peak = initSlots n.decl := by
      rw [hpeak]
      simp only [fresh, enter]
      omega
    exact ⟨_, exactFrame_of_used hframe hsmall hused rfl hhigh rfl rfl⟩

theorem exists_methodFrame (huser : n.isBasic = false) {m : Method} (hm : m ∈ n.decl.methods)
    (hroutines : Yields (allMethods ⟨t, pool⟩) k routines () k') (hwithin : routines <:+: ls) :
    ∃ body, ExactFrame (n.methodLabel m.name) m.body.slots m.formals.length body ls := by
  have hmem : n ∈ t.preorder.filter fun n => !n.isBasic := by
    rw [mem_filter, h.built.mem_preorder_iff, huser]
    exact ⟨hn, rfl⟩
  obtain ⟨_, _, part, hpart, hlisted⟩ := forClasses_infix hmem hroutines
  obtain ⟨_, routine, _, hroutine, hinside⟩ := methodRoutines_infix hm hpart
  obtain ⟨s1, s2, body, hroom, henv, hbody, rfl⟩ := methodBody_parts hroutine
  have hq : n.decl ∈ q := by
    rcases h.decl_cases hn with ⟨hbasic, _⟩ | ⟨_, hq⟩
    · rw [huser] at hbasic
      cases hbasic
    · exact hq
  have hused := (composed_expr _ [] m.body []).uses _ hbody (henv ▸ inFrame_formals hroom)
  have hrestored := hbody.of_ends (expr_restores ⟨t, pool⟩ m.body s1
    (henv ▸ Int.le_refl 0))
  have hpeak := hrestored.peak_eq ((h.filled _ hq).methods m hm)
  rw [henv] at hpeak
  have hhigh : s2.env.peak = m.body.slots := by
    rw [hpeak]
    simp only
    omega
  have hsmall : m.body.slots ≤ 64 := by
    unfold FrameTooLarge at hroom
    omega
  refine ⟨[] ++ (body ++ []), exactFrame_of_used ?_ hsmall hused (by rw [henv]) hhigh rfl rfl⟩
  rw [nil_append, append_nil]
  exact hinside.trans (hlisted.trans hwithin)

end Program

end Emit

open Emit in
/-- The code of an expression gives back the slots that it takes, stores to all slots that come
into use and reaches no others.  So the frame of every routine of an accepted program has exactly
the slots that its code uses. -/
theorem Analysis.temporaries_exact :
    (∀ (sc : Scene) (e : Expr) (s s' : Session) (ls : List Line), s.env.temps ≤ s.env.peak →
      Yields (expr sc e) s ls () s' → s'.env.temps = s.env.temps ∧
        s'.env.peak ≤ max s.env.peak (s.env.temps + e.slots) ∧
        (e.CasesFilled → s'.env.peak = max s.env.peak (s.env.temps + e.slots)) ∧
        ∀ other, InFrame other s.env → UsesSlots other s.env.peak s'.env.peak ls) ∧
    ∀ (sources : List (Text × Text)) (o : Analysis.Outcome) (g : Generator) (sink : Sink)
      (tableSink : Option Sink) (r : Generated),
      Analysis.fresh.run
        (sources.flatMap fun source => (Grammar.parse source.1 source.2).classes) = .ok o →
      o.analysis.diagnostics = [] → g.run o.program sink tableSink = r → r.failure = none →
      ∃ t, ClassTable.build o.program = .ok t ∧
        (∀ n ∈ t.nodes, ∀ p, t.parentOf? n = some p →
          ∃ body, ExactFrame n.initLabel (initSlots n.decl) 0 body (r.assembly ++ r.tables)) ∧
        ∀ n ∈ t.nodes, n.isBasic = false → ∀ m ∈ n.decl.methods,
          ∃ body, ExactFrame (n.methodLabel m.name) m.body.slots m.formals.length body
            (r.assembly ++ r.tables) := by
  refine ⟨fun sc e s s' ls hle hyields => ?_, ?_⟩
  · have hrestored := hyields.of_ends (expr_restores sc e s hle)
    exact ⟨hrestored.temps, hrestored.peak_le, hrestored.peak_eq,
      fun other henv => ((composed_expr sc [] e []).uses other hyields henv).slots⟩
  · intro sources o g sink tableSink r haccepted hclean hrun hok
    rcases Analysis.exists_compilable haccepted hclean with ⟨parents, t, h, hbuild, -⟩
    rcases Generator.run_parts hbuild hrun hok with
      ⟨tables, before, after, k, k', -, hafter, -, hwithin, -⟩
    rcases yields_bind.mp hafter with ⟨data, _, _, _, _, hroutines, rfl⟩
    rcases yields_bind.mp hroutines with ⟨inits, _, _, methods, hinits, hmethods, rfl⟩
    refine ⟨t, hbuild, fun n hn p hp => ?_, fun n hn huser m hm => ?_⟩
    · exact exists_initFrame h hn hp hinits
        (List.IsInfix.trans ⟨data, methods, by rw [append_assoc]⟩ hwithin)
    · exact exists_methodFrame h hn huser hm hmethods
        (List.IsInfix.trans ⟨data ++ inits, [], by simp⟩ hwithin)

/-!
# Nested variables
-/

def nestedSources : List (Text × Text) :=
  [("main.cl", "class Main { a : Int <- let x : Int <- 1 in x;
f(p : Int, q : Int) : Int { let y : Int <- p, z : Int <- q in y + z };
main() : Object { case a of v : Int => v; w : Object => w; esac }; };")]

def nestedLet (m : Mark) : Expr :=
  .letIn m [⟨1, "x", Name.bool, .bool m true⟩, ⟨1, "y", Name.bool, .object m "x"⟩] (.object m "y")

theorem casesFilled_nestedLet (m : Mark) : (nestedLet m).CasesFilled := by
  have hleaf : ∀ e : Expr, e.HasBranches → e.parts = [] → e.CasesFilled := fun e he hparts =>
    .intro he (by rw [hparts]; exact forall_mem_nil _)
  have hparts : ∀ e ∈ [Expr.bool m true, .object m "x", .object m "y"], e.CasesFilled := by
    simp only [forall_mem_cons]
    exact ⟨hleaf _ trivial rfl, hleaf _ trivial rfl, hleaf _ trivial rfl, forall_mem_nil _⟩
  exact .intro trivial hparts

open Emit in
theorem Analysis.temporaries_exact_nested :
    (∀ sc n m labels, ∃ ls s', Yields (expr sc (nestedLet m)) ⟨labels, ⟨n, [], 3, 3⟩⟩ ls () s' ∧
      s'.env.temps = 3 ∧ s'.env.peak = 5 ∧ UsesSlots (fun _ => False) 3 5 ls) ∧
    ∃ o r, Analysis.fresh.run (nestedSources.flatMap fun source =>
        (Grammar.parse source.1 source.2).classes) = .ok o ∧ o.analysis.diagnostics = [] ∧
      (Generator.fresh []).run o.program (Sink.fresh none) none = r ∧ r.failure = none ∧
      (∃ body, ExactFrame "Main_init" 1 0 body (r.assembly ++ r.tables)) ∧
      (∃ body, ExactFrame "Main.f" 2 2 body (r.assembly ++ r.tables)) ∧
      ∃ body, ExactFrame "Main.main" 1 0 body (r.assembly ++ r.tables) := by
  refine ⟨fun sc n m labels => ?_, ?_⟩
  · obtain ⟨ls, s', hyields⟩ : ∃ ls s',
        Yields (expr sc (nestedLet m)) ⟨labels, ⟨n, [], 3, 3⟩⟩ ls () s' := ⟨_, _, rfl, rfl, rfl⟩
    rcases Analysis.temporaries_exact.1 sc (nestedLet m) _ _ _ (Int.le_refl 3) hyields with
      ⟨htemps, _, hpeak, hslots⟩
    have hframe : InFrame (fun _ => False) ⟨n, [], 3, 3⟩ :=
      ⟨(by decide : (0 : Int) ≤ 3), Int.le_refl 3, (by decide : (3 : Int) ≤ slotLimit),
        forall_mem_nil _⟩
    have hhigh : s'.env.peak = 5 := hpeak (casesFilled_nestedLet m)
    have hused := hslots _ hframe
    rw [hhigh] at hused
    exact ⟨ls, s', hyields, htemps, hhigh, hused⟩
  · have hcheck : (acceptedBy nestedSources fun o =>
          ((Generator.fresh []).run o.program (Sink.fresh none) none).failure.isNone &&
          passes (ClassTable.build o.program) fun t =>
            t.nodes.any fun n => n.name == "Main" && !n.isBasic && (t.parentOf? n).isSome &&
              decide (initSlots n.decl = 1) &&
              decide (n.decl.methods.map (fun m => (m.name, m.body.slots, m.formals.length)) =
                [⟨"f", 2, 2⟩, ⟨"main", 1, 0⟩])) = true := by
      decide +kernel
    simp only [acceptedBy_iff, passes_iff, any_eq_true, Bool.and_eq_true, Bool.not_eq_true',
      beq_iff_eq, decide_eq_true_eq, Option.isNone_iff_eq_none, Option.isSome_iff_exists,
      and_assoc] at hcheck
    rcases hcheck with ⟨o, haccepted, hclean, hok, t, hbuild, n, hn, hname, huser, ⟨p, hp⟩, hslots,
      hmethods⟩
    generalize hrun : (Generator.fresh []).run o.program (Sink.fresh none) none = r at hok
    rcases Analysis.temporaries_exact.2 nestedSources o (Generator.fresh []) (Sink.fresh none)
      none r haccepted hclean hrun hok with ⟨t', hbuild', hinits, hframes⟩
    rw [hbuild] at hbuild'
    cases hbuild'
    have hframe : ∀ f slots formals, (f, slots, formals) ∈ n.decl.methods.map
        (fun m => (m.name, m.body.slots, m.formals.length)) → ∃ body,
          ExactFrame (n.methodLabel f) slots formals body (r.assembly ++ r.tables) := by
      intro f slots formals hmem
      rcases mem_map.mp hmem with ⟨m, hm, heq⟩
      cases heq
      exact hframes n hn huser m hm
    rw [hmethods] at hframe
    have hinit := hinits n hn p hp
    rw [hslots] at hinit
    simp only [ClassNode.initLabel, ClassNode.methodLabel, hname] at hinit hframe
    exact ⟨o, r, haccepted, hclean, hrun, hok, hinit, hframe "f" 2 2 (by simp),
      hframe "main" 1 0 (by simp)⟩

end CoolCompiler
