import CoolCompiler.Proofs.Emit.Frames
import CoolCompiler.Proofs.Emit.Generator

/-!
# Names in checked and in generated code

The check of a routine and the emission of its code have, at every expression, one scope for each
open variable, in the same order.  So a name means the same to both.
-/

namespace CoolCompiler

open Environment List

namespace Emit

open Typing Variable Machine

def formalPlaces (temps : Nat) (fs : List Formal) : Dictionary Indexed :=
  (formals temps fs).foldl (fun d v => d.put v.name v.place) []

/-- A name means the same to the check of an expression and to its code: the innermost variable of
that name or else the attribute of one class. -/
def NameAgrees (ctx : Context) (n : ClassNode) (vs : List Variable) (Γ : Scopes)
    (env : Environment) (x : Name) : Prop :=
  match named vs x with
  | some v => typeOfVar? ctx Γ x = some v.type ∧ env.lookup x = .ok v.place
  | none => ∃ a slot, ctx.symbols.attribute? ctx.current x = some a ∧
      typeOfVar? ctx Γ x = some a.type ∧ n.slot? x = some slot ∧ slot.owner = a.owner ∧
      slot.type = a.type ∧
      env.lookup x = if fitsDisplacement slot.offset then .ok ⟨.ix, slot.offset⟩
        else .error (.internal n.name (.attributeOutOfRange x ⟨.ix, slot.offset⟩))

/-- The check of `a` in the scopes `Γ` and the emission of what it returns, `e`, from the state `s`
agree on the variables in slots, on names and on the end of scopes. -/
structure PointAgrees (sc : Scene) (ctx : Context) (n : ClassNode) (Γ0 : Scopes)
    (fs : List Formal) (temps : Nat) (vs : List Variable) (Γ : Scopes) (a : Expr) (s : Session)
    (e : Expr) : Prop where
  types : Γ = types Γ0 vs
  places : s.env.scopes = places vs ++ [formalPlaces temps fs]
  slots : s.env.temps = vs.length
  names : ∀ x, a.mentioned? = some x → x ≠ Name.self →
    NameAgrees ctx n (vs ++ formals temps fs) Γ s.env x
  restored : ∀ ls s', Yields (expr sc e) s ls () s' →
    s'.env.scopes = s.env.scopes ∧ s'.env.temps = s.env.temps

/-- The check of `source` in the scopes `Γ0`, which returns `body`, and the emission of a routine
that writes `front` and then `body`. -/
structure RoutineAgrees (sc : Scene) (ctx : Context) (n : ClassNode) (Γ0 : Scopes)
    (fs : List Formal) (temps : Nat) (source body : Expr) (front routine : Emit Session Unit) :
    Prop where
  checked : infer ctx Γ0 source = .ok (body, [])
  leads : Leads sc body front routine
  /-- Both walks come to the same expressions, and agree there. -/
  agrees : ∀ path a, source.at? path = some a →
    ∃ Γ e, Typing.Visits ctx Γ0 source path Γ a ∧ infer ctx Γ a = .ok (e, []) ∧
      body.at? path = some e ∧
      ∀ labels ls s0 s, Yields front ⟨labels, fresh n⟩ ls () s0 →
        Visits sc s0 body path s e →
          PointAgrees sc ctx n Γ0 fs temps (openAt body path) Γ a s e
  /-- Where the routine is written, so is every expression of it. -/
  visited : ∀ labels ls s', Yields routine ⟨labels, fresh n⟩ ls () s' →
    ∀ path e, body.at? path = some e → e.isOmitted = false →
      ∃ ls0 s0 ls1 s1 s2, Yields front ⟨labels, fresh n⟩ ls0 () s0 ∧
        Visits sc s0 body path s1 e ∧ Yields (expr sc e) s1 ls1 () s2 ∧ ls1 <:+: ls
  /-- Where the routine is written, variables, formals and what is saved of the caller have two
  bytes each, all distinct. -/
  apart : ∀ labels ls s', Yields routine ⟨labels, fresh n⟩ ls () s' →
    ∀ path, (∀ x ∈ storage temps (openAt body path ++ formals temps fs), x.base = .iy) ∧
      ∀ frame, ((storage temps (openAt body path ++ formals temps fs)).flatMap
        (Indexed.bytes frame)).Nodup
  /-- Where the routine is written, what is saved is where the storage has it. -/
  saves : ∀ labels ls s', Yields routine ⟨labels, fresh n⟩ ls () s' →
    ∀ value (cpu : Cpu), ∃ cpu', Runs value (fun p => ¬ Below cpu.sp (temps * 2 + 6) p) cpu
        (enterFrame temps) cpu' ∧
      ((Frame.saved temps).map fun x => cpu'.memory.word (cpu'.iy + BitVec.ofInt 16 x.offset)) =
        [cpu.ix, cpu.iy, cpu.memory.word cpu.sp]

/-!
# One routine
-/

section Routine

variable {sc : Scene} {ctx : Context} {n : ClassNode} {Γ0 : Scopes} {fs : List Formal}
  {temps : Nat}

def AttributesPlaced (ctx : Context) (n : ClassNode) : Prop :=
  ∀ x a, ctx.symbols.attribute? ctx.current x = some a →
    ∃ slot, n.slot? x = some slot ∧ slot.owner = a.owner ∧ slot.type = a.type

theorem nameAgrees {vs : List Variable} {env : Environment} {x type : Name}
    (hnodup : (fs.map Formal.name).Nodup)
    (hformals : ∀ x, Γ0.find? x = (named (formals temps fs) x).map Variable.type)
    (hattributes : AttributesPlaced ctx n) (henv : Opened n [formalPlaces temps fs] vs env)
    (hx : x ≠ Name.self) (htype : typeOfVar? ctx (types Γ0 vs) x = some type) :
    NameAgrees ctx n (vs ++ formals temps fs) (types Γ0 vs) env x := by
  have hnames : ((formals temps fs).map Variable.name).Nodup := by
    rw [formals, map_name_formals]
    exact hnodup
  have htypes : (types Γ0 vs).find? x = (named (vs ++ formals temps fs) x).map Variable.type := by
    rw [find?_types, hformals, named_append, Option.map_or]
  have hplaces : (env.scopes.findSome? fun scope => scope.find? x) =
      (named (vs ++ formals temps fs) x).map Variable.place := by
    rw [henv.scopes, findSome?_append, places, findSome?_scopes, named_append, Option.map_or,
      findSome?_cons, formalPlaces, find?_foldl_variables hnames]
    cases named (formals temps fs) x <;> rfl
  unfold NameAgrees
  rw [typeOfVar?, if_neg hx, htypes] at htype ⊢
  rw [Environment.lookup, hplaces]
  cases hnamed : named (vs ++ formals temps fs) x with
  | some v => exact ⟨rfl, rfl⟩
  | none =>
    rw [hnamed] at htype
    obtain ⟨a, ha, _⟩ := Option.map_eq_some_iff.mp htype
    obtain ⟨slot, hslot, howner, hstype⟩ := hattributes x a ha
    refine ⟨a, slot, ha, ?_, hslot, howner, hstype, ?_⟩
    · rw [ha]
      rfl
    · rw [henv.owner, hslot]
      rfl

theorem base_of_mem_storage {vs : List Variable} (hvs : Stacked vs) {x : Indexed}
    (hx : x ∈ storage temps (vs ++ formals temps fs)) : x.base = .iy := by
  rw [storage, map_append, hvs] at hx
  simp only [mem_append, mem_map, formals] at hx
  rcases hx with (⟨k, _, rfl⟩ | ⟨v, ⟨f, _, rfl⟩, rfl⟩) | hsaved
  · rfl
  · rfl
  · simp only [Frame.saved, mem_cons, not_mem_nil, or_false] at hsaved
    rcases hsaved with rfl | rfl | rfl <;> rfl

theorem Leads.visited {body e : Expr} {front routine : Emit Session Unit}
    (hleads : Leads sc body front routine) {s s' : Session} {ls : List Line}
    (h : Yields routine s ls () s') {path : List Nat} (he : body.at? path = some e)
    (hwritten : e.isOmitted = false) :
    ∃ ls0 s0 ls1 s1 s2, Yields front s ls0 () s0 ∧ Visits sc s0 body path s1 e ∧
      Yields (expr sc e) s1 ls1 () s2 ∧ ls1 <:+: ls := by
  obtain ⟨ls0, inside, after, s0, s3, hfront, hinside, rfl⟩ := hleads.yields h
  obtain ⟨s1, s2, ls1, hvisits, hyields, hwithin⟩ := visits_of_yields hinside he hwritten
  refine ⟨ls0, s0, ls1, s1, s2, hfront, hvisits, hyields, ?_⟩
  exact hwithin.trans ⟨ls0, after, by rw [append_assoc]⟩

theorem RoutineAgrees.intro {source body : Expr} {front routine : Emit Session Unit}
    (hnodup : (fs.map Formal.name).Nodup)
    (hformals : ∀ x, Γ0.find? x = (named (formals temps fs) x).map Variable.type)
    (hattributes : AttributesPlaced ctx n) (hchecked : infer ctx Γ0 source = .ok (body, []))
    (hslots : body.slots ≤ temps) (hleads : Leads sc body front routine)
    (hfront : ∀ labels ls s0, Yields front ⟨labels, fresh n⟩ ls () s0 →
      Opened n [formalPlaces temps fs] [] s0.env)
    (hroom : ∀ labels ls s', Yields routine ⟨labels, fresh n⟩ ls () s' →
      ¬ FrameTooLarge temps fs.length) :
    RoutineAgrees sc ctx n Γ0 fs temps source body front routine where
  checked := hchecked
  leads := hleads
  agrees := by
    intro path a ha
    have hstart : infer ctx (types Γ0 []) source = .ok (body, []) := hchecked
    obtain ⟨e, he, hvisits, hinfer⟩ := visits_of_infer [] hstart ha
    refine ⟨_, e, hvisits, hinfer, he, ?_⟩
    intro labels ls s0 s hs0 hs
    have hopened := hs.opened [] (hfront labels ls s0 hs0)
    refine ⟨rfl, hopened.scopes, hopened.temps, ?_, ?_⟩
    · intro x hx hself
      obtain ⟨_, type, htype⟩ := infer_mentioned? hinfer hx
      exact nameAgrees hnodup hformals hattributes hopened hself htype
    · intro ls' s' hyields
      have hrestored := hyields.of_ends (expr_restores sc e s hopened.temps_le_peak)
      exact ⟨hrestored.scopes, hrestored.temps⟩
  visited _ _ _ hs' _ _ he hwritten := hleads.visited hs' he hwritten
  apart := by
    intro labels ls s' hs' path
    have hstacked : Stacked (openAt body path) := stacked_nil.openFrom [] body path
    have hlength := length_openFrom_le [] [] body path
    rw [length_nil, Nat.zero_add] at hlength
    refine ⟨fun x hx => base_of_mem_storage hstacked hx, ?_⟩
    exact nodup_bytes hstacked (Nat.le_trans hlength hslots) (hroom labels ls s' hs')
  saves := by
    intro labels ls s' hs' value cpu
    have hroom := hroom labels ls s' hs'
    unfold FrameTooLarge at hroom
    rcases runs_enterFrame value (show temps ≤ 64 by omega) cpu with
      ⟨cpu', hruns, _, _, _, hsaved⟩
    exact ⟨cpu', hruns, hsaved⟩

end Routine

def methodFront (n : ClassNode) (m : Method) : Emit Session Unit := do
  ofExcept (Frame.reserve n.name m.body.slots m.formals.length)
  note (.method (n.methodLabel m.name) m.body.slots m.formals.length)
  openScope
  bindFormals m.body.slots m.formals.length 0 m.formals
  lines [.label (n.methodLabel m.name)]
  instrs (enterFrame m.body.slots)

theorem methodBody_leads (sc : Scene) (n : ClassNode) (m : Method) :
    Leads sc m.body (methodFront n m) (methodBody sc n m) :=
  .after _ fun _ => .after _ fun _ => .after _ fun _ => .after _ fun _ => .after _ fun _ =>
    .last (.here _)

theorem bindFormals_scope (temps total : Nat) (fs : List Formal) (i : Nat) {s : Session}
    {scope : Dictionary Indexed} {scopes : List (Dictionary Indexed)}
    (hscopes : s.env.scopes = scope :: scopes) :
    Ends (bindFormals temps total i fs) s
      (fun _ s' => s'.env = { s.env with
        scopes := ((fs.zipIdx i).map (formal temps total)).foldl
          (fun d v => d.put v.name v.place) scope :: scopes })
      (fun _ => True) := by
  induction fs generalizing i s scope with
  | nil =>
    change s.env = { s.env with scopes := scope :: scopes }
    rw [← hscopes]
  | cons f fs ih =>
    unfold bindFormals
    rw [ends_bind, ends_bindAt hscopes]
    refine ⟨fun _ => ?_, fun _ => trivial⟩
    exact ih (i + 1) rfl

theorem methodFront_env (n : ClassNode) (m : Method) (labels : Nat) :
    Ends (methodFront n m) ⟨labels, fresh n⟩
      (fun _ s => s.env = ⟨n, [formalPlaces m.body.slots m.formals], 0, 0⟩) (fun _ => True) := by
  simp only [methodFront, ends_bind, ends_ofExcept, ends_note, ends_openScope, ends_lines,
    ends_instrs]
  refine ⟨fun _ _ => ?_, fun _ _ => trivial⟩
  exact (bindFormals_scope m.body.slots m.formals.length m.formals 0 rfl).mono
    (fun _ _ henv => henv) (fun _ h => h)

theorem methodFront_opened (n : ClassNode) (m : Method) (labels : Nat) :
    Ends (methodFront n m) ⟨labels, fresh n⟩
      (fun _ s => Opened n [formalPlaces m.body.slots m.formals] [] s.env) (fun _ => True) := by
  refine (methodFront_env n m labels).mono (fun _ s henv => ?_) (fun _ h => h)
  rw [henv]
  exact ⟨rfl, rfl, rfl, Int.le_refl 0, (by decide : (0 : Int) ≤ slotLimit)⟩

/-- What is written of an initialisation routine before the code of the initializer of the
slot with a given number. -/
def initFront (sc : Scene) (n parent : ClassNode) (j : Nat) : Emit Session Unit := do
  ofExcept (Frame.reserve n.name (initSlots n.decl) 0)
  instrs (enterFrame (initSlots n.decl) ++ Instr.move .hl .ix ++ [.call parent.initLabel])
  openScope
  storeInits sc n.decl ((storedSlots n).take j)

theorem storeInits_append (sc : Scene) (c : Class) (ss ss' : List Slot) :
    storeInits sc c (ss ++ ss') = (do storeInits sc c ss; storeInits sc c ss') := by
  induction ss with
  | nil => rfl
  | cons s ss ih => simp only [cons_append, storeInits, ih, bind_assoc]

theorem initBody_leads (sc : Scene) {n parent : ClassNode} {j : Nat} {slot : Slot} {init : Expr}
    (hslot : (storedSlots n)[j]? = some slot) (hinit : initOf n.decl slot.name = init)
    (hwritten : init.isOmitted = false) :
    Leads sc init (initFront sc n parent j) (initBody sc n parent) := by
  have hsplit : storeInits sc n.decl (storedSlots n) = (do
      storeInits sc n.decl ((storedSlots n).take j)
      expr sc init
      instrs (Instr.storeWord (← placeOf slot.name) .hl)
      storeInits sc n.decl ((storedSlots n).drop (j + 1))) := by
    conv_lhs => rw [eq_take_append_cons hslot, storeInits_append, storeInits]
    rw [hinit, initializer, if_neg (by simp [hwritten])]
  rw [initBody, show n.ownSlots.filter (fun s => !s.isPrim) = storedSlots n from rfl, hsplit]
  simp only [bind_assoc]
  exact .after _ fun _ => .after _ fun _ => .after _ fun _ => .last (.here _)

theorem opened_enter (n : ClassNode) : Opened n [[]] [] (fresh n).enter :=
  ⟨rfl, rfl, rfl, Int.le_refl 0, (by decide : (0 : Int) ≤ slotLimit)⟩

theorem initFront_opened {sc : Scene} {n parent : ClassNode} {j labels : Nat} {ls : List Line}
    {s : Session} (h : Yields (initFront sc n parent j) ⟨labels, fresh n⟩ ls () s) :
    Opened n [[]] [] s.env := by
  rw [initFront] at h
  obtain ⟨_, _, hcall⟩ := yields_ofExcept_bind.mp h
  obtain ⟨_, hopen, _⟩ := yields_instrs_bind.mp hcall
  obtain ⟨_, _, s1, _, hscope, hstores, _⟩ := yields_bind.mp hopen
  have hs1 : s1 = ⟨labels, (fresh n).enter⟩ := hscope.state.symm
  apply (composed_storeInits sc [] n.decl _ []).restores.moves hstores
  rw [hs1]
  exact opened_enter n

/-!
# Classes
-/

structure ClassAgrees (sc : Scene) (symbols : Symbols) (n : ClassNode) (c : Class) : Prop where
  name : n.name = c.name
  methods : ∀ m ∈ c.methods, ∃ m' ∈ n.decl.methods, m'.name = m.name ∧ m'.formals = m.formals ∧
    RoutineAgrees sc ⟨symbols, c.name⟩ n (formalScopes Scopes.empty m.formals) m.formals
      m'.body.slots m.body m'.body (methodFront n m') (methodBody sc n m')
  attributes : ∀ a ∈ c.attributes, a.init.isOmitted = false →
    ∃ a' ∈ n.decl.attributes, a'.name = a.name ∧ ∃ parent j slot,
      sc.table.parentOf? n = some parent ∧ (storedSlots n)[j]? = some slot ∧
      slot.name = a.name ∧
      RoutineAgrees sc ⟨symbols, c.name⟩ n Scopes.empty [] (initSlots n.decl) a.init a'.init
        (initFront sc n parent j) (initBody sc n parent)

namespace Compilable

variable {q : Program} {s : Symbols} {parents : List (Option Nat)} {t : ClassTable}
  {n : ClassNode} (h : Compilable q s parents t)
  (hsigned : ∀ c ∈ Class.builtin ++ q, Signed s c) (hn : n ∈ t.nodes)
include h hsigned hn

theorem attributesPlaced : AttributesPlaced ⟨s, n.name⟩ n := by
  intro x a ha
  obtain ⟨d, hd, k, hk, hfound⟩ := h.exists_declaring hn ha
  have hdn := ClassTable.Built.mem_nodes_of_mem_chain t hd
  obtain ⟨k', hk', _, hattributes⟩ := h.knows hdn
  obtain ⟨k'', hk'', _, hrecords⟩ := (hsigned _ (h.decl_mem hdn)).records
  rw [ClassNode.name, hk'] at hk
  cases hk
  rw [hk'] at hk''
  cases hk''
  obtain ⟨b, hb, rfl⟩ := (hattributes x).mp (Dictionary.has_eq_true_iff.mpr ⟨a, hfound⟩)
  rw [hrecords b hb] at hfound
  cases hfound
  obtain ⟨slot, hslot, hname, htype, howner⟩ := h.built.exists_slot hn hd hb
  refine ⟨slot, ?_, howner, htype⟩
  rw [← hname]
  exact h.slot?_eq hn hslot

theorem method_agrees (hq : n.decl ∈ q) (pool : Pool) {m m' : Method}
    (hchecked : MethodChecked ⟨s, n.name⟩ m m') (hm' : m' ∈ n.decl.methods) :
    RoutineAgrees ⟨t, pool.collect t⟩ ⟨s, n.name⟩ n (formalScopes Scopes.empty m.formals)
      m.formals m'.body.slots m.body m'.body (methodFront n m')
      (methodBody ⟨t, pool.collect t⟩ n m') := by
  obtain ⟨body, rfl, hinfer, _⟩ := hchecked
  have huser : n.isBasic = false := h.collected.graph.notBasic hq
  have hnodup := (hsigned _ (h.decl_mem hn)).formals _ hm'
  refine .intro hnodup (find?_formals _ hnodup) (h.attributesPlaced hsigned hn) hinfer
    (Nat.le_refl _) (methodBody_leads _ n _) ?_ ?_
  · intro labels ls s0 hs0
    exact hs0.of_ends (methodFront_opened n _ labels)
  · intro labels ls s' hs'
    have hliterals : ∀ l ∈ body.literals, l.Interned (pool.collect t) := by
      intro l hl
      obtain ⟨f, hf, hmethod⟩ := mem_filterMap.mp hm'
      refine pool.literal_interned hn huser hf ?_
      cases f with
      | attr a => cases hmethod
      | method m'' =>
        cases hmethod
        exact hl
    exact hs'.of_ends (methodBody_ends (h.serves hn pool) (pool.file_interned hn huser)
      ((h.typed _ hq).methods _ hm') hliterals ((h.filled _ hq).methods _ hm') labels)

omit hsigned in
theorem exists_stored (hq : n.decl ∈ q) {a : Attribute} (ha : a ∈ n.decl.attributes) :
    ∃ (parent : ClassNode) (j : Nat) (slot : Slot), t.parentOf? n = some parent ∧
      (storedSlots n)[j]? = some slot ∧ slot.name = a.name ∧
      initOf n.decl slot.name = a.init := by
  have huser : n.isBasic = false := h.collected.graph.notBasic hq
  have hparent : ∃ parent, t.parentOf? n = some parent := by
    rcases h.built.parentOf?_cases hn with ⟨hobject, _⟩ | ⟨_, p, _, hp, _⟩
    · rw [ClassNode.isBasic, hobject] at huser
      cases huser
    · exact ⟨p, hp⟩
  obtain ⟨parent, hparent⟩ := hparent
  rcases h.built.exists_slot hn (h.built.mem_chain_self hn) ha with
    ⟨slot, hslot, hname, htype, howner⟩
  have hstored : slot ∈ storedSlots n :=
    mem_storedSlots_iff.mpr ⟨hslot, howner, htype ▸ h.type_ne_primSlot hq ha⟩
  obtain ⟨j, hj⟩ := getElem?_of_mem hstored
  refine ⟨parent, j, slot, hparent, hj, hname, ?_⟩
  rw [hname]
  exact initOf_eq (h.nodup_attributes hn) ha

theorem init_agrees (hq : n.decl ∈ q) (pool : Pool) {a a' : Attribute}
    (hchecked : AttributeChecked ⟨s, n.name⟩ a a') (ha' : a' ∈ n.decl.attributes)
    (hwritten : a.init.isOmitted = false) :
    ∃ parent j slot, t.parentOf? n = some parent ∧ (storedSlots n)[j]? = some slot ∧
      slot.name = a.name ∧
      RoutineAgrees ⟨t, pool.collect t⟩ ⟨s, n.name⟩ n Scopes.empty [] (initSlots n.decl) a.init
        a'.init (initFront ⟨t, pool.collect t⟩ n parent j)
        (initBody ⟨t, pool.collect t⟩ n parent) := by
  rcases hchecked with ⟨init, rfl, ⟨homitted, _⟩ | hinfer⟩
  · rw [hwritten] at homitted
    cases homitted
  obtain ⟨parent, j, slot, hparent, hj, hname, hinit⟩ := h.exists_stored hn hq ha'
  have hwritten' : init.isOmitted = false := by
    rw [(infer_parts hinfer).2.2.1, hwritten]
  have hslots : init.slots ≤ initSlots n.decl :=
    (initSlots_le_iff n.decl _).mp (Nat.le_refl _) _ ha'
  refine ⟨parent, j, slot, hparent, hj, hname, ?_⟩
  refine .intro nodup_nil (fun _ => rfl) (h.attributesPlaced hsigned hn) hinfer hslots
    (initBody_leads _ hj hinit hwritten') ?_ ?_
  · exact fun labels ls s0 hs0 => initFront_opened hs0
  · intro labels ls s' hs'
    have hsmall := (hs'.of_ends
      (initBody_ends (h.serves hn pool) (h.initialises hn pool) parent labels)).1
    unfold FrameTooLarge
    rw [length_nil]
    omega

theorem class_agrees (pool : Pool) {c : Class} (hchecked : ClassChecked s c n.decl)
    (hq : n.decl ∈ q) : ClassAgrees ⟨t, pool.collect t⟩ s n c := by
  have hname : n.name = c.name := hchecked.name
  refine ⟨hname, ?_, ?_⟩
  · intro m hm
    obtain ⟨i, hi⟩ := getElem?_of_mem hm
    obtain ⟨m', hm', hmethod⟩ := exists_of_forall₂_getElem? hchecked.methods hi
    refine ⟨m', mem_of_getElem? hm', ?_⟩
    rw [← hname] at hmethod ⊢
    have hagrees := h.method_agrees hsigned hn hq pool hmethod (mem_of_getElem? hm')
    obtain ⟨body, rfl, _⟩ := hmethod
    exact ⟨rfl, rfl, hagrees⟩
  · intro a ha hwritten
    obtain ⟨i, hi⟩ := getElem?_of_mem ha
    obtain ⟨a', ha', hattribute⟩ := exists_of_forall₂_getElem? hchecked.attributes hi
    refine ⟨a', mem_of_getElem? ha', ?_⟩
    rw [← hname] at hattribute ⊢
    have hagrees :=
      h.init_agrees hsigned hn hq pool hattribute (mem_of_getElem? ha') hwritten
    obtain ⟨init, rfl, _⟩ := hattribute
    exact ⟨rfl, hagrees⟩

end Compilable
end Emit

/-!
# Accepted programs
-/

/-- Of a program that was read from any sources and accepted by a fresh analysis, the check
and the code of every routine mean the same by every name, and no two variables of a frame
share storage. -/
theorem Analysis.names_agree (sources : List (Text × Text)) (o : Analysis.Outcome)
    (haccepted : Analysis.fresh.run
      (sources.flatMap fun source => (Grammar.parse source.1 source.2).classes) = .ok o)
    (hclean : o.analysis.diagnostics = []) :
    ∃ t, ClassTable.build o.program = .ok t ∧ ∀ pool : Pool,
      ∀ c ∈ sources.flatMap fun source => (Grammar.parse source.1 source.2).classes,
        ∃ n ∈ t.preorder, n.isBasic = false ∧
          Emit.ClassAgrees ⟨t, pool.collect t⟩ o.analysis.symbols n c := by
  rcases Analysis.exists_compilable haccepted hclean with
    ⟨parents, t, hcompilable, hbuild, hprogram, hsigned, -⟩
  refine ⟨t, hbuild, ?_⟩
  intro pool c hc
  rcases getElem?_of_mem hc with ⟨i, hi⟩
  rcases Typing.exists_of_forall₂_getElem? hprogram.checked hi with ⟨c', hc', hchecked, _⟩
  have hq : c' ∈ o.program := mem_of_getElem? hc'
  have hdecl : c' ∈ t.nodes.map ClassNode.decl := by
    rw [hcompilable.built.map_decl]
    exact mem_append_right _ hq
  rcases mem_map.mp hdecl with ⟨n, hn, rfl⟩
  refine ⟨n, hcompilable.built.mem_preorder_iff.mpr hn,
    hcompilable.collected.graph.notBasic hq, ?_⟩
  exact hcompilable.class_agrees hsigned hn pool hchecked hq

def shadowedSources : List (Text × Text) :=
  [("main.cl", "class Main { x : Int <- 7; main() : Object { f(x) };
f(x : Int) : Int { let x : Int <- x, z : Int <- x in case x of x : Int => x + z; esac }; };")]

def shadowingVariable : Variable := ⟨.inside [2] 0, "x", "Int", ⟨.iy, 4⟩⟩

theorem Analysis.names_agree_shadowed : ∃ o t n, ∃ m m' : Method, ∃ Γ a s₀ s e,
    Analysis.fresh.run (shadowedSources.flatMap fun source =>
      (Grammar.parse source.1 source.2).classes) = .ok o ∧
    o.analysis.diagnostics = [] ∧ ClassTable.build o.program = .ok t ∧
    n ∈ t.preorder ∧ n.name = "Main" ∧ m' ∈ n.decl.methods ∧ m'.name = "f" ∧
    Typing.Visits ⟨o.analysis.symbols, "Main"⟩ (Typing.formalScopes Scopes.empty m.formals)
      m.body [2, 1, 0] Γ a ∧
    Emit.Visits ⟨t, Pool.empty.collect t⟩ s₀ m'.body [2, 1, 0] s e ∧ e.mentioned? = some "x" ∧
    Typing.typeOfVar? ⟨o.analysis.symbols, "Main"⟩ Γ "x" = some shadowingVariable.type ∧
    s.env.lookup "x" = .ok shadowingVariable.place := by
  have hcheck : (acceptedBy shadowedSources fun o =>
        passes (ClassTable.build o.program) fun t => t.preorder.all fun n => n.name != "Main" ||
          n.decl.methods.all fun m => m.name != "f" ||
            (decide (Variable.named (Variable.openAt m.body [2, 1, 0] ++
              Variable.formals m.body.slots m.formals) "x" = some shadowingVariable) &&
            passes (Emit.methodBody ⟨t, Pool.empty.collect t⟩ n m
              ⟨0, Environment.fresh n⟩).outcome fun _ => true)) = true := by decide +kernel
  have hsource : ((shadowedSources.flatMap fun source =>
      (Grammar.parse source.1 source.2).classes).any fun c => c.name == "Main" &&
        c.methods.any fun m => m.name == "f" &&
          ((m.body.at? [2, 1, 0]).bind Expr.mentioned? == some "x")) = true := by decide +kernel
  simp only [acceptedBy_iff, passes_iff, all_eq_true, Bool.or_eq_true, Bool.and_eq_true,
    bne_iff_ne, ne_eq, decide_eq_true_eq] at hcheck
  simp only [any_eq_true, Bool.and_eq_true, beq_iff_eq] at hsource
  rcases hcheck with ⟨o, hrun, hclean, t, hbuild, htable⟩
  rcases Analysis.names_agree _ o hrun hclean with ⟨t', hbuild', hagree⟩
  rw [hbuild] at hbuild'
  cases hbuild'
  rcases hsource with ⟨c, hc, hcname, m, hm, hmname, hat⟩
  rcases Option.bind_eq_some_iff.mp hat with ⟨a, ha, hx⟩
  rcases hagree Pool.empty c hc with ⟨n, hn, _, hclass⟩
  have hname : n.name = "Main" := hclass.name.trans hcname
  rcases hclass.methods m hm with ⟨m', hm', hmname', hformals, hroutine⟩
  have hfname : m'.name = "f" := hmname'.trans hmname
  rcases htable n hn with hne | hall
  · exact absurd hname hne
  rcases hall m' hm' with hne | ⟨hnamed, u, houtcome, _⟩
  · exact absurd hfname hne
  rw [hformals] at hnamed
  rw [hcname] at hroutine
  -- The routine is written, so its emission comes to the expression.
  rcases hroutine.agrees [2, 1, 0] a ha with ⟨Γ, e, htyping, hinfer, he, hpoint⟩
  rcases Typing.infer_mentioned? hinfer hx with ⟨hmentioned, _⟩
  have hpresent : e.isOmitted = false := by
    cases e with
    | omitted _ => cases hmentioned
    | _ => rfl
  rcases hroutine.visited 0 _ _ ⟨rfl, rfl, houtcome⟩ [2, 1, 0] e he hpresent with
    ⟨ls₀, s₀, _, s, _, hfront, hvisits, _, _⟩
  have hagrees := (hpoint 0 ls₀ s₀ s hfront hvisits).names "x" hx (by decide)
  rw [Emit.NameAgrees, hnamed] at hagrees
  exact ⟨o, t, n, m, m', Γ, a, s₀, s, e, hrun, hclean, hbuild, hn, hname, hm', hfname, htyping,
    hvisits, hmentioned, hagrees.1, hagrees.2⟩

end CoolCompiler
