import CoolCompiler.Typing.Analysis
import CoolCompiler.Proofs.Dictionary
import CoolCompiler.Proofs.Emit.Code
import CoolCompiler.Proofs.Emit.Positions

/-!
# Open variables

The variables of the bindings and branches around a place, innermost first.  Types and places are
found in scopes of one variable each.
-/

namespace CoolCompiler

open List

/-- What binds a variable: a formal, or a binding or branch of the let or case at the end of a path,
by its number. -/
inductive Binder where
  | formal (i : Nat)
  | inside (path : List Nat) (i : Nat)
  deriving DecidableEq

structure Variable where
  binder : Binder
  name : Name
  type : Name
  place : Indexed
  deriving DecidableEq

namespace Variable

def bound (path : List Nat) (i : Nat) (b : Declared Expr) (used : Nat) : Variable :=
  ⟨.inside path i, b.name, b.type, ⟨.iy, used * 2⟩⟩

def openAll (path : List Nat) : Nat → List (Declared Expr) → List Variable → List Variable
  | _, [], vs => vs
  | i, b :: bs, vs => openAll path (i + 1) bs (bound path i b vs.length :: vs)

/-- The variables that are open in the part with a given number of the expression at the end
of a path. -/
def openInside (path : List Nat) (vs : List Variable) : Expr → Nat → List Variable
  | .letIn _ bs _, i => openAll path 0 (bs.take i) vs
  | .typeCase _ _ bs, i + 1 => openAll path i bs[i]?.toList vs
  | _, _ => vs

def openFrom (here : List Nat) (vs : List Variable) : Expr → List Nat → List Variable
  | _, [] => vs
  | e, i :: path =>
    match e.parts[i]? with
    | some a => openFrom (here ++ [i]) (openInside here vs e i) a path
    | none => vs

def openAt (e : Expr) (path : List Nat) : List Variable := openFrom [] [] e path

/-- The variable of a formal, by its number, in a routine with so many temporaries and
formals. -/
def formal (temps total : Nat) (f : Formal × Nat) : Variable :=
  ⟨.formal f.2, f.1.name, f.1.type, Frame.formal temps f.2 total⟩

def formals (temps : Nat) (fs : List Formal) : List Variable :=
  fs.zipIdx.map (formal temps fs.length)

def named (vs : List Variable) (x : Name) : Option Variable := vs.find? fun v => v.name == x

/-!
# Scopes
-/

def types (Γ : Scopes) (vs : List Variable) : Scopes :=
  ⟨(vs.map fun v => [(v.name, v.type)]) ++ Γ.inner, Γ.outermost⟩

def places (vs : List Variable) : List (Dictionary Indexed) := vs.map fun v => [(v.name, v.place)]

theorem named_append (vs ws : List Variable) (x : Name) :
    named (vs ++ ws) x = (named vs x).or (named ws x) := find?_append

theorem findSome?_scopes {α : Type} (vs : List Variable) (value : Variable → α) (x : Name) :
    ((vs.map fun v => [(v.name, value v)]).findSome? fun d : Dictionary α => d.find? x) =
      (named vs x).map value := by
  induction vs with
  | nil => rfl
  | cons v vs ih =>
    rw [map_cons, findSome?_cons, Dictionary.find?_cons, ih]
    by_cases hx : x = v.name
    · simp [named, hx]
    · have hne : (v.name == x) = false := beq_eq_false_iff_ne.mpr (Ne.symm hx)
      simp [named, hx, hne]

theorem find?_foldl_variables {α : Type} {vs : List Variable}
    (hnodup : (vs.map Variable.name).Nodup) (value : Variable → α) (x : Name) :
    (vs.foldl (fun (d : Dictionary α) v => d.put v.name (value v)) []).find? x =
      (named vs x).map value := by
  cases hnamed : named vs x with
  | none =>
    rw [Dictionary.find?_foldl_put_of_not_mem]
    · rfl
    · intro v hv hname
      have hne := find?_eq_none.mp hnamed v hv
      simp [hname] at hne
  | some v =>
    have hname : v.name = x := by simpa using find?_some hnamed
    rw [← hname, Dictionary.find?_foldl_put _ _ _ hnodup (mem_of_find?_eq_some hnamed)]
    rfl

theorem find?_types (Γ : Scopes) (vs : List Variable) (x : Name) :
    (types Γ vs).find? x = ((named vs x).map Variable.type).or (Γ.find? x) := by
  rw [Scopes.find?, types, append_assoc, findSome?_append, findSome?_scopes,
    Scopes.find?]

theorem pushAll_types (path : List Nat) (Γ : Scopes) (i : Nat) (bs : List (Declared Expr))
    (vs : List Variable) :
    Typing.pushAll (types Γ vs) bs = types Γ (openAll path i bs vs) := by
  induction bs generalizing i vs with
  | nil => rfl
  | cons b bs ih => exact ih (i + 1) (bound path i b vs.length :: vs)

theorem inside_types (path : List Nat) (Γ : Scopes) (vs : List Variable) (e : Expr) (i : Nat) :
    Typing.inside (types Γ vs) e i = types Γ (openInside path vs e i) := by
  cases e with
  | letIn m bs e => exact pushAll_types path Γ 0 _ vs
  | typeCase m e bs =>
    cases i with
    | zero => rfl
    | succ i => exact pushAll_types path Γ i _ vs
  | _ => rfl

theorem map_name_formals (temps total i : Nat) (fs : List Formal) :
    ((fs.zipIdx i).map (formal temps total)).map Variable.name = fs.map Formal.name := by
  induction fs generalizing i with
  | nil => rfl
  | cons f fs ih => rw [zipIdx_cons, map_cons, map_cons, ih, map_cons]; rfl

theorem formalScopes_eq (temps : Nat) (fs : List Formal) :
    Typing.formalScopes Scopes.empty fs =
      ⟨[(formals temps fs).foldl (fun d v => d.put v.name v.type) []], []⟩ := by
  have hfold : ∀ (total i : Nat) (d : Dictionary Name),
      fs.foldl (fun s f => s.bind f.name f.type) (⟨[d], []⟩ : Scopes) =
        ⟨[((fs.zipIdx i).map (formal temps total)).foldl (fun d v => d.put v.name v.type) d],
          []⟩ := by
    intro total
    induction fs with
    | nil => exact fun _ _ => rfl
    | cons f fs ih => exact fun i d => ih (i + 1) (d.put f.name f.type)
  exact hfold fs.length 0 []

theorem find?_formals (temps : Nat) {fs : List Formal} (hnodup : (fs.map Formal.name).Nodup)
    (x : Name) :
    (Typing.formalScopes Scopes.empty fs).find? x =
      (named (formals temps fs) x).map Variable.type := by
  have hnames : ((formals temps fs).map Variable.name).Nodup := by
    rw [formals, map_name_formals]
    exact hnodup
  rw [formalScopes_eq temps, Scopes.find?, singleton_append, findSome?_cons,
    find?_foldl_variables hnames]
  cases named (formals temps fs) x <;> rfl

/-!
# Slots
-/

theorem length_openAll (path : List Nat) (i : Nat) (bs : List (Declared Expr))
    (vs : List Variable) : (openAll path i bs vs).length = vs.length + bs.length := by
  induction bs generalizing i vs with
  | nil => rfl
  | cons b bs ih =>
    rw [openAll, ih, length_cons, length_cons]
    omega

theorem slots_le_slotsOfLet {bs : List (Declared Expr)} {i : Nat} {m : Mark} {e a : Expr}
    (h : (Expr.letIn m bs e).parts[i]? = some a) :
    (bs.take i).length + a.slots ≤ Expr.slotsOfLet bs e.slots := by
  induction bs generalizing i with
  | nil =>
    rcases Expr.letIn_part h with ⟨b, hb, _⟩ | ⟨_, rfl⟩
    · cases hb
    · simp [Expr.slotsOfLet]
  | cons b bs ih =>
    cases i with
    | zero =>
      cases h
      simp only [Expr.slotsOfLet, take_zero, length_nil]
      omega
    | succ i =>
      have hrest := ih (i := i) h
      simp only [Expr.slotsOfLet, take_succ_cons, length_cons]
      omega

theorem length_openInside_add {path : List Nat} {vs : List Variable} {e a : Expr} {i : Nat}
    (h : e.parts[i]? = some a) :
    (openInside path vs e i).length + a.slots ≤ vs.length + e.slots := by
  have hmem := mem_of_getElem? h
  cases e with
  | letIn m bs e =>
    have hslots := slots_le_slotsOfLet h
    rw [openInside, length_openAll, Expr.slots]
    omega
  | typeCase m e bs =>
    cases i with
    | zero =>
      cases h
      simp only [openInside, Expr.slots]
      omega
    | succ i =>
      have hvalue : (bs.map Declared.value)[i]? = some a := h
      rw [getElem?_map] at hvalue
      obtain ⟨b, hb, rfl⟩ := Option.map_eq_some_iff.mp hvalue
      have hslots := Expr.slots_le_of_branch (mem_of_getElem? hb)
      rw [openInside, hb, length_openAll, Expr.slots]
      simp only [Option.toList_some, length_singleton]
      omega
  | _ => exact Nat.add_le_add_left (Expr.slots_le_of_part hmem) _

theorem length_openFrom_le (here : List Nat) (vs : List Variable) (e : Expr) (path : List Nat) :
    (openFrom here vs e path).length ≤ vs.length + e.slots := by
  induction path generalizing here vs e with
  | nil =>
    rw [openFrom]
    omega
  | cons i path ih =>
    rw [openFrom]
    cases hpart : e.parts[i]? with
    | none =>
      simp only
      omega
    | some a =>
      have hinside : (openInside here vs e i).length + a.slots ≤ vs.length + e.slots :=
        length_openInside_add hpart
      have hrest := ih (here ++ [i]) (openInside here vs e i) a
      simp only
      omega

end Variable

namespace Typing

open Variable

theorem visits_of_infer {ctx : Context} {Γ : Scopes} {vs : List Variable} {e e' a : Expr}
    {path : List Nat} (here : List Nat) (h : infer ctx (types Γ vs) e = .ok (e', []))
    (ha : e.at? path = some a) :
    ∃ a', e'.at? path = some a' ∧
      Visits ctx (types Γ vs) e path (types Γ (openFrom here vs e' path)) a ∧
      infer ctx (types Γ (openFrom here vs e' path)) a = .ok (a', []) := by
  induction path generalizing here vs e e' with
  | nil =>
    cases ha
    exact ⟨e', rfl, .here, h⟩
  | cons i path ih =>
    obtain ⟨e1, he1, hrest⟩ := Option.bind_eq_some_iff.mp ha
    obtain ⟨e1', he1', hwithin, hinfer⟩ := infer_part h he1
    rw [inside_types here] at hwithin hinfer
    obtain ⟨a', ha', hvisits, hresult⟩ := ih (here ++ [i]) hinfer hrest
    rw [openFrom, he1']
    refine ⟨a', ?_, .into he1 hwithin hvisits, hresult⟩
    rw [Expr.at?, he1', Option.bind_some, ha']

end Typing

namespace Emit

open Variable

/-!
# Variables while code is written
-/

structure Opened (n : ClassNode) (base : List (Dictionary Indexed)) (vs : List Variable)
    (env : Environment) : Prop where
  owner : env.owner = n
  scopes : env.scopes = places vs ++ base
  temps : env.temps = vs.length
  temps_le_peak : env.temps ≤ env.peak
  peak_le_limit : env.peak ≤ slotLimit

def Moves {α : Type} (vs vs' : List Variable) (x : Emit Session α) : Prop :=
  ∀ ⦃n base s ls a s'⦄, Yields x s ls a s' → Opened n base vs s.env → Opened n base vs' s'.env

section Moves

variable {α β : Type} {vs vs1 vs' : List Variable} {x : Emit Session α}
  {f : α → Emit Session β} {sc : Scene}

theorem Moves.bind (hx : Moves vs vs1 x) (hf : ∀ a, Moves vs1 vs' (f a)) :
    Moves vs vs' (x >>= f) := by
  intro n base s ls b s' h hs
  obtain ⟨first, a, s1, second, hfirst, hsecond, _⟩ := yields_bind.mp h
  exact hf a hsecond (hx hfirst hs)

theorem Restores.moves {k : Nat} {p : Prop} (hx : Restores x k p) : Moves vs vs x := by
  intro n base s ls a s' h hs
  have hrestored := h.of_ends (hx s hs.temps_le_peak)
  constructor
  · rw [hrestored.owner, hs.owner]
  · rw [hrestored.scopes, hs.scopes]
  · rw [hrestored.temps, hs.temps]
  · exact hrestored.temps_le_peak hs.temps_le_peak
  · apply hrestored.peak_le_limit _ hs.peak_le_limit
    rw [hs.temps]
    exact Int.natCast_nonneg _

theorem Keeps.moves (hx : Keeps x) : Moves vs vs x := (hx.restores (p := True)).moves

theorem Silent.moves (hx : Silent x) : Moves vs vs x := hx.keeps.moves

theorem moves_expr (e : Expr) : Moves vs vs (expr sc e) := (expr_restores sc e).moves

theorem moves_actuals (args : List Expr) : Moves vs vs (actuals sc args) :=
  (actuals_restores sc args).moves

theorem moves_openSlot (path : List Nat) (i : Nat) (b : Declared Expr) :
    Moves vs (bound path i b vs.length :: vs) (openSlot b.name) := by
  intro n base s ls u s' h hs
  obtain ⟨hfits, _, rfl⟩ := yields_openSlot_opened.mp h
  have htemps := hs.temps
  have hle := hs.temps_le_peak
  have hlimit := hs.peak_le_limit
  have hroom := (nextSlot_fits_iff (by omega) (by omega)).mp hfits
  have hslot : nextSlot s.env = ⟨.iy, vs.length * 2⟩ := by
    rw [← htemps, ← nextSlot_offset (by omega) (by omega)]
    rfl
  constructor
  · exact hs.owner
  · change [(b.name, nextSlot s.env)] :: s.env.scopes = _
    rw [hslot, hs.scopes]
    rfl
  · change s.env.temps + 1 = _
    rw [htemps, length_cons, Int.natCast_succ]
  · exact Int.le_max_right _ _
  · change max s.env.peak (s.env.temps + 1) ≤ slotLimit
    omega

theorem moves_closeSlot (v : Variable) : Moves (v :: vs) vs closeSlot := by
  intro n base s ls u s' h hs
  obtain ⟨env, henv, _, rfl⟩ := yields_closeSlot.mp h
  have hscopes : s.env.scopes = [(v.name, v.place)] :: (places vs ++ base) := hs.scopes
  rw [Environment.leave, hscopes] at henv
  cases henv
  have htemps := hs.temps
  have hle := hs.temps_le_peak
  rw [length_cons, Int.natCast_succ] at htemps
  constructor
  · exact hs.owner
  · rfl
  · change s.env.temps - 1 = _
    omega
  · change s.env.temps - 1 ≤ s.env.peak
    omega
  · exact hs.peak_le_limit

theorem moves_bindings (path : List Nat) (i : Nat) (bs : List (Declared Expr)) :
    Moves vs (openAll path i bs vs) (bindings sc bs) := by
  induction bs generalizing i vs with
  | nil => exact (keeps_pure ()).moves
  | cons b bs ih =>
    have hinitializer : Moves vs vs (initializer sc b.type b.value) :=
      (initializer_restores sc b.type b.value).moves
    rw [bindings_cons]
    exact hinitializer.bind fun _ => (moves_openSlot path i b).bind fun _ => ih (i + 1)

theorem moves_branches (finished : Name) (labels : List Name) (bs : List (Declared Expr)) :
    Moves vs vs (branches sc finished labels bs) := by
  induction bs generalizing labels with
  | nil =>
    cases labels <;> exact (keeps_pure ()).moves
  | cons b bs ih =>
    cases labels with
    | nil => exact (keeps_pure ()).moves
    | cons label labels =>
      rw [branches]
      exact (keeps_lines _).moves.bind fun _ => (keeps_instrs _).moves.bind fun _ =>
        (moves_openSlot [] 0 b).bind fun _ => (moves_expr b.value).bind fun _ =>
        (moves_closeSlot _).bind fun _ => (keeps_instrs _).moves.bind fun _ => ih labels

theorem moves_before (path : List Nat) {e a : Expr} {i : Nat} (h : e.parts[i]? = some a) :
    Moves vs (openInside path vs e i) (before sc e i) := by
  cases e with
  | absent | omitted m | int m n | string m t | bool m b | object m x | new m t => cases h
  | assign m x e => exact (Looks.placeOf x.name).silent.moves.bind fun _ => (keeps_pure ()).moves
  | dispatch m e t f args =>
    cases t with
    | none =>
      exact (Looks.receiverClass e).silent.moves.bind fun _ =>
        (Silent.ofExcept _).moves.bind fun _ => moves_actuals _
    | some c => exact (Silent.ofExcept _).moves.bind fun _ => moves_actuals _
  | binary m op l r =>
    have hhead : Composed sc [] [] 0 True [] (binaryHead sc op) := .binaryHead op
    cases i with
    | zero => exact hhead.restores.moves
    | succ i =>
      exact hhead.restores.moves.bind fun _ => (moves_expr l).bind fun _ =>
        (keeps_instrs _).moves
  | negate m e =>
    have hint : Composed sc [] [] 0 True [] (pushInt sc) := .pushInt
    exact hint.restores.moves
  | complement m e | isVoid m e => exact (keeps_pure ()).moves
  | cond m c t f =>
    match i with
    | 0 =>
      exact keeps_newLabel.moves.bind fun _ => keeps_newLabel.moves.bind fun _ =>
        (keeps_pure ()).moves
    | 1 =>
      exact keeps_newLabel.moves.bind fun _ => keeps_newLabel.moves.bind fun _ =>
        (moves_expr c).bind fun _ => (keeps_instrs _).moves
    | i + 2 =>
      exact keeps_newLabel.moves.bind fun _ => keeps_newLabel.moves.bind fun _ =>
        (moves_expr c).bind fun _ => (keeps_instrs _).moves.bind fun _ =>
        (moves_expr t).bind fun _ => (keeps_instrs _).moves.bind fun _ =>
        (keeps_lines _).moves
  | loop m c b =>
    cases i with
    | zero =>
      exact keeps_newLabel.moves.bind fun _ => keeps_newLabel.moves.bind fun _ =>
        (keeps_lines _).moves
    | succ i =>
      exact keeps_newLabel.moves.bind fun _ => keeps_newLabel.moves.bind fun _ =>
        (keeps_lines _).moves.bind fun _ => (moves_expr c).bind fun _ =>
        (keeps_instrs _).moves
  | block m es => exact (Composed.sequence fun e _ => composed_expr sc [] e []).restores.moves
  | letIn m bs e => exact moves_bindings path 0 _
  | typeCase m e bs =>
    cases i with
    | zero =>
      exact (Looks.branchTags sc bs).silent.moves.bind fun _ => (Silent.fileConst sc).moves.bind
        fun _ => (keeps_pure ()).moves
    | succ i =>
      have hvalue : (bs.map Declared.value)[i]? = some a := h
      rw [getElem?_map] at hvalue
      obtain ⟨b, hb, rfl⟩ := Option.map_eq_some_iff.mp hvalue
      rw [before, openInside, hb]
      exact (Looks.branchTags sc bs).silent.moves.bind fun _ => (Silent.fileConst sc).moves.bind
        fun _ => (moves_expr e).bind fun _ => keeps_newLabel.moves.bind fun _ =>
        keeps_newLabel.moves.bind fun _ => keeps_newLabel.moves.bind fun _ =>
        keeps_newLabel.moves.bind fun _ => (keeps_newLabels _).moves.bind fun _ =>
        (keeps_lines _).moves.bind fun _ => (moves_branches _ _ _).bind fun _ =>
        (keeps_lines _).moves.bind fun _ => (keeps_instrs _).moves.bind fun _ =>
        moves_openSlot path i b

end Moves

theorem Visits.opened {sc : Scene} {n : ClassNode} {base : List (Dictionary Indexed)}
    {vs : List Variable} {s s' : Session} {e e' : Expr} {path : List Nat} (here : List Nat)
    (h : Visits sc s e path s' e') (hs : Opened n base vs s.env) :
    Opened n base (openFrom here vs e path) s'.env := by
  induction h generalizing here vs with
  | here => exact hs
  | into part written _ ih =>
    rw [openFrom, part]
    exact ih _ (moves_before here part written hs)

end Emit
end CoolCompiler
