import CoolCompiler.Proofs.Emit.Code
import CoolCompiler.Proofs.Value.Steps

/-!
# Code and evaluation

The code of an expression computes what it evaluates to.  There is one lemma for each rule of
evaluation.
-/

namespace CoolCompiler

open List

def Operator.pushed : Operator → Nat
  | .add | .sub | .mul | .div => 1
  | _ => 0

namespace Expr

mutual

def stackWords : Expr → Nat
  | .assign _ _ e | .complement _ e | .isVoid _ e => stackWords e
  | .negate _ e => 1 + stackWords e
  | .binary _ op l r => op.pushed + max (stackWords l) (1 + stackWords r)
  | .cond _ c t f => max (max (stackWords c) (stackWords t)) (stackWords f)
  | .loop _ c b => max (stackWords c) (stackWords b)
  | .block _ es => stackWordsOfAll es
  | .letIn _ bs e => max (stackWordsOfParts bs) (stackWords e)
  | _ => 0

def stackWordsOfAll : List Expr → Nat
  | [] => 0
  | e :: es => max (stackWords e) (stackWordsOfAll es)

def stackWordsOfParts : List (Declared Expr) → Nat
  | [] => 0
  | ⟨_, _, _, e⟩ :: bs => max (stackWords e) (stackWordsOfParts bs)

end

theorem stackWords_letIn_cons (m : Mark) (b : Declared Expr) (bs : List (Declared Expr))
    (e : Expr) :
    (letIn m (b :: bs) e).stackWords = max b.value.stackWords (letIn m bs e).stackWords := by
  cases b
  simp only [stackWords, stackWordsOfParts]
  omega

/-- An expression that does not compare objects by identity or by contents. -/
def ComparesWords : Expr → Prop
  | .binary _ .equal l _ => l.type = Name.int ∨ l.type = Name.bool
  | _ => True

end Expr

namespace Operator

variable {op : Operator} {a b : BitVec 16}

theorem arithmetic_of_compute? {w : BitVec 16} (h : op.compute? a b = some w) :
    op = .add ∨ op = .sub ∨ op = .mul ∨ op = .div := by
  cases op with
  | add | sub => simp
  | _ => cases h

theorem pushed_eq_one (h : op = .add ∨ op = .sub ∨ op = .mul ∨ op = .div) : op.pushed = 1 := by
  rcases h with rfl | rfl | rfl | rfl <;> rfl

end Operator

namespace Emit

theorem length_code (is : List Instr) : (code is).length = is.length := length_map _

theorem yields_comparison {sc : Scene} {op : Operator} {a b : BitVec 16} {c : Bool} {type : Name}
    {s s1 s2 s' : Session} {head tail : List Line} {u u' : Unit}
    (hop : op.compare? a b = some c) (hhead : Yields (binaryHead sc op) s head u s1)
    (htail : Yields (binaryTail op type) s2 tail u' s') :
    op.pushed = 0 ∧ head = [] ∧ s1 = s ∧
      ∃ orEqual label, c = (if orEqual then a.sle b else a.slt b) ∧
        tail = code (unboxOperands ++ compareSigned orEqual) ++ selectBool .carry label := by
  cases op with
  | less =>
    cases hop
    obtain ⟨rfl, _, rfl⟩ := yields_done.mp hhead
    exact ⟨rfl, rfl, rfl, false, _, rfl, (yields_select htail).2⟩
  | lessEq =>
    cases hop
    obtain ⟨rfl, _, rfl⟩ := yields_done.mp hhead
    exact ⟨rfl, rfl, rfl, true, _, rfl, (yields_select htail).2⟩
  | _ => cases hop

end Emit

namespace Machine

open Emit

/-- The variables of an environment are in different words of the frame, and so many words are free
for more. -/
structure Storage.Fits (f : Storage) (env : Environment) (need : Nat) : Prop where
  temps_nonneg : 0 ≤ env.temps
  temps_le_peak : env.temps ≤ env.peak
  free : ∀ k : Nat, env.temps ≤ k → k < env.temps + need →
    k ∈ f.slots ∧ slotPlace k ∉ env.scopes.flatten.map Prod.snd
  nodup : (env.scopes.flatten.map Prod.snd).Nodup

/-- An expression whose code has what it needs in an environment with certain variables and
so many words on the stack. -/
structure Within (f : Storage) (d : Nat) (places : List (Name × Indexed)) (env : Environment)
    (e : Expr) : Prop where
  words : e.Everywhere Expr.ComparesWords
  scopes : env.scopes.flatten = places
  fits : f.Fits env e.slots
  room : 2 * (d + e.stackWords) ≤ f.room

variable {f : Storage} {shut : List Word} {d n i : Nat} {places : List (Name × Indexed)}
  {env env' : Environment} {e a : Expr} {session session' : Session} {ls : List Line} {u : Unit}

theorem Within.room_le (h : Within f d places env e) : 2 * d ≤ f.room :=
  Nat.le_trans (Nat.mul_le_mul_left 2 (Nat.le_add_right d _)) h.room

namespace Storage.Fits

variable {need need' k : Nat} {exact : Prop}

theorem mono (h : f.Fits env need) (hle : need' ≤ need) : f.Fits env need' where
  temps_nonneg := h.temps_nonneg
  temps_le_peak := h.temps_le_peak
  free := fun k hk hlt => h.free k hk (by omega)
  nodup := h.nodup

theorem restored (h : f.Fits env need) (hrestored : Restored k exact env env') :
    f.Fits env' need := by
  constructor
  · rw [hrestored.temps]
    exact h.temps_nonneg
  · exact hrestored.temps_le_peak h.temps_le_peak
  · rw [hrestored.temps, hrestored.scopes]
    exact h.free
  · rw [hrestored.scopes]
    exact h.nodup

theorem nextSlot (h : f.Fits env (1 + need)) (hf : f.Sound) :
    ∃ k : Nat, env.temps = k ∧ k ∈ f.slots ∧ nextSlot env = slotPlace k ∧
      slotPlace k ∉ env.scopes.flatten.map Prod.snd := by
  obtain ⟨k, hk⟩ := Int.eq_ofNat_of_zero_le h.temps_nonneg
  obtain ⟨hslot, hfree⟩ := h.free k (by omega) (by omega)
  have hlt := hf.slot_lt k hslot
  refine ⟨k, hk, hslot, ?_, hfree⟩
  rw [Emit.nextSlot, slotPlace, hk, wordSize, wrapOffset_of_small (by omega) (by omega)]
  congr 1
  omega

theorem opened (h : f.Fits env (1 + need)) (hf : f.Sound) (x : Name) :
    f.Fits (opened env x) need := by
  obtain ⟨k, hk, _, hnext, hfree⟩ := h.nextSlot hf
  have hplaces : (Emit.opened env x).scopes.flatten.map Prod.snd =
      slotPlace k :: env.scopes.flatten.map Prod.snd := by
    simp only [Emit.opened, hnext, flatten_cons, cons_append, nil_append,
      map_cons]
  have htemps : (Emit.opened env x).temps = k + 1 := congrArg (· + 1) hk
  constructor
  · omega
  · exact Int.le_max_right _ _
  · intro j hj hlt
    obtain ⟨hslot, hother⟩ := h.free j (by omega) (by omega)
    rw [hplaces, mem_cons, not_or]
    refine ⟨hslot, fun heq => ?_, hother⟩
    have hsame := slotPlace_injective heq
    omega
  · rw [hplaces]
    exact nodup_cons.mpr ⟨hfree, h.nodup⟩

end Storage.Fits

namespace Within

theorem part (h : Within f d places env e) (hwords : n + a.stackWords ≤ e.stackWords)
    (ha : a ∈ e.parts := by simp [Expr.parts]) : Within f (d + n) places env a where
  words := (Expr.everywhere_iff.mp h.words).2 a ha
  scopes := h.scopes
  fits := h.fits.mono (Expr.slots_le_of_part ha)
  room := by
    have hroom := h.room
    omega

theorem restored {k : Nat} {exact : Prop} (h : Within f d places env e)
    (hrestored : Restored k exact env env') : Within f d places env' e where
  words := h.words
  scopes := hrestored.scopes ▸ h.scopes
  fits := h.fits.restored hrestored
  room := h.room

theorem after {labels : Nat} (h : Within f d places env e)
    (hyields : Yields (expr f.scene a) ⟨labels, env⟩ ls u session') :
    Within f d places session'.env e :=
  h.restored (hyields.of_ends (expr_restores f.scene a ⟨labels, env⟩ h.fits.temps_le_peak))

theorem inner (h : Within f d places env e) (hwords : a.stackWords ≤ e.stackWords)
    (ha : a ∈ e.parts := by simp [Expr.parts]) : Within f d places env a :=
  h.part (n := 0) (by omega) ha

theorem cond {m : Mark} {c t e : Expr} (h : Within f d places env (.cond m c t e)) :
    Within f d places env c ∧ Within f d places env t ∧ Within f d places env e := by
  have hwords : c.stackWords ≤ (Expr.cond m c t e).stackWords ∧
      t.stackWords ≤ (Expr.cond m c t e).stackWords ∧
      e.stackWords ≤ (Expr.cond m c t e).stackWords := by
    simp only [Expr.stackWords]
    omega
  exact ⟨h.inner hwords.1, h.inner hwords.2.1, h.inner hwords.2.2⟩

theorem loop {m : Mark} {c e : Expr} (h : Within f d places env (.loop m c e)) :
    Within f d places env c ∧ Within f d places env e := by
  constructor
  · exact h.inner (Nat.le_max_left _ _)
  · exact h.inner (Nat.le_max_right _ _)

theorem operands {m : Mark} {op : Operator} {l r : Expr}
    (h : Within f d places env (.binary m op l r)) :
    Within f (d + op.pushed) places env l ∧ Within f (d + op.pushed + 1) places env r := by
  constructor
  · exact h.part (by simp only [Expr.stackWords]; omega)
  · exact h.part (n := op.pushed + 1) (by simp only [Expr.stackWords]; omega)

theorem blockRest {m m' : Mark} {es : List Expr} (h : Within f d places env (.block m (e :: es))) :
    Within f d places env (.block m' es) where
  words := .intro trivial fun a ha =>
    (Expr.everywhere_iff.mp h.words).2 a (mem_cons_of_mem e ha)
  scopes := h.scopes
  fits := h.fits.mono (by simp only [Expr.slots, Expr.slotsOfAll]; omega)
  room := by
    have hroom := h.room
    simp only [Expr.stackWords, Expr.stackWordsOfAll] at hroom ⊢
    omega

theorem letRest {m m' : Mark} {b : Declared Expr} {bs : List (Declared Expr)}
    (h : Within f d places env (.letIn m (b :: bs) e)) (hf : f.Sound) :
    ∃ k ∈ f.slots, nextSlot env = slotPlace k ∧ slotPlace k ∉ places.map Prod.snd ∧
      Within f d ((b.name, slotPlace k) :: places) (opened env b.name) (.letIn m' bs e) := by
  have hfits : f.Fits env (1 + (Expr.letIn m' bs e).slots) :=
    h.fits.mono (by rw [Expr.slots_letIn_cons]; exact Nat.le_max_right _ _)
  obtain ⟨k, _, hk, hnext, hfree⟩ := hfits.nextSlot hf
  rw [h.scopes] at hfree
  refine ⟨k, hk, hnext, hfree, ?_, ?_, hfits.opened hf b.name, ?_⟩
  · refine .intro trivial fun a ha => (Expr.everywhere_iff.mp h.words).2 a ?_
    exact mem_cons_of_mem _ ha
  · simp only [opened, hnext, flatten_cons, h.scopes, cons_append, nil_append]
  · have hroom := h.room
    rw [Expr.stackWords_letIn_cons] at hroom
    simp only [Expr.stackWords] at hroom ⊢
    omega

theorem lookup {ρ : Dictionary Value} {x : Name} {v : Value} {place : Indexed} {M : Memory}
    (h : Within f d places env e) (hstored : f.Stored shut M places ρ)
    (hfind : ρ.find? x = some v) (hlookup : env.lookup x = .ok place) :
    ∃ k ∈ f.slots, place = slotPlace k ∧ Dictionary.find? places x = some (slotPlace k) ∧
      Represents f shut M v (M.word (slotAt f.base k)) := by
  obtain ⟨k, hk, hplace, hvalue⟩ := hstored.find? hfind
  have hfound := hplace
  rw [← h.scopes] at hfound
  rw [lookup_of_find? hfound] at hlookup
  exact ⟨k, hk, (Except.ok.inj hlookup).symm, hplace, hvalue⟩

end Within

/-!
# Rules

The code of an expression computes its value where the code of its parts computes theirs.
-/

/-- Wherever its code has what it needs, an expression takes what the variables hold to a value and
to what they hold then. -/
def Realizes (f : Storage) (ρ : Dictionary Value) (e : Expr) (v : Value) (ρ' : Dictionary Value) :
    Prop :=
  ∀ ⦃shut d places session ls session' i s⦄, Yields (expr f.scene e) session ls () session' →
    f.image.Placed i ls → Within f d places session.env e → Ready f shut d places ρ s →
    ∃ s', Computes f shut d places i (i + ls.length) s v ρ' s'

namespace Realizes

variable {ρ ρ' ρ1 ρ2 ρ3 : Dictionary Value} {v w : Value} {m m' : Mark} {x : Name}

theorem int (hf : f.Sound) {k : Int} :
    Realizes f ρ (.int m k) (.int (BitVec.ofInt 16 k)) ρ := by
  intro shut d places session ls session' i s hyields hplaced _ hready
  obtain ⟨_, j, hj, rfl⟩ := yields_int hyields
  exact hready.computes_int hf hj hplaced

theorem bool (hf : f.Sound) {b : Bool} : Realizes f ρ (.bool m b) (.bool b) ρ := by
  intro shut d places session ls session' i s hyields hplaced _ hready
  obtain ⟨_, rfl⟩ := yields_bool hyields
  exact ⟨_, hready.computes_bool hf b hplaced⟩

theorem lookup (hf : f.Sound) (hx : x ≠ Name.self) (hfind : ρ.find? x = some v) :
    Realizes f ρ (.object m x) v ρ := by
  intro shut d places session ls session' i s hyields hplaced hwithin hready
  obtain ⟨_, place, hlookup, rfl⟩ := yields_object hx hyields
  obtain ⟨k, hk, rfl, _, hvalue⟩ := hwithin.lookup hready.stored hfind hlookup
  exact hready.computes_variable hf hk hplaced hvalue

theorem assign {x : Identifier} (hf : f.Sound) (hhas : ρ'.has x.name = true)
    (he : Realizes f ρ e v ρ') : Realizes f ρ (.assign m x e) v (ρ'.put x.name v) := by
  intro shut d places session ls session' i s hyields hplaced hwithin hready
  obtain ⟨place, first, hlookup, hfirst, rfl⟩ := yields_assign hyields
  obtain ⟨hcode, hstore⟩ := placed_append.mp hplaced
  have hpart : Within f d places session.env e :=
    hwithin.inner (Nat.le_refl _)
  obtain ⟨s1, hc⟩ := he hfirst hcode hpart hready
  obtain ⟨old, hold⟩ := Dictionary.has_eq_true_iff.mp hhas
  obtain ⟨k, hk, rfl, hplace, _⟩ := hwithin.lookup hc.stored hold hlookup
  have hnodup := hwithin.fits.nodup
  rw [hwithin.scopes] at hnodup
  have hput := hc.stored.put hf hk hnodup hplace hc.value
  obtain ⟨s', hlast⟩ := (hready.next hc.toPasses).computes_store hf hk hstore hc.value hput
  rw [length_append, ← Nat.add_assoc]
  exact ⟨s', hc.toPasses.computes hlast⟩

/-!
# Operators
-/

section Operands

variable {l r : Expr} {first second tail : List Line}

theorem placed_operands (hplaced : f.image.Placed i
      (first ++ (code [.push .hl] ++ (second ++ (code [.pop .de] ++ tail))))) :
    f.image.Placed (i + first.length + 1 + second.length + 1) tail :=
  (placed_append.mp (placed_append.mp (placed_append.mp
    (placed_append.mp hplaced).2).2).2).2

theorem operands {c : Name} {a : Word} {session1 session2 : Session} {s : Cpu} (hf : f.Sound)
    (hl : Realizes f ρ l v ρ1) (hr : Realizes f ρ1 r w ρ2) (hbox : v.box? = some (c, a))
    (hfirst : Yields (expr f.scene l) session first () session1)
    (hsecond : Yields (expr f.scene r) session1 second () session2)
    (hplaced : f.image.Placed i
      (first ++ (code [.push .hl] ++ (second ++ (code [.pop .de] ++ tail)))))
    (hleft : Within f d places session.env l) (hright : Within f (d + 1) places session.env r)
    (hready : Ready f shut d places ρ s) :
    ∃ s', Passes f shut d places i (i + first.length + 1 + second.length + 1) s ρ2 s' ∧
      Represents f shut s'.memory v s'.de ∧ Represents f shut s'.memory w s'.hl := by
  obtain ⟨hfirstPlaced, hrest⟩ := placed_append.mp hplaced
  obtain ⟨hpush, hrest⟩ := placed_append.mp hrest
  obtain ⟨hsecondPlaced, hrest⟩ := placed_append.mp hrest
  have hpop := (placed_append.mp hrest).1
  obtain ⟨s1, hc⟩ := hl hfirst hfirstPlaced hleft hready
  rcases (hready.next hc.toPasses).operands hf hright.room_le hc.value hbox hpush hpop
    (fun s2 hready2 => hr hsecond hsecondPlaced (hright.after hfirst) hready2) with
    ⟨s', hpasses, hv, hw⟩
  exact ⟨s', hc.toPasses.trans hpasses, hv, hw⟩

end Operands

theorem runs_arithmetic {value : Name → Word} {keep : Word → Prop} {s : Cpu} {op : Operator}
    {c : Word} (hop : op.compute? s.hl s.bc = some c) :
    ∃ s', Runs value keep s (Emit.arithmetic op) s' ∧ Still s s' ∧ s'.hl = c ∧
      s'.memory = s.memory := by
  cases op with
  | add =>
    cases hop
    exact runs_add value keep s
  | sub =>
    cases hop
    obtain ⟨s', hruns, hstill, hhl, _, hmemory⟩ := runs_subtract value keep s
    exact ⟨s', hruns, hstill, hhl, hmemory⟩
  | _ => cases hop

theorem arithmetic {op : Operator} {l r : Expr} {a b c : Word} (hf : f.Sound)
    (hop : op.compute? a b = some c) (hl : Realizes f ρ l (.int a) ρ1)
    (hr : Realizes f ρ1 r (.int b) ρ2) : Realizes f ρ (.binary m op l r) (.int c) ρ2 := by
  intro shut d places session ls session' i s hyields hplaced hwithin hready
  have hkind := Operator.arithmetic_of_compute? hop
  rcases yields_binary hyields with
    ⟨head, first, second, tail, s1, s2, s3, hhead, hfirst, hsecond, htail, rfl⟩
  obtain ⟨n, hn, rfl, rfl⟩ := yields_binaryHead_arithmetic hkind hhead
  obtain ⟨rfl, _⟩ := yields_binaryTail_arithmetic hkind htail
  have hparts := hwithin.operands
  rw [Operator.pushed_eq_one hkind] at hparts
  obtain ⟨hcopy, hrest⟩ := placed_append.mp hplaced
  obtain ⟨hcompute, hfinish⟩ := (placed_code_append _ _).mp (placed_operands hrest)
  obtain ⟨hunbox, harith⟩ := (placed_code_append _ _).mp hcompute
  have hroom := hparts.2.room_le
  rw [length_append, ← Nat.add_assoc] at hfinish
  simp only [length_append, length_code, ← Nat.add_assoc]
  refine hready.computes_result hf (by omega) hn hcopy hfinish ?_
  intro p t hready1
  rcases operands hf hl hr rfl hfirst hsecond hrest hparts.1 hparts.2 hready1 with
    ⟨t1, hpasses, hv, hw⟩
  have hready2 := hready1.next hpasses
  obtain ⟨t2, hunboxed, rfl, rfl⟩ := hready2.unboxes hf hroom hv hw rfl rfl hunbox
  obtain ⟨t3, hruns, hstill, hhl, hmemory⟩ := runs_arithmetic hop
  have hcomputed := (hready2.next hunboxed).quiet harith hruns hstill hmemory
  exact ⟨t3, hpasses.trans (hunboxed.trans hcomputed), hhl⟩

theorem comparison {op : Operator} {l r : Expr} {a b : Word} {c : Bool} (hf : f.Sound)
    (hop : op.compare? a b = some c) (hl : Realizes f ρ l (.int a) ρ1)
    (hr : Realizes f ρ1 r (.int b) ρ2) : Realizes f ρ (.binary m op l r) (.bool c) ρ2 := by
  intro shut d places session ls session' i s hyields hplaced hwithin hready
  rcases yields_binary hyields with
    ⟨head, first, second, tail, s1, s2, s3, hhead, hfirst, hsecond, htail, rfl⟩
  obtain ⟨hpushed, rfl, rfl, orEqual, label, rfl, rfl⟩ := yields_comparison hop hhead htail
  have hparts := hwithin.operands
  rw [hpushed] at hparts
  rcases operands hf hl hr rfl hfirst hsecond hplaced hparts.1 hparts.2 hready with
    ⟨t, hpasses, hv, hw⟩
  rcases (hready.next hpasses).computes_comparison hf hparts.2.room_le hv hw rfl rfl
    fun hkeep hleft hright ha hb => ha ▸ hb ▸
      reaches_compareSigned hkeep hleft hright orEqual (placed_operands hplaced) with ⟨s', hc⟩
  refine ⟨s', ?_⟩
  simp only [length_append, ← Nat.add_assoc] at hc ⊢
  exact hpasses.computes hc

theorem equal {l r : Expr} {c : Name} {a b : Word} (hf : f.Sound) (hv : v.box? = some (c, a))
    (hw : w.box? = some (c, b)) (hl : Realizes f ρ l v ρ1) (hr : Realizes f ρ1 r w ρ2) :
    Realizes f ρ (.binary m .equal l r) (.bool (a == b)) ρ2 := by
  intro shut d places session ls session' i s hyields hplaced hwithin hready
  rcases yields_binary hyields with
    ⟨head, first, second, tail, s1, s2, s3, hhead, hfirst, hsecond, htail, rfl⟩
  obtain ⟨rfl, _, rfl⟩ := yields_done.mp hhead
  obtain ⟨_, rfl⟩ := yields_binaryTail_equal htail
  have hparts := hwithin.operands
  have htype : l.type = Name.int ∨ l.type = Name.bool := (Expr.everywhere_iff.mp hwithin.words).1
  rcases operands hf hl hr hv hfirst hsecond hplaced hparts.1 hparts.2 hready with
    ⟨t, hpasses, hleft, hright⟩
  -- One object has one word.
  have hsame : ∀ s : Cpu, s.memory.word (s.de + 6#16) = a → s.memory.word (s.hl + 6#16) = b →
      decide (s.de = s.hl ∨ s.memory.word (s.de + 6#16) = s.memory.word (s.hl + 6#16)) =
        (a == b) := by
    rintro s rfl rfl
    exact decide_eq_decide.mpr (or_iff_right_of_imp fun heq => by rw [heq])
  rcases (hready.next hpasses).computes_comparison hf hparts.2.room_le hleft hright hv hw
    fun hkeep hde hhl ha hb => hsame t ha hb ▸
      reaches_equal hkeep hde hhl htype (placed_operands hplaced) with ⟨s', hc⟩
  refine ⟨s', ?_⟩
  simp only [length_append, ← Nat.add_assoc] at hc ⊢
  exact hpasses.computes hc

theorem negate {a : Word} (hf : f.Sound) (he : Realizes f ρ e (.int a) ρ') :
    Realizes f ρ (.negate m e) (.int (-a)) ρ' := by
  intro shut d places session ls session' i s hyields hplaced hwithin hready
  obtain ⟨n, first, hn, hfirst, rfl⟩ := yields_negate hyields
  have hpart : Within f (d + 1) places session.env e :=
    hwithin.part (Nat.le_refl _)
  obtain ⟨hcopy, hrest⟩ := placed_append.mp hplaced
  obtain ⟨hcode, hlast⟩ := placed_append.mp hrest
  obtain ⟨hnegate, hfinish⟩ := (placed_code_append _ _).mp hlast
  simp only [length_append, length_code, ← Nat.add_assoc]
  refine hready.computes_result hf hpart.room_le hn hcopy hfinish ?_
  intro p t hready1
  obtain ⟨t1, hc⟩ := he hfirst hcode hpart hready1
  have hword := (hc.value.boxed_of_box? rfl).2.1.2
  rcases runs_negatePayload f.image.value (f.Kept (d + 1) t1.memory) t1 with
    ⟨t2, hruns, hstill, hhl, hmemory⟩
  have hnegated := (hready1.next hc.toPasses).quiet hnegate hruns hstill hmemory
  rw [hword] at hhl
  exact ⟨t2, hc.toPasses.trans hnegated, hhl⟩

end Realizes

namespace Ready

variable {ρ : Dictionary Value} {s : Cpu}

theorem tests {b : Bool} (h : Ready f shut d places ρ s)
    (hb : Represents f shut s.memory (.bool b) s.hl) (hplaced : f.image.Placed i (code testBool)) :
    ∃ s', Passes f shut d places i (i + testBool.length) s ρ s' ∧ s'.zero = !b := by
  rcases runs_testBool f.image.value (f.Kept d s.memory) s with
    ⟨s', hruns, hstill, hzero, hmemory⟩
  have hword := (hb.boxed_of_box? rfl).2.1.2
  rw [hword] at hzero
  refine ⟨s', h.quiet hplaced hruns hstill hmemory, ?_⟩
  cases b <;> exact hzero

theorem chooses {b : Bool} {label : Name} {j : Nat} (h : Ready f shut d places ρ s)
    (hb : Represents f shut s.memory (.bool b) s.hl)
    (hplaced : f.image.Placed i (code (testBool ++ [.jp .zero label])))
    (hlabel : f.image.code[j]? = some (.label label)) :
    ∃ s', Passes f shut d places i (if b then i + testBool.length + 1 else j) s ρ s' := by
  obtain ⟨htest, hjump⟩ := (placed_code_append _ _).mp hplaced
  obtain ⟨s', hpasses, hzero⟩ := h.tests hb htest
  have hjumped := Passes.jump (d := d) hpasses.stored (placed_cons.mp hjump).1 hlabel
    (congrArg some hzero)
  refine ⟨s', hpasses.trans ?_⟩
  cases b <;> exact hjumped

end Ready

namespace Realizes

variable {ρ ρ' ρ1 ρ2 ρ3 : Dictionary Value} {v w : Value} {m m' : Mark} {x : Name}

theorem complement {b : Bool} (hf : f.Sound) (he : Realizes f ρ e (.bool b) ρ') :
    Realizes f ρ (.complement m e) (.bool !b) ρ' := by
  intro shut d places session ls session' i s hyields hplaced hwithin hready
  obtain ⟨first, s1, hfirst, _, rfl⟩ := yields_complement hyields
  have hpart : Within f d places session.env e :=
    hwithin.inner (Nat.le_refl _)
  obtain ⟨hcode, hrest⟩ := placed_append.mp hplaced
  obtain ⟨htest, hselect⟩ := placed_append.mp hrest
  obtain ⟨t1, hc⟩ := he hfirst hcode hpart hready
  have hready1 := hready.next hc.toPasses
  obtain ⟨t2, htested, hzero⟩ := hready1.tests hc.value htest
  have hflag : holds? t2 .zero = some _ := congrArg some hzero
  rw [length_code] at hselect
  obtain ⟨s', hlast⟩ := (hready1.next htested).computes_select hf hflag hselect
  refine ⟨s', ?_⟩
  simp only [length_append, length_code, ← Nat.add_assoc]
  exact hc.toPasses.computes (htested.computes hlast)

theorem isVoid (hf : f.Sound) (he : Realizes f ρ e v ρ') :
    Realizes f ρ (.isVoid m e) (.bool (v == .void)) ρ' := by
  intro shut d places session ls session' i s hyields hplaced hwithin hready
  obtain ⟨first, s1, hfirst, _, rfl⟩ := yields_isVoid hyields
  have hpart : Within f d places session.env e :=
    hwithin.inner (Nat.le_refl _)
  obtain ⟨hcode, hrest⟩ := placed_append.mp hplaced
  obtain ⟨htest, hselect⟩ := placed_append.mp hrest
  obtain ⟨t1, hc⟩ := he hfirst hcode hpart hready
  have hready1 := hready.next hc.toPasses
  let t2 : Cpu :=
    { t1 with a := high t1.hl ||| low t1.hl, carry := false, zero := decide (t1.hl = 0#16) }
  have htested : Passes f shut d places _ _ t1 ρ' t2 :=
    hready1.quiet htest runs_testZero_hl ⟨rfl, rfl, rfl⟩ rfl
  have hflag : holds? t2 .zero = some (v == .void) := by
    refine congrArg some (Bool.eq_iff_iff.mpr ?_)
    rw [decide_eq_true_iff, beq_iff_eq]
    exact hc.value.eq_zero_iff
  rw [length_code] at hselect
  obtain ⟨s', hlast⟩ := (hready1.next htested).computes_select hf hflag hselect
  refine ⟨s', ?_⟩
  simp only [length_append, length_code, ← Nat.add_assoc]
  exact hc.toPasses.computes (htested.computes hlast)

/-!
# Control
-/

theorem length_cond (test choice first skip : List Line) (otherwise : Name) (second : List Line)
    (finished : Name) :
    i + (test ++ (choice ++ (first ++ (skip ++ (Line.label otherwise :: (second ++
      [Line.label finished])))))).length =
      i + test.length + choice.length + first.length + skip.length + 1 + second.length + 1 := by
  simp only [length_cons, length_append, length_nil]
  omega

variable {bs : List (Declared Expr)} {b : Declared Expr} {c : Expr}

theorem cond {t : Expr} {b : Bool} (hc : Realizes f ρ c (.bool b) ρ1)
    (hbranch : Realizes f ρ1 (if b then t else e) v ρ2) : Realizes f ρ (.cond m c t e) v ρ2 := by
  intro shut d places session ls session' i s hyields hplaced hwithin hready
  obtain ⟨test, s1, first, s2, second, htest, hfirst, hsecond, rfl⟩ := yields_cond hyields
  obtain ⟨htestPlaced, hrest⟩ := placed_append.mp hplaced
  obtain ⟨hchoice, hrest⟩ := placed_append.mp hrest
  obtain ⟨hfirstPlaced, hrest⟩ := placed_append.mp hrest
  obtain ⟨hjump, hrest⟩ := placed_append.mp hrest
  obtain ⟨hotherwise, hrest⟩ := placed_cons.mp hrest
  obtain ⟨hsecondPlaced, hlast⟩ := placed_append.mp hrest
  have hfinished := (placed_cons.mp hlast).1
  obtain ⟨hctest, hcfirst, hcsecond⟩ := hwithin.cond
  rw [length_cond]
  obtain ⟨t1, htested⟩ := hc htest htestPlaced hctest hready
  have hready1 := hready.next htested.toPasses
  obtain ⟨t2, hchosen⟩ := hready1.chooses htested.value hchoice hotherwise
  have hready2 := hready1.next hchosen
  have hstart := htested.toPasses.trans hchosen
  cases b with
  | true =>
    obtain ⟨t3, hvalue⟩ := hbranch hfirst hfirstPlaced (hcfirst.after htest) hready2
    have hskip := Passes.jump (d := d) (b := true) hvalue.stored (placed_cons.mp hjump).1
      hfinished rfl
    have hend := (hvalue.moved hskip).moved (.label hvalue.stored hfinished)
    exact ⟨t3, hstart.computes hend⟩
  | false =>
    have hlabel : Passes f shut d places _ _ t2 ρ1 t2 := .label hchosen.stored hotherwise
    rcases hbranch hsecond hsecondPlaced ((hcsecond.after htest).after hfirst) hready2 with
      ⟨t3, hvalue⟩
    have hend := hvalue.moved (.label hvalue.stored hfinished)
    exact ⟨t3, hstart.computes (hlabel.computes hend)⟩

theorem length_loop (again : Name) (test choice body back : List Line) (finished : Name)
    (void : List Line) :
    i + (Line.label again :: (test ++ (choice ++ (body ++ (back ++
      (Line.label finished :: void)))))).length =
      i + 1 + test.length + choice.length + body.length + back.length + 1 + void.length := by
  simp only [length_cons, length_append]
  omega

theorem loop {b : Bool} (hc : Realizes f ρ c (.bool b) ρ1) (hend : b = false → ρ3 = ρ1)
    (hagain : b = true → ∃ v ρ2, Realizes f ρ1 e v ρ2 ∧ Realizes f ρ2 (.loop m c e) .void ρ3) :
    Realizes f ρ (.loop m c e) .void ρ3 := by
  intro shut d places session ls session' i s hyields hplaced hwithin hready
  obtain ⟨test, s1, body, htest, hbody, rfl⟩ := yields_loop hyields
  obtain ⟨hfirst, hrest⟩ := placed_cons.mp hplaced
  obtain ⟨htestPlaced, hrest⟩ := placed_append.mp hrest
  obtain ⟨hchoice, hrest⟩ := placed_append.mp hrest
  obtain ⟨hbodyPlaced, hrest⟩ := placed_append.mp hrest
  obtain ⟨hback, hrest⟩ := placed_append.mp hrest
  obtain ⟨hfinished, hvoid⟩ := placed_cons.mp hrest
  have hstart : Passes f shut d places i (i + 1) s ρ s := .label hready.stored hfirst
  obtain ⟨t1, htested⟩ := hc htest htestPlaced hwithin.loop.1 hready
  have hready1 := hready.next htested.toPasses
  obtain ⟨t2, hchosen⟩ := hready1.chooses htested.value hchoice hfinished
  have hready2 := hready1.next hchosen
  have htests := hstart.trans (htested.toPasses.trans hchosen)
  cases b with
  | false =>
    cases hend rfl
    have hlabel : Passes f shut d places _ _ t2 ρ1 t2 := .label hchosen.stored hfinished
    rw [length_loop]
    exact ⟨_, htests.computes (hlabel.computes (hready2.computes_void hvoid))⟩
  | true =>
    obtain ⟨v, ρ2, he, hloop⟩ := hagain rfl
    obtain ⟨t3, hdone⟩ := he hbody hbodyPlaced (hwithin.loop.2.after htest) hready2
    have hjump := Passes.jump (d := d) (b := true) hdone.stored (placed_cons.mp hback).1
      hfirst rfl
    have hround := htests.trans (hdone.toPasses.trans hjump)
    obtain ⟨s', hrounds⟩ := hloop hyields hplaced hwithin (hready.next hround)
    exact ⟨s', hround.computes hrounds⟩

theorem blockLast (he : Realizes f ρ e v ρ') : Realizes f ρ (.block m [e]) v ρ' := by
  intro shut d places session ls session' i s hyields hplaced hwithin hready
  obtain ⟨first, s1, second, hfirst, hsecond, rfl⟩ := yields_block_cons hyields
  obtain ⟨rfl, _⟩ := yields_block_nil hsecond
  rw [append_nil] at hplaced ⊢
  have hpart : Within f d places session.env e :=
    hwithin.inner (Nat.le_max_left _ _)
  exact he hfirst hplaced hpart hready

theorem blockNext {es : List Expr} (he : Realizes f ρ e w ρ1)
    (hes : Realizes f ρ1 (.block m' es) v ρ2) : Realizes f ρ (.block m (e :: es)) v ρ2 := by
  intro shut d places session ls session' i s hyields hplaced hwithin hready
  obtain ⟨first, s1, second, hfirst, hsecond, rfl⟩ := yields_block_cons hyields
  obtain ⟨hfirstPlaced, hsecondPlaced⟩ := placed_append.mp hplaced
  have hpart : Within f d places session.env e :=
    hwithin.inner (Nat.le_max_left _ _)
  obtain ⟨t, hdone⟩ := he hfirst hfirstPlaced hpart hready
  have hmark : expr f.scene (.block m es) = expr f.scene (.block m' es) := by
    rw [expr, expr]
  rw [hmark] at hsecond
  rcases hes hsecond hsecondPlaced (hwithin.blockRest.after hfirst)
    (hready.next hdone.toPasses) with ⟨s', hc⟩
  rw [length_append, ← Nat.add_assoc]
  exact ⟨s', hdone.toPasses.computes hc⟩

theorem letBody (he : Realizes f ρ e v ρ') : Realizes f ρ (.letIn m [] e) v ρ' := by
  intro shut d places session ls session' i s hyields hplaced hwithin hready
  have hpart : Within f d places session.env e :=
    hwithin.inner (Nat.le_max_right _ _)
  exact he (yields_letIn_nil hyields) hplaced hpart hready

theorem letRest {y : Value} {rest : List Line} {t : Cpu} (hf : f.Sound)
    (hlet : Realizes f ((b.name, w) :: ρ1) (.letIn m' bs e) v ((b.name, y) :: ρ2))
    (hyields : Yields (expr f.scene (.letIn m bs e))
      { session with env := opened session.env b.name } rest () session')
    (hplaced : f.image.Placed i (code (Instr.storeWord (nextSlot session.env) .hl) ++ rest))
    (hwithin : Within f d places session.env (.letIn m (b :: bs) e))
    (hready : Ready f shut d places ρ1 t) (hvalue : Represents f shut t.memory w t.hl) :
    ∃ s', Computes f shut d places i
      (i + (code (Instr.storeWord (nextSlot session.env) .hl) ++ rest).length) t v ρ2 s' := by
  have hmark : expr f.scene (.letIn m bs e) = expr f.scene (.letIn m' bs e) := by
    rw [expr, expr]
  rw [hmark] at hyields
  obtain ⟨k, hk, hnext, hfree, hinside⟩ := hwithin.letRest hf
  rw [hnext] at hplaced ⊢
  obtain ⟨hstore, hrestPlaced⟩ := placed_append.mp hplaced
  have hvariable : Represents f shut (t.memory.putWord (slotAt f.base k) t.hl) w
      ((t.memory.putWord (slotAt f.base k) t.hl).word (slotAt f.base k)) := by
    rw [Memory.word_putWord_self]
    exact hvalue.putSlot hk
  have hstored : f.Stored shut (t.memory.putWord (slotAt f.base k) t.hl)
      ((b.name, slotPlace k) :: places) ((b.name, w) :: ρ1) :=
    .cons ⟨rfl, k, hk, rfl, hvariable⟩ (hready.stored.putOther hf hk hfree)
  obtain ⟨t1, hset⟩ := hready.computes_store hf hk hstore hvalue hstored
  obtain ⟨s', hc⟩ := hlet hyields hrestPlaced hinside (hready.next hset.toPasses)
  rw [length_append, ← Nat.add_assoc]
  exact ⟨s', (hset.toPasses.computes hc).leave⟩

theorem letOmitted (hf : f.Sound) (homitted : b.value.isOmitted = true)
    (hlet : Realizes f ((b.name, Value.initial b.type) :: ρ) (.letIn m' bs e) v
      ((b.name, w) :: ρ')) : Realizes f ρ (.letIn m (b :: bs) e) v ρ' := by
  intro shut d places session ls session' i s hyields hplaced hwithin hready
  obtain ⟨first, s1, rest, s2, hfirst, _, hrest, _, rfl⟩ := yields_letIn_cons hyields
  obtain ⟨hfirstPlaced, hrestPlaced⟩ := placed_append.mp hplaced
  rw [initializer, if_pos homitted] at hfirst
  cases (yields_defaultValue hfirst).1
  obtain ⟨t, hinit⟩ := hready.computes_default hf hfirst hfirstPlaced
  rcases letRest hf hlet hrest hrestPlaced hwithin (hready.next hinit.toPasses) hinit.value with
    ⟨s', hc⟩
  rw [length_append, ← Nat.add_assoc]
  exact ⟨s', hinit.toPasses.computes hc⟩

theorem letInit {y : Value} (hf : f.Sound) (hpresent : b.value.isOmitted = false)
    (hinit : Realizes f ρ b.value w ρ1)
    (hlet : Realizes f ((b.name, w) :: ρ1) (.letIn m' bs e) v ((b.name, y) :: ρ2)) :
    Realizes f ρ (.letIn m (b :: bs) e) v ρ2 := by
  intro shut d places session ls session' i s hyields hplaced hwithin hready
  obtain ⟨first, s1, rest, s2, hfirst, _, hrest, _, rfl⟩ := yields_letIn_cons hyields
  obtain ⟨hfirstPlaced, hrestPlaced⟩ := placed_append.mp hplaced
  rw [initializer, hpresent, if_neg Bool.false_ne_true] at hfirst
  have hpart : Within f d places session.env b.value := by
    refine hwithin.inner ?_
    rw [Expr.stackWords_letIn_cons]
    exact Nat.le_max_left _ _
  obtain ⟨t, hc⟩ := hinit hfirst hfirstPlaced hpart hready
  rcases letRest hf hlet hrest hrestPlaced (hwithin.after hfirst) (hready.next hc.toPasses)
    hc.value with ⟨s', hlast⟩
  rw [length_append, ← Nat.add_assoc]
  exact ⟨s', hc.toPasses.computes hlast⟩

end Realizes

theorem not_omitted_of_eval {ρ ρ' : Dictionary Value} {v : Value} (h : Eval ρ e v ρ') :
    e.isOmitted = false := by
  cases h <;> rfl

theorem realizes_of_eval {ρ ρ' : Dictionary Value} {v : Value} (hf : f.Sound)
    (h : Eval ρ e v ρ') : Realizes f ρ e v ρ' := by
  induction h with
  | int => exact .int hf
  | bool => exact .bool hf
  | lookup hx hfind => exact .lookup hf hx hfind
  | assign hhas _ ih => exact .assign hf hhas ih
  | arithmetic hop _ _ ihl ihr => exact .arithmetic hf hop ihl ihr
  | comparison hop _ _ ihl ihr => exact .comparison hf hop ihl ihr
  | equal hu hv _ _ ihl ihr => exact .equal hf hu hv ihl ihr
  | negate _ ih => exact .negate hf ih
  | complement _ ih => exact .complement hf ih
  | isVoid _ ih => exact .isVoid hf ih
  | cond _ _ ihc ihb => exact .cond ihc ihb
  | loopEnd _ ih => exact .loop ih (fun _ => rfl) nofun
  | loopAgain _ _ _ ihc ihe ihl => exact .loop ihc nofun fun _ => ⟨_, _, ihe, ihl⟩
  | blockLast _ ih => exact .blockLast ih
  | blockNext _ _ ihe ihs => exact .blockNext ihe ihs
  | letBody _ ih => exact .letBody ih
  | letOmitted homitted _ ih => exact .letOmitted hf homitted ih
  | letInit hinit _ ihinit ih => exact .letInit hf (not_omitted_of_eval hinit) ihinit ih

end Machine
end CoolCompiler
