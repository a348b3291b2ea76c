import CoolCompiler.Proofs.Value.Checked
import CoolCompiler.Proofs.Value.Constants
import CoolCompiler.Proofs.Value.Library
import CoolCompiler.Proofs.Value.Simulation

/-!
# Correctness of code

The code of a checked expression over integers, truth values and local variables runs to its end,
with its value in hl and the variables as evaluation leaves them.
-/

namespace CoolCompiler.Machine

open List Emit

/-- Where the code of a checked expression that compares only words stands in a listing, the data
of the program is in memory, the variables hold values and the stack has room, the code runs to
its end whenever the expression evaluates.  Then hl represents the value, the variables hold what
evaluation leaves in them, and all else that is live is as before. -/
theorem code_evaluates (f : Storage) (hf : f.Sound) {ctx : Typing.Context} {Γ : Scopes}
    {a e : Expr} (hchecked : Typing.infer ctx Γ a = .ok (e, []))
    (hwords : e.Everywhere Expr.ComparesWords)
    {labels labels' : Nat} {data : List Line} {p : Word} {s : Cpu}
    (hdata : Yields (do constants f.scene; prototypes f.scene) labels data () labels')
    (hloaded : f.Loaded s.memory p data)
    {session session' : Session} {ls : List Line} {i : Nat}
    (hcode : Yields (expr f.scene e) session ls () session') (hplaced : f.image.Placed i ls)
    (hfits : f.Fits session.env e.slots) (hroom : 2 * e.stackWords ≤ f.room)
    (hiy : s.iy = f.base) (hsp : s.sp = f.top)
    {ρ ρ' : Dictionary Value} {v : Value}
    (hstored : f.Stored [] s.memory session.env.scopes.flatten ρ) (heval : Eval ρ a v ρ') :
    ∃ s', Reaches f.image f.keep (.line i) s (.line (i + ls.length)) s' ∧ Still s s' ∧
      Represents f [] s'.memory v s'.hl ∧
      f.Stored [] s'.memory session.env.scopes.flatten ρ' := by
  have hready : Ready f [] 0 session.env.scopes.flatten ρ s := by
    refine ⟨hiy, hsp.trans (BitVec.sub_zero _).symm, Nat.zero_le _,
      Storage.static_of_loaded hdata hloaded, ?_, ?_, hstored⟩
    · rintro q ⟨k, hk, _⟩
      exact absurd hk (Nat.not_lt_zero k)
    · intro q hq
      exact absurd hq not_mem_nil
  have hwithin : Within f 0 session.env.scopes.flatten session.env e :=
    ⟨hwords, rfl, hfits, by rwa [Nat.zero_add]⟩
  rcases realizes_of_eval hf (heval.of_infer hchecked) hcode hplaced hwithin hready with ⟨s', hc⟩
  exact ⟨s', hc.reaches.mono fun _ ha => .inl ha, hc.still, hc.value, hc.stored⟩

/-!
# A loop that counts
-/

def countMark (typed : Bool) (literal : Text) (type : Name) : Mark :=
  ⟨literal, 1, if typed then type else []⟩

def countVariable (typed : Bool) (x : Name) : Expr := .object (countMark typed x Name.int) x

def countTest (typed : Bool) : Expr :=
  .complement (countMark typed "not" Name.bool)
    (.binary (countMark typed "x" Name.bool) .equal (countVariable typed "x")
      (.int (countMark typed "3" Name.int) 3))

def countStep (typed : Bool) : Expr :=
  .assign (countMark typed "x" Name.int) ⟨countMark typed "x" Name.int, "x"⟩
    (.binary (countMark typed "x" Name.int) .add (countVariable typed "x")
      (.int (countMark typed "1" Name.int) 1))

/-- The expression `let y : Int in { while not x = 3 loop x <- x + 1 pool; y - x; }`, with or
without its static types. -/
def countExpr (typed : Bool) : Expr :=
  .letIn (countMark typed "let" Name.int)
    [⟨1, "y", Name.int, .omitted (countMark typed "y" Name.noClass)⟩]
    (.block (countMark typed "while" Name.int)
      [.loop (countMark typed "while" Name.object) (countTest typed) (countStep typed),
      .binary (countMark typed "y" Name.int) .sub (countVariable typed "y")
        (countVariable typed "x")])

def countTable : ClassTable :=
  match ClassTable.build [] with
  | .ok t => t
  | .error _ => ⟨[]⟩

def countScene : Scene :=
  ⟨countTable, [.string [], .int 1, .int 2, .int 3].foldl Pool.internLiteral Pool.empty⟩

def countSession : Session :=
  ⟨0, ⟨⟨⟨1, "Main", none, [], "main.cl"⟩, 5, some 0, [], [], 6, []⟩, [[("x", slotPlace 0)]], 1, 1⟩⟩

def countData : Emitted Nat Unit := (do constants countScene; prototypes countScene) 0

def countImage : Image where
  code := (expr countScene (countExpr true) countSession).lines
  labelled := by decide +kernel
  value label := (addressOf? label 0x8000#16 countData.lines).getD 0#16
  start _ := 0#16
  library _ _ := none

def countStorage : Storage :=
  Storage.copying ⟨countScene, countImage, 0xC000#16, [0, 1], 0xD000#16, 4,
    fun a => (a - 0x8000#16).toNat < extent countData.lines⟩ 0x9000#16

def countMemory : Memory :=
  Memory.putWord (fun a => (bytes countImage.value countData.lines).getD (a - 0x8000#16).toNat 0#8)
    0xC000#16 (countImage.value (intLabel 2))

def countState : Cpu :=
  ⟨0#8, 0#16, 0#16, 0#16, 0#16, 0xC000#16, 0xD000#16, false, false, countMemory⟩

theorem extent_countData : extent countData.lines = 118 := by
  decide +kernel

theorem sound_countStorage : countStorage.Sound := by
  have hslot : ∀ a, countStorage.InSlot a → (a - 0xC000#16).toNat < 4 := by
    rintro a ⟨k, hk, ha⟩
    have hlt : k < 2 := by
      rcases mem_pair.mp hk with rfl | rfl <;> decide
    rcases ha with rfl | rfl
    · show (0xC000#16 + BitVec.ofNat 16 (2 * k) - 0xC000#16).toNat < 4
      bv_omega
    · show (0xC000#16 + BitVec.ofNat 16 (2 * k) + 1#16 - 0xC000#16).toNat < 4
      bv_omega
  have hstack : ∀ a, countStorage.InStack a → (0xD000#16 - 1#16 - a).toNat < 4 := fun _ h => h
  have hkeep : ∀ a, countStorage.keep a → (a - 0x8000#16).toNat < 118 := by
    intro a ha
    rw [← extent_countData]
    exact ha
  have hcopy : countImage.code.idxOf? (.label "Object.copy") = none := by
    decide +kernel
  constructor
  · intro k hk
    rcases mem_pair.mp hk with rfl | rfl <;> decide
  · decide
  · intro a ha ha'
    have h1 := hslot a ha
    have h2 := hstack a ha'
    bv_omega
  · intro a ha ha'
    have h1 := hkeep a ha
    have h2 := hslot a ha'
    bv_omega
  · intro a ha ha'
    have h1 := hkeep a ha
    have h2 := hstack a ha'
    bv_omega
  · show countImage.target "Object.copy" = _
    rw [Image.target, hcopy]
  · apply Storage.Roomy.allocates
    constructor
    · decide
    · intro a ha
      change (a - 0x9000#16).toNat < 80 at ha
      refine ⟨?_, fun h => ?_, fun h => ?_, fun h => ?_⟩
      · rintro rfl
        exact absurd ha (by decide)
      · have hlt := hkeep a h
        bv_omega
      · have hlt := hslot a h
        bv_omega
      · have hlt := hstack a h
        bv_omega

theorem loaded_countMemory :
    countStorage.Loaded countMemory 0x8000#16 countData.lines := by
  have hlaid : Laid countImage.value countMemory 0x8000#16 countData.lines := by
    decide +kernel
  refine ⟨hlaid, fun k hk => ?_, fun k hk => ?_⟩
  · show (0x8000#16 + BitVec.ofNat 16 k - 0x8000#16).toNat < extent countData.lines
    rw [extent_countData] at hk ⊢
    bv_omega
  · rw [extent_countData] at hk
    bv_omega

theorem infer_countExpr :
    Typing.infer ⟨Symbols.initial, "Main"⟩ (Scopes.empty.bind "x" Name.int) (countExpr false) =
      .ok (countExpr true, []) := rfl

def counting (w : BitVec 16) : Dictionary Value := [("y", .int 0#16), ("x", .int w)]

theorem eval_countVariable (w : BitVec 16) :
    Eval (counting w) (countVariable false "x") (.int w) (counting w) :=
  .lookup (by decide) rfl

theorem eval_countTest (w : BitVec 16) :
    Eval (counting w) (countTest false) (.bool !(w == 3#16)) (counting w) :=
  .complement (.equal rfl rfl (eval_countVariable w) .int)

theorem eval_countStep (w : BitVec 16) :
    Eval (counting w) (countStep false) (.int (w + 1#16)) (counting (w + 1#16)) :=
  .assign rfl (.arithmetic rfl (eval_countVariable w) .int)

theorem eval_countExpr :
    Eval [("x", .int 2#16)] (countExpr false) (.int (-3#16)) [("x", .int 3#16)] := by
  have hloop : Eval (counting 2#16)
      (.loop (countMark false "while" Name.object) (countTest false) (countStep false)) .void
      (counting 3#16) :=
    .loopAgain (eval_countTest 2#16) (eval_countStep 2#16) (.loopEnd (eval_countTest 3#16))
  have hlast : Eval (counting 3#16) (.binary (countMark false "y" Name.int) .sub
      (countVariable false "y") (countVariable false "x")) (.int (-3#16)) (counting 3#16) :=
    .arithmetic rfl (.lookup (by decide) rfl) (eval_countVariable 3#16)
  have hblock := Eval.blockNext (m := countMark false "while" Name.int) hloop
    (.blockLast (m := ⟨[], 1, []⟩) hlast)
  exact .letOmitted rfl (.letBody (m := ⟨[], 1, []⟩) hblock)

theorem everywhere_countExpr : (countExpr true).Everywhere Expr.ComparesWords := by
  have hpair : ∀ {a b : Expr}, a.Everywhere Expr.ComparesWords → b.Everywhere Expr.ComparesWords →
      ∀ c ∈ [a, b], c.Everywhere Expr.ComparesWords :=
    fun ha hb => forall_mem_cons.mpr ⟨ha, forall_mem_singleton.mpr hb⟩
  have hvariable : ∀ x, (countVariable true x).Everywhere Expr.ComparesWords :=
    fun _ => .intro trivial (forall_mem_nil _)
  have hint : ∀ m n, (Expr.int m n).Everywhere Expr.ComparesWords :=
    fun _ _ => .intro trivial (forall_mem_nil _)
  have htest : (countTest true).Everywhere Expr.ComparesWords :=
    .intro trivial (forall_mem_singleton.mpr
      (.intro (.inl rfl) (hpair (hvariable "x") (hint _ _))))
  have hstep : (countStep true).Everywhere Expr.ComparesWords :=
    .intro trivial (forall_mem_singleton.mpr
      (.intro trivial (hpair (hvariable "x") (hint _ _))))
  refine .intro trivial (hpair (.intro trivial (forall_mem_nil _)) (.intro trivial ?_))
  refine hpair (.intro trivial (hpair htest hstep)) ?_
  exact .intro trivial (hpair (hvariable "y") (hvariable "x"))

theorem yields_countData :
    Yields (do constants countScene; prototypes countScene) 0 countData.lines () 0 :=
  ⟨rfl, rfl, rfl⟩

theorem stored_countMemory :
    countStorage.Stored [] countMemory [("x", slotPlace 0)] [("x", .int 2#16)] := by
  have hstatic : countStorage.Static countMemory :=
    Storage.static_of_loaded yields_countData loaded_countMemory
  have hconstant := hstatic.int (n := 2) (k := 2) rfl
  have hword : countMemory.word (slotAt countStorage.base 0) = countImage.value (intLabel 2) :=
    Memory.word_putWord_self
  refine .cons ⟨rfl, 0, mem_cons_self, rfl, ?_⟩ .nil
  rw [hword]
  exact hconstant.represents sound_countStorage rfl (forall_mem_nil _)

theorem fits_countSession : countStorage.Fits countSession.env (countExpr true).slots := by
  have hslots : (countExpr true).slots = 1 := rfl
  rw [hslots]
  constructor
  · decide
  · decide
  · intro k hk hlt
    change (1 : Int) ≤ k at hk
    change (k : Int) < 1 + (1 : Nat) at hlt
    have hone : k = 1 := by omega
    subst hone
    exact ⟨by decide, by decide⟩
  · exact nodup_singleton _

theorem code_evaluates_count : countStorage.Sound ∧
    Typing.infer ⟨Symbols.initial, "Main"⟩ (Scopes.empty.bind "x" Name.int) (countExpr false) =
      .ok (countExpr true, []) ∧
    Eval [("x", .int 2#16)] (countExpr false) (.int (-3#16)) [("x", .int 3#16)] ∧
    ∃ s', Reaches countStorage.image countStorage.keep (.line 0) countState
        (.line countStorage.image.code.length) s' ∧ Still countState s' ∧
      Represents countStorage [] s'.memory (.int (-3#16)) s'.hl ∧
      countStorage.Stored [] s'.memory [("x", slotPlace 0)] [("x", .int 3#16)] := by
  have hplaced : countStorage.image.Placed 0 countImage.code := by
    intro k l hk
    rw [Nat.zero_add]
    exact hk
  have hcode : Yields (expr countScene (countExpr true)) countSession countImage.code ()
      (expr countScene (countExpr true) countSession).state := ⟨rfl, rfl, rfl⟩
  rcases code_evaluates countStorage sound_countStorage infer_countExpr everywhere_countExpr
    (s := countState) yields_countData loaded_countMemory hcode hplaced fits_countSession
    (by decide) rfl rfl stored_countMemory eval_countExpr with
    ⟨s', hreaches, hstill, hvalue, hstored⟩
  rw [Nat.zero_add] at hreaches
  exact ⟨sound_countStorage, infer_countExpr, eval_countExpr, s', hreaches, hstill, hvalue, hstored⟩

end CoolCompiler.Machine
